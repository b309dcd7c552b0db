/-
  The two checks of a server's identity: `check_identity` in Rust (`tls.rs`, for the runtime's own connections) and
  `tls.checkServerIdentity` in JavaScript (`node_compat.js`).  They agree, because a pattern that is not refused is
  ASCII, and a host that is not ASCII has room between the two ends of a wildcard in bytes as well as in code units.
-/
import Oam.Lib.LexPath
import Oam.Tls.Addresses
import Oam.Tls.AltNames

namespace Oam.Tls

open List Text

/-! ## Rust -/

/-- An attribute of the subject, as the certificate parser hands it over. -/
structure Attribute where
  oid : Str
  tag : UInt8
  value : List UInt8

structure HostIdentity where
  altNames : Option Str
  dnsNames : List Str
  ips : List Str
  cn : Option (List Str)

/-- The subject's CN values; none if it has none, or a value that cannot be converted. -/
def subjectCn (subject : List (List Attribute)) : Option (List Str) :=
  let texts := subject.flatten.map fun a => (a.oid, asn1StringToUtf8 a.tag a.value)
  let cn := texts.filterMap fun (oid, text) => if oid = "2.5.4.3".toList then text else none
  if texts.all (fun p => p.2.isSome) && !cn.isEmpty then some cn else none

def dnsName : GeneralName → Option Str
  | .dns bytes => some (latin1 bytes)
  | _ => none

def ipAddress : GeneralName → Option Str
  | .ip bytes => some ((ipText bytes).getD [])
  | _ => none

/-- `HostIdentity::from_certificate`. -/
def HostIdentity.fromCertificate (extension : Option (List UInt8)) (subject : List (List Attribute)) : HostIdentity :=
  match extension.bind generalNames with
  | none => ⟨none, [], [], subjectCn subject⟩
  | some names => ⟨some (Tls.altNames names), names.filterMap dnsName, names.filterMap ipAddress, subjectCn subject⟩

def unfqdn (host : Str) : Str := if host.getLast? = some '.' then host.dropLast else host

def splitHost (host : Str) : List Str := ((unfqdn host).map asciiLower).splitOn '.'

def isBad (part : Str) : Bool := part.any fun c => !(decide (0x21 ≤ c.toNat ∧ c.toNat ≤ 0x7f))

/-- The first label, the only one that may have a wildcard, in a pattern of so many `labels`. -/
def subdomainMatches (hostSubdomain patternSubdomain : Str) (labels : Nat) (wildcards : Bool) : Bool :=
  let parts := patternSubdomain.splitOn '*'
  if parts.length = 1 ∨ containsText "xn--".toList patternSubdomain = true then
    decide (hostSubdomain = patternSubdomain)
  else if !wildcards then false
  else if 2 < parts.length then false
  else if labels ≤ 2 then false
  else
    let before := parts.getD 0 []
    let behind := parts.getD 1 []
    if utf8Len hostSubdomain < utf8Len before + utf8Len behind then false
    else before.isPrefixOf hostSubdomain && behind.isSuffixOf hostSubdomain

def hostMatches (hostParts : List Str) (pattern : Str) (wildcards : Bool) : Bool :=
  if pattern = [] then false
  else
    let patternParts := splitHost pattern
    if hostParts.length ≠ patternParts.length then false
    else if patternParts.any List.isEmpty then false
    else if patternParts.any isBad then false
    else if hostParts.tail ≠ patternParts.tail then false
    else subdomainMatches (hostParts.headD []) (patternParts.headD []) patternParts.length wildcards

/-- Whether the name is valid, and the reason to give if it is not. -/
abbrev Judgement (α : Type) := Bool × List α

/-- `none` for a match, else the reason. -/
def Judgement.verdict {α : Type} (judgement : Judgement α) : Option (List α) :=
  if judgement.1 then none else some judgement.2

/-- An address must be listed; a name is matched against the DNS names, or with none the CNs. -/
def judgeIdentity (hostname : Str) (identity : HostIdentity) : Judgement Char :=
  let cn := identity.cn.getD []
  match canonicalizeIp hostname with
  | some wanted =>
    (identity.ips.any fun ip => decide (ip = wanted),
      "IP: ".toList ++ hostname ++ " is not in the cert's list: ".toList ++ ", ".toList.intercalate identity.ips)
  | none =>
    -- one CN is there when it is not empty; several always are
    if identity.dnsNames ≠ [] ∨ 1 < cn.length ∨ cn.headD [] ≠ [] then
      let hostParts := splitHost hostname
      if identity.dnsNames ≠ [] then
        (identity.dnsNames.any fun pattern => hostMatches hostParts pattern true,
          "Host: ".toList ++ hostname ++ ". is not in the cert's altnames: ".toList ++ identity.altNames.getD [])
      else
        (cn.any fun pattern => hostMatches hostParts pattern true,
          "Host: ".toList ++ hostname ++ ". is not cert's CN: ".toList ++ ",".toList.intercalate cn)
    else (false, "Cert does not contain a DNS name".toList)

/-- `check_identity`. -/
def checkIdentity (hostname : Str) (identity : HostIdentity) : Option Str :=
  (judgeIdentity (unfqdn hostname) identity).verdict

/-! ## JavaScript -/

/-- `subject.CN`: absent, one value, or an array of several. -/
inductive CommonName where
  | undefined
  | one (value : Units)
  | many (values : List Units)

/-- What `checkServerIdentity` reads of the certificate object. -/
structure LegacyObject where
  subjectaltname : Option Units
  cn : CommonName

/-- `x509NameObject(entries)[key]`: a repeated key becomes an array. -/
def x509NameObject (entries : List (Str × Str)) (key : Str) : CommonName :=
  entries.foldl (fun held entry =>
    if entry.1 = key then
      match held with
      | .undefined => .one (utf16 entry.2)
      | .one value => .many [value, utf16 entry.2]
      | .many values => .many (values ++ [utf16 entry.2])
    else held) .undefined

/-- `x509LegacyObject`, the two fields. -/
def x509LegacyObject (extension : Option (List UInt8)) (subjectEntries : List (Str × Str)) : LegacyObject :=
  ⟨(extension.bind altNamesText).map utf16, x509NameObject subjectEntries "CN".toList⟩

/-- `natives.tlsCanonicalizeIp`. -/
def tlsCanonicalizeIp (text : Units) : Option Units := (canonicalizeIp (ofUtf16 text)).map utf16

def dot : UInt16 := 0x2e

def unfqdnJs (host : Units) : Units := if host.getLast? = some dot then host.dropLast else host

def lowerAZ (u : UInt16) : UInt16 := if 0x41 ≤ u.toNat ∧ u.toNat ≤ 0x5a then UInt16.ofNat (32 + u.toNat) else u

def splitHostJs (host : Units) : List Units := ((unfqdnJs host).map lowerAZ).splitOn dot

def isBadJs (part : Units) : Bool := part.any fun u => !(decide (0x21 ≤ u.toNat ∧ u.toNat ≤ 0x7f))

/-- `String.prototype.includes`. -/
def includes (needle : Units) : Units → Bool
  | [] => needle.isEmpty
  | u :: us => needle.isPrefixOf (u :: us) || includes needle us

/-- `subdomainMatches` as JavaScript has it. -/
def checkSubdomain (hostSubdomain patternSubdomain : Units) (labels : Nat) (wildcards : Bool) : Bool :=
  let patternSubdomainParts := (patternSubdomain.splitOn 0x2a).take 3
  if patternSubdomainParts.length = 1 ∨ includes (utf16 "xn--".toList) patternSubdomain = true then
    decide (hostSubdomain = patternSubdomain)
  else if !wildcards then false
  else if 2 < patternSubdomainParts.length then false
  else if labels ≤ 2 then false
  else
    let before := patternSubdomainParts.getD 0 []
    let behind := patternSubdomainParts.getD 1 []
    if hostSubdomain.length < before.length + behind.length then false
    else before.isPrefixOf hostSubdomain && behind.isSuffixOf hostSubdomain

def checkHostPattern (hostParts : List Units) (pattern : Units) (wildcards : Bool) : Bool :=
  if pattern = [] then false
  else
    let patternParts := splitHostJs pattern
    if hostParts.length ≠ patternParts.length then false
    else if [] ∈ patternParts then false
    else if patternParts.any isBadJs then false
    else if hostParts.tail ≠ patternParts.tail then false
    else checkSubdomain (hostParts.headD []) (patternParts.headD []) patternParts.length wildcards

/-- The `DNS:` and `IP Address:` entries of the list; `undefined` for an address that libuv does not read. -/
def readEntries : List Units → List Units × List (Option Units)
  | [] => ([], [])
  | name :: rest =>
    let (dnsNames, ips) := readEntries rest
    match name.dropPrefix? (utf16 "DNS:".toList) with
    | some dns => (dns :: dnsNames, ips)
    | none =>
      match name.dropPrefix? (utf16 "IP Address:".toList) with
      | some ip => (dnsNames, tlsCanonicalizeIp ip :: ips)
      | none => (dnsNames, ips)

/-- `if (subject.CN)`: an array is always true, a text unless it is empty. -/
def CommonName.truthy : CommonName → Bool
  | .undefined => false
  | .one value => !value.isEmpty
  | .many _ => true

def CommonName.values : CommonName → List Units
  | .undefined => []
  | .one value => if value = [] then [] else [value]
  | .many values => values

/-- `"" + cn`. -/
def CommonName.text : CommonName → Units
  | .undefined => utf16 "undefined".toList
  | .one value => value
  | .many values => (utf16 ",".toList).intercalate values

/-- The same judgement in `checkServerIdentity`, over UTF-16. -/
def judgeServer (isIP : Units → Bool) (hostname : Units) (cert : LegacyObject) (dnsNames : List Units)
    (ips : List (Option Units)) : Judgement UInt16 :=
  if isIP hostname then
    (decide (tlsCanonicalizeIp hostname ∈ ips),
      utf16 "IP: ".toList ++ hostname ++ utf16 " is not in the cert's list: ".toList ++
        (utf16 ", ".toList).intercalate (ips.map fun ip => ip.getD []))
  else if dnsNames ≠ [] ∨ cert.cn.truthy = true then
    let hostParts := splitHostJs hostname
    if dnsNames ≠ [] then
      (dnsNames.any fun pattern => checkHostPattern hostParts pattern true,
        utf16 "Host: ".toList ++ hostname ++ utf16 ". is not in the cert's altnames: ".toList ++
          cert.subjectaltname.getD [])
    else
      (cert.cn.values.any fun pattern => checkHostPattern hostParts pattern true,
        utf16 "Host: ".toList ++ hostname ++ utf16 ". is not cert's CN: ".toList ++ cert.cn.text)
  else (false, utf16 "Cert does not contain a DNS name".toList)

/-- `checkServerIdentity`: `net.isIP` is the library's.  It may throw. -/
def checkServerIdentity (isIP : Units → Bool) (hostname : Units) (cert : LegacyObject) :
    Except SplitError (Option Units) :=
  (splitAltNames (cert.subjectaltname.getD [])).map fun entries =>
    (judgeServer isIP (unfqdnJs hostname) cert (readEntries entries).1 (readEntries entries).2).verdict

/-! ## Hosts and patterns, in either alphabet -/

open CommonName

theorem getLast?_utf16 {a : Char} (ha : a.toNat < 128) (s : Str) :
    (utf16 s).getLast? = some (unit a) ↔ s.getLast? = some a := by
  rcases eq_nil_or_concat s with rfl | ⟨t, c, rfl⟩
  · simp
  · rw [concat_eq_append, utf16_append, getLast?_concat]
    constructor
    · intro h
      by_contra hne
      apply unit_notMem_utf16Char ha (c := c) fun he => hne (by rw [he])
      have hlast : (utf16 [c]).getLast? = some (unit a) := by
        rw [getLast?_append] at h
        cases hl : (utf16 [c]).getLast? with
        | none =>
          rw [getLast?_eq_none_iff] at hl
          have : utf16Char c = [] := by simpa [utf16_cons] using hl
          unfold utf16Char at this
          split at this <;> cases this
        | some =>
          rw [hl] at h
          exact h
      have := mem_of_getLast? hlast
      simpa [utf16_cons] using this
    · intro h
      cases h
      rw [utf16_cons, utf16Char_ascii ha, utf16_nil, append_nil, getLast?_concat]

theorem unfqdnJs_utf16 (host : Str) : unfqdnJs (utf16 host) = utf16 (unfqdn host) := by
  have hdot : unit '.' = dot := by decide
  unfold unfqdnJs unfqdn
  by_cases h : host.getLast? = some '.'
  · rw [← hdot, if_pos ((getLast?_utf16 (by decide) host).mpr h), if_pos h]
    obtain ⟨t, rfl⟩ := getLast?_eq_some_iff.mp h
    rw [utf16_append, dropLast_concat, utf16_cons, utf16Char_ascii (by decide), utf16_nil, append_nil,
      dropLast_concat]
  · rw [← hdot, if_neg fun h' => h ((getLast?_utf16 (by decide) host).mp h'), if_neg h]

theorem utf16Char_asciiLower (c : Char) : utf16Char (asciiLower c) = (utf16Char c).map lowerAZ := by
  unfold asciiLower
  split
  · next hc =>
    have hbounds : 0x41 ≤ c.toNat ∧ c.toNat ≤ 0x5a := hc
    have hlower : (Char.ofNat (c.toNat + 32)).toNat = c.toNat + 32 := toNat_ofNat_of_valid (by omega)
    rw [utf16Char_ascii (by omega), utf16Char_ascii (by omega), map_singleton, lowerAZ,
      toNat_unit (by omega), if_pos hbounds, unit, hlower, Nat.add_comm]
  · next hc =>
    have hsame : ∀ u ∈ utf16Char c, lowerAZ u = u := by
      intro u hu
      apply if_neg
      rintro ⟨_, _⟩
      rcases mem_utf16Char hu with he | hle
      · exact hc ⟨by show 0x41 ≤ c.toNat; omega, by show c.toNat ≤ 0x5a; omega⟩
      · omega
    rw [map_congr_left hsame, map_id']

theorem utf16_map_asciiLower (s : Str) : utf16 (s.map asciiLower) = (utf16 s).map lowerAZ := by
  induction s with
  | nil => rfl
  | cons c s ih => rw [map_cons, utf16_cons, utf16_cons, ih, map_append, utf16Char_asciiLower]

theorem splitHostJs_utf16 (host : Str) : splitHostJs (utf16 host) = (splitHost host).map utf16 := by
  have hdot : unit '.' = dot := by decide
  rw [splitHostJs, unfqdnJs_utf16, ← utf16_map_asciiLower, ← hdot, splitOn_utf16 (by decide), splitHost]

variable {s : Str}

theorem utf16_eq_nil : utf16 s = [] ↔ s = [] := by
  rw [← utf16_nil, utf16_inj]

theorem nil_mem_map_utf16 {parts : List Str} : [] ∈ parts.map utf16 ↔ [] ∈ parts := by
  rw [mem_map]
  constructor
  · rintro ⟨_, _, hnil⟩
    rwa [← utf16_eq_nil.mp hnil]
  · intro h
    exact ⟨[], h, rfl⟩

theorem isBadJs_utf16 (part : Str) : isBadJs (utf16 part) = isBad part := by
  rw [isBadJs, utf16, any_flatMap, isBad]
  congr 1
  funext c
  unfold utf16Char
  split
  · next hlt => rw [any_cons, any_nil, Bool.or_false, toNat_unit hlt]
  next hge =>
  have hbad : decide (0x21 ≤ c.toNat ∧ c.toNat ≤ 0x7f) = false := decide_eq_false (by omega)
  have hhigh : decide (0x21 ≤ (UInt16.ofNat (0xD800 + (c.toNat - 0x10000) / 0x400)).toNat ∧
      (UInt16.ofNat (0xD800 + (c.toNat - 0x10000) / 0x400)).toNat ≤ 0x7f) = false := by
    have hc : c.toNat < 0x110000 := by
      have hvalid : c.toNat < 0xD800 ∨ (0xDFFF < c.toNat ∧ c.toNat < 0x110000) := c.valid
      omega
    rw [UInt16.toNat_ofNat']
    exact decide_eq_false (by omega)
  rw [any_cons, hhigh, hbad]
  rfl

theorem ascii_of_not_isBad {part : Str} (h : isBad part = false) : ∀ c ∈ part, c.toNat < 128 := by
  intro c hc
  have := any_eq_false.mp h c hc
  simp only [Bool.not_eq_true', decide_eq_false_iff_not, not_not] at this
  omega

/-! ## A wildcard -/

theorem includes_iff {needle us : Units} : includes needle us ↔ needle <:+: us := by
  induction us with
  | nil => simp [includes]
  | cons u us ih => rw [includes, Bool.or_eq_true, isPrefixOf_iff_prefix, ih, infix_cons_iff]

theorem prefix_utf16 {p h : Str} (hp : ∀ c ∈ p, c.toNat < 128) : utf16 p <+: utf16 h ↔ p <+: h := by
  constructor
  · intro hpre
    induction p generalizing h with
    | nil => exact nil_prefix
    | cons c p ih =>
      have hc := hp c mem_cons_self
      rw [utf16_cons, utf16Char_ascii hc, singleton_append] at hpre
      cases h with
      | nil => exact absurd hpre (by simp)
      | cons d =>
        have hd : d = c := by
          by_contra hne
          apply unit_notMem_utf16Char hc hne
          rw [utf16_cons] at hpre
          cases hu : utf16Char d with
          | nil =>
            unfold utf16Char at hu
            split at hu <;> cases hu
          | cons =>
            rw [hu, cons_append, cons_prefix_cons] at hpre
            rw [hpre.1]
            exact mem_cons_self
        subst hd
        rw [utf16_cons, utf16Char_ascii hc, singleton_append, cons_prefix_cons] at hpre
        exact cons_prefix_cons.mpr ⟨rfl, ih (fun e he => hp e (mem_cons_of_mem d he)) hpre.2⟩
  · rintro ⟨t, rfl⟩
    exact ⟨utf16 t, (utf16_append p t).symm⟩

theorem suffix_utf16 {q h : Str} (hq : ∀ c ∈ q, c.toNat < 128) : utf16 q <:+ utf16 h ↔ q <:+ h := by
  constructor
  · intro hsuf
    induction q using reverseRecOn generalizing h with
    | nil => exact nil_suffix
    | append_singleton q c ih =>
      have hc := hq c (by simp)
      have hunits : utf16 (q ++ [c]) = utf16 q ++ [unit c] := by
        rw [utf16_append, utf16_cons, utf16Char_ascii hc, utf16_nil, append_nil]
      rw [hunits] at hsuf
      have hlast : h.getLast? = some c := by
        rw [← getLast?_utf16 hc]
        obtain ⟨us, hus⟩ := hsuf
        rw [← hus, ← append_assoc, getLast?_concat]
      obtain ⟨h, rfl⟩ := getLast?_eq_some_iff.mp hlast
      rw [utf16_append, utf16_cons, utf16Char_ascii hc, utf16_nil, append_nil] at hsuf
      obtain ⟨us, hus⟩ := hsuf
      rw [← append_assoc] at hus
      have hq' : utf16 q <:+ utf16 h := ⟨us, append_cancel_right hus⟩
      obtain ⟨t, rfl⟩ := ih (fun e he => hq e (mem_append_left _ he)) hq'
      exact ⟨t, by rw [append_assoc]⟩
  · rintro ⟨t, rfl⟩
    exact ⟨utf16 t, (utf16_append t q).symm⟩

theorem utf8Size_ascii {c : Char} (h : c.toNat < 128) : c.utf8Size = 1 :=
  Char.utf8Size_eq_one_iff.mpr (UInt32.le_iff_toNat_le.mpr (Nat.le_of_lt_succ h))

theorem utf8Len_ascii (h : ∀ c ∈ s, c.toNat < 128) : utf8Len s = s.length := by
  induction s with
  | nil => rfl
  | cons c s ih =>
    rw [utf8Len_cons, utf8Size_ascii (h c mem_cons_self), ih fun d hd => h d (mem_cons_of_mem c hd),
      length_cons, Nat.add_comm]

theorem length_utf16_ascii (h : ∀ c ∈ s, c.toNat < 128) : (utf16 s).length = s.length := by
  rw [utf16_ascii h, length_map]

theorem length_le_utf8Len (s : Str) : s.length ≤ utf8Len s := by
  induction s with
  | nil => exact Nat.le_refl 0
  | cons c =>
    have := c.utf8Size_pos
    rw [utf8Len_cons, length_cons]
    omega

theorem length_le_utf16 (s : Str) : s.length ≤ (utf16 s).length := by
  induction s with
  | nil => exact Nat.le_refl 0
  | cons c =>
    have hone : 1 ≤ (utf16Char c).length := by
      unfold utf16Char
      split <;> simp
    rw [utf16_cons, length_cons, length_append]
    omega

theorem room_between {p q h : Str} (hp : ∀ c ∈ p, c.toNat < 128) (hq : ∀ c ∈ q, c.toNat < 128) (hpre : p <+: h)
    (hsuf : q <:+ h) {x : Char} (hx : x ∈ h) (hhigh : 128 ≤ x.toNat) : p.length + q.length < h.length := by
  obtain ⟨u, v, rfl⟩ := append_of_mem hx
  have hxp : x ∉ p := fun hmem => by have := hp x hmem; omega
  have hxq : x ∉ q := fun hmem => by have := hq x hmem; omega
  have hu : p.length ≤ u.length := by
    rcases prefix_or_prefix_of_prefix hpre (⟨v, by simp⟩ : u ++ [x] <+: u ++ x :: v) with hle | hge
    · rcases prefix_concat_iff.mp hle with rfl | hle
      · exact absurd (by simp) hxp
      · exact hle.length_le
    · exact absurd (hge.subset (by simp)) hxp
  have hv : q.length ≤ v.length := by
    rcases suffix_or_suffix_of_suffix hsuf (suffix_append u (x :: v)) with hle | hge
    · rcases suffix_cons_iff.mp hle with rfl | hle
      · exact absurd (by simp) hxq
      · exact hle.length_le
    · exact absurd (hge.subset (by simp)) hxq
  rw [length_append, length_cons]
  omega

theorem wildcard_utf16 {p q : Str} (hp : ∀ c ∈ p, c.toNat < 128) (hq : ∀ c ∈ q, c.toNat < 128) (h : Str) :
    (if (utf16 h).length < (utf16 p).length + (utf16 q).length then false
      else (utf16 p).isPrefixOf (utf16 h) && (utf16 q).isSuffixOf (utf16 h)) =
    (if utf8Len h < utf8Len p + utf8Len q then false else p.isPrefixOf h && q.isSuffixOf h) := by
  have hends : ((utf16 p).isPrefixOf (utf16 h) && (utf16 q).isSuffixOf (utf16 h)) =
      (p.isPrefixOf h && q.isSuffixOf h) := by
    rw [Bool.eq_iff_iff, Bool.and_eq_true, Bool.and_eq_true, isPrefixOf_iff_prefix, isPrefixOf_iff_prefix,
      isSuffixOf_iff_suffix, isSuffixOf_iff_suffix, prefix_utf16 hp, suffix_utf16 hq]
  rw [hends, length_utf16_ascii hp, length_utf16_ascii hq, utf8Len_ascii hp, utf8Len_ascii hq]
  by_cases hascii : ∀ c ∈ h, c.toNat < 128
  · rw [length_utf16_ascii hascii, utf8Len_ascii hascii]
  simp only [not_forall, Nat.not_lt] at hascii
  obtain ⟨x, hx, hhigh⟩ := hascii
  cases hmatch : p.isPrefixOf h && q.isSuffixOf h with
  | false => rw [ite_self, ite_self]
  | true =>
    rw [Bool.and_eq_true, isPrefixOf_iff_prefix, isSuffixOf_iff_suffix] at hmatch
    have hroom := room_between hp hq hmatch.1 hmatch.2 hx hhigh
    have hbytes := length_le_utf8Len h
    have hunits := length_le_utf16 h
    rw [if_neg (by omega), if_neg (by omega)]

theorem includes_utf16 (needle : Str) (hs : ∀ c ∈ s, c.toNat < 128) :
    includes (utf16 needle) (utf16 s) = containsText needle s := by
  rw [Bool.eq_iff_iff, includes_iff, containsText_iff]
  constructor
  · rintro ⟨us, vs, hus⟩
    rw [utf16_ascii hs, append_eq_map_iff] at hus
    obtain ⟨s₁, s₃, rfl, h₁, -⟩ := hus
    obtain ⟨s₀, s₂, rfl, -, h₂⟩ := map_eq_append_iff.mp h₁
    have hs₂ : ∀ c ∈ s₂, c.toNat < 128 := fun c hc => hs c (by simp [hc])
    rw [← utf16_ascii hs₂, utf16_inj] at h₂
    exact ⟨s₀, s₃, by rw [h₂]⟩
  · rintro ⟨s₀, s₃, rfl⟩
    exact ⟨utf16 s₀, utf16 s₃, by rw [utf16_append, utf16_append]⟩

theorem getD_map_utf16 (parts : List Str) (i : Nat) : (parts.map utf16).getD i [] = utf16 (parts.getD i []) := by
  rw [getD_eq_getElem?_getD, getElem?_map, getD_eq_getElem?_getD]
  cases parts[i]? <;> rfl

theorem checkSubdomain_utf16 {pattern : Str} (hpattern : ∀ c ∈ pattern, c.toNat < 128) (host : Str) (labels : Nat)
    (wildcards : Bool) :
    checkSubdomain (utf16 host) (utf16 pattern) labels wildcards = subdomainMatches host pattern labels wildcards := by
  have hstar : (0x2a : UInt16) = unit '*' := by decide
  have hparts : ∀ i, ∀ c ∈ (pattern.splitOn '*').getD i [], c.toNat < 128 := by
    intro i c hc
    rw [getD_eq_getElem?_getD] at hc
    cases hi : (pattern.splitOn '*')[i]? with
    | none =>
      rw [hi] at hc
      cases hc
    | some =>
      rw [hi] at hc
      exact hpattern c ((LexPath.infix_of_mem_splitOnP (mem_of_getElem? hi)).1.subset hc)
  have htake : ∀ i < 3, (((pattern.splitOn '*').map utf16).take 3).getD i [] =
      utf16 ((pattern.splitOn '*').getD i []) := by
    intro i hi
    rw [getD_eq_getElem?_getD, getElem?_take, if_pos hi, ← getD_eq_getElem?_getD, getD_map_utf16]
  have hlength : (((pattern.splitOn '*').map utf16).take 3).length = min 3 (pattern.splitOn '*').length := by
    rw [length_take, length_map]
  have hone : min 3 (pattern.splitOn '*').length = 1 ↔ (pattern.splitOn '*').length = 1 := by omega
  have htwo : 2 < min 3 (pattern.splitOn '*').length ↔ 2 < (pattern.splitOn '*').length := by omega
  rw [checkSubdomain, hstar, splitOn_utf16 (by decide), htake 0 (by omega), htake 1 (by omega), hlength,
    includes_utf16 _ hpattern, wildcard_utf16 (hparts 0) (hparts 1), subdomainMatches]
  simp only [hone, htwo, utf16_inj]

/-- **The two matchers agree.** -/
theorem checkHostPattern_utf16 (hostParts : List Str) (pattern : Str) (wildcards : Bool) :
    checkHostPattern (hostParts.map utf16) (utf16 pattern) wildcards = hostMatches hostParts pattern wildcards := by
  have hbad : (isBadJs ∘ utf16) = isBad := funext isBadJs_utf16
  have htail : (hostParts.map utf16).tail ≠ ((splitHost pattern).map utf16).tail ↔
      hostParts.tail ≠ (splitHost pattern).tail := by
    rw [← map_tail, ← map_tail, Ne, Ne, (map_injective_iff.mpr fun _ _ => utf16_injective).eq_iff]
  unfold checkHostPattern hostMatches
  have hhead (parts : List Str) : (parts.map utf16).headD [] = utf16 (parts.headD []) := by cases parts <;> rfl
  have hempty (parts : List Str) : parts.any isEmpty ↔ [] ∈ parts := by simp
  simp only [utf16_eq_nil, splitHostJs_utf16, length_map, nil_mem_map_utf16, any_map, hbad, htail, hhead, hempty]
  -- the same questions up to here; the rest is asked of a pattern that is not bad
  refine ite_congr rfl (fun _ => rfl) fun _ => ite_congr rfl (fun _ => rfl) fun _ => ?_
  refine ite_congr rfl (fun _ => rfl) fun _ => ite_congr rfl (fun _ => rfl) fun hisBad => ?_
  refine ite_congr rfl (fun _ => rfl) fun _ => ?_
  have hlabel : ∀ c ∈ (splitHost pattern).headD [], c.toNat < 128 := by
    cases hsplit : splitHost pattern with
    | nil =>
      intro c hc
      cases hc
    | cons =>
      rw [hsplit, any_cons, Bool.or_eq_true, not_or] at hisBad
      exact ascii_of_not_isBad (Bool.eq_false_iff.mpr hisBad.1)
  exact checkSubdomain_utf16 hlabel (hostParts.headD []) (splitHost pattern).length wildcards

/-! ## The checks -/

theorem utf16_latin1 (bytes : List UInt8) : utf16 (latin1 bytes) = bytes.map UInt8.toUInt16 := by
  induction bytes with
  | nil => rfl
  | cons b bytes ih =>
    have hb := b.toNat_lt
    have hbmp : (Char.ofNat b.toNat).toNat < 0x10000 := by
      rw [toNat_ofNat_of_valid (by omega)]
      omega
    rw [latin1, map_cons, utf16_cons, utf16Char, if_pos hbmp, unit_ofNat, ← latin1, ih]
    rfl

theorem tlsCanonicalizeIp_utf16 (text : Str) : tlsCanonicalizeIp (utf16 text) = (canonicalizeIp text).map utf16 := by
  rw [tlsCanonicalizeIp, ofUtf16_utf16]

/-- An address entry as JavaScript has it: the text, or `undefined`. -/
def ipEntry : GeneralName → Option (Option Str)
  | .ip bytes => some (ipText bytes)
  | _ => none

variable {names : List GeneralName}

/-- **The entries are the names that Rust reads off the DER.** -/
theorem readEntries_eq {entries : List Units} (h : Forall₂ Reads names entries) : readEntries entries =
    ((names.filterMap dnsName).map utf16, (names.filterMap ipEntry).map fun ip => ip.map utf16) := by
  induction h with
  | nil => rfl
  | @cons name entry names entries hread _ ih =>
    have hnone : ∀ {p : Units}, ¬p <+: entry → entry.dropPrefix? p = none := by
      intro p hp
      cases hd : entry.dropPrefix? p with
      | none => rfl
      | some rest => exact absurd ⟨rest, (dropPrefix?_eq_some.mp hd).symm⟩ hp
    rw [readEntries, ih]
    dsimp only
    cases name with
    | dns bytes =>
      rw [hread.dnsName bytes rfl, dropPrefix?_append, ← utf16_latin1]
      rfl
    | ip bytes =>
      have hdns := hnone (mt hread.dns.mp (by simp))
      rw [hdns]
      dsimp only
      rw [hread.address bytes rfl, dropPrefix?_append]
      dsimp only
      rw [tlsCanonicalizeIp_utf16, canonicalizeIp_ipEntryText]
      rfl
    | _ =>
      have hdns := hnone (mt hread.dns.mp (by simp))
      have hip := hnone (mt hread.ip.mp (by simp))
      rw [hdns, hip]
      rfl

def CommonName.ofValues : List Str → CommonName
  | [] => .undefined
  | [value] => .one (utf16 value)
  | values => .many (values.map utf16)

theorem x509NameObject_eq (entries : List (Str × Str)) (key : Str) :
    x509NameObject entries key = .ofValues ((entries.filter fun entry => entry.1 = key).map Prod.snd) := by
  induction entries using reverseRecOn with
  | nil => rfl
  | append_singleton entries entry ih =>
    rw [x509NameObject, foldl_concat, ← x509NameObject, ih, filter_append, map_append]
    by_cases hkey : entry.1 = key
    · rw [if_pos hkey, filter_cons_of_pos (by simpa using hkey), filter_nil, map_singleton]
      generalize (entries.filter fun entry => decide (entry.1 = key)).map Prod.snd = values
      cases values with
      | nil => rfl
      | cons v values =>
        cases values with
        | nil => rfl
        | cons => simp [ofValues]
    · rw [if_neg hkey, filter_cons_of_neg (by simpa using hkey), filter_nil, map_nil, append_nil]

theorem truthy_ofValues (values : List Str) :
    (ofValues values).truthy ↔ 1 < values.length ∨ values.headD [] ≠ [] := by
  cases values with
  | nil => simp [ofValues, truthy]
  | cons v values =>
    cases values with
    | nil => simp [ofValues, truthy, utf16_eq_nil]
    | cons => simp [ofValues, truthy]

theorem text_ofValues {values : List Str} (h : values ≠ []) :
    (ofValues values).text = utf16 (",".toList.intercalate values) := by
  cases values with
  | nil => exact absurd rfl h
  | cons v values =>
    cases values with
    | nil => rw [ofValues, text, intercalate_singleton]
    | cons v' values =>
      show (utf16 ",".toList).intercalate ((v :: v' :: values).map utf16) = _
      rw [utf16_intercalate]

/-- An empty pattern never matches, so it makes no difference that one alone is not tried. -/
theorem any_ofValues (values : List Str) (hostParts : List Str) :
    (ofValues values).values.any (fun pattern => checkHostPattern (hostParts.map utf16) pattern true) =
      values.any fun pattern => hostMatches hostParts pattern true := by
  have hany : ∀ values : List Str,
      (values.map utf16).any (fun pattern => checkHostPattern (hostParts.map utf16) pattern true) =
        values.any fun pattern => hostMatches hostParts pattern true := by
    intro values
    rw [any_map]
    congr 1
    funext pattern
    exact checkHostPattern_utf16 hostParts pattern true
  cases values with
  | nil => rfl
  | cons v values =>
    cases values with
    | nil =>
      rw [ofValues, values]
      split
      · next hnil =>
        rw [utf16_eq_nil] at hnil
        subst hnil
        rfl
      · exact hany [v]
    | cons v' values => exact hany (v :: v' :: values)

theorem mem_ips {wanted : Str} (hwanted : wanted ≠ []) : some (utf16 wanted) ∈
    (names.filterMap ipEntry).map (fun ip => ip.map utf16) ↔ wanted ∈ names.filterMap ipAddress := by
  constructor
  · intro h
    obtain ⟨ip, hip, he⟩ := mem_map.mp h
    obtain ⟨name, hname, hentry⟩ := mem_filterMap.mp hip
    refine mem_filterMap.mpr ⟨name, hname, ?_⟩
    cases name with
    | ip =>
      cases hentry
      obtain ⟨text, htext, hunits⟩ := Option.map_eq_some_iff.mp he
      rw [ipAddress, htext, ← utf16_injective hunits]
      rfl
    | _ => cases hentry
  · intro h
    obtain ⟨name, hname, hentry⟩ := mem_filterMap.mp h
    refine mem_map.mpr ⟨some wanted, mem_filterMap.mpr ⟨name, hname, ?_⟩, rfl⟩
    cases name with
    | ip bytes =>
      rw [ipEntry]
      cases htext : ipText bytes with
      | none =>
        rw [ipAddress, htext] at hentry
        cases hentry
        exact absurd rfl hwanted
      | some =>
        rw [ipAddress, htext] at hentry
        cases hentry
        rfl
    | _ => cases hentry

theorem map_getD_ips (names : List GeneralName) : ((names.filterMap ipEntry).map fun ip => ip.map utf16).map
    (fun ip => ip.getD []) = (names.filterMap ipAddress).map utf16 := by
  induction names with
  | nil => rfl
  | cons name names ih =>
    cases name with
    | ip bytes =>
      have hhead : ((ipText bytes).map utf16).getD [] = utf16 ((ipText bytes).getD []) := by
        cases ipText bytes <;> rfl
      show ((ipText bytes).map utf16).getD [] :: _ = utf16 ((ipText bytes).getD []) :: _
      rw [hhead, ih]
    | _ => exact ih

/-- What the two sides know of one certificate. -/
structure Same (cert : LegacyObject) (identity : HostIdentity) (names : List GeneralName) : Prop where
  text : cert.subjectaltname.getD [] = utf16 (identity.altNames.getD [])
  split : ∃ entries, splitAltNames (cert.subjectaltname.getD []) = .ok entries ∧ Forall₂ Reads names entries
  dnsNames : identity.dnsNames = names.filterMap dnsName
  ips : identity.ips = names.filterMap ipAddress
  cn : cert.cn = .ofValues (identity.cn.getD [])

theorem Same.judge {cert : LegacyObject} {identity : HostIdentity} (h : Same cert identity names) {isIP : Units → Bool}
    {host : Str} (hip : isIP (utf16 host) = (canonicalizeIp host).isSome) : judgeServer isIP (utf16 host) cert
    ((names.filterMap dnsName).map utf16) ((names.filterMap ipEntry).map fun ip => ip.map utf16) =
    ((judgeIdentity host identity).1, utf16 (judgeIdentity host identity).2) := by
  rw [judgeServer, hip, judgeIdentity, h.dnsNames, h.ips, h.text, h.cn]
  generalize identity.cn.getD [] = cn
  cases hcan : canonicalizeIp host with
  | some wanted =>
    have hmem : tlsCanonicalizeIp (utf16 host) ∈ (names.filterMap ipEntry).map (fun ip => ip.map utf16) ↔
        ((names.filterMap ipAddress).any fun ip => decide (ip = wanted)) := by
      rw [tlsCanonicalizeIp_utf16, hcan, List.any_eq_true]
      simpa using mem_ips (canonicalizeIp_ne_nil hcan)
    rw [Option.isSome_some, if_pos rfl, map_getD_ips, ← utf16_intercalate]
    simp only [hmem, utf16_append, Bool.decide_eq_true]
  | none =>
    have hany : ((names.filterMap dnsName).map utf16).any
          (fun pattern => checkHostPattern ((splitHost host).map utf16) pattern true) =
        (names.filterMap dnsName).any fun pattern => hostMatches (splitHost host) pattern true := by
      rw [any_map]
      congr 1
      funext pattern
      exact checkHostPattern_utf16 _ _ _
    rw [Option.isSome_none, if_neg Bool.false_ne_true]
    simp only [Ne, map_eq_nil_iff, truthy_ofValues, splitHostJs_utf16, hany, any_ofValues]
    by_cases hdns : names.filterMap dnsName = []
    · by_cases hcn : 1 < cn.length ∨ ¬cn.headD [] = []
      · have hne : cn ≠ [] := by
          rintro rfl
          simp at hcn
        rw [if_pos (.inr hcn), if_neg (not_not.mpr hdns), if_pos (.inr hcn), if_neg (not_not.mpr hdns),
          text_ofValues hne]
        simp only [utf16_append]
      · have hno : ¬(¬names.filterMap dnsName = [] ∨ 1 < cn.length ∨ ¬cn.headD [] = []) := by
          rintro (h | h)
          · exact h hdns
          · exact hcn h
        rw [if_neg hno, if_neg hno]
    · rw [if_pos (.inl hdns), if_pos hdns, if_pos (.inl hdns), if_pos hdns]
      simp only [utf16_append]

/-- **The checks answer alike**, the reason included. -/
theorem Same.check {cert : LegacyObject} {identity : HostIdentity} (h : Same cert identity names) {isIP : Units → Bool}
    {hostname : Str} (hip : isIP (utf16 (unfqdn hostname)) = (canonicalizeIp (unfqdn hostname)).isSome) :
    checkServerIdentity isIP (utf16 hostname) cert = .ok ((checkIdentity hostname identity).map utf16) := by
  obtain ⟨_, hsplit, hreads⟩ := h.split
  rw [checkServerIdentity, hsplit, checkIdentity]
  show Except.ok _ = Except.ok _
  dsimp only
  rw [readEntries_eq hreads, unfqdnJs_utf16, h.judge hip, Judgement.verdict, Judgement.verdict]
  cases (judgeIdentity (unfqdn hostname) identity).1 <;> rfl

theorem same_of_certificate (extension : Option (List UInt8)) {subject : List (List Attribute)}
    {subjectEntries : List (Str × Str)}
    (hcn : ((subjectEntries.filter fun entry => entry.1 = "CN".toList).map Prod.snd) = (subjectCn subject).getD []) :
    Same (x509LegacyObject extension subjectEntries) (.fromCertificate extension subject)
      ((extension.bind generalNames).getD []) := by
  have hobject : (x509LegacyObject extension subjectEntries).cn = .ofValues ((subjectCn subject).getD []) := by
    rw [← hcn]
    exact x509NameObject_eq subjectEntries "CN".toList
  have htext : extension.bind altNamesText = (extension.bind generalNames).map altNames := by
    cases extension <;> rfl
  unfold HostIdentity.fromCertificate
  cases hnames : extension.bind generalNames with
  | none =>
    have hnone : (x509LegacyObject extension subjectEntries).subjectaltname = none := by
      rw [x509LegacyObject, htext, hnames]
      rfl
    exact ⟨by rw [hnone]; rfl, ⟨[], by rw [hnone]; rfl, .nil⟩, rfl, rfl, hobject⟩
  | some names =>
    have hsome : (x509LegacyObject extension subjectEntries).subjectaltname = some (utf16 (altNames names)) := by
      rw [x509LegacyObject, htext, hnames]
      rfl
    exact ⟨by rw [hsome]; rfl, by rw [hsome]; exact splitAltNames_altNames names, rfl, rfl, hobject⟩

/-- **No name is mistaken for another, and the two checks agree.** The printed list comes apart into one entry per name,
    and JavaScript accepts a host iff Rust does. -/
theorem names_read_as_printed (isIP : Units → Bool) (hostname : Str) (extension : Option (List UInt8))
    (subject : List (List Attribute)) (subjectEntries : List (Str × Str))
    (hip : isIP (utf16 (unfqdn hostname)) = (canonicalizeIp (unfqdn hostname)).isSome)
    (hcn : ((subjectEntries.filter fun entry => entry.1 = "CN".toList).map Prod.snd) = (subjectCn subject).getD []) :
    (∀ der names, generalNames der = some names → ∃ text entries, altNamesText der = some text ∧
      splitAltNames (utf16 text) = .ok entries ∧ Forall₂ Reads names entries) ∧
    (checkServerIdentity isIP (utf16 hostname) (x509LegacyObject extension subjectEntries) = .ok none ↔
      checkIdentity hostname (.fromCertificate extension subject) = none) := by
  constructor
  · intro der names hnames
    obtain ⟨entries, hsplit, hreads⟩ := splitAltNames_altNames names
    exact ⟨altNames names, entries, by rw [altNamesText, hnames]; rfl, hsplit, hreads⟩
  · rw [(same_of_certificate extension hcn).check hip, Except.ok.injEq, Option.map_eq_none_iff]

/-- A certificate for `a` with a URI that spells a separator and `DNS:`. -/
theorem names_read_as_printed_uri :
    altNamesText [0x30, 11, 0x82, 1, 0x61, 0x86, 6, 0x2c, 0x20, 0x44, 0x4e, 0x53, 0x3a] =
        some "DNS:a, URI:\"\\u002c DNS:\"".toList ∧
      (checkServerIdentity (fun _ => false) (utf16 "a".toList)
          (x509LegacyObject (some [0x30, 11, 0x82, 1, 0x61, 0x86, 6, 0x2c, 0x20, 0x44, 0x4e, 0x53, 0x3a]) []) = .ok none ↔
        checkIdentity "a".toList
          (.fromCertificate (some [0x30, 11, 0x82, 1, 0x61, 0x86, 6, 0x2c, 0x20, 0x44, 0x4e, 0x53, 0x3a]) []) = none) :=
  ⟨by decide +kernel, (names_read_as_printed (fun _ => false) "a".toList
    (some [0x30, 11, 0x82, 1, 0x61, 0x86, 6, 0x2c, 0x20, 0x44, 0x4e, 0x53, 0x3a]) [] [] (by decide +kernel)
    (by decide +kernel)).2⟩

end Oam.Tls
