/-
  Which files a release key vouches for (`oam_cli/src/self_update.rs`, up to the network): the trust root of three
  committed files, and the checks of a manifest against it.  The `ssh_key` and `sha2` crates are parameters (`Crates`).
-/
import Oam.Lib.Decimal
import Oam.Lib.Fields
import Oam.Lib.Hex
import Mathlib.Data.List.Pairwise

namespace Oam.SelfUpdate

open List Text Decimal Hex

abbrev Bytes := List UInt8

def str (s : Str) : String := String.ofList s

/-! ## Tags -/

/-- `vMAJOR.MINOR.PATCH`. -/
structure Tag where
  major : Nat
  minor : Nat
  patch : Nat
deriving DecidableEq

namespace Tag

instance : LT Tag :=
  ⟨fun a b => a.major < b.major ∨ a.major = b.major ∧ (a.minor < b.minor ∨ a.minor = b.minor ∧ a.patch < b.patch)⟩

instance : DecidableRel (· < · : Tag → Tag → Prop) := fun _ _ =>
  inferInstanceAs (Decidable (_ ∨ _ ∧ (_ ∨ _ ∧ _)))

def field (f : Str) : Option Nat :=
  if f.isEmpty || 9 < f.length || !f.all Char.isDigit then none else some (value f)

/-- Three fields of digits, and no fourth. -/
def parse (s : Str) : Option Tag :=
  match s with
  | 'v' :: rest =>
    match rest.splitOn '.' with
    | [a, b, c] => do
      let major ← field a
      let minor ← field b
      let patch ← field c
      pure { major, minor, patch }
    | _ => none
  | _ => none

/-- `Display`. -/
def display (t : Tag) : Str := 'v' :: (decimal t.major ++ '.' :: (decimal t.minor ++ '.' :: decimal t.patch))

end Tag

def namespaceName : Str := "oam-release".toList

def manifestHeader : Str := "oam-release-manifest v1".toList

def principalPrefix : Str := "oam-release-".toList

def firstManifestSigTag : Tag := { major := 0, minor := 18, patch := 0 }

/-! ## The crates -/

inductive Algorithm where
  | ed25519
  | skEd25519
  | other (name : String)
deriving DecidableEq

inductive HashAlg where
  | sha256
  | sha512
  | other (name : String)
deriving DecidableEq

def Algorithm.display : Algorithm → String
  | .ed25519 => "ssh-ed25519"
  | .skEd25519 => "sk-ssh-ed25519@openssh.com"
  | .other name => name

/-- What `ssh_key`, `sha2` and the standard library's escaping do.  A key is known by its data. -/
structure Crates (Key Sig : Type) where
  fromOpenssh : Str → Except String Key
  keyAlgorithm : Key → Algorithm
  keyData : Key → Bytes
  fingerprint : Bytes → String
  fromPem : Bytes → Except String Sig
  version : Sig → Nat
  sigNamespace : Sig → Str
  hashAlg : Sig → HashAlg
  publicKey : Sig → Bytes
  algorithm : Sig → Algorithm
  verify : Key → Str → Bytes → Sig → Except String Unit
  sha256 : Bytes → Bytes
  printable : Bytes → String

/-! ## The trust root -/

structure TrustedKey (Key : Type) where
  id : Str
  key : Key

structure KeyRange where
  id : Str
  fromTag : Tag
  toTag : Option Tag
deriving DecidableEq

structure TrustRoot (Key : Type) where
  keys : List (TrustedKey Key)
  ranges : List KeyRange
  presigning : List (Tag × Bytes)

def dataLines (text : Str) : List Str :=
  (lines text).filter fun line => !(trimStart line).isEmpty && (trimStart line).head? ≠ some '#'

/-- 64 lowercase hex digits. -/
def parseSha256Hex (s : Str) : Option Bytes :=
  if s.length ≠ 64 || !s.all isHexDigit then none
  else some (go s)
where
  digit (c : Char) : Nat := if c.isDigit then c.toNat - '0'.toNat else c.toNat - 'a'.toNat + 10
  go : Str → Bytes
    | high :: low :: rest => UInt8.ofNat (digit high * 16 + digit low) :: go rest
    | _ => []

section Parse
variable {Key Sig : Type} (c : Crates Key Sig)

def idChar (ch : Char) : Bool := ch.isAlphanum || ch == '.' || ch == '_' || ch == '-'

def keyType (principal ktype : Str) : Except String Algorithm :=
  if ktype = "ssh-ed25519".toList then .ok .ed25519
  else if ktype = "sk-ssh-ed25519@openssh.com".toList then .ok .skEd25519
  else .error s!"allowed_signers: '{str principal}' has key type '{str ktype}' -- release keys are ssh-ed25519 (or sk-ssh-ed25519@openssh.com)"

/-- The key of one line of `allowed_signers`. -/
def parseKey (keys : List (TrustedKey Key)) (line : Str) : Except String (TrustedKey Key) :=
  match splitWhitespace line with
  | principal :: opts :: ktype :: blob :: _ =>
    match principal.dropPrefix? principalPrefix with
    | none =>
      .error s!"allowed_signers: principal '{str principal}' does not start with '{str principalPrefix}'"
    | some id =>
      if id.isEmpty || !id.all idChar then
        .error s!"allowed_signers: principal '{str principal}' must be a single literal name (no patterns or lists)"
      else if opts ≠ "namespaces=\"oam-release\"".toList then
        .error s!"allowed_signers: '{str principal}' must carry namespaces=\"oam-release\" as its only option (got '{str opts}')"
      else
        match keyType principal ktype, (c.fromOpenssh (ktype ++ ' ' :: blob)) with
        | .error e, _ => .error e
        | .ok _, .error e => .error s!"allowed_signers: '{str principal}' has no valid key blob ({e})"
        | .ok algorithm, .ok key =>
          if c.keyAlgorithm key ≠ algorithm then
            .error s!"allowed_signers: '{str principal}' says {str ktype} but its blob is {(c.keyAlgorithm key).display}"
          else if keys.any fun k => k.id == id then .error s!"allowed_signers: principal '{str principal}' appears twice"
          else .ok { id, key }
  | _ => .error s!"allowed_signers: '{str line}' is not '<principal> namespaces=\"oam-release\" <type> <base64>'"

/-- The end of a range, `-` if it is open. -/
def rangeEnd (id fromText toText : Str) (fromTag : Tag) : Except String (Option Tag) :=
  if toText = ['-'] then .ok none
  else
    match Tag.parse toText with
    | none => .error s!"ranges: '{str id}' ends at '{str toText}', neither '-' nor a plain vX.Y.Z tag"
    | some t =>
      if t < fromTag then .error s!"ranges: '{str id}' runs backwards ({str fromText} > {str toText})" else .ok (some t)

/-- The range of one line of `ranges`. -/
def parseRange (ranges : List KeyRange) (line : Str) : Except String KeyRange :=
  match splitWhitespace line with
  | [id, fromText, toText] =>
    match Tag.parse fromText with
    | none => .error s!"ranges: '{str id}' starts at '{str fromText}', not a plain vX.Y.Z tag"
    | some fromTag =>
      match rangeEnd id fromText toText fromTag with
      | .error e => .error e
      | .ok toTag =>
        if ranges.any fun r => r.id == id then
          .error s!"ranges: '{str id}' has more than one line -- one range per key, or a forgotten open line keeps a closed key alive"
        else .ok { id, fromTag, toTag }
  | _ => .error s!"ranges: '{str line}' must be exactly '<id> <from-tag> <to-tag|->'"

/-- The digest of one line of `presigning-sums`. -/
def parsePinned (pinned : List (Tag × Bytes)) (line : Str) : Except String (Tag × Bytes) :=
  match splitWhitespace line with
  | [tag, digest] =>
    match Tag.parse tag with
    | none => .error s!"presigning-sums: '{str tag}' is not a plain vX.Y.Z tag"
    | some t =>
      if ¬t < firstManifestSigTag then
        .error s!"presigning-sums: {str t.display} is not before {str firstManifestSigTag.display} -- a signed-era tag is verified by its signature, never a pinned digest"
      else
        match parseSha256Hex digest with
        | none => .error s!"presigning-sums: {str tag}'s digest is not 64 lowercase hex digits"
        | some d =>
          if pinned.any fun p => p.1 == t then .error s!"presigning-sums: {str tag} appears twice" else .ok (t, d)
  | _ => .error s!"presigning-sums: '{str line}' must be exactly '<tag> <sha256-hex>'"

def parseLines {α : Type} (parse : List α → Str → Except String α) : List Str → List α → Except String (List α)
  | [], done => .ok done
  | line :: rest, done =>
    match parse done line with
    | .error e => .error e
    | .ok a => parseLines parse rest (done ++ [a])

def TrustRoot.parse (allowed ranges presigning : Str) : Except String (TrustRoot Key) :=
  match parseLines (parseKey c) (dataLines allowed) [] with
  | .error e => .error e
  | .ok keys =>
    if keys.isEmpty then .error "allowed_signers holds no key -- nothing could verify a release"
    else
      match parseLines parseRange (dataLines ranges) [] with
      | .error e => .error e
      | .ok ranges =>
        match parseLines parsePinned (dataLines presigning) [] with
        | .error e => .error e
        | .ok presigning => .ok { keys, ranges, presigning }

end Parse

/-! ## The checks -/

def manifestPrefix (tag : Tag) : Bytes := encode (manifestHeader ++ '\n' :: ("tag ".toList ++ tag.display ++ ['\n']))

/-- Who signed a manifest, and the lines that it vouches for. -/
structure Verified where
  principal : String
  fingerprint : String
  sums : Bytes

namespace TrustRoot
variable {Key Sig : Type} (trust : TrustRoot Key) (c : Crates Key Sig)

/-- The tag is in the range of the key; a key without a line signs nothing. -/
def rangeAllows (id : Str) (tag : Tag) : Except String Unit :=
  match trust.ranges.find? (·.id = id) with
  | none => .error s!"key {str principalPrefix}{str id} has no line in release-keys/ranges -- a staged next key signs nothing until its range opens"
  | some r =>
    if tag < r.fromTag then
      .error s!"key {str principalPrefix}{str id} may sign {str r.fromTag.display} onward (release-keys/ranges), and {str tag.display} is before that"
    else
      match r.toTag with
      | none => .ok ()
      | some last =>
        if last < tag then
          .error s!"key {str principalPrefix}{str id} was retired after {str last.display} (release-keys/ranges) -- it may not sign {str tag.display}"
        else .ok ()

def expectedKeys : String :=
  ", ".intercalate (trust.keys.map fun k => s!"{str principalPrefix}{str k.id} {c.fingerprint (c.keyData k.key)}")

/-- Why the first two lines of a manifest are not those of `tag`. -/
def headerError (manifest : Bytes) (tag : Tag) : String :=
  let parts := manifest.splitOn 10
  let line1 := parts.headD []
  let line2 := parts.tail.headD []
  if line1.getLast? = some 13 || line2.getLast? = some 13 then
    "RELEASE-MANIFEST's header has CR line endings -- it is LF-only, byte for byte"
  else if line1 ≠ encode manifestHeader then
    s!"RELEASE-MANIFEST line 1 is '{c.printable line1}', not '{str manifestHeader}'"
  else
    match line2.dropPrefix? (encode "tag ".toList) with
    | some signed =>
      s!"RELEASE-MANIFEST is signed for tag '{c.printable signed}', not {str tag.display} -- a replayed or misfiled release"
    | none => s!"RELEASE-MANIFEST line 2 is '{c.printable line2}', not 'tag {str tag.display}'"

def signer (sig : Sig) : Except String (TrustedKey Key) :=
  match trust.keys.find? fun k => c.keyData k.key = c.publicKey sig with
  | none =>
    .error s!"RELEASE-MANIFEST.sig was made by key {c.fingerprint (c.publicKey sig)}, which is not a release key (expected one of: {trust.expectedKeys c})"
  | some trusted =>
    if c.algorithm sig ≠ c.keyAlgorithm trusted.key then
      .error s!"RELEASE-MANIFEST.sig carries a {(c.algorithm sig).display} signature for {str principalPrefix}{str trusted.id}'s {(c.keyAlgorithm trusted.key).display} key"
    else .ok trusted

def checkFields (sig : Sig) : Except String Unit :=
  if c.version sig ≠ 1 then .error s!"RELEASE-MANIFEST.sig is SSHSIG version {c.version sig}, not 1"
  else if c.sigNamespace sig ≠ namespaceName then
    .error s!"RELEASE-MANIFEST.sig is for namespace '{c.printable (encode (c.sigNamespace sig))}', not '{str namespaceName}' -- a signature made for something else"
  else
    match c.hashAlg sig with
    | .other name => .error s!"RELEASE-MANIFEST.sig hashes with {name}, not sha256/sha512"
    | .sha256 | .sha512 => .ok ()

/-- The content is looked at only once its signature is verified. -/
def verifyManifest (manifest sig : Bytes) (tag : Tag) : Except String Verified :=
  match c.fromPem sig with
  | .error e => .error s!"RELEASE-MANIFEST.sig is not a well-formed SSH signature ({e})"
  | .ok sig =>
    match checkFields c sig, trust.signer c sig with
    | .error e, _ => .error e
    | .ok (), .error e => .error e
    | .ok (), .ok trusted =>
      let principal := str (principalPrefix ++ trusted.id)
      let fingerprint := c.fingerprint (c.publicKey sig)
      match c.verify trusted.key namespaceName manifest sig with
      | .error e =>
        .error s!"RELEASE-MANIFEST.sig names {principal} ({fingerprint}) but does not verify for it ({e}) -- the manifest or its signature was altered"
      | .ok () =>
        if !(manifestPrefix tag).isPrefixOf manifest then .error (headerError c manifest tag)
        else
          match trust.rangeAllows trusted.id tag with
          | .error e => .error e
          | .ok () => .ok { principal, fingerprint, sums := manifest.drop (manifestPrefix tag).length }

/-- A release before the cutoff: its SHA256SUMS is the one that is pinned. -/
def verifyPresigning (tag : Tag) (sums : Bytes) : Except String Unit :=
  if ¬tag < firstManifestSigTag then
    .error s!"{str tag.display} is a signed-era release ({str firstManifestSigTag.display} on) -- it is verified by its RELEASE-MANIFEST.sig, never a pinned digest"
  else
    match trust.presigning.find? (·.1 = tag) with
    | none =>
      .error s!"{str tag.display} predates release signing and is not in the pinned digest table (release-keys/presigning-sums) -- an unknown pre-{str firstManifestSigTag.display} tag is refused"
    | some (_, pinned) =>
      let actual := c.sha256 sums
      if actual ≠ pinned then
        .error s!"{str tag.display}'s SHA256SUMS does not match the digest pinned for it (expected {str (hexBytes pinned)}, got {str (hexBytes actual)})"
      else .ok ()

end TrustRoot

/-- The first two fields of a line, the second without the marker of a binary. -/
def sumLine (line : Str) : Option (Str × Str) :=
  match splitWhitespace line with
  | digest :: name :: _ => some (digest, (name.dropPrefix? ['*']).getD name)
  | _ => none

def sumFor {Key Sig : Type} (c : Crates Key Sig) (sums : Bytes) (asset : Str) : Except String Bytes :=
  match decode? sums with
  | none => .error "the signed SHA256SUMS is not text"
  | some text =>
    match ((lines text).filterMap sumLine).find? (·.2 = asset) with
    | none => .error s!"the release lists no {str asset} -- no build of it for this platform"
    | some (digest, _) =>
      match parseSha256Hex (digest.map asciiLower) with
      | none => .error s!"the SHA256SUMS line for {str asset} carries no sha256 ('{c.printable (encode digest)}')"
      | some d => .ok d

/-! ## Specification -/

/-- What stands behind the lines of a release: from the cutoff on a signed manifest of THAT tag, before it the digest
    that is pinned. -/
inductive Vouched {Key Sig : Type} (c : Crates Key Sig) (Signed : Key → Str → Bytes → Prop) (trust : TrustRoot Key)
    (tag : Tag) : Bytes → Prop
  | signed {key : TrustedKey Key} {range : KeyRange} {manifest sums : Bytes} (hcutoff : ¬tag < firstManifestSigTag)
    (hkey : key ∈ trust.keys) (hrange : range ∈ trust.ranges) (hid : range.id = key.id)
    (honly : ∀ r ∈ trust.ranges, r.id = key.id → r = range) (hfrom : ¬tag < range.fromTag)
    (hto : ∀ last, range.toTag = some last → ¬last < tag) (hsigned : Signed key.key namespaceName manifest)
    (hmanifest : manifest = manifestPrefix tag ++ sums)
    (htag : ∀ t, manifestPrefix t <+: manifest → t = tag) : Vouched c Signed trust tag sums
  | pinned {digest sums : Bytes} (hcutoff : tag < firstManifestSigTag) (hpinned : (tag, digest) ∈ trust.presigning)
    (honly : ∀ d, (tag, d) ∈ trust.presigning → d = digest) (hhash : c.sha256 sums = digest) :
    Vouched c Signed trust tag sums

def ListedFirst (sums : Bytes) (asset : Str) (d : Bytes) : Prop :=
  ∃ text before line after digest, decode? sums = some text ∧ lines text = before ++ line :: after ∧
    sumLine line = some (digest, asset) ∧ parseSha256Hex (digest.map asciiLower) = some d ∧
    ∀ l ∈ before, ∀ d', sumLine l ≠ some (d', asset)

/-! ## Correctness -/

theorem parseLines_distinct {α β : Type} {parse : List α → Str → Except String α} {key : α → β}
    (hnew : ∀ done line a, parse done line = .ok a → ∀ a' ∈ done, key a' ≠ key a) {rest : List Str} {done out : List α}
    (hdone : done.Pairwise fun a a' => key a ≠ key a') (h : parseLines parse rest done = .ok out) :
    out.Pairwise fun a a' => key a ≠ key a' := by
  induction rest generalizing done with
  | nil =>
    cases h
    exact hdone
  | cons line rest ih =>
    rw [parseLines] at h
    cases ha : parse done line with
    | error e =>
      rw [ha] at h
      cases h
    | ok a =>
      rw [ha] at h
      refine ih (pairwise_append.mpr ⟨hdone, pairwise_singleton _ _, fun a' ha' s hs => ?_⟩) h
      rw [mem_singleton.mp hs]
      exact hnew done line a ha a' ha'

structure WellFormed {Key : Type} (trust : TrustRoot Key) : Prop where
  ranges : trust.ranges.Pairwise fun r r' => r.id ≠ r'.id
  presigning : trust.presigning.Pairwise fun p p' => p.1 ≠ p'.1

theorem parse_wellFormed {Key Sig : Type} {c : Crates Key Sig} {allowed ranges presigning : Str} {trust : TrustRoot Key}
    (h : TrustRoot.parse c allowed ranges presigning = .ok trust) : WellFormed trust := by
  unfold TrustRoot.parse at h
  split at h
  · cases h
  split at h
  · cases h
  split at h
  · cases h
  rename_i hranges
  split at h
  · cases h
  rename_i hpinned
  cases h
  constructor
  · refine parseLines_distinct ?_ List.Pairwise.nil hranges
    intro done line r hr r' hr' heq
    unfold parseRange at hr
    split at hr
    · split at hr
      · cases hr
      · split at hr
        · cases hr
        · split at hr
          · cases hr
          · rename_i hnew
            cases hr
            exact hnew (List.any_eq_true.mpr ⟨r', hr', by simpa using heq⟩)
    · cases hr
  · refine parseLines_distinct ?_ List.Pairwise.nil hpinned
    intro done line p hp p' hp' heq
    unfold parsePinned at hp
    split at hp
    · split at hp
      · cases hp
      · split at hp
        · cases hp
        · split at hp
          · cases hp
          · split at hp
            · cases hp
            · rename_i hnew
              cases hp
              exact hnew (List.any_eq_true.mpr ⟨p', hp', by simpa using heq⟩)
    · cases hp

theorem eq_of_pairwise_ne {α β : Type} {f : α → β} {l : List α} (h : l.Pairwise fun x y => f x ≠ f y) {x y : α}
    (hx : x ∈ l) (hy : y ∈ l) (heq : f x = f y) : x = y := by
  by_contra hne
  have : Std.Symm fun x y => f x ≠ f y := ⟨fun _ _ h => Ne.symm h⟩
  exact h.forall hx hy hne heq

/-! ### The tag in the header -/

theorem ascii_of_isDigit {ch : Char} (h : ch.isDigit) : ch.toNat < 128 := by
  simp only [Char.isDigit, Bool.and_eq_true, decide_eq_true_eq, UInt32.le_iff_toNat_le] at h
  have h9 : ch.val.toNat ≤ 57 := h.2
  show ch.val.toNat < 128
  omega

theorem ascii_display {tag : Tag} {ch : Char} (h : ch ∈ tag.display) : ch.toNat < 128 ∧ ch ≠ '\n' := by
  have hdigit : ∀ {n : Nat}, ch ∈ decimal n → ch.toNat < 128 ∧ ch ≠ '\n' := by
    intro n hn
    refine ⟨ascii_of_isDigit (isDigit_of_mem_decimal hn), ?_⟩
    rintro rfl
    exact not_mem_decimal (by decide) n hn
  simp only [Tag.display, mem_cons, mem_append] at h
  rcases h with rfl | h | rfl | h | rfl | h
  · decide
  · exact hdigit h
  · decide
  · exact hdigit h
  · decide
  · exact hdigit h

variable {t t' : Tag}

theorem display_injective (h : t.display = t'.display) : t = t' := by
  have hdot : ∀ n, '.' ∉ decimal n := not_mem_decimal (by decide)
  simp only [Tag.display, List.cons.injEq, true_and] at h
  have hcut := congrArg (splitOnce '.') h
  rw [splitOnce_append (hdot _), splitOnce_append (hdot _), Option.some.injEq, Prod.mk.injEq] at hcut
  obtain ⟨hmajor, hrest⟩ := hcut
  have hcut' := congrArg (splitOnce '.') hrest
  rw [splitOnce_append (hdot _), splitOnce_append (hdot _), Option.some.injEq, Prod.mk.injEq] at hcut'
  obtain ⟨hminor, hpatch⟩ := hcut'
  cases t
  cases t'
  rw [Tag.mk.injEq]
  exact ⟨decimal_injective hmajor, decimal_injective hminor, decimal_injective hpatch⟩

def tagBytes (tag : Tag) : Bytes := tag.display.map fun ch => UInt8.ofNat ch.toNat

theorem manifestPrefix_eq (tag : Tag) :
    manifestPrefix tag = encode (manifestHeader ++ '\n' :: "tag ".toList) ++ (tagBytes tag ++ [10]) := by
  have hsplit : manifestHeader ++ '\n' :: ("tag ".toList ++ tag.display ++ ['\n']) =
      (manifestHeader ++ '\n' :: "tag ".toList) ++ (tag.display ++ ['\n']) := by
    simp only [append_assoc, cons_append]
  rw [manifestPrefix, hsplit, encode_append, encode_append tag.display, encode_ascii fun ch hch => (ascii_display hch).1]
  rfl

theorem newline_notMem_tagBytes (tag : Tag) : (10 : UInt8) ∉ tagBytes tag := by
  intro hmem
  obtain ⟨ch, hch, heq⟩ := mem_map.mp hmem
  obtain ⟨_, hne⟩ := ascii_display hch
  have hn : ch.toNat = 10 := by
    have := congrArg UInt8.toNat heq
    rw [UInt8.toNat_ofNat'] at this
    have h10 : (10 : UInt8).toNat = 10 := rfl
    omega
  apply hne
  exact Char.ext (UInt32.toNat.inj hn)

theorem tagBytes_injective (h : tagBytes t = tagBytes t') : t = t' :=
  display_injective (ascii_injective (fun _ hch => (ascii_display hch).1) (fun _ hch => (ascii_display hch).1) h)

/-- **A manifest is for one tag.** -/
theorem manifestPrefix_unique {manifest : Bytes} (h : manifestPrefix t <+: manifest)
    (h' : manifestPrefix t' <+: manifest) : t = t' := by
  obtain ⟨_, rfl⟩ := h
  obtain ⟨_, heq⟩ := h'
  simp only [manifestPrefix_eq, append_assoc, singleton_append] at heq
  have hcut := congrArg (splitOnce 10) (append_cancel_left heq)
  rw [splitOnce_append (newline_notMem_tagBytes _), splitOnce_append (newline_notMem_tagBytes _), Option.some.injEq,
    Prod.mk.injEq] at hcut
  exact (tagBytes_injective hcut.1).symm

/-! ### What the checks accept -/

section
variable {Key Sig : Type} {c : Crates Key Sig} {trust : TrustRoot Key} {tag : Tag}

theorem rangeAllows_ok {id : Str} (h : trust.rangeAllows id tag = .ok ()) :
    ∃ range ∈ trust.ranges, range.id = id ∧ ¬tag < range.fromTag ∧ ∀ last, range.toTag = some last → ¬last < tag := by
  unfold TrustRoot.rangeAllows at h
  split at h
  · cases h
  rename_i range hfind
  have hmem := mem_of_find?_eq_some hfind
  have hid := find?_some hfind
  split at h
  · cases h
  rename_i hfrom
  refine ⟨range, hmem, of_decide_eq_true hid, hfrom, ?_⟩
  intro last hlast
  rw [hlast] at h
  dsimp only at h
  split at h
  · cases h
  · assumption

theorem signer_ok {sig : Sig} {key : TrustedKey Key} (h : trust.signer c sig = .ok key) : key ∈ trust.keys := by
  unfold TrustRoot.signer at h
  split at h
  · cases h
  rename_i hfind
  split at h
  · cases h
  · cases h
    exact mem_of_find?_eq_some hfind

/-- **What a verified manifest is.** -/
theorem verifyManifest_ok {manifest sig : Bytes} {v : Verified} (h : trust.verifyManifest c manifest sig tag = .ok v) :
    ∃ key ∈ trust.keys, (∃ s, c.verify key.key namespaceName manifest s = .ok ()) ∧
      manifest = manifestPrefix tag ++ v.sums ∧ trust.rangeAllows key.id tag = .ok () := by
  unfold TrustRoot.verifyManifest at h
  split at h
  · cases h
  rename_i sig _
  split at h
  · cases h
  · cases h
  rename_i key _ hsigner
  dsimp only at h
  split at h
  · cases h
  rename_i hverify
  split at h
  · cases h
  rename_i hprefix
  split at h
  · cases h
  rename_i hrange
  cases h
  refine ⟨key, signer_ok hsigner, ⟨sig, hverify⟩, ?_, hrange⟩
  obtain ⟨rest, rfl⟩ : manifestPrefix tag <+: manifest := by
    rw [← isPrefixOf_iff_prefix]
    simpa using hprefix
  show _ = manifestPrefix tag ++ List.drop (manifestPrefix tag).length (manifestPrefix tag ++ rest)
  rw [drop_left]

theorem vouched_of_manifest {Signed : Key → Str → Bytes → Prop}
    (hunforgeable : ∀ key name message sig, c.verify key name message sig = .ok () → Signed key name message)
    (hwell : WellFormed trust) (hcutoff : ¬tag < firstManifestSigTag) {manifest sig : Bytes} {v : Verified}
    (h : trust.verifyManifest c manifest sig tag = .ok v) : Vouched c Signed trust tag v.sums := by
  obtain ⟨_, hkey, ⟨s, hverify⟩, hmanifest, hallows⟩ := verifyManifest_ok h
  obtain ⟨_, hrange, hid, hfrom, hto⟩ := rangeAllows_ok hallows
  refine .signed hcutoff hkey hrange hid ?_ hfrom hto (hunforgeable _ _ _ _ hverify) hmanifest ?_
  · intro r hr heq
    exact eq_of_pairwise_ne hwell.ranges hr hrange (heq.trans hid.symm)
  · intro t ht
    exact manifestPrefix_unique ht (hmanifest ▸ prefix_append _ _)

theorem vouched_of_presigning {Signed : Key → Str → Bytes → Prop} (hwell : WellFormed trust) {sums : Bytes}
    (h : trust.verifyPresigning c tag sums = .ok ()) : Vouched c Signed trust tag sums := by
  unfold TrustRoot.verifyPresigning at h
  split at h
  · cases h
  rename_i hcutoff
  split at h
  · cases h
  rename_i t pinned hfind
  dsimp only at h
  split at h
  · cases h
  rename_i hhash
  have hmem := mem_of_find?_eq_some hfind
  have ht : t = tag := by simpa using find?_some hfind
  subst ht
  refine .pinned (not_not.mp hcutoff) hmem ?_ (not_not.mp hhash)
  intro d hd
  exact congrArg Prod.snd (eq_of_pairwise_ne hwell.presigning hd hmem rfl)

end

theorem exists_first {α β : Type} {f : α → Option β} {p : β → Bool} {l : List α} {x : β}
    (h : (l.filterMap f).find? p = some x) :
    ∃ before a after, l = before ++ a :: after ∧ f a = some x ∧ p x ∧ ∀ b ∈ before, ∀ y, f b = some y → p y = false := by
  induction l with
  | nil => cases h
  | cons a l ih =>
    have hskip : (∀ y, f a = some y → p y = false) → (l.filterMap f).find? p = some x →
        ∃ before b after, a :: l = before ++ b :: after ∧ f b = some x ∧ p x ∧
          ∀ b ∈ before, ∀ y, f b = some y → p y = false := by
      intro ha hrest
      obtain ⟨before, b, after, rfl, hb, hx, hbefore⟩ := ih hrest
      refine ⟨a :: before, b, after, rfl, hb, hx, ?_⟩
      intro b' hb'
      rcases mem_cons.mp hb' with rfl | hb'
      · exact ha
      · exact hbefore b' hb'
    cases hfa : f a with
    | none =>
      rw [filterMap_cons_none hfa] at h
      exact hskip (fun y hy => by rw [hfa] at hy; cases hy) h
    | some y =>
      rw [filterMap_cons_some hfa] at h
      cases hpy : p y with
      | true =>
        rw [find?_cons_of_pos hpy] at h
        cases h
        exact ⟨[], a, l, rfl, hfa, hpy, fun b hb => by cases hb⟩
      | false =>
        rw [find?_cons_of_neg (by rw [hpy]; exact Bool.false_ne_true)] at h
        refine hskip ?_ h
        intro y' hy'
        rw [hfa] at hy'
        cases hy'
        exact hpy

theorem listedFirst_of_sumFor {Key Sig : Type} {c : Crates Key Sig} {sums : Bytes} {asset : Str} {d : Bytes}
    (h : sumFor c sums asset = .ok d) : ListedFirst sums asset d := by
  unfold sumFor at h
  split at h
  · cases h
  rename_i text htext
  split at h
  · cases h
  rename_i digest name hfind
  split at h
  · cases h
  rename_i hdigest
  cases h
  obtain ⟨before, line, after, hlines, hline, hname, hbefore⟩ := exists_first hfind
  obtain rfl : name = asset := of_decide_eq_true hname
  refine ⟨text, before, line, after, digest, htext, hlines, hline, hdigest, ?_⟩
  intro l hl d' hd'
  exact of_decide_eq_false (hbefore l hl _ hd') rfl

end Oam.SelfUpdate
