/-
  IP addresses as libuv reads and prints them (`tls/names.rs`).  An iPAddress entry of a certificate is printed by
  OpenSSL — a dotted quad, or eight groups in upper case with nothing left out — and read back by libuv: what comes out
  is the address itself in libuv's spelling (`canonicalizeIp_ipEntryText`).
-/
import Mathlib.Algebra.Group.Nat.Defs
import Oam.Lib.Ipv6
import Oam.Tls.Names

namespace Oam.Tls

open UInt8 Decimal List Text

/-! ## Reading -/

/-- The loop of `inet_pton4`: the four octets, how many have begun, whether one is being read, and its value. -/
def pton4Loop : List UInt8 → (out : List UInt8) → (octets : Nat) → (sawDigit : Bool) → (current : Nat) →
    Option (List UInt8)
  | [], out, octets, _, _ => if octets = 4 then some out else none
  | ch :: text, out, octets, sawDigit, current =>
    if 0x30 ≤ ch.toNat ∧ ch.toNat ≤ 0x39 then
      let next := current * 10 + (ch.toNat - 0x30)
      if sawDigit = true ∧ current = 0 then none
      else if 255 < next then none
      else
        let octets' := if sawDigit then octets else octets + 1
        if !sawDigit && decide (4 < octets') then none
        else pton4Loop text (out.set (octets' - 1) (ofNat next)) octets' true next
    else if ch = 0x2e ∧ sawDigit = true then
      if octets = 4 then none else pton4Loop text out octets false 0
    else none

/-- `inet_pton4`: four decimal octets, no leading zeros. -/
def inetPton4 (text : List UInt8) : Option (List UInt8) := pton4Loop text [0, 0, 0, 0] 0 false 0

/-- What `inet_pton6` has read: the bytes, where `::` stood, and the group at hand. -/
structure Pton6 where
  out : List UInt8
  colon : Option Nat
  token : List UInt8
  seenDigits : Nat
  value : Nat

def groupBytes (value : Nat) : List UInt8 := [ofNat (value / 256), ofNat value]

/-- The loop of `inet_pton6`.  A dot makes the group at hand the start of a dotted quad, which is the last thing read. -/
def pton6Loop : List UInt8 → Pton6 → Option Pton6
  | [], st => some st
  | ch :: src, st =>
    match Ipv6.toDigit 16 (Char.ofNat ch.toNat) with
    | some digit =>
      if 4 < st.seenDigits + 1 then none
      else pton6Loop src { st with value := st.value * 16 + digit, seenDigits := st.seenDigits + 1 }
    | none =>
      if ch = 0x3a then
        if st.seenDigits = 0 then
          if st.colon.isSome then none
          else pton6Loop src { st with token := src, colon := some st.out.length }
        else if src = [] then none
        else if 16 < st.out.length + 2 then none
        else
          pton6Loop src
            { st with token := src, out := st.out ++ groupBytes st.value, seenDigits := 0, value := 0 }
      else if ch = 0x2e ∧ st.out.length + 4 ≤ 16 then
        (inetPton4 st.token).map fun v4 => { st with out := st.out ++ v4, seenDigits := 0 }
      else none

def lastGroup (st : Pton6) : Option Pton6 :=
  if 0 < st.seenDigits then
    if 16 < st.out.length + 2 then none else some { st with out := st.out ++ groupBytes st.value }
  else some st

/-- The bytes behind the `::` moved to the end, zeros in between. -/
def expand (st : Pton6) : Option (List UInt8) :=
  match st.colon with
  | some colon =>
    if st.out.length = 16 then none
    else some (st.out.take colon ++ List.replicate (16 - st.out.length) 0 ++ st.out.drop colon)
  | none => if st.out.length = 16 then some st.out else none

/-- The text before a `%zone`; `none` if that is longer than an address. -/
def dropZone (text : List UInt8) : Option (List UInt8) :=
  match text.idxOf? 0x25 with
  | some at_ => if 45 < at_ then none else some (text.take at_)
  | none => some text

/-- A leading colon has to be one of two. -/
def dropColon (text : List UInt8) : Option (List UInt8) :=
  match text with
  | [] => some []
  | ch :: src => if ch = 0x3a then if src.head? = some 0x3a then some src else none else some text

/-- `inet_pton6`. -/
def inetPton6 (text : List UInt8) : Option (List UInt8) :=
  (dropZone text).bind fun text => (dropColon text).bind fun src =>
    (pton6Loop src ⟨[], none, src, 0, 0⟩).bind fun st => (lastGroup st).bind expand

/-! ## Printing -/

/-- A run of zero groups: where it starts, and how long it is. -/
abbrev Run := Option (Nat × Nat)

def longer (best cur : Run) : Run :=
  match best, cur with
  | none, cur => cur
  | best, none => best
  | some (base, len), some (base', len') => if len < len' then some (base', len') else some (base, len)

/-- The longest run of zero groups among these and the ones before: `best` so far, `cur` up to here. -/
def longestRun : (i : Nat) → List Nat → (best cur : Run) → Run
  | _, [], best, cur => longer best cur
  | i, word :: rest, best, cur =>
    if word = 0 then
      longestRun (i + 1) rest best (some (match cur with | none => (i, 1) | some (base, len) => (base, len + 1)))
    else longestRun (i + 1) rest (longer best cur) none

/-- The run that is written as `::`, of two groups at least. -/
def bestRun (groups : List Nat) : Run := (longestRun 0 groups none none).filter fun run => 2 ≤ run.2

/-- The last 32 bits are written as a dotted quad: an IPv4-compatible or IPv4-mapped address. -/
def endsInQuad (groups : List Nat) (best : Run) : Bool :=
  match best with
  | some (0, len) =>
    len == 6 || (len == 7 && groups.getD 7 0 != 0x0001) || (len == 5 && groups.getD 5 0 == 0xffff)
  | _ => false

def inRun : Run → (i : Nat) → Bool
  | some (base, len), i => decide (base ≤ i ∧ i < base + len)
  | none, _ => false

/-- The groups from the last `left` on. -/
def ntop6From (bytes : List UInt8) (groups : List Nat) (best : Run) : (left : Nat) → Str
  | 0 =>
    match best with
    | some (base, len) => if base + len = 8 then [':'] else []
    | none => []
  | left + 1 =>
    let i := 7 - left
    if inRun best i then
      (if best.map (·.1) = some i then [':'] else []) ++ ntop6From bytes groups best left
    else
      (if i ≠ 0 then [':'] else []) ++ if i = 6 ∧ endsInQuad groups best = true then dottedQuad (bytes.drop 12)
        else Hex.hex (groups.getD i 0) ++ ntop6From bytes groups best left

/-- `inet_ntop6`. -/
def inetNtop6 (bytes : List UInt8) : Str :=
  let groups := words bytes
  ntop6From bytes groups (bestRun groups) 8

/-- `ip_text`: four or sixteen bytes. -/
def ipText (bytes : List UInt8) : Option Str :=
  if bytes.length = 4 then some (dottedQuad bytes)
  else if bytes.length = 16 then some (inetNtop6 bytes)
  else none

/-- `canonicalize_ip`. -/
def canonicalizeIp (text : Str) : Option Str :=
  let bytes := encode text
  match inetPton4 bytes with
  | some v4 => ipText v4
  | none => (inetPton6 bytes).map inetNtop6

/-! ## A dotted quad, read back -/

def octetDigits (n : Nat) : List UInt8 :=
  if n < 10 then [ofNat (48 + n)]
  else if n < 100 then [ofNat (48 + n / 10), ofNat (48 + n % 10)]
  else [ofNat (48 + n / 100), ofNat (48 + n / 10 % 10), ofNat (48 + n % 10)]

theorem encode_decimal : ∀ n < 256, encode (decimal n) = octetDigits n := by decide +kernel

theorem toNat_digit {d : Nat} (hd : d < 10) : (ofNat (48 + d)).toNat = 48 + d := by
  rw [toNat_ofNat']
  omega

theorem pton4Loop_first {d k : Nat} (hd : d < 10) (hk : k < 4) (text out : List UInt8) : pton4Loop
    (ofNat (48 + d) :: text) out k false 0 = pton4Loop text (out.set k (ofNat d)) (k + 1) true d := by
  have hnext : 0 * 10 + (48 + d - 48) = d := by omega
  rw [pton4Loop, toNat_digit hd, if_pos (by omega)]
  dsimp only
  rw [hnext, if_neg (by simp), if_neg (by omega), if_neg (by simp; omega)]
  rfl

theorem pton4Loop_more {d k n : Nat} (hd : d < 10) (hn : n ≠ 0) (hlt : n * 10 + d < 256) (text out : List UInt8) :
    pton4Loop (ofNat (48 + d) :: text) out (k + 1) true n =
      pton4Loop text (out.set k (ofNat (n * 10 + d))) (k + 1) true (n * 10 + d) := by
  have hnext : n * 10 + (48 + d - 48) = n * 10 + d := by omega
  rw [pton4Loop, toNat_digit hd, if_pos (by omega)]
  dsimp only
  rw [hnext, if_neg fun h => hn h.2, if_neg (by omega), if_neg (by simp)]
  rfl

theorem pton4Loop_octet {n k : Nat} (hn : n < 256) (hk : k < 4) (text out : List UInt8) : pton4Loop
    (encode (decimal n) ++ text) out k false 0 = pton4Loop text (out.set k (ofNat n)) (k + 1) true n := by
  rw [encode_decimal n hn]
  unfold octetDigits
  split
  · next h10 => exact pton4Loop_first h10 hk text out
  split
  · have hvalue : n / 10 * 10 + n % 10 = n := by omega
    simp only [cons_append, nil_append]
    rw [pton4Loop_first (by omega) hk, pton4Loop_more (by omega) (by omega) (by omega), set_set, hvalue]
  · have htens : n / 100 * 10 + n / 10 % 10 = n / 10 := by omega
    have hvalue : n / 10 * 10 + n % 10 = n := by omega
    simp only [cons_append, nil_append]
    rw [pton4Loop_first (by omega) hk, pton4Loop_more (by omega) (by omega) (by omega), set_set, htens,
      pton4Loop_more (by omega) (by omega) (by omega), set_set, hvalue]

theorem pton4Loop_dot {k n : Nat} (hk : k ≠ 4) (text out : List UInt8) :
    pton4Loop (0x2e :: text) out k true n = pton4Loop text out k false 0 := by
  rw [pton4Loop, if_neg (by decide), if_pos ⟨rfl, rfl⟩, if_neg hk]

theorem encode_cons_ascii {c : Char} {b : UInt8} (hc : c.toNat < 128) (hb : ofNat c.toNat = b) (s : Str) :
    encode (c :: s) = b :: encode s := by
  have hone : encode [c] = [b] := by
    rw [encode_ascii fun d hd => by rwa [mem_singleton.mp hd], map_singleton, hb]
  rw [← singleton_append, encode_append, hone, singleton_append]

theorem inetPton4_dottedQuad (a b c d : UInt8) : inetPton4 (encode (dottedQuad [a, b, c, d])) = some [a, b, c, d] := by
  have hdot : ∀ s, encode ('.' :: s) = 0x2e :: encode s := encode_cons_ascii (by decide) (by decide)
  simp only [dottedQuad, map_cons, map_nil, intercalate_cons_cons, intercalate_singleton, encode_append, hdot,
    append_assoc, singleton_append]
  rw [← append_nil (encode (decimal d.toNat)), inetPton4, pton4Loop_octet a.toNat_lt (by omega), pton4Loop_dot (by omega),
    pton4Loop_octet b.toNat_lt (by omega), pton4Loop_dot (by omega), pton4Loop_octet c.toNat_lt (by omega),
    pton4Loop_dot (by omega), pton4Loop_octet d.toNat_lt (by omega), pton4Loop, if_pos rfl]
  simp only [UInt8.ofNat_toNat]
  rfl

theorem pton4Loop_colon {text : List UInt8} (h : (0x3a : UInt8) ∈ text) (out : List UInt8) (octets : Nat)
    (sawDigit : Bool) (current : Nat) : pton4Loop text out octets sawDigit current = none := by
  induction text generalizing out octets sawDigit current with
  | nil => cases h
  | cons ch text ih =>
    rw [pton4Loop]
    rcases mem_cons.mp h with rfl | h
    · rw [if_neg (by decide), if_neg fun h => absurd h.1 (by decide)]
    · dsimp only
      repeat' split
      all_goals first | rfl | exact ih h _ _ _ _

/-! ## Eight groups, read back -/

def hexByte16 (d : Nat) : UInt8 := ofNat (Nat.digitChar d).toUpper.toNat

theorem toDigit_hexByte16 : ∀ d < 16, Ipv6.toDigit 16 (Char.ofNat (hexByte16 d).toNat) = some d := by decide +kernel

theorem upper_lt : ∀ d < 16, (Nat.digitChar d).toUpper.toNat < 128 := by decide +kernel

theorem exists_digits (k : Nat) {n : Nat} (hn : n < 16 ^ (k + 1)) : ∃ ds, Hex.hex n = ds.map Nat.digitChar ∧
    (∀ d ∈ ds, d < 16) ∧ ds ≠ [] ∧ ds.length ≤ k + 1 ∧ ds.foldl (fun acc d => acc * 16 + d) 0 = n := by
  induction k generalizing n with
  | zero => exact ⟨[n], Nat.toDigits_of_lt_base hn, by simpa using hn, by simp, by simp, by simp⟩
  | succ k ih =>
    by_cases hone : n < 16
    · exact ⟨[n], Nat.toDigits_of_lt_base hone, by simpa using hone, by simp, by simp, by simp⟩
    have hmore : Hex.hex n = Hex.hex (n / 16) ++ [Nat.digitChar (n % 16)] :=
      Nat.toDigits_of_base_le (by decide) (by omega)
    obtain ⟨ds, hds, hlt, -, hlen, hfold⟩ := ih (Nat.div_lt_of_lt_mul (Nat.pow_succ' ▸ hn))
    refine ⟨ds ++ [n % 16], by rw [hmore, hds, map_append]; rfl, ?_, by simp, by simpa using hlen, ?_⟩
    · exact forall_mem_append.mpr ⟨hlt, forall_mem_singleton.mpr (Nat.mod_lt n (by decide))⟩
    · rw [foldl_append, hfold, foldl_cons, foldl_nil]
      omega

theorem encode_upper {ds : List Nat} (h : ∀ d ∈ ds, d < 16) :
    encode ((ds.map Nat.digitChar).map Char.toUpper) = ds.map hexByte16 := by
  rw [encode_ascii, map_map, map_map]
  · rfl
  · intro c hc
    rw [map_map] at hc
    obtain ⟨d, hd, rfl⟩ := mem_map.mp hc
    exact upper_lt d (h d hd)

theorem pton6Loop_digits {ds : List Nat} (h : ∀ d ∈ ds, d < 16) (src : List UInt8) (st : Pton6)
    (hlen : st.seenDigits + ds.length ≤ 4) :
    pton6Loop (ds.map hexByte16 ++ src) st = pton6Loop src { st with
        value := ds.foldl (fun acc d => acc * 16 + d) st.value, seenDigits := st.seenDigits + ds.length } := by
  induction ds generalizing st with
  | nil => rfl
  | cons d ds ih =>
    rw [length_cons] at hlen
    rw [map_cons, cons_append, pton6Loop, toDigit_hexByte16 d (h d mem_cons_self)]
    dsimp only
    rw [if_neg (by omega), ih (fun e he => h e (mem_cons_of_mem d he)) _ (by show st.seenDigits + 1 + _ ≤ 4; omega)]
    simp only [foldl_cons, length_cons, Nat.add_assoc, Nat.add_comm 1]

theorem pton6Loop_group {n : Nat} (hn : n < 65536) (src : List UInt8) (st : Pton6) (hseen : st.seenDigits = 0)
    (hvalue : st.value = 0) :
    ∃ k, 0 < k ∧ pton6Loop (encode (upperHex n) ++ src) st = pton6Loop src { st with value := n, seenDigits := k } := by
  obtain ⟨ds, hds, hlt, hne, _, hfold⟩ := exists_digits 3 hn
  refine ⟨ds.length, length_pos_of_ne_nil hne, ?_⟩
  rw [upperHex, hds, encode_upper hlt, pton6Loop_digits hlt _ _ (by omega), hseen, hvalue, hfold, Nat.zero_add]

theorem encode_upperHex_cons {n : Nat} (hn : n < 65536) : ∃ ch src, encode (upperHex n) = ch :: src ∧ ch ≠ 0x3a := by
  have hdigit : ∀ d < 16, hexByte16 d ≠ 0x3a := by decide +kernel
  obtain ⟨ds, hds, hlt, hne, -, -⟩ := exists_digits 3 hn
  rw [upperHex, hds, encode_upper hlt]
  cases ds with
  | nil => exact absurd rfl hne
  | cons d ds => exact ⟨hexByte16 d, ds.map hexByte16, rfl, hdigit d (hlt d mem_cons_self)⟩

theorem pton6Loop_groups {g : Nat} {gs : List Nat} (hlt : ∀ n ∈ g :: gs, n < 65536) (st : Pton6)
    (hseen : st.seenDigits = 0) (hvalue : st.value = 0) (hlen : st.out.length + 2 * (gs.length + 1) ≤ 16) :
    ∃ st' st'', pton6Loop (encode ([':'].intercalate ((g :: gs).map upperHex))) st = some st' ∧
      lastGroup st' = some st'' ∧ st''.out = st.out ++ (g :: gs).flatMap groupBytes ∧ st''.colon = st.colon := by
  induction gs generalizing g st with
  | nil =>
    rw [map_singleton, intercalate_singleton, ← append_nil (encode _)]
    obtain ⟨k, hk, hloop⟩ := pton6Loop_group (hlt g mem_cons_self) [] st hseen hvalue
    refine ⟨_, ⟨st.out ++ groupBytes g, st.colon, st.token, k, g⟩, hloop, ?_, ?_, ?_⟩
    · rw [lastGroup, if_pos hk, if_neg (by simpa using hlen)]
    · simp
    · rfl
  | cons g' gs ih =>
    rw [length_cons] at hlen
    have hcolon : ∀ s, encode (':' :: s) = 0x3a :: encode s := encode_cons_ascii (by decide) (by decide)
    rw [map_cons, map_cons, intercalate_cons_cons, append_assoc, singleton_append,
      encode_append, hcolon]
    generalize hsrc : encode ([':'].intercalate (upperHex g' :: gs.map upperHex)) = src
    have hne : src ≠ [] := by
      obtain ⟨_, hrest⟩ := prefix_intercalate [':'] (upperHex g') (gs.map upperHex)
      obtain ⟨ch, _, hch, -⟩ := encode_upperHex_cons (hlt g' (by simp))
      rw [← hsrc, ← hrest, encode_append, hch]
      exact cons_ne_nil _ _
    obtain ⟨k, hk, hloop⟩ := pton6Loop_group (hlt g mem_cons_self) (0x3a :: src) st hseen hvalue
    have hdigit : Ipv6.toDigit 16 (Char.ofNat (0x3a : UInt8).toNat) = none := by decide
    rw [hloop, pton6Loop, hdigit]
    dsimp only
    rw [if_pos rfl, if_neg (by omega), if_neg hne, if_neg (by omega)]
    obtain ⟨st', st'', h', h'', hout, hcol⟩ :=
      ih (fun n hn => hlt n (mem_cons_of_mem g hn))
        { st with token := src, out := st.out ++ groupBytes g, seenDigits := 0, value := 0 } rfl rfl
        (by simp only [length_append, groupBytes, length_cons, length_nil]; omega)
    refine ⟨st', st'', ?_, h'', ?_, hcol⟩
    · rw [map_cons, hsrc] at h'
      exact h'
    · simp only [hout, flatMap_cons, append_assoc]

variable {bytes : List UInt8}

theorem words_lt : ∀ n ∈ words bytes, n < 65536 := by
  intro n hn
  fun_induction words bytes with
  | case1 hi lo bytes ih =>
    have hhi := hi.toNat_lt
    have hlo := lo.toNat_lt
    rcases mem_cons.mp hn with rfl | hn
    · omega
    · exact ih hn
  | case2 => cases hn

theorem length_words (bytes : List UInt8) : (words bytes).length = bytes.length / 2 := by
  fun_induction words bytes with
  | case1 hi lo bytes ih =>
    rw [length_cons, length_cons, length_cons, ih]
    omega
  | case2 bytes hshort =>
    cases bytes with
    | nil => rfl
    | cons b bytes =>
      cases bytes with
      | nil => simp
      | cons b' bytes => exact absurd rfl (hshort b b' bytes)

theorem flatMap_groupBytes (h : bytes.length % 2 = 0) : (words bytes).flatMap groupBytes = bytes := by
  fun_induction words bytes with
  | case1 hi lo bytes ih =>
    have hhi := hi.toNat_lt
    have hlo := lo.toNat_lt
    have hhigh : (hi.toNat * 256 + lo.toNat) / 256 = hi.toNat := by omega
    have hlow : ofNat (hi.toNat * 256 + lo.toNat) = lo := by
      apply UInt8.toNat_inj.mp
      rw [UInt8.toNat_ofNat']
      omega
    rw [flatMap_cons, ih (by simp only [length_cons] at h; omega), groupBytes, hhigh, hlow, UInt8.ofNat_toNat]
    rfl
  | case2 bytes hshort =>
    cases bytes with
    | nil => rfl
    | cons b bytes =>
      cases bytes with
      | nil => cases h
      | cons b' bytes => exact absurd rfl (hshort b b' bytes)

theorem notMem_encode {s : Str} (h : ∀ c ∈ s, c.toNat < 128) {b : UInt8} (hb : ∀ c ∈ s, c.toNat ≠ b.toNat) :
    b ∉ encode s := by
  intro hmem
  rw [encode_ascii h] at hmem
  obtain ⟨c, hc, rfl⟩ := mem_map.mp hmem
  have hlt := h c hc
  apply hb c hc
  rw [toNat_ofNat']
  omega

/-! ## Canonical addresses -/

theorem dropZone_of_notMem {text : List UInt8} (h : (0x25 : UInt8) ∉ text) : dropZone text = some text := by
  rw [dropZone, idxOf?_eq_none_iff.mpr h]

theorem dropColon_of_ne {ch : UInt8} (h : ch ≠ 0x3a) (src : List UInt8) : dropColon (ch :: src) = some (ch :: src) := by
  rw [dropColon, if_neg h]

theorem inetPton4_groups (h : bytes.length = 16) :
    inetPton4 (encode ([':'].intercalate ((words bytes).map upperHex))) = none := by
  have hlen : (words bytes).length = 8 := by rw [length_words, h]
  cases hw : words bytes with
  | nil =>
    rw [hw] at hlen
    cases hlen
  | cons g gs =>
    apply pton4Loop_colon
    cases gs with
    | nil =>
      rw [hw] at hlen
      cases hlen
    | cons =>
      rw [map_cons, map_cons, intercalate_cons_cons, append_assoc, encode_append, encode_append]
      exact mem_append_right _ (mem_append_left _ (by decide +kernel))

theorem inetPton6_groups (h : bytes.length = 16) :
    inetPton6 (encode ([':'].intercalate ((words bytes).map upperHex))) = some bytes := by
  have hlen : (words bytes).length = 8 := by rw [length_words, h]
  cases hw : words bytes with
  | nil =>
    rw [hw] at hlen
    cases hlen
  | cons g gs =>
    rw [hw, length_cons] at hlen
    have hdigit : ∀ d < 16, (Nat.digitChar d).toUpper.toNat < 128 ∧ (Nat.digitChar d).toUpper.toNat ≠ 0x25 := by
      decide +kernel
    have hplain : ∀ c ∈ [':'].intercalate ((g :: gs).map upperHex), c.toNat < 128 ∧ c.toNat ≠ 0x25 := by
      intro c hc
      rcases mem_intercalate hc with hc | ⟨_, hpart, hc⟩
      · rw [mem_singleton.mp hc]
        decide
      · obtain ⟨n, _, rfl⟩ := mem_map.mp hpart
        obtain ⟨c', hc', rfl⟩ := mem_map.mp hc
        obtain ⟨d, hd, rfl⟩ := Hex.exists_digit_of_mem_hex hc'
        exact hdigit d hd
    have hzone := dropZone_of_notMem (notMem_encode (b := 0x25) (fun c hc => (hplain c hc).1) fun c hc => (hplain c hc).2)
    have hcolon : dropColon (encode ([':'].intercalate ((g :: gs).map upperHex))) =
        some (encode ([':'].intercalate ((g :: gs).map upperHex))) := by
      obtain ⟨_, hrest⟩ := prefix_intercalate [':'] (upperHex g) (gs.map upperHex)
      obtain ⟨ch, _, hsrc, hne⟩ := encode_upperHex_cons (words_lt g (hw ▸ mem_cons_self))
      rw [map_cons, ← hrest, encode_append, hsrc]
      exact dropColon_of_ne hne _
    obtain ⟨_, st'', hloop, hlast, hout, hcol⟩ := @pton6Loop_groups g gs
      (fun n hn => words_lt n (hw ▸ hn))
      ⟨[], none, encode ([':'].intercalate ((g :: gs).map upperHex)), 0, 0⟩ rfl rfl (by simp; omega)
    rw [inetPton6, hzone, Option.bind_some, hcolon, Option.bind_some, hloop, Option.bind_some, hlast, Option.bind_some,
      expand, hcol]
    have hbytes : st''.out = bytes := by
      rw [hout, nil_append, ← hw]
      exact flatMap_groupBytes (by omega)
    rw [hbytes]
    exact if_pos h

theorem inetPton6_open (text : List UInt8) : inetPton6 (0x3c :: text) = none := by
  have hloop : ∀ src st, pton6Loop (0x3c :: src) st = none := by
    intro src st
    have hdigit : Ipv6.toDigit 16 (Char.ofNat (0x3c : UInt8).toNat) = none := by decide
    rw [pton6Loop, hdigit]
    dsimp only
    rw [if_neg (by decide), if_neg fun h => absurd h.1 (by decide)]
  rw [inetPton6, dropZone, idxOf?_cons, if_neg (by decide)]
  cases text.idxOf? 0x25 with
  | none =>
    rw [Option.map_none]
    dsimp only
    rw [Option.bind_some, dropColon_of_ne (by decide), Option.bind_some, hloop]
    rfl
  | some =>
    rw [Option.map_some]
    dsimp only
    split
    · rfl
    · rw [Option.bind_some, take_succ_cons, dropColon_of_ne (by decide), Option.bind_some, hloop]
      rfl

/-- **A printed address is read back as itself**, and what is no address as none. -/
theorem canonicalizeIp_ipEntryText (bytes : List UInt8) : canonicalizeIp (ipEntryText bytes) = ipText bytes := by
  unfold ipEntryText canonicalizeIp ipText
  split
  · next h4 =>
    obtain ⟨a, b, c, d, rfl⟩ : ∃ a b c d, bytes = [a, b, c, d] := length_eq_four.mp h4
    dsimp only
    rw [inetPton4_dottedQuad]
    exact if_pos rfl
  · next h4 =>
    split
    · next h16 =>
      dsimp only
      rw [inetPton4_groups h16, inetPton6_groups h16]
      rfl
    · have hopen : ∀ s, encode ('<' :: s) = 0x3c :: encode s := encode_cons_ascii (by decide) (by decide)
      have htext : "<invalid length=".toList ++ decimal bytes.length ++ ">".toList =
          '<' :: ("invalid length=".toList ++ decimal bytes.length ++ ">".toList) := rfl
      dsimp only
      rw [htext, hopen, inetPton4, pton4Loop, if_neg (by decide), if_neg fun h => absurd h.1 (by decide),
        inetPton6_open]
      rfl

theorem inetNtop6_ne_nil (bytes : List UInt8) : inetNtop6 bytes ≠ [] := by
  have hhex : ∀ n, Hex.hex n ≠ [] := fun n => Nat.toDigits_ne_nil
  have hfirst : ∀ best left, left = 7 → ntop6From bytes (words bytes) best (left + 1) ≠ [] := by
    rintro best left rfl
    rw [ntop6From]
    split
    · next hrun =>
      cases best with
      | none => cases hrun
      | some run =>
        have hbase : run.1 = 0 := Nat.le_zero.mp (of_decide_eq_true hrun).1
        rw [Option.map_some, hbase, if_pos rfl]
        exact cons_ne_nil _ _
    · rw [if_neg (by decide), nil_append, if_neg (by simp)]
      exact append_ne_nil_of_left_ne_nil (hhex _) _
  exact hfirst _ 7 rfl

theorem dottedQuad_ne_nil (h : bytes ≠ []) : dottedQuad bytes ≠ [] := by
  cases bytes with
  | nil => exact absurd rfl h
  | cons b bytes =>
    intro hnil
    have hpre := prefix_intercalate ['.'] (decimal b.toNat) (bytes.map fun b => decimal b.toNat)
    rw [dottedQuad, map_cons] at hnil
    rw [hnil, prefix_nil] at hpre
    exact decimal_ne_nil _ hpre

theorem canonicalizeIp_ne_nil {text ip : Str} (h : canonicalizeIp text = some ip) : ip ≠ [] := by
  unfold canonicalizeIp at h
  dsimp only at h
  split at h
  · unfold ipText at h
    split at h
    · next h4 =>
      cases h
      exact dottedQuad_ne_nil (by rintro rfl; cases h4)
    · split at h
      · cases h
        exact inetNtop6_ne_nil _
      · cases h
  · obtain ⟨v6, _, rfl⟩ := Option.map_eq_some_iff.mp h
    exact inetNtop6_ne_nil v6

end Oam.Tls
