/-
  Lowercase hexadecimal, as `format!("{n:x}")` and `format!("{b:02x}")` write it.

  `hexBytes` names a byte string by two digits a byte.  It is injective (`hexBytes_injective`), and
  nothing but hexadecimal digits stands in it, so it can be framed by any other character.
-/
import Oam.Lib.Text

namespace Hex

open List Nat Text

def isHexDigit (c : Char) : Bool := c.isDigit || (decide ('a' ≤ c) && decide (c ≤ 'f'))

/-- `format!("{n:x}")`. -/
def hex (n : Nat) : Str := toDigits 16 n

/-- `format!("{b:02x}")`. -/
def hexByte (b : UInt8) : Str := [digitChar (b.toNat / 16), digitChar (b.toNat % 16)]

def hexBytes (bytes : List UInt8) : Str := bytes.flatMap hexByte

theorem isHexDigit_digitChar : ∀ n < 16, isHexDigit (digitChar n) := by decide

theorem digitChar_injective : ∀ m < 16, ∀ n < 16, digitChar m = digitChar n → m = n := by
  decide

theorem exists_digit_of_mem_hex {n : Nat} {c : Char} (h : c ∈ hex n) : ∃ d < 16, c = digitChar d := by
  induction n using Nat.strongRecOn with
  | ind n ih =>
    rw [hex, toDigits_eq_if (by decide)] at h
    split at h
    · next hlt => exact ⟨n, hlt, mem_singleton.mp h⟩
    · rcases mem_append.mp h with h | h
      · exact ih (n / 16) (by omega) h
      · exact ⟨n % 16, by omega, mem_singleton.mp h⟩

theorem isHexDigit_of_mem_hex {n : Nat} {c : Char} (h : c ∈ hex n) : isHexDigit c := by
  obtain ⟨d, hd, rfl⟩ := exists_digit_of_mem_hex h
  exact isHexDigit_digitChar d hd

theorem hex_eq (n : Nat) : hex n = (if n < 16 then [] else hex (n / 16)) ++ [digitChar (n % 16)] := by
  rw [hex, toDigits_eq_if (by decide)]
  split
  · next h => rw [mod_eq_of_lt h, nil_append]
  · rfl

theorem hex_injective {m n : Nat} (h : hex m = hex n) : m = n := by
  induction m using Nat.strongRecOn generalizing n with
  | ind m ih =>
    rw [hex_eq m, hex_eq n] at h
    obtain ⟨hfront, hlast⟩ := append_inj' h rfl
    have hmod := digitChar_injective _ (by omega) _ (by omega) (singleton_inj.mp hlast)
    split_ifs at hfront
    · omega
    · exact absurd hfront.symm toDigits_ne_nil
    · exact absurd hfront toDigits_ne_nil
    · have hdiv := ih (m / 16) (by omega) hfront
      omega

theorem isHexDigit_of_mem_hexBytes {bytes : List UInt8} {c : Char} (h : c ∈ hexBytes bytes) : isHexDigit c := by
  obtain ⟨b, _, hc⟩ := mem_flatMap.mp h
  have hb := b.toNat_lt
  rcases mem_cons.mp hc with rfl | hc
  · exact isHexDigit_digitChar _ (by omega)
  · rw [mem_singleton.mp hc]
    exact isHexDigit_digitChar _ (by omega)

theorem hexByte_injective {b b' : UInt8} (h : hexByte b = hexByte b') : b = b' := by
  have hb := b.toNat_lt
  have hb' := b'.toNat_lt
  injection h with hhigh hlow
  injection hlow with hlow _
  have hdiv := digitChar_injective _ (by omega) _ (by omega) hhigh
  have hmod := digitChar_injective _ (by omega) _ (by omega) hlow
  apply UInt8.toNat_inj.mp
  omega

/-- **Distinct byte strings have distinct names.**  Every byte takes two digits, so the names are
    compared byte by byte. -/
theorem hexBytes_injective {bytes bytes' : List UInt8} (h : hexBytes bytes = hexBytes bytes') : bytes = bytes' := by
  induction bytes generalizing bytes' with
  | nil =>
    cases bytes' with
    | nil => rfl
    | cons b' bytes' => cases h
  | cons b bytes ih =>
    cases bytes' with
    | nil => cases h
    | cons b' bytes' =>
      change hexByte b ++ hexBytes bytes = hexByte b' ++ hexBytes bytes' at h
      obtain ⟨hbyte, hrest⟩ := append_inj h rfl
      rw [hexByte_injective hbyte, ih hrest]

end Hex
