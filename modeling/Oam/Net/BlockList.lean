/-
  `node:net`'s `BlockList` (`node_compat.js`).  `check` looks at the TEXTS of address rules only, so it is right exactly
  when a blocked address was also added under its own text.
-/
import Oam.Lib.Ipv6
import Mathlib.Algebra.Group.Nat.Defs

namespace Oam.Net

open Text

/-! ## Program -/

inductive Rule where
  | address (address family : Str)
  | range (start stop family : Str)
  | subnet (network : Str) (bits : Nat) (family : Str)
deriving DecidableEq

def Rule.family : Rule → Str
  | .address _ family => family
  | .range _ _ family => family
  | .subnet _ _ family => family

/-- `family || "ipv4"`. -/
def orIpv4 : Option Str → Str
  | none => "ipv4".toList
  | some family => if family.isEmpty then "ipv4".toList else family

inductive Call where
  | addAddress (address : Str) (family : Option Str)
  | addRange (start stop : Str) (family : Option Str)
  | addSubnet (network : Str) (bits : Nat) (family : Option Str)
deriving DecidableEq

def Call.rule : Call → Rule
  | .addAddress address family => .address address (orIpv4 family)
  | .addRange start stop family => .range start stop (orIpv4 family)
  | .addSubnet network bits family => .subnet network bits (orIpv4 family)

def rules (calls : List Call) : List Rule := calls.foldl (fun rules call => rules ++ [call.rule]) []

def Rule.names (address : Str) : Rule → Bool
  | .address added _ => decide (added = address)
  | _ => false

def check (rules : List Rule) (address : Str) (family : Option Str) : Bool :=
  let fam := (orIpv4 family).map asciiLower
  rules.any fun rule => decide (rule.family = fam) && rule.names address

/-! ## Specification -/

inductive Family where
  | ipv4
  | ipv6
deriving DecidableEq

def familyOf (family : Option Str) : Option Family :=
  let name := (orIpv4 family).map asciiLower
  if name = "ipv4".toList then some .ipv4 else if name = "ipv6".toList then some .ipv6 else none

def Family.width : Family → Nat
  | .ipv4 => 32
  | .ipv6 => 128

def Family.value (text : Str) : Family → Option Nat
  | .ipv4 =>
    match Ipv6.readIpv4Addr text with
    | some ((high, low), []) => some (high.toNat * 65536 + low.toNat)
    | _ => none
  | .ipv6 => (Ipv6.parse text).map fun a => a.segments.foldl (fun n s => n * 65536 + s.toNat) 0

def Call.Valid : Call → Prop
  | .addAddress address family => ∃ fam, familyOf family = some fam ∧ (fam.value address).isSome
  | .addRange start stop family => ∃ fam lo hi, familyOf family = some fam ∧ fam.value start = some lo ∧
      fam.value stop = some hi ∧ lo ≤ hi
  | .addSubnet network bits family => ∃ fam, familyOf family = some fam ∧ (fam.value network).isSome ∧ bits ≤ fam.width

/-- What was added contains the address `a` of the family `fam`. -/
def Call.Contains (fam : Family) (a : Nat) : Call → Prop
  | .addAddress address family => familyOf family = some fam ∧ fam.value address = some a
  | .addRange start stop family => familyOf family = some fam ∧
      ∃ lo hi, fam.value start = some lo ∧ fam.value stop = some hi ∧ lo ≤ a ∧ a ≤ hi
  | .addSubnet network bits family => familyOf family = some fam ∧
      ∃ n, fam.value network = some n ∧ n / 2 ^ (fam.width - bits) = a / 2 ^ (fam.width - bits)

def Blocked (calls : List Call) (address : Str) (family : Option Str) : Prop :=
  ∃ fam a, familyOf family = some fam ∧ fam.value address = some a ∧ ∃ call ∈ calls, call.Contains fam a

/-- The address was added under this very text, and its family in lower case. -/
def Named (calls : List Call) (address : Str) (family : Option Str) : Prop :=
  ∃ added, .addAddress address added ∈ calls ∧ orIpv4 added = (orIpv4 family).map asciiLower

/-! ## Correctness -/

theorem rules_eq (calls : List Call) : rules calls = calls.map Call.rule := by
  have hfold : ∀ (calls : List Call) (before : List Rule),
      calls.foldl (fun rules call => rules ++ [call.rule]) before = before ++ calls.map Call.rule := by
    intro calls
    induction calls with
    | nil => simp
    | cons call calls ih => simp [ih]
  exact (hfold calls []).trans (List.nil_append _)

theorem check_iff (calls : List Call) (address : Str) (family : Option Str) :
    check (rules calls) address family ↔ Named calls address family := by
  rw [rules_eq, check, List.any_map, List.any_eq_true]
  constructor
  · rintro ⟨call, hcall, hrule⟩
    cases call with
    | addAddress added other =>
      obtain ⟨hfam, hnames⟩ := Bool.and_eq_true_iff.mp hrule
      obtain rfl : added = address := of_decide_eq_true hnames
      exact ⟨other, hcall, of_decide_eq_true hfam⟩
    | addRange | addSubnet => simp [Call.rule, Rule.names] at hrule
  · rintro ⟨added, hcall, hfam⟩
    exact ⟨_, hcall, Bool.and_eq_true_iff.mpr ⟨decide_eq_true hfam, decide_eq_true rfl⟩⟩

theorem asciiLower_idem (c : Char) : asciiLower (asciiLower c) = asciiLower c := by
  unfold asciiLower
  split
  · next h =>
    have hlow : 'A'.toNat ≤ c.toNat ∧ c.toNat ≤ 'Z'.toNat := h
    rw [if_neg]
    rintro ⟨-, hle⟩
    have hle : (Char.ofNat (c.toNat + 32)).toNat ≤ 90 := hle
    have hval : ∀ n < 91, 65 ≤ n → ¬ (Char.ofNat (n + 32)).toNat ≤ 90 := by decide
    exact hval c.toNat (by simpa using Nat.lt_succ_of_le hlow.2) hlow.1 hle
  · rfl

theorem blocked_of_named {calls : List Call} (hvalid : ∀ call ∈ calls, call.Valid) {address : Str}
    {family : Option Str} (h : Named calls address family) : Blocked calls address family := by
  obtain ⟨added, hcall, hfam⟩ := h
  obtain ⟨fam, hadded, hvalue⟩ := hvalid _ hcall
  obtain ⟨a, ha⟩ := Option.isSome_iff_exists.mp hvalue
  have hsame : familyOf family = some fam := by
    rw [← hadded]
    unfold familyOf
    simp only [hfam, List.map_map, Function.comp_def, asciiLower_idem]
  exact ⟨fam, a, hsame, ha, _, hcall, hadded, ha⟩

/-- **What the list decides.**  After any valid calls, `check` answers whether the address is blocked
    iff it is not, or was added under its own text. -/
theorem check_decides_iff (calls : List Call) (hvalid : ∀ call ∈ calls, call.Valid) (address : Str)
    (family : Option Str) : (check (rules calls) address family = true ↔ Blocked calls address family) ↔
    (Blocked calls address family → Named calls address family) := by
  rw [check_iff]
  exact ⟨fun h => h.mpr, fun h => ⟨blocked_of_named hvalid, h⟩⟩

/-- One call of each kind, in both families. -/
def mixed : List Call :=
  [.addAddress "10.0.0.1".toList none, .addRange "10.0.0.5".toList "10.0.0.9".toList (some "ipv4".toList),
    .addSubnet "2001:db8::".toList 32 (some "IPv6".toList), .addAddress "::1".toList (some "ipv6".toList)]

theorem valid_mixed : ∀ call ∈ mixed, call.Valid := by
  simp only [mixed, List.forall_mem_cons]
  refine ⟨⟨.ipv4, ?_⟩, ⟨.ipv4, 167772165, 167772169, ?_⟩, ⟨.ipv6, ?_⟩, ⟨.ipv6, ?_⟩, nofun⟩ <;> decide +kernel

/-- An address of each family was added under its own text, and is found. -/
theorem check_decides_mixed :
    (check (rules mixed) "10.0.0.1".toList none = true ↔ Blocked mixed "10.0.0.1".toList none) ∧
      (check (rules mixed) "::1".toList (some "IPv6".toList) = true ↔
        Blocked mixed "::1".toList (some "IPv6".toList)) :=
  ⟨(check_decides_iff mixed valid_mixed _ _).mpr fun _ => ⟨none, by decide, by decide +kernel⟩,
    (check_decides_iff mixed valid_mixed _ _).mpr fun _ => ⟨some "ipv6".toList, by decide, by decide +kernel⟩⟩

/-- A subnet blocks nothing. -/
theorem subnet_blocks_nothing : let calls := [Call.addSubnet "10.0.0.0".toList 8 none]
    (∀ call ∈ calls, call.Valid) ∧ Blocked calls "10.1.2.3".toList none ∧
      check (rules calls) "10.1.2.3".toList none = false := by
  have hfam : familyOf none = some .ipv4 := by decide +kernel
  refine ⟨fun call hcall => ?_, ⟨.ipv4, 167838211, hfam, by decide +kernel, _, List.mem_singleton.mpr rfl,
    hfam, 167772160, by decide +kernel, by decide +kernel⟩, by decide +kernel⟩
  rw [List.mem_singleton.mp hcall]
  exact ⟨.ipv4, hfam, by decide +kernel, by decide⟩

end Oam.Net
