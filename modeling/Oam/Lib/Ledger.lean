/-
  One counter that many parties draw on.  Of a party two measures are kept: what it has `drawn`, and how much of that it
  may `keep`; the rest is on its way back, a draw over the limit that a later move undoes.
-/
import Mathlib.Data.List.Basic

namespace Ledger

open List

variable {ρ κ α : Type}

/-! ## Sums over the parties -/

/-- The sum over the parties. -/
def total (f : ρ → Nat) : List ρ → Nat
  | [] => 0
  | p :: ps => f p + total f ps

theorem total_append (f : ρ → Nat) (ps qs : List ρ) : total f (ps ++ qs) = total f ps + total f qs := by
  induction ps with
  | nil => rw [nil_append, total, Nat.zero_add]
  | cons p ps ih => rw [cons_append, total, total, ih, Nat.add_assoc]

theorem total_add (f g : ρ → Nat) (ps : List ρ) : total (fun p => f p + g p) ps = total f ps + total g ps := by
  induction ps with
  | nil => rfl
  | cons p ps ih =>
    simp only [total, ih]
    omega

theorem total_le_total {f g : ρ → Nat} (h : ∀ p, f p ≤ g p) (ps : List ρ) : total f ps ≤ total g ps := by
  induction ps with
  | nil => exact Nat.le_refl 0
  | cons p ps ih => exact Nat.add_le_add (h p) ih

variable {ps : List ρ}

theorem total_eq_zero {f : ρ → Nat} (h : ∀ p ∈ ps, f p = 0) : total f ps = 0 := by
  induction ps with
  | nil => rfl
  | cons p ps ih =>
    rw [total, h p (mem_cons_self ..), ih fun q hq => h q (mem_cons_of_mem _ hq)]

theorem total_set (f : ρ → Nat) {i : Nat} {p : ρ} (h : ps[i]? = some p) (q : ρ) :
    total f (ps.set i q) + f p = total f ps + f q := by
  induction ps generalizing i with
  | nil => cases h
  | cons r ps ih =>
    cases i with
    | zero =>
      obtain rfl : r = p := Option.some.inj h
      rw [set_cons_zero, total, total]
      omega
    | succ i =>
      have hrest := ih h
      rw [set_cons_succ, total, total]
      omega

theorem total_eraseIdx (f : ρ → Nat) {i : Nat} {p : ρ} (h : ps[i]? = some p) :
    total f (ps.eraseIdx i) + f p = total f ps := by
  induction ps generalizing i with
  | nil => cases h
  | cons r ps ih =>
    cases i with
    | zero =>
      obtain rfl : r = p := Option.some.inj h
      rw [eraseIdx_cons_zero, total]
      omega
    | succ i =>
      have hrest := ih h
      rw [eraseIdx_cons_succ, total, total]
      omega

/-! ## Runs -/

/-- The counter, and the parties that draw on it. -/
structure Book (ρ : Type) where
  counter : Int
  parties : List ρ
deriving DecidableEq, Repr

/-- A party joins, or one acts. -/
inductive Move (κ α : Type) where
  | join (kind : κ)
  /-- The `i`-th party's move. -/
  | act (i : Nat) (a : α)
deriving DecidableEq, Repr

variable (fresh : κ → ρ) (act : Int → ρ → α → Int × ρ)

def step (b : Book ρ) : Move κ α → Book ρ
  | .join kind => { b with parties := b.parties ++ [fresh kind] }
  | .act i a =>
    match b.parties[i]? with
    | none => b
    | some p => { counter := (act b.counter p a).1, parties := b.parties.set i (act b.counter p a).2 }

def run (b : Book ρ) (moves : List (Move κ α)) : Book ρ := moves.foldl (step fresh act) b

/-- What the moves must keep to. -/
structure Rules (drawn keeps : ρ → Nat) (limit : Nat) : Prop where
  fresh : ∀ kind, drawn (fresh kind) = 0
  keeps_le : ∀ p, keeps p ≤ drawn p
  exact : ∀ c p a, (act c p a).1 + drawn p = c + drawn (act c p a).2
  within : ∀ c p a, keeps (act c p a).2 ≤ keeps p ∨ (act c p a).1 ≤ limit

/-- The counter is what is drawn, and what is kept is within the limit. -/
structure Balanced (drawn keeps : ρ → Nat) (limit : Nat) (b : Book ρ) : Prop where
  counter : b.counter = total drawn b.parties
  keeps : total keeps b.parties ≤ limit

variable {fresh act} {drawn keeps : ρ → Nat} {limit : Nat}

theorem step_balanced (h : Rules fresh act drawn keeps limit) {b : Book ρ} (hb : Balanced drawn keeps limit b)
    (m : Move κ α) : Balanced drawn keeps limit (step fresh act b m) := by
  cases m with
  | join kind =>
    have hdrawn := h.fresh kind
    have hkeeps := h.keeps_le (fresh kind)
    refine ⟨?_, ?_⟩
    · simp only [step, total_append, total, hb.counter, hdrawn, Nat.add_zero]
    · have := hb.keeps
      simp only [step, total_append, total]
      omega
  | act i a =>
    rw [step]
    cases hp : b.parties[i]? with
    | none => exact hb
    | some p =>
      have hexact := h.exact b.counter p a
      have hdrawn := total_set drawn hp (act b.counter p a).2
      have hcounter := hb.counter
      have hnow : (act b.counter p a).1 = (total drawn (b.parties.set i (act b.counter p a).2) : Nat) := by omega
      refine ⟨hnow, ?_⟩
      rcases h.within b.counter p a with hless | hlimit
      · -- the party keeps no more than it did
        have hkeeps := total_set keeps hp (act b.counter p a).2
        have := hb.keeps
        show total keeps (b.parties.set i (act b.counter p a).2) ≤ limit
        omega
      · -- the counter bounds what all of them have drawn
        have hle := total_le_total h.keeps_le (b.parties.set i (act b.counter p a).2)
        show total keeps (b.parties.set i (act b.counter p a).2) ≤ limit
        omega

/-- **In every run the counter is the sum of what is drawn, and the parties keep no more than the limit.** -/
theorem run_balanced (h : Rules fresh act drawn keeps limit) {b : Book ρ} (hb : Balanced drawn keeps limit b)
    (moves : List (Move κ α)) : Balanced drawn keeps limit (run fresh act b moves) := by
  induction moves generalizing b with
  | nil => exact hb
  | cons m moves ih => exact ih (step_balanced h hb m)

end Ledger
