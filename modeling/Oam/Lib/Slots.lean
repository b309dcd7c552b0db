/-
  Slots: values filed under the name of their key, in a store anyone may write to.

  A history `put`s values and TAMPERS with places.  Two ghosts remember what the store promises: the value last put
  under a key (`stored`), and whether its place was left alone since (`intact`).
-/
import Mathlib.Data.List.Basic

namespace Slots

variable {K V P C : Type} [DecidableEq K] [DecidableEq P]

/-- A put, or a change from outside. -/
inductive Op (K V P C : Type) where
  | put (k : K) (v : V)
  | tamper (p : P) (c : Option C)

/-- What is on disk, what was put last, and which keys were left alone. -/
structure State (K V P C : Type) where
  disk : P → Option C
  stored : K → Option V
  intact : K → Bool

def empty : State K V P C := { disk := fun _ => none, stored := fun _ => none, intact := fun _ => true }

variable (slot : K → P) (encode : V → C)

def apply (s : State K V P C) : Op K V P C → State K V P C
  | .put k v =>
    { disk := Function.update s.disk (slot k) (some (encode v))
      stored := Function.update s.stored k (some v)
      intact := Function.update s.intact k true }
  | .tamper p c =>
    { s with disk := Function.update s.disk p c
             intact := fun k => s.intact k && decide (slot k ≠ p) }

/-- The store after a history, from the empty one. -/
def run (ops : List (Op K V P C)) : State K V P C := ops.foldl (apply slot encode) empty

/-- The keys that were put. -/
def keys : List (Op K V P C) → List K
  | [] => []
  | .put k _ :: ops => k :: keys ops
  | .tamper _ _ :: ops => keys ops

variable {slot encode}

/-- If the key's place was left alone, it holds what was last put there. -/
def Files (slot : K → P) (encode : V → C) (k : K) (s : State K V P C) : Prop :=
  s.intact k = true → s.disk (slot k) = (s.stored k).map encode

variable {s : State K V P C}

theorem files_put {k k' : K} {v : V} (h : Files slot encode k s)
    (hslot : slot k = slot k' → k = k') : Files slot encode k (apply slot encode s (.put k' v)) := by
  intro hintact
  by_cases hk : k = k'
  · subst hk
    simp [apply]
  · -- another key has another place
    have hplace : slot k ≠ slot k' := fun he => hk (hslot he)
    have hintact' : s.intact k := by simpa [apply, hk] using hintact
    simpa [apply, hk, hplace] using h hintact'

theorem files_tamper {k : K} (h : Files slot encode k s) (p : P)
    (c : Option C) : Files slot encode k (apply slot encode s (.tamper p c)) := by
  intro hintact
  obtain ⟨hintact, hplace⟩ : s.intact k ∧ slot k ≠ p := by simpa [apply] using hintact
  simpa [apply, hplace] using h hintact

theorem files_foldl {k : K} {ops : List (Op K V P C)} (h : Files slot encode k s)
    (hslot : ∀ k' ∈ keys ops, slot k = slot k' → k = k') : Files slot encode k (ops.foldl (apply slot encode) s) := by
  induction ops generalizing s with
  | nil => exact h
  | cons op ops ih =>
    cases op with
    | put k' v =>
      apply ih (files_put h (hslot k' (List.mem_cons_self ..)))
      exact fun k'' hk'' => hslot k'' (List.mem_cons_of_mem _ hk'')
    | tamper p c => exact ih (files_tamper h p c) hslot

/-- **An intact key's place holds what was last put there.** -/
theorem disk_of_intact {ops : List (Op K V P C)} {k : K} (hslot : ∀ k' ∈ keys ops, slot k = slot k' → k = k')
    (hintact : (run slot encode ops).intact k) : (run slot encode ops).disk (slot k) =
    ((run slot encode ops).stored k).map encode :=
  files_foldl (fun _ => rfl) hslot hintact

end Slots
