/-
  Systems that take step after step: `step s a` is the state after the action `a` in the state `s`, or `none` if `a`
  cannot happen there.
-/
import Mathlib.Data.List.Basic

namespace Steps

variable {σ α : Type} {step : σ → α → Option σ}

/-- The state behind a list of actions. -/
def exec (step : σ → α → Option σ) : σ → List α → Option σ
  | s, [] => some s
  | s, a :: as => (step s a).bind fun s' => exec step s' as

@[simp] theorem exec_nil (s : σ) : exec step s [] = some s := rfl

/-- A run takes its first step, and then the others. -/
theorem exec_cons_eq_some {s s' : σ} {a : α} {as : List α} :
    exec step s (a :: as) = some s' ↔ ∃ t, step s a = some t ∧ exec step t as = some s' := by
  rw [exec, Option.bind_eq_some_iff]

/-- **What every step keeps, every run keeps.** -/
theorem exec_invariant {P : σ → Prop} (hstep : ∀ s a s', P s → step s a = some s' → P s')
    {s s' : σ} {as : List α} (hs : P s) (h : exec step s as = some s') : P s' := by
  induction as generalizing s with
  | nil =>
    rw [exec_nil, Option.some.injEq] at h
    rw [← h]
    exact hs
  | cons a as ih =>
    obtain ⟨t, ht, hrest⟩ := exec_cons_eq_some.mp h
    exact ih (hstep s a t hs ht) hrest

end Steps
