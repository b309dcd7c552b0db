/-
  Machines that keep a log.

  A machine answers every input with its next state and the events that go into the log.  A safety property of
  the log says of EACH event something about the log BEFORE it (`Each`); it is proved with an invariant of the
  state and the log so far (`run_invariant`).
-/
import Mathlib.Data.List.Basic

namespace Trace

open List

variable {σ α ε : Type}

/-- The state behind a list of actions, and the log. -/
def run (step : σ → α → σ × List ε) : σ → List α → σ × List ε
  | s, [] => (s, [])
  | s, a :: as => ((run step (step s a).1 as).1, (step s a).2 ++ (run step (step s a).1 as).2)

theorem run_append (step : σ → α → σ × List ε) (s : σ) (as bs : List α) : run step s (as ++ bs) =
    ((run step (run step s as).1 bs).1, (run step s as).2 ++ (run step (run step s as).1 bs).2) := by
  induction as generalizing s with
  | nil => rfl
  | cons a as ih => simp only [cons_append, run, ih, append_assoc]

variable {step : σ → α → σ × List ε} {s : σ} {log : List ε}

/-- **What every step keeps of the state and the log so far, every run keeps.** -/
theorem run_invariant {P : σ → List ε → Prop} (hstep : ∀ s log a, P s log → P (step s a).1 (log ++ (step s a).2))
    (h : P s log) (as : List α) : P (run step s as).1 (log ++ (run step s as).2) := by
  induction as generalizing s log with
  | nil =>
    rw [run, append_nil]
    exact h
  | cons a as ih =>
    rw [run, ← append_assoc]
    exact ih (hstep s log a h)

/-- Every step of the run is one that `ok` allows. -/
def Along (step : σ → α → σ × List ε) (ok : σ → α → Bool) : σ → List α → Prop
  | _, [] => True
  | s, a :: as => ok s a = true ∧ Along step ok (step s a).1 as

instance decidableAlong (step : σ → α → σ × List ε) (ok : σ → α → Bool) :
    (s : σ) → (as : List α) → Decidable (Along step ok s as)
  | _, [] => isTrue trivial
  | s, a :: as =>
    haveI := decidableAlong step ok (step s a).1 as
    inferInstanceAs (Decidable (ok s a = true ∧ Along step ok (step s a).1 as))

variable {ok : σ → α → Bool} {as : List α}

theorem along_append {bs : List α} :
    Along step ok s (as ++ bs) ↔ Along step ok s as ∧ Along step ok (run step s as).1 bs := by
  induction as generalizing s with
  | nil => simp only [nil_append, Along, run, true_and]
  | cons a as ih => simp only [cons_append, Along, run, ih, and_assoc]

theorem along_and {ok' : σ → α → Bool} (h : Along step ok s as) (h' : Along step ok' s as) :
    Along step (fun s a => ok s a && ok' s a) s as := by
  induction as generalizing s with
  | nil => trivial
  | cons a as ih => exact ⟨Bool.and_eq_true_iff.mpr ⟨h.1, h'.1⟩, ih h.2 h'.2⟩

theorem run_invariant_along {P : σ → List ε → Prop}
    (hstep : ∀ s log a, ok s a → P s log → P (step s a).1 (log ++ (step s a).2)) (h : P s log)
    (hok : Along step ok s as) : P (run step s as).1 (log ++ (run step s as).2) := by
  induction as generalizing s log with
  | nil =>
    rw [run, append_nil]
    exact h
  | cons a as ih =>
    rw [run, ← append_assoc]
    exact ih (hstep s log a hok.1 h) hok.2

theorem run_keeps (P : σ → Prop) (hstep : ∀ s a, P s → P (step s a).1) (h : P s) (as : List α) :
    P (run step s as).1 := by
  induction as generalizing s with
  | nil => exact h
  | cons a as ih => exact ih (hstep s a h)

theorem run_keeps_along (P : σ → Prop) (hstep : ∀ s a, ok s a → P s → P (step s a).1) (h : P s)
    (hok : Along step ok s as) : P (run step s as).1 := by
  induction as generalizing s with
  | nil => exact h
  | cons a as ih => exact ih (hstep s a hok.1 h) hok.2

/-- `P` holds of every event and the log before it. -/
def Each (P : List ε → ε → Prop) (log : List ε) : Prop :=
  ∀ before e after, log = before ++ e :: after → P before e

@[simp] theorem each_nil (P : List ε → ε → Prop) : Each P [] := fun before e after h => by
  cases before <;> cases h

variable {P : List ε → ε → Prop}

@[simp] theorem each_cons {e : ε} : Each P (e :: log) ↔ P [] e ∧ Each (fun before => P (e :: before)) log := by
  constructor
  · intro h
    exact ⟨h [] e log rfl, fun before x after hlog => h (e :: before) x after (by rw [hlog, cons_append])⟩
  · rintro ⟨he, hlog⟩ before x after h
    cases before with
    | nil =>
      cases h
      exact he
    | cons y before =>
      obtain ⟨rfl, hrest⟩ := List.cons.inj h
      exact hlog before x after hrest

@[simp] theorem each_append {events : List ε} :
    Each P (log ++ events) ↔ Each P log ∧ Each (fun before => P (log ++ before)) events := by
  induction log generalizing P with
  | nil => simp
  | cons e log ih => simp [ih, and_assoc]

theorem each_of_forall (h : ∀ before, ∀ e ∈ log, P before e) : Each P log :=
  fun before e after hlog => h before e (by simp [hlog])

theorem cut_of_snoc {l before after : List ε} {e x : ε} (h : l ++ [e] = before ++ x :: after) :
    (after = [] ∧ l = before ∧ e = x) ∨ ∃ after', after = after' ++ [e] ∧ l = before ++ x :: after' := by
  rcases eq_nil_or_concat after with rfl | ⟨after', y, rfl⟩
  · obtain ⟨hl, he⟩ := append_inj' h rfl
    exact .inl ⟨rfl, hl, (List.cons.inj he).1⟩
  · rw [concat_eq_append] at h ⊢
    rw [← cons_append, ← append_assoc] at h
    obtain ⟨hl, he⟩ := append_inj' h rfl
    rw [(List.cons.inj he).1]
    exact .inr ⟨after', rfl, hl⟩

end Trace
