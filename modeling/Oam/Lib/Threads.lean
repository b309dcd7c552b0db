/-
  Threads over one shared memory: `act` is the next ATOMIC action at a program counter, `env` what the world does in
  between.  One relation `R` says how the memory may change, so that each action is looked at ONCE, in its own thread.
-/
import Oam.Lib.Steps

namespace Threads

/-- What a thread does. -/
structure Program (σ π κ ε : Type) where
  /-- Between two calls. -/
  ready : π → Bool
  enter : σ → κ → π
  act : σ → π → Option (σ × π)
  env : σ → ε → σ

/-- The memory, and where each thread is. -/
structure State (σ π : Type) where
  mem : σ
  pc : Nat → π

/-- The world acts, a thread starts a call, or takes its next action. -/
inductive Action (κ ε : Type) where
  | env (e : ε)
  | call (t : Nat) (k : κ)
  | go (t : Nat)

variable {σ π κ ε : Type}

def State.setPc (s : State σ π) (t : Nat) (p : π) : State σ π :=
  { s with pc := fun u => if u = t then p else s.pc u }

theorem State.forall_setPc {Q : π → Prop} {s : State σ π} {t : Nat} {p : π} (h : ∀ u, Q (s.pc u))
    (hp : Q p) (u : Nat) : Q ((s.setPc t p).pc u) := by
  show Q (if u = t then p else s.pc u)
  split
  · exact hp
  · exact h u

namespace Program

variable (P : Program σ π κ ε)

/-- One action; `none` where a thread cannot take it. -/
def step (s : State σ π) : Action κ ε → Option (State σ π)
  | .env e => some { s with mem := P.env s.mem e }
  | .call t k => if P.ready (s.pc t) then some (s.setPc t (P.enter s.mem k)) else none
  | .go t => (P.act s.mem (s.pc t)).map fun next => { s with mem := next.1 }.setPc t next.2

/-- The program whose threads take an action only where `ok` allows it. -/
def onlyIf (ok : σ → π → Bool) : Program σ π κ ε :=
  { P with act := fun m p => if ok m p then P.act m p else none }

variable {P}

variable {ok : σ → π → Bool}

theorem act_onlyIf {m : σ} {p : π} {next : σ × π}
    (h : (P.onlyIf ok).act m p = some next) : ok m p ∧ P.act m p = some next := by
  change (if ok m p then P.act m p else none) = some next at h
  split at h
  · exact ⟨by assumption, h⟩
  · cases h

variable {s s' : State σ π}

theorem step_of_onlyIf {a : Action κ ε} (h : (P.onlyIf ok).step s a = some s') : P.step s a = some s' := by
  cases a with
  | env e | call t k => exact h
  | go t =>
    obtain ⟨next, hact, hnext⟩ := Option.map_eq_some_iff.mp h
    exact Option.map_eq_some_iff.mpr ⟨next, (act_onlyIf hact).2, hnext⟩

theorem exec_of_onlyIf {actions : List (Action κ ε)}
    (h : Steps.exec (P.onlyIf ok).step s actions = some s') : Steps.exec P.step s actions = some s' := by
  induction actions generalizing s with
  | nil => exact h
  | cons a actions ih =>
    obtain ⟨t, ht, hrest⟩ := Steps.exec_cons_eq_some.mp h
    exact Steps.exec_cons_eq_some.mpr ⟨t, step_of_onlyIf ht, ih hrest⟩

variable {I : σ → Prop} {Q : σ → π → Prop} {R : σ → σ → Prop}

/-- What a proof by rely and guarantee has to show of a program. -/
structure Guarantees (P : Program σ π κ ε) (I : σ → Prop) (Q : σ → π → Prop) (R : σ → σ → Prop) :
    Prop where
  stable : ∀ m m' p, Q m p → R m m' → Q m' p
  act : ∀ m p m' p', I m → Q m p → P.act m p = some (m', p') → R m m' ∧ I m' ∧ Q m' p'
  enter : ∀ m k, I m → Q m (P.enter m k)
  env : ∀ m e, I m → R m (P.env m e) ∧ I (P.env m e)

theorem step_invariant (hP : P.Guarantees I Q R) {a : Action κ ε}
    (hs : I s.mem ∧ ∀ t, Q s.mem (s.pc t)) (h : P.step s a = some s') : I s'.mem ∧ ∀ t, Q s'.mem (s'.pc t) := by
  obtain ⟨hI, hQ⟩ := hs
  cases a with
  | env e =>
    injection h with h
    subst h
    obtain ⟨hR, hI'⟩ := hP.env s.mem e hI
    exact ⟨hI', fun t => hP.stable _ _ _ (hQ t) hR⟩
  | call t k =>
    rw [step] at h
    split at h
    · injection h with h
      subst h
      exact ⟨hI, State.forall_setPc hQ (hP.enter s.mem k hI)⟩
    · cases h
  | go t =>
    obtain ⟨⟨m', p'⟩, hact, h⟩ := Option.map_eq_some_iff.mp h
    subst h
    obtain ⟨hR, hI', hp'⟩ := hP.act _ _ _ _ hI (hQ t) hact
    -- the thread's own counter is the new one, every other thread relies on `R`
    refine ⟨hI', State.forall_setPc (Q := Q m') (fun u => ?_) hp'⟩
    exact hP.stable _ _ _ (hQ u) hR

/-- **Rely and guarantee.** In every interleaving the memory keeps `I`, and every thread what `Q` says of it. -/
theorem exec_invariant_of_rely (hP : P.Guarantees I Q R) {actions : List (Action κ ε)} (hI : I s.mem)
    (hQ : ∀ t, Q s.mem (s.pc t)) (h : Steps.exec P.step s actions = some s') : I s'.mem ∧ ∀ t, Q s'.mem (s'.pc t) :=
  Steps.exec_invariant (P := fun s => I s.mem ∧ ∀ t, Q s.mem (s.pc t))
    (fun _ _ _ hs hstep => step_invariant hP hs hstep) ⟨hI, hQ⟩ h

end Program

end Threads
