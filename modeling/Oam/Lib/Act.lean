/-
  Programs with a state that outlives an error: what a failed run did is still there.  `Spec P x Q E` has a rule for each
  way to build a program.
-/
import Mathlib.Init

/-- From a state to a value or an error, and the state that is left. -/
def Act (σ ε α : Type) : Type := σ → Except ε α × σ

namespace Act

variable {σ ε α β : Type}

protected def bind (x : Act σ ε α) (f : α → Act σ ε β) : Act σ ε β := fun s =>
  match x s with
  | (.ok a, t) => f a t
  | (.error e, t) => (.error e, t)

instance : Monad (Act σ ε) where
  pure a := fun s => (.ok a, s)
  bind := Act.bind

def fail (e : ε) : Act σ ε α := fun s => (.error e, s)

def lift (x : Except ε α) : Act σ ε α := fun s => (x, s)

def update (f : σ → α × σ) : Act σ ε α := fun s => (.ok (f s).1, (f s).2)

/-- The program, and then the change whether it failed or not. -/
def andThen (x : Act σ ε α) (f : σ → σ) : Act σ ε α := fun s => ((x s).1, f (x s).2)

/-- The program, whose failure is only a value. -/
def attempt (x : Act σ ε α) : Act σ ε (Except ε α) := fun s => (.ok (x s).1, (x s).2)

/-- **The specification of a program**: what holds after a value, and what holds after an error. -/
structure Spec (P : σ → Prop) (x : Act σ ε α) (Q : α → σ → Prop) (E : ε → σ → Prop) : Prop where
  ok : ∀ s, P s → ∀ a t, x s = (.ok a, t) → Q a t
  error : ∀ s, P s → ∀ e t, x s = (.error e, t) → E e t

namespace Spec

variable {P P' : σ → Prop} {x : Act σ ε α} {f : α → Act σ ε β} {Q Q' : α → σ → Prop} {R : β → σ → Prop}
  {E E' : ε → σ → Prop}

/-- What the specification says of the pair that one run answers. -/
def Ends (Q : α → σ → Prop) (E : ε → σ → Prop) : Except ε α × σ → Prop
  | (.ok a, t) => Q a t
  | (.error e, t) => E e t

theorem of_ends (h : ∀ s, P s → Ends Q E (x s)) : Spec P x Q E where
  ok := fun s hs a t ht => by
    have hends := h s hs
    rwa [ht] at hends
  error := fun s hs e t ht => by
    have hends := h s hs
    rwa [ht] at hends

theorem ends (h : Spec P x Q E) {s : σ} (hs : P s) : Ends Q E (x s) := by
  rcases hx : x s with ⟨e | a, t⟩
  · exact h.error s hs e t hx
  · exact h.ok s hs a t hx

protected theorem pure {a : α} (h : ∀ s, P s → Q a s) : Spec P (pure a : Act σ ε α) Q E := of_ends h

protected theorem fail {e : ε} (h : ∀ s, P s → E e s) : Spec P (fail e : Act σ ε α) Q E := of_ends h

protected theorem lift {r : Except ε α} (hok : ∀ a, r = .ok a → ∀ s, P s → Q a s)
    (herror : ∀ e, r = .error e → ∀ s, P s → E e s) : Spec P (lift r) Q E := by
  cases r with
  | ok a => exact of_ends (hok a rfl)
  | error e => exact of_ends (herror e rfl)

protected theorem update {g : σ → α × σ} (h : ∀ s, P s → Q (g s).1 (g s).2) : Spec P (update g : Act σ ε α) Q E :=
  of_ends h

/-- **One program after another.** -/
protected theorem bind (hx : Spec P x Q E) (hf : ∀ a, Spec (Q a) (f a) R E) : Spec P (x >>= f) R E := by
  refine of_ends fun s hs => ?_
  have hends := hx.ends hs
  change Ends R E (Act.bind x f s)
  unfold Act.bind
  generalize x s = answer at hends ⊢
  rcases answer with ⟨e | a, t⟩
  · exact hends
  · exact (hf a).ends hends

theorem bindBool {x : Act σ ε Bool} {f : Bool → Act σ ε β} {Q : Bool → σ → Prop} (hx : Spec P x Q E)
    (htrue : Spec (Q true) (f true) R E) (hfalse : Spec (Q false) (f false) R E) : Spec P (x >>= f) R E := by
  refine hx.bind fun b => ?_
  cases b with
  | true => exact htrue
  | false => exact hfalse

protected theorem mono (h : Spec P x Q E) (hP : ∀ s, P' s → P s) (hQ : ∀ a s, Q a s → Q' a s)
    (hE : ∀ e s, E e s → E' e s) : Spec P' x Q' E' where
  ok := fun s hs a t ht => hQ a t (h.ok s (hP s hs) a t ht)
  error := fun s hs e t ht => hE e t (h.error s (hP s hs) e t ht)

protected theorem asks (h : Spec P x Q E) (hP : ∀ s, P' s → P s) : Spec P' x Q E :=
  h.mono hP (fun _ _ hs => hs) fun _ _ hs => hs

protected theorem stops (h : Spec P x Q E) (hE : ∀ e s, E e s → E' e s) : Spec P x Q E' :=
  h.mono (fun _ hs => hs) (fun _ _ hs => hs) hE

theorem assume {p : Prop} (h : p → Spec P x Q E) : Spec (fun s => P s ∧ p) x Q E where
  ok := fun s hs => (h hs.2).ok s hs.1
  error := fun s hs => (h hs.2).error s hs.1

theorem assume_exists {γ : Type} {P : γ → σ → Prop} (h : ∀ c, Spec (P c) x Q E) : Spec (fun s => ∃ c, P c s) x Q E where
  ok := fun s ⟨c, hs⟩ => (h c).ok s hs
  error := fun s ⟨c, hs⟩ => (h c).error s hs

protected theorem andThen {g : σ → σ} (h : Spec P x (fun a s => Q a (g s)) (fun e s => E e (g s))) :
    Spec P (x.andThen g) Q E := by
  refine of_ends fun s hs => ?_
  have hends := h.ends hs
  unfold Act.andThen
  generalize x s = answer at hends ⊢
  rcases answer with ⟨e | a, t⟩
  · exact hends
  · exact hends

theorem attempt_bind {g : Except ε α → Act σ ε β} (hx : Spec P x Q E') (hok : ∀ a, Spec (Q a) (g (.ok a)) R E)
    (herror : ∀ e, Spec (E' e) (g (.error e)) R E) : Spec P (x.attempt >>= g) R E := by
  refine of_ends fun s hs => ?_
  have hends := hx.ends hs
  change Ends R E (g (x s).1 (x s).2)
  generalize x s = answer at hends ⊢
  rcases answer with ⟨e | a, t⟩
  · exact (herror e).ends hends
  · exact (hok a).ends hends

protected theorem ite {p : Prop} [Decidable p] {y : Act σ ε α} (hx : p → Spec P x Q E) (hy : ¬p → Spec P y Q E) :
    Spec P (if p then x else y) Q E := by
  split
  · exact hx ‹_›
  · exact hy ‹_›

end Spec

end Act
