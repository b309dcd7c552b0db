/-
  One-way channels, as their DOCUMENTATION has them: what is written can be read, in order; after the writer has shut the
  channel down or let go of it, the reader gets what is held and then the end.  How much one call moves is left open.
-/
import Mathlib.Data.List.Basic

inductive Channel.Wrote where
  | pending
  | broken
  | took (n : Nat)

/-- A channel with states `S`.  A read that waits says `none`, and the end is a read of nothing. -/
structure Channel (S β : Type) where
  fresh : S
  held : S → List β
  /-- The writer shut the channel down, or let go of it. -/
  ended : S → Bool
  /-- The reader let go of it. -/
  gone : S → Bool
  write : S → List β → Channel.Wrote × S
  read : S → Nat → Option (List β) × S
  endWrite : S → S
  endRead : S → S
  held_fresh : held fresh = []
  ended_fresh : ended fresh = false
  gone_fresh : gone fresh = false
  write_took : ∀ s xs n, (write s xs).1 = .took n → held (write s xs).2 = held s ++ xs.take n
  write_refused : ∀ s xs, (∀ n, (write s xs).1 ≠ .took n) → held (write s xs).2 = held s
  write_broken : ∀ s xs, (write s xs).1 = .broken → ended s = true ∨ gone s = true
  ended_write : ∀ s xs, ended (write s xs).2 = ended s
  gone_write : ∀ s xs, gone (write s xs).2 = gone s
  read_some : ∀ s max xs, (read s max).1 = some xs → held s = xs ++ held (read s max).2
  read_none : ∀ s max, (read s max).1 = none → held s = [] ∧ held (read s max).2 = [] ∧ ended s = false
  ended_read : ∀ s max, ended (read s max).2 = ended s
  gone_read : ∀ s max, gone (read s max).2 = gone s
  held_endWrite : ∀ s, held (endWrite s) = held s
  ended_endWrite : ∀ s, ended (endWrite s) = true
  gone_endWrite : ∀ s, gone (endWrite s) = gone s

namespace Channel

variable {S β : Type} (ch : Channel S β)

/-- A read does not wait, and says the end when nothing is held. -/
def Ends (s : S) : Prop := ∀ max, ∃ xs, (ch.read s max).1 = some xs ∧ (ch.held s = [] → xs = [])

theorem ends_of_ended {s : S} (h : ch.ended s) : ch.Ends s := by
  intro max
  cases hread : (ch.read s max).1 with
  | none =>
    rw [(ch.read_none s max hread).2.2] at h
    cases h
  | some xs =>
    refine ⟨xs, rfl, fun hheld => ?_⟩
    have hsplit := ch.read_some s max xs hread
    rw [hheld] at hsplit
    exact (List.append_eq_nil_iff.mp hsplit.symm).1

theorem held_read (s : S) (max : Nat) : ch.held s = (ch.read s max).1.getD [] ++ ch.held (ch.read s max).2 := by
  cases hread : (ch.read s max).1 with
  | none =>
    obtain ⟨hheld, hheld', -⟩ := ch.read_none s max hread
    rw [hheld, hheld']
    rfl
  | some xs => exact ch.read_some s max xs hread

/-! ## A channel without a bound -/

/-- A channel without a bound. -/
structure Queue (β : Type) where
  items : List β
  ended : Bool
  gone : Bool
deriving DecidableEq

def Queue.write {β : Type} (q : Queue β) (xs : List β) : Wrote × Queue β :=
  if q.ended || q.gone then (.broken, q) else (.took xs.length, { q with items := q.items ++ xs })

def Queue.read {β : Type} (q : Queue β) (max : Nat) : Option (List β) × Queue β :=
  if q.items.isEmpty && !q.ended then (none, q) else (some (q.items.take max), { q with items := q.items.drop max })

/-- A channel that takes all it is given, as a queue: the laws can be met. -/
def queue (β : Type) : Channel (Queue β) β where
  fresh := { items := [], ended := false, gone := false }
  held := Queue.items
  ended := Queue.ended
  gone := Queue.gone
  write := Queue.write
  read := Queue.read
  endWrite := fun q => { q with ended := true }
  endRead := fun q => { q with gone := true }
  held_fresh := rfl
  ended_fresh := rfl
  gone_fresh := rfl
  write_took := fun q xs n h => by
    unfold Queue.write at h ⊢
    by_cases hopen : (q.ended || q.gone) = true
    · rw [if_pos hopen] at h
      cases h
    · rw [if_neg hopen] at h ⊢
      cases h
      rw [List.take_length]
  write_refused := fun q xs h => by
    unfold Queue.write at h ⊢
    by_cases hopen : (q.ended || q.gone) = true
    · rw [if_pos hopen]
    · rw [if_neg hopen] at h
      exact absurd rfl (h xs.length)
  write_broken := fun q xs h => by
    unfold Queue.write at h
    by_cases hopen : (q.ended || q.gone) = true
    · exact Bool.or_eq_true_iff.mp hopen
    · rw [if_neg hopen] at h
      cases h
  ended_write := fun q xs => by
    unfold Queue.write
    split <;> rfl
  gone_write := fun q xs => by
    unfold Queue.write
    split <;> rfl
  read_some := fun q max xs h => by
    unfold Queue.read at h ⊢
    by_cases hwait : (q.items.isEmpty && !q.ended) = true
    · rw [if_pos hwait] at h
      cases h
    · rw [if_neg hwait] at h ⊢
      cases h
      exact (List.take_append_drop max q.items).symm
  read_none := fun q max h => by
    unfold Queue.read at h ⊢
    by_cases hwait : (q.items.isEmpty && !q.ended) = true
    · obtain ⟨hempty, hended⟩ := Bool.and_eq_true_iff.mp hwait
      have hnil := List.isEmpty_iff.mp hempty
      rw [Bool.not_eq_true'] at hended
      rw [if_pos hwait]
      exact ⟨hnil, hnil, hended⟩
    · rw [if_neg hwait] at h
      cases h
  ended_read := fun q max => by
    unfold Queue.read
    split <;> rfl
  gone_read := fun q max => by
    unfold Queue.read
    split <;> rfl
  held_endWrite := fun _ => rfl
  ended_endWrite := fun _ => rfl
  gone_endWrite := fun _ => rfl

end Channel
