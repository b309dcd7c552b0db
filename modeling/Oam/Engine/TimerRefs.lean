/-
  What the timer queue's reference count counts: every operation of the queue keeps it `Backed`, whatever the clock says
  and however often ids are used again.
-/
import Oam.Engine.TimerPops

namespace Oam.Engine.Timers

open List TimerQueue

variable {C : Type}

namespace Backed

variable {q q' : TimerQueue C} {id : Nat} {entry : TimerEntry C} {x : Slot}

/-! ## The operations -/

theorem new (epoch : Nat) : Backed (TimerQueue.new epoch : TimerQueue C) where
  keyed := nodup_nil
  refs := rfl
  queued := fun id h => by cases h

variable (h : Backed q)

include h

theorem schedule {delay now : Nat} (hs : q.schedule entry delay now = some (x, q')) : Backed q' := by
  unfold TimerQueue.schedule TimerQueue.insert at hs
  rw [Option.map_map, Option.map_eq_some_iff] at hs
  obtain ⟨id, hid, hx⟩ := hs
  obtain ⟨rfl, rfl⟩ := Prod.mk.inj hx
  exact h.inserted (get_eq_none_of_freeId hid) rfl rfl ((perm_orderedInsert Slot.le _ q.heap).append_right _)

theorem scheduleImmediate {now : Nat} (hs : q.scheduleImmediate entry now = some (x, q')) : Backed q' := by
  unfold TimerQueue.scheduleImmediate TimerQueue.insert at hs
  rw [Option.map_map, Option.map_eq_some_iff] at hs
  obtain ⟨id, hid, hx⟩ := hs
  obtain ⟨rfl, rfl⟩ := Prod.mk.inj hx
  exact h.inserted (get_eq_none_of_freeId hid) rfl rfl (slots_append q _)

theorem cancel (id : Nat) : Backed (q.cancel id) := by
  cases hget : q.get id with
  | none =>
    rw [TimerQueue.cancel, hget]
    exact h
  | some entry =>
    refine Backed.sweeps ?_ (Sweeps.cancel hget)
    exact h.removed hget rfl rfl fun _ _ => rfl

theorem popTimer (now : Nat) {rest : List Slot} (hheap : q.heap = x :: rest)
    (hget : q.get x.id = some entry) : Backed (q.popTimer now).2 := by
  unfold TimerQueue.popTimer
  rw [hheap]
  dsimp only
  rw [hget]
  dsimp only
  cases entry.interval with
  | some period =>
    refine h.requeued rfl rfl ?_
    intro y hy _
    rw [slots, hheap, cons_append] at hy
    have hperm := (perm_orderedInsert Slot.le ⟨now + period, q.nextSeq, x.id⟩ rest).append_right q.immediates
    rcases mem_cons.mp hy with rfl | hy
    · exact ⟨_, hperm.mem_iff.mpr mem_cons_self, rfl⟩
    · exact ⟨y, hperm.mem_iff.mpr (mem_cons_of_mem _ hy), rfl⟩
  | none => exact h.removed hget rfl rfl (slots_heap hheap).2

theorem popImmediate (now : Nat) {rest : List Slot} (himmediates : q.immediates = x :: rest)
    (hget : q.get x.id = some entry) : Backed (q.popImmediate now).2 := by
  unfold TimerQueue.popImmediate
  rw [himmediates]
  dsimp only
  rw [hget]
  exact h.removed hget rfl rfl (slots_immediates himmediates).2

theorem pops {now : Nat} {result : Option (Popped C) × TimerQueue C} (hpops : Pops q now result) : Backed result.2 := by
  cases hpops with
  | nothing hs | pending hs => exact h.sweeps hs
  | timer hs hheap hget => exact (h.sweeps hs).popTimer now hheap hget
  | immediate hs himmediates hget => exact (h.sweeps hs).popImmediate now himmediates hget

theorem popEarliest (now : Nat) : Backed (q.popEarliest now).2 := by
  have hswept := h.sweeps (Sweeps.sweepBoth q)
  have htimer : ∀ {x : Slot}, (q.front q.heap).head? = some x → Backed (q.sweepTimers.sweepImmediates.popTimer now).2 := by
    intro x hx
    obtain ⟨rest, hheap⟩ := head?_eq_some_iff.mp hx
    obtain ⟨entry, hget⟩ := get_of_live (live_of_front hx)
    exact hswept.popTimer now hheap hget
  have himmediate : ∀ {x : Slot}, (q.front q.immediates).head? = some x →
      Backed (q.sweepTimers.sweepImmediates.popImmediate now).2 := by
    intro x hx
    obtain ⟨rest, himmediates⟩ := head?_eq_some_iff.mp hx
    obtain ⟨entry, hget⟩ := get_of_live (live_of_front hx)
    exact hswept.popImmediate now himmediates hget
  unfold TimerQueue.popEarliest
  dsimp only
  split
  · next ht hi =>
    split
    · exact himmediate (Option.filter_eq_some_iff.mp hi).1
    · exact htimer (Option.filter_eq_some_iff.mp ht).1
  · next ht _ => exact htimer (Option.filter_eq_some_iff.mp ht).1
  · next _ hi => exact himmediate (Option.filter_eq_some_iff.mp hi).1
  · exact hswept

theorem popDue (now : Nat) : Backed (q.popDue now).2 := by
  by_cases hp : q.pending = []
  · rw [popDue_of_nil hp]
    exact (h.sweeps (Sweeps.stop q q.pending none)).popEarliest now
  · exact h.pops (popGated_pops hp).1

/-! ## The next deadline -/

omit h in
theorem hasRefTimers_nextDeadline (q : TimerQueue C) : q.nextDeadline.2.hasRefTimers = q.hasRefTimers := by
  unfold TimerQueue.nextDeadline
  by_cases hp : (!q.pending.isEmpty)
  · rw [if_pos hp]
  · rw [if_neg hp]
    dsimp only
    split <;> rfl

/-- **A queue that keeps the loop alive has a next deadline.** -/
theorem nextDeadline_ne_none (href : q.hasRefTimers) : q.nextDeadline.1 ≠ none := by
  by_cases hp : q.pending = []
  · have hcount : 0 < q.refCount := by
      simpa [TimerQueue.hasRefTimers, hp] using href
    rw [h.refs, Assoc.count, countP_pos_iff] at hcount
    obtain ⟨kv, hkv, -⟩ := hcount
    have hlive : q.containsKey kv.1 := List.any_eq_true.mpr ⟨kv, hkv, by simp⟩
    obtain ⟨x, hx, hid⟩ := h.queued kv.1 hlive
    rw [← hid] at hlive
    have hfront : ∃ z, (q.front q.heap).head? = some z ∨ (q.front q.immediates).head? = some z := by
      rcases mem_append.mp hx with hx | hx
      · exact (front_of_live hx hlive).imp fun z hz => .inl hz.1
      · exact (front_of_live hx hlive).imp fun z hz => .inr hz.1
    obtain ⟨z, hz⟩ := hfront
    obtain ⟨d, hd, -⟩ := (nextDeadline_fronts hp).2 z hz
    rw [hd]
    exact Option.some_ne_none d
  · unfold TimerQueue.nextDeadline
    rw [if_pos (by simpa using hp)]
    exact Option.some_ne_none _

end Backed

end Oam.Engine.Timers
