/-
  What a pop of the timer queue answers.  `Pops` says once all that `popDue` can do: nothing, run a pending callback, or
  pop the front of the heap or of the FIFO once dead entries are swept.
-/
import Oam.Engine.TimerBooks

namespace Oam.Engine.Timers

open Option List TimerQueue

variable {C : Type}

/-! ## Popping -/

/-- Due no later, and of those due together queued no later. -/
def Slot.Before (x y : Slot) : Prop := x.deadline < y.deadline ∨ x.deadline = y.deadline ∧ x.seq ≤ y.seq

variable {x y : Slot}

theorem Slot.Before.refl : x.Before x := .inr ⟨rfl, Nat.le_refl _⟩

theorem Slot.Before.of_le (h : x.le y) : x.Before y := by
  unfold Slot.le at h
  unfold Slot.Before
  omega

theorem Slot.Before.of_sooner (h : sooner x y) : x.Before y := by
  simp only [sooner, Bool.or_eq_true, Bool.and_eq_true, decide_eq_true_eq] at h
  unfold Slot.Before
  omega

theorem Slot.Before.of_not_sooner (h : ¬sooner y x) : x.Before y := by
  simp only [sooner, Bool.or_eq_true, Bool.and_eq_true, decide_eq_true_eq] at h
  unfold Slot.Before
  omega

theorem Slot.Before.deadline_le (h : x.Before y) : x.deadline ≤ y.deadline := by
  unfold Slot.Before at h
  omega

theorem Slot.Before.trans {z : Slot} (h : x.Before y) (h' : y.Before z) : x.Before z := by
  unfold Slot.Before at *
  omega

def First (q : TimerQueue C) (x : Slot) : Prop := ∀ y ∈ q.slots, q.containsKey y.id = true → x.Before y

def InOrder (q : TimerQueue C) : Prop := q.heap.Pairwise Slot.le ∧ q.immediates.Pairwise Slot.le

/-- **All that `popDue` can do**, from a queue whose dead entries are swept. -/
inductive Pops (q : TimerQueue C) (now : Nat) : Option (Popped C) × TimerQueue C → Prop
  | nothing {q' : TimerQueue C} : Sweeps q q' → Pops q now (none, q')
  | pending {q' : TimerQueue C} {callback : C} :
    Sweeps q q' → q.pending ≠ [] → Pops q now (some (.pending callback), q')
  | timer {q' : TimerQueue C} {x : Slot} {rest : List Slot} {entry : TimerEntry C} :
    Sweeps q q' → q'.heap = x :: rest → q'.get x.id = some entry → x.deadline ≤ now →
      (q.pending = [] → First q x) → Pops q now (q'.popTimer now)
  | immediate {q' : TimerQueue C} {x : Slot} {rest : List Slot} {entry : TimerEntry C} :
    Sweeps q q' → q'.immediates = x :: rest → q'.get x.id = some entry →
      (q.pending = [] → First q x) → Pops q now (q'.popImmediate now)

section
variable {q q' : TimerQueue C} {now : Nat} {x : Slot}

theorem get_of_live (h : q.containsKey x.id) : ∃ entry, q.get x.id = some entry := by
  rw [containsKey_eq, isSome_iff_exists] at h
  exact h

theorem popTimer_fst {rest : List Slot} {entry : TimerEntry C} (hheap : q.heap = x :: rest) (hget : q.get x.id = some entry) :
    (q.popTimer now).1 = some (.slot x entry.callback) := by
  unfold popTimer
  rw [hheap]
  dsimp only
  rw [hget]
  dsimp only
  cases entry.interval <;> rfl

theorem popImmediate_fst {rest : List Slot} {entry : TimerEntry C} (himmediates : q.immediates = x :: rest)
    (hget : q.get x.id = some entry) :
    (q.popImmediate now).1 = some (.slot x entry.callback) := by
  unfold popImmediate
  rw [himmediates]
  dsimp only
  rw [hget]

theorem pops_timer (hs : Sweeps q q') (hx : q'.heap.head? = some x) (hlive : q'.containsKey x.id)
    (hdue : x.deadline ≤ now) (hfirst : q.pending = [] → First q x) :
    Pops q now (q'.popTimer now) ∧ (q'.popTimer now).1.isSome := by
  obtain ⟨_, hheap⟩ := head?_eq_some_iff.mp hx
  obtain ⟨_, hget⟩ := get_of_live hlive
  exact ⟨.timer hs hheap hget hdue hfirst, by rw [popTimer_fst hheap hget]; rfl⟩

theorem pops_immediate (hs : Sweeps q q') (hx : q'.immediates.head? = some x) (hlive : q'.containsKey x.id)
    (hfirst : q.pending = [] → First q x) :
    Pops q now (q'.popImmediate now) ∧ (q'.popImmediate now).1.isSome := by
  obtain ⟨_, himmediates⟩ := head?_eq_some_iff.mp hx
  obtain ⟨_, hget⟩ := get_of_live hlive
  exact ⟨.immediate hs himmediates hget hfirst, by rw [popImmediate_fst himmediates hget]; rfl⟩

theorem popPending_pops (hs : Sweeps q q') (hpending : q'.pending ≠ []) (hq : q.pending ≠ []) :
    Pops q now q'.popPending ∧ q'.popPending.1.isSome := by
  have hpop := Sweeps.popPending q'
  unfold popPending at hpop ⊢
  cases hp : q'.pending with
  | nil => exact absurd hp hpending
  | cons =>
    rw [hp] at hpop
    exact ⟨.pending (hs.trans hpop) hq, rfl⟩

theorem setGate_pending {gate : PendingGate} (h : q.pending ≠ []) : (q.setGate gate).pending ≠ [] := by
  unfold setGate
  cases hp : q.pending with
  | nil => exact absurd hp h
  | cons =>
    intro hnil
    cases hnil

theorem popAfterTimers_pops {limit : Nat} (hs : Sweeps q q') (hpending : q'.pending ≠ []) (hq : q.pending ≠ []) :
    Pops q now (q'.popAfterTimers limit now) ∧ (q'.popAfterTimers limit now).1.isSome := by
  have hswept := hs.trans (Sweeps.sweepTimers q')
  unfold popAfterTimers
  dsimp only
  split
  · next hdue =>
    obtain ⟨x, hx, hle⟩ := (any_eq_true _ _).mp hdue
    exact pops_timer hswept hx (live_of_front hx) (by simp at hle; omega) (fun h => absurd h hq)
  · exact popPending_pops (hswept.trans (Sweeps.setGate _ _)) (setGate_pending hpending) hq

theorem front_of_live {slots : List Slot} {y : Slot} (hy : y ∈ slots) (hlive : q.containsKey y.id) :
    ∃ z, (q.front slots).head? = some z ∧ (slots.Pairwise Slot.le → z.Before y) := by
  unfold front
  induction slots with
  | nil => cases hy
  | cons z rest ih =>
    by_cases hz : q.containsKey z.id
    · rw [dropWhile_cons_of_neg (by simp [hz])]
      refine ⟨z, rfl, fun hsorted => ?_⟩
      rcases mem_cons.mp hy with rfl | hy
      · exact .inr ⟨rfl, Nat.le_refl _⟩
      · exact .of_le ((pairwise_cons.mp hsorted).1 y hy)
    · rw [dropWhile_cons_of_pos (by simpa using hz)]
      rcases mem_cons.mp hy with rfl | hy
      · exact absurd hlive hz
      · obtain ⟨w, hw, hbefore⟩ := ih hy
        exact ⟨w, hw, fun hsorted => hbefore (pairwise_cons.mp hsorted).2⟩

theorem of_fronts {P : Slot → Prop} (hP : ∀ {y z : Slot}, z.Before y → P z → P y)
    (htimer : ∀ z, (q.front q.heap).head? = some z → P z)
    (himmediate : ∀ z, (q.front q.immediates).head? = some z → P z) (hord : InOrder q) :
    ∀ y ∈ q.slots, q.containsKey y.id → P y := by
  intro y hy hlive
  rcases mem_append.mp hy with hy | hy
  · obtain ⟨z, hz, hbefore⟩ := front_of_live hy hlive
    exact hP (hbefore hord.1) (htimer z hz)
  · obtain ⟨z, hz, hbefore⟩ := front_of_live hy hlive
    exact hP (hbefore hord.2) (himmediate z hz)

theorem popEarliest_pops (hord : InOrder q) :
    Pops q now (popEarliest { q with running := none } now) ∧
      ((popEarliest { q with running := none } now).1.isSome ∨
        ∀ z, (q.front q.heap).head? = some z ∨ (q.front q.immediates).head? = some z → now < z.deadline) := by
  have hs : Sweeps q (sweepImmediates (sweepTimers { q with running := none })) :=
    (Sweeps.stop q q.pending none).trans (Sweeps.sweepBoth _)
  have hfirst : ∀ {x : Slot}, (∀ z, (q.front q.heap).head? = some z → x.Before z) →
      (∀ z, (q.front q.immediates).head? = some z → x.Before z) → q.pending = [] → First q x :=
    fun ht hi _ => of_fronts (fun h hz => hz.trans h) ht hi hord
  have hat : ∀ {front : Option Slot} {x z : Slot}, front = some z → x.Before z → ∀ y, front = some y → x.Before y := by
    rintro _ x z rfl hbefore y ⟨⟩
    exact hbefore
  have hlate : ∀ {front : Option Slot}, (front.filter fun x => x.deadline ≤ now) = none →
      ∀ y, front = some y → now < y.deadline := by
    rintro _ hnone y rfl
    simpa using filter_eq_none_iff.mp hnone y rfl
  unfold popEarliest
  dsimp only
  split
  · next timer immediate ht hi =>
    obtain ⟨hx, hdue⟩ := filter_eq_some_iff.mp ht
    obtain ⟨hy, -⟩ := filter_eq_some_iff.mp hi
    split
    · next hsooner =>
      exact (pops_immediate hs hy (live_of_front hy)
        (hfirst (hat hx (.of_sooner hsooner)) (hat hy .refl))).imp_right .inl
    · next hsooner =>
      exact (pops_timer hs hx (live_of_front hx) (of_decide_eq_true hdue)
        (hfirst (hat hx .refl) (hat hy (.of_not_sooner hsooner)))).imp_right .inl
  · next timer ht hi =>
    obtain ⟨hx, hdue⟩ := filter_eq_some_iff.mp ht
    rw [decide_eq_true_eq] at hdue
    exact (pops_timer hs hx (live_of_front hx) hdue
      (hfirst (hat hx .refl) fun y hy => .inl (Nat.lt_of_le_of_lt hdue (hlate hi y hy)))).imp_right .inl
  · next immediate ht hi =>
    obtain ⟨hx, hdue⟩ := filter_eq_some_iff.mp hi
    rw [decide_eq_true_eq] at hdue
    exact (pops_immediate hs hx (live_of_front hx)
      (hfirst (fun y hy => .inl (Nat.lt_of_le_of_lt hdue (hlate ht y hy))) (hat hx .refl))).imp_right .inl
  · next ht hi => exact ⟨.nothing hs, .inr fun z hz => hz.elim (hlate ht z) (hlate hi z)⟩

theorem popGated_pops (hpending : q.pending ≠ []) : Pops q now (q.popDue now) ∧ (q.popDue now).1.isSome := by
  have hs := Sweeps.stop q q.pending none
  unfold popDue
  dsimp only
  split
  · next hp => exact absurd hp hpending
  · split
    · exact popPending_pops hs hpending hpending
    · exact popAfterTimers_pops hs hpending hpending
    · have hswept := hs.trans (Sweeps.sweepImmediates _)
      unfold popAfterImmediates
      dsimp only
      split
      · next hdue =>
        obtain ⟨x, hx, -⟩ := (any_eq_true _ _).mp hdue
        exact pops_immediate hswept hx (live_of_front hx) (fun h => absurd h hpending)
      · exact popAfterTimers_pops (hswept.trans (Sweeps.setGate _ _)) (setGate_pending hpending) hpending

theorem popDue_of_nil (hp : q.pending = []) : q.popDue now = popEarliest { q with running := none } now := by
  unfold popDue
  rw [hp]

theorem popDue_pops (hord : InOrder q) : Pops q now (q.popDue now) := by
  by_cases hp : q.pending = []
  · rw [popDue_of_nil hp]
    exact (popEarliest_pops hord).1
  · exact (popGated_pops hp).1

end

/-- What a pop of the entry has to be: the id's booking, due by now. -/
def Answers (q : TimerQueue C) (t : Table C) (now : Nat) (x : Slot) (callback : C) : Prop :=
  ∃ b, t.book x.id = some b ∧ b.callback = callback ∧ b.due = x.deadline ∧ b.order = x.seq ∧ b.due ≤ now ∧
    (q.pending = [] → First q x)

theorem slots_heap {q : TimerQueue C} {rest : List Slot} (h : q.heap = x :: rest) :
    x ∈ q.slots ∧ ∀ k, k ≠ x.id → (rest ++ q.immediates).filter (·.id = k) = q.slots.filter (·.id = k) := by
  unfold slots
  rw [h, cons_append]
  refine ⟨mem_cons_self, fun k hk => ?_⟩
  rw [filter_cons_of_neg (by simpa using Ne.symm hk)]

theorem slots_immediates {q : TimerQueue C} {rest : List Slot} (h : q.immediates = x :: rest) :
    x ∈ q.slots ∧ ∀ k, k ≠ x.id → (q.heap ++ rest).filter (·.id = k) = q.slots.filter (·.id = k) := by
  unfold slots
  rw [h]
  refine ⟨mem_append_right _ mem_cons_self, fun k hk => ?_⟩
  rw [filter_append, filter_append, filter_cons_of_neg (by simpa using Ne.symm hk)]

namespace Holds

variable {q q' : TimerQueue C} {t : Table C} {now : Nat} {rest : List Slot} {entry : TimerEntry C}

theorem note_oneShot (h : Holds q t now) (hx : x ∈ q.slots) (hget : q.get x.id = some entry)
    (hinterval : entry.interval = none) (callback : C) :
    t.note (.popped x.id callback now) = { t with book := t.put x.id none } := by
  rw [Table.note, (h.booked.of_mem hx hget).2, hinterval]

theorem popTimer (h : Holds q t now) (hseq : q.seq + 1 < 2 ^ 64) (hheap : q.heap = x :: rest)
    (hget : q.get x.id = some entry) : Holds (q.popTimer now).2 (t.note (.popped x.id entry.callback now)) now := by
  obtain ⟨hx, hslots⟩ := slots_heap hheap
  unfold TimerQueue.popTimer
  rw [hheap]
  dsimp only
  rw [hget]
  dsimp only
  cases hinterval : entry.interval with
  | some period =>
    apply h.requeues hheap hget hinterval
    · rfl
    · rfl
    · show rest.orderedInsert Slot.le ⟨now + period, q.nextSeq, x.id⟩ = _
      rw [nextSeq_eq hseq]
    · rfl
    · exact nextSeq_eq hseq
    · rfl
  | none =>
    rw [h.note_oneShot hx hget hinterval]
    exact h.drops hget rfl rfl (hheap ▸ sublist_cons_self x rest) (.refl _) hslots rfl rfl

theorem popImmediate (h : Holds q t now) (himmediates : q.immediates = x :: rest) (hget : q.get x.id = some entry) :
    Holds (q.popImmediate now).2 (t.note (.popped x.id entry.callback now)) now := by
  obtain ⟨hx, hslots⟩ := slots_immediates himmediates
  unfold TimerQueue.popImmediate
  rw [himmediates]
  dsimp only
  rw [hget, h.note_oneShot hx hget (h.oneShot x (himmediates ▸ mem_cons_self) entry hget)]
  exact h.drops hget rfl rfl (.refl _) (himmediates ▸ sublist_cons_self x rest) hslots rfl rfl

theorem inOrder (h : Holds q t now) : InOrder q := ⟨h.heap, h.immediates⟩

theorem popped (h : Holds q t now) {callback : C} (hpop : (q.popDue now).1 = some (.slot x callback)) :
    ∃ entry, x ∈ q.slots ∧ q.get x.id = some entry ∧ entry.callback = callback ∧ x.deadline ≤ now ∧
      (q.pending = [] → First q x) := by
  have hpops : Pops q now (q.popDue now) := popDue_pops h.inOrder
  generalize q.popDue now = result at hpops hpop
  have hget' : ∀ {q' : TimerQueue C} {k : Nat}, Sweeps q q' → q'.get k = q.get k := by
    intro q' k hs
    unfold TimerQueue.get
    rw [hs.active]
  cases hpops with
  | nothing | pending => cases hpop
  | timer hs hheap hget hdue hfirst =>
    rw [popTimer_fst hheap hget] at hpop
    cases hpop
    exact ⟨_, hs.slots.subset (slots_heap hheap).1, (hget' hs).symm.trans hget, rfl, hdue, hfirst⟩
  | immediate hs himmediates hget hfirst =>
    rw [popImmediate_fst himmediates hget] at hpop
    cases hpop
    exact ⟨_, hs.slots.subset (slots_immediates himmediates).1, (hget' hs).symm.trans hget, rfl,
      (h.sweeps hs).queued _ (himmediates ▸ mem_cons_self), hfirst⟩

/-- **A pop answers a booking that is due.** -/
theorem answers (h : Holds q t now) {callback : C} (hpop : (q.popDue now).1 = some (.slot x callback)) :
    Answers q t now x callback := by
  obtain ⟨_, hx, hget, hcallback, hdue, hfirst⟩ := h.popped hpop
  exact ⟨_, (h.booked.of_mem hx hget).2, hcallback, rfl, rfl, hdue, hfirst⟩

/-- **What is left holds what is left of the table.** -/
theorem popDue (h : Holds q t now) (hseq : q.seq + 1 < 2 ^ 64) :
    Holds (q.popDue now).2 ((poppedEvents now (q.popDue now).1).foldl Table.note t) now := by
  have hpops : Pops q now (q.popDue now) := popDue_pops h.inOrder
  generalize q.popDue now = result at hpops
  cases hpops with
  | nothing hs | pending hs => exact h.sweeps hs
  | timer hs hheap hget =>
    rw [popTimer_fst hheap hget]
    exact (h.sweeps hs).popTimer (hs.seq ▸ hseq) hheap hget
  | immediate hs himmediates hget =>
    rw [popImmediate_fst himmediates hget]
    exact (h.sweeps hs).popImmediate himmediates hget

end Holds

/-! ## Whether something is due -/

section
variable {q : TimerQueue C}

theorem nextDeadline_fronts (hp : q.pending = []) :
    (∀ d, q.nextDeadline.1 = some d →
      ∃ z, ((q.front q.heap).head? = some z ∨ (q.front q.immediates).head? = some z) ∧ z.deadline = d) ∧
    ∀ z, (q.front q.heap).head? = some z ∨ (q.front q.immediates).head? = some z →
      ∃ d, q.nextDeadline.1 = some d ∧ d ≤ z.deadline := by
  have hheap : q.sweepTimers.sweepImmediates.heap = q.front q.heap := rfl
  have himmediates : q.sweepTimers.sweepImmediates.immediates = q.front q.immediates := rfl
  unfold nextDeadline
  rw [hp, if_neg (by simp)]
  dsimp only
  rw [hheap, himmediates]
  cases (q.front q.heap).head? with
  | none => cases (q.front q.immediates).head? <;> simp
  | some timer =>
    cases (q.front q.immediates).head? with
    | none => simp
    | some immediate =>
      by_cases hsooner : sooner immediate timer
      · simpa [hsooner, or_imp, forall_and] using (Slot.Before.of_sooner hsooner).deadline_le
      · simpa [hsooner, or_imp, forall_and] using (Slot.Before.of_not_sooner hsooner).deadline_le

/-- **A callback is popped iff the next deadline is not after now.** -/
theorem Holds.popDue_isSome {t : Table C} {now : Nat} (h : Holds q t now) :
    (q.popDue now).1.isSome ↔ ∃ d, q.nextDeadline.1 = some d ∧ d ≤ now := by
  by_cases hp : q.pending = []
  · obtain ⟨hfront, hnext⟩ := nextDeadline_fronts hp
    constructor
    · intro hsome
      obtain ⟨popped, hpop⟩ := isSome_iff_exists.mp hsome
      have hpops : Pops q now (q.popDue now) := popDue_pops h.inOrder
      cases popped with
      | pending =>
        generalize q.popDue now = result at hpops hpop
        cases hpops with
        | nothing => cases hpop
        | pending hs hpending => exact absurd hp hpending
        | timer hs hheap hget => cases (popTimer_fst hheap hget).symm.trans hpop
        | immediate hs himmediates hget => cases (popImmediate_fst himmediates hget).symm.trans hpop
      | slot x =>
        obtain ⟨_, hx, hget, -, hdue, -⟩ := h.popped hpop
        obtain ⟨d, hd, hle⟩ := of_fronts (P := fun y => ∃ d, q.nextDeadline.1 = some d ∧ d ≤ y.deadline)
          (fun hbefore ⟨d, hd, hle⟩ => ⟨d, hd, Nat.le_trans hle hbefore.deadline_le⟩) (fun z hz => hnext z (.inl hz))
          (fun z hz => hnext z (.inr hz)) h.inOrder x hx (by rw [containsKey_eq, hget]; rfl)
        exact ⟨d, hd, Nat.le_trans hle hdue⟩
    · rintro ⟨d, hd, hdue⟩
      obtain ⟨z, hz, rfl⟩ := hfront d hd
      rw [popDue_of_nil hp]
      exact (popEarliest_pops h.inOrder).2.resolve_right fun hlate => Nat.not_le_of_lt (hlate z hz) hdue
  · have hnext : q.nextDeadline.1 = some q.epoch := by
      unfold nextDeadline
      rw [if_pos (by simpa using hp)]
    exact iff_of_true (popGated_pops hp).2 ⟨q.epoch, hnext, h.epoch⟩

end

end Oam.Engine.Timers
