/-
  What each operation of the timer queue does to the table of bookings.  `Holds q t clock` ties the queue to the table:
  each live id has ONE entry in the heap and the FIFO together, and that entry is its booking.  Every operation sweeps
  dead entries, books an id, drops one, or queues an interval's entry again.
-/
import Oam.Engine.Timers

namespace Oam.Engine.Timers

open Assoc List TimerQueue

variable {C : Type}

/-! ## Sweeping -/

def TimerQueue.slots (q : TimerQueue C) : List Slot := q.heap ++ q.immediates

variable (q : TimerQueue C)

theorem containsKey_eq (id : Nat) : q.containsKey id = (q.get id).isSome :=
  contains_eq q.active id

theorem retain_front (slots : List Slot) : q.retain (q.front slots) = q.retain slots := by
  unfold retain front
  induction slots with
  | nil => rfl
  | cons x slots ih =>
    by_cases hx : q.containsKey x.id
    · rw [dropWhile_cons_of_neg (by simp [hx])]
    · rw [dropWhile_cons_of_pos (by simpa using hx), filter_cons_of_neg (by simpa using hx), ih]

theorem retain_retain (slots : List Slot) : q.retain (q.retain slots) = q.retain slots := by
  unfold retain
  rw [filter_filter]
  simp only [Bool.and_self]

theorem live_of_front {q : TimerQueue C} {slots : List Slot} {x : Slot} (h : (q.front slots).head? = some x) :
    q.containsKey x.id := by
  have hhead := head?_dropWhile_not (fun x : Slot => !q.containsKey x.id) slots
  unfold front at h
  rw [h] at hhead
  simpa using hhead

/-- From one queue to the other nothing but dead entries is gone; pending callbacks may change. -/
structure Sweeps (q q' : TimerQueue C) : Prop where
  active : q'.active = q.active
  refCount : q'.refCount = q.refCount
  seq : q'.seq = q.seq
  epoch : q'.epoch = q.epoch
  heap : q'.heap.Sublist q.heap
  immediates : q'.immediates.Sublist q.immediates
  liveHeap : q.retain q'.heap = q.retain q.heap
  liveImmediates : q.retain q'.immediates = q.retain q.immediates

namespace Sweeps

theorem refl : Sweeps q q := ⟨rfl, rfl, rfl, rfl, .refl _, .refl _, rfl, rfl⟩

theorem retain_eq {q q' : TimerQueue C} (h : Sweeps q q') (slots : List Slot) : q'.retain slots = q.retain slots := by
  unfold retain containsKey
  rw [h.active]

theorem trans {q q' q'' : TimerQueue C} (h : Sweeps q q') (h' : Sweeps q' q'') : Sweeps q q'' where
  active := h'.active.trans h.active
  refCount := h'.refCount.trans h.refCount
  seq := h'.seq.trans h.seq
  epoch := h'.epoch.trans h.epoch
  heap := h'.heap.trans h.heap
  immediates := h'.immediates.trans h.immediates
  liveHeap := by
    rw [← h.retain_eq, h'.liveHeap, h.retain_eq, h.liveHeap]
  liveImmediates := by
    rw [← h.retain_eq, h'.liveImmediates, h.retain_eq, h.liveImmediates]

theorem mem_slots {q q' : TimerQueue C} (h : Sweeps q q') {x : Slot} (hx : x ∈ q.slots) (hlive : q.containsKey x.id) :
    x ∈ q'.slots := by
  have hmem : ∀ {l l' : List Slot}, q.retain l' = q.retain l → x ∈ l → x ∈ l' := by
    intro l l' heq hl
    have : x ∈ q.retain l := mem_filter.mpr ⟨hl, hlive⟩
    rw [← heq] at this
    exact (mem_filter.mp this).1
  rcases mem_append.mp hx with hx | hx
  · exact mem_append_left _ (hmem h.liveHeap hx)
  · exact mem_append_right _ (hmem h.liveImmediates hx)

theorem slots {q q' : TimerQueue C} (h : Sweeps q q') : q'.slots.Sublist q.slots := h.heap.append h.immediates

theorem filter_slots {q q' : TimerQueue C} (h : Sweeps q q') {id : Nat} (hlive : q.containsKey id) :
    q'.slots.filter (·.id = id) = q.slots.filter (·.id = id) := by
  -- the entries of a live id are among the live ones
  have hfilter : ∀ l : List Slot, (q.retain l).filter (·.id = id) = l.filter (·.id = id) := by
    intro l
    unfold retain
    rw [filter_filter]
    refine filter_congr ?_
    intro x _
    by_cases hx : x.id = id
    · simp [hx, hlive]
    · simp [hx]
  unfold TimerQueue.slots
  rw [filter_append, filter_append, ← hfilter q'.heap, ← hfilter q'.immediates, h.liveHeap,
    h.liveImmediates, hfilter, hfilter]

theorem stop (pending : List (PendingEntry C)) (running : Option Running) : Sweeps q { q with pending, running } :=
  ⟨rfl, rfl, rfl, rfl, .refl _, .refl _, rfl, rfl⟩

theorem sweepTimers : Sweeps q q.sweepTimers where
  active := rfl
  refCount := rfl
  seq := rfl
  epoch := rfl
  heap := dropWhile_sublist _
  immediates := .refl _
  liveHeap := retain_front q q.heap
  liveImmediates := rfl

theorem sweepImmediates : Sweeps q q.sweepImmediates where
  active := rfl
  refCount := rfl
  seq := rfl
  epoch := rfl
  heap := .refl _
  immediates := dropWhile_sublist _
  liveHeap := rfl
  liveImmediates := retain_front q q.immediates

theorem sweepBoth : Sweeps q q.sweepTimers.sweepImmediates :=
  (sweepTimers q).trans (sweepImmediates _)

theorem cancel {q : TimerQueue C} {id : Nat} {entry : TimerEntry C} (hget : q.get id = some entry) :
    Sweeps { q with active := remove q.active id, refCount := if entry.isRef then q.refCount - 1 else q.refCount }
      (q.cancel id) := by
  unfold TimerQueue.cancel
  rw [hget]
  dsimp only
  generalize (if entry.isRef then q.refCount - 1 else q.refCount) = refCount
  split
  · exact ⟨rfl, rfl, rfl, rfl, filter_sublist, filter_sublist, retain_retain .., retain_retain ..⟩
  · exact refl _

theorem setGate (gate : PendingGate) : Sweeps q (q.setGate gate) := by
  unfold TimerQueue.setGate
  cases q.pending with
  | nil => exact refl q
  | cons => exact ⟨rfl, rfl, rfl, rfl, .refl _, .refl _, rfl, rfl⟩

theorem popPending : Sweeps q q.popPending.2 := by
  unfold TimerQueue.popPending
  cases q.pending with
  | nil => exact refl q
  | cons => exact ⟨rfl, rfl, rfl, rfl, .refl _, .refl _, rfl, rfl⟩

theorem timerPending (callback : C) : Sweeps q (q.timerPending callback) :=
  ⟨rfl, rfl, rfl, rfl, .refl _, .refl _, rfl, rfl⟩

theorem nextDeadline : Sweeps q q.nextDeadline.2 := by
  unfold TimerQueue.nextDeadline
  by_cases hpending : (!q.pending.isEmpty)
  · rw [if_pos hpending]
    exact refl q
  rw [if_neg hpending]
  dsimp only
  generalize q.sweepTimers.sweepImmediates.heap.head? = timer
  generalize q.sweepTimers.sweepImmediates.immediates.head? = immediate
  cases timer <;> cases immediate <;> exact sweepBoth q

theorem peekDue (now : Nat) : Sweeps q (q.peekDue now).2 := by
  unfold TimerQueue.peekDue
  by_cases hpending : (!q.pending.isEmpty)
  · rw [if_pos hpending]
    exact refl q
  rw [if_neg hpending]
  dsimp only
  generalize q.sweepTimers.sweepImmediates.heap.head?.filter _ = timer
  generalize q.sweepTimers.sweepImmediates.immediates.head?.filter _ = immediate
  cases timer <;> cases immediate <;> exact sweepBoth q

end Sweeps

/-! ## The count of references -/

/-- The count is that of the ref'd live timers, and every live timer has an entry in one of the two queues. -/
structure Backed (q : TimerQueue C) : Prop where
  keyed : Keyed q.active
  refs : q.refCount = count (·.isRef) q.active
  queued : ∀ id, q.containsKey id = true → ∃ x ∈ q.slots, x.id = id

namespace Backed

variable {q q' : TimerQueue C} {id : Nat} {entry : TimerEntry C}

theorem requeued (h : Backed q) (hactive : q'.active = q.active) (hrefs : q'.refCount = q.refCount)
    (hslots : ∀ x ∈ q.slots, q.containsKey x.id → ∃ y ∈ q'.slots, y.id = x.id) : Backed q' where
  keyed := by
    rw [hactive]
    exact h.keyed
  refs := by
    rw [hrefs, hactive]
    exact h.refs
  queued := by
    intro id hid
    rw [TimerQueue.containsKey, hactive, ← TimerQueue.containsKey] at hid
    obtain ⟨x, hx, rfl⟩ := h.queued id hid
    exact hslots x hx hid

theorem sweeps (h : Backed q) (hs : Sweeps q q') : Backed q' :=
  h.requeued hs.active hs.refCount fun x hx hlive => ⟨x, hs.mem_slots hx hlive, rfl⟩

theorem removed (h : Backed q) (hget : q.get id = some entry) (hactive : q'.active = remove q.active id)
    (hrefs : q'.refCount = if entry.isRef then q.refCount - 1 else q.refCount)
    (hslots : ∀ k, k ≠ id → q'.slots.filter (·.id = k) = q.slots.filter (·.id = k)) : Backed q' where
  keyed := by
    rw [hactive]
    exact h.keyed.remove id
  refs := by
    have hcount := count_remove (fun entry : TimerEntry C => entry.isRef) h.keyed hget
    rw [hrefs, hactive, h.refs, ← hcount]
    cases entry.isRef with
    | false => rfl
    | true => exact Nat.add_sub_cancel ..
  queued := by
    intro k hk
    rw [containsKey_eq, TimerQueue.get, hactive, get_remove] at hk
    by_cases hid : k = id
    · rw [if_pos hid] at hk
      cases hk
    rw [if_neg hid, ← TimerQueue.get, ← containsKey_eq] at hk
    obtain ⟨x, hx, rfl⟩ := h.queued k hk
    have hmem : x ∈ q.slots.filter (·.id = x.id) := mem_filter.mpr ⟨hx, by simp⟩
    rw [← hslots _ hid] at hmem
    exact ⟨x, (mem_filter.mp hmem).1, rfl⟩

theorem inserted (h : Backed q) {x : Slot} (hget : q.get x.id = none) (hactive : q'.active = (x.id, entry) :: q.active)
    (hrefs : q'.refCount = if entry.isRef then q.refCount + 1 else q.refCount) (hslots : q'.slots.Perm (x :: q.slots)) :
    Backed q' where
  keyed := by
    rw [hactive]
    exact h.keyed.cons entry hget
  refs := by
    rw [hrefs, hactive, h.refs, count_cons]
    cases entry.isRef <;> rfl
  queued := by
    intro k hk
    rw [containsKey_eq, TimerQueue.get, hactive, get_cons] at hk
    by_cases hid : x.id = k
    · exact ⟨x, hslots.mem_iff.mpr mem_cons_self, hid⟩
    · rw [if_neg hid, ← TimerQueue.get, ← containsKey_eq] at hk
      obtain ⟨y, hy, rfl⟩ := h.queued k hk
      exact ⟨y, hslots.mem_iff.mpr (mem_cons_of_mem _ hy), rfl⟩

theorem setRef (h : Backed q) (id : Nat) (value : Bool) : Backed (q.setRef id value) := by
  unfold TimerQueue.setRef
  cases hget : q.get id with
  | none => exact h
  | some entry =>
    dsimp only
    split
    · exact h
    next hne =>
    have hcount := count_adjust (fun entry : TimerEntry C => entry.isRef)
      (fun entry => { entry with isRef := value }) h.keyed hget
    constructor
    · exact h.keyed.adjust id fun entry => { entry with isRef := value }
    · show (if value then q.refCount + 1 else q.refCount - 1) = _
      rw [h.refs]
      cases value with
      | true =>
        have hfalse : entry.isRef = false := by simpa using hne
        rw [hfalse] at hcount
        exact hcount.symm
      | false =>
        have htrue : entry.isRef := by simpa using hne
        rw [htrue] at hcount
        exact (Nat.eq_sub_of_add_eq hcount).symm
    · intro k hk
      refine h.queued k ?_
      rw [containsKey_eq, TimerQueue.get, get_adjust, ← TimerQueue.get] at hk
      rw [containsKey_eq]
      by_cases hid : k = id
      · rw [if_pos hid, Option.isSome_map] at hk
        exact hk
      · rw [if_neg hid] at hk
        exact hk

end Backed

/-! ## Bookings -/

/-- Each live id has one entry, and that is its booking. -/
structure Booked (slots : List Slot) (get : Nat → Option (TimerEntry C)) (book : Nat → Option (Booking C)) : Prop where
  free : ∀ id, get id = none → book id = none
  lone : ∀ id entry, get id = some entry → ∃ x, slots.filter (·.id = id) = [x] ∧
    book id = some ⟨x.deadline, x.seq, entry.callback, entry.interval⟩

namespace Booked

variable {slots slots' : List Slot} {get get' : Nat → Option (TimerEntry C)} {book book' : Nat → Option (Booking C)}

theorem of_mem (h : Booked slots get book) {x : Slot} {entry : TimerEntry C} (hx : x ∈ slots)
    (hget : get x.id = some entry) :
    slots.filter (·.id = x.id) = [x] ∧ book x.id = some ⟨x.deadline, x.seq, entry.callback, entry.interval⟩ := by
  obtain ⟨y, hy, hbook⟩ := h.lone x.id entry hget
  have hmem : x ∈ slots.filter (·.id = x.id) := mem_filter.mpr ⟨hx, by simp⟩
  rw [hy, mem_singleton] at hmem
  subst hmem
  exact ⟨hy, hbook⟩

theorem put (h : Booked slots get book) {x : Slot} {entry : TimerEntry C} (hfree : ∀ y ∈ slots, y.id ≠ x.id)
    (hslots : slots'.Perm (x :: slots)) (hget : ∀ k, get' k = if k = x.id then some entry else get k)
    (hbook : ∀ k, book' k = if k = x.id then some ⟨x.deadline, x.seq, entry.callback, entry.interval⟩ else book k) :
    Booked slots' get' book' := by
  constructor
  · intro id hid
    by_cases hx : id = x.id
    · rw [hget, if_pos hx] at hid
      cases hid
    · rw [hget, if_neg hx] at hid
      rw [hbook, if_neg hx]
      exact h.free id hid
  · intro id e hid
    have hperm := hslots.filter (·.id = id)
    by_cases hx : id = x.id
    · rw [hget, if_pos hx, Option.some.injEq] at hid
      subst hid
      have hrest : slots.filter (·.id = id) = [] := by
        rw [filter_eq_nil_iff]
        intro y hy
        simpa [hx] using hfree y hy
      rw [filter_cons_of_pos (by simp [hx]), hrest, perm_singleton] at hperm
      exact ⟨x, hperm, by rw [hbook, if_pos hx]⟩
    · rw [hget, if_neg hx] at hid
      obtain ⟨y, hy, hb⟩ := h.lone id e hid
      rw [filter_cons_of_neg (by simpa using Ne.symm hx), hy, perm_singleton] at hperm
      exact ⟨y, hperm, by rw [hbook, if_neg hx, hb]⟩

theorem drop (h : Booked slots get book) {id : Nat}
    (hslots : ∀ k, k ≠ id → slots'.filter (·.id = k) = slots.filter (·.id = k))
    (hget : ∀ k, get' k = if k = id then none else get k) (hbook : ∀ k, book' k = if k = id then none else book k) :
    Booked slots' get' book' := by
  constructor
  · intro k hk
    rw [hbook]
    by_cases hid : k = id
    · rw [if_pos hid]
    · rw [hget, if_neg hid] at hk
      rw [if_neg hid]
      exact h.free k hk
  · intro k entry hk
    by_cases hid : k = id
    · rw [hget, if_pos hid] at hk
      cases hk
    · rw [hget, if_neg hid] at hk
      rw [hslots k hid, hbook, if_neg hid]
      exact h.lone k entry hk

end Booked

/-- **The queue holds the table**, at the time of the last operation. -/
structure Holds (q : TimerQueue C) (t : Table C) (clock : Nat) : Prop where
  keyed : Keyed q.active
  refs : q.refCount = count (·.isRef) q.active
  booked : Booked q.slots q.get t.book
  heap : q.heap.Pairwise Slot.le
  immediates : q.immediates.Pairwise Slot.le
  -- a cleared immediate's id may be an interval's by now only if no entry of the immediate was left
  oneShot : ∀ x ∈ q.immediates, ∀ entry, q.get x.id = some entry → entry.interval = none
  queued : ∀ x ∈ q.immediates, x.deadline ≤ clock
  below : ∀ x ∈ q.slots, x.seq ≤ q.seq
  count : t.count = q.seq
  epoch : q.epoch ≤ clock

namespace Holds

variable {q q' : TimerQueue C} {t : Table C} {clock now id : Nat} {entry : TimerEntry C} {x : Slot}

theorem mono (h : Holds q t clock) (hle : clock ≤ now) : Holds q t now :=
  { h with queued := fun x hx => Nat.le_trans (h.queued x hx) hle, epoch := Nat.le_trans h.epoch hle }

theorem backed (h : Holds q t clock) : Backed q := by
  refine ⟨h.keyed, h.refs, fun id hid => ?_⟩
  rw [containsKey_eq, Option.isSome_iff_exists] at hid
  obtain ⟨entry, hget⟩ := hid
  obtain ⟨x, hx, -⟩ := h.booked.lone id entry hget
  have hmem := mem_filter.mp (hx ▸ mem_singleton_self x)
  exact ⟨x, hmem.1, of_decide_eq_true hmem.2⟩

theorem sweeps (h : Holds q t clock) (hs : Sweeps q q') : Holds q' t clock := by
  have hbacked := h.backed.sweeps hs
  have hget : q'.get = q.get := by
    unfold TimerQueue.get
    rw [hs.active]
  refine ⟨hbacked.keyed, hbacked.refs, ?_, h.heap.sublist hs.heap, h.immediates.sublist hs.immediates, ?_,
    fun x hx => h.queued x (hs.immediates.subset hx), ?_, ?_, ?_⟩
  · rw [hget]
    refine ⟨h.booked.free, ?_⟩
    intro id entry hid
    rw [hs.filter_slots (by rw [containsKey_eq, hid]; rfl)]
    exact h.booked.lone id entry hid
  · intro x hx
    rw [hget]
    exact h.oneShot x (hs.immediates.subset hx)
  · intro x hx
    rw [hs.seq]
    exact h.below x (hs.slots.subset hx)
  · rw [hs.seq]
    exact h.count
  · rw [hs.epoch]
    exact h.epoch

/-- **An id is dropped**, and its entry may be. -/
theorem drops (h : Holds q t clock) (hget : q.get id = some entry) (hactive : q'.active = remove q.active id)
    (hrefs : q'.refCount = if entry.isRef then q.refCount - 1 else q.refCount)
    (hheap : q'.heap.Sublist q.heap) (himmediates : q'.immediates.Sublist q.immediates)
    (hslots : ∀ k, k ≠ id → q'.slots.filter (·.id = k) = q.slots.filter (·.id = k))
    (hseq : q'.seq = q.seq) (hepoch : q'.epoch = q.epoch) :
    Holds q' { t with book := t.put id none } clock := by
  have hget' : ∀ k, q'.get k = if k = id then none else q.get k := by
    intro k
    unfold TimerQueue.get
    rw [hactive, get_remove]
  have hbacked := h.backed.removed hget hactive hrefs hslots
  refine ⟨hbacked.keyed, hbacked.refs, h.booked.drop hslots hget' fun k => rfl, h.heap.sublist hheap,
    h.immediates.sublist himmediates, ?_, fun x hx => h.queued x (himmediates.subset hx), ?_, ?_, ?_⟩
  · intro x hx e he
    rw [hget'] at he
    by_cases hid : x.id = id
    · rw [if_pos hid] at he
      cases he
    · rw [if_neg hid] at he
      exact h.oneShot x (himmediates.subset hx) e he
  · intro x hx
    rw [hseq]
    exact h.below x ((hheap.append himmediates).subset hx)
  · rw [hseq]
    exact h.count
  · rw [hepoch]
    exact h.epoch

/-- **A free id is booked**, and no entry of it was left. -/
theorem books (h : Holds q t clock) (hget : q.get x.id = none) (hfree : ∀ y ∈ q.slots, y.id ≠ x.id)
    (hx : x.seq = q.seq + 1) (hactive : q'.active = (x.id, entry) :: q.active)
    (hrefs : q'.refCount = if entry.isRef then q.refCount + 1 else q.refCount) (hslots : q'.slots.Perm (x :: q.slots))
    (hheap : q'.heap.Pairwise Slot.le) (himmediates : q'.immediates.Pairwise Slot.le)
    (hnew : ∀ y ∈ q'.immediates, y ∈ q.immediates ∨ y = x ∧ entry.interval = none ∧ x.deadline ≤ clock)
    (hseq : q'.seq = q.seq + 1) (hepoch : q'.epoch = q.epoch) : Holds q'
    (t.note (.scheduled x.id x.deadline entry)) clock := by
  have hget' : ∀ k, q'.get k = if k = x.id then some entry else q.get k := by
    intro k
    unfold TimerQueue.get
    rw [hactive, get_cons]
    by_cases hk : x.id = k
    · rw [if_pos hk, if_pos hk.symm]
    · rw [if_neg hk, if_neg (Ne.symm hk)]
  have hbacked := h.backed.inserted hget hactive hrefs hslots
  refine ⟨hbacked.keyed, hbacked.refs, ?_, hheap, himmediates, ?_, ?_, ?_, ?_, ?_⟩
  · refine h.booked.put hfree hslots hget' ?_
    intro k
    rw [hx, ← h.count]
    rfl
  · intro y hy e he
    rw [hget'] at he
    rcases hnew y hy with hy | ⟨rfl, hone, -⟩
    · rw [if_neg (hfree y (mem_append_right _ hy))] at he
      exact h.oneShot y hy e he
    · rw [if_pos rfl, Option.some.injEq] at he
      rw [← he]
      exact hone
  · intro y hy
    rcases hnew y hy with hy | ⟨rfl, -, hle⟩
    · exact h.queued y hy
    · exact hle
  · intro y hy
    rw [hseq]
    rcases mem_cons.mp (hslots.subset hy) with rfl | hy
    · omega
    · have := h.below y hy
      omega
  · show t.count + 1 = q'.seq
    rw [hseq, h.count]
  · rw [hepoch]
    exact h.epoch

/-- **The entry of an interval is queued again**, a period from now. -/
theorem requeues (h : Holds q t clock) {rest : List Slot} {period : Nat} (hheap : q.heap = x :: rest)
    (hget : q.get x.id = some entry) (hinterval : entry.interval = some period) (hactive : q'.active = q.active)
    (hrefs : q'.refCount = q.refCount) (hheap' : q'.heap = rest.orderedInsert Slot.le ⟨now + period, q.seq + 1, x.id⟩)
    (himmediates : q'.immediates = q.immediates) (hseq : q'.seq = q.seq + 1) (hepoch : q'.epoch = q.epoch) (c : C) :
    Holds q' (t.note (.popped x.id c now)) clock := by
  have hget' : q'.get = q.get := by
    unfold TimerQueue.get
    rw [hactive]
  have hslots : q.slots = x :: (rest ++ q.immediates) := by
    unfold TimerQueue.slots
    rw [hheap]
    rfl
  have hperm : q'.slots.Perm (⟨now + period, q.seq + 1, x.id⟩ :: (rest ++ q.immediates)) := by
    unfold TimerQueue.slots
    rw [hheap', himmediates]
    exact (perm_orderedInsert Slot.le _ rest).append_right _
  obtain ⟨hlone, hbook⟩ := h.booked.of_mem (by rw [hslots]; exact mem_cons_self) hget
  -- without its entry the id has none
  have hrest : (rest ++ q.immediates).filter (·.id = x.id) = [] := by
    rw [hslots, filter_cons_of_pos (by simp)] at hlone
    exact (List.cons.inj hlone).2
  have hnote : t.note (.popped x.id c now) =
      { count := t.count + 1, book := t.put x.id (some ⟨now + period, t.count + 1, entry.callback, some period⟩) } := by
    rw [Table.note, hbook, hinterval]
  rw [hnote]
  have hdropped : Booked (rest ++ q.immediates) (fun k => if k = x.id then none else q.get k)
      (fun k => if k = x.id then none else t.book k) := by
    refine h.booked.drop ?_ (fun k => rfl) (fun k => rfl)
    intro k hk
    rw [hslots, filter_cons_of_neg (by simpa using Ne.symm hk)]
  constructor
  · rw [hactive]
    exact h.keyed
  · rw [hrefs, hactive]
    exact h.refs
  · have hgets : ∀ k, q'.get k = if k = x.id then some entry else if k = x.id then none else q.get k := by
      intro k
      rw [hget']
      by_cases hk : k = x.id
      · rw [if_pos hk, hk, hget]
      · rw [if_neg hk, if_neg hk]
    refine hdropped.put ?_ hperm hgets ?_
    · intro y hy heq
      exact filter_eq_nil_iff.mp hrest y hy (by simpa using heq)
    · intro k
      show (if k = x.id then _ else t.book k) = _
      by_cases hk : k = x.id
      · rw [if_pos hk, if_pos hk, hinterval, h.count]
      · rw [if_neg hk, if_neg hk, if_neg hk]
  · rw [hheap']
    exact (pairwise_cons.mp (hheap ▸ h.heap)).2.orderedInsert _ _
  · rw [himmediates]
    exact h.immediates
  · rw [himmediates, hget']
    exact h.oneShot
  · rw [himmediates]
    exact h.queued
  · intro y hy
    rw [hseq]
    rcases mem_cons.mp (hperm.subset hy) with rfl | hy
    · exact Nat.le_refl _
    · have := h.below y (by rw [hslots]; exact mem_cons_of_mem _ hy)
      omega
  · show t.count + 1 = q'.seq
    rw [hseq, h.count]
  · rw [hepoch]
    exact h.epoch

end Holds

/-! ## Setting and clearing -/

theorem get_eq_none_of_freeId {q : TimerQueue C} {fuel start id : Nat} (h : q.freeId fuel start = some id) :
    q.get id = none := by
  induction fuel generalizing start with
  | zero => cases h
  | succ fuel ih =>
    rw [freeId] at h
    by_cases hused : q.containsKey start
    · rw [if_pos hused] at h
      exact ih h
    · rw [if_neg hused, Option.some.injEq] at h
      subst h
      rw [containsKey_eq] at hused
      simpa using hused

/-- The id that the next timer gets has no entry left in the queue, and the sequence numbers do not run out. -/
def unrecycled (q : TimerQueue C) : Bool :=
  q.seq + 1 < 2 ^ 64 && (q.freeId (2 ^ 32) q.nextId).all fun id => q.slots.all fun y => y.id ≠ id

theorem nextSeq_eq {q : TimerQueue C} (h : q.seq + 1 < 2 ^ 64) : q.nextSeq = q.seq + 1 := Nat.mod_eq_of_lt h

theorem slots_append (x : Slot) : (q.heap ++ (q.immediates ++ [x])).Perm (x :: q.slots) := by
  rw [← append_assoc]
  exact perm_append_singleton _ _

namespace Holds

variable {q q' : TimerQueue C} {t : Table C} {clock now id delay : Nat} {entry : TimerEntry C} {x : Slot}

theorem schedule (h : Holds q t now) (hok : unrecycled q) (hs : q.schedule entry delay now = some (x, q')) :
    Holds q' (t.note (.scheduled x.id x.deadline entry)) now := by
  unfold TimerQueue.schedule TimerQueue.insert at hs
  simp only [Option.map_map, Option.map_eq_some_iff, Function.comp, Prod.mk.injEq] at hs
  obtain ⟨id, hid, rfl, rfl⟩ := hs
  simp only [unrecycled, hid, Option.all_some, Bool.and_eq_true, decide_eq_true_eq, all_eq_true] at hok
  obtain ⟨hseq, hfree⟩ := hok
  refine h.books (get_eq_none_of_freeId hid) hfree (nextSeq_eq hseq) rfl rfl ?_ (h.heap.orderedInsert _ _)
    h.immediates (fun y hy => .inl hy) (nextSeq_eq hseq) rfl
  exact (perm_orderedInsert Slot.le _ q.heap).append_right _

theorem scheduleImmediate (h : Holds q t now) (hok : unrecycled q) (hentry : entry.interval = none)
    (hs : q.scheduleImmediate entry now = some (x, q')) : Holds q' (t.note (.scheduled x.id x.deadline entry)) now := by
  unfold TimerQueue.scheduleImmediate TimerQueue.insert at hs
  simp only [Option.map_map, Option.map_eq_some_iff, Function.comp, Prod.mk.injEq] at hs
  obtain ⟨id, hid, rfl, rfl⟩ := hs
  simp only [unrecycled, hid, Option.all_some, Bool.and_eq_true, decide_eq_true_eq, all_eq_true] at hok
  obtain ⟨hseq, hfree⟩ := hok
  refine h.books (get_eq_none_of_freeId hid) hfree (nextSeq_eq hseq) rfl rfl (slots_append q _) h.heap ?_ ?_
    (nextSeq_eq hseq) rfl
  · -- the FIFO is in the order of the clock, and of the sequence numbers
    refine pairwise_append.mpr ⟨h.immediates, pairwise_singleton _ _, ?_⟩
    intro y hy z hz
    rw [mem_singleton] at hz
    subst hz
    have hle := h.queued y hy
    have hbelow := h.below y (mem_append_right _ hy)
    rw [nextSeq_eq hseq]
    show y.deadline < now ∨ y.deadline = now ∧ (y.seq < q.seq + 1 ∨ y.seq = q.seq + 1 ∧ y.id ≤ id)
    omega
  · intro y hy
    rcases mem_append.mp hy with hy | hy
    · exact .inl hy
    · exact .inr ⟨mem_singleton.mp hy, hentry, Nat.le_refl _⟩

theorem forgets (h : Holds q t clock) (hget : q.get id = none) : Holds q { t with book := t.put id none } clock := by
  have hput : t.put id none = t.book := by
    funext k
    unfold Table.put
    by_cases hk : k = id
    · rw [if_pos hk, hk, h.booked.free id hget]
    · rw [if_neg hk]
  rw [hput]
  exact h

theorem cancel (h : Holds q t clock) (id : Nat) : Holds (q.cancel id) (t.note (.cleared id)) clock := by
  cases hget : q.get id with
  | none =>
    rw [TimerQueue.cancel, hget]
    exact h.forgets hget
  | some =>
    refine Holds.sweeps ?_ (Sweeps.cancel hget)
    exact h.drops hget rfl rfl (.refl _) (.refl _) (fun _ _ => rfl) rfl rfl

theorem setRef (h : Holds q t clock) (id : Nat) (value : Bool) : Holds (q.setRef id value) t clock := by
  have hbacked := h.backed.setRef id value
  unfold TimerQueue.setRef at hbacked ⊢
  cases hget : q.get id with
  | none => exact h
  | some entry =>
    rw [hget] at hbacked
    dsimp only at hbacked ⊢
    by_cases hmark : entry.isRef = value
    · rw [if_pos hmark]
      exact h
    rw [if_neg hmark] at hbacked ⊢
    have hget' : ∀ k, Assoc.get (Assoc.adjust q.active id fun e => { e with isRef := value }) k =
        if k = id then (q.get k).map fun e => { e with isRef := value } else q.get k :=
      get_adjust q.active id _
    -- the mark is all that changes: callback and period stay
    have hsame : ∀ {k : Nat} {e : TimerEntry C},
        get (adjust q.active id fun e => { e with isRef := value }) k = some e →
          ∃ e', q.get k = some e' ∧ e.callback = e'.callback ∧ e.interval = e'.interval := by
      intro k e he
      rw [hget'] at he
      by_cases hk : k = id
      · rw [if_pos hk, Option.map_eq_some_iff] at he
        obtain ⟨e', he', rfl⟩ := he
        exact ⟨e', he', rfl, rfl⟩
      · rw [if_neg hk] at he
        exact ⟨e, he, rfl, rfl⟩
    refine { h with keyed := hbacked.keyed, refs := hbacked.refs, booked := ⟨?_, ?_⟩, oneShot := ?_ }
    · intro k hk
      refine h.booked.free k ?_
      have hnone := (hget' k).symm.trans hk
      by_cases hid : k = id
      · rw [if_pos hid, Option.map_eq_none_iff] at hnone
        exact hnone
      · rw [if_neg hid] at hnone
        exact hnone
    · intro k e hk
      obtain ⟨e', he', hcallback, hinterval⟩ := hsame hk
      rw [hcallback, hinterval]
      exact h.booked.lone k e' he'
    · intro x hx e he
      obtain ⟨e', he', -, hinterval⟩ := hsame he
      rw [hinterval]
      exact h.oneShot x hx e' he'

end Holds

end Oam.Engine.Timers
