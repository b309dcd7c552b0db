/-
  Timers over whole runs, under a clock that does not go back.  After 2³² ids the search comes back to an id that was
  cleared long ago while its entry is STILL in the heap, and the new timer fires at the old one's deadline
  (`recycled_id_fires_early`).
-/
import Oam.Engine.TimerPops
import Mathlib.Data.List.Induction

namespace Oam.Engine.Timers

open Option Table List Trace TimerQueue

variable {C : Type}

/-! ## The table -/

@[simp] theorem tableOf_append (log events : List (Event C)) :
    tableOf (log ++ events) = events.foldl note (tableOf log) :=
  foldl_append

theorem Table.note_cases (t : Table C) (e : Event C) :
    t.note e = t ∨ (∃ id, t.note e = { t with book := t.put id none }) ∨ ∃ id due callback interval, t.note e =
        { count := t.count + 1, book := t.put id (some ⟨due, t.count + 1, callback, interval⟩) } := by
  cases e with
  | scheduled id deadline => exact .inr (.inr ⟨id, deadline, _, _, rfl⟩)
  | cleared id => exact .inr (.inl ⟨id, rfl⟩)
  | popped id callback now =>
    cases hbook : t.book id with
    | none => exact .inr (.inl ⟨id, by rw [note, hbook]⟩)
    | some b =>
      obtain ⟨_, _, callback, interval⟩ := b
      cases interval with
      | none => exact .inr (.inl ⟨id, by rw [note, hbook]⟩)
      | some period => exact .inr (.inr ⟨id, now + period, callback, some period, by rw [note, hbook]⟩)
  | ranPending => exact .inl rfl

/-- The insertions are numbered, and no two live timers have the same number. -/
structure Numbered (t : Table C) : Prop where
  le : ∀ id b, t.book id = some b → b.order ≤ t.count
  inj : ∀ id id' b b', t.book id = some b → t.book id' = some b' → b.order = b'.order → id = id'

theorem Numbered.note {t : Table C} (h : Numbered t) (e : Event C) : Numbered (t.note e) := by
  rcases t.note_cases e with heq | ⟨id, heq⟩ | ⟨id, due, callback, interval, heq⟩
  · rw [heq]
    exact h
  · rw [heq]
    have hput : ∀ {k b}, t.put id none k = some b → t.book k = some b := by
      intro k b hk
      unfold put at hk
      by_cases hid : k = id
      · rw [if_pos hid] at hk
        cases hk
      · rwa [if_neg hid] at hk
    exact ⟨fun k b hk => h.le k b (hput hk), fun k k' b b' hk hk' => h.inj k k' b b' (hput hk) (hput hk')⟩
  · rw [heq]
    -- a booking is the new one, with the new number, or an old one
    have hput : ∀ {k b}, t.put id (some ⟨due, t.count + 1, callback, interval⟩) k = some b →
        k = id ∧ b.order = t.count + 1 ∨ t.book k = some b ∧ b.order ≤ t.count := by
      intro k b hk
      unfold put at hk
      by_cases hid : k = id
      · rw [if_pos hid, some.injEq] at hk
        exact .inl ⟨hid, by rw [← hk]⟩
      · rw [if_neg hid] at hk
        exact .inr ⟨hk, h.le k b hk⟩
    constructor
    · intro k b hk
      show b.order ≤ t.count + 1
      rcases hput hk with ⟨-, hb⟩ | ⟨-, hb⟩ <;> omega
    · intro k k' b b' hk hk' horder
      rcases hput hk with ⟨rfl, hb⟩ | ⟨hbook, hb⟩
      · rcases hput hk' with ⟨rfl, -⟩ | ⟨-, _⟩
        · rfl
        · omega
      · rcases hput hk' with ⟨-, _⟩ | ⟨hbook', -⟩
        · omega
        · exact h.inj k k' b b' hbook hbook' horder

theorem numbered_tableOf (log : List (Event C)) : Numbered (tableOf log) := by
  induction log using reverseRecOn with
  | nil =>
    constructor
    · intro id b hb
      cases hb
    · intro id id' b b' hb
      cases hb
  | append_singleton log e ih =>
    rw [tableOf_append]
    exact ih.note e

def OnTime (before : List (Event C)) : Event C → Prop
  | .popped id callback now => ∃ b, (tableOf before).book id = some b ∧ b.callback = callback ∧ b.due ≤ now
  | _ => True

def Event.about : Event C → Option Nat
  | .scheduled id _ _ | .cleared id | .popped id _ _ => some id
  | .ranPending _ => none

/-- **Where a booking comes from**: the id's last scheduling, and its pops since then. -/
structure History (log : List (Event C)) (id : Nat) (b : Booking C) (older since : List (Event C)) (deadline : Nat)
    (entry : TimerEntry C) : Prop where
  log : log = older ++ .scheduled id deadline entry :: since
  undisturbed : Undisturbed id since
  callback : entry.callback = b.callback
  interval : entry.interval = b.interval
  due : deadline ≤ b.due
  oneShot : entry.interval = none → ∀ c t, .popped id c t ∉ since
  apart : ∀ period, entry.interval = some period → ∀ c t, .popped id c t ∈ since → t + period ≤ b.due

namespace History

variable {log older since : List (Event C)} {id deadline : Nat} {b : Booking C} {entry : TimerEntry C}

variable (h : History log id b older since deadline entry)

include h

theorem snoc {e : Event C} (he : e.about ≠ some id) :
    History (log ++ [e]) id b older (since ++ [e]) deadline entry := by
  have hmem : ∀ {e' : Event C}, e'.about = some id → e' ∈ since ++ [e] → e' ∈ since := by
    intro e' habout hmem
    rcases mem_append.mp hmem with hmem | hmem
    · exact hmem
    · rw [mem_singleton.mp hmem] at habout
      exact absurd habout he
  constructor
  · rw [h.log]
    simp
  · exact ⟨fun d en hin => h.undisturbed.1 d en (hmem rfl hin), fun hin => h.undisturbed.2 (hmem rfl hin)⟩
  · exact h.callback
  · exact h.interval
  · exact h.due
  · exact fun hone c t hin => h.oneShot hone c t (hmem rfl hin)
  · exact fun period hp c t hin => h.apart period hp c t (hmem rfl hin)

theorem pop {period now : Nat} (hinterval : b.interval = some period) (hdue : b.due ≤ now) (c : C) (order : Nat) :
    History (log ++ [.popped id c now]) id ⟨now + period, order, b.callback, some period⟩ older
    (since ++ [.popped id c now]) deadline entry := by
  have hentry : entry.interval = some period := h.interval.trans hinterval
  constructor
  · rw [h.log]
    simp
  · refine ⟨fun d en hin => ?_, fun hin => ?_⟩
    · rcases mem_append.mp hin with hin | hin
      · exact h.undisturbed.1 d en hin
      · cases mem_singleton.mp hin
    · rcases mem_append.mp hin with hin | hin
      · exact h.undisturbed.2 hin
      · cases mem_singleton.mp hin
  · exact h.callback
  · exact hentry
  · have := h.due
    show deadline ≤ now + period
    omega
  · intro hone
    rw [hentry] at hone
    cases hone
  · intro p hp c' t hin
    rw [hentry, some.injEq] at hp
    subst hp
    show t + period ≤ now + period
    rcases mem_append.mp hin with hin | hin
    · have := h.apart period hentry c' t hin
      omega
    · cases mem_singleton.mp hin
      exact Nat.le_refl _

theorem justified {now : Nat} (hdue : b.due ≤ now) : Justified log (.popped id b.callback now) := by
  refine ⟨older, deadline, entry, since, h.log, h.undisturbed, h.callback, Nat.le_trans h.due hdue, ?_⟩
  cases hinterval : entry.interval with
  | none => exact h.oneShot hinterval
  | some period => exact fun c t hin => Nat.le_trans (h.apart period hinterval c t hin) hdue

end History

variable {log : List (Event C)}

theorem exists_history (hlog : Each OnTime log) {id : Nat} {b : Booking C} (hbook : (tableOf log).book id = some b) :
    ∃ older since deadline entry, History log id b older since deadline entry := by
  induction log using reverseRecOn generalizing b with
  | nil => cases hbook
  | append_singleton log e ih =>
    obtain ⟨hold, hnew⟩ := each_append.mp hlog
    have honTime : OnTime log e := by simpa using (each_cons.mp hnew).1
    rw [tableOf_append, foldl_cons, foldl_nil] at hbook
    -- what was booked before, where the event is about another timer
    have hother : e.about ≠ some id → (tableOf log).book id = some b →
        ∃ older since deadline entry, History (log ++ [e]) id b older since deadline entry := by
      intro he hb
      obtain ⟨older, since, deadline, entry, h⟩ := ih hold hb
      exact ⟨older, since ++ [e], deadline, entry, h.snoc he⟩
    cases e with
    | scheduled k deadline entry =>
      rw [note] at hbook
      dsimp only [put] at hbook
      by_cases hk : id = k
      · rw [if_pos hk, some.injEq] at hbook
        subst hk hbook
        exact ⟨log, [], deadline, entry, rfl, ⟨(fun _ _ h => by cases h), fun h => by cases h⟩, rfl, rfl, Nat.le_refl _,
          (fun _ _ _ h => by cases h), (fun _ _ _ _ h => by cases h)⟩
      · rw [if_neg hk] at hbook
        exact hother (fun h => hk (some.inj h).symm) hbook
    | cleared k =>
      rw [note] at hbook
      dsimp only [put] at hbook
      by_cases hk : id = k
      · rw [if_pos hk] at hbook
        cases hbook
      · rw [if_neg hk] at hbook
        exact hother (fun h => hk (some.inj h).symm) hbook
    | popped k c now =>
      obtain ⟨b', hb', -, hdue⟩ := honTime
      rw [note, hb'] at hbook
      by_cases hk : id = k
      · subst hk
        obtain ⟨_, _, _, interval⟩ := b'
        cases interval with
        | none =>
          dsimp only [put] at hbook
          rw [if_pos rfl] at hbook
          cases hbook
        | some =>
          dsimp only [put] at hbook
          rw [if_pos rfl, some.injEq] at hbook
          subst hbook
          obtain ⟨older, since, deadline, entry, h⟩ := ih hold hb'
          exact ⟨older, since ++ [.popped id c now], deadline, entry, h.pop rfl hdue c _⟩
      · refine hother (fun h => hk (some.inj h).symm) ?_
        obtain ⟨_, _, _, interval⟩ := b'
        cases interval <;>
        · dsimp only [put] at hbook
          rwa [if_neg hk] at hbook
    | ranPending => exact hother (fun h => by cases h) hbook

theorem justified_of_onTime (h : Each OnTime log) : Each Justified log := by
  intro before e after hlog
  have hbefore : Each OnTime before := by
    rw [hlog] at h
    exact (each_append.mp h).1
  have he := h before e after hlog
  cases e with
  | popped =>
    obtain ⟨b, hbook, rfl, hdue⟩ := he
    obtain ⟨_, _, deadline, entry, history⟩ := exists_history hbefore hbook
    exact history.justified hdue
  | scheduled | cleared | ranPending => trivial

/-! ## Runs -/

/-- No timer gets an id of which an entry is still queued, and the sequence numbers do not run out. -/
def fits (s : State C) : Input C → Bool
  | .setTimeout .. | .setInterval .. | .setImmediate .. => unrecycled s.queue
  | .popDue _ => s.queue.seq + 1 < 2 ^ 64
  | _ => true

theorem holds_start (epoch : Nat) : Holds (start epoch : State C).queue (tableOf []) epoch where
  keyed := nodup_nil
  refs := rfl
  booked := ⟨fun _ _ => rfl, fun _ _ h => by cases h⟩
  heap := .nil
  immediates := .nil
  oneShot := fun _ h => by cases h
  queued := fun _ h => by cases h
  below := fun _ h => by cases h
  count := rfl
  epoch := Nat.le_refl _

/-- What every run keeps: the queue holds the table of the log, and every pop was on time. -/
def Kept (s : State C) (log : List (Event C)) : Prop := Holds s.queue (tableOf log) s.clock ∧ Each OnTime log

variable {s : State C}

theorem Kept.quiet {queue : TimerQueue C} (h : Kept s log)
    (hs : Sweeps s.queue queue) : Kept { s with queue } (log ++ []) := by
  rw [append_nil]
  exact ⟨h.1.sweeps hs, h.2⟩

theorem Kept.set {entry : TimerEntry C} {now : Nat}
    {booked : Option (Slot × TimerQueue C)} (h : Kept s log)
    (hset : ∀ x queue, booked = some (x, queue) →
      Holds queue ((tableOf log).note (.scheduled x.id x.deadline entry)) now) :
    Kept (set s entry now booked).1 (log ++ (set s entry now booked).2) := by
  cases booked with
  | none =>
    rw [Timers.set, append_nil]
    exact h
  | some xq =>
    obtain ⟨x, queue⟩ := xq
    refine ⟨?_, each_append.mpr ⟨h.2, ?_⟩⟩
    · rw [Timers.set, tableOf_append]
      exact hset x queue rfl
    · simp [Timers.set, OnTime]

theorem Kept.popDue {now : Nat} (h : Kept s log) (hnow : s.clock ≤ now)
    (hseq : s.queue.seq + 1 < 2 ^ 64) :
    Kept { queue := (s.queue.popDue now).2, clock := now } (log ++ poppedEvents now (s.queue.popDue now).1) := by
  have hholds := h.1.mono hnow
  refine ⟨?_, each_append.mpr ⟨h.2, ?_⟩⟩
  · rw [tableOf_append]
    exact hholds.popDue hseq
  · cases hpop : (s.queue.popDue now).1 with
    | none => simp [poppedEvents]
    | some popped =>
      cases popped with
      | pending => simp [poppedEvents, OnTime]
      | slot =>
        obtain ⟨b, hbook, hcallback, -, -, hdue, -⟩ := hholds.answers hpop
        simp only [poppedEvents, each_cons, each_nil, and_true, append_nil]
        exact ⟨b, hbook, hcallback, hdue⟩

/-- **Every step keeps it.** -/
theorem step_keeps (s : State C) (log : List (Event C)) (a : Input C) (hok : (timely s a && fits s a))
    (h : Kept s log) : Kept (step s a).1 (log ++ (step s a).2) := by
  rw [Bool.and_eq_true] at hok
  obtain ⟨htimely, hfits⟩ := hok
  cases a with
  | setTimeout =>
    exact h.set fun x queue hs => (h.1.mono (of_decide_eq_true htimely)).schedule hfits hs
  | setInterval =>
    exact h.set fun x queue hs => (h.1.mono (of_decide_eq_true htimely)).schedule hfits hs
  | setImmediate =>
    exact h.set fun x queue hs => (h.1.mono (of_decide_eq_true htimely)).scheduleImmediate hfits rfl hs
  | clear id =>
    refine ⟨?_, each_append.mpr ⟨h.2, by simp [step, OnTime]⟩⟩
    rw [step, tableOf_append]
    exact h.1.cancel id
  | setRef id value =>
    rw [step, append_nil]
    exact ⟨h.1.setRef id value, h.2⟩
  | pending callback => exact h.quiet (Sweeps.timerPending s.queue callback)
  | popDue => exact h.popDue (of_decide_eq_true htimely) (of_decide_eq_true hfits)
  | nextDeadline => exact h.quiet (Sweeps.nextDeadline s.queue)
  | peekDue now => exact h.quiet (Sweeps.peekDue s.queue now)
  | callbackDone => exact h.quiet (Sweeps.stop s.queue s.queue.pending none)

/-- **Timers fire once, never early, never after being cleared**, in every run under a clock that does not go back in
    which no id is handed out while an entry of it is queued. -/
theorem fires_as_booked (epoch : Nat) (inputs : List (Input C)) (htimely : Along step timely (start epoch) inputs)
    (hfits : Along step fits (start epoch) inputs) :
    let s := (run step (start epoch) inputs).1
    let log := (run step (start epoch) inputs).2
    let q := s.queue
    q.refCount = Assoc.count (·.isRef) q.active ∧
    (∀ id, q.containsKey id = true → ∃ x, q.slots.filter (·.id = id) = [x]) ∧
    Each Justified log ∧
    (∀ id, q.containsKey id = ((tableOf log).book id).isSome) ∧
    (∀ now x callback, s.clock ≤ now → q.pending = [] → (q.popDue now).1 = some (.slot x callback) →
      ∃ b, (tableOf log).book x.id = some b ∧ b.callback = callback ∧ b.due ≤ now ∧
        ∀ id b', id ≠ x.id → (tableOf log).book id = some b' → b.due < b'.due ∨ b.due = b'.due ∧ b.order < b'.order) ∧
    ∀ now, s.clock ≤ now → ((q.popDue now).1.isSome = true ↔ ∃ d, q.nextDeadline.1 = some d ∧ d ≤ now) := by
  have hstart : Kept (start epoch : State C) [] := ⟨holds_start epoch, each_nil OnTime⟩
  have hrun := run_invariant_along step_keeps hstart (along_and htimely hfits)
  rw [nil_append] at hrun
  obtain ⟨hholds, honTime⟩ := hrun
  intro s log q
  refine ⟨hholds.refs, ?_, justified_of_onTime honTime, ?_, ?_, ?_⟩
  · intro id hid
    rw [containsKey_eq, isSome_iff_exists] at hid
    obtain ⟨entry, hget⟩ := hid
    obtain ⟨x, hx, -⟩ := hholds.booked.lone id entry hget
    exact ⟨x, hx⟩
  · intro id
    rw [containsKey_eq]
    cases hget : q.get id with
    | none => rw [hholds.booked.free id hget]; rfl
    | some entry =>
      obtain ⟨x, -, hbook⟩ := hholds.booked.lone id entry hget
      rw [hbook]
      rfl
  · intro now x callback hnow hpending hpop
    have hnowHolds := hholds.mono hnow
    obtain ⟨b, hbook, hcallback, hdue, horder, hle, hfirst⟩ := hnowHolds.answers hpop
    refine ⟨b, hbook, hcallback, hle, ?_⟩
    intro id b' hid hb'
    cases hget : q.get id with
    | none =>
      rw [hnowHolds.booked.free id hget] at hb'
      cases hb'
    | some entry =>
      obtain ⟨y, hy, hbook'⟩ := hnowHolds.booked.lone id entry hget
      rw [hb', some.injEq] at hbook'
      have hmem : y ∈ q.slots.filter (·.id = id) := by
        rw [hy]
        exact mem_singleton_self y
      obtain ⟨hslot, hyid⟩ := mem_filter.mp hmem
      rw [decide_eq_true_eq] at hyid
      have hbefore : x.Before y := hfirst hpending y hslot (by rw [containsKey_eq, hyid, hget]; rfl)
      have hne : b.order ≠ b'.order := fun heq =>
        hid ((numbered_tableOf log).inj id x.id b' b hb' hbook heq.symm)
      have hdue' : b'.due = y.deadline := by rw [hbook']
      have horder' : b'.order = y.seq := by rw [hbook']
      unfold Slot.Before at hbefore
      omega
  · intro now hnow
    exact (hholds.mono hnow).popDue_isSome

/-- A timer that is cleared, and an interval that ran twice. -/
theorem fires_as_booked_interval : Each Justified (run step (start 0)
      [.setTimeout "late" 9000000 0, .setInterval "tick" 3000000 0, .popDue 3000000, .clear 1, .popDue 6000000]).2 :=
  (fires_as_booked 0 [.setTimeout "late" 9000000 0, .setInterval "tick" 3000000 0, .popDue 3000000, .clear 1,
    .popDue 6000000] (by decide +kernel) (by decide +kernel)).2.2.1

/-! ## Recycled ids -/

namespace Recycled

/-- The queue with one timer that is live, and behind it the entry of one that was cleared; `k` ids were tried. -/
def spun (k : Nat) (running : Option Running) (clock : Nat) : State String where
  queue :=
    { nextId := max (k % 2 ^ 32) 1
      seq := k - 1
      epoch := 0
      heap := [⟨7200000000000, 1, 1⟩, ⟨10800000000000, 2, 2⟩]
      immediates := []
      active := [(1, timeoutEntry "first")]
      refCount := 1
      pending := []
      running }
  clock

/-- An immediate, and its run, a microsecond after the last. -/
def round (k : Nat) : List (Input String) := [.setImmediate "tick" (1000 * k), .popDue (1000 * k)]

def rounds : (n k : Nat) → List (Input String)
  | 0, _ => []
  | n + 1, k => round k ++ rounds n (k + 1)

/-- Two timers of two and of three hours, the second cleared; all the other ids; and a timer of two hours more. -/
def opening : List (Input String) := [.setTimeout "first" 7200000000000 0, .setTimeout "cleared" 10800000000000 0, .clear 2]

def closing : List (Input String) :=
  [.setTimeout "later" 7200000000000 4294967296000, .popDue 7200000000000, .popDue 10800000000000]

def inputs : List (Input String) := opening ++ (rounds 4294967293 3 ++ closing)

theorem freeId_of_used {q : TimerQueue String} {id : Nat} (h : q.containsKey id)
    (h' : q.containsKey (bump id) = false) : q.freeId (2 ^ 32) id = some (bump id) := by
  show q.freeId (4294967294 + 1 + 1) id = some (bump id)
  rw [freeId, if_pos h, freeId, if_neg (by rw [h']; exact Bool.false_ne_true)]

theorem run_opening : (run step (start 0) opening).1 = spun 3 none 0 := rfl

def queued (k : Nat) (running : Option Running) : State String where
  queue :=
    { (spun (k + 1) running 0).queue with
      immediates := [⟨1000 * k, k, k⟩]
      active := [(k, timeoutEntry "tick"), (1, timeoutEntry "first")]
      refCount := 2 }
  clock := 1000 * k

section
variable {k clock : Nat} {running : Option Running}

theorem step_setImmediate (hk : 3 ≤ k) (hlt : k < 2 ^ 32) :
    (step (spun k running clock) (.setImmediate "tick" (1000 * k))).1 = queued k running := by
  have hmax : max (k % 2 ^ 32) 1 = k := by
    rw [Nat.mod_eq_of_lt hlt]
    omega
  have hfree : (spun k running clock).queue.containsKey k = false := by
    show ([(1, timeoutEntry "first")].any fun kv => kv.1 = k) = false
    simp only [any_cons, any_nil, Bool.or_false, decide_eq_false_iff_not]
    omega
  have hid : (spun k running clock).queue.freeId (2 ^ 32) (spun k running clock).queue.nextId = some k := by
    show (spun k running clock).queue.freeId (2 ^ 32) (max (k % 2 ^ 32) 1) = some k
    rw [hmax]
    show (spun k running clock).queue.freeId (4294967295 + 1) k = some k
    rw [freeId, if_neg (by rw [hfree]; exact Bool.false_ne_true)]
  have hseq : (spun k running clock).queue.nextSeq = k := by
    show (k - 1 + 1) % 2 ^ 64 = k
    omega
  rw [step, scheduleImmediate, TimerQueue.insert, hid, map_some, map_some, hseq]
  rfl

theorem step_popDue (hk : 3 ≤ k) (hlt : k < 2 ^ 32) :
    (step (queued k running) (.popDue (1000 * k))).1 = spun (k + 1) (some (.immediate (1000 * k))) (1000 * k) := by
  have hlate : ¬7200000000000 ≤ 1000 * k := by omega
  have hne : ¬1 = k := by omega
  simp [step, popDue, popEarliest, queued, spun, sweepTimers, sweepImmediates, front, containsKey, Assoc.contains,
    Option.filter, hlate, hne, popImmediate, TimerQueue.get, Assoc.get, timeoutEntry, Assoc.remove]

/-- **One round takes one id** and leaves the rest as it was. -/
theorem run_round (hk : 3 ≤ k) (hlt : k < 2 ^ 32) :
    (run step (spun k running clock) (round k)).1 = spun (k + 1) (some (.immediate (1000 * k))) (1000 * k) := by
  show (step (step (spun k running clock) (.setImmediate "tick" (1000 * k))).1 (.popDue (1000 * k))).1 = _
  rw [step_setImmediate hk hlt, step_popDue hk hlt]

theorem along_round (hk : 3 ≤ k) (hlt : k < 2 ^ 32) (hclock : clock ≤ 1000 * k) :
    Along step timely (spun k running clock) (round k) := by
  refine ⟨decide_eq_true hclock, ?_, trivial⟩
  rw [step_setImmediate hk hlt]
  exact decide_eq_true (Nat.le_refl (1000 * k))

/-- **All rounds**, by induction on their number. -/
theorem run_rounds (n k clock : Nat) (running : Option Running) (hk : 3 ≤ k) (hle : k + n ≤ 2 ^ 32)
    (hclock : clock ≤ 1000 * k) : Along step timely (spun k running clock) (rounds n k) ∧ ∃ running' clock',
    clock' ≤ 1000 * (k + n) ∧ (run step (spun k running clock) (rounds n k)).1 = spun (k + n) running' clock' := by
  induction n generalizing k clock running with
  | zero => exact ⟨trivial, running, clock, hclock, rfl⟩
  | succ n ih =>
    have hlt : k < 2 ^ 32 := by omega
    obtain ⟨halong, running', clock', _, hrun⟩ :=
      ih (k + 1) (1000 * k) (some (.immediate (1000 * k))) (by omega) (by omega) (by omega)
    rw [rounds, along_append, run_append, run_round hk hlt]
    refine ⟨⟨along_round hk hlt hclock, halong⟩, running', clock', by omega, ?_⟩
    rw [hrun, Nat.add_right_comm]
    rfl

/-- The queue once the id of the cleared timer is handed out again. -/
def recycled (running : Option Running) : State String where
  queue :=
    { nextId := 3
      seq := 4294967296
      epoch := 0
      heap := [⟨7200000000000, 1, 1⟩, ⟨10800000000000, 2, 2⟩, ⟨11494967296000, 4294967296, 2⟩]
      immediates := []
      active := [(2, timeoutEntry "later"), (1, timeoutEntry "first")]
      refCount := 2
      pending := []
      running }
  clock := 4294967296000

theorem step_setTimeout : step (spun 4294967296 running clock) (.setTimeout "later" 7200000000000 4294967296000) =
    (recycled running, [.scheduled 2 11494967296000 (timeoutEntry "later")]) := by
  have hid : (spun 4294967296 running clock).queue.freeId (2 ^ 32) (spun 4294967296 running clock).queue.nextId = some 2 :=
    freeId_of_used rfl rfl
  have hseq : (spun 4294967296 running clock).queue.nextSeq = 4294967296 := by
    show (4294967296 - 1 + 1) % 2 ^ 64 = 4294967296
    omega
  rw [step, schedule, TimerQueue.insert, hid, map_some, map_some, hseq]
  rfl

theorem run_closing : (run step (spun 4294967296 running clock) closing).2 =
    [.scheduled 2 11494967296000 (timeoutEntry "later"), .popped 1 "first" 7200000000000,
      .popped 2 "later" 10800000000000] := by
  rw [closing, run, step_setTimeout]
  rfl

theorem run_all {n : Nat} (hn : 3 + n = 4294967296) : Along step timely (start 0) (opening ++ (rounds n 3 ++ closing)) ∧
      ∃ older, (run step (start 0) (opening ++ (rounds n 3 ++ closing))).2 =
        older ++ [.scheduled 2 11494967296000 (timeoutEntry "later"), .popped 1 "first" 7200000000000,
          .popped 2 "later" 10800000000000] := by
  obtain ⟨hrounds, _, _, hclock, hrun⟩ :=
    run_rounds n 3 0 none (by omega) (by omega) (by omega)
  rw [hn] at hclock hrun
  rw [along_append, along_append, run_append, run_append, run_opening, hrun, run_closing, ← append_assoc]
  refine ⟨⟨by decide +kernel, hrounds, decide_eq_true hclock, ?_⟩, _, rfl⟩
  rw [step_setTimeout]
  exact ⟨rfl, rfl, trivial⟩

end

end Recycled

/-- **A timer that fires before its time**: its id is that of a cleared one of three hours, 2³² − 3 immediates later. -/
theorem recycled_id_fires_early : Along step timely (start 0) Recycled.inputs ∧
      ∃ older, (run step (start 0) Recycled.inputs).2 =
        older ++ [.scheduled 2 11494967296000 (timeoutEntry "later"), .popped 1 "first" 7200000000000,
          .popped 2 "later" 10800000000000] :=
  Recycled.run_all rfl

end Oam.Engine.Timers
