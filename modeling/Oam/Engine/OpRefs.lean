/-
  What holds the event loop open: `inflight` and the tables of `ref()` / `unref()`, over any run of `CoreRuntime`.  ONE
  equation says what the table of handles is (`Agrees.view`): a key has an entry unless it is wanted with nothing filed.
-/
import Oam.Engine.EventLoop

namespace Oam.Engine.OpRefs

open List hiding get
open Assoc EventLoop

/-! ## Program -/

inductive Move where
  | spawnOp
  | spawnOpUnref
  | spawnHandleOp (key : Nat)
  | setHandleRef (key : Nat) (referenced : Bool)
  | forgetHandle (key : Nat)
  | recv (arrival : Arrival)
deriving DecidableEq

def act (c : CoreRuntime) : Move → CoreRuntime
  | .spawnOp => c.spawnOp
  | .spawnOpUnref => c.spawnOpUnref
  | .spawnHandleOp key => c.spawnHandleOp key
  | .setHandleRef key referenced => c.setHandleRef key referenced
  | .forgetHandle key => c.forgetHandle key
  | .recv (.op id _) => if c.running.contains id then c.noteSettled id else c
  -- The ids of signals and wakes are sentinels, which `note_settled` lets pass.
  | .recv _ => c

def lacks (c : CoreRuntime) (id : Nat) : Bool := !c.unrefOps.contains id && c.inflight == 0

/-- The loop of `set_handle_ref`, op by op; it subtracts for an `unref()` only. -/
def loopLacks (referenced : Bool) (c : CoreRuntime) : List Nat → Bool
  | [] => false
  | id :: ops => !referenced && lacks c id || loopLacks referenced (c.countOp referenced id) ops

def underflows (c : CoreRuntime) : Move → Bool
  | .spawnOpUnref => c.spawnOp.inflight == 0
  | .spawnHandleOp key => !(c.handle key).referenced && c.spawnOp.inflight == 0
  | .setHandleRef key referenced => loopLacks referenced c (c.handle key).ops
  | .recv (.op id _) => c.running.contains id && lacks c id
  | _ => false

/-! ## Specification -/

structure Books where
  filed : Nat → List Nat := fun _ => []
  wanted : Nat → Bool := fun _ => true

/-- What a call says; a spawned op gets the id `id`. -/
def Books.note (b : Books) (id : Nat) : Move → Books
  | .spawnHandleOp key => { b with filed := fun k => if k = key then id :: b.filed k else b.filed k }
  | .setHandleRef key referenced => { b with wanted := fun k => if k = key then referenced else b.wanted k }
  | .forgetHandle key =>
    { filed := fun k => if k = key then [] else b.filed k, wanted := fun k => if k = key then true else b.wanted k }
  | .recv (.op done _) => { b with filed := fun k => (b.filed k).erase done }
  | _ => b

/-- An entry that says nothing (wanted, nothing filed) is not kept. -/
def Books.entry (b : Books) (key : Nat) : Option HandleRef :=
  if b.wanted key = true ∧ b.filed key = [] then none else some ⟨b.wanted key, b.filed key⟩

def step (s : CoreRuntime × Books) (m : Move) : CoreRuntime × Books := (act s.1 m, s.2.note s.1.nextId m)

def run (moves : List Move) : CoreRuntime × Books := moves.foldl step (.new, {})

def counted (unref ops : List Nat) : Nat := ops.countP fun id => !unref.contains id

/-- Other ops are unref'd, and the counter is right. -/
def recounted (c : CoreRuntime) (u : List Nat) : CoreRuntime :=
  { c with unrefOps := u, inflight := counted u c.running }

/-! ## Correctness -/

/-- The runtime and the books say the same of every op and every handle. -/
structure Agrees (c : CoreRuntime) (b : Books) : Prop where
  distinct : c.running.Nodup
  fresh : ∀ id ∈ c.running, id < c.nextId
  inflight : c.inflight = counted c.unrefOps c.running
  once : c.unrefOps.Nodup
  unref : ∀ id ∈ c.unrefOps, id ∈ c.running
  view : ∀ key, get c.handles key = b.entry key
  filed : ∀ id key, get c.opHandles id = some key ↔ id ∈ b.filed key
  filedOnce : ∀ key, (b.filed key).Nodup
  counts : ∀ key, ∀ id ∈ b.filed key, id ∈ c.running ∧ (id ∈ c.unrefOps ↔ b.wanted key = false)

theorem counted_split {ops : List Nat} {id : Nat} (hid : id ∈ ops) (u : List Nat) :
    counted u ops = counted u (ops.erase id) + if id ∈ u then 0 else 1 := by
  rw [counted, (perm_cons_erase hid).countP_eq, countP_cons]
  by_cases hu : id ∈ u <;> simp [counted, hu]

theorem counted_erase {u v ops : List Nat} {id : Nat} (hops : ops.Nodup) (h : ∀ i ≠ id, i ∈ u ↔ i ∈ v) :
    counted u (ops.erase id) = counted v (ops.erase id) := by
  refine countP_congr fun i hi => ?_
  simp [h i (hops.mem_erase_iff.mp hi).1]

theorem counted_cons {u ops : List Nat} {id : Nat} (hops : ops.Nodup) (hid : id ∈ ops) (hu : id ∉ u) :
    counted u ops = counted (id :: u) ops + 1 := by
  rw [counted_split hid u, counted_split hid (id :: u), if_neg hu, if_pos mem_cons_self, Nat.add_zero,
    counted_erase hops fun i hi => by rw [mem_cons, or_iff_right hi]]

theorem get_foldl_remove (l : List (Nat × Nat)) (ops : List Nat) (id : Nat) :
    get (ops.foldl remove l) id = if id ∈ ops then none else get l id := by
  induction ops generalizing l with
  | nil => simp
  | cons op ops ih =>
    rw [foldl_cons, ih, get_remove]
    by_cases h : id = op <;> by_cases h' : id ∈ ops <;> simp [h, h']

namespace Agrees

variable {c : CoreRuntime} {b : Books}

variable (h : Agrees c b)

include h

theorem handle_eq (key : Nat) : c.handle key = ⟨b.wanted key, b.filed key⟩ := by
  rw [CoreRuntime.handle, h.view, Books.entry]
  split
  case isTrue he => rw [he.1, he.2, Option.getD_none]
  case isFalse => rfl

theorem filed_inj {id key key' : Nat} (hk : id ∈ b.filed key) (hk' : id ∈ b.filed key') : key = key' :=
  Option.some.inj (((h.filed id key).mpr hk).symm.trans ((h.filed id key').mpr hk'))

theorem nextId_notMem : c.nextId ∉ c.running := fun hn => Nat.lt_irrefl _ (h.fresh _ hn)

theorem nextId_notMem_unref : c.nextId ∉ c.unrefOps := fun hn => h.nextId_notMem (h.unref _ hn)

theorem spawnOp : Agrees c.spawnOp b where
  distinct := by
    have hdisjoint : ∀ id ∈ c.running, id ≠ c.nextId := fun id hid => Nat.ne_of_lt (h.fresh id hid)
    simpa [CoreRuntime.spawnOp, nodup_append, h.distinct] using hdisjoint
  fresh id hid := by
    rcases mem_append.mp hid with hid | hid
    · exact Nat.lt_succ_of_lt (h.fresh id hid)
    · rw [mem_singleton.mp hid]
      exact Nat.lt_succ_self _
  inflight := by simp [CoreRuntime.spawnOp, counted, h.nextId_notMem_unref, h.inflight]
  once := h.once
  unref id hid := mem_append_left _ (h.unref id hid)
  view := h.view
  filed := h.filed
  filedOnce := h.filedOnce
  counts key id hid := ⟨mem_append_left _ (h.counts key id hid).1, (h.counts key id hid).2⟩

theorem spawnOpUnref : Agrees c.spawnOpUnref b := by
  have hs := h.spawnOp
  have hmem : c.nextId ∈ c.spawnOp.running := by simp [CoreRuntime.spawnOp]
  have hcount := hs.inflight.trans (counted_cons hs.distinct hmem h.nextId_notMem_unref)
  refine ⟨hs.distinct, hs.fresh, Nat.succ.inj hcount, nodup_cons.mpr ⟨h.nextId_notMem_unref, h.once⟩,
    fun id hid => ?_, h.view, h.filed, h.filedOnce, fun key id hid => ⟨(hs.counts key id hid).1, ?_⟩⟩
  · rcases mem_cons.mp hid with rfl | hid
    · exact hmem
    · exact hs.unref id hid
  · have hne : id ≠ c.nextId := Nat.ne_of_lt (h.fresh id (h.counts key id hid).1)
    exact (mem_cons.trans (or_iff_right hne)).trans (h.counts key id hid).2

theorem spawnHandleOp (key : Nat) : Agrees (c.spawnHandleOp key) (b.note c.nextId (.spawnHandleOp key)) := by
  obtain ⟨t, heq, ht, hrunning, hunref⟩ : ∃ t, c.spawnHandleOp key = { t with
        handles := put c.handles key ⟨b.wanted key, c.nextId :: b.filed key⟩
        opHandles := put c.opHandles c.nextId key } ∧
      Agrees t b ∧ c.nextId ∈ t.running ∧ (c.nextId ∈ t.unrefOps ↔ b.wanted key = false) := by
    simp only [CoreRuntime.spawnHandleOp, h.handle_eq]
    cases b.wanted key with
    | true =>
      have hnot := h.nextId_notMem_unref
      exact ⟨_, rfl, h.spawnOp, by simp [CoreRuntime.spawnOp], by simp [CoreRuntime.spawnOp, hnot]⟩
    | false => exact ⟨_, rfl, h.spawnOpUnref, by simp [CoreRuntime.spawnOpUnref, CoreRuntime.spawnOp],
        by simp [CoreRuntime.spawnOpUnref]⟩
  have hfiled : ∀ k, c.nextId ∉ b.filed k := fun k hk => h.nextId_notMem (h.counts k _ hk).1
  rw [heq]
  refine ⟨ht.distinct, ht.fresh, ht.inflight, ht.once, ht.unref, fun k => ?_, fun id k => ?_, fun k => ?_,
    fun k id hid => ?_⟩
  · by_cases hk : k = key
    · simp [get_put, Books.note, Books.entry, hk]
    · simpa [get_put, Books.note, Books.entry, hk] using h.view k
  · have hold := h.filed id k
    by_cases hid : id = c.nextId
    · subst hid
      by_cases hk : k = key
      · simp [get_put, Books.note, hk]
      · simpa [get_put, Books.note, hk, hfiled] using Ne.symm hk
    · by_cases hk : k = key <;> simpa [get_put, Books.note, hid, hk] using hold
  · by_cases hk : k = key <;> simp [Books.note, hk, hfiled, h.filedOnce]
  · by_cases hk : k = key
    · subst hk
      rcases mem_cons.mp (by simpa [Books.note] using hid) with rfl | hid
      · exact ⟨hrunning, hunref⟩
      · exact ht.counts k id hid
    · exact ht.counts k id (by simpa [Books.note, hk] using hid)

omit h in
theorem countOp (hd : c.running.Nodup) {u : List Nat} (hu : u.Nodup) {id : Nat} (hid : id ∈ c.running)
    (referenced : Bool) : ∃ v, (recounted c u).countOp referenced id = recounted c v ∧
      v.Nodup ∧ ∀ i, i ∈ v ↔ if i = id then referenced = false else i ∈ u := by
  by_cases hmem : id ∈ u <;> cases referenced
  case pos.false | neg.true =>
    exact ⟨u, by simp [CoreRuntime.countOp, recounted, hmem], hu, fun i => by by_cases hi : i = id <;> simp [hi, hmem]⟩
  case pos.true =>
    have hnot : id ∉ u.erase id := fun he => (hu.mem_erase_iff.mp he).1 rfl
    have hcount := counted_cons hd hid hnot
    have hsame : counted (id :: u.erase id) c.running = counted u c.running :=
      countP_congr fun i _ => by simp [(perm_cons_erase hmem).mem_iff]
    refine ⟨u.erase id, by simp [CoreRuntime.countOp, recounted, hmem, hcount, hsame], hu.erase id, fun i => ?_⟩
    by_cases hi : i = id <;> simp [hu.mem_erase_iff, hi]
  case neg.false =>
    refine ⟨id :: u, by simp [CoreRuntime.countOp, recounted, hmem, counted_cons hd hid hmem],
      nodup_cons.mpr ⟨hmem, hu⟩, fun i => ?_⟩
    by_cases hi : i = id <;> simp [hi]

omit h in
theorem countOps (hd : c.running.Nodup) (referenced : Bool) {u ops : List Nat} (hu : u.Nodup)
    (hops : ∀ id ∈ ops, id ∈ c.running) : ∃ v, ops.foldl (CoreRuntime.countOp referenced) (recounted c u) =
    recounted c v ∧ loopLacks referenced (recounted c u) ops = false ∧ v.Nodup ∧ ∀ i, i ∈ v ↔
    if i ∈ ops then referenced = false else i ∈ u := by
  induction ops generalizing u with
  | nil => exact ⟨u, rfl, rfl, hu, by simp⟩
  | cons id ops ih =>
    have hid := hops id mem_cons_self
    have hlacks : lacks (recounted c u) id = false := by
      by_cases hmem : id ∈ u <;> simp [lacks, recounted, hmem, counted_split hid]
    obtain ⟨w, hw, hnodup, hmem⟩ := countOp hd hu hid referenced
    obtain ⟨v, hv, hlater, hnodup', hmem'⟩ := ih hnodup fun i hi => hops i (mem_cons_of_mem _ hi)
    refine ⟨v, by rw [foldl_cons, hw, hv], by rw [loopLacks, hlacks, hw, hlater, Bool.and_false]; rfl, hnodup',
      fun i => ?_⟩
    rw [hmem', hmem]
    by_cases h : i = id <;> by_cases h' : i ∈ ops <;> simp [h, h']

theorem recounted_self : recounted c c.unrefOps = c := by rw [recounted, ← h.inflight]

omit h in
theorem pruneHandle (key : Nat) (hkey : get c.handles key = some ⟨b.wanted key, b.filed key⟩)
    (hview : ∀ k ≠ key, get c.handles k = b.entry k) :
    ∃ l, c.pruneHandle key = { c with handles := l } ∧ ∀ k, get l k = b.entry k := by
  by_cases hp : b.wanted key ∧ b.filed key = []
  · refine ⟨remove c.handles key, by simp [CoreRuntime.pruneHandle, hkey, hp], fun k => ?_⟩
    by_cases hk : k = key
    · simp [get_remove, hk, Books.entry, hp]
    · rw [get_remove, if_neg hk, hview k hk]
  · refine ⟨c.handles, by rw [CoreRuntime.pruneHandle, if_neg (by simpa [hkey] using hp)], fun k => ?_⟩
    by_cases hk : k = key
    · rw [hk, hkey, Books.entry, if_neg hp]
    · exact hview k hk

theorem setHandleRef (key : Nat) (referenced : Bool) :
    Agrees (c.setHandleRef key referenced) (b.note c.nextId (.setHandleRef key referenced)) := by
  let put' : CoreRuntime := { c with handles := put c.handles key ⟨referenced, b.filed key⟩ }
  obtain ⟨v, hv, -, hnodup, hmem⟩ := countOps (c := put') h.distinct referenced h.once
    fun id hid => (h.counts key id hid).1
  obtain ⟨l, hl, hview⟩ := pruneHandle (b := b.note c.nextId (.setHandleRef key referenced)) (c := recounted put' v) key
    (by simp [put', recounted, get_put, Books.note])
    fun k hk => by simpa [put', recounted, get_put, Books.note, Books.entry, hk] using h.view k
  have heq : c.setHandleRef key referenced = { recounted c v with handles := l } := by
    simp only [put', recounted, ← h.inflight] at hv
    simp only [CoreRuntime.setHandleRef, h.handle_eq, hv]
    exact hl
  rw [heq]
  refine ⟨h.distinct, h.fresh, rfl, hnodup, fun id hid => ?_, hview, h.filed, h.filedOnce, fun k id hid => ?_⟩
  · have hid := (hmem id).mp hid
    split at hid
    case isTrue hf => exact (h.counts key id hf).1
    case isFalse => exact h.unref id hid
  · have hold := h.counts k id hid
    refine ⟨hold.1, (hmem id).trans ?_⟩
    by_cases hk : k = key
    · subst hk
      have hf : id ∈ b.filed k := hid
      simp [hf, Books.note]
    · have hf : id ∉ b.filed key := fun hf => hk (h.filed_inj hid hf)
      simpa [hf, Books.note, hk] using hold.2

theorem forgetHandle (key : Nat) : Agrees (c.forgetHandle key) (b.note c.nextId (.forgetHandle key)) := by
  refine ⟨h.distinct, h.fresh, h.inflight, h.once, h.unref, fun k => ?_, fun id k => ?_, fun k => ?_,
    fun k id hid => ?_⟩
  · by_cases hk : k = key <;> simp [CoreRuntime.forgetHandle, get_remove, Books.note, Books.entry, hk, h.view]
  · have hold := h.filed id k
    simp only [CoreRuntime.forgetHandle, h.handle_eq, get_foldl_remove, Books.note]
    by_cases hk : k = key
    · subst hk
      by_cases hf : id ∈ b.filed k <;> simp [hf, hold]
    · by_cases hf : id ∈ b.filed key
      · have hnot : id ∉ b.filed k := fun hid => hk (h.filed_inj hid hf)
        simp [hf, hk, hnot]
      · simpa [hf, hk] using hold
  · by_cases hk : k = key <;> simp [Books.note, hk, h.filedOnce]
  · by_cases hk : k = key
    · simp [Books.note, hk] at hid
    · simpa [CoreRuntime.forgetHandle, Books.note, hk] using h.counts k id (by simpa [Books.note, hk] using hid)

theorem leaveHandle (id : Nat) (callback : Bool) :
    ∃ l m, c.leaveHandle id = { c with handles := l, opHandles := m } ∧
      (∀ k, get l k = (b.note c.nextId (.recv (.op id callback))).entry k) ∧
      ∀ i k, get m i = some k ↔ i ∈ (b.filed k).erase id := by
  cases hget : get c.opHandles id with
  | none =>
    have hkept : ∀ k, (b.filed k).erase id = b.filed k := fun k =>
      erase_of_not_mem fun hk => by simp [(h.filed id k).mpr hk] at hget
    refine ⟨c.handles, c.opHandles, by simp only [CoreRuntime.leaveHandle, hget], fun k => ?_, fun i k => ?_⟩
    · simp only [h.view, Books.entry, Books.note, hkept]
    · rw [hkept, h.filed]
  | some key =>
    have hkey := (h.filed id key).mp hget
    have hkept : ∀ k ≠ key, (b.filed k).erase id = b.filed k := fun k hk =>
      erase_of_not_mem fun hid => hk (h.filed_inj hid hkey)
    obtain ⟨l, hl, hview⟩ := pruneHandle (b := b.note c.nextId (.recv (.op id callback)))
      (c := { c with
        opHandles := remove c.opHandles id
        handles := adjust c.handles key fun h => { h with ops := h.ops.erase id } })
      key (by simp [get_adjust, h.view, Books.entry, Books.note, ne_nil_of_mem hkey])
      fun k hk => by simpa [get_adjust, Books.entry, Books.note, hk, hkept k hk] using h.view k
    refine ⟨l, remove c.opHandles id, by simpa only [CoreRuntime.leaveHandle, hget] using hl, hview, fun i k => ?_⟩
    rw [get_remove, (h.filedOnce k).mem_erase_iff, ← h.filed]
    by_cases hi : i = id <;> simp [hi]

theorem noteSettled {id : Nat} (hid : id ∈ c.running) (callback : Bool) :
    Agrees (c.noteSettled id) (b.note c.nextId (.recv (.op id callback))) := by
  obtain ⟨l, m, hleave, hview, hfiled⟩ := h.leaveHandle id callback
  have hsplit := h.inflight.trans (counted_split hid c.unrefOps)
  have hlive : ∀ i, i ∈ c.running.erase id ↔ i ≠ id ∧ i ∈ c.running := fun i => h.distinct.mem_erase_iff
  -- The op's own count goes; of the others neither the ref-ness nor the count changes.
  obtain ⟨v, heq, hnodup, hv⟩ : ∃ v, c.noteSettled id = { c with
        running := c.running.erase id, handles := l, opHandles := m, unrefOps := v,
        inflight := counted v (c.running.erase id) } ∧
      v.Nodup ∧ ∀ i, i ∈ v ↔ i ≠ id ∧ i ∈ c.unrefOps := by
    simp only [CoreRuntime.noteSettled, hleave]
    by_cases hu : id ∈ c.unrefOps
    · have hsame : counted (c.unrefOps.erase id) (c.running.erase id) = c.inflight := by
        rw [hsplit, if_pos hu]
        exact counted_erase h.distinct fun i hi => mem_erase_of_ne hi
      exact ⟨c.unrefOps.erase id, by simp [hu, hsame], h.once.erase id, fun i => h.once.mem_erase_iff⟩
    · rw [if_neg hu] at hsplit
      refine ⟨c.unrefOps, by simp [hu, hsplit], h.once, fun i => ?_⟩
      exact ⟨fun hi => ⟨fun he => hu (he ▸ hi), hi⟩, And.right⟩
  rw [heq]
  refine ⟨h.distinct.erase id, fun i hi => h.fresh i ((hlive i).mp hi).2, rfl, hnodup, fun i hi => ?_, hview, hfiled,
    fun k => (h.filedOnce k).erase id, fun k i hi => ?_⟩
  · exact (hlive i).mpr ⟨((hv i).mp hi).1, h.unref i ((hv i).mp hi).2⟩
  · obtain ⟨hne, hi⟩ := (h.filedOnce k).mem_erase_iff.mp hi
    have hold := h.counts k i hi
    exact ⟨(hlive i).mpr ⟨hne, hold.1⟩, ((hv i).trans (and_iff_right hne)).trans hold.2⟩

omit h in
theorem step {s : CoreRuntime × Books} (h : Agrees s.1 s.2) (m : Move) : Agrees (step s m).1 (step s m).2 := by
  cases m with
  | spawnOp => exact h.spawnOp
  | spawnOpUnref => exact h.spawnOpUnref
  | spawnHandleOp key => exact h.spawnHandleOp key
  | setHandleRef key referenced => exact h.setHandleRef key referenced
  | forgetHandle key => exact h.forgetHandle key
  | recv arrival =>
    cases arrival with
    | signal | wake => exact h
    | op id callback =>
      by_cases hid : id ∈ s.1.running
      · simpa [OpRefs.step, act, hid] using h.noteSettled hid callback
      have hkept : s.2.note s.1.nextId (.recv (.op id callback)) = s.2 := by
        have hnot : ∀ k, (s.2.filed k).erase id = s.2.filed k := fun k =>
          erase_of_not_mem fun hk => hid (h.counts k id hk).1
        simp only [Books.note, hnot]
      simpa [OpRefs.step, act, hid, hkept] using h

theorem underflows_eq_false (m : Move) : underflows c m = false := by
  cases m with
  | spawnOp | forgetHandle | spawnOpUnref => rfl
  | spawnHandleOp => exact Bool.and_false _
  | setHandleRef key referenced =>
    obtain ⟨v, -, hloop, -⟩ := countOps h.distinct referenced h.once fun id hid => (h.counts key id hid).1
    rw [h.recounted_self] at hloop
    rw [underflows, h.handle_eq]
    exact hloop
  | recv arrival =>
    cases arrival with
    | signal | wake => rfl
    | op id =>
      by_cases hid : id ∈ c.running
      · by_cases hmem : id ∈ c.unrefOps <;> simp [underflows, lacks, hmem, h.inflight, counted_split hid]
      · simp [underflows, hid]

end Agrees

theorem run_agrees {s : CoreRuntime × Books} (h : Agrees s.1 s.2) (moves : List Move) :
    Agrees (moves.foldl step s).1 (moves.foldl step s).2 := by
  induction moves generalizing s with
  | nil => exact h
  | cons m moves ih => exact ih (h.step m)

theorem new_agrees : Agrees .new {} := by
  constructor <;> simp [CoreRuntime.new, counted, Books.entry]

end Oam.Engine.OpRefs
