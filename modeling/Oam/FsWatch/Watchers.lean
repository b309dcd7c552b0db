/-
  Watchers are independent of each other.  Two tables mirror each other (`Mirrored`), and an `IN_IGNORED` that waits to
  be read is of a descriptor the kernel no longer has (`Sound.silent`).  Numbers begin anew with each instance, so a
  handle of an EARLIER one may detach another's watcher (`stale_handle_detaches_another`).
-/
import Oam.FsWatch.Inotify

namespace Oam.FsWatch

open List hiding get
open Text Assoc Trace

/-! ## The two tables -/

def Walk.numbers : Walk → List Nat
  | .done => []
  | .entry _ (.error _) below rest => below.numbers ++ rest.numbers
  | .entry _ (.ok n) below rest => n :: (below.numbers ++ rest.numbers)

def wdsIn (ws : List (Nat × Watcher)) (w : Nat) : List Nat := ((get ws w).map Watcher.wds).getD []

/-- The loop of `IN_IGNORED`. -/
def forgetIn (n : Nat) (users : List User) (ws : List (Nat × Watcher)) : List (Nat × Watcher) :=
  users.foldl (fun ws user => adjust ws user.watcher fun w => { w with wds := w.wds.filter (· ≠ n) }) ws

theorem mem_wdsIn_adjust (ws : List (Nat × Watcher)) (n w v m : Nat) :
    m ∈ wdsIn (adjust ws w fun x => { x with wds := x.wds.filter (· ≠ n) }) v ↔ m ∈ wdsIn ws v ∧ (v = w → m ≠ n) := by
  rw [wdsIn, get_adjust, wdsIn]
  by_cases hv : v = w
  · rw [if_pos hv]
    cases get ws v <;> simp [hv]
  · rw [if_neg hv]
    simp [hv]

theorem mem_wdsIn_forgetIn (n : Nat) (users : List User) (ws : List (Nat × Watcher)) (v m : Nat) :
    m ∈ wdsIn (forgetIn n users ws) v ↔ m ∈ wdsIn ws v ∧ ((∃ u ∈ users, u.watcher = v) → m ≠ n) := by
  induction users generalizing ws with
  | nil => simp [forgetIn]
  | cons user users ih =>
    rw [forgetIn, foldl_cons, ← forgetIn, ih, mem_wdsIn_adjust]
    constructor
    · rintro ⟨⟨hm, huser⟩, hrest⟩
      refine ⟨hm, ?_⟩
      rintro ⟨u, hu, rfl⟩
      rcases mem_cons.mp hu with rfl | hu
      · exact huser rfl
      · exact hrest ⟨u, hu, rfl⟩
    · rintro ⟨hm, hall⟩
      exact ⟨⟨hm, fun hv => hall ⟨user, mem_cons_self .., hv.symm⟩⟩, fun ⟨u, hu, hv⟩ =>
        hall ⟨u, mem_cons_of_mem _ hu, hv⟩⟩

theorem isSome_get_forgetIn (n : Nat) (users : List User) (ws : List (Nat × Watcher)) (v : Nat) :
    (get (forgetIn n users ws) v).isSome = (get ws v).isSome := by
  induction users generalizing ws with
  | nil => rfl
  | cons user users ih =>
    rw [forgetIn, foldl_cons, ← forgetIn, ih, get_adjust]
    split
    · rw [Option.isSome_map]
    · rfl

variable {inst : Instance} {fresh : Nat → Prop} {c : Start} {e : Event} {w n : Nat}

namespace Instance

structure Mirrored (inst : Instance) : Prop where
  mirror : ∀ n w, (∃ u ∈ inst.users n, u.watcher = w) ↔ n ∈ inst.wdsOf w
  /-- No watcher is served twice. -/
  once : ∀ n, ((inst.users n).map User.watcher).Nodup

theorem isSome_of_mem_wdsOf (h : n ∈ inst.wdsOf w) : (get inst.watchers w).isSome := by
  rw [wdsOf] at h
  cases hw : get inst.watchers w with
  | some => rfl
  | none =>
    rw [hw] at h
    cases h

/-- An instance that has only grown: by descriptors that `fresh` allows to be new to the kernel. -/
structure Grown (fresh : Nat → Prop) (inst inst' : Instance) : Prop where
  mirrored : inst.Mirrored → inst'.Mirrored
  keeps : ∀ w n, n ∈ inst.wdsOf w → n ∈ inst'.wdsOf w
  registered : ∀ w, (get inst'.watchers w).isSome = (get inst.watchers w).isSome
  queue : inst'.queue = inst.queue
  next : inst'.next = inst.next
  active : ∀ n ∈ inst'.active, n ∈ inst.active ∨ fresh n
  keepsActive : ∀ n ∈ inst.active, n ∈ inst'.active

theorem Grown.refl (fresh : Nat → Prop) (inst : Instance) : inst.Grown fresh inst :=
  ⟨id, fun _ _ h => h, fun _ => rfl, rfl, rfl, fun _ h => .inl h, fun _ h => h⟩

theorem Grown.trans {a b c : Instance} (h : a.Grown fresh b) (h' : b.Grown fresh c) : a.Grown fresh c where
  mirrored := fun hm => h'.mirrored (h.mirrored hm)
  keeps := fun w n hn => h'.keeps w n (h.keeps w n hn)
  registered := fun w => (h'.registered w).trans (h.registered w)
  queue := h'.queue.trans h.queue
  next := h'.next.trans h.next
  active := fun n hn => (h'.active n hn).elim (h.active n) .inr
  keepsActive := fun n hn => h'.keepsActive n (h.keepsActive n hn)

/-! ### Attaching -/

theorem link_grown (under : Str) (hw : (get inst.watchers w).isSome)
    (hn : n ∈ inst.active ∨ fresh n) : inst.Grown fresh (inst.link w under n) := by
  have hactive : ∀ m ∈ n :: inst.active, m ∈ inst.active ∨ fresh m := by
    intro m hm
    rcases mem_cons.mp hm with rfl | hm
    · exact hn
    · exact .inl hm
  cases hnew : (inst.users n).any (·.watcher = w) with
  | true =>
    rw [link, if_pos hnew]
    exact ⟨fun h => ⟨h.mirror, h.once⟩, fun _ _ h => h, fun _ => rfl, rfl, rfl, hactive,
      fun _ h => mem_cons_of_mem _ h⟩
  | false =>
    have husers (m : Nat) : (inst.link w under n).users m =
        if m = n then inst.users n ++ [⟨w, under⟩] else inst.users m := by
      rw [link, if_neg (by rw [hnew]; decide), users, get_put, apply_ite (Option.getD · [])]
      rfl
    have hwds (v : Nat) : (inst.link w under n).wdsOf v = if v = w then inst.wdsOf v ++ [n] else inst.wdsOf v := by
      rw [link, if_neg (by rw [hnew]; decide), wdsOf, get_adjust]
      by_cases hv : v = w
      · subst hv
        rw [if_pos rfl, if_pos rfl, wdsOf]
        cases hx : get inst.watchers v with
        | none =>
          rw [hx] at hw
          cases hw
        | some => rfl
      · rw [if_neg hv, if_neg hv]
        rfl
    have hnone : ∀ u ∈ inst.users n, u.watcher ≠ w := by
      intro u hu he
      have htrue : (inst.users n).any (·.watcher = w) := List.any_eq_true.mpr ⟨u, hu, by simpa using he⟩
      rw [hnew] at htrue
      cases htrue
    have hlink : inst.link w under n = { inst with
          active := n :: inst.active
          wds := put inst.wds n (inst.users n ++ [⟨w, under⟩])
          watchers := adjust inst.watchers w fun x => { x with wds := x.wds ++ [n] } } := by
      rw [link, if_neg (by rw [hnew]; decide)]
    refine ⟨fun h => ⟨fun m v => ?_, fun m => ?_⟩, fun v m hm => ?_, fun v => ?_, by rw [hlink], by rw [hlink],
      by rw [hlink]; exact hactive, by rw [hlink]; exact fun _ h => mem_cons_of_mem _ h⟩
    · rw [husers m, hwds v]
      by_cases hm : m = n
      · subst hm
        rw [if_pos rfl]
        by_cases hv : v = w
        · subst hv
          rw [if_pos rfl]
          exact iff_of_true ⟨⟨v, under⟩, by simp, rfl⟩ (by simp)
        · rw [if_neg hv, ← h.mirror m v]
          constructor
          · rintro ⟨u, hu, rfl⟩
            rcases mem_append.mp hu with hu | hu
            · exact ⟨u, hu, rfl⟩
            · rw [mem_singleton.mp hu] at hv
              exact absurd rfl hv
          · rintro ⟨u, hu, rfl⟩
            exact ⟨u, mem_append_left _ hu, rfl⟩
      · rw [if_neg hm, h.mirror m v]
        by_cases hv : v = w
        · rw [if_pos hv]
          simp [hm]
        · rw [if_neg hv]
    · rw [husers m]
      by_cases hm : m = n
      · rw [if_pos hm, map_append]
        refine nodup_append.mpr ⟨h.once n, by simp, ?_⟩
        rintro a ha b hb rfl
        obtain ⟨u, hu, rfl⟩ := mem_map.mp ha
        exact hnone u hu (by simpa using hb)
      · rw [if_neg hm]
        exact h.once m
    · rw [hwds v]
      split
      · exact mem_append_left _ hm
      · exact hm
    · rw [hlink, get_adjust]
      split
      · rw [Option.isSome_map]
      · rfl

/-- What the kernel may answer: a descriptor it has, or a fresh one. -/
def Allows (fresh : Nat → Prop) (inst : Instance) (ns : List Nat) : Prop := ∀ n ∈ ns, n ∈ inst.active ∨ fresh n

theorem Allows.grown {inst' : Instance} {ns : List Nat} (h : inst.Allows fresh ns)
    (hgrown : inst.Grown fresh inst') : inst'.Allows fresh ns := fun m hm => (h m hm).imp (hgrown.keepsActive m) id

theorem attachTree_grown {under : Str} {walk : Walk} (hw : (get inst.watchers w).isSome)
    (hns : inst.Allows fresh walk.numbers) : inst.Grown fresh (inst.attachTree w under walk) := by
  induction walk generalizing inst under with
  | done => exact .refl fresh inst
  | entry name answer below rest ihBelow ihRest =>
    cases answer with
    | error => exact ihRest hw fun m hm => hns m (mem_append_right _ hm)
    | ok n =>
      have hbelow : inst.Allows fresh below.numbers := fun m hm =>
        hns m (mem_cons_of_mem _ (mem_append_left _ hm))
      have hrest : inst.Allows fresh rest.numbers := fun m hm =>
        hns m (mem_cons_of_mem _ (mem_append_right _ hm))
      have hlink := link_grown (PosixPath.push under name) hw (hns n (mem_cons_self ..))
      have hw' := (hlink.registered w).trans hw
      have hinner := hlink.trans (@ihBelow _ (PosixPath.push under name) hw' (hbelow.grown hlink))
      exact hinner.trans (ihRest ((hinner.registered w).trans hw) (hrest.grown hinner))

theorem attachAll_grown (hw : (get inst.watchers w).isSome)
    (hns : inst.Allows fresh (n :: c.tree.numbers)) : inst.Grown fresh (inst.attachAll w c n) := by
  have hlink := link_grown [] hw (hns n (mem_cons_self ..))
  have htree : inst.Allows fresh c.tree.numbers := fun m hm => hns m (mem_cons_of_mem _ hm)
  rw [attachAll]
  split
  · exact hlink.trans (attachTree_grown ((hlink.registered w).trans hw) (htree.grown hlink))
  · exact hlink

theorem grow_grown (user : User) {walk : Walk} (hns : inst.Allows fresh walk.numbers) :
    inst.Grown fresh (inst.grow user walk) := by
  cases walk with
  | done => exact .refl fresh inst
  | entry name answer below =>
    cases answer with
    | error => exact .refl fresh inst
    | ok n =>
      rw [grow]
      split
      · next hw =>
        have hlink := link_grown user.under hw (hns n (mem_cons_self ..))
        have hbelow : inst.Allows fresh below.numbers := fun m hm =>
          hns m (mem_cons_of_mem _ (mem_append_left _ hm))
        exact hlink.trans (attachTree_grown ((hlink.registered _).trans hw) (hbelow.grown hlink))
      · exact .refl fresh inst

theorem growAll_grown {growth : List (User × Walk)}
    (hns : ∀ g ∈ growth, inst.Allows fresh g.2.numbers) : inst.Grown fresh (inst.growAll growth) := by
  induction growth generalizing inst with
  | nil => exact .refl fresh inst
  | cons g growth ih =>
    have hgrow := grow_grown g.1 (hns g (mem_cons_self ..))
    exact hgrow.trans (ih fun g' hg' => (hns g' (mem_cons_of_mem _ hg')).grown hgrow)

/-! ### Detaching -/

theorem users_unlink (inst : Instance) (w n m : Nat) :
    (inst.unlink w n).users m = if m = n then (inst.users n).filter (·.watcher ≠ w) else inst.users m := by
  rw [unlink]
  cases hn : get inst.wds n with
  | none =>
    by_cases hm : m = n
    · subst hm
      rw [if_pos rfl, users, hn]
      rfl
    · rw [if_neg hm]
  | some us =>
    have husers : inst.users n = us := by rw [users, hn]; rfl
    rw [husers]
    dsimp only
    split
    · next hempty =>
      rw [users, get_remove, apply_ite (Option.getD · []), List.isEmpty_iff.mp hempty]
      rfl
    · rw [users, get_put, apply_ite (Option.getD · [])]
      rfl

theorem kernelRemove_watchers (inst : Instance) (n : Nat) : (inst.kernelRemove n).watchers = inst.watchers := by
  rw [kernelRemove]
  split <;> rfl

/-- The loop of `detach`. -/
def unlinkAll (inst : Instance) (w : Nat) (ns : List Nat) : Instance := ns.foldl (fun i n => i.unlink w n) inst

theorem users_unlinkAll (inst : Instance) (w : Nat) (ns : List Nat) (m : Nat) :
    (inst.unlinkAll w ns).users m = if m ∈ ns then (inst.users m).filter (·.watcher ≠ w) else inst.users m := by
  induction ns generalizing inst with
  | nil => rfl
  | cons n ns ih =>
    rw [unlinkAll, foldl_cons, ← unlinkAll, ih, users_unlink]
    by_cases hm : m = n
    · subst hm
      simp [filter_filter]
    · simp [hm]

theorem unlinkAll_keeps {P : Instance → Prop} (hwds : ∀ i wds, P i → P { i with wds := wds })
    (hremove : ∀ i n, P i → P (kernelRemove i n)) (w : Nat) (ns : List Nat) (h : P inst) : P (inst.unlinkAll w ns) := by
  have hunlink : ∀ (i : Instance) (n : Nat), P i → P (i.unlink w n) := by
    intro i n hi
    rw [unlink]
    cases get i.wds n with
    | none => exact hi
    | some =>
      dsimp only
      split
      · exact hwds _ _ (hremove _ _ hi)
      · exact hwds _ _ hi
  induction ns generalizing inst with
  | nil => exact h
  | cons n ns ih => exact ih (hunlink inst n h)

theorem unlinkAll_watchers (inst : Instance) (w : Nat) (ns : List Nat) :
    (inst.unlinkAll w ns).watchers = inst.watchers :=
  unlinkAll_keeps (P := fun i => i.watchers = inst.watchers) (fun _ _ h => h)
    (fun i n h => (i.kernelRemove_watchers n).trans h) w ns rfl

theorem detach_of_none (h : get inst.watchers w = none) : inst.detach w = inst := by
  rw [detach, h]

theorem detach_of_some {x : Watcher} (h : get inst.watchers w = some x) :
    inst.detach w = unlinkAll { inst with watchers := remove inst.watchers w } w (inst.wdsOf w) := by
  rw [detach, h, wdsOf, h]
  rfl

theorem detach_keeps {P : Instance → Prop} (hwds : ∀ i wds, P i → P { i with wds := wds })
    (hremove : ∀ i n, P i → P (kernelRemove i n)) (hwatchers : P { inst with watchers := remove inst.watchers w })
    (h : P inst) : P (inst.detach w) := by
  cases hx : get inst.watchers w with
  | none =>
    rw [detach_of_none hx]
    exact h
  | some =>
    rw [detach_of_some hx]
    exact unlinkAll_keeps hwds hremove w _ hwatchers

theorem get_watchers_detach (inst : Instance) (w v : Nat) :
    get (inst.detach w).watchers v = if v = w then none else get inst.watchers v := by
  cases hx : get inst.watchers w with
  | none =>
    rw [detach_of_none hx]
    split
    · next hv => rw [hv, hx]
    · rfl
  | some => rw [detach_of_some hx, unlinkAll_watchers, get_remove]

/-- **What a detach takes away**: the watcher's own list, and no other. -/
theorem mem_wdsOf_detach (inst : Instance) (w v n : Nat) : n ∈ (inst.detach w).wdsOf v ↔ n ∈ inst.wdsOf v ∧ v ≠ w := by
  rw [wdsOf, get_watchers_detach]
  by_cases hv : v = w
  · rw [if_pos hv]
    simp [hv]
  · rw [if_neg hv]
    simp [hv, wdsOf]

theorem detach_mirrored (h : inst.Mirrored) (w : Nat) : (inst.detach w).Mirrored := by
  cases hx : get inst.watchers w with
  | none =>
    rw [detach_of_none hx]
    exact h
  | some =>
    have husers : ∀ n, (inst.detach w).users n =
        if n ∈ inst.wdsOf w then (inst.users n).filter (·.watcher ≠ w) else inst.users n := by
      intro n
      rw [detach_of_some hx]
      exact users_unlinkAll _ w _ n
    refine ⟨fun n v => ?_, fun n => ?_⟩
    · rw [mem_wdsOf_detach, ← h.mirror n v, husers n]
      by_cases hn : n ∈ inst.wdsOf w
      · rw [if_pos hn]
        constructor
        · rintro ⟨u, hu, rfl⟩
          obtain ⟨hu, hne⟩ := mem_filter.mp hu
          exact ⟨⟨u, hu, rfl⟩, by simpa using hne⟩
        · rintro ⟨⟨u, hu, rfl⟩, hne⟩
          exact ⟨u, mem_filter.mpr ⟨hu, by simpa using hne⟩, rfl⟩
      · rw [if_neg hn]
        refine ⟨fun hserved => ⟨hserved, ?_⟩, And.left⟩
        rintro rfl
        exact hn ((h.mirror n v).mp hserved)
    · rw [husers n]
      split
      · exact (h.once n).sublist ((filter_sublist).map _)
      · exact h.once n

/-! ### What the kernel drops -/

/-- **What an `IN_IGNORED` takes away**: its descriptor, from every list. -/
theorem mem_wdsOf_forget (h : inst.Mirrored) (n v m : Nat) :
    m ∈ (inst.forget n).wdsOf v ↔ m ∈ inst.wdsOf v ∧ m ≠ n := by
  show m ∈ wdsIn (forgetIn n (inst.users n) inst.watchers) v ↔ m ∈ wdsIn inst.watchers v ∧ m ≠ n
  rw [mem_wdsIn_forgetIn]
  refine and_congr_right fun hm => ⟨fun hserved => ?_, fun hne _ => hne⟩
  rintro rfl
  exact hserved ((h.mirror m v).mpr hm) rfl

theorem forget_mirrored (h : inst.Mirrored) (n : Nat) : (inst.forget n).Mirrored := by
  have husers : ∀ m, (inst.forget n).users m = if m = n then [] else inst.users m := by
    intro m
    show (get (remove inst.wds n) m).getD [] = _
    rw [get_remove]
    split
    · rfl
    · rfl
  refine ⟨fun m v => ?_, fun m => ?_⟩
  · rw [mem_wdsOf_forget h, ← h.mirror m v, husers m]
    by_cases hm : m = n
    · simp [hm]
    · simp [hm]
  · rw [husers m]
    split
    · exact nodup_nil
    · exact h.once m

/-! ## What holds at every moment -/

/-- An `IN_IGNORED` that waits to be read is of a descriptor the kernel no longer has. -/
def Silent (inst : Instance) : Prop :=
  ∀ e ∈ inst.queue, e.has inIgnored = true → e.has inQOverflow = false → e.wd ∉ inst.active

structure Sound (inst : Instance) : Prop where
  mirrored : inst.Mirrored
  bounded : ∀ w, (get inst.watchers w).isSome = true → w ≤ inst.next
  silent : inst.Silent

def unread (inst : Instance) (n : Nat) : Prop := ∀ e ∈ inst.queue, e.wd ≠ n

variable (h : inst.Sound)

include h

theorem Sound.grown {inst' : Instance} (hgrown : inst.Grown inst.unread inst') :
    inst'.Sound where
  mirrored := hgrown.mirrored h.mirrored
  bounded := fun w hw => by
    rw [hgrown.registered w] at hw
    rw [hgrown.next]
    exact h.bounded w hw
  silent := fun e he hignored hoverflow hactive => by
    rw [hgrown.queue] at he
    rcases hgrown.active _ hactive with hwas | hfresh
    · exact h.silent e he hignored hoverflow hwas
    · exact hfresh e he rfl

omit h in
theorem Sound.new : new.Sound where
  mirrored := ⟨fun n w => by simp [users, wdsOf, Instance.new], fun n => nodup_nil⟩
  bounded := fun w hw => by cases hw
  silent := fun e he => by cases he

theorem Sound.popped {queue : List Event} (hqueue : inst.queue = e :: queue) :
    Sound { inst with queue := queue } where
  mirrored := ⟨h.mirrored.mirror, h.mirrored.once⟩
  bounded := h.bounded
  silent := fun e' he' => h.silent e' (hqueue ▸ mem_cons_of_mem _ he')

omit h in
theorem Silent.kernelRemove (h : inst.Silent) (n : Nat) : (inst.kernelRemove n).Silent := by
  rw [Instance.kernelRemove]
  split
  · intro e he hignored hoverflow hactive
    obtain ⟨hactive, hne⟩ := mem_filter.mp hactive
    rcases mem_append.mp he with he | he
    · exact h e he hignored hoverflow hactive
    · rw [mem_singleton.mp he] at hne
      simp [ignored] at hne
  · exact h

theorem Sound.detach (w : Nat) : (inst.detach w).Sound := by
  refine ⟨detach_mirrored h.mirrored w, fun v hv => ?_, ?_⟩
  · rw [get_watchers_detach] at hv
    have hle : v ≤ inst.next := by
      by_cases hvw : v = w
      · rw [if_pos hvw] at hv
        cases hv
      · rw [if_neg hvw] at hv
        exact h.bounded v hv
    have hnext : (inst.detach w).next = inst.next :=
      detach_keeps (P := fun i => i.next = inst.next) (fun _ _ h => h) (fun i n h => by
        rw [Instance.kernelRemove]
        split <;> exact h) rfl rfl
    rw [hnext]
    exact hle
  · exact detach_keeps (fun _ _ h => h) (fun _ n h => h.kernelRemove n) h.silent h.silent

theorem Sound.forget (n : Nat) : (inst.forget n).Sound where
  mirrored := forget_mirrored h.mirrored n
  bounded := fun w hw => h.bounded w (by rwa [← isSome_get_forgetIn n (inst.users n)])
  silent := h.silent

theorem wdsOf_enroll (c : Start) (w : Nat) : (inst.enroll c).wdsOf w = inst.wdsOf w := by
  rw [wdsOf, enroll, get_put]
  by_cases hw : w = inst.next + 1
  · rw [if_pos hw, wdsOf]
    cases hx : get inst.watchers w with
    | none => rfl
    | some =>
      have := h.bounded w (by rw [hx]; rfl)
      omega
  · rw [if_neg hw]
    rfl

theorem Sound.enroll (c : Start) : (inst.enroll c).Sound where
  mirrored := ⟨fun n w => by rw [wdsOf_enroll h]; exact h.mirrored.mirror n w, h.mirrored.once⟩
  bounded := fun w hw => by
    rw [Instance.enroll, get_put] at hw
    show w ≤ inst.next + 1
    by_cases hid : w = inst.next + 1
    · omega
    · rw [if_neg hid] at hw
      have := h.bounded w hw
      omega
  silent := h.silent

theorem Sound.emit (e : Event) : (emit inst e).Sound := by
  rw [FsWatch.emit]
  split
  · next hemit =>
    refine ⟨⟨h.mirrored.mirror, h.mirrored.once⟩, h.bounded, fun e' he' hignored hoverflow => ?_⟩
    rcases mem_append.mp he' with he' | he'
    · exact h.silent e' he' hignored hoverflow
    · -- the kernel's own events are not `IN_IGNORED`
      rw [mem_singleton.mp he'] at hignored hoverflow
      rcases hemit with ⟨-, hno⟩ | hmask
      · rw [hno] at hignored
        cases hignored
      · rw [Event.has, hmask] at hoverflow
        cases hoverflow
  · exact h

theorem Sound.inodeGone (n : Nat) (lost : Bool) : (inodeGone inst n lost).Sound := by
  rw [FsWatch.inodeGone]
  split
  · refine ⟨⟨h.mirrored.mirror, h.mirrored.once⟩, h.bounded, fun e he hignored hoverflow hactive => ?_⟩
    exact h.silent e he hignored hoverflow (mem_filter.mp hactive).1
  rw [kernelRemove]
  split
  · refine ⟨⟨h.mirrored.mirror, h.mirrored.once⟩, h.bounded, ?_⟩
    have hsilent := h.silent.kernelRemove n
    rwa [kernelRemove, if_pos ‹_›] at hsilent
  · exact h

omit h

/-! ## What one step may take -/

/-- The kernel answers with descriptors it has, or that no unread event is of. -/
def mayAnswer (inst : Instance) (ns : List Nat) : Bool :=
  ns.all fun n => decide (n ∈ inst.active) || inst.queue.all (·.wd ≠ n)

theorem allows_of_mayAnswer {ns : List Nat} (h : inst.mayAnswer ns) : inst.Allows inst.unread ns := by
  intro n hn
  have := all_eq_true.mp h n hn
  simpa [unread] using this

/-- Every user of its descriptor has a name for the event. -/
def nameable (inst : Instance) (e : Event) : Bool :=
  e.has inQOverflow || (inst.users e.wd).all fun user =>
    (get inst.watchers user.watcher).all fun w => (filenameFor w user e.name).isSome

end Instance

open Instance

/-- The condition on a step: a stale handle's number is not in use, every user has a name for the event, and the kernel
    hands out no number that unread events are of. -/
def careful (s : State) : Act → Bool
  | .watch c =>
    match c.answer with
    | .ok n => s.instance.mayAnswer (n :: c.tree.numbers)
    | .error _ => true
  | .drop i =>
    match s.handles[i]?, s.slot with
    | some h, some inst => decide (h.of = s.opened) || (get inst.watchers h.id).isNone
    | _, _ => true
  | .read found =>
    match s.slot.map queue, s.slot with
    | some (e :: queue), some inst =>
      mayAnswer { inst with queue := queue } (found.flatMap Walk.numbers) && inst.nameable e
    | _, _ => true
  | _ => true

def State.users (s : State) (n : Nat) : List User := (s.slot.map fun inst => inst.users n).getD []

def State.wdsOf (s : State) (w : Nat) : List Nat := (s.slot.map fun inst => inst.wdsOf w).getD []

def State.txOf (s : State) (w : Nat) : Option Sender := s.slot.bind fun inst => (get inst.watchers w).map Watcher.tx

def State.active (s : State) : List Nat := (s.slot.map Instance.active).getD []

def State.queue (s : State) : List Event := (s.slot.map Instance.queue).getD []

def State.Sound (s : State) : Prop := ∀ inst, s.slot = some inst → inst.Sound

/-- A watcher is in a descriptor's user list exactly when the descriptor is in the watcher's own list. -/
def State.Mirrored (s : State) : Prop := ∀ n w, (∃ u ∈ s.users n, u.watcher = w) ↔ n ∈ s.wdsOf w

/-- An event of a descriptor is sent to each of its users, once, and to nobody else; no other step sends one. -/
def Delivers (s : State) (a : Act) : Prop :=
  (∀ e queue found, a = .read found → s.queue = e :: queue → e.has inQOverflow = false →
    (step s a).2.map (fun x => some x.1) = (s.users e.wd).map (fun u => s.txOf u.watcher) ∧
      ((s.users e.wd).map User.watcher).Nodup ∧
      ∀ x ∈ (step s a).2, ∃ filename, x.2 = .event e.kind (some filename) (some (e.wd, e.mask, e.cookie))) ∧
  ((∀ found, a ≠ .read found) → ∀ x ∈ (step s a).2, ∀ kind filename raw, x.2 ≠ .event kind filename (some raw))

/-- A handle's drop detaches the watch that gave the handle, and no other. -/
def DetachesOwn (s : State) (a : Act) : Prop :=
  ∀ i h, a = .drop i → s.handles[i]? = some h →
    ∀ w n, n ∈ (step s a).1.wdsOf w ↔ n ∈ s.wdsOf w ∧ ¬(h.of = s.opened ∧ h.id = w)

/-- A watcher loses a descriptor only to its own handle's drop, to the kernel, or with the whole instance. -/
def Keeps (s : State) (a : Act) : Prop :=
  ∀ w n, n ∈ s.wdsOf w → n ∈ (step s a).1.wdsOf w ∨ n ∉ s.active ∨
    (∃ i, a = .drop i ∧ s.handles[i]? = some ⟨w, s.opened⟩) ∨ ∃ error, a = .readFails error

variable {s : State}

theorem State.Sound.mirrored (h : s.Sound) : s.Mirrored := by
  intro n w
  rw [State.users, State.wdsOf]
  cases hslot : s.slot with
  | none => simp
  | some inst => exact (h inst hslot).mirrored.mirror n w

theorem State.mem_wdsOf : n ∈ s.wdsOf w ↔ ∃ inst, s.slot = some inst ∧ n ∈ inst.wdsOf w := by
  rw [State.wdsOf]
  cases s.slot <;> simp

theorem sound_map (h : s.Sound) {f : Instance → Instance}
    (hf : ∀ inst : Instance, inst.Sound → (f inst).Sound) : ∀ inst, s.slot.map f = some inst → inst.Sound := by
  intro inst hinst
  obtain ⟨inst', hslot, rfl⟩ := Option.map_eq_some_iff.mp hinst
  exact hf inst' (h inst' hslot)

theorem State.Sound.instance (h : s.Sound) : s.instance.Sound := by
  rw [State.instance]
  cases hslot : s.slot with
  | none => exact Sound.new
  | some inst => exact h inst hslot

theorem attachAll_enroll_grown (hanswer : inst.mayAnswer (n :: c.tree.numbers)) :
    (inst.enroll c).Grown inst.unread ((inst.enroll c).attachAll (inst.next + 1) c n) := by
  apply attachAll_grown
  · rw [enroll, get_put, if_pos rfl]
    rfl
  · exact allows_of_mayAnswer hanswer

theorem watch_cases (hcareful : careful s (.watch c)) : ((watch s c).1.slot = s.slot) ∨
    (∃ inst, s.slot = some inst ∧ (watch s c).1.slot = some ((inst.enroll c).detach (inst.next + 1))) ∨ ∃ n,
    s.instance.mayAnswer (n :: c.tree.numbers) ∧ (watch s c).1.slot = some
    ((s.instance.enroll c).attachAll (s.instance.next + 1) c n) := by
  cases hanswer : c.answer with
  | error =>
    cases hslot : s.slot with
    | none =>
      left
      cases hinit : c.init <;> simp only [watch, hslot, hinit, hanswer, Option.map_none]
    | some inst =>
      right
      left
      exact ⟨inst, rfl, by simp only [watch, hslot, hanswer, Option.map_some]⟩
  | ok n =>
    have hmay : s.instance.mayAnswer (n :: c.tree.numbers) := by
      rw [careful, hanswer] at hcareful
      exact hcareful
    cases hslot : s.slot with
    | none =>
      cases hinit : c.init with
      | some =>
        left
        simp only [watch, hslot, hinit]
      | none =>
        cases hspawn : c.spawn with
        | some =>
          left
          simp only [watch, hslot, hinit, hanswer, hspawn]
        | none =>
          right
          right
          exact ⟨n, hmay, by simp only [watch, hslot, hinit, hanswer, hspawn]⟩
    | some =>
      right
      right
      exact ⟨n, hmay, by simp only [watch, hslot, hanswer]⟩

theorem watch_sound (h : s.Sound) (hcareful : careful s (.watch c)) : (watch s c).1.Sound := by
  intro inst' hinst'
  rcases watch_cases hcareful with hsame | ⟨inst, hslot, hgone⟩ | ⟨n, hmay, hnew⟩
  · exact h inst' (hsame ▸ hinst')
  · rw [hgone] at hinst'
    obtain rfl := Option.some.inj hinst'
    exact ((h inst hslot).enroll c).detach _
  · rw [hnew] at hinst'
    obtain rfl := Option.some.inj hinst'
    exact (h.instance.enroll c).grown (attachAll_enroll_grown hmay)

theorem watch_keeps (h : s.Sound) (hcareful : careful s (.watch c)) (hn : n ∈ s.wdsOf w) :
    n ∈ (watch s c).1.wdsOf w := by
  obtain ⟨inst, hslot, hmem⟩ := State.mem_wdsOf.mp hn
  have henroll : n ∈ (inst.enroll c).wdsOf w := by rwa [wdsOf_enroll (h inst hslot)]
  rcases watch_cases hcareful with hsame | ⟨_, hslot', hgone⟩ | ⟨m, hmay, hnew⟩
  · exact State.mem_wdsOf.mpr ⟨inst, hsame.trans hslot, hmem⟩
  · obtain rfl := Option.some.inj (hslot.symm.trans hslot')
    refine State.mem_wdsOf.mpr ⟨_, hgone, (mem_wdsOf_detach _ _ _ _).mpr ⟨henroll, ?_⟩⟩
    have := (h inst hslot).bounded w (isSome_of_mem_wdsOf hmem)
    omega
  · have hinst : s.instance = inst := by rw [State.instance, hslot]; rfl
    rw [hinst] at hmay hnew
    exact State.mem_wdsOf.mpr ⟨_, hnew, (attachAll_enroll_grown hmay).keeps w n henroll⟩

/-! ### The reader -/

variable {found : List Walk}

/-- What an event does to the instance: an `IN_IGNORED` takes its descriptor, a new directory adds to it. -/
theorem dispatch_cases (hmay : inst.mayAnswer (found.flatMap Walk.numbers)) :
    inst.Grown inst.unread (inst.dispatch e found).1 ∨ (e.has inIgnored ∧ e.has inQOverflow = false ∧
        (inst.forget e.wd).Grown inst.unread (inst.dispatch e found).1) := by
  have hallows : ∀ g ∈ (inst.growth e).zip found, inst.Allows inst.unread g.2.numbers := by
    intro g hg m hm
    refine allows_of_mayAnswer hmay m (mem_flatMap.mpr ⟨g.2, ?_, hm⟩)
    exact (of_mem_zip hg).2
  rw [dispatch]
  split
  · exact .inl (.refl _ _)
  next hoverflow =>
  cases get inst.wds e.wd with
  | none => exact .inl (.refl _ _)
  | some =>
    dsimp only
    split
    · next hignored =>
      refine .inr ⟨hignored, by simpa using hoverflow, growAll_grown ?_⟩
      -- the kernel's side is as it was
      exact hallows
    · exact .inl (growAll_grown hallows)

theorem dispatch_sound (h : inst.Sound) (hmay : inst.mayAnswer (found.flatMap Walk.numbers)) :
    (inst.dispatch e found).1.Sound := by
  rcases dispatch_cases hmay with hgrown | ⟨-, -, hgrown⟩
  · exact h.grown hgrown
  · exact (h.forget e.wd).grown hgrown

theorem dispatch_delivers (h : inst.Mirrored) (hoverflow : e.has inQOverflow = false)
    (hname : inst.nameable e) : (inst.dispatch e found).2.map (fun x => some x.1) = (inst.users e.wd).map
    (fun u => (get inst.watchers u.watcher).map Watcher.tx) ∧ ∀ x ∈ (inst.dispatch e found).2, ∃ filename, x.2 =
    .event e.kind (some filename) (some (e.wd, e.mask, e.cookie)) := by
  have hall : ∀ u ∈ inst.users e.wd, ∃ x filename, get inst.watchers u.watcher = some x ∧
      inst.noteFor e u = some (x.tx, .event e.kind (some filename) (some (e.wd, e.mask, e.cookie))) := by
    intro u hu
    rw [nameable, hoverflow, Bool.false_or] at hname
    have hnamed := all_eq_true.mp hname u hu
    -- a user is registered, since its watcher lists the descriptor
    obtain ⟨x, hx⟩ := Option.isSome_iff_exists.mp <| isSome_of_mem_wdsOf <| (h.mirror _ _).mp ⟨u, hu, rfl⟩
    rw [hx] at hnamed
    obtain ⟨filename, hfilename⟩ := Option.isSome_iff_exists.mp hnamed
    exact ⟨x, filename, hx, by rw [noteFor, hx, Option.bind_some, hfilename]; rfl⟩
  have hlog : (inst.dispatch e found).2 = (inst.users e.wd).filterMap (inst.noteFor e) := by
    rw [dispatch, if_neg (by rw [hoverflow]; decide), users]
    cases get inst.wds e.wd with
    | none | some => rfl
  rw [hlog]
  generalize inst.users e.wd = users at hall
  constructor
  · induction users with
    | nil => rfl
    | cons u users ih =>
      obtain ⟨x, filename, hx, hnote⟩ := hall u (mem_cons_self ..)
      rw [filterMap_cons_some hnote, map_cons, map_cons, hx,
        ih fun u' hu' => hall u' (mem_cons_of_mem _ hu')]
      rfl
  · intro x hx
    obtain ⟨u, hu, hnote⟩ := mem_filterMap.mp hx
    obtain ⟨y, filename, -, hnote'⟩ := hall u hu
    rw [hnote, Option.some.injEq] at hnote'
    exact ⟨filename, by rw [hnote']⟩

theorem careful_read (h : careful s (.read found)) {queue : List Event} (hslot : s.slot = some inst)
    (hqueue : inst.queue = e :: queue) :
    mayAnswer { inst with queue := queue } (found.flatMap Walk.numbers) ∧ inst.nameable e := by
  rw [careful, hslot, Option.map_some, hqueue] at h
  exact Bool.and_eq_true_iff.mp h

theorem readEvent_of_cons {queue : List Event} (hslot : s.slot = some inst) (hqueue : inst.queue = e :: queue)
    (found : List Walk) :
    readEvent s found = ({ s with slot := some (dispatch { inst with queue := queue } e found).1 },
      (dispatch { inst with queue := queue } e found).2) := by
  simp only [readEvent, hslot, hqueue]

theorem readEvent_cases (s : State) (found : List Walk) :
    readEvent s found = (s, []) ∨ ∃ inst e queue, s.slot = some inst ∧ inst.queue = e :: queue := by
  rw [readEvent]
  cases hslot : s.slot with
  | none => exact .inl rfl
  | some inst =>
    cases hqueue : inst.queue with
    | nil => exact .inl (by simp only [hqueue])
    | cons e queue => exact .inr ⟨inst, e, queue, rfl, hqueue⟩

theorem read_sound (h : s.Sound) (hcareful : careful s (.read found)) : (readEvent s found).1.Sound := by
  rcases readEvent_cases s found with hsame | ⟨inst, e, _, hslot, hqueue⟩
  · rw [hsame]
    exact h
  · obtain ⟨hmay, -⟩ := careful_read hcareful hslot hqueue
    rw [readEvent_of_cons hslot hqueue]
    intro inst' hinst'
    obtain rfl := Option.some.inj hinst'
    exact dispatch_sound ((h inst hslot).popped hqueue) hmay

theorem read_keeps (h : s.Sound) (hcareful : careful s (.read found)) (hn : n ∈ s.wdsOf w) :
    n ∈ (readEvent s found).1.wdsOf w ∨ n ∉ s.active := by
  rcases readEvent_cases s found with hsame | ⟨inst, e, _, hslot, hqueue⟩
  · rw [hsame]
    exact .inl hn
  · obtain ⟨hmay, -⟩ := careful_read hcareful hslot hqueue
    rw [State.wdsOf, hslot] at hn
    rw [readEvent_of_cons hslot hqueue]
    rcases dispatch_cases (e := e) hmay with hgrown | ⟨hignored, hoverflow, hgrown⟩
    · exact .inl (hgrown.keeps w n hn)
    · by_cases hne : n = e.wd
      · right
        rw [State.active, hslot, hne]
        exact (h inst hslot).silent e (hqueue ▸ mem_cons_self ..) hignored hoverflow
      · have hsound := (h inst hslot).popped hqueue
        exact .inl (hgrown.keeps w n ((mem_wdsOf_forget hsound.mirrored _ _ _).mpr ⟨hn, hne⟩))

/-! ## Every run -/

theorem batchDone_keeps (h : s.Sound) (hn : n ∈ s.wdsOf w) : n ∈ (batchDone s).wdsOf w := by
  obtain ⟨inst, hslot, hmem⟩ := State.mem_wdsOf.mp hn
  -- a descriptor in a list is in the table, so the instance stays open
  refine State.mem_wdsOf.mpr ⟨inst, ?_, hmem⟩
  rw [batchDone, hslot]
  show Option.filter (fun inst => !inst.wds.isEmpty) (some inst) = some inst
  refine Option.filter_eq_some_iff.mpr ⟨rfl, ?_⟩
  obtain ⟨u, hu, -⟩ := ((h inst hslot).mirrored.mirror n w).mpr hmem
  rw [users] at hu
  cases hwds : inst.wds with
  | nil =>
    rw [hwds] at hu
    cases hu
  | cons => rfl

variable {a : Act}

theorem step_sound (h : s.Sound) (hcareful : careful s a) : (step s a).1.Sound := by
  cases a with
  | watch => exact watch_sound h hcareful
  | drop i =>
    rw [step, dropHandle]
    cases s.handles[i]? with
    | none => exact h
    | some handle => exact sound_map h fun inst hinst => hinst.detach handle.id
  | emit e => exact sound_map h fun inst hinst => hinst.emit e
  | inodeGone n lost => exact sound_map h fun inst hinst => hinst.inodeGone n lost
  | read => exact read_sound h hcareful
  | batchDone =>
    intro inst hinst
    exact h inst (Option.filter_eq_some_iff.mp hinst).1
  | readFails =>
    intro inst hinst
    cases hinst

theorem detachesOwn (hcareful : careful s a) : DetachesOwn s a := by
  rintro i h rfl hi w n
  have hdrop : n ∈ (dropHandle s i).wdsOf w ↔ n ∈ s.wdsOf w ∧ w ≠ h.id := by
    simp only [dropHandle, hi, State.wdsOf]
    cases s.slot with
    | none => simp
    | some inst => exact inst.mem_wdsOf_detach h.id w n
  rw [step, hdrop]
  refine and_congr_right fun hn => ?_
  obtain ⟨inst, hslot, hmem⟩ := State.mem_wdsOf.mp hn
  rw [careful, hi, hslot] at hcareful
  by_cases hof : h.of = s.opened
  · simp only [hof, true_and]
    exact ne_comm
  -- the number is nobody's here
  have hnone : get inst.watchers h.id = none := by simpa [hof] using hcareful
  refine iff_of_true ?_ fun hboth => hof hboth.1
  rintro rfl
  have hsome := isSome_of_mem_wdsOf hmem
  rw [hnone] at hsome
  cases hsome

theorem mem_wdsOf_map {s' : State} {f : Instance → Instance} (hs' : s'.slot = s.slot.map f) (hn : n ∈ s.wdsOf w)
    (hf : ∀ inst : Instance, n ∈ inst.wdsOf w → n ∈ (f inst).wdsOf w) : n ∈ s'.wdsOf w := by
  obtain ⟨inst, hslot, hmem⟩ := State.mem_wdsOf.mp hn
  exact State.mem_wdsOf.mpr ⟨f inst, by rw [hs', hslot]; rfl, hf inst hmem⟩

theorem keeps (h : s.Sound) (hcareful : careful s a) : Keeps s a := by
  intro w n hn
  cases a with
  | watch => exact .inl (watch_keeps h hcareful hn)
  | drop i =>
    cases hi : s.handles[i]? with
    | none =>
      left
      rw [step, dropHandle, hi]
      exact hn
    | some handle =>
      by_cases hown : handle.of = s.opened ∧ handle.id = w
      · obtain ⟨hof, hid⟩ := hown
        refine .inr (.inr (.inl ⟨i, rfl, ?_⟩))
        rw [hi, ← hof, ← hid]
      · exact .inl ((detachesOwn hcareful i handle rfl hi w n).mpr ⟨hn, hown⟩)
  | emit =>
    refine .inl (mem_wdsOf_map rfl hn fun inst hmem => ?_)
    rw [FsWatch.emit]
    split <;> exact hmem
  | inodeGone =>
    refine .inl (mem_wdsOf_map rfl hn fun inst hmem => ?_)
    rw [FsWatch.inodeGone]
    split
    · exact hmem
    · rw [wdsOf, kernelRemove_watchers]
      exact hmem
  | read => exact (read_keeps h hcareful hn).imp id .inl
  | batchDone => exact .inl (batchDone_keeps h hn)
  | readFails error => exact .inr (.inr (.inr ⟨error, rfl⟩))

theorem delivers (h : s.Sound) (hcareful : careful s a) : Delivers s a := by
  refine ⟨?_, fun hread x hx kind filename raw he => ?_⟩
  · rintro e queue found rfl hqueue hoverflow
    cases hslot : s.slot with
    | none =>
      rw [State.queue, hslot] at hqueue
      cases hqueue
    | some inst =>
      have hq : inst.queue = e :: queue := by
        rw [State.queue, hslot] at hqueue
        exact hqueue
      obtain ⟨-, hname⟩ := careful_read hcareful hslot hq
      rw [step, readEvent_of_cons hslot hq]
      obtain ⟨hsent, hnotes⟩ :=
        @dispatch_delivers { inst with queue := queue } e found ((h inst hslot).popped hq).mirrored hoverflow hname
      refine ⟨?_, ?_, hnotes⟩
      · simp only [State.users, State.txOf, hslot, Option.map_some, Option.getD_some, Option.bind_some]
        exact hsent
      · simp only [State.users, hslot, Option.map_some, Option.getD_some]
        exact (h inst hslot).mirrored.once e.wd
  · cases a with
    | read found => exact hread found rfl
    | readFails =>
      rw [step, readFails] at hx
      cases hslot : s.slot with
      | none =>
        rw [hslot] at hx
        cases hx
      | some =>
        rw [hslot] at hx
        obtain ⟨w, -, rfl⟩ := mem_map.mp hx
        cases he
    | _ => cases hx

/-- **Closing one watcher never affects another**: the two tables mirror each other, and each step sends to its
    descriptor's users and takes only what `Keeps` says. -/
theorem watchers_independent {acts : List Act} {a : Act} (h : Along step careful start (acts ++ [a])) :
    (run step start acts).1.Mirrored ∧ Delivers (run step start acts).1 a ∧ DetachesOwn (run step start acts).1 a ∧
      Keeps (run step start acts).1 a := by
  obtain ⟨hacts, hcareful, -⟩ := along_append.mp h
  have hsound : (run step start acts).1.Sound := by
    refine run_keeps_along State.Sound (fun s a ha hs => step_sound hs ha) ?_ hacts
    intro inst hinst
    cases hinst
  exact ⟨hsound.mirrored, delivers hsound hcareful, detachesOwn hcareful, keeps hsound hcareful⟩

/-- A plain watch of a directory and a recursive one of the same directory; an entry is made in it. -/
def twoWatches : List Act :=
  [.watch ⟨"/d".toList, true, false, 1, none, .ok 1, .done, none⟩,
    .watch ⟨"/d".toList, true, true, 2, none, .ok 1, .entry "sub".toList (.ok 2) .done .done, none⟩,
    .emit ⟨1, inCreate, 0, some "f".toList⟩]

theorem watchers_independent_two : Along step careful start (twoWatches ++ [.read []]) ∧
    (run step start twoWatches).1.wdsOf 1 = [1] ∧ (run step start twoWatches).1.wdsOf 2 = [1, 2] ∧ Delivers
    (run step start twoWatches).1 (.read []) ∧ Along step careful start (twoWatches ++ [.drop 0]) ∧ DetachesOwn
    (run step start twoWatches).1 (.drop 0) ∧ Keeps (run step start twoWatches).1 (.drop 0) := by
  have hread : Along step careful start (twoWatches ++ [.read []]) := by decide +kernel
  have hdrop : Along step careful start (twoWatches ++ [.drop 0]) := by decide +kernel
  exact ⟨hread, by decide +kernel, by decide +kernel, (watchers_independent hread).2.1, hdrop,
    (watchers_independent hdrop).2.2.1, (watchers_independent hdrop).2.2.2⟩

/-- **The numbers begin anew.** A watched directory is deleted, and the instance with it; the next watch gets the SAME
    number, and dropping the first handle detaches it. -/
theorem stale_handle_detaches_another : ∃ acts : List Act, (run step start acts).1.handles = [⟨1, 1⟩, ⟨1, 2⟩] ∧
    (run step start acts).1.opened = 2 ∧ (run step start acts).1.wdsOf 1 = [1] ∧ 1 ∈ (run step start acts).1.active ∧
    (step (run step start acts).1 (.drop 0)).1.handles = [⟨1, 2⟩] ∧ (step (run step start acts).1 (.drop 0)).1.wdsOf 1 =
    [] ∧ (step (run step start acts).1 (.drop 0)).1.users 1 = [] := by
  refine ⟨[.watch ⟨"/a".toList, true, false, 1, none, .ok 1, .done, none⟩, .inodeGone 1 false, .read [], .batchDone,
    .watch ⟨"/b".toList, true, false, 2, none, .ok 1, .done, none⟩], ?_⟩
  decide +kernel

end Oam.FsWatch
