/-
  A POSIX file system with symbolic links, as far as path resolution goes.

  A `Disk` gives the node at every location and keeps a LOG of the locations changed so far.  `slot` is the kernel's
  walk of a path: links on the way are followed, and the last component is returned as a slot of its directory.  A path
  is given by its segments, the texts between its slashes, and walked from the root.
-/
import Oam.Lib.PosixPath

namespace PosixFs

open Bool List Text LexPath PosixPath

/-! ## Disks -/

/-- A physical location: the names from the root down to it. -/
abbrev Loc := List Str

inductive Node where
  | dir
  | file (contents : List UInt8) (mode : Option Nat)
  | link (text : Str)
deriving DecidableEq, Repr

def Node.isLink : Node → Bool
  | .link _ => true
  | _ => false

inductive Errno where
  | noent
  | exist
  | notdir
  | isdir
  | loop
deriving DecidableEq, Repr

structure Disk where
  node : Loc → Option Node
  /-- Every location created, written, removed or given a mode so far. -/
  touched : List Loc

/-- Put a node at a location (`none` removes it). -/
def Disk.set (d : Disk) (loc : Loc) (n : Option Node) : Disk :=
  ⟨fun l => if l = loc then n else d.node l, d.touched ++ [loc]⟩

/-- Change what is not modelled about a location (a directory's mode). -/
def Disk.touch (d : Disk) (loc : Loc) : Disk := ⟨d.node, d.touched ++ [loc]⟩

/-! ## Walking a path -/

def segments (s : Str) : List Str := s.splitOnP isSep

/-- Where a path ends: at a directory, or at a name in one. `slash` says that a slash follows the name. -/
inductive Slot where
  | self (dir : Loc)
  | entry (dir : Loc) (name : Str) (slash : Bool)
deriving DecidableEq, Repr

def Slot.dir : Slot → Loc
  | .self dir => dir
  | .entry dir _ _ => dir

/-- The walk of `todo` from the directory `cur`, up to the first link that is followed; `next` goes on
    from there. -/
def slotWith (node : Loc → Option Node) (followLast : Bool)
    (next : Loc → List Str → Except Errno Slot) : Loc → List Str → Except Errno Slot
  | cur, [] => .ok (.self cur)
  | cur, seg :: rest =>
    match classify seg with
    | .stay => slotWith node followLast next cur rest
    | .up => slotWith node followLast next cur.dropLast rest
    | .down name =>
      if rest.all List.isEmpty && !(followLast && (node (cur ++ [name])).any Node.isLink) then
        .ok (.entry cur name !rest.isEmpty)
      else
        match node (cur ++ [name]) with
        | none => .error .noent
        | some .dir => slotWith node followLast next (cur ++ [name]) rest
        | some (.file _ _) => .error .notdir
        | some (.link text) => next (if hasRoot text then [] else cur) (segments text ++ rest)

/-- The walk of a path, following at most `limit` links. -/
def slot (node : Loc → Option Node) (followLast : Bool) : (limit : Nat) → Loc → List Str → Except Errno Slot
  | 0 => slotWith node followLast fun _ _ => .error .loop
  | limit + 1 => slotWith node followLast (slot node followLast limit)

/-! ## The calls -/

section Calls

variable (limit : Nat)

def mkdir (path : List Str) (d : Disk) : Except Errno Disk :=
  match slot d.node false limit [] path with
  | .error e => .error e
  | .ok (.self _) => .error .exist
  | .ok (.entry dir name _) =>
    if (d.node (dir ++ [name])).isSome then .error .exist
    else .ok (d.set (dir ++ [name]) (some .dir))

/-- `open` for writing, and the write. A link is followed, to where nothing may be yet. -/
def openWrite (path : List Str) (contents : List UInt8) (d : Disk) : Except Errno Disk :=
  match slot d.node true limit [] path with
  | .error e => .error e
  | .ok (.self _) => .error .isdir
  | .ok (.entry dir name slash) =>
    if slash then .error .isdir
    else
      match d.node (dir ++ [name]) with
      | some .dir => .error .isdir
      | some (.link _) => .error .loop
      | some (.file _ mode) => .ok (d.set (dir ++ [name]) (some (.file contents mode)))
      | none => .ok (d.set (dir ++ [name]) (some (.file contents none)))

def symlink (text : Str) (path : List Str) (d : Disk) : Except Errno Disk :=
  match slot d.node false limit [] path with
  | .error e => .error e
  | .ok (.self _) => .error .exist
  | .ok (.entry dir name slash) =>
    if (d.node (dir ++ [name])).isSome then .error .exist
    else if slash then .error .noent
    else .ok (d.set (dir ++ [name]) (some (.link text)))

def unlink (path : List Str) (d : Disk) : Except Errno Disk :=
  match slot d.node false limit [] path with
  | .error e => .error e
  | .ok (.self _) => .error .isdir
  | .ok (.entry dir name slash) =>
    match d.node (dir ++ [name]) with
    | none => .error .noent
    | some .dir => .error .isdir
    | some _ => if slash then .error .notdir else .ok (d.set (dir ++ [name]) none)

def chmod (mode : Nat) (path : List Str) (d : Disk) : Except Errno Disk :=
  match slot d.node true limit [] path with
  | .error e => .error e
  | .ok (.self dir) => .ok (d.touch dir)
  | .ok (.entry dir name slash) =>
    match d.node (dir ++ [name]) with
    | none => .error .noent
    | some .dir => .ok (d.touch (dir ++ [name]))
    | some (.link _) => .error .loop
    | some (.file contents _) =>
      if slash then .error .notdir
      else .ok (d.set (dir ++ [name]) (some (.file contents (some mode))))

def isDir (path : List Str) (d : Disk) : Bool :=
  match slot d.node true limit [] path with
  | .error _ => false
  | .ok (.self _) => true
  | .ok (.entry dir name _) => d.node (dir ++ [name]) == some .dir

/-- `mkdir` of the first path; if something is missing above, make that first. -/
def createDirAllFrom : List (List Str) → Disk → Disk × Except Errno Unit
  | [], d => (d, .ok ())
  | path :: above, d =>
    match mkdir limit path d with
    | .ok d' => (d', .ok ())
    | .error .noent =>
      match createDirAllFrom above d with
      | (d₁, .error e) => (d₁, .error e)
      | (d₁, .ok ()) =>
        match mkdir limit path d₁ with
        | .ok d₂ => (d₂, .ok ())
        | .error e => (d₁, if e == .exist && isDir limit path d₁ then .ok () else .error e)
    | .error e => (d, if e == .exist && isDir limit path d then .ok () else .error e)

end Calls

/-- A segment that is no component (`Path::components` skips it). -/
def isStay (seg : Str) : Bool := seg.isEmpty || seg == ['.']

/-- The parents of a path, nearest first, from its segments in reverse. -/
def parentsRev : List Str → List (List Str)
  | [] => []
  | seg :: rest =>
    if isStay seg then parentsRev rest else (rest.dropWhile isStay).reverse :: parentsRev rest

/-- The proper ancestors of a path (`Path::ancestors` after the path itself). -/
def parents (path : List Str) : List (List Str) := parentsRev path.reverse

/-- `fs::create_dir_all`. -/
def createDirAll (limit : Nat) (path : List Str) (d : Disk) : Disk × Except Errno Unit :=
  createDirAllFrom limit (path :: parents path) d

/-! ## One segment of a walk -/

section Slot

variable {node : Loc → Option Node} {f : Bool} {n : Nat} {cur : Loc} {seg name : Str}
  {rest : List Str}

theorem slot_stay (h : classify seg = .stay) : slot node f n cur (seg :: rest) = slot node f n cur rest := by
  cases n <;> simp only [slot, slotWith, h]

theorem slot_up (h : classify seg = .up) : slot node f n cur (seg :: rest) = slot node f n cur.dropLast rest := by
  cases n <;> simp only [slot, slotWith, h]

theorem slot_last (h : classify seg = .down name) (hrest : rest.all isEmpty)
    (hlink : (f && (node (cur ++ [name])).any Node.isLink) = false) :
    slot node f n cur (seg :: rest) = .ok (.entry cur name !rest.isEmpty) := by
  cases n <;> simp [slot, slotWith, h, hrest, hlink]

theorem slot_dir (h : classify seg = .down name) (hrest : rest.all isEmpty = false)
    (hdir : node (cur ++ [name]) = some .dir) :
    slot node f n cur (seg :: rest) = slot node f n (cur ++ [name]) rest := by
  cases n <;> simp only [slot, slotWith, h, hrest, hdir, Bool.false_and, Bool.false_eq_true, if_false]

theorem slot_link {text : Str} (h : classify seg = .down name) (hfollow : (rest.all isEmpty && !f) = false)
    (hlink : node (cur ++ [name]) = some (.link text)) : slot node f (n + 1) cur (seg :: rest) = slot node f n
    (if hasRoot text then [] else cur) (segments text ++ rest) := by
  have hgo : (rest.all isEmpty && !(f && (some (Node.link text)).any Node.isLink)) = false := by
    simpa [Node.isLink] using hfollow
  simp only [slot, slotWith, h, hlink, hgo, false_eq_true, if_false]

end Slot

/-! ## Arriving -/

/-- From the directory `cur`, with `n` links left, the walk of `todo` arrives at the directory `loc` with `k` left. -/
inductive Reaches (node : Loc → Option Node) : Nat → Loc → List Str → Nat → Loc → Prop
  | done (n : Nat) (cur : Loc) : Reaches node n cur [] n cur
  | stay {n k cur loc seg rest} (h : classify seg = .stay) (t : Reaches node n cur rest k loc) :
      Reaches node n cur (seg :: rest) k loc
  | up {n k cur loc seg rest} (h : classify seg = .up) (t : Reaches node n cur.dropLast rest k loc) :
      Reaches node n cur (seg :: rest) k loc
  | dir {n k cur loc seg rest name} (h : classify seg = .down name)
      (hnode : node (cur ++ [name]) = some .dir) (t : Reaches node n (cur ++ [name]) rest k loc) :
      Reaches node n cur (seg :: rest) k loc
  | link {n k cur loc seg rest name text} (h : classify seg = .down name)
      (hnode : node (cur ++ [name]) = some (.link text))
      (t : Reaches node n (if hasRoot text then [] else cur) (segments text ++ rest) k loc) :
      Reaches node (n + 1) cur (seg :: rest) k loc

variable {node : Loc → Option Node} {n k : Nat} {cur loc : Loc} {todo : List Str}

theorem Reaches.mono {node' : Loc → Option Node} (hnode : ∀ l x, node l = some x → node' l = some x)
    (h : Reaches node n cur todo k loc) : Reaches node' n cur todo k loc := by
  induction h with
  | done n cur => exact .done n cur
  | stay h _ ih => exact .stay h ih
  | up h _ ih => exact .up h ih
  | dir h hdir _ ih => exact .dir h (hnode _ _ hdir) ih
  | link h hlink _ ih => exact .link h (hnode _ _ hlink) ih

/-- **A walk may be cut where it arrives**, if something is left. -/
theorem slot_append (h : Reaches node n cur todo k loc) (f : Bool) {rest : List Str}
    (hrest : rest.all isEmpty = false) : slot node f n cur (todo ++ rest) = slot node f k loc rest := by
  have hmore : ∀ l : List Str, (l ++ rest).all isEmpty = false := by
    intro l
    rw [all_append, hrest, Bool.and_false]
  induction h with
  | done => rfl
  | stay h _ ih => rw [cons_append, slot_stay h, ih]
  | up h _ ih => rw [cons_append, slot_up h, ih]
  | dir h hdir _ ih => rw [cons_append, slot_dir h (hmore _) hdir, ih]
  | link h hlink _ ih =>
    rw [cons_append, slot_link h (by rw [hmore, Bool.false_and]) hlink, ← append_assoc, ih]

/-- **What is on the way exists**: at the slot of a path that a walk starts with there is something. -/
theorem slot_of_reaches {f : Bool} {dir : Loc} {name : Str} {slash : Bool} (h : Reaches node n cur todo k loc) :
    ∀ a, a <+: todo → slot node f n cur a = .ok (.entry dir name slash) → node (dir ++ [name]) ≠ none := by
  -- the slot of no segment at all is a directory
  have hcons {n : Nat} {cur : Loc} {seg : Str} {rest a : List Str} (ha : a <+: seg :: rest)
      (hs : slot node f n cur a = .ok (.entry dir name slash)) : ∃ t, a = seg :: t ∧ t <+: rest := by
    refine (prefix_cons_iff.mp ha).resolve_left ?_
    rintro rfl
    cases n <;> nomatch hs
  induction h with
  | done n =>
    intro a ha hs
    rw [prefix_nil.mp ha] at hs
    cases n <;> nomatch hs
  | stay h _ ih =>
    intro a ha hs
    obtain ⟨a, rfl, ht⟩ := hcons ha hs
    rw [slot_stay h] at hs
    exact ih a ht hs
  | up h _ ih =>
    intro a ha hs
    obtain ⟨a, rfl, ht⟩ := hcons ha hs
    rw [slot_up h] at hs
    exact ih a ht hs
  | dir h hdir _ ih =>
    intro a ha hs
    obtain ⟨a, rfl, ht⟩ := hcons ha hs
    cases hall : a.all isEmpty with
    | true =>
      rw [slot_last h hall (by simp [hdir, Node.isLink])] at hs
      cases hs
      simp [hdir]
    | false =>
      rw [slot_dir h hall hdir] at hs
      exact ih a ht hs
  | link h hlink _ ih =>
    intro a ha hs
    obtain ⟨a, rfl, ht⟩ := hcons ha hs
    cases hfollow : (a.all isEmpty && !f) with
    | true =>
      rw [and_eq_true, not_eq_true'] at hfollow
      rw [slot_last h hfollow.1 (by rw [hfollow.2, Bool.false_and])] at hs
      cases hs
      simp [hlink]
    | false =>
      rw [slot_link h hfollow hlink] at hs
      exact ih _ ((prefix_append_right_inj _).mpr ht) hs

/-! ## Plain paths -/

def linkText : Option Node → Option Str
  | some (.link text) => some text
  | _ => none

/-- `plain` up to the first link; `next` goes on from there. -/
def plainWith (linkAt : Loc → Option Str) (base : Loc) (next : Loc → List Str → Bool) : Loc → List Str → Bool
  | _, [] => true
  | cur, seg :: rest =>
    match classify seg with
    | .stay => plainWith linkAt base next cur rest
    | .up => plainWith linkAt base next cur.dropLast rest
    | .down name =>
      match linkAt (cur ++ [name]) with
      | none => plainWith linkAt base next (cur ++ [name]) rest
      | some text =>
        !hasRoot text && staysBelow (cur.length - base.length) ((segments text ++ rest).map classify) &&
          next cur (segments text ++ rest)

/-- **Plain paths.** Every link met is relative; its text, read from the directory it is in, and the rest of the path
    behind it never climb above `base`. -/
def plain (linkAt : Loc → Option Str) (base : Loc) : (limit : Nat) → Loc → List Str → Bool
  | 0 => plainWith linkAt base fun _ _ => true
  | limit + 1 => plainWith linkAt base (plain linkAt base limit)

variable {linkAt : Loc → Option Str} {base : Loc}

theorem plainWith_of_append {next : Loc → List Str → Bool}
    (hnext : ∀ cur a b, next cur (a ++ b) → next cur a) {b : List Str} : ∀ (a : List Str) (cur : Loc),
    plainWith linkAt base next cur (a ++ b) → plainWith linkAt base next cur a := by
  intro a
  induction a with
  | nil => intro cur _; rfl
  | cons seg a ih =>
    intro cur h
    rw [cons_append] at h
    unfold plainWith at h ⊢
    split at h
    · exact ih _ h
    · exact ih _ h
    split at h
    · exact ih _ h
    · rename_i text hlink
      rw [← append_assoc, and_eq_true, and_eq_true, map_append] at h
      rw [and_eq_true, and_eq_true]
      exact ⟨⟨h.1.1, staysBelow_of_append h.1.2⟩, hnext _ _ _ h.2⟩

theorem plain_of_append : ∀ (n : Nat) (cur : Loc) (a b : List Str), plain linkAt base n cur (a ++ b) →
      plain linkAt base n cur a
  | 0, cur, a, _, h => plainWith_of_append (fun _ _ _ _ => rfl) a cur h
  | n + 1, cur, a, _, h => plainWith_of_append (plain_of_append n) a cur h

/-- The disk's links are those of `linkAt`, some perhaps removed. -/
def HasLinks (linkAt : Loc → Option Str) (node : Loc → Option Node) : Prop :=
  ∀ l, node l = none ∨ linkText (node l) = linkAt l

theorem HasLinks.linkText_eq (hlinks : HasLinks linkAt node) {l : Loc} {x : Node} (hn : node l = some x) :
    linkText (some x) = linkAt l := by
  rcases hlinks l with h | h
  · rw [hn] at h; cases h
  · rw [← h, hn]

theorem slotWith_inside {f : Bool} (hlinks : HasLinks linkAt node) {next : Loc → List Str → Except Errno Slot}
    {nextPlain : Loc → List Str → Bool}
    (hnext : ∀ loc todo s, nextPlain (base ++ loc) todo → staysBelow loc.length (todo.map classify) →
      next (base ++ loc) todo = .ok s → base <+: s.dir) :
    ∀ (todo : List Str) (loc : Loc) (s : Slot),
      plainWith linkAt base nextPlain (base ++ loc) todo →
      staysBelow loc.length (todo.map classify) →
      slotWith node f next (base ++ loc) todo = .ok s → base <+: s.dir := by
  intro todo
  induction todo with
  | nil =>
    intro loc s _ _ hs
    injection hs with hs
    rw [← hs]
    exact prefix_append base loc
  | cons seg rest ih =>
    intro loc s hplain hbelow hs
    rw [map_cons] at hbelow
    unfold plainWith at hplain
    unfold slotWith at hs
    cases hc : classify seg with
    | stay =>
      rw [hc] at hplain hbelow hs
      exact ih loc s hplain hbelow hs
    | up =>
      -- not at the base itself, so the parent is still inside
      rw [hc] at hplain hbelow hs
      rcases eq_nil_or_concat loc with rfl | ⟨l, x, rfl⟩
      · exact absurd hbelow (by simp [staysBelow])
      · have hpop : (base ++ l.concat x).dropLast = base ++ l := by
          rw [concat_eq_append, ← append_assoc, dropLast_concat]
        rw [length_concat] at hbelow
        dsimp only at hplain hs
        rw [hpop] at hplain hs
        exact ih l s hplain hbelow hs
    | down name =>
      rw [hc] at hplain hbelow hs
      dsimp only at hplain hs
      have hdeeper : base ++ loc ++ [name] = base ++ (loc ++ [name]) := append_assoc ..
      split at hs
      · injection hs with hs
        rw [← hs]
        exact prefix_append base loc
      · cases hn : node (base ++ loc ++ [name]) with
        | none => rw [hn] at hs; cases hs
        | some x =>
          rw [hn] at hs
          rw [← hlinks.linkText_eq hn] at hplain
          cases x with
          | file => cases hs
          | dir =>
            dsimp only [linkText] at hplain hs
            rw [hdeeper] at hplain hs
            refine ih (loc ++ [name]) s hplain ?_ hs
            rw [length_append]
            exact hbelow
          | link =>
            dsimp only [linkText] at hplain hs
            rw [and_eq_true, and_eq_true, not_eq_true'] at hplain
            obtain ⟨⟨hroot, hstays⟩, hrest⟩ := hplain
            rw [hroot] at hs
            rw [length_append, Nat.add_sub_cancel_left] at hstays
            exact hnext loc _ s hrest hstays hs

/-- **A plain path that stays below is resolved inside.** -/
theorem slot_inside {f : Bool} (hlinks : HasLinks linkAt node) : ∀ (n : Nat) (loc : Loc) (todo : List Str) (s : Slot),
      plain linkAt base n (base ++ loc) todo → staysBelow loc.length (todo.map classify) →
      slot node f n (base ++ loc) todo = .ok s → base <+: s.dir
  | 0, loc, todo, s, hplain, hbelow, hs => by
    refine slotWith_inside hlinks ?_ todo loc s hplain hbelow hs
    intro _ _ _ _ _ h
    injection h
  | n + 1, loc, todo, s, hplain, hbelow, hs =>
    slotWith_inside hlinks (slot_inside hlinks n) todo loc s hplain hbelow hs

/-! ## Changes confined to a directory -/

/-- Strictly below `base`. -/
def isBelow (base loc : Loc) : Bool := base.isPrefixOf loc && loc != base

theorem isBelow_of_prefix {dir : Loc} (h : base <+: dir) (name : Str) : isBelow base (dir ++ [name]) := by
  have hne : dir ++ [name] ≠ base := by
    rintro rfl
    have := h.length_le
    rw [length_append, length_singleton] at this
    omega
  rw [isBelow, and_eq_true, isPrefixOf_iff_prefix, bne_iff_ne]
  exact ⟨h.trans (prefix_append dir [name]), hne⟩

/-- From `d` to `d'` every node but those below `base` stayed, and what the log gained is inside
    `base`. -/
structure Confined (base : Loc) (d d' : Disk) : Prop where
  outside : ∀ l, isBelow base l = false → d'.node l = d.node l
  touched : ∃ new, d'.touched = d.touched ++ new ∧ ∀ l ∈ new, base <+: l

theorem Confined.refl (base : Loc) (d : Disk) : Confined base d d :=
  ⟨fun _ _ => rfl, [], (append_nil _).symm, fun _ h => absurd h not_mem_nil⟩

theorem Confined.trans {d₁ d₂ d₃ : Disk} (h : Confined base d₁ d₂) (h' : Confined base d₂ d₃) :
    Confined base d₁ d₃ := by
  obtain ⟨new, hnew, hbelow⟩ := h.touched
  obtain ⟨new', hnew', hbelow'⟩ := h'.touched
  refine ⟨fun l hl => (h'.outside l hl).trans (h.outside l hl), new ++ new', ?_, ?_⟩
  · rw [hnew', hnew, append_assoc]
  · intro l hl
    rcases mem_append.mp hl with hl | hl
    · exact hbelow l hl
    · exact hbelow' l hl

theorem Confined.set {dir : Loc} (h : base <+: dir) (d : Disk) (name : Str) (x : Option Node) :
    Confined base d (d.set (dir ++ [name]) x) := by
  have hbelow := isBelow_of_prefix h name
  refine ⟨fun l hl => ?_, [dir ++ [name]], rfl, fun l hl => ?_⟩
  · have hne : l ≠ dir ++ [name] := by
      rintro rfl
      rw [hbelow] at hl
      nomatch hl
    exact if_neg hne
  · rw [mem_singleton.mp hl]
    exact h.trans (prefix_append ..)

theorem Confined.touch (h : base <+: loc) (d : Disk) : Confined base d (d.touch loc) :=
  ⟨fun _ _ => rfl, [loc], rfl, fun l hl => by rw [mem_singleton.mp hl]; exact h⟩

/-- What is not below `base`. -/
def outside (base : Loc) (node : Loc → Option Node) : Loc → Option Node :=
  fun l => if isBelow base l then none else node l

theorem Confined.outside_eq {d d' : Disk} (h : Confined base d d') :
    PosixFs.outside base d'.node = PosixFs.outside base d.node := by
  funext l
  unfold PosixFs.outside
  split
  · rfl
  · rename_i hl
    exact h.outside l (eq_false_iff.mpr hl)

theorem Reaches.of_outside (h : Reaches (outside base node) n cur todo k loc) : Reaches node n cur todo k loc := by
  refine h.mono fun l x hx => ?_
  unfold outside at hx
  split at hx
  · nomatch hx
  · exact hx

/-! ## What the calls change -/

section Calls

variable {limit : Nat} {path : List Str} {d d' : Disk} {base : Loc}

/-- A slot the call resolves `path` to is inside `base`. -/
def ResolvesInside (limit : Nat) (base : Loc) (path : List Str) (d : Disk) : Prop :=
  ∀ f s, slot d.node f limit [] path = .ok s → base <+: s.dir

theorem mkdir_spec (h : mkdir limit path d = .ok d') : ∃ dir name slash, slot d.node false limit [] path = .ok
    (.entry dir name slash) ∧ d.node (dir ++ [name]) = none ∧ d' = d.set (dir ++ [name]) (some .dir) := by
  unfold mkdir at h
  split at h
  · nomatch h
  · nomatch h
  rename_i dir name slash hs
  split at h
  · nomatch h
  · rename_i hnone
    injection h with h
    exact ⟨dir, name, slash, hs, Option.not_isSome_iff_eq_none.mp hnone, h.symm⟩

theorem mkdir_of_reaches {k : Nat} {loc : Loc} {rest : List Str}
    (hreach : Reaches d.node limit [] (path ++ rest) k loc) : mkdir limit path d ≠ .ok d' := by
  intro h
  obtain ⟨_, _, _, hs, hnone, -⟩ := mkdir_spec h
  exact slot_of_reaches hreach path (prefix_append ..) hs hnone

theorem openWrite_spec {contents : List UInt8} (h : openWrite limit path contents d = .ok d') : ∃ dir name slash mode,
    slot d.node true limit [] path = .ok (.entry dir name slash) ∧ linkText (d.node (dir ++ [name])) = none ∧ d' = d.set
    (dir ++ [name]) (some (.file contents mode)) := by
  unfold openWrite at h
  split at h
  · nomatch h
  · nomatch h
  rename_i dir name slash hs
  split at h
  · nomatch h
  split at h
  · nomatch h
  · nomatch h
  · rename_i mode hfile
    injection h with h
    exact ⟨dir, name, slash, mode, hs, by rw [hfile]; rfl, h.symm⟩
  · rename_i hnone
    injection h with h
    exact ⟨dir, name, slash, none, hs, by rw [hnone]; rfl, h.symm⟩

theorem unlink_spec (h : unlink limit path d = .ok d') : ∃ dir name slash, slot d.node false limit [] path = .ok
    (.entry dir name slash) ∧ d' = d.set (dir ++ [name]) none := by
  unfold unlink at h
  split at h
  · nomatch h
  · nomatch h
  rename_i dir name slash hs
  split at h
  · nomatch h
  · nomatch h
  · split at h
    · nomatch h
    · injection h with h
      exact ⟨dir, name, slash, hs, h.symm⟩

theorem chmod_spec {mode : Nat} (h : chmod limit mode path d = .ok d') : ∃ s, slot d.node true limit [] path = .ok s ∧
    ((∃ l, s.dir <+: l ∧ d' = d.touch l) ∨ ∃ name x, d' = d.set (s.dir ++ [name]) (some (.file x (some mode)))) := by
  unfold chmod at h
  split at h
  · nomatch h
  · rename_i dir hs
    injection h with h
    exact ⟨_, hs, .inl ⟨dir, prefix_rfl, h.symm⟩⟩
  · rename_i dir name slash hs
    split at h
    · nomatch h
    · injection h with h
      exact ⟨_, hs, .inl ⟨dir ++ [name], prefix_append dir [name], h.symm⟩⟩
    · nomatch h
    rename_i contents old hfile
    split at h
    · nomatch h
    · injection h with h
      exact ⟨_, hs, .inr ⟨name, contents, h.symm⟩⟩

variable (hin : ResolvesInside limit base path d)

include hin

theorem openWrite_confined {contents : List UInt8}
    (h : openWrite limit path contents d = .ok d') : Confined base d d' := by
  obtain ⟨_, name, _, _, hs, -, rfl⟩ := openWrite_spec h
  exact Confined.set (hin _ _ hs) d name _

theorem symlink_confined {text : Str} (h : symlink limit text path d = .ok d') : Confined base d d' := by
  unfold symlink at h
  split at h
  · nomatch h
  · nomatch h
  rename_i dir name slash hs
  split at h
  · nomatch h
  · split at h
    · nomatch h
    · injection h with h
      rw [← h]
      exact Confined.set (hin _ _ hs) d name _

theorem unlink_confined (h : unlink limit path d = .ok d') : Confined base d d' := by
  obtain ⟨_, name, _, hs, rfl⟩ := unlink_spec h
  exact Confined.set (hin _ _ hs) d name _

theorem chmod_confined {mode : Nat} (h : chmod limit mode path d = .ok d') : Confined base d d' := by
  obtain ⟨s, hs, ⟨l, hl, rfl⟩ | ⟨name, x, rfl⟩⟩ := chmod_spec h
  · exact Confined.touch ((hin _ _ hs).trans hl) d
  · exact Confined.set (hin _ _ hs) d name _

omit hin

/-- **The rule for `create_dir_all`**: what every `mkdir` of the loop keeps, the loop keeps. -/
theorem createDirAllFrom_rule {P : Disk → Prop} : ∀ (paths : List (List Str)),
    (∀ path ∈ paths, ∀ d d', P d → mkdir limit path d = .ok d' → P d') → ∀ d, P d → P
    (createDirAllFrom limit paths d).1 := by
  intro paths
  induction paths with
  | nil => exact fun _ d hd => hd
  | cons path above ih =>
    intro hstep d hd
    have hone := hstep path (mem_cons_self ..)
    have habove : P (createDirAllFrom limit above d).1 :=
      ih (fun q hq => hstep q (mem_cons_of_mem _ hq)) d hd
    unfold createDirAllFrom
    split
    · rename_i d' hmk
      exact hone d d' hd hmk
    · -- something is missing above
      split
      · rename_i hrec
        rw [hrec] at habove
        exact habove
      · rename_i d₁ hrec
        rw [hrec] at habove
        split
        · rename_i d₂ hmk
          exact hone d₁ d₂ habove hmk
        · exact habove
    · exact hd

end Calls

theorem prefix_of_mem_parentsRev {p : List Str} : ∀ {r : List Str}, p ∈ parentsRev r → p <+: r.reverse
  | seg :: rest, h => by
    have hrest : ∀ q, q <+: rest.reverse → q <+: (seg :: rest).reverse := by
      intro q hq
      rw [reverse_cons]
      exact hq.trans (prefix_append _ _)
    unfold parentsRev at h
    split at h
    · exact hrest p (prefix_of_mem_parentsRev h)
    rcases mem_cons.mp h with rfl | h
    · exact hrest _ <| reverse_prefix.mpr <| dropWhile_suffix _
    · exact hrest p (prefix_of_mem_parentsRev h)

theorem prefix_of_mem_parents {p path : List Str} (h : p ∈ parents path) : p <+: path := by
  have := prefix_of_mem_parentsRev h
  rwa [reverse_reverse] at this

theorem Reaches.dropStay {node : Loc → Option Node} {n k : Nat} {cur loc : Loc} {todo : List Str}
    (h : Reaches node n cur todo k loc) {seg : Str} (hseg : classify seg = .stay) :
    ∀ path, todo = path ++ [seg] → Reaches node n cur path k loc := by
  have hcons {s : Str} {rest path : List Str} (hp : s :: rest = path ++ [seg]) (hs : classify s ≠ .stay) :
      ∃ t, path = s :: t ∧ rest = t ++ [seg] := by
    refine (cons_eq_append_iff.mp hp).resolve_left fun ⟨_, hlast⟩ => ?_
    cases hlast
    exact hs hseg
  induction h with
  | done =>
    intro path hp
    exact absurd (append_eq_nil_iff.mp hp.symm).2 (cons_ne_nil _ _)
  | stay h t ih =>
    intro path hp
    rcases cons_eq_append_iff.mp hp with ⟨rfl, hlast⟩ | ⟨path, rfl, ht⟩
    · cases hlast
      exact t
    · exact .stay h (ih path ht)
  | up h t ih =>
    intro path hp
    obtain ⟨path, rfl, ht⟩ := hcons hp (by simp [h])
    exact .up h (ih path ht)
  | dir h hdir t ih =>
    intro path hp
    obtain ⟨path, rfl, ht⟩ := hcons hp (by simp [h])
    exact .dir h hdir (ih path ht)
  | link h hlink t ih =>
    intro path hp
    obtain ⟨_, rfl, ht⟩ := hcons hp (by simp [h])
    exact .link h hlink (ih _ (by rw [ht, append_assoc]))

end PosixFs
