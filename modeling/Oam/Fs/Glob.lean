/-
  `fs.globSync`.  The pattern is cut at its slashes; the walk goes down the tree with the segments that are left.  It
  never gets PAST a `**`: it tries the next segment on the FILES it meets, whether that segment is the last or not, and
  goes on with `**`.  `Fits` says on which trees that makes no difference.
-/
import Oam.Lib.Utf
import Mathlib.Data.List.Dedup
import Mathlib.Data.List.TakeDrop
import Mathlib.Data.List.Sort

namespace Oam.Fs

open List Text

/-! ## One segment -/

/-- What a segment's regular expression is made of: `.*`, `[^/]*`, `[^/]`, a class, a character. -/
inductive Atom where
  | dots
  | run
  | one
  | cls (negated : Bool) (ranges : List (UInt16 × UInt16))
  | lit (c : UInt16)
deriving DecidableEq

def units (s : String) : Units := utf16 s.toList

def slash : UInt16 := 0x2f

def star : UInt16 := 0x2a

/-- The ranges of a class; `none` is a range out of order, which RegExp refuses. -/
def classRanges : Units → Option (List (UInt16 × UInt16))
  | a :: 0x2d :: b :: rest => if b < a then none else (classRanges rest).map ((a, b) :: ·)
  | a :: rest => (classRanges rest).map ((a, a) :: ·)
  | [] => some []

/-- A class after its bracket: whether it is negated, its body, and how much of the text it takes. -/
def readClass (rest : Units) : Bool × Units × Nat :=
  let negated := rest.head? = some 0x21 ∨ rest.head? = some 0x5e
  let rest := if negated then rest.tail else rest
  let first := rest.take (if rest.head? = some 0x5d then 1 else 0)
  let more := (rest.drop first.length).takeWhile (· ≠ 0x5d)
  -- The closing bracket is skipped as well; past the end of the text that skips nothing.
  (negated, first ++ more, (if negated then 1 else 0) + first.length + more.length + 1)

/-- The segment's atoms, with `skip` characters already taken.  Braces and backslashes are not read here. -/
def compileFrom : (skip : Nat) → Units → Option (List Atom)
  | _, [] => some []
  | skip + 1, _ :: rest => compileFrom skip rest
  | 0, c :: rest =>
    if c = star then
      if rest.head? = some star then (compileFrom (rest.takeWhile (· = star)).length rest).map (.dots :: ·)
      else (compileFrom 0 rest).map (.run :: ·)
    else if c = 0x3f then (compileFrom 0 rest).map (.one :: ·)
    else if c = 0x5b then do
      let (negated, body, taken) := readClass rest
      let ranges ← classRanges body
      (compileFrom taken rest).map (.cls negated ranges :: ·)
    else (compileFrom 0 rest).map (.lit c :: ·)

def compile (seg : Units) : Option (List Atom) := compileFrom 0 seg

def inClass (negated : Bool) (ranges : List (UInt16 × UInt16)) (c : UInt16) : Bool :=
  (ranges.any fun r => decide (r.1 ≤ c) && decide (c ≤ r.2)) != negated

def lineEnds : List UInt16 := [0x0a, 0x0d, 0x2028, 0x2029]

/-- Any number of characters that are `ok`, then the rest. -/
def testStar (ok : UInt16 → Bool) (rest : Units → Bool) : Units → Bool
  | [] => rest []
  | c :: name => rest (c :: name) || (ok c && testStar ok rest name)

/-- One character that is `ok`, then the rest. -/
def testOne (ok : UInt16 → Bool) (rest : Units → Bool) : Units → Bool
  | [] => false
  | c :: name => ok c && rest name

/-- The regular expression, from start to end. -/
def test : List Atom → Units → Bool
  | [] => List.isEmpty
  | .dots :: atoms => testStar (fun c => !lineEnds.contains c) (test atoms)
  | .run :: atoms => testStar (· ≠ slash) (test atoms)
  | .one :: atoms => testOne (· ≠ slash) (test atoms)
  | .cls negated ranges :: atoms => testOne (inClass negated ranges) (test atoms)
  | .lit c :: atoms => testOne (· = c) (test atoms)

structure Segment where
  text : Units
  atoms : List Atom

def Segment.isGlobStar (seg : Segment) : Bool := decide (seg.text = [star, star])

def Atom.isMagic : Atom → Bool
  | .lit _ => false
  | _ => true

def matchSegment (seg : Segment) (name : Units) : Bool :=
  if seg.atoms.any Atom.isMagic then test seg.atoms name else decide (seg.text = name)

/-! ## The walk -/

inductive Listing where
  | nil
  | file (name : Units) (rest : Listing)
  | dir (name : Units) (children rest : Listing)

abbrev Path := List Units

/-- The paths that the walk of a listing emits, for the segment `seg` and those after it. -/
def walk : Listing → (seg : Segment) → (segs : List Segment) → List Path
  | .nil, _, _ => []
  | .file name rest, seg, segs =>
    (if seg.isGlobStar then
      match segs with
      | [] => [[name]]
      | next :: _ => if matchSegment next name then [[name]] else []
    else if matchSegment seg name ∧ segs.isEmpty then [[name]] else []) ++ walk rest seg segs
  | .dir name children rest, seg, segs =>
    (if seg.isGlobStar then
      -- The empty match is tried on files only; the descent stays at this segment.
      (if segs.isEmpty then [[name]] else []) ++ (walk children seg segs).map (name :: ·)
    else if matchSegment seg name then
      match segs with
      | [] => [[name]]
      | next :: segs => (walk children next segs).map (name :: ·)
    else []) ++ walk rest seg segs

def maxResults : Nat := 1000000

/-- The path below the working directory, which itself is `.`. -/
def render : Path → Units
  | [] => [0x2e]
  | path => [slash].intercalate path

def unitsBefore : Units → Units → Bool
  | [], _ => true
  | _ :: _, [] => false
  | a :: as, b :: bs => if a = b then unitsBefore as bs else decide (a < b)

/-- The segments of a relative pattern; `none` when RegExp refuses one. -/
def segments (pattern : Units) : Option (List Segment) :=
  let normalized := pattern.map fun c => if c = 0x5c then slash else c
  let normalized := if [0x2e, slash].isPrefixOf normalized then normalized.drop 2 else normalized
  (normalized.splitOn slash).mapM fun seg => (compile seg).map (Segment.mk seg)

/-- What the walk finds from the working directory, in order and each path once. -/
def results (tree : Listing) (seg : Segment) (segs : List Segment) : List Units :=
  let self := if segs.isEmpty && seg.isGlobStar then [[]] else []
  (((self ++ walk tree seg segs).map render).insertionSort (unitsBefore · · = true)).dedup

/-- `globSync` on a relative pattern, with default options; `none` is a throw. -/
def globSync (tree : Listing) (pattern : Units) : Option (List Units) :=
  match segments pattern with
  | some (seg :: segs) =>
    let deduped := results tree seg segs
    if maxResults < deduped.length then none else some deduped
  | _ => none

/-! ## Specification -/

def NameMatches : List Atom → Units → Prop
  | [], name => name = []
  | .dots :: atoms, name => ∃ l m, name = l ++ m ∧ (∀ c ∈ l, c ∉ lineEnds) ∧ NameMatches atoms m
  | .run :: atoms, name => ∃ l m, name = l ++ m ∧ slash ∉ l ∧ NameMatches atoms m
  | .one :: atoms, name => ∃ c m, name = c :: m ∧ c ≠ slash ∧ NameMatches atoms m
  | .cls negated ranges :: atoms, name => ∃ c m, name = c :: m ∧ inClass negated ranges c ∧ NameMatches atoms m
  | .lit c :: atoms, name => ∃ m, name = c :: m ∧ NameMatches atoms m

/-- **What a pattern matches.**  `**` stands for any number of directories. -/
inductive Matches : List Segment → Path → Prop
  | nil : Matches [] []
  | name {seg : Segment} {segs : List Segment} {name : Units} {path : Path} :
    seg.isGlobStar = false → NameMatches seg.atoms name → Matches segs path → Matches (seg :: segs) (name :: path)
  | none {seg : Segment} {segs : List Segment} {path : Path} :
    seg.isGlobStar = true → Matches segs path → Matches (seg :: segs) path
  | more {seg : Segment} {segs : List Segment} {name : Units} {path : Path} :
    seg.isGlobStar = true → Matches (seg :: segs) path → Matches (seg :: segs) (name :: path)

/-- What an entry of a listing is. -/
inductive Kind where
  | file
  | dir
deriving DecidableEq

/-- The listing has an entry of this kind at this path. -/
def Has : Listing → Kind → Path → Prop
  | .nil, _, _ => False
  | .file name rest, kind, path => (kind = .file ∧ path = [name]) ∨ Has rest kind path
  | .dir name children rest, kind, path =>
    (kind = .dir ∧ path = [name]) ∨ (∃ below, path = name :: below ∧ Has children kind below) ∨ Has rest kind path

/-- A path of the tree, the working directory included. -/
def InTree (tree : Listing) (path : Path) : Prop := path = [] ∨ ∃ kind, Has tree kind path

/-- A path of the tree that matches, as a text. -/
def Found (tree : Listing) (segs : List Segment) (s : Units) : Prop :=
  ∃ path, InTree tree path ∧ Matches segs path ∧ s = render path

/-- No more paths match than the call returns. -/
def Few (tree : Listing) (segs : List Segment) : Prop :=
  ∀ l : List Units, l.Nodup → (∀ s ∈ l, Found tree segs s) → l.length ≤ maxResults

/-- The call returns the paths that match. -/
def Exact (tree : Listing) (segs : List Segment) (pattern : Units) : Prop :=
  ∃ result, globSync tree pattern = some result ∧ ∀ s, s ∈ result ↔ Found tree segs s

/-- **Where the call gets a tree right.** Always without `**`; with it, by what stands behind it: nothing, one segment,
    or more. -/
def Fits (tree : Listing) (segs : List Segment) : Prop :=
  match segs.span fun seg => !seg.isGlobStar with
  | (_, []) | ([], [_]) => True
  | (before, [_]) => ∀ path, InTree tree path → ¬ Matches before path
  | (before, _ :: next :: rest) =>
    if rest = [] ∧ next.isGlobStar = false then ∀ path, InTree tree path → Matches segs path → Has tree .file path
    else ∀ path, InTree tree path → (Matches segs path ↔ Has tree .file path ∧
      ∃ dirs below name, path = dirs ++ (below ++ [name]) ∧ Matches before dirs ∧ NameMatches next.atoms name)

/-- The names are such as a directory has: none has a slash or is `.`. -/
def named : Listing → Bool
  | .nil => true
  | .file name rest => !name.contains slash && decide (name ≠ [0x2e]) && named rest
  | .dir name children rest => !name.contains slash && decide (name ≠ [0x2e]) && named children && named rest

/-- A segment that is a name, a name with wildcards, or `**`. -/
structure Segment.Proper (seg : Segment) : Prop where
  nonempty : seg.text ≠ []
  plain : ∀ c ∈ seg.text, c ≠ slash ∧ c ≠ 0x5c ∧ c ≠ 0x7b
  compiled : compile seg.text = some seg.atoms

def patternText (segs : List Segment) : Units := [slash].intercalate (segs.map Segment.text)

/-- The code takes `x:/` for the start of an absolute pattern. -/
def isDrive (seg : Segment) : Bool :=
  match seg.text with
  | [c, 0x3a] => (decide (0x41 ≤ c) && decide (c ≤ 0x5a)) || (decide (0x61 ≤ c) && decide (c ≤ 0x7a))
  | _ => false

structure Relative (seg : Segment) (segs : List Segment) : Prop where
  proper : ∀ s ∈ seg :: segs, s.Proper
  no_dot : seg.text ≠ [0x2e]
  no_drive : segs = [] ∨ isDrive seg = false

/-! ## A segment matches what its expression accepts -/

theorem testStar_iff {ok : UInt16 → Bool} {rest : Units → Bool} {name : Units} :
    testStar ok rest name ↔ ∃ l m, name = l ++ m ∧ (∀ c ∈ l, ok c) ∧ rest m := by
  induction name with
  | nil =>
    constructor
    · intro h
      exact ⟨[], [], rfl, fun c hc => (by cases hc), h⟩
    · rintro ⟨l, m, h, -, hm⟩
      obtain ⟨rfl, rfl⟩ := append_eq_nil_iff.mp h.symm
      exact hm
  | cons c name ih =>
    rw [testStar, Bool.or_eq_true_iff, Bool.and_eq_true_iff, ih]
    constructor
    · rintro (h | ⟨hc, l, m, rfl, hl, hm⟩)
      · exact ⟨[], c :: name, rfl, fun c hc => (by cases hc), h⟩
      · exact ⟨c :: l, m, rfl, forall_mem_cons.mpr ⟨hc, hl⟩, hm⟩
    · rintro ⟨l, m, h, hl, hm⟩
      cases l with
      | nil => exact .inl (h ▸ hm)
      | cons d l =>
        obtain ⟨rfl, rfl⟩ := List.cons.inj h
        exact .inr ⟨hl c mem_cons_self, l, m, rfl, fun d hd => hl d (mem_cons_of_mem c hd), hm⟩

theorem testOne_iff {ok : UInt16 → Bool} {rest : Units → Bool} {name : Units} :
    testOne ok rest name ↔ ∃ c m, name = c :: m ∧ ok c ∧ rest m := by
  cases name with
  | nil | cons => simp [testOne]

theorem test_iff (atoms : List Atom) (name : Units) : test atoms name ↔ NameMatches atoms name := by
  induction atoms generalizing name with
  | nil => simp [test, NameMatches]
  | cons atom atoms ih =>
    cases atom with
    | dots => simp [test, NameMatches, testStar_iff, ih]
    | run =>
      simp only [test, NameMatches, testStar_iff, ih, decide_eq_true_eq]
      refine exists_congr fun l => exists_congr fun m => ?_
      have hslash : (∀ c ∈ l, c ≠ slash) ↔ slash ∉ l :=
        ⟨fun h hmem => h slash hmem rfl, fun h c hc heq => h (heq ▸ hc)⟩
      rw [hslash]
    | one => simp [test, NameMatches, testOne_iff, ih]
    | cls => simp [test, NameMatches, testOne_iff, ih]
    | lit => simp [test, NameMatches, testOne_iff, ih]

theorem lits_of_not_magic {text : Units} {atoms : List Atom} (h : compileFrom 0 text = some atoms)
    (hlit : atoms.any Atom.isMagic = false) : atoms = text.map .lit := by
  induction text generalizing atoms with
  | nil =>
    cases h
    rfl
  | cons c rest ih =>
    simp only [compileFrom] at h
    repeat' split at h
    -- Only the last branch, a plain character, gives an atom that is not magic.
    all_goals simp only [Option.bind_eq_bind, Option.bind_eq_some_iff, Option.map_eq_some_iff] at h
    all_goals first
      | (obtain ⟨_, -, _, -, rfl⟩ := h; simp [Atom.isMagic] at hlit; done)
      | obtain ⟨_, hrest, rfl⟩ := h
    all_goals first
      | (simp [Atom.isMagic] at hlit; done)
      | (simp only [any_cons, Atom.isMagic, Bool.false_or] at hlit; rw [map_cons, ih hrest hlit])

theorem nameMatches_lits (text name : Units) : NameMatches (text.map .lit) name ↔ name = text := by
  induction text generalizing name with
  | nil => rfl
  | cons c text ih => simp [NameMatches, ih]

variable {seg : Segment}

theorem matchSegment_iff (h : compile seg.text = some seg.atoms) (name : Units) :
    matchSegment seg name ↔ NameMatches seg.atoms name := by
  unfold matchSegment
  cases hmagic : seg.atoms.any Atom.isMagic with
  | true => rw [if_pos rfl, test_iff]
  | false =>
    rw [if_neg Bool.false_ne_true, decide_eq_true_eq, lits_of_not_magic h hmagic, nameMatches_lits]
    exact eq_comm

/-! ## What the walk emits -/

variable {tree : Listing} {kind : Kind} {path : Path} {segs : List Segment}

/-- The walk emits an entry of this kind at this path, wherever it meets one. -/
def Emits (kind : Kind) : List Segment → Path → Prop
  | [], path => path = []
  | seg :: segs, path =>
    if seg.isGlobStar then
      match segs with
      | [] => path ≠ []
      | next :: _ => kind = .file ∧ ∃ below name, path = below ++ [name] ∧ matchSegment next name
    else ∃ name rest, path = name :: rest ∧ matchSegment seg name ∧ Emits kind segs rest

theorem emits_nil (seg : Segment) (segs : List Segment) : ¬ Emits kind (seg :: segs) [] := by
  cases segs <;> simp [Emits]

theorem ne_nil_of_has (h : Has tree kind path) : path ≠ [] := by
  rintro rfl
  induction tree with
  | nil => exact h
  | file _ _ ih => exact ih (by simpa [Has] using h)
  | dir _ _ _ _ ih => exact ih (by simpa [Has] using h)

/-- Behind a `**` an entry is treated alike wherever it is. -/
theorem emits_star_cons (hseg : seg.isGlobStar) (hpath : path ≠ []) (name : Units) :
    Emits kind (seg :: segs) (name :: path) ↔ Emits kind (seg :: segs) path := by
  cases segs with
  | nil => simp [Emits, hseg, hpath]
  | cons next segs =>
    simp only [Emits, if_pos hseg]
    refine and_congr_right fun _ => ⟨?_, ?_⟩
    · rintro ⟨below, last, heq, hlast⟩
      cases below with
      | nil => exact absurd (List.cons.inj heq).2 hpath
      | cons _ below => exact ⟨below, last, (List.cons.inj heq).2, hlast⟩
    · rintro ⟨below, last, rfl, hlast⟩
      exact ⟨name :: below, last, rfl, hlast⟩

theorem emits_cons (hseg : ¬ seg.isGlobStar) (name : Units) :
    Emits kind (seg :: segs) (name :: path) ↔ matchSegment seg name ∧ Emits kind segs path := by
  simp [Emits, hseg]

/-- A file is emitted at the level of the listing, or not at all. -/
theorem mem_walk_file {name : Units} {rest : Listing} : path ∈ walk (.file name rest) seg segs ↔
    (path = [name] ∧ Emits .file (seg :: segs) [name]) ∨ path ∈ walk rest seg segs := by
  simp only [walk, mem_append]
  refine or_congr_left ?_
  by_cases hseg : seg.isGlobStar
  · cases segs with
    | nil => simp [Emits, hseg]
    | cons next segs => by_cases hnext : matchSegment next name <;> simp [Emits, hseg, hnext, singleton_eq_append_iff]
  · rw [if_neg hseg, emits_cons hseg]
    cases segs with
    | nil => by_cases hname : matchSegment seg name <;> simp [hname, Emits]
    | cons next segs => simp [emits_nil]

/-- **What the walk emits**, over every tree and pattern. -/
theorem mem_walk_iff : path ∈ walk tree seg segs ↔ ∃ kind, Has tree kind path ∧ Emits kind (seg :: segs) path := by
  induction tree generalizing seg segs path with
  | nil => simp [walk, Has]
  | file name rest ih =>
    rw [mem_walk_file, ih]
    simp only [Has, or_and_right, exists_or, and_assoc, exists_eq_left]
    refine or_congr_left (and_congr_right ?_)
    rintro rfl
    rfl
  | dir name children rest ihc ih =>
    simp only [walk, mem_append, ih, Has, or_and_right, exists_or, ← or_assoc]
    refine or_congr_left ?_
    by_cases hseg : seg.isGlobStar
    · rw [if_pos hseg, mem_append, mem_map]
      refine or_congr ?_ ?_
      · cases segs <;> simp +contextual [Emits, hseg]
      · simp only [ihc]
        constructor
        · rintro ⟨below, ⟨kind, hbelow, hemits⟩, rfl⟩
          exact ⟨kind, ⟨below, rfl, hbelow⟩, (emits_star_cons hseg (ne_nil_of_has hbelow) name).mpr hemits⟩
        · rintro ⟨kind, ⟨below, rfl, hbelow⟩, hemits⟩
          exact ⟨below, ⟨kind, hbelow, (emits_star_cons hseg (ne_nil_of_has hbelow) name).mp hemits⟩, rfl⟩
    · rw [if_neg hseg]
      constructor
      · intro h
        split at h
        case isTrue hname =>
          cases segs with
          | nil => exact .inl ⟨.dir, ⟨rfl, mem_singleton.mp h⟩, mem_singleton.mp h ▸ (emits_cons hseg name).mpr ⟨hname, rfl⟩⟩
          | cons next segs =>
            obtain ⟨below, hbelow, rfl⟩ := mem_map.mp h
            obtain ⟨kind, hbelow, hemits⟩ := ihc.mp hbelow
            exact .inr ⟨kind, ⟨below, rfl, hbelow⟩, (emits_cons hseg name).mpr ⟨hname, hemits⟩⟩
        case isFalse => nomatch h
      · rintro (⟨_, ⟨rfl, rfl⟩, hemits⟩ | ⟨kind, ⟨below, rfl, hbelow⟩, hemits⟩)
        · obtain ⟨hname, hemits⟩ := (emits_cons hseg name).mp hemits
          rw [if_pos hname]
          cases segs with
          | nil => exact mem_singleton.mpr rfl
          | cons next segs => exact absurd hemits (emits_nil next segs)
        · obtain ⟨hname, hemits⟩ := (emits_cons hseg name).mp hemits
          rw [if_pos hname]
          cases segs with
          | nil => exact absurd hemits (ne_nil_of_has hbelow)
          | cons next segs => exact mem_map.mpr ⟨below, ihc.mpr ⟨kind, hbelow, hemits⟩, rfl⟩

/-! ## Patterns up to their first `**` -/

theorem matches_cons_iff (hseg : seg.isGlobStar = false) :
    Matches (seg :: segs) path ↔ ∃ name rest, path = name :: rest ∧ NameMatches seg.atoms name ∧ Matches segs rest := by
  constructor
  · intro h
    cases h with
    | name _ hname hrest => exact ⟨_, _, rfl, hname, hrest⟩
    | none hstar => simp [hseg] at hstar
    | more hstar => simp [hseg] at hstar
  · rintro ⟨name, _, rfl, hname, hrest⟩
    exact .name hseg hname hrest

theorem matches_nil_iff : Matches [] path ↔ path = [] := by
  constructor
  · rintro ⟨⟩
    rfl
  · rintro rfl
    exact .nil

theorem matches_star_iff (hseg : seg.isGlobStar = true) :
    Matches (seg :: segs) path ↔ ∃ below rest, path = below ++ rest ∧ Matches segs rest := by
  constructor
  · intro h
    induction path with
    | nil =>
      cases h with
      | none _ h => exact ⟨[], [], rfl, h⟩
    | cons name path ih =>
      cases h with
      | name hname => simp [hseg] at hname
      | none _ h => exact ⟨[], name :: path, rfl, h⟩
      | more _ h =>
        obtain ⟨below, rest, rfl, hrest⟩ := ih h
        exact ⟨name :: below, rest, rfl, hrest⟩
  · rintro ⟨below, rest, rfl, hrest⟩
    induction below with
    | nil => exact .none hseg hrest
    | cons name below ih => exact .more hseg ih

variable {before after : List Segment}

/-- Whatever reads a pattern name by name splits a path where the pattern is split. -/
theorem append_iff {P : List Segment → Path → Prop} (hbefore : ∀ s ∈ before, s.isGlobStar = false)
    (hP : ∀ s ∈ before, ∀ segs path,
      P (s :: segs) path ↔ ∃ name rest, path = name :: rest ∧ NameMatches s.atoms name ∧ P segs rest) :
    P (before ++ after) path ↔ ∃ dirs rest, path = dirs ++ rest ∧ Matches before dirs ∧ P after rest := by
  induction before generalizing path with
  | nil => simp [matches_nil_iff]
  | cons s before ih =>
    have ih := fun path => @ih path (fun t ht => hbefore t (.tail _ ht)) (fun t ht => hP t (.tail _ ht))
    simp only [cons_append, hP s mem_cons_self, ih, matches_cons_iff (hbefore s mem_cons_self)]
    constructor
    · rintro ⟨name, _, rfl, hname, dirs, rest, rfl, hdirs, hrest⟩
      exact ⟨name :: dirs, rest, rfl, ⟨name, dirs, rfl, hname, hdirs⟩, hrest⟩
    · rintro ⟨_, rest, rfl, ⟨name, dirs, rfl, hname, hdirs⟩, hrest⟩
      exact ⟨name, dirs ++ rest, rfl, hname, dirs, rest, rfl, hdirs, hrest⟩

theorem matches_append_iff (hbefore : ∀ s ∈ before, s.isGlobStar = false) :
    Matches (before ++ after) path ↔ ∃ dirs rest, path = dirs ++ rest ∧ Matches before dirs ∧ Matches after rest :=
  append_iff hbefore fun s hs _ _ => matches_cons_iff (hbefore s hs)

theorem emits_append_iff (hbefore : ∀ s ∈ before, s.isGlobStar = false)
    (hcompiled : ∀ s ∈ before, compile s.text = some s.atoms) :
    Emits kind (before ++ after) path ↔ ∃ dirs rest, path = dirs ++ rest ∧ Matches before dirs ∧ Emits kind after rest :=
  append_iff hbefore fun s hs segs path => by
    simp only [Emits, hbefore s hs, Bool.false_eq_true, if_false, matchSegment_iff (hcompiled s hs)]

theorem length_of_matches (hbefore : ∀ s ∈ before, s.isGlobStar = false) (h : Matches before path) :
    path.length = before.length := by
  induction before generalizing path with
  | nil =>
    obtain rfl := matches_nil_iff.mp h
    rfl
  | cons s before ih =>
    obtain ⟨name, rest, rfl, -, hrest⟩ := (matches_cons_iff (hbefore s mem_cons_self)).mp h
    rw [length_cons, length_cons, ih (fun t ht => hbefore t (.tail _ ht)) hrest]

/-- A pattern whose first `**` has one segment behind it: the path's last name is matched by that segment. -/
theorem matches_last_iff {star last : Segment} (hbefore : ∀ s ∈ before, s.isGlobStar = false)
    (hstar : star.isGlobStar = true) (hlast : last.isGlobStar = false) :
    Matches (before ++ [star, last]) path ↔
      ∃ dirs below name, path = dirs ++ (below ++ [name]) ∧ Matches before dirs ∧ NameMatches last.atoms name := by
  rw [matches_append_iff hbefore]
  simp only [matches_star_iff hstar, matches_cons_iff hlast, matches_nil_iff]
  constructor
  · rintro ⟨dirs, _, rfl, hdirs, below, _, rfl, name, _, rfl, hname, rfl⟩
    exact ⟨dirs, below, name, rfl, hdirs, hname⟩
  · rintro ⟨dirs, below, name, rfl, hdirs, hname⟩
    exact ⟨dirs, _, rfl, hdirs, below, _, rfl, name, [], rfl, hname, rfl⟩

/-- … and the walk emits, with any number of segments behind it, the files whose name the first of them matches. -/
theorem emits_star_iff {star next : Segment} {rest : List Segment} (hbefore : ∀ s ∈ before, s.isGlobStar = false)
    (hcompiled : ∀ s ∈ before ++ star :: next :: rest, compile s.text = some s.atoms) (hstar : star.isGlobStar = true) :
    Emits kind (before ++ star :: next :: rest) path ↔ kind = .file ∧
      ∃ dirs below name, path = dirs ++ (below ++ [name]) ∧ Matches before dirs ∧ NameMatches next.atoms name := by
  rw [emits_append_iff hbefore fun s hs => hcompiled s (mem_append_left _ hs)]
  simp only [Emits, if_pos hstar, matchSegment_iff (hcompiled next (by simp))]
  constructor
  · rintro ⟨dirs, _, rfl, hdirs, hkind, below, name, rfl, hname⟩
    exact ⟨hkind, dirs, below, name, rfl, hdirs, hname⟩
  · rintro ⟨hkind, dirs, below, name, rfl, hdirs, hname⟩
    exact ⟨dirs, _, rfl, hdirs, hkind, below, name, rfl, hname⟩

/-! ## Where the walk emits what matches -/

/-- What the call finds: the paths of the walk, and the working directory for `**` alone. -/
def Emitted (tree : Listing) (segs : List Segment) (path : Path) : Prop :=
  (path = [] ∧ ∃ star, segs = [star] ∧ star.isGlobStar = true) ∨ ∃ kind, Has tree kind path ∧ Emits kind segs path

/-- The call finds the paths of the tree that match. -/
def Complete (tree : Listing) (segs : List Segment) : Prop :=
  ∀ path, InTree tree path → (Emitted tree segs path ↔ Matches segs path)

theorem complete_of_no_star (hne : segs ≠ []) (hsegs : ∀ s ∈ segs, s.isGlobStar = false)
    (hcompiled : ∀ s ∈ segs, compile s.text = some s.atoms) : Complete tree segs := by
  have hemits : ∀ kind path, Emits kind segs path ↔ Matches segs path := by
    intro kind path
    have h := @emits_append_iff kind path segs [] hsegs hcompiled
    have h' := @matches_append_iff path segs [] hsegs
    rw [append_nil] at h h'
    rw [h, h']
    simp only [Emits, matches_nil_iff]
  intro path hin
  simp only [Emitted, hemits]
  constructor
  · rintro (⟨-, star, rfl, hstar⟩ | ⟨-, -, h⟩)
    · exact absurd hstar (by simp [hsegs star mem_cons_self])
    · exact h
  · intro h
    rcases hin with rfl | ⟨kind, hkind⟩
    · obtain ⟨seg, segs, rfl⟩ := exists_cons_of_ne_nil hne
      exact absurd ((hemits .dir []).mpr h) (emits_nil seg segs)
    · exact .inr ⟨kind, hkind, h⟩

theorem complete_star {star : Segment} (hstar : star.isGlobStar = true) : Complete tree [star] := by
  intro path hin
  refine iff_of_true ?_ ((matches_star_iff hstar).mpr ⟨path, [], by simp, .nil⟩)
  rcases hin with rfl | ⟨kind, hkind⟩
  · exact .inl ⟨rfl, star, rfl, hstar⟩
  · exact .inr ⟨kind, hkind, by simpa [Emits, hstar] using ne_nil_of_has hkind⟩

/-- A pattern that ends in its `**` loses what its start matches. -/
theorem complete_last_star_iff {star : Segment} (hne : before ≠ []) (hbefore : ∀ s ∈ before, s.isGlobStar = false)
    (hcompiled : ∀ s ∈ before, compile s.text = some s.atoms) (hstar : star.isGlobStar = true) :
    Complete tree (before ++ [star]) ↔ ∀ path, InTree tree path → ¬ Matches before path := by
  have hemitted : ∀ path, Emitted tree (before ++ [star]) path ↔
      ∃ kind, Has tree kind path ∧ ∃ dirs rest, path = dirs ++ rest ∧ Matches before dirs ∧ rest ≠ [] := by
    intro path
    simp only [Emitted, emits_append_iff hbefore hcompiled, Emits, if_pos hstar]
    refine or_iff_right ?_
    rintro ⟨-, s, heq, -⟩
    exact hne (append_eq_singleton_iff.mp heq |>.resolve_right fun h => absurd h.2 (cons_ne_nil _ _)).1
  have hmatches : ∀ path, Matches (before ++ [star]) path ↔ ∃ dirs rest, path = dirs ++ rest ∧ Matches before dirs := by
    intro path
    rw [matches_append_iff hbefore]
    refine exists_congr fun dirs => exists_congr fun rest => and_congr_right fun _ => and_iff_left ?_
    exact (matches_star_iff hstar).mpr ⟨rest, [], by simp, .nil⟩
  simp only [Complete, hemitted, hmatches]
  constructor
  · intro h path hin hpath
    obtain ⟨-, -, dirs, rest, rfl, hdirs, hrest⟩ := (h path hin).mpr ⟨path, [], by simp, hpath⟩
    have hlen := length_of_matches hbefore hpath
    rw [length_append, length_of_matches hbefore hdirs] at hlen
    exact hrest (length_eq_zero_iff.mp (by omega))
  · intro h path hin
    refine ⟨fun ⟨_, _, dirs, rest, heq, hdirs, _⟩ => ⟨dirs, rest, heq, hdirs⟩, ?_⟩
    rintro ⟨dirs, rest, rfl, hdirs⟩
    have hrest : rest ≠ [] := by
      rintro rfl
      rw [append_nil] at hin
      exact h dirs hin hdirs
    rcases hin with hnil | ⟨kind, hkind⟩
    · exact absurd (append_eq_nil_iff.mp hnil).2 hrest
    · exact ⟨kind, hkind, dirs, rest, rfl, hdirs, hrest⟩

theorem emitted_star_iff {star next : Segment} {rest : List Segment} (hbefore : ∀ s ∈ before, s.isGlobStar = false)
    (hcompiled : ∀ s ∈ before ++ star :: next :: rest, compile s.text = some s.atoms) (hstar : star.isGlobStar = true) :
    Emitted tree (before ++ star :: next :: rest) path ↔ Has tree .file path ∧
      ∃ dirs below name, path = dirs ++ (below ++ [name]) ∧ Matches before dirs ∧ NameMatches next.atoms name := by
  simp only [Emitted, emits_star_iff hbefore hcompiled hstar]
  constructor
  · rintro (⟨-, s, heq, -⟩ | ⟨_, hkind, rfl, h⟩)
    · exact absurd (congrArg length heq) (by simp; omega)
    · exact ⟨hkind, h⟩
  · rintro ⟨hkind, h⟩
    exact .inr ⟨.file, hkind, rfl, h⟩

/-- A pattern is cut in two before its first `**`. -/
theorem exists_span (segs : List Segment) : ∃ before after, segs.span (fun s => !s.isGlobStar) = (before, after) ∧
    segs = before ++ after ∧ (∀ s ∈ before, s.isGlobStar = false) ∧ ∀ s ∈ after.head?, s.isGlobStar = true := by
  refine ⟨_, _, span_eq_takeWhile_dropWhile _ _, takeWhile_append_dropWhile.symm, fun s hs => ?_, fun s hs => ?_⟩
  · simpa using mem_takeWhile_imp hs
  · have := head?_dropWhile_not (fun s : Segment => !s.isGlobStar) segs
    rw [Option.mem_def.mp hs] at this
    simpa using this

/-- **The condition is exact** for what the walk finds. -/
theorem complete_iff (hne : segs ≠ []) (hcompiled : ∀ s ∈ segs, compile s.text = some s.atoms) :
    Complete tree segs ↔ Fits tree segs := by
  obtain ⟨before, after, hspan, rfl, hbefore, hafter⟩ := exists_span segs
  rw [Fits, hspan]
  match after, hafter with
  | [], _ =>
    rw [append_nil] at hne hcompiled ⊢
    exact iff_of_true (complete_of_no_star hne hbefore hcompiled) trivial
  | [star], hafter =>
    have hstar := hafter star rfl
    match before with
    | [] => exact iff_of_true (complete_star hstar) trivial
    | s :: before =>
      exact complete_last_star_iff (cons_ne_nil s before) hbefore (fun t ht => hcompiled t (mem_append_left _ ht)) hstar
  | star :: next :: rest, hafter =>
    have hstar := hafter star rfl
    simp only [Complete, emitted_star_iff hbefore hcompiled hstar]
    split
    case isTrue hlast =>
      obtain ⟨rfl, hlast⟩ := hlast
      simp only [← matches_last_iff hbefore hstar hlast]
      exact forall₂_congr fun path _ => ⟨fun h hpath => (h.mpr hpath).1, fun h => ⟨And.right, fun hpath => ⟨h hpath, hpath⟩⟩⟩
    case isFalse => exact forall₂_congr fun path _ => iff_comm

/-! ## The call -/

theorem segments_eq (h : Relative seg segs) : segments (patternText (seg :: segs)) = some (seg :: segs) := by
  have hplain : ∀ t ∈ (seg :: segs).map Segment.text, ∀ c ∈ t, c ≠ slash ∧ c ≠ 0x5c ∧ c ≠ 0x7b := by
    intro t ht
    obtain ⟨s, hs, rfl⟩ := mem_map.mp ht
    exact (h.proper s hs).plain
  have hmap : (patternText (seg :: segs)).map (fun c => if c = 0x5c then slash else c) = patternText (seg :: segs) := by
    refine (map_congr_left fun c hc => if_neg ?_).trans (List.map_id _)
    rcases mem_intercalate hc with hc | ⟨t, ht, hc⟩
    · rw [mem_singleton.mp hc]
      decide
    · exact (hplain t ht c hc).2.1
  have hsplit : (patternText (seg :: segs)).splitOn slash = (seg :: segs).map Segment.text :=
    splitOn_intercalate _ (fun t ht hc => (hplain t ht slash hc).1 rfl) (cons_ne_nil _ _)
  have hcompiled : ∀ l : List Segment, (∀ s ∈ l, s.Proper) →
      (l.map Segment.text).mapM (fun t => (compile t).map (Segment.mk t)) = some l := by
    intro l hl
    induction l with
    | nil => rfl
    | cons s l ih =>
      rw [map_cons, mapM_cons, (hl s mem_cons_self).compiled, ih fun t ht => hl t (mem_cons_of_mem s ht)]
      rfl
  -- A pattern that starts with `./` has `.` for its first segment.
  have hdot : ¬ [0x2e, slash].isPrefixOf (patternText (seg :: segs)) := by
    intro hdot
    obtain ⟨rest, hrest⟩ := isPrefixOf_iff_prefix.mp hdot
    have hfirst : ([0x2e, slash] ++ rest).splitOn slash = [0x2e] :: rest.splitOn slash := by
      simp [splitOn, splitOnP_cons_eq_if_modifyHead, slash]
    rw [← hrest, hfirst] at hsplit
    exact h.no_dot (List.cons.inj hsplit).1.symm
  simp only [segments, hmap, if_neg hdot, hsplit]
  exact hcompiled _ h.proper

theorem mem_results {s : Units} :
    s ∈ results tree seg segs ↔ ∃ path, Emitted tree (seg :: segs) path ∧ s = render path := by
  simp only [results, mem_dedup, mem_insertionSort, mem_map, mem_append, Emitted, ← mem_walk_iff]
  refine exists_congr fun path => and_congr (or_congr_left ?_) eq_comm
  by_cases hself : segs = [] ∧ seg.isGlobStar
  · rw [if_pos (by simpa using hself), mem_singleton]
    exact ⟨fun hp => ⟨hp, seg, by rw [hself.1], hself.2⟩, And.left⟩
  · rw [if_neg (by simpa using hself)]
    refine ⟨fun hp => absurd hp not_mem_nil, ?_⟩
    rintro ⟨-, _, heq, hstar⟩
    obtain ⟨rfl, rfl⟩ := List.cons.inj heq
    exact absurd ⟨rfl, hstar⟩ hself

theorem names_of_has (hnamed : named tree) (h : Has tree kind path) : ∀ name ∈ path, slash ∉ name ∧ name ≠ [0x2e] := by
  induction tree generalizing path with
  | nil => exact h.elim
  | file name rest ih =>
    simp only [named, Bool.and_eq_true, Bool.not_eq_true', decide_eq_true_eq] at hnamed
    rcases h with ⟨-, rfl⟩ | h
    · simpa using hnamed.1
    · exact ih hnamed.2 h
  | dir name children rest ihc ih =>
    simp only [named, Bool.and_eq_true, Bool.not_eq_true', decide_eq_true_eq] at hnamed
    have hname : slash ∉ name ∧ name ≠ [0x2e] := by simpa using hnamed.1.1
    rcases h with ⟨-, rfl⟩ | ⟨below, rfl, h⟩ | h
    · simpa using hname
    · exact forall_mem_cons.mpr ⟨hname, ihc hnamed.1.2 h⟩
    · exact ih hnamed.2 h

theorem names_of_inTree (hnamed : named tree) (h : InTree tree path) :
    ∀ name ∈ path, slash ∉ name ∧ name ≠ [0x2e] := by
  rcases h with rfl | ⟨kind, h⟩
  · simp
  · exact names_of_has hnamed h

/-- A path is read back from its text. -/
theorem render_inj {path' : Path} (h : ∀ name ∈ path, slash ∉ name ∧ name ≠ [0x2e])
    (h' : ∀ name ∈ path', slash ∉ name ∧ name ≠ [0x2e]) (heq : render path = render path') : path = path' := by
  have hsplit : ∀ p : Path, (∀ name ∈ p, slash ∉ name ∧ name ≠ [0x2e]) →
      (render p).splitOn slash = if p = [] then [[0x2e]] else p := by
    intro p hp
    cases p with
    | nil => decide
    | cons name p => exact splitOn_intercalate _ (fun t ht => (hp t ht).1) (cons_ne_nil _ _)
  have hpath := (hsplit path h).symm.trans ((congrArg _ heq).trans (hsplit path' h'))
  split at hpath <;> split at hpath
  · simp [*]
  · exact absurd rfl (h' [0x2e] (hpath ▸ mem_singleton.mpr rfl)).2
  · exact absurd rfl (h [0x2e] (hpath ▸ mem_singleton.mpr rfl)).2
  · exact hpath

theorem mem_results_iff_found (hnamed : named tree) :
    (∀ s, s ∈ results tree seg segs ↔ Found tree (seg :: segs) s) ↔ Complete tree (seg :: segs) := by
  simp only [mem_results]
  have hin : ∀ {path}, Emitted tree (seg :: segs) path → InTree tree path
    | _, .inl ⟨hnil, _⟩ => .inl hnil
    | _, .inr ⟨kind, hkind, _⟩ => .inr ⟨kind, hkind⟩
  constructor
  · intro h path hpath
    constructor
    · intro hemitted
      obtain ⟨path', hpath', hmatches, heq⟩ := (h (render path)).mp ⟨path, hemitted, rfl⟩
      rwa [render_inj (names_of_inTree hnamed hpath) (names_of_inTree hnamed hpath') heq]
    · intro hmatches
      obtain ⟨path', hemitted, heq⟩ := (h (render path)).mpr ⟨path, hpath, hmatches, rfl⟩
      rwa [render_inj (names_of_inTree hnamed hpath) (names_of_inTree hnamed (hin hemitted)) heq]
  · intro h s
    refine exists_congr fun path => ⟨fun ⟨hemitted, hs⟩ => ⟨hin hemitted, (h path (hin hemitted)).mp hemitted, hs⟩, ?_⟩
    rintro ⟨hpath, hmatches, hs⟩
    exact ⟨(h path hpath).mpr hmatches, hs⟩

def segmentOf (s : String) : Segment := ⟨units s, (compile (units s)).getD []⟩

theorem proper_of {s : String} (hne : units s ≠ [])
    (hplain : (units s).all (fun c => decide (c ≠ slash ∧ c ≠ 0x5c ∧ c ≠ 0x7b)))
    (hcompiled : (compile (units s)).isSome) : (segmentOf s).Proper where
  nonempty := hne
  plain c hc := of_decide_eq_true (all_eq_true.mp hplain c hc)
  compiled := by
    obtain ⟨_, hatoms⟩ := Option.isSome_iff_exists.mp hcompiled
    simp [segmentOf, hatoms]

/-- `src/a.js`, `src/deep/c.js` and `lib/b.js`. -/
def sources : Listing :=
  .dir (units "src") (.file (units "a.js") (.dir (units "deep") (.file (units "c.js") .nil) .nil))
    (.dir (units "lib") (.file (units "b.js") .nil) .nil)

theorem inTree_sources (h : InTree sources path) :
    (Has sources .file path ∧ path ∈ [[units "src", units "a.js"], [units "src", units "deep", units "c.js"],
      [units "lib", units "b.js"]]) ∨ path ∈ [[], [units "src"], [units "src", units "deep"], [units "lib"]] := by
  simp only [InTree, sources, Has] at h ⊢
  grind

/-- Only files match `**/*.js` there. -/
theorem fits_sources : Fits sources [segmentOf "**", segmentOf "*.js"] := by
  have hspan : [segmentOf "**", segmentOf "*.js"].span (fun seg => !seg.isGlobStar) =
      ([], [segmentOf "**", segmentOf "*.js"]) := rfl
  rw [Fits, hspan]
  dsimp only
  rw [if_pos ⟨rfl, by decide⟩]
  intro path hin hmatches
  have hnone : ∀ s ∈ ([] : List Segment), s.isGlobStar = false := fun _ h => nomatch h
  obtain ⟨dirs, below, name, hpath, -, hname⟩ := (matches_last_iff hnone (by decide) (by decide)).mp hmatches
  rcases inTree_sources hin with ⟨hfile, -⟩ | hdir
  · exact hfile
  · have hdirs : [[], [units "src"], [units "src", units "deep"], [units "lib"]].all
        (fun dir => dir.getLast?.all fun name => !test (segmentOf "*.js").atoms name) = true := by decide
    have hlast := all_eq_true.mp hdirs path hdir
    rw [show path.getLast? = some name by simp [hpath], Option.all_some, (test_iff _ _).mpr hname] at hlast
    nomatch hlast

end Oam.Fs
