/-
  `install.rs`: extracting a package's tarball on a disk with symbolic links.

  An entry's path is joined to the destination, CLEANED and compared (`pathClean` — lexically), and then made with calls
  that the kernel resolves PHYSICALLY: a `..` behind a link is cleaned away with the link's name, but walked from where
  the link leads.  Gzip and tar are read elsewhere: the archive is the list of its entries.
-/
import Oam.Lib.PosixFs

namespace Oam.Loader.Extract

open Bool List Text LexPath PosixPath PosixFs

/-! ## Data -/

inductive EntryType where
  | directory
  | regular
  | symlink
  | other
deriving DecidableEq, Repr

structure Entry where
  path : Str
  entryType : EntryType
  contents : List UInt8 := []
  /-- `header().mode()`, if it can be read. -/
  mode : Option Nat := none
  /-- `link_name()`, if it can be read and there is one. -/
  linkName : Option Str := none

inductive ExtractError where
  | traversal (rel dest : Str)
  | createDir (path : Str) (e : Errno)
  | write (path : Str) (e : Errno)
  | symlink (target linkName : Str) (e : Errno)
deriving DecidableEq, Repr

/-- The message, `osError` giving the system's text for an error. -/
def ExtractError.message (osError : Errno → Str) : ExtractError → Str
  | .traversal rel dest => "tarball path traversal: ".toList ++ rel ++ " escapes ".toList ++ dest
  | .createDir path e => "create dir ".toList ++ path ++ ": ".toList ++ osError e
  | .write path e => "write ".toList ++ path ++ ": ".toList ++ osError e
  | .symlink target linkName e =>
    "symlink ".toList ++ target ++ " -> ".toList ++ linkName ++ ": ".toList ++ osError e

/-! ## The program -/

def display (path : List Str) : Str := if path.isEmpty then ['/'] else ['/'].intercalate path

/-- `path_clean` of an absolute path: `.` and `..` taken out lexically, the root its own parent. -/
def pathClean (path : List Str) : Loc :=
  path.foldl (fun out seg =>
    match classify seg with
    | .up => out.dropLast
    | .stay => out
    | .down name => out ++ [name]) []

/-- `strip_prefix("package")`, the path itself if it does not start so.  What is left starts and ends
    with a component. -/
def stripPackage (path : Str) : Str :=
  match segments path with
  | [] => path
  | first :: rest =>
    if first = "package".toList then
      ['/'].intercalate ((rest.dropWhile isStay).reverse.dropWhile isStay).reverse
    else path

/-- `Path::parent`. -/
def parent (path : List Str) : Option (List Str) := (parents path).head?

/-- `Path::join` of a text to a path with no trailing slash. -/
def join (path : List Str) (text : Str) : List Str :=
  if hasRoot text then segments text else path ++ segments text

section Program

variable (limit : Nat) (dest : Str)

/-- Skipped if its text, read from the link's directory, leaves the destination; else the link is made. -/
def createSymlinkEntry (linkName : Str) (target : List Str) (destClean : Loc) (d : Disk) :
    Disk × Except ExtractError Unit :=
  let linkParent := (parent target).getD target
  if !destClean.isPrefixOf (pathClean (join linkParent linkName)) then (d, .ok ())
  else
    let d₁ := match unlink limit target d with
      | .ok d₁ => d₁
      | .error _ => d
    match symlink limit linkName target d₁ with
    | .ok d₂ => (d₂, .ok ())
    | .error e => (d₁, .error (.symlink (display target) linkName e))

/-- The entry itself: a directory, a file or a link at its target. -/
def placeEntry (entry : Entry) (target : List Str) (d : Disk) : Disk × Except ExtractError Unit :=
  match entry.entryType with
  | .directory =>
    match createDirAll limit target d with
    | (d₁, .ok ()) => (d₁, .ok ())
    | (d₁, .error e) => (d₁, .error (.createDir (display target) e))
  | .regular =>
    match openWrite limit target entry.contents d with
    | .error e => (d, .error (.write (display target) e))
    | .ok d₁ =>
      -- the mode is best effort
      match entry.mode with
      | none => (d₁, .ok ())
      | some mode =>
        match chmod limit mode target d₁ with
        | .ok d₂ => (d₂, .ok ())
        | .error _ => (d₁, .ok ())
  | .symlink =>
    match entry.linkName with
    | none => (d, .ok ())
    | some linkName => createSymlinkEntry limit linkName target (pathClean (segments dest)) d
  | .other => (d, .ok ())

def targetOf (entry : Entry) : List Str := segments (push dest (stripPackage entry.path))

/-- The guard: the cleaned path does not start with the cleaned destination. -/
def escapes (entry : Entry) : Bool :=
  !(pathClean (segments dest)).isPrefixOf (pathClean (targetOf dest entry))

/-- One entry: skipped if nothing is left of its path, refused if it escapes, else placed. -/
def extractEntry (entry : Entry) (d : Disk) : Disk × Except ExtractError Unit :=
  let rel := stripPackage entry.path
  if rel.isEmpty then (d, .ok ())
  else if escapes dest entry then (d, .error (.traversal rel dest))
  else
    let target := targetOf dest entry
    match parent target with
    | none => placeEntry limit dest entry target d
    | some up =>
      match createDirAll limit up d with
      | (d₁, .error e) => (d₁, .error (.createDir (display up) e))
      | (d₁, .ok ()) => placeEntry limit dest entry target d₁

def extractInto : List Entry → Disk → Disk × Except ExtractError Unit
  | [], d => (d, .ok ())
  | entry :: entries, d =>
    match extractEntry limit dest entry d with
    | (d₁, .error e) => (d₁, .error e)
    | (d₁, .ok ()) => extractInto entries d₁

end Program

/-! ## The specification -/

def linksOf (d : Disk) : Loc → Option Str := fun l => linkText (d.node l)

/-- The entry's path is relative, never climbs above the destination, and is plain from there, with `k` links to follow.
    -/
def stays (k : Nat) (root : Loc) (entry : Entry) (d : Disk) : Bool :=
  let rel := stripPackage entry.path
  !hasRoot rel && staysBelow 0 ((segments rel).map classify) && plain (linksOf d) root k root (segments rel)

/-- Every entry of the run that is extracted `stays`: one that is empty or refused need not. -/
def allStay (limit : Nat) (dest : Str) (k : Nat) (root : Loc) : List Entry → Disk → Bool
  | [], _ => true
  | entry :: entries, d =>
    ((stripPackage entry.path).isEmpty || escapes dest entry || stays k root entry d) &&
      match extractEntry limit dest entry d with
      | (_, .error _) => true
      | (d₁, .ok ()) => allStay limit dest k root entries d₁

/-! ## The path of an entry -/

theorem segments_relative {rel : Str} (hne : rel ≠ []) (hrel : hasRoot rel = false) :
    ∃ seg more, segments rel = seg :: more ∧ seg.isEmpty = false := by
  cases rel with
  | nil => exact absurd rfl hne
  | cons c cs =>
    have hc : isSep c = false := by
      simpa [hasRoot, isSep] using hrel
    rw [segments, splitOnP_cons_eq_if_modifyHead, hc]
    cases hcs : cs.splitOnP isSep with
    | nil => exact absurd hcs (splitOnP_ne_nil _ _)
    | cons x more => exact ⟨c :: x, more, rfl, rfl⟩

/-- Joining texts joins segments, perhaps without the destination's trailing slash. -/
theorem segments_push {dest rel : Str} (hdest : hasRoot dest) (hrel : hasRoot rel = false) : ∃ ds, segments
    (push dest rel) = ds ++ segments rel ∧ (segments dest = ds ∨ segments dest = ds ++ [[]]) := by
  have hne : dest ≠ [] := by
    rintro rfl
    nomatch hdest
  have hslash : isSep '/' := rfl
  unfold push segments
  rw [hrel, if_neg Bool.false_ne_true]
  by_cases hlast : dest.getLast? = some '/'
  · obtain ⟨q, rfl⟩ := getLast?_eq_some_iff.mp hlast
    refine ⟨q.splitOnP isSep, ?_, .inr ?_⟩
    · rw [if_pos (.inr hlast), append_assoc, singleton_append, splitOnP_append_cons _ _ hslash]
    · rw [splitOnP_append_cons _ _ hslash, splitOnP_nil]
  · refine ⟨dest.splitOnP isSep, ?_, .inl rfl⟩
    rw [if_neg (not_or.mpr ⟨hne, hlast⟩), splitOnP_append_cons _ _ hslash]

/-! ## One entry -/

section Entry

variable {limit k : Nat} {root : Loc} {ds rs : List Str} {linkAt : Loc → Option Str} {d d' : Disk}

/-- The destination `ds` is the directory `root`, whatever is below it. -/
def IsAt (limit : Nat) (ds : List Str) (k : Nat) (root : Loc) (d : Disk) : Prop :=
  Reaches (outside root d.node) limit [] ds k root

theorem IsAt.confined (h : IsAt limit ds k root d) (hc : Confined root d d') : IsAt limit ds k root d' := by
  unfold IsAt
  rw [hc.outside_eq]
  exact h

structure IsStaying (linkAt : Loc → Option Str) (k : Nat) (root : Loc) (rs : List Str) : Prop where
  head : ∃ seg more, rs = seg :: more ∧ seg.isEmpty = false
  below : staysBelow 0 (rs.map classify) = true
  plain : PosixFs.plain linkAt root k root rs = true

variable (hs : IsStaying linkAt k root rs) (hat : IsAt limit ds k root d)

include hs hat

/-- **A beginning of the entry's path is resolved inside the destination.** -/
theorem IsStaying.resolvesInside (hlinks : HasLinks linkAt d.node) {r : List Str} (hne : r ≠ []) (hr : r <+: rs) :
    ResolvesInside limit root (ds ++ r) d := by
  intro f s hslot
  obtain ⟨_, _, hrs, hseg⟩ := hs.head
  have hall : r.all isEmpty = false := by
    cases r with
    | nil => exact absurd rfl hne
    | cons =>
      rw [hrs, cons_prefix_cons] at hr
      rw [all_cons, hr.1, hseg, Bool.false_and]
  rw [slot_append (Reaches.of_outside hat) f hall] at hslot
  obtain ⟨tail, rfl⟩ := hr
  have hplain := plain_of_append k root r tail hs.plain
  have hbelow := hs.below
  rw [map_append] at hbelow
  refine slot_inside (f := f) hlinks k [] r s ?_ (staysBelow_of_append hbelow) ?_
  · rwa [append_nil]
  · rwa [append_nil]

omit hs hat in
theorem HasLinks.of_eq (h : ∀ l, linkText (d.node l) = linkAt l) : HasLinks linkAt d.node :=
  fun l => .inr (h l)

omit hs hat in
theorem links_set (h : ∀ l, linkText (d.node l) = linkAt l) {loc : Loc} {x : Option Node}
    (hold : linkText (d.node loc) = none) (hx : linkText x = none) :
    ∀ l, linkText ((d.set loc x).node l) = linkAt l := by
  intro l
  by_cases hl : l = loc
  · rw [← h l, hl, hold]
    show linkText (if loc = loc then x else d.node loc) = none
    rw [if_pos rfl, hx]
  · rw [← h l]
    show linkText (if l = loc then x else d.node l) = _
    rw [if_neg hl]

variable (hlinks : ∀ l, linkText (d.node l) = linkAt l)

include hlinks

theorem mkdir_keeps {path : List Str} (hpath : path <+: ds ++ rs) (h : mkdir limit path d = .ok d') :
    Confined root d d' ∧ ∀ l, linkText (d'.node l) = linkAt l := by
  obtain ⟨_, name, _, hslot, hnone, rfl⟩ := mkdir_spec h
  rcases prefix_or_prefix_of_prefix hpath (prefix_append ds rs) with hup | ⟨r, rfl⟩
  · -- at the destination or above: everything is there
    obtain ⟨_, rfl⟩ := hup
    exact absurd h (mkdir_of_reaches (Reaches.of_outside hat))
  · have hne : r ≠ [] := by
      rintro rfl
      have hreach : Reaches d.node limit [] (ds ++ [] ++ []) k root := by
        rw [append_nil, append_nil]
        exact Reaches.of_outside hat
      exact mkdir_of_reaches hreach h
    have hin := hs.resolvesInside hat (HasLinks.of_eq hlinks) hne
      ((prefix_append_right_inj ds).mp hpath)
    refine ⟨Confined.set (hin _ _ hslot) d name _, links_set hlinks ?_ rfl⟩
    rw [hnone]
    rfl

theorem createDirAll_keeps {path : List Str} (hpath : path <+: ds ++ rs) : Confined root d
    (createDirAll limit path d).1 ∧ ∀ l, linkText ((createDirAll limit path d).1.node l) = linkAt l := by
  refine createDirAllFrom_rule (P := fun d' => Confined root d d' ∧
    ∀ l, linkText (d'.node l) = linkAt l) _ ?_ d ⟨Confined.refl root d, hlinks⟩
  rintro q hq d₁ d₂ ⟨hc, hl⟩ hmk
  have hq' : q <+: ds ++ rs := by
    rcases mem_cons.mp hq with rfl | hq
    · exact hpath
    · exact (prefix_of_mem_parents hq).trans hpath
  obtain ⟨hc', hl'⟩ := mkdir_keeps hs (hat.confined hc) hl hq' hmk
  exact ⟨hc.trans hc', hl'⟩

theorem createSymlinkEntry_confined (linkName : Str) (destClean : Loc) : Confined root d
    (createSymlinkEntry limit linkName (ds ++ rs) destClean d).1 := by
  have hne : rs ≠ [] := by
    obtain ⟨_, _, rfl, -⟩ := hs.head
    exact cons_ne_nil _ _
  -- the link is made on the disk with the old entry gone, and with no new link yet
  have hmake : ∀ d₁, Confined root d d₁ → HasLinks linkAt d₁.node →
      Confined root d (match symlink limit linkName (ds ++ rs) d₁ with
        | .ok d₂ => (d₂, (.ok () : Except ExtractError Unit))
        | .error e => (d₁, .error (.symlink (display (ds ++ rs)) linkName e))).1 := by
    intro d₁ hc hl
    cases hsym : symlink limit linkName (ds ++ rs) d₁ with
    | error => exact hc
    | ok =>
      have hin := hs.resolvesInside (hat.confined hc) hl hne prefix_rfl
      exact hc.trans (symlink_confined hin hsym)
  unfold createSymlinkEntry
  dsimp only
  split
  · exact Confined.refl root d
  cases hun : unlink limit (ds ++ rs) d with
  | error => exact hmake d (Confined.refl root d) (HasLinks.of_eq hlinks)
  | ok d₁ =>
    have hin := hs.resolvesInside hat (HasLinks.of_eq hlinks) hne prefix_rfl
    refine hmake d₁ (unlink_confined hin hun) ?_
    obtain ⟨dir, name, _, -, rfl⟩ := unlink_spec hun
    intro l
    by_cases hl : l = dir ++ [name]
    · exact .inl (if_pos hl)
    · refine .inr ?_
      rw [← hlinks l]
      exact congrArg linkText (if_neg hl)

theorem placeEntry_confined (dest : Str) (entry : Entry) : Confined root d
    (placeEntry limit dest entry (ds ++ rs) d).1 := by
  have hne : rs ≠ [] := by
    obtain ⟨_, _, rfl, -⟩ := hs.head
    exact cons_ne_nil _ _
  unfold placeEntry
  cases entry.entryType with
  | directory =>
    have hdirs := (createDirAll_keeps hs hat hlinks prefix_rfl).1
    dsimp only
    split <;> (rename_i heq; rw [heq] at hdirs; exact hdirs)
  | regular =>
    dsimp only
    cases hw : openWrite limit (ds ++ rs) entry.contents d with
    | error => exact Confined.refl root d
    | ok d₁ =>
      have hin := hs.resolvesInside hat (HasLinks.of_eq hlinks) hne prefix_rfl
      have hc := openWrite_confined hin hw
      cases entry.mode with
      | none => exact hc
      | some mode =>
        dsimp only
        cases hm : chmod limit mode (ds ++ rs) d₁ with
        | error => exact hc
        | ok =>
          obtain ⟨_, _, _, old, -, hold, rfl⟩ := openWrite_spec hw
          have hl₁ := links_set hlinks hold (x := some (.file entry.contents old)) rfl
          have hin₁ := hs.resolvesInside (hat.confined hc) (HasLinks.of_eq hl₁) hne prefix_rfl
          exact hc.trans (chmod_confined hin₁ hm)
  | symlink =>
    dsimp only
    cases entry.linkName with
    | none => exact Confined.refl root d
    | some linkName => exact createSymlinkEntry_confined hs hat hlinks linkName _
  | other => exact Confined.refl root d

end Entry

/-! ## The run -/

theorem extractEntry_confined {limit k : Nat} {root : Loc} {dest : Str} {d : Disk} (hdest : hasRoot dest)
    (hat : ∀ ds, segments dest = ds ∨ segments dest = ds ++ [[]] → IsAt limit ds k root d) {entry : Entry}
    (h : ((stripPackage entry.path).isEmpty || escapes dest entry || stays k root entry d)) : Confined root d
    (extractEntry limit dest entry d).1 := by
  unfold extractEntry
  dsimp only
  split
  · exact Confined.refl root d
  rename_i hne
  split
  · exact Confined.refl root d
  rename_i hesc
  rw [Bool.eq_false_iff.mpr hne, Bool.eq_false_iff.mpr hesc, Bool.false_or, Bool.false_or,
    stays, and_eq_true, and_eq_true, not_eq_true'] at h
  obtain ⟨⟨hrel, hbelow⟩, hplain⟩ := h
  obtain ⟨ds, htarget, hds⟩ := segments_push hdest hrel
  have hat := hat ds hds
  have hs : IsStaying (linksOf d) k root (segments (stripPackage entry.path)) :=
    ⟨segments_relative (fun he => hne (by rw [he]; rfl)) hrel, hbelow, hplain⟩
  rw [targetOf, htarget]
  split
  · exact placeEntry_confined hs hat (fun _ => rfl) dest entry
  rename_i up hup
  have hpath : up <+: ds ++ segments (stripPackage entry.path) :=
    prefix_of_mem_parents (mem_of_mem_head? hup)
  obtain ⟨hc, hl⟩ := createDirAll_keeps hs hat (fun _ => rfl) hpath
  split
  · rename_i heq
    rw [heq] at hc
    exact hc
  · rename_i d₁ heq
    rw [heq] at hc hl
    exact hc.trans (placeEntry_confined hs (hat.confined hc) hl dest entry)

theorem extractInto_confined {limit k : Nat} {root : Loc} {dest : Str} (hdest : hasRoot dest)
    (entries : List Entry) : ∀ d : Disk,
    (∀ ds, segments dest = ds ∨ segments dest = ds ++ [[]] → IsAt limit ds k root d) →
    allStay limit dest k root entries d → Confined root d (extractInto limit dest entries d).1 := by
  induction entries with
  | nil => exact fun d _ _ => Confined.refl root d
  | cons entry entries ih =>
    intro d hat h
    rw [allStay, and_eq_true] at h
    have hc := extractEntry_confined hdest hat h.1
    have hrest := h.2
    unfold extractInto
    split
    · rename_i heq
      rw [heq] at hc
      exact hc
    · rename_i d₁ heq
      rw [heq] at hc hrest
      exact hc.trans (ih d₁ (fun ds hds => (hat ds hds).confined hc) hrest)

theorem pathClean_segments (path : Str) : pathClean (segments path) = rootedLocation path := by
  have hstep : (fun (out : Loc) seg =>
      match classify seg with
      | .up => out.dropLast
      | .stay => out
      | .down name => out ++ [name]) = fun out seg => step out (classify seg) := by
    funext out seg
    cases classify seg <;> rfl
  rw [rootedLocation, walk, moves, foldl_map, pathClean, hstep]
  rfl

/-- **Extraction stays in its destination.** If `dest` is the empty directory `root`, every run whose entries are
    refused or `stays` changes only what is below `root`; what leaves it lexically is refused. -/
theorem extraction_stays_in_dest (limit k : Nat) (dest : Str) (root : Loc) (d : Disk)
    (entries : List Entry) (hdest : hasRoot dest = true)
    (hreach : Reaches d.node limit [] (segments dest) k root)
    (hempty : ∀ l, isBelow root l = true → d.node l = none)
    (hstay : allStay limit dest k root entries d = true) :
    Confined root d (extractInto limit dest entries d).1 ∧
    (∀ entry d', stripPackage entry.path ≠ [] →
      ¬ rootedLocation dest <+: rootedLocation (push dest (stripPackage entry.path)) →
      extractEntry limit dest entry d' = (d', .error (.traversal (stripPackage entry.path) dest))) ∧
    ∀ entry d' linkName target, entry.entryType = .symlink → entry.linkName = some linkName →
      ¬ rootedLocation dest <+: pathClean (join ((parent target).getD target) linkName) →
      placeEntry limit dest entry target d' = (d', .ok ()) := by
  refine ⟨extractInto_confined hdest entries d ?_ hstay, ?_, ?_⟩
  · -- the destination is empty: nothing below it was looked at on the way there
    intro ds hds
    have hreach' : Reaches (outside root d.node) limit [] (segments dest) k root := by
      refine hreach.mono fun l x hx => ?_
      have hl : isBelow root l = false := by
        by_contra hl
        rw [not_eq_false] at hl
        rw [hempty l hl] at hx
        nomatch hx
      rw [outside, hl]
      exact hx
    rcases hds with rfl | hds
    · exact hreach'
    · exact hreach'.dropStay rfl ds hds
  · intro entry d' hne hout
    have hesc : escapes dest entry = true := by
      rw [escapes, targetOf, pathClean_segments, pathClean_segments, not_eq_true',
        ← not_eq_true, isPrefixOf_iff_prefix]
      exact hout
    have hne' : (stripPackage entry.path).isEmpty = false := by
      rw [← not_eq_true, List.isEmpty_iff]
      exact hne
    simp only [extractEntry, hne', hesc, false_eq_true, if_false, if_true]
  · intro entry d' linkName target htype hlink hout
    have hskip : (!(pathClean (segments dest)).isPrefixOf
        (pathClean (join ((parent target).getD target) linkName))) = true := by
      rw [pathClean_segments, not_eq_true', ← not_eq_true, isPrefixOf_iff_prefix]
      exact hout
    simp only [placeEntry, htype, hlink, createSymlinkEntry, hskip, if_true]

/-- The directories `/`, `/p` and `/p/d`. -/
def freshDisk : Disk :=
  ⟨fun l => if l = [] ∨ l = [['p']] ∨ l = [['p'], ['d']] then some .dir else none, []⟩

/-- Links out of their own directories, one written through, and one that the guard does not let be made. -/
def package : List Entry :=
  [{ path := "package/lib/x".toList, entryType := .regular, contents := [120], mode := some 420 },
    { path := "package/bin/x".toList, entryType := .symlink, linkName := some "../lib/x".toList },
    { path := "package/esm/out".toList, entryType := .symlink, linkName := some "../../lib".toList },
    { path := "package/esm/shared".toList, entryType := .symlink, linkName := some "../lib".toList },
    { path := "package/esm/shared/y/".toList, entryType := .directory }]

theorem extraction_stays_in_dest_package :
    (extractInto 40 "/p/d".toList package freshDisk).1.node ["p".toList, "d".toList, "lib".toList, "y".toList] =
        some .dir ∧
      (extractInto 40 "/p/d".toList package freshDisk).1.touched.all ([['p'], ['d']].isPrefixOf ·) = true := by
  refine ⟨by decide +kernel, ?_⟩
  have h := (extraction_stays_in_dest 40 40 "/p/d".toList [['p'], ['d']] freshDisk package rfl
    (.stay rfl (.dir rfl rfl (.dir rfl rfl (.done _ _)))) ?_ (by decide +kernel)).1
  · obtain ⟨_, htouched, hnew⟩ := h.touched
    rw [htouched, all_eq_true]
    exact fun l hl => isPrefixOf_iff_prefix.mpr (hnew l hl)
  · intro l hl
    have hne : ¬ (l = [] ∨ l = [['p']] ∨ l = [['p'], ['d']]) := by
      rintro (rfl | rfl | rfl) <;> exact absurd hl (by decide)
    exact if_neg hne

/-- A link to `.` and a `..` behind it: both entries pass the guard, and the file is written beside the
    destination. -/
theorem dotdot_behind_link_writes_outside : (extractInto 40 "/p/d".toList
      [{ path := "package/l".toList, entryType := .symlink, linkName := some ".".toList },
       { path := "package/l/../y".toList, entryType := .regular, contents := [121] }]
      freshDisk).2 = .ok () ∧
    (extractInto 40 "/p/d".toList
      [{ path := "package/l".toList, entryType := .symlink, linkName := some ".".toList },
       { path := "package/l/../y".toList, entryType := .regular, contents := [121] }]
      freshDisk).1.node [['p'], ['y']] = some (.file [121] none) := by
  decide +kernel

end Oam.Loader.Extract
