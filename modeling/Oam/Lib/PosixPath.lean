/-
  Paths of a POSIX system, as texts: `std::path` with `/` as its only separator.  Joining is walking on
  (`rootedLocation_push`).
-/
import Oam.Lib.LexPath

namespace PosixPath

open Text LexPath

/-- The only separator. -/
def isSep (c : Char) : Bool := c == '/'

/-- `Path::has_root`. -/
def hasRoot (path : Str) : Bool := path.head? == some '/'

/-- `PathBuf::push`: a rooted path replaces, any other is appended after one separator. -/
def push (path component : Str) : Str :=
  if hasRoot component then component
  else if path = [] ∨ path.getLast? = some '/' then path ++ component
  else path ++ '/' :: component

def rootedLocation (path : Str) : List Str := walk [] (moves isSep path)

/-- The location `raw` denotes: from the root when it is rooted, else from the location of `cwd`. -/
def locate (cwd raw : Str) : List Str :=
  if hasRoot raw then rootedLocation raw else walk (rootedLocation cwd) (moves isSep raw)

theorem isName_of_mem_rootedLocation {path n : Str} (h : n ∈ rootedLocation path) : IsName isSep n :=
  isName_of_mem_walk (fun _ hm => absurd hm List.not_mem_nil) n h

theorem isName_ne_nil_and_slash {n : Str} (h : IsName isSep n) : n ≠ [] ∧ '/' ∉ n :=
  ⟨h.ne_nil, fun hmem => by simpa [isSep] using h.no_sep '/' hmem⟩

theorem hasRoot_push {path component : Str} (h : hasRoot path) : hasRoot (push path component) := by
  cases path with
  | nil => nomatch h
  | cons a as =>
    unfold push
    split
    · assumption
    · split <;> exact h

theorem rootedLocation_push {path component : Str} (hp : hasRoot path) (hc : hasRoot component = false) :
    rootedLocation (push path component) = walk (rootedLocation path) (moves isSep component) := by
  have hne : path ≠ [] := by rintro rfl; nomatch hp
  have hslash : isSep '/' := rfl
  simp only [push, hc, Bool.false_eq_true, if_false, hne, false_or]
  split
  · -- the path already ends in its separator, which cuts the moves there
    rename_i hlast
    obtain ⟨p, rfl⟩ := List.getLast?_eq_some_iff.mp hlast
    simp only [rootedLocation, List.append_assoc, List.singleton_append, moves_append_cons hslash,
      walk_append, moves_nil, walk_cons, walk_nil, step]
  · simp only [rootedLocation, moves_append_cons hslash, walk_append]

end PosixPath
