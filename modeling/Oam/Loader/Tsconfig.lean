/-
  `tsconfig.rs`: the options a `tsconfig.json` comes to, through its `extends`.  Merging is associative, with the config
  that declares nothing as its unit; so a tree comes to the merge of its `preorder`.
-/
import Oam.Lib.Json
import Oam.Lib.PosixPath

namespace Oam.Loader

open Option Text PosixPath

structure PathsConfig where
  baseDir : Str
  patterns : List (Str × List Str)
deriving DecidableEq

structure TsconfigInfo where
  paths : Option PathsConfig
  jsx : Option Str
  jsxImportSource : Option Str
  jsxFactory : Option Str
  jsxFragmentFactory : Option Str
deriving DecidableEq

namespace TsconfigInfo

def isComplete (self : TsconfigInfo) : Bool :=
  self.paths.isSome && self.jsx.isSome && self.jsxImportSource.isSome && self.jsxFactory.isSome &&
    self.jsxFragmentFactory.isSome

def mergedOver (self : TsconfigInfo) : Option TsconfigInfo → TsconfigInfo
  | none => self
  | some inherited =>
    { paths := self.paths.or inherited.paths
      jsx := self.jsx.or inherited.jsx
      jsxImportSource := self.jsxImportSource.or inherited.jsxImportSource
      jsxFactory := self.jsxFactory.or inherited.jsxFactory
      jsxFragmentFactory := self.jsxFragmentFactory.or inherited.jsxFragmentFactory }

end TsconfigInfo

inductive Extends where
  | one (entry : Str)
  | many (entries : List Str)

def Extends.intoVec : Extends → List Str
  | .one entry => [entry]
  | .many entries => entries

structure RawCompilerOptions where
  paths : Option (List (Str × Json.Value)) := none
  jsx : Option Str := none
  jsxImportSource : Option Str := none
  jsxFactory : Option Str := none
  jsxFragmentFactory : Option Str := none

structure RawTsconfig where
  extended : Option Extends := none
  compilerOptions : RawCompilerOptions := {}

/-- What the file system has: a config read and parsed, whether a path is a file, and `Path::parent`. -/
structure ConfigHost where
  read : Str → Option RawTsconfig
  isFile : Str → Bool
  parent : Str → Option Str

/-! ## Program -/

def subs : Json.Value → List Str
  | .arr items => items.filterMap fun
    | .str s => some s
    | _ => none
  | _ => []

def ownOptions (dir : Str) (options : RawCompilerOptions) : TsconfigInfo where
  paths := options.paths.map fun paths => ⟨dir, paths.map fun (key, value) => (key, subs value)⟩
  jsx := options.jsx
  jsxImportSource := options.jsxImportSource
  jsxFactory := options.jsxFactory
  jsxFragmentFactory := options.jsxFragmentFactory

/-- The config an entry names; a package is not looked up. -/
def extendsPath (host : ConfigHost) (dir entry : Str) : Option Str :=
  if ['.', '/'].isPrefixOf entry || ['.', '.', '/'].isPrefixOf entry || hasRoot entry then
    let parent := push dir entry
    some (if host.isFile parent then parent else parent ++ ".json".toList)
  else none

def inherit (host : ConfigHost) (dir : Str) (load : Str → Option TsconfigInfo) (inherited : Option TsconfigInfo)
    (entry : Str) : Option TsconfigInfo :=
  match (extendsPath host dir entry).bind load with
  | some parent => some (parent.mergedOver inherited)
  | none => inherited

def RawTsconfig.entries (parsed : RawTsconfig) : List Str := (parsed.extended.map Extends.intoVec).getD []

/-- `load_chain` at the depth `9 - left`. -/
def loadChain (host : ConfigHost) : (left : Nat) → Str → Option TsconfigInfo
  | 0, _ => none
  | left + 1, tsconfig => do
    let parsed ← host.read tsconfig
    let dir ← host.parent tsconfig
    let own := ownOptions dir parsed.compilerOptions
    if own.isComplete then some own
    else some (own.mergedOver (parsed.entries.foldl (inherit host dir (loadChain host left)) none))

/-! ## Specification -/

def preorderAll (host : ConfigHost) (dir : Str) (walk : Str → Option (List TsconfigInfo)) :
    List Str → Option (List TsconfigInfo)
  | [] => some []
  | entry :: entries => do
    let later ← preorderAll host dir walk entries
    let path ← extendsPath host dir entry
    let these ← walk path
    some (later ++ these)

/-- What the configs of a tree declare, each before those it extends; nothing if one cannot be read. -/
def preorder (host : ConfigHost) : (levels : Nat) → Str → Option (List TsconfigInfo)
  | 0, _ => none
  | levels + 1, tsconfig => do
    let parsed ← host.read tsconfig
    let dir ← host.parent tsconfig
    let below ← preorderAll host dir (preorder host levels) parsed.entries
    some (ownOptions dir parsed.compilerOptions :: below)

/-! ## Correctness -/

namespace TsconfigInfo

def empty : TsconfigInfo := ⟨none, none, none, none, none⟩

def firstOf (walk : List TsconfigInfo) : TsconfigInfo := walk.foldr (fun t rest => t.mergedOver (some rest)) empty

theorem mergedOver_getD (t : TsconfigInfo) (inherited : Option TsconfigInfo) :
    t.mergedOver (some (inherited.getD empty)) = t.mergedOver inherited := by
  cases inherited <;> simp [mergedOver, empty]

theorem mergedOver_assoc (a b : TsconfigInfo) (c : Option TsconfigInfo) :
    (a.mergedOver (some b)).mergedOver c = a.mergedOver (some (b.mergedOver c)) := by
  cases c <;> simp [mergedOver, Option.or_assoc]

theorem firstOf_append (walk rest : List TsconfigInfo) :
    firstOf (walk ++ rest) = (firstOf walk).mergedOver (some (firstOf rest)) := by
  induction walk with
  | nil => simp [firstOf, mergedOver, empty]
  | cons t walk ih => exact (congrArg (fun x => t.mergedOver (some x)) ih).trans (mergedOver_assoc t _ _).symm

theorem firstOf_option {α : Type} {option : TsconfigInfo → Option α} (hempty : option empty = none)
    (hmerge : ∀ a b, option (a.mergedOver (some b)) = (option a).or (option b)) (walk : List TsconfigInfo) :
    option (firstOf walk) = walk.findSome? option := by
  induction walk with
  | nil => exact hempty
  | cons t walk ih =>
    have hfirst : option (firstOf (t :: walk)) = (option t).or (option (firstOf walk)) := hmerge t _
    rw [hfirst, ih, List.findSome?_cons]
    cases option t <;> rfl

theorem mergedOver_of_isComplete {t : TsconfigInfo} (h : t.isComplete) (inherited : Option TsconfigInfo) :
    t.mergedOver inherited = t := by
  simp only [isComplete, Bool.and_eq_true] at h
  cases inherited <;> simp [mergedOver, or_of_isSome, h]

end TsconfigInfo

open TsconfigInfo

variable {host : ConfigHost}

theorem loadChain_succ {tsconfig dir : Str} {parsed : RawTsconfig} (left : Nat) (hread : host.read tsconfig = some parsed)
    (hdir : host.parent tsconfig = some dir) :
    loadChain host (left + 1) tsconfig = some ((ownOptions dir parsed.compilerOptions).mergedOver
      (parsed.entries.foldl (inherit host dir (loadChain host left)) none)) := by
  simp only [loadChain, hread, hdir, bind_eq_bind, bind_some]
  split
  · next hown => rw [mergedOver_of_isComplete hown]
  · rfl

theorem inherit_all {load : Str → Option TsconfigInfo} {walk : Str → Option (List TsconfigInfo)}
    (h : ∀ {path these}, walk path = some these → load path = some (firstOf these)) {dir : Str} {entries : List Str}
    {all : List TsconfigInfo} (hall : preorderAll host dir walk entries = some all) (inherited : Option TsconfigInfo) :
    (entries.foldl (inherit host dir load) inherited).getD empty = (firstOf all).mergedOver inherited := by
  induction entries generalizing all inherited with
  | nil =>
    cases hall
    cases inherited <;> simp [firstOf, mergedOver, empty]
  | cons entry entries ih =>
    simp only [preorderAll, bind_eq_bind, bind_eq_some_iff] at hall
    obtain ⟨_, hlater, _, hpath, _, hthese, heq⟩ := hall
    cases heq
    rw [List.foldl_cons, ih hlater, inherit, hpath, bind_some, h hthese, firstOf_append, mergedOver_assoc]

theorem loadChain_eq_firstOf {levels : Nat} {tsconfig : Str} {walk : List TsconfigInfo}
    (h : preorder host levels tsconfig = some walk) : loadChain host levels tsconfig = some (firstOf walk) := by
  induction levels generalizing tsconfig walk with
  | zero => nomatch h
  | succ levels ih =>
    simp only [preorder, bind_eq_bind, bind_eq_some_iff] at h
    obtain ⟨_, hread, _, hdir, _, hbelow, heq⟩ := h
    cases heq
    rw [loadChain_succ levels hread hdir, ← mergedOver_getD, inherit_all ih hbelow]
    rfl

/-- **Every option is the first declared in the preorder**, if the tree is of height eight or less. -/
theorem chain_takes_first_declared (host : ConfigHost) (root : Str) (walk : List TsconfigInfo)
    (h : preorder host 9 root = some walk) :
    (∃ info, loadChain host 9 root = some info ∧ info.paths = walk.findSome? (·.paths) ∧
      info.jsx = walk.findSome? (·.jsx) ∧ info.jsxImportSource = walk.findSome? (·.jsxImportSource) ∧
      info.jsxFactory = walk.findSome? (·.jsxFactory) ∧
      info.jsxFragmentFactory = walk.findSome? (·.jsxFragmentFactory)) ∧
    ∀ left tsconfig parsed dir, host.read tsconfig = some parsed → host.parent tsconfig = some dir →
      loadChain host (left + 1) tsconfig = some ((ownOptions dir parsed.compilerOptions).mergedOver
        (parsed.entries.foldl (inherit host dir (loadChain host left)) none)) :=
  ⟨⟨firstOf walk, loadChain_eq_firstOf h, firstOf_option rfl (fun _ _ => rfl) walk, firstOf_option rfl (fun _ _ => rfl) walk,
    firstOf_option rfl (fun _ _ => rfl) walk, firstOf_option rfl (fun _ _ => rfl) walk,
    firstOf_option rfl (fun _ _ => rfl) walk⟩, fun left _ _ _ hread hdir => loadChain_succ left hread hdir⟩

/-- `/p/tsconfig.json` extends `./a` and `./b.json`, which both declare `jsx`. -/
def twoParents : ConfigHost where
  read path :=
    if path = "/p/tsconfig.json".toList then some { extended := some (.many ["./a".toList, "./b.json".toList]) }
    else if path = "/p/./a.json".toList then
      some { compilerOptions := { jsx := some "react".toList, jsxFactory := some "h".toList } }
    else if path = "/p/./b.json".toList then some { compilerOptions := { jsx := some "preserve".toList } }
    else none
  isFile path := path = "/p/./b.json".toList
  parent path := if path = "/p/tsconfig.json".toList then some "/p".toList else some "/p/.".toList

theorem chain_takes_first_declared_twoParents :
    ∃ info, loadChain twoParents 9 "/p/tsconfig.json".toList = some info ∧ info.jsx = some "preserve".toList ∧
      info.jsxFactory = some "h".toList := by
  obtain ⟨⟨info, hload, -, hjsx, -, hfactory, -⟩, -⟩ := chain_takes_first_declared twoParents "/p/tsconfig.json".toList
    [empty, { empty with jsx := some "preserve".toList },
      { empty with jsx := some "react".toList, jsxFactory := some "h".toList }] (by decide +kernel)
  exact ⟨info, hload, hjsx, hfactory⟩

end Oam.Loader
