/-
  The type-check daemon's cache.

  `oam check` asks a daemon, which keeps the diagnostics of its last run of tsgo and a FINGERPRINT of the files that run
  could have read.  The tree may change between any two of the daemon's steps.  The fingerprint is taken BEFORE the
  check, from a list older still: a file that appears after it is guarded by nothing (`late_file_served_stale`).
-/
import Oam.Lib.Text
import Oam.Lib.Trace
import Mathlib.Data.List.Sort
import Mathlib.Algebra.Group.Nat.Defs

namespace Oam.Ts

open List Text

/-- An absolute path, component by component. -/
abbrev Path := List Str

/-- Modification time and size; `none` is a missing file. -/
abbrev Stamp := Option (Nat × Nat)

/-- The answers of the file system and of tsgo, at every moment `W`. -/
structure Host (W D : Type) where
  readDir : W → Path → Option (List Str)
  isDir : W → Path → Bool
  metadata : W → Path → Stamp
  -- A directory entry's own metadata: a link is not followed.
  entryMetadata : W → Path → Stamp
  content : W → Path → Option (List UInt8)
  -- The configs that a config's `extends` and `references` lead to, in the order they are pushed.
  named : W → Path → List Path
  listFiles : W → Option (List Path)
  check : W → Option D
  -- The files that the check of this moment compiled.
  compiled : W → List Path

/-! ## Entries and their mix -/

def lexBefore {α : Type} [DecidableEq α] (lt : α → α → Bool) : List α → List α → Bool
  | [], b => !b.isEmpty
  | _ :: _, [] => false
  | x :: a, y :: b => if x = y then lexBefore lt a b else lt x y

def nameBefore : Str → Str → Bool := lexBefore fun c d => decide (c.toNat < d.toNat)

/-- The ordered map from paths to stamps. -/
abbrev Entries := List (Path × Stamp)

def Entries.insert (path : Path) (stamp : Stamp) : Entries → Entries
  | [] => [(path, stamp)]
  | (p, s) :: rest =>
    if p = path then (path, stamp) :: rest
    else if lexBefore nameBefore path p then (path, stamp) :: (p, s) :: rest
    else (p, s) :: insert path stamp rest

def Entries.get : Entries → Path → Option Stamp
  | [], _ => none
  | (p, s) :: rest, path => if p = path then some s else get rest path

def Entries.orInsert (path : Path) (stamp : Stamp) (entries : Entries) : Entries :=
  if (entries.get path).isSome then entries else entries.insert path stamp

@[simp] theorem Entries.get_insert (path q : Path) (stamp : Stamp) (entries : Entries) :
    (entries.insert path stamp).get q = if path = q then some stamp else entries.get q := by
  induction entries with
  | nil => rfl
  | cons e rest ih =>
    obtain ⟨p, s⟩ := e
    by_cases hp : p = path
    · subst hp
      simp only [Entries.insert, Entries.get, if_true]
      split <;> rfl
    · simp only [Entries.insert, if_neg hp]
      split
      · rfl
      · simp only [Entries.get, ih]
        by_cases hq : p = q
        · rw [if_pos hq, if_neg (fun h => hp (hq.trans h.symm)), if_pos hq]
        · rw [if_neg hq, if_neg hq]

def fnvPrime : UInt64 := 0x100000001b3

def fnvOffset : UInt64 := 0xcbf29ce484222325

def fnv1a64 (bytes : List UInt8) : UInt64 := bytes.foldl (fun hash b => (hash ^^^ b.toUInt64) * fnvPrime) fnvOffset

def textBytes (s : Str) : List UInt8 := s.flatMap String.utf8EncodeChar

def pathBytes (path : Path) : List UInt8 := path.flatMap fun name => 0x2f :: textBytes name

def rotateLeft32 (n : UInt64) : UInt64 := n <<< 32 ||| n >>> 32

def mix (entries : Entries) : UInt64 :=
  entries.foldl (fun hash e =>
    let (mtime, len) := e.2.getD (2 ^ 128 - 1, 2 ^ 64 - 1)
    (hash ^^^ (fnv1a64 (pathBytes e.1) ^^^ UInt64.ofNat mtime ^^^ rotateLeft32 (UInt64.ofNat len))) * fnvPrime)
    fnvOffset

/-! ## The fingerprint -/

section Fingerprint

variable {W D : Type} (host : Host W D) (root tsconfig : Path) (fuel : Nat) (w : W)

def cap : Nat := 50000

def loadable : List Str :=
  ["ts".toList, "tsx".toList, "mts".toList, "cts".toList, "js".toList, "jsx".toList, "mjs".toList, "cjs".toList,
    "json".toList]

def tscLoadable (name : Str) : Bool :=
  match rsplitOnce '.' name with
  | some (stem, ext) => !stem.isEmpty && loadable.any fun e => decide (e = ext)
  | none => false

def lockfiles : List Path :=
  [["package.json".toList], ["package-lock.json".toList], ["pnpm-lock.yaml".toList], ["yarn.lock".toList],
    ["node_modules".toList, ".package-lock.json".toList]]

def dirListingStamp (dir : Path) : Stamp :=
  (host.readDir w dir).map fun names =>
    let names := names.insertionSort fun a b => !nameBefore b a
    ((names.foldl (fun hash name => (hash ^^^ fnv1a64 (textBytes name)) * fnvPrime) fnvOffset).toNat, names.length)

def skipped (dir : Path) (name : Str) : Bool :=
  decide (name = "node_modules".toList) || decide (name = ".git".toList) || decide (name = ".oam".toList) ||
    (decide (name = "target".toList) && decide (dir = root))

/-- One directory entry of the walk; `none` when the entries pass the cap. -/
def visit (dir : Path) : List Path × Entries → Str → Option (List Path × Entries)
  | (stack, entries), name =>
    let path := dir ++ [name]
    if host.isDir w path then
      some (if skipped root dir name then stack else path :: stack, entries)
    else if name ≠ "tsconfig.json".toList ∧ tscLoadable name = false then some (stack, entries)
    else
      let entries := entries.insert path (host.entryMetadata w path)
      if cap < entries.length then none else some (stack, entries)

/-- The walk of the directories on the stack.  A tree whose links make it endless uses up any `fuel`. -/
def walk : Nat → List Path → Entries → Option Entries
  | 0, _, _ => none
  | _ + 1, [], entries => some entries
  | n + 1, dir :: stack, entries => do
    let names ← host.readDir w dir
    let (stack, entries) ← names.foldlM (visit host root w dir) (stack, entries)
    walk n stack entries

def addListed (entries : Entries) (path : Path) : Entries :=
  let entries := entries.insert path (host.metadata w path)
  if root.isPrefixOf path ∨ path = [] then entries
  else entries.orInsert path.dropLast (dirListingStamp host w path.dropLast)

/-- `tsconfig_chain`, from the queue and what is out so far; `room` is what the limit of 64 leaves. -/
def chainFrom : (room : Nat) → (queue out : List Path) → List Path
  | 0, _, out => out
  | room + 1, queue, out =>
    match queue.dropWhile fun config => out.any fun p => decide (p = config) with
    | [] => out
    | config :: rest => chainFrom room ((host.named w config).reverse ++ rest) (out ++ [config])

def tsconfigChain : List Path := chainFrom host w 64 [tsconfig] []

def addStamp (entries : Entries) (path : Path) : Entries := entries.insert path (host.metadata w path)

/-- The lockfiles that exist beside an ancestor, and its `node_modules`, there or not. -/
def addAncestor (entries : Entries) (ancestor : Path) : Entries :=
  let present := (lockfiles.map (ancestor ++ ·)).filter fun path => (host.metadata w path).isSome
  addStamp host w (present.foldl (addStamp host w) entries) (ancestor ++ ["node_modules".toList])

def entries (listed : List Path) : Option Entries := do
  let walked ← walk host root w fuel [root] []
  let all := root.inits.reverse.foldl (addAncestor host w)
    ((tsconfigChain host tsconfig w).foldl (addStamp host w) (listed.foldl (addListed host root w) walked))
  if cap < all.length then none else some all

def fingerprint (listed : List Path) : Option UInt64 := (entries host root tsconfig fuel w listed).map mix

end Fingerprint

/-! ## What is entered -/

/-- The walk comes from `dir` to the file that these names lead to, and enters it. -/
def reaches {W D : Type} (host : Host W D) (root : Path) (w : W) (dir : Path) : List Str → Bool
  | [] => false
  | [name] => (host.readDir w dir).any (·.contains name) && !host.isDir w (dir ++ [name]) &&
      (decide (name = "tsconfig.json".toList) || tscLoadable name)
  | name :: rest => (host.readDir w dir).any (·.contains name) && host.isDir w (dir ++ [name]) &&
      !skipped root dir name && reaches host root w (dir ++ [name]) rest

section Entered

variable {W D : Type} {host : Host W D} {root : Path} {w : W} {m m' : Entries}

/-- What has an entry keeps one. -/
def Entries.Within (m m' : Entries) : Prop := ∀ f, (m.get f).isSome → (m'.get f).isSome

theorem Entries.Within.trans {m₁ m₂ m₃ : Entries} (h : m₁.Within m₂) (h' : m₂.Within m₃) : m₁.Within m₃ :=
  fun f hf => h' f (h f hf)

theorem Entries.within_insert (m : Entries) (p : Path) (stamp : Stamp) : m.Within (m.insert p stamp) := by
  intro f hf
  rw [Entries.get_insert]
  split
  · rfl
  · exact hf

theorem within_addListed (m : Entries) (p : Path) : m.Within (addListed host root w m p) := by
  simp only [addListed, Entries.orInsert]
  split
  · exact m.within_insert _ _
  split
  · exact m.within_insert _ _
  · exact (m.within_insert _ _).trans (Entries.within_insert _ _ _)

theorem within_addAncestor (m : Entries) (p : Path) : m.Within (addAncestor host w m p) := by
  refine Entries.Within.trans ?_ (Entries.within_insert _ _ _)
  exact foldlRecOn _ _ (fun _ hf => hf) fun _ hm _ _ => hm.trans (Entries.within_insert _ _ _)

/-- A listed file outside the root has its directory's listing entered. -/
theorem addListed_beside {p : Path} (hout : ¬root <+: p) (hp : p ≠ []) :
    ((addListed host root w m p).get p.dropLast).isSome := by
  have hnot : ¬(root.isPrefixOf p = true ∨ p = []) := fun h => h.elim (hout ∘ isPrefixOf_iff_prefix.mp) hp
  simp only [addListed, if_neg hnot, Entries.orInsert]
  split
  · assumption
  · rw [Entries.get_insert, if_pos rfl]
    rfl

/-- One name of a directory: what is stacked and entered stays, and the name is stacked or entered. -/
theorem visit_enters {dir : Path} {name : Str} {stack stack' : List Path}
    (h : visit host root w dir (stack, m) name = some (stack', m')) : stack ⊆ stack' ∧ m.Within m' ∧
      (host.isDir w (dir ++ [name]) = true → skipped root dir name = false → dir ++ [name] ∈ stack') ∧
      (host.isDir w (dir ++ [name]) = false → name = "tsconfig.json".toList ∨ tscLoadable name = true →
        (m'.get (dir ++ [name])).isSome) := by
  simp only [visit] at h
  split at h
  · next hdir =>
    cases h
    refine ⟨?_, fun _ hf => hf, fun _ hskip => ?_, fun hfile => ?_⟩
    · split
      · exact Subset.refl _
      · exact subset_cons_self _ _
    · rw [hskip]
      exact mem_cons_self ..
    · rw [hdir] at hfile
      cases hfile
  next hfile =>
  split at h
  · next hname =>
    cases h
    refine ⟨Subset.refl _, fun _ hf => hf, fun hdir => absurd hdir hfile, fun _ hload => ?_⟩
    rcases hload with hload | hload
    · exact absurd hload hname.1
    · rw [hname.2] at hload
      cases hload
  · split at h
    · cases h
    · cases h
      refine ⟨Subset.refl _, m.within_insert _ _, fun hdir => absurd hdir hfile, fun _ _ => ?_⟩
      rw [Entries.get_insert, if_pos rfl]
      rfl

theorem visits_enter {dir : Path} {names : List Str} {stack stack' : List Path}
    (h : names.foldlM (visit host root w dir) (stack, m) = some (stack', m')) : stack ⊆ stack' ∧ m.Within m' ∧
      ∀ name ∈ names, (host.isDir w (dir ++ [name]) = true → skipped root dir name = false → dir ++ [name] ∈ stack') ∧
        (host.isDir w (dir ++ [name]) = false → name = "tsconfig.json".toList ∨ tscLoadable name = true →
          (m'.get (dir ++ [name])).isSome) := by
  induction names generalizing stack m with
  | nil =>
    cases h
    exact ⟨Subset.refl _, fun _ hf => hf, nofun⟩
  | cons name names ih =>
    rw [foldlM_cons, Option.bind_eq_bind, Option.bind_eq_some_iff] at h
    obtain ⟨⟨_, m₁⟩, hone, hrest⟩ := h
    obtain ⟨hstack, hwithin, hdir, hfile⟩ := visit_enters hone
    obtain ⟨hstack', hwithin', hothers⟩ := ih hrest
    refine ⟨fun _ h => hstack' (hstack h), hwithin.trans hwithin', forall_mem_cons.mpr ⟨⟨?_, ?_⟩, hothers⟩⟩
    · exact fun h hskip => hstack' (hdir h hskip)
    · exact fun h hload => hwithin' _ (hfile h hload)

theorem walk_within {n : Nat} {stack : List Path} (h : walk host root w n stack m = some m') : m.Within m' := by
  induction n generalizing stack m with
  | zero => cases h
  | succ n ih =>
    cases stack with
    | nil =>
      cases h
      exact fun _ hf => hf
    | cons =>
      simp only [walk, Option.bind_eq_bind, Option.bind_eq_some_iff] at h
      obtain ⟨_, -, ⟨_, m₁⟩, hvisits, hrest⟩ := h
      exact (visits_enter hvisits).2.1.trans (ih hrest)

/-- **The walk enters what it reaches** from a directory on its stack. -/
theorem walk_enters {n : Nat} {stack : List Path} {dir : Path} {rest : List Str} (hmem : dir ∈ stack)
    (hreach : reaches host root w dir rest) (h : walk host root w n stack m = some m') :
    (m'.get (dir ++ rest)).isSome := by
  induction n generalizing stack m dir rest with
  | zero => cases h
  | succ n ih =>
    cases stack with
    | nil => cases hmem
    | cons top =>
      simp only [walk, Option.bind_eq_bind, Option.bind_eq_some_iff] at h
      obtain ⟨names, hnames, ⟨_, m₁⟩, hvisits, hrest⟩ := h
      obtain ⟨hstack, -, hentered⟩ := visits_enter hvisits
      rcases mem_cons.mp hmem with rfl | hmem
      · -- this directory is read now: its file is entered, or the next directory is stacked
        match rest with
        | [] => cases hreach
        | [name] =>
          simp only [reaches, hnames, Option.any_some, Bool.and_eq_true, contains_iff_mem, Bool.or_eq_true,
            Bool.not_eq_true', decide_eq_true_eq] at hreach
          obtain ⟨⟨hname, hfile⟩, hload⟩ := hreach
          exact walk_within hrest _ ((hentered name hname).2 hfile hload)
        | name :: next :: rest =>
          simp only [reaches, hnames, Option.any_some, Bool.and_eq_true, contains_iff_mem, Bool.not_eq_true'] at hreach
          obtain ⟨⟨⟨hname, hdir⟩, hskip⟩, hreach⟩ := hreach
          rw [append_cons]
          exact ih ((hentered name hname).1 hdir hskip) hreach hrest
      · exact ih (hstack hmem) hreach hrest

end Entered

/-! ## What an entry says of its file -/

section Entry

variable {W D : Type} {host : Host W D} {root tsconfig : Path} {fuel : Nat} {w : W} {m : Entries}

/-- Below the root an entry is the file's stamp, or that of the link in its place. -/
def Shows (host : Host W D) (root : Path) (w : W) (m : Entries) : Prop :=
  ∀ f s, root <+: f → m.get f = some s → s = host.metadata w f ∨ s = host.entryMetadata w f

variable (h : Shows host root w m)

include h

theorem Shows.insert {p : Path} {stamp : Stamp}
    (hs : root <+: p → stamp = host.metadata w p ∨ stamp = host.entryMetadata w p) :
    Shows host root w (m.insert p stamp) := by
  intro f s hf hget
  rw [Entries.get_insert] at hget
  split at hget
  case isTrue heq =>
    subst heq
    cases hget
    exact hs hf
  case isFalse => exact h f s hf hget

theorem Shows.addStamp (p : Path) : Shows host root w (addStamp host w m p) :=
  h.insert fun _ => .inl rfl

-- A directory whose listing is stamped holds a file outside the root, so it is outside as well.
theorem Shows.addListed (p : Path) : Shows host root w (addListed host root w m p) := by
  have hp : Shows host root w (m.insert p (host.metadata w p)) := h.addStamp p
  simp only [Ts.addListed, Entries.orInsert]
  split
  case isTrue => exact hp
  case isFalse hout =>
    split
    · exact hp
    · refine hp.insert fun hroot => absurd (.inl ?_) hout
      have hparent : p.dropLast <+: p := dropLast_prefix p
      exact isPrefixOf_iff_prefix.mpr (hroot.trans hparent)

theorem Shows.addAncestor (p : Path) : Shows host root w (addAncestor host w m p) := by
  refine Shows.addStamp ?_ _
  exact foldlRecOn _ _ h fun _ hm p _ => hm.addStamp p

theorem visits_shows {dir : Path} {names : List Str} {stack stack' : List Path} {m' : Entries}
    (hv : names.foldlM (visit host root w dir) (stack, m) = some (stack', m')) : Shows host root w m' := by
  induction names generalizing stack m with
  | nil =>
    cases hv
    exact h
  | cons name names ih =>
    rw [foldlM_cons, Option.bind_eq_bind, Option.bind_eq_some_iff] at hv
    obtain ⟨⟨_, m₁⟩, hone, hrest⟩ := hv
    refine ih ?_ hrest
    simp only [visit] at hone
    split at hone
    · cases hone
      exact h
    split at hone
    · cases hone
      exact h
    · split at hone
      · cases hone
      · cases hone
        exact h.insert fun _ => .inr rfl

theorem walk_shows {n : Nat} {stack : List Path} {m' : Entries}
    (hw : walk host root w n stack m = some m') : Shows host root w m' := by
  induction n generalizing stack m with
  | zero => cases hw
  | succ n ih =>
    cases stack with
    | nil =>
      cases hw
      exact h
    | cons =>
      simp only [walk, Option.bind_eq_bind, Option.bind_eq_some_iff] at hw
      obtain ⟨_, -, ⟨_, m₁⟩, hvisits, hrest⟩ := hw
      exact ih (visits_shows h hvisits) hrest

omit h

def Stamped (host : Host W D) (w : W) (f : Path) (m : Entries) : Prop := m.get f = some (host.metadata w f)

theorem Stamped.addStamp {f : Path} (h : Stamped host w f m) (p : Path) : Stamped host w f (addStamp host w m p) := by
  unfold Stamped Ts.addStamp
  rw [Entries.get_insert]
  split
  case isTrue heq => rw [heq]
  case isFalse => exact h

theorem Stamped.addListed {f : Path} {p : Path} (h : f = p ∨ Stamped host w f m) :
    Stamped host w f (addListed host root w m p) := by
  have hp : Stamped host w f (m.insert p (host.metadata w p)) := by
    rcases h with rfl | h
    · unfold Stamped
      rw [Entries.get_insert, if_pos rfl]
    · exact h.addStamp p
  simp only [Ts.addListed, Entries.orInsert]
  split
  · exact hp
  split
  case isTrue => exact hp
  case isFalse hnone =>
    unfold Stamped at hp ⊢
    rw [Entries.get_insert, if_neg, hp]
    rintro rfl
    exact hnone (by rw [hp]; rfl)

/-- What adding `f` makes so, and adding another file keeps, is so once all are added. -/
theorem foldl_addListed {P : Entries → Prop} {f : Path} {listed : List Path} (hf : f ∈ listed)
    (hown : ∀ m, P (addListed host root w m f)) (hkeep : ∀ m p, P m → P (addListed host root w m p)) (m : Entries) :
    P (listed.foldl (addListed host root w) m) := by
  obtain ⟨before, behind, rfl⟩ := append_of_mem hf
  rw [foldl_append, foldl_cons]
  exact foldlRecOn _ _ (hown _) fun m hm p _ => hkeep m p hm

/-- What a fingerprint has entries of: the listed files, the listings of their directories outside the root, and what
    the walk reaches. -/
structure Enters (host : Host W D) (root : Path) (w : W) (listed : List Path) (m : Entries) : Prop where
  own : ∀ f ∈ listed, Stamped host w f m
  beside : ∀ f ∈ listed, ¬root <+: f → f ≠ [] → (m.get f.dropLast).isSome
  walked : ∀ rest, reaches host root w root rest → (m.get (root ++ rest)).isSome

/-- **What a fingerprint's entries are.**  Below the root, whatever is entered is a stamp of that file. -/
theorem entries_spec {listed : List Path} (h : entries host root tsconfig fuel w listed = some m) :
    Enters host root w listed m ∧ Shows host root w m := by
  simp only [entries, Option.bind_eq_bind, Option.bind_eq_some_iff] at h
  obtain ⟨walked, hwalk, hm⟩ := h
  split at hm
  · cases hm
  cases hm
  -- the configs and the ancestors only add to the listed files
  have hlater : Entries.Within (listed.foldl (addListed host root w) walked)
      (root.inits.reverse.foldl (addAncestor host w) ((tsconfigChain host tsconfig w).foldl (addStamp host w)
        (listed.foldl (addListed host root w) walked))) := by
    refine foldlRecOn _ _ ?_ fun _ hm p _ => hm.trans (within_addAncestor _ p)
    exact foldlRecOn _ _ (fun _ hf => hf) fun _ hm p _ => hm.trans (Entries.within_insert _ _ _)
  refine ⟨⟨fun f hf => ?_, fun f hf hout hne => hlater _ ?_, fun rest hreach => hlater _ ?_⟩, ?_⟩
  · refine foldlRecOn _ _ ?_ fun _ hm p _ => ?_
    · refine foldlRecOn _ _ ?_ fun _ hm p _ => hm.addStamp p
      exact foldl_addListed hf (fun _ => .addListed (.inl rfl)) (fun _ _ hm => .addListed (.inr hm)) _
    · exact Stamped.addStamp (foldlRecOn _ _ hm fun _ hm p _ => hm.addStamp p) _
  · exact foldl_addListed (P := fun m => (m.get f.dropLast).isSome) hf (fun _ => addListed_beside hout hne)
      (fun m p hm => within_addListed m p _ hm) _
  · refine foldlRecOn (motive := fun m => walked.Within m) _ _ (fun _ hf => hf)
      (fun _ hm p _ => hm.trans (within_addListed _ p)) _ ?_
    exact walk_enters (mem_singleton_self root) hreach hwalk
  · refine foldlRecOn _ _ ?_ fun _ hm p _ => hm.addAncestor p
    refine foldlRecOn _ _ ?_ fun _ hm p _ => hm.addStamp p
    refine foldlRecOn _ _ ?_ fun _ hm p _ => hm.addListed p
    exact walk_shows (fun _ _ _ hget => by cases hget) hwalk

end Entry

/-! ## The worker -/

/-- The result of a run of tsgo.  Its moment is for the specification only: no step reads it. -/
structure Checked (W D : Type) where
  moment : W
  diagnostics : D
deriving DecidableEq

structure Cache (W D : Type) where
  entry : Option (UInt64 × Checked W D)
  listed : List Path

/-- Where `check_worker` is; `printed` is the moment of the fingerprint, for the specification. -/
inductive Stage (W D : Type) where
  | idle
  | list
  | fingerprint (listed : Option (List Path))
  | check (listed : Option (List Path)) (fp : Option UInt64) (printed : W)
  | store (listed : Option (List Path)) (fp : Option UInt64) (printed : W) (checked : Checked W D)

structure Daemon (W D : Type) where
  now : W
  cache : Cache W D
  stage : Stage W D

inductive Move (W : Type) where
  | edit (w : W)
  | work

structure Served (W D : Type) where
  moment : W
  checked : Checked W D
deriving DecidableEq

section Worker

variable {W D : Type} (host : Host W D) (root tsconfig : Path) (fuel : Nat)

def start (w : W) : Daemon W D := ⟨w, ⟨none, []⟩, .idle⟩

def cachedIfFresh (w : W) (cache : Cache W D) : Option (Checked W D) :=
  match cache.entry with
  | none => none
  | some (fp, checked) =>
    if fingerprint host root tsconfig fuel w cache.listed = some fp then some checked else none

def stored (cache : Cache W D) : Option UInt64 → Option (List Path) → Checked W D → Cache W D
  | some fp, some listed, checked => ⟨some (fp, checked), listed⟩
  | _, _, _ => { cache with entry := none }

/-- The files change, or the worker takes its next step. -/
def step (s : Daemon W D) : Move W → Daemon W D × List (Served W D)
  | .edit w => ({ s with now := w }, [])
  | .work =>
    match s.stage with
    | .idle =>
      match cachedIfFresh host root tsconfig fuel s.now s.cache with
      | some checked => (s, [⟨s.now, checked⟩])
      | none => ({ s with stage := .list }, [])
    | .list => ({ s with stage := .fingerprint (host.listFiles s.now) }, [])
    | .fingerprint listed =>
      ({ s with stage := .check listed (listed.bind (fingerprint host root tsconfig fuel s.now)) s.now }, [])
    | .check listed fp printed =>
      match host.check s.now with
      | some diagnostics => ({ s with stage := .store listed fp printed ⟨s.now, diagnostics⟩ }, [])
      -- A failed check is answered as a failure; what the cache holds stays.
      | none => ({ s with stage := .idle }, [])
    | .store listed fp _ checked => ({ s with cache := stored s.cache fp listed checked, stage := .idle }, [])

/-- The served diagnostics are those of the files as they are. -/
def Fresh (a : Served W D) : Prop :=
  ∀ f ∈ host.compiled a.checked.moment,
    (host.content a.moment f).isSome ∧ host.content a.moment f = host.content a.checked.moment f

/-- The fingerprint of moment `w` has an entry for the file, with the stamp it was compiled under at moment `v`. -/
def guards (listed : List Path) (w v : W) (f : Path) : Bool :=
  (listed.any (fun p => decide (p = f)) || root.isPrefixOf f) && (host.metadata v f).isSome &&
    decide ((entries host root tsconfig fuel w listed).bind (Entries.get · f) = some (host.metadata v f))

/-- The check about to run compiles only files that the fingerprint just taken guards. -/
def guarded (s : Daemon W D) : Move W → Bool
  | .edit _ => true
  | .work =>
    match s.stage with
    | .check (some listed) (some _) printed =>
      (host.compiled s.now).all (guards host root tsconfig fuel listed printed s.now)
    | _ => true

end Worker

/-! ## Correctness -/

/-- What is assumed of the moments of a history. -/
structure Sound {W D : Type} (host : Host W D) (root tsconfig : Path) (fuel : Nat) : Prop where
  /-- A stamp changes whenever the content does, also where a link stands in for the file. -/
  stamp_tells : ∀ v w f t, host.metadata v f = some t →
    (host.metadata w f = some t ∨ host.entryMetadata w f = some t) → host.content w f = host.content v f
  /-- The mix does not collide on the history's fingerprints. -/
  mix_apart : ∀ u v w listed m m', host.listFiles u = some listed → entries host root tsconfig fuel v listed = some m →
    entries host root tsconfig fuel w listed = some m' → mix m = mix m' → m = m'
  /-- The compiler reads the files it compiles. -/
  compiled_read : ∀ w, ∀ f ∈ host.compiled w, (host.content w f).isSome

section Correct

variable {W D : Type} {host : Host W D} {root tsconfig : Path} {fuel : Nat}

/-- The fingerprint is one of the listed files, and all that was compiled is guarded by it. -/
structure Guarded (host : Host W D) (root tsconfig : Path) (fuel : Nat) (listed : List Path) (fp : UInt64) (w v : W) :
    Prop where
  listed_by : ∃ u, host.listFiles u = some listed
  printed : fingerprint host root tsconfig fuel w listed = some fp
  all : ∀ f ∈ host.compiled v, guards host root tsconfig fuel listed w v f = true

/-- **The guard holds.**  If the fingerprint is unchanged, so is every guarded file. -/
theorem Guarded.fresh (sound : Sound host root tsconfig fuel) {listed : List Path} {fp : UInt64} {w now : W}
    {checked : Checked W D} (h : Guarded host root tsconfig fuel listed fp w checked.moment)
    (hnow : fingerprint host root tsconfig fuel now listed = some fp) : Fresh host ⟨now, checked⟩ := by
  intro f hf
  obtain ⟨u, hu⟩ := h.listed_by
  obtain ⟨m, hm, hmix⟩ := Option.map_eq_some_iff.mp h.printed
  obtain ⟨m', hm', hmix'⟩ := Option.map_eq_some_iff.mp hnow
  -- No collision: the entries now are the entries then.
  obtain rfl := sound.mix_apart u w now listed m m' hu hm hm' (hmix.trans hmix'.symm)
  have hguard := h.all f hf
  simp only [guards, hm, Bool.and_eq_true_iff, Bool.or_eq_true_iff, decide_eq_true_eq, Option.bind_some] at hguard
  obtain ⟨⟨hcover, hsome⟩, hget⟩ := hguard
  obtain ⟨t, ht⟩ := Option.isSome_iff_exists.mp hsome
  have hstamp : host.metadata now f = some t ∨ host.entryMetadata now f = some t := by
    obtain ⟨henters, hshows⟩ := entries_spec hm'
    rw [ht] at hget
    rcases hcover with hmem | hroot
    · obtain ⟨p, hp, hpf⟩ := List.any_eq_true.mp hmem
      have hown := henters.own f (of_decide_eq_true hpf ▸ hp)
      exact .inl (Option.some.inj (hown.symm.trans hget))
    · have hinside := isPrefixOf_iff_prefix.mp hroot
      rcases hshows f _ hinside hget with hs | hs
      · exact .inl hs.symm
      · exact .inr hs.symm
  have hsame := sound.stamp_tells checked.moment now f t ht hstamp
  exact ⟨by rw [hsame]; exact sound.compiled_read _ f hf, hsame⟩

def StageOk (host : Host W D) (root tsconfig : Path) (fuel : Nat) : Stage W D → Prop
  | .idle | .list => True
  | .fingerprint listed => ∀ l, listed = some l → ∃ u, host.listFiles u = some l
  | .check listed fp printed => ∀ l t, listed = some l → fp = some t →
    (∃ u, host.listFiles u = some l) ∧ fingerprint host root tsconfig fuel printed l = some t
  | .store listed fp printed checked => ∀ l t, listed = some l → fp = some t →
    Guarded host root tsconfig fuel l t printed checked.moment

structure Inv (host : Host W D) (root tsconfig : Path) (fuel : Nat) (s : Daemon W D) : Prop where
  cache : ∀ fp checked, s.cache.entry = some (fp, checked) →
    ∃ w, Guarded host root tsconfig fuel s.cache.listed fp w checked.moment
  stage : StageOk host root tsconfig fuel s.stage

theorem step_inv {s : Daemon W D} {a : Move W} (hok : guarded host root tsconfig fuel s a)
    (h : Inv host root tsconfig fuel s) : Inv host root tsconfig fuel (step host root tsconfig fuel s a).1 := by
  obtain ⟨now, cache, stage⟩ := s
  cases a with
  | edit => exact ⟨h.cache, h.stage⟩
  | work =>
    cases stage with
    | idle =>
      simp only [step]
      split
      · exact h
      · exact ⟨h.cache, trivial⟩
    | list => exact ⟨h.cache, fun l hl => ⟨now, hl⟩⟩
    | fingerprint =>
      refine ⟨h.cache, fun l t hl ht => ?_⟩
      subst hl
      exact ⟨h.stage l rfl, ht⟩
    | check =>
      simp only [step]
      split
      · refine ⟨h.cache, fun l t hl ht => ?_⟩
        subst hl ht
        obtain ⟨hlisted, hprinted⟩ := h.stage l t rfl rfl
        exact ⟨hlisted, hprinted, all_eq_true.mp hok⟩
      · exact ⟨h.cache, trivial⟩
    | store listed fp printed =>
      refine ⟨fun t c hc => ?_, trivial⟩
      cases fp with
      | none => cases hc
      | some =>
        cases listed with
        | none => cases hc
        | some l =>
          cases hc
          exact ⟨printed, h.stage l _ rfl rfl⟩

theorem step_fresh (sound : Sound host root tsconfig fuel) {s : Daemon W D} {a : Move W}
    (h : Inv host root tsconfig fuel s) : ∀ x ∈ (step host root tsconfig fuel s a).2, Fresh host x := by
  intro x hx
  obtain ⟨now, cache, stage⟩ := s
  cases a with
  | edit => cases hx
  | work =>
    cases stage with
    | idle =>
      simp only [step, cachedIfFresh] at hx
      cases hentry : cache.entry with
      | none => simp [hentry] at hx
      | some entry =>
        obtain ⟨fp, checked⟩ := entry
        obtain ⟨w, hguard⟩ := h.cache fp checked hentry
        by_cases hfp : fingerprint host root tsconfig fuel now cache.listed = some fp
        · simp only [hentry, hfp, if_true, mem_singleton] at hx
          subst hx
          exact hguard.fresh sound hfp
        · simp [hentry, hfp] at hx
    | check =>
      simp only [step] at hx
      split at hx <;> cases hx
    | list | fingerprint | store => cases hx

/-- **The daemon serves no stale diagnostics, as long as its checks are guarded**, however the tree changes between its
    steps; and a fingerprint has entries, to guard with, of all that is listed and all that the walk reaches. -/
theorem served_fresh (sound : Sound host root tsconfig fuel) (w : W) (moves : List (Move W))
    (h : Trace.Along (step host root tsconfig fuel) (guarded host root tsconfig fuel) (start w) moves) :
    (∀ a ∈ (Trace.run (step host root tsconfig fuel) (start w) moves).2, Fresh host a) ∧
      ∀ now listed m, entries host root tsconfig fuel now listed = some m →
        Enters host root now listed m ∧ Shows host root now m := by
  refine ⟨?_, fun _ _ _ => entries_spec⟩
  have hstart : Inv host root tsconfig fuel (start w : Daemon W D) ∧ ∀ a ∈ ([] : List (Served W D)), Fresh host a :=
    ⟨⟨fun _ _ he => (by cases he), trivial⟩, fun a ha => by cases ha⟩
  refine (Trace.run_invariant_along (P := fun s log => Inv host root tsconfig fuel s ∧ ∀ a ∈ log, Fresh host a)
    (fun s log a hok hP => ⟨step_inv hok hP.1, fun x hx => ?_⟩) hstart h).2
  rcases mem_append.mp hx with hx | hx
  · exact hP.2 x hx
  · exact step_fresh sound hP.1 x hx

end Correct

/-! ## A file that comes late -/

def lateRoot : Path := ["p".toList]

def lateConfig : Path := ["p".toList, "tsconfig.json".toList]

def lateFile : Path := ["shared".toList, "new.ts".toList]

def knownFile : Path := ["p".toList, "a.ts".toList]

/-- `../shared` is empty at moment 0, holds `new.ts` at moment 1, edited at moment 2. -/
def lateHost : Host (Fin 3) Unit where
  readDir w dir :=
    if dir = lateRoot then some ["a.ts".toList]
    else if dir = ["shared".toList] then some (if w = 0 then [] else ["new.ts".toList]) else none
  isDir _ path := decide (path = lateRoot) || decide (path = ["shared".toList])
  metadata w f := if f = knownFile then some (7, 3) else if f = lateFile ∧ w ≠ 0 then some (w, 1) else none
  entryMetadata w f := if f = knownFile then some (7, 3) else if f = lateFile ∧ w ≠ 0 then some (w, 1) else none
  content w f := if f = knownFile then some [0] else if f = lateFile ∧ w ≠ 0 then some [UInt8.ofNat w] else none
  named _ _ := []
  listFiles w := some (if w = 0 then [knownFile] else [knownFile, lateFile])
  check _ := some ()
  compiled w := if w = 0 then [knownFile] else [knownFile, lateFile]

theorem lateHost_sound : Sound lateHost lateRoot lateConfig 9 where
  stamp_tells v w f t hv hw := by
    have hw : lateHost.metadata w f = some t := hw.elim id id
    simp only [lateHost] at hv hw ⊢
    by_cases hknown : f = knownFile
    · simp only [if_pos hknown]
    simp only [if_neg hknown] at hv hw ⊢
    split at hv <;> split at hw
    case isTrue.isTrue hlate hlate' =>
      obtain rfl : v = w := Fin.ext (congrArg Prod.fst (Option.some.inj (hv.trans hw.symm)))
      rfl
    case isTrue.isFalse => exact absurd hw (Option.some_ne_none t).symm
    all_goals exact absurd hv (Option.some_ne_none t).symm
  mix_apart u v w listed m m' hu hv hw hmix := by
    have key : ((finRange 3).all fun u => (finRange 3).all fun v => (finRange 3).all fun w =>
        let listed := (lateHost.listFiles u).getD []
        let print := fun w => fingerprint lateHost lateRoot lateConfig 9 w listed
        let all := fun w => entries lateHost lateRoot lateConfig 9 w listed
        !decide (print v = print w) || decide (all v = all w)) := by decide +kernel
    simp only [all_eq_true, mem_finRange, true_imp_iff] at key
    simpa [hu, fingerprint, hv, hw, hmix] using key u v w
  compiled_read := by decide +kernel

/-- `new.ts` comes before the files are listed, is gone for the check and is back for the second request; for the third
    it has been edited. -/
def edited : List (Move (Fin 3)) :=
  [.work, .edit 1, .work, .work, .edit 0, .work, .work, .edit 1, .work, .edit 2, .work]

theorem served_fresh_edited :
    (Trace.run (step lateHost lateRoot lateConfig 9) (start 0) edited).2 = [⟨1, ⟨0, ()⟩⟩] ∧
      ∀ a ∈ (Trace.run (step lateHost lateRoot lateConfig 9) (start 0) edited).2, Fresh lateHost a :=
  ⟨by decide +kernel, (served_fresh lateHost_sound 0 edited (by decide +kernel)).1⟩

/-- **Stale diagnostics.** `new.ts` appears between the fingerprint and the check: no list names it and no walk reaches
    it. -/
theorem late_file_served_stale : Sound lateHost lateRoot lateConfig 9 ∧
      ∃ a ∈ (Trace.run (step lateHost lateRoot lateConfig 9) (start 0)
          [.work, .work, .work, .edit 1, .work, .work, .edit 2, .work]).2, ¬ Fresh lateHost a := by
  refine ⟨lateHost_sound, ⟨2, ⟨1, ()⟩⟩, ?_, fun h => ?_⟩
  · exact mem_of_elem_eq_true (by decide +kernel)
  · exact absurd (h lateFile (by decide +kernel)).2 (by decide +kernel)

end Oam.Ts
