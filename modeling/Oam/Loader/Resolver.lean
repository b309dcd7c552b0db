/-
  `resolver.rs`: the resolver's caches, with probes, walks and clears running at the same time.

  Between any two atomic actions of a thread (one lock section or one stat) other threads act and files are created.
  The directory cache keeps its promise in every interleaving (`guarantees_walks`).  The negative set has no generation,
  so a probe that missed a file before it was created may record the miss AFTER the clear.
-/
import Oam.Lib.Assoc
import Oam.Lib.Text
import Oam.Lib.Threads
import Mathlib.Algebra.Group.Nat.Defs
import Mathlib.Data.List.Infix

namespace Oam.Loader.Resolver

open List Text Threads

/-! ## Data -/

abbrev Path := List Str

/-- `dir.join("tsconfig.json")`. -/
def tsconfigIn (dir : Path) : Path := dir ++ ["tsconfig.json".toList]

/-- The files and the two caches; the last three fields are ghosts. -/
structure Mem where
  files : List Path
  negativeProbes : List Path
  /-- `TsconfigDirCache::map`, the newest entry of a directory first. -/
  dirs : List (Path × Option Path)
  /-- `TsconfigDirCache::generation`, a `u64`. -/
  generation : Nat
  emptied : List Path
  covered : List Path
  clears : Nat

/-- The locals of an ancestor walk. `sure` and `epoch` are ghosts. -/
structure Walk where
  start : Path
  sure : List Path
  generation : Nat
  epoch : Nat
  visited : List Path
deriving DecidableEq

/-- What a thread does next; `sure` and `seen` are ghosts, of what was there when the call began. -/
inductive Pc where
  | idle
  | probeNegative (path : Path) (sure : Bool)
  | probeStat (path : Path) (sure : Bool)
  | probeRecord (path : Path) (sure : Bool) (isFile : Bool)
  | probed (path : Path) (sure : Bool) (answer : Bool)
  | walkSnapshot (start : Path) (sure : List Path)
  | walkLookup (w : Walk) (dir : Path)
  | walkStat (w : Walk) (dir : Path)
  | walkBackfill (w : Walk) (found : Option Path)
  | walked (start : Path) (sure : List Path) (answer : Option Path)
  | clearNegative (seen : List Path)
  | clearTsconfigs (seen : List Path)
  | clearDirs (seen : List Path)
deriving DecidableEq

inductive Call where
  | isFileCached (path : Path)
  | nearestTsconfigFromDir (start : Path)
  | clearCaches

/-! ## Program -/

def Mem.new (files : List Path) : Mem :=
  { files, negativeProbes := [], dirs := [], generation := 0, emptied := [], covered := [], clears := 0 }

def enter (m : Mem) : Call → Pc
  | .isFileCached path => .probeNegative path (m.covered.contains path)
  | .nearestTsconfigFromDir start => .walkSnapshot start m.covered
  | .clearCaches => .clearNegative m.files

/-- Record a completed walk's answers, unless a clear intervened since the snapshot. -/
def backfillTsconfigDirs (m : Mem) (generation : Nat) (visited : List Path) (found : Option Path) : Mem :=
  if m.generation ≠ generation then m
  else { m with dirs := visited.map (fun dir => (dir, found)) ++ m.dirs }

/-- The next atomic action of a thread; `none` once it has its answer. -/
def act (m : Mem) : Pc → Option (Mem × Pc)
  -- `is_file_cached`
  | .probeNegative path sure =>
    if m.negativeProbes.contains path then some (m, .probed path sure false)
    else some (m, .probeStat path sure)
  | .probeStat path sure => some (m, .probeRecord path sure (m.files.contains path))
  | .probeRecord path sure true =>
    some ({ m with negativeProbes := m.negativeProbes.filter (· ≠ path) }, .probed path sure true)
  | .probeRecord path sure false =>
    some ({ m with negativeProbes := path :: m.negativeProbes }, .probed path sure false)
  -- `nearest_tsconfig_from_dir`
  | .walkSnapshot start sure =>
    some (m, .walkLookup { start, sure, generation := m.generation, epoch := m.clears, visited := [] } start)
  | .walkLookup w dir =>
    match m.dirs.lookup dir with
    | some hit => some (m, .walkBackfill w hit)
    | none => some (m, .walkStat { w with visited := w.visited ++ [dir] } dir)
  | .walkStat w dir =>
    if m.files.contains (tsconfigIn dir) then some (m, .walkBackfill w (some (tsconfigIn dir)))
    else if dir.isEmpty then some (m, .walkBackfill w none)
    else some (m, .walkLookup w dir.dropLast)
  | .walkBackfill w found =>
    some (backfillTsconfigDirs m w.generation w.visited found, .walked w.start w.sure found)
  -- `clear_caches`
  | .clearNegative seen =>
    some ({ m with negativeProbes := [], emptied := seen ++ m.emptied }, .clearTsconfigs seen)
  -- the parsed files it drops here are read by none of the three functions
  | .clearTsconfigs seen => some (m, .clearDirs seen)
  | .clearDirs seen =>
    some ({ m with dirs := [], generation := (m.generation + 1) % 2 ^ 64,
                   covered := seen ++ m.covered, clears := m.clears + 1 }, .idle)
  | .idle | .probed .. | .walked .. => none

def ready : Pc → Bool
  | .idle | .probed .. | .walked .. => true
  | _ => false

def resolver : Program Mem Pc Call Path where
  ready := ready
  enter := enter
  act := act
  env m file := { m with files := file :: m.files }

def start (files : List Path) : State Mem Pc := { mem := Mem.new files, pc := fun _ => .idle }

/-! ## Specification -/

/-- `answer` is the nearest `tsconfig.json` at or above `start`, as far as the files `known` decide it. -/
def FindsNearest (known files : List Path) (start : Path) (answer : Option Path) : Prop :=
  ∀ dir, tsconfigIn dir ∈ known → dir <+: start →
    (∀ nearer, dir <+: nearer → nearer ≠ dir → nearer <+: start → tsconfigIn nearer ∉ files) →
    answer = some (tsconfigIn dir)

/-- No miss is recorded of a file that was there when a clear began which has emptied the negative set since. -/
def recordsNoLateMiss (m : Mem) : Pc → Bool
  | .probeRecord path _ false => !m.emptied.contains path
  | _ => true

/-- The walk from `start` has come up to `dir` and missed no known `tsconfig.json`. -/
def WalkedTo (known : List Path) (start dir : Path) : Prop :=
  dir <+: start ∧ ∀ d, tsconfigIn d ∈ known → d <+: start → d <+: dir

theorem WalkedTo.refl (known : List Path) (dir : Path) : WalkedTo known dir dir :=
  ⟨prefix_rfl, fun _ _ h => h⟩

variable {known files : List Path} {dir : Path}

theorem WalkedTo.parent {start : Path} (h : WalkedTo known start dir) (hknown : known ⊆ files)
    (hmiss : tsconfigIn dir ∉ files) : WalkedTo known start dir.dropLast := by
  have hparent : dir.dropLast <+: dir := dropLast_prefix dir
  refine ⟨hparent.trans h.1, fun d hd hstart => ?_⟩
  obtain ⟨rest, rfl⟩ := h.2 d hd hstart
  have hne : rest ≠ [] := by
    rintro rfl
    rw [append_nil] at hmiss
    exact hmiss (hknown hd)
  rw [dropLast_append_of_ne_nil hne]
  exact prefix_append d _

theorem WalkedTo.findsNearest {start : Path} {answer : Option Path} (h : WalkedTo known start dir)
    (hdir : FindsNearest known files dir answer) : FindsNearest known files start answer := by
  intro d hd hstart hnone
  apply hdir d hd (h.2 d hd hstart)
  intro nearer hle hne hnearer
  exact hnone nearer hle hne (hnearer.trans h.1)

theorem findsNearest_found (h : tsconfigIn dir ∈ files) : FindsNearest known files dir (some (tsconfigIn dir)) := by
  intro d _ hle hnone
  by_cases hd : dir = d
  · rw [hd]
  · -- otherwise the one found is nearer than `d`'s
    exact absurd h (hnone dir hle hd prefix_rfl)

theorem FindsNearest.mono {known' files' : List Path} {start : Path} {answer : Option Path}
    (h : FindsNearest known files start answer) (hknown : known' ⊆ known) (hfiles : files ⊆ files') :
    FindsNearest known' files' start answer := by
  intro d hd hle hnone
  apply h d (hknown hd) hle
  intro nearer h₁ h₂ h₃ hmem
  exact hnone nearer h₁ h₂ h₃ (hfiles hmem)

/-! ## What an action does -/

/-- One constructor for each way an action can go. -/
inductive Acts (m : Mem) : Pc → Mem → Pc → Prop
  | probeKnown {path sure} (h : path ∈ m.negativeProbes) :
      Acts m (.probeNegative path sure) m (.probed path sure false)
  | probeUnknown {path sure} (h : path ∉ m.negativeProbes) :
      Acts m (.probeNegative path sure) m (.probeStat path sure)
  | probeStat {path sure} :
      Acts m (.probeStat path sure) m (.probeRecord path sure (m.files.contains path))
  | probeHit {path sure} :
      Acts m (.probeRecord path sure true)
        { m with negativeProbes := m.negativeProbes.filter (· ≠ path) } (.probed path sure true)
  | probeMiss {path sure} :
      Acts m (.probeRecord path sure false)
        { m with negativeProbes := path :: m.negativeProbes } (.probed path sure false)
  | walkSnapshot {start sure} :
      Acts m (.walkSnapshot start sure) m
        (.walkLookup { start, sure, generation := m.generation, epoch := m.clears, visited := [] } start)
  | walkKnown {w dir hit} (h : (dir, hit) ∈ m.dirs) :
      Acts m (.walkLookup w dir) m (.walkBackfill w hit)
  | walkUnknown {w dir} :
      Acts m (.walkLookup w dir) m (.walkStat { w with visited := w.visited ++ [dir] } dir)
  | walkHit {w dir} (h : tsconfigIn dir ∈ m.files) :
      Acts m (.walkStat w dir) m (.walkBackfill w (some (tsconfigIn dir)))
  | walkRoot {w} (h : tsconfigIn [] ∉ m.files) :
      Acts m (.walkStat w []) m (.walkBackfill w none)
  | walkUp {w dir} (h : tsconfigIn dir ∉ m.files) :
      Acts m (.walkStat w dir) m (.walkLookup w dir.dropLast)
  | walkBackfill {w found} :
      Acts m (.walkBackfill w found) (backfillTsconfigDirs m w.generation w.visited found)
        (.walked w.start w.sure found)
  | clearNegative {seen} :
      Acts m (.clearNegative seen) { m with negativeProbes := [], emptied := seen ++ m.emptied }
        (.clearTsconfigs seen)
  | clearTsconfigs {seen} : Acts m (.clearTsconfigs seen) m (.clearDirs seen)
  | clearDirs {seen} :
      Acts m (.clearDirs seen)
        { m with dirs := [], generation := (m.generation + 1) % 2 ^ 64,
                 covered := seen ++ m.covered, clears := m.clears + 1 } .idle

variable {m m' : Mem} {p p' : Pc}

theorem acts_of_act (h : act m p = some (m', p')) : Acts m p m' p' := by
  cases p with
  | idle | probed | walked => cases h
  | probeNegative =>
    rw [act] at h
    split at h <;> rename_i hneg <;> rw [contains_iff_mem] at hneg <;> cases h
    · exact .probeKnown hneg
    · exact .probeUnknown hneg
  | probeStat => cases h; exact .probeStat
  | probeRecord path sure isFile =>
    cases isFile <;> cases h
    · exact .probeMiss
    · exact .probeHit
  | walkSnapshot => cases h; exact .walkSnapshot
  | walkLookup =>
    rw [act] at h
    split at h <;> cases h
    · exact .walkKnown (Assoc.mem_of_lookup ‹_›)
    · exact .walkUnknown
  | walkStat w dir =>
    rw [act] at h
    split at h <;> rename_i hfile <;> rw [contains_iff_mem] at hfile
    · cases h; exact .walkHit hfile
    · cases dir with
      | nil => cases h; exact .walkRoot hfile
      | cons => cases h; exact .walkUp hfile
  | walkBackfill => cases h; exact .walkBackfill
  | clearNegative => cases h; exact .clearNegative
  | clearTsconfigs => cases h; exact .clearTsconfigs
  | clearDirs => cases h; exact .clearDirs

/-- Nothing is forgotten, and only a clear covers more files. -/
structure Grows (m m' : Mem) : Prop where
  files : m.files ⊆ m'.files
  emptied : m.emptied ⊆ m'.emptied
  covered : m.covered ⊆ m'.covered
  clears : m.clears ≤ m'.clears
  same : m'.clears = m.clears → m'.covered = m.covered

theorem Grows.refl (m : Mem) : Grows m m :=
  ⟨Subset.refl _, Subset.refl _, Subset.refl _, Nat.le_refl _, fun _ => rfl⟩

theorem acts_grows (h : Acts m p m' p') : Grows m m' := by
  cases h with
  | probeHit | probeMiss =>
    exact ⟨Subset.refl _, Subset.refl _, Subset.refl _, Nat.le_refl _, fun _ => rfl⟩
  | walkBackfill =>
    rw [backfillTsconfigDirs]
    split
    · exact Grows.refl m
    · exact ⟨Subset.refl _, Subset.refl _, Subset.refl _, Nat.le_refl _, fun _ => rfl⟩
  | clearNegative =>
    exact ⟨Subset.refl _, subset_append_right _ _, Subset.refl _, Nat.le_refl _, fun _ => rfl⟩
  | clearDirs =>
    refine ⟨Subset.refl _, Subset.refl _, subset_append_right _ _, Nat.le_succ _, ?_⟩
    intro hsame
    exact absurd hsame (Nat.succ_ne_self _)
  | _ => exact Grows.refl m

/-! ## The ghosts -/

/-- What is covered has been emptied, and what has been emptied is on disk. -/
def Ghosts (m : Mem) : Prop := m.covered ⊆ m.emptied ∧ m.emptied ⊆ m.files

def ClearOk (m : Mem) : Pc → Prop
  | .clearNegative seen => seen ⊆ m.files
  | .clearTsconfigs seen | .clearDirs seen => seen ⊆ m.emptied
  | _ => True

theorem ClearOk.stable (h : ClearOk m p) (hgrows : Grows m m') : ClearOk m' p := by
  cases p with
  | clearNegative => exact Subset.trans h hgrows.files
  | clearTsconfigs | clearDirs => exact Subset.trans h hgrows.emptied
  | _ => trivial

theorem clearOk_enter (m : Mem) (call : Call) : ClearOk m (enter m call) := by
  cases call with
  | clearCaches => exact Subset.refl _
  | _ => trivial

theorem ghosts_acts (hm : Ghosts m) (hp : ClearOk m p) (h : Acts m p m' p') : Ghosts m' ∧ ClearOk m' p' := by
  cases h with
  | clearNegative =>
    refine ⟨⟨Subset.trans hm.1 (subset_append_right _ _), ?_⟩, subset_append_left _ _⟩
    exact append_subset.mpr ⟨hp, hm.2⟩
  | clearTsconfigs => exact ⟨hm, hp⟩
  | clearDirs => exact ⟨⟨append_subset.mpr ⟨hp, hm.1⟩, hm.2⟩, trivial⟩
  | walkBackfill =>
    refine ⟨?_, trivial⟩
    rw [backfillTsconfigDirs]
    split <;> exact hm
  | _ => exact ⟨hm, trivial⟩

/-! ## The directory cache -/

def CacheOk (m : Mem) : Prop :=
  ∀ dir answer, (dir, answer) ∈ m.dirs → FindsNearest m.covered m.files dir answer

/-- What a walk carries along: its snapshot is of this epoch or an older one. -/
structure Tracks (m : Mem) (w : Walk) : Prop where
  sure : w.sure ⊆ m.covered
  epoch : w.epoch ≤ m.clears
  generation : w.generation = w.epoch % 2 ^ 64

/-- A walk is right about what was covered when it began, and, with no clear since, about all that is. -/
def WalkOk (m : Mem) : Pc → Prop
  | .walkSnapshot _ sure => sure ⊆ m.covered
  | .walkLookup w dir | .walkStat w dir =>
    Tracks m w ∧ WalkedTo w.sure w.start dir ∧ (w.epoch = m.clears → ∀ v ∈ w.visited, WalkedTo m.covered v dir)
  | .walkBackfill w found =>
    Tracks m w ∧ FindsNearest w.sure m.files w.start found ∧
      (w.epoch = m.clears → ∀ v ∈ w.visited, FindsNearest m.covered m.files v found)
  | .walked start sure answer => FindsNearest sure m.files start answer
  | _ => True

variable {w : Walk}

theorem Tracks.stable (h : Tracks m w) (hgrows : Grows m m') : Tracks m' w :=
  ⟨Subset.trans h.sure hgrows.covered, h.epoch.trans hgrows.clears, h.generation⟩

theorem Tracks.same (h : Tracks m w) (hgrows : Grows m m') (hepoch : w.epoch = m'.clears) :
    w.epoch = m.clears ∧ m'.covered = m.covered := by
  have hle := h.epoch
  have hle' := hgrows.clears
  exact ⟨by omega, hgrows.same (by omega)⟩

theorem WalkOk.stable (h : WalkOk m p) (hgrows : Grows m m') : WalkOk m' p := by
  cases p with
  | walkSnapshot => exact Subset.trans h hgrows.covered
  | walkLookup | walkStat =>
    obtain ⟨htracks, hwalked, hvisited⟩ := h
    refine ⟨htracks.stable hgrows, hwalked, fun hepoch v hv => ?_⟩
    obtain ⟨hepoch, hcovered⟩ := htracks.same hgrows hepoch
    rw [hcovered]
    exact hvisited hepoch v hv
  | walkBackfill =>
    obtain ⟨htracks, hfound, hvisited⟩ := h
    refine ⟨htracks.stable hgrows, hfound.mono (Subset.refl _) hgrows.files, fun hepoch v hv => ?_⟩
    obtain ⟨hepoch, hcovered⟩ := htracks.same hgrows hepoch
    rw [hcovered]
    exact (hvisited hepoch v hv).mono (Subset.refl _) hgrows.files
  | walked => exact FindsNearest.mono h (Subset.refl _) hgrows.files
  | _ => trivial

theorem walkOk_backfill {found : Option Path} (h : WalkOk m (.walkStat w dir))
    (hfound : FindsNearest m.covered m.files dir found) : WalkOk m (.walkBackfill w found) := by
  obtain ⟨htracks, hwalked, hvisited⟩ := h
  refine ⟨htracks, hwalked.findsNearest (hfound.mono htracks.sure (Subset.refl _)), ?_⟩
  intro hepoch v hv
  exact (hvisited hepoch v hv).findsNearest hfound

theorem walkOk_acts (hm : Ghosts m) (hgeneration : m.generation = m.clears % 2 ^ 64) (hcache : CacheOk m)
    (hp : WalkOk m p) (h : Acts m p m' p') : WalkOk m' p' := by
  have hfiles : m.covered ⊆ m.files := Subset.trans hm.1 hm.2
  cases h with
  | walkSnapshot =>
    refine ⟨⟨hp, Nat.le_refl _, hgeneration⟩, WalkedTo.refl _ _, fun _ v hv => ?_⟩
    exact absurd hv not_mem_nil
  | walkKnown hhit => exact walkOk_backfill hp (hcache _ _ hhit)
  | @walkUnknown w dir =>
    obtain ⟨htracks, hwalked, hvisited⟩ := hp
    refine ⟨⟨htracks.sure, htracks.epoch, htracks.generation⟩, hwalked, fun hepoch v hv => ?_⟩
    rcases mem_append.mp hv with hv | hv
    · exact hvisited hepoch v hv
    · rw [mem_singleton.mp hv]
      exact WalkedTo.refl _ _
  | walkHit hfile => exact walkOk_backfill hp (findsNearest_found hfile)
  | walkRoot hmiss =>
    refine walkOk_backfill hp fun d hd hle _ => ?_
    rw [prefix_nil.mp hle] at hd
    exact absurd (hfiles hd) hmiss
  | walkUp hmiss =>
    obtain ⟨htracks, hwalked, hvisited⟩ := hp
    refine ⟨htracks, hwalked.parent (Subset.trans htracks.sure hfiles) hmiss, fun hepoch v hv => ?_⟩
    exact (hvisited hepoch v hv).parent hfiles hmiss
  | @walkBackfill w found =>
    show FindsNearest w.sure (backfillTsconfigDirs m w.generation w.visited found).files w.start found
    rw [backfillTsconfigDirs]
    split <;> exact hp.2.1
  | _ => trivial

theorem generation_acts (hgeneration : m.generation = m.clears % 2 ^ 64) (h : Acts m p m' p') :
    m'.generation = m'.clears % 2 ^ 64 := by
  cases h with
  | walkBackfill =>
    rw [backfillTsconfigDirs]
    split <;> exact hgeneration
  | clearDirs =>
    show (m.generation + 1) % 2 ^ 64 = (m.clears + 1) % 2 ^ 64
    omega
  | _ => exact hgeneration

/-- What the memory keeps for the walks: up to `2 ^ 64` clears the cache is right. -/
def DirsInv (m : Mem) : Prop :=
  Ghosts m ∧ m.generation = m.clears % 2 ^ 64 ∧ (m.clears < 2 ^ 64 → CacheOk m)

def DirsPc (m : Mem) (p : Pc) : Prop := ClearOk m p ∧ (m.clears < 2 ^ 64 → WalkOk m p)

theorem grows_create (m : Mem) (file : Path) : Grows m (resolver.env m file) :=
  ⟨subset_cons_self _ _, Subset.refl _, Subset.refl _, Nat.le_refl _, fun _ => rfl⟩

theorem ghosts_create (h : Ghosts m) (file : Path) : Ghosts (resolver.env m file) :=
  ⟨h.1, Subset.trans h.2 (subset_cons_self _ _)⟩

theorem guarantees_walks : resolver.Guarantees DirsInv DirsPc Grows where
  stable m m' p hp hgrows := by
    refine ⟨hp.1.stable hgrows, fun hbound => (hp.2 ?_).stable hgrows⟩
    exact Nat.lt_of_le_of_lt hgrows.clears hbound
  act m p m' p' hm hp hact := by
    have h := acts_of_act hact
    have hgrows := acts_grows h
    obtain ⟨hghosts, hgeneration, hcache⟩ := hm
    obtain ⟨hghosts', hclear'⟩ := ghosts_acts hghosts hp.1 h
    -- the bound on the clears after the action bounds those before it
    have hbefore : m'.clears < 2 ^ 64 → m.clears < 2 ^ 64 := Nat.lt_of_le_of_lt hgrows.clears
    refine ⟨hgrows, ⟨hghosts', generation_acts hgeneration h, fun hbound => ?_⟩, hclear', fun hbound => ?_⟩
    · have hb := hbefore hbound
      cases h with
      | walkBackfill =>
        obtain ⟨htracks, _, hvisited⟩ := hp.2 hb
        rw [backfillTsconfigDirs]
        split
        · exact hcache hb
        next w _ _ hsame =>
        have hepoch : w.epoch = m.clears := by
          have hle := htracks.epoch
          have hgen := htracks.generation
          omega
        intro dir answer hmem
        rcases mem_append.mp hmem with hmem | hmem
        · obtain ⟨v, hv, heq⟩ := mem_map.mp hmem
          injection heq with hdir hanswer
          subst hdir hanswer
          exact hvisited hepoch v hv
        · exact hcache hb dir answer hmem
      | clearDirs => exact fun dir answer hmem => absurd hmem not_mem_nil
      | _ => exact hcache hb
    · have hb := hbefore hbound
      exact walkOk_acts hghosts hgeneration (hcache hb) (hp.2 hb) h
  enter m call hm := by
    refine ⟨clearOk_enter m call, fun _ => ?_⟩
    cases call with
    | nearestTsconfigFromDir => exact Subset.refl _
    | _ => trivial
  env m file hm := by
    obtain ⟨hghosts, hgeneration, hcache⟩ := hm
    refine ⟨grows_create m file, ghosts_create hghosts file, hgeneration, fun hbound => ?_⟩
    intro dir answer hmem
    exact (hcache hbound dir answer hmem).mono (Subset.refl _) (subset_cons_self _ _)

/-! ## The negative set -/

def NegativeInv (m : Mem) : Prop := Ghosts m ∧ ∀ path ∈ m.emptied, path ∉ m.negativeProbes

def ProbeOk (m : Mem) : Pc → Prop
  | .probeNegative path sure | .probeStat path sure => sure = true → path ∈ m.covered
  | .probeRecord _ sure isFile => sure = true → isFile = true
  | .probed _ sure answer => sure = true → answer = true
  | _ => True

theorem ProbeOk.stable (h : ProbeOk m p) (hgrows : Grows m m') : ProbeOk m' p := by
  cases p with
  | probeNegative | probeStat => exact fun hsure => hgrows.covered (h hsure)
  | probeRecord | probed => exact h
  | _ => trivial

theorem probeOk_acts (hm : NegativeInv m) (hp : ProbeOk m p) (h : Acts m p m' p') : ProbeOk m' p' := by
  obtain ⟨⟨hemptied, hfiles⟩, hnegative⟩ := hm
  cases h with
  | probeKnown hknown => exact fun hsure => absurd hknown (hnegative _ (hemptied (hp hsure)))
  | probeUnknown => exact hp
  | probeStat =>
    intro hsure
    exact contains_iff_mem.mpr (hfiles (hemptied (hp hsure)))
  | probeHit => exact fun _ => rfl
  | probeMiss => exact hp
  | _ => trivial

theorem negative_acts (hm : ∀ path ∈ m.emptied, path ∉ m.negativeProbes) (hok : recordsNoLateMiss m p)
    (h : Acts m p m' p') : ∀ path ∈ m'.emptied, path ∉ m'.negativeProbes := by
  cases h with
  | probeHit =>
    intro path hpath hmem
    exact hm path hpath (mem_of_mem_filter hmem)
  | @probeMiss missed sure =>
    -- the one action that could break it, and the condition forbids it
    have hlate : missed ∉ m.emptied := by simpa [recordsNoLateMiss] using hok
    intro path hpath hmem
    rcases mem_cons.mp hmem with rfl | hmem
    · exact hlate hpath
    · exact hm path hpath hmem
  | clearNegative => exact fun _ _ => not_mem_nil
  | walkBackfill =>
    rw [backfillTsconfigDirs]
    split <;> exact hm
  | _ => exact hm

theorem guarantees_probes : (resolver.onlyIf recordsNoLateMiss).Guarantees NegativeInv
      (fun m p => ClearOk m p ∧ ProbeOk m p) Grows where
  stable m m' p hp hgrows := ⟨hp.1.stable hgrows, hp.2.stable hgrows⟩
  act m p m' p' hm hp hact := by
    obtain ⟨hok, hact⟩ := Program.act_onlyIf hact
    have h := acts_of_act hact
    obtain ⟨hghosts', hclear'⟩ := ghosts_acts hm.1 hp.1 h
    exact ⟨acts_grows h, ⟨hghosts', negative_acts hm.2 hok h⟩, hclear', probeOk_acts hm hp.2 h⟩
  enter m call hm := by
    refine ⟨clearOk_enter m call, ?_⟩
    cases call with
    | isFileCached => exact fun hsure => contains_iff_mem.mp hsure
    | _ => trivial
  env m file hm := ⟨grows_create m file, ghosts_create hm.1 file, hm.2⟩

/-! ## Correctness -/

theorem dirsInv_start (files : List Path) (t : Nat) :
    DirsInv (start files).mem ∧ DirsPc (start files).mem ((start files).pc t) := by
  refine ⟨⟨⟨Subset.refl _, nil_subset _⟩, rfl, fun _ => ?_⟩, trivial, fun _ => trivial⟩
  exact fun _ _ hmem => absurd hmem not_mem_nil

theorem negativeInv_start (files : List Path) : NegativeInv (start files).mem :=
  ⟨⟨Subset.refl _, nil_subset _⟩, fun _ hmem => absurd hmem not_mem_nil⟩

/-- **What a clear has covered stays visible.** A walk finds the nearest `tsconfig.json` that was there when a finished
    clear began; and so does a probe, if none records a late miss. -/
theorem covered_files_stay_visible {files : List Path} {actions : List (Action Call Path)}
    {s : State Mem Pc} (hrun : Steps.exec resolver.step (start files) actions = some s)
    (hclears : s.mem.clears < 2 ^ 64) :
    (∀ t dir sure answer, s.pc t = .walked dir sure answer → FindsNearest sure s.mem.files dir answer) ∧
    (Steps.exec (resolver.onlyIf recordsNoLateMiss).step (start files) actions = some s →
      ∀ t path answer, s.pc t = .probed path true answer → answer = true) := by
  constructor
  · intro t dir sure answer hpc
    have hinv := Program.exec_invariant_of_rely guarantees_walks (dirsInv_start files 0).1
      (fun u => (dirsInv_start files u).2) hrun
    have hwalk := (hinv.2 t).2 hclears
    rw [hpc] at hwalk
    exact hwalk
  · intro hnoLateMiss t path answer hpc
    have hinv := Program.exec_invariant_of_rely guarantees_probes (negativeInv_start files)
      (fun _ => ⟨trivial, trivial⟩) hnoLateMiss
    have hprobe := (hinv.2 t).2
    rw [hpc] at hprobe
    exact hprobe rfl

/-- A walk and a probe miss two files; they are created, the caches are cleared, and both are asked for again. -/
def createThenClear : List (Action Call Path) :=
  let a := "a".toList
  [.call 0 (.nearestTsconfigFromDir [a]), .go 0, .go 0, .go 0,
   .call 1 (.isFileCached [a, "x.js".toList]), .go 1, .go 1, .go 1,
   .env (tsconfigIn [a]), .env [a, "x.js".toList],
   .call 2 .clearCaches, .go 2, .go 2, .go 2,
   .go 0, .go 0, .go 0,
   .call 1 (.isFileCached [a, "x.js".toList]), .go 1, .go 1, .go 1,
   .call 0 (.nearestTsconfigFromDir [a]), .go 0, .go 0, .go 0, .go 0]

theorem createThenClear_runs : (Steps.exec (resolver.onlyIf recordsNoLateMiss).step (start []) createThenClear).isSome =
    true := by
  decide +kernel

def afterCreateThenClear : State Mem Pc :=
  (Steps.exec (resolver.onlyIf recordsNoLateMiss).step (start []) createThenClear).get
    createThenClear_runs

theorem covered_files_stay_visible_created : afterCreateThenClear.mem.clears = 1 ∧
    (∃ sure answer, afterCreateThenClear.pc 0 = .walked ["a".toList] sure answer ∧
      tsconfigIn ["a".toList] ∈ sure ∧
      FindsNearest sure afterCreateThenClear.mem.files ["a".toList] answer) ∧
    ∃ answer, afterCreateThenClear.pc 1 = .probed ["a".toList, "x.js".toList] true answer ∧
      answer = true := by
  have hnoLateMiss : Steps.exec (resolver.onlyIf recordsNoLateMiss).step (start []) createThenClear =
      some afterCreateThenClear := (Option.some_get createThenClear_runs).symm
  obtain ⟨hwalks, hprobes⟩ :=
    covered_files_stay_visible (Program.exec_of_onlyIf hnoLateMiss) (by decide +kernel)
  have hwalked : afterCreateThenClear.pc 0 =
      .walked ["a".toList] afterCreateThenClear.mem.covered (some (tsconfigIn ["a".toList])) := by
    decide +kernel
  have hprobed : afterCreateThenClear.pc 1 = .probed ["a".toList, "x.js".toList] true true := by
    decide +kernel
  exact ⟨by decide +kernel, ⟨_, _, hwalked, by decide +kernel, hwalks _ _ _ _ hwalked⟩,
    _, hprobed, hprobes hnoLateMiss _ _ _ hprobed⟩

/-- The file is created and the caches are cleared; then the probe records its miss, and the next one reports it. -/
theorem late_miss_survives_clear : ((Steps.exec resolver.step (start [])
        [.call 0 (.isFileCached ["x.js".toList]), .go 0, .go 0, .env ["x.js".toList],
         .call 1 .clearCaches, .go 1, .go 1, .go 1, .go 0,
         .call 2 (.isFileCached ["x.js".toList]), .go 2]).map fun s =>
      (s.mem.files, s.pc 2)) =
    some ([["x.js".toList]], .probed ["x.js".toList] true false) := by
  decide +kernel

end Oam.Loader.Resolver
