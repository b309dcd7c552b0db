/-
  `install.rs`: lifecycle scripts over many `oam install` runs, with crashes.

  The network, the scripts and the marker's write answer as they like, and the process may die between any two actions.
  A marker is filed under the package's NAME: copies of one package in several places share it, and the copy whose
  script failed is not tried again (`nested_copy_not_retried`).

  Left out: bin links and `--precompile`, which touch neither packages nor markers, and the lock that keeps two runs
  from overlapping.
-/
import Oam.Lib.Json
import Oam.Lib.Steps
import Mathlib.Data.List.Sort

namespace Oam.Loader.Install

open List Text

/-! ## Data -/

/-- A package of the lockfile: its key, and the URL it is fetched from if it has one. -/
structure Package where
  key : Str
  resolved : Option Str
deriving DecidableEq, Repr

/-- The lockfile's packages, what each one's `package.json` holds, and which names are trusted. -/
structure Project where
  packages : List Package
  /-- The `package.json` of a key's package once it is extracted: `none` if it is no JSON. -/
  manifest : Str → Option Json.Value
  /-- By package name. -/
  isTrusted : Str → Bool

/-- Scripts to run for a trusted package, with the name of the marker to write after them. -/
structure PendingScripts where
  key : Str
  pkgName : Str
  scripts : List (Str × Str)
  marker : Str
deriving DecidableEq, Repr

/-- What a run reports. -/
inductive InstallDiagnostic where
  | failed (key error : Str)
  | untrusted (pkgName version : Str) (phases : List Str)
  | ignored (pkgName : Str)
  | scriptFailed (pkgName phase error : Str)
deriving DecidableEq, Repr

/-- The diagnostic's code. -/
def InstallDiagnostic.code : InstallDiagnostic → Str
  | .failed _ _ => "OAM-PKG0004".toList
  | .untrusted _ _ _ => "OAM-PKG0007".toList
  | .ignored _ => "OAM-PKG0007".toList
  | .scriptFailed _ _ _ => "OAM-PKG0009".toList

/-- … and its text. -/
def InstallDiagnostic.message : InstallDiagnostic → Str
  | .failed key error => "failed to install ".toList ++ key ++ ": ".toList ++ error
  | .untrusted pkgName version phases =>
    pkgName ++ "@".toList ++ version ++ " has lifecycle script(s) (".toList ++
      ", ".toList.intercalate phases ++ ") -- skipped; run 'oam trust add ".toList ++ pkgName ++
      "' to allow".toList
  | .ignored pkgName => pkgName ++ ": lifecycle scripts skipped (OAM_IGNORE_SCRIPTS set)".toList
  | .scriptFailed pkgName phase error =>
    pkgName ++ ": ".toList ++ phase ++ " script failed: ".toList ++ error

/-! ## The program: what a package asks for -/

/-- What follows the last occurrence of `pat`, if it occurs. -/
def afterLast (pat : Str) : Str → Option Str
  | [] => none
  | c :: s =>
    match afterLast pat s with
    | some rest => some rest
    | none => (c :: s).dropPrefix? pat

/-- The package's name, from its lockfile key: what follows the LAST `node_modules/`. -/
def pkgName (key : Str) : Str := (afterLast "node_modules/".toList key).getD key

/-- The file name of a package's marker: a scoped name is made flat. -/
def scriptMarker (name : Str) : Str := name.map fun c => if c = '/' then '+' else c

/-- In execution order. -/
def phases : List Str := ["preinstall".toList, "install".toList, "postinstall".toList]

/-- `check_lifecycle_scripts` on a `package.json` (`none` if it cannot be read). -/
def checkLifecycleScripts (manifest : Option Json.Value) (key : Str) (isTrusted : Str → Bool) :
    Option PendingScripts × List InstallDiagnostic :=
  match manifest.bind fun json => (json.get "scripts".toList).bind Json.Value.asObject with
  | none => (none, [])
  | some scripts =>
    let present := phases.filterMap fun phase =>
      ((scripts.lookup phase).bind Json.Value.asStr).map fun cmd => (phase, cmd)
    if present.isEmpty then (none, [])
    else if !isTrusted (pkgName key) then
      let version := ((manifest.bind fun json => json.get "version".toList).bind
        Json.Value.asStr).getD "?".toList
      (none, [.untrusted (pkgName key) version (present.map Prod.fst)])
    else (some ⟨key, pkgName key, present, scriptMarker (pkgName key)⟩, [])

/-- The order of texts: by code points, which is their bytes' order. -/
def textLe : Str → Str → Bool
  | [], _ => true
  | _ :: _, [] => false
  | a :: s, b :: t => if a = b then textLe s t else a.toNat < b.toNat

/-- The packages a run goes through, by their keys; the root project has the empty one. -/
def toInstall (packages : List Package) : List Package :=
  (packages.filter fun p => !p.key.isEmpty).insertionSort fun a b => textLe a.key b.key = true

/-! ## The program: runs -/

/-- Where a run is. -/
inductive Proc where
  /-- In the loop over the packages, with what is enqueued so far. -/
  | turning (todo : List Package) (pending : List PendingScripts)
  /-- Running a package's scripts: those left, and whether all before them succeeded. -/
  | running (pkg : PendingScripts) (left : List (Str × Str)) (allOk : Bool)
      (todo : List PendingScripts)
deriving DecidableEq, Repr

/-- The disk, the run under way, and two ghosts: what was completed, and what was stamped. -/
structure State where
  /-- Whether the key's directory has a `package.json`. -/
  extracted : Str → Bool
  /-- The files of `node_modules/.oam/scripts-ran`. -/
  markers : List Str
  /-- The process, if one is running. -/
  proc : Option Proc
  /-- What the current run has reported. -/
  errors : List InstallDiagnostic
  /-- The keys whose phases all succeeded in some run. -/
  completed : List Str
  /-- … and whose marker was then written. -/
  stamped : List Str

/-- What happens next, with the world's answers. -/
inductive Action where
  | start
  /-- One package.  If it has to be fetched: what is extracted afterwards, and the outcome. -/
  | turn (extracted : Str → Bool) (outcome : Except Str Unit)
  /-- The loop is through: run the scripts, unless they are ignored. -/
  | runScripts (ignored : Bool)
  /-- One script has ended. -/
  | script (outcome : Except Str Unit)
  /-- All of a package's scripts have ended: the marker is due, and its write succeeds or not. -/
  | stamp (written : Bool)
  | die

/-- `run_lifecycle_scripts` goes on to its next package. -/
def nextPackage : List PendingScripts → Option Proc
  | [] => none
  | pkg :: todo => some (.running pkg pkg.scripts true todo)

/-- One turn of the loop: a package found extracted is checked only if its marker is missing, a fetched
    one always. -/
def turnPackage (p : Project) (s : State) (package : Package) (todo : List Package)
    (pending : List PendingScripts) (extracted : Str → Bool) (outcome : Except Str Unit) : State :=
  let enqueue (s : State) : State :=
    let (found, warnings) := checkLifecycleScripts
      (if s.extracted package.key then p.manifest package.key else none) package.key p.isTrusted
    { s with proc := some (.turning todo (pending ++ found.toList)), errors := s.errors ++ warnings }
  let skip (s : State) : State := { s with proc := some (.turning todo pending) }
  if package.resolved.isNone then skip s
  else if s.extracted package.key then
    if s.markers.contains (scriptMarker (pkgName package.key)) then skip s else enqueue s
  else
    let s := { s with extracted := extracted }
    match outcome with
    | .ok () => enqueue s
    | .error e => skip { s with errors := s.errors ++ [.failed package.key e] }

/-- One action of a run, or a new run. -/
def step (p : Project) (s : State) (a : Action) : Option State :=
  match a, s.proc with
  | .start, none => some { s with proc := some (.turning (toInstall p.packages) []), errors := [] }
  | .turn extracted outcome, some (.turning (package :: todo) pending) =>
    some (turnPackage p s package todo pending extracted outcome)
  | .runScripts ignored, some (.turning [] pending) =>
    if ignored then
      some { s with proc := none, errors := s.errors ++ pending.map fun pkg => .ignored pkg.pkgName }
    else some { s with proc := nextPackage pending }
  | .script outcome, some (.running pkg ((phase, _) :: left) allOk todo) =>
    match outcome with
    | .ok () => some { s with
        proc := some (.running pkg left allOk todo)
        completed := if allOk && left.isEmpty then s.completed ++ [pkg.key] else s.completed }
    | .error e => some { s with
        proc := some (.running pkg left false todo)
        errors := s.errors ++ [.scriptFailed pkg.pkgName phase e] }
  | .stamp written, some (.running pkg [] allOk todo) =>
    if allOk && written then
      some { s with
        proc := nextPackage todo
        markers := s.markers ++ [pkg.marker]
        stamped := s.stamped ++ [pkg.key] }
    else some { s with proc := nextPackage todo }
  | .die, some _ => some { s with proc := none }
  | _, _ => none

/-- No run so far, and no marker. -/
def fresh (extracted : Str → Bool) : State := ⟨extracted, [], none, [], [], []⟩

/-! ## The specification -/

/-- What a key asks for once it is extracted: some scripts only if it is trusted and declares some. -/
def lifecycle (p : Project) (key : Str) : Option PendingScripts :=
  (checkLifecycleScripts (p.manifest key) key p.isTrusted).1

/-- The marker's name for a key. -/
def markerOf (key : Str) : Str := scriptMarker (pkgName key)

/-- A marker that is due is written next: the process does not die before it, and the write does not fail. -/
def stampsDue (s : State) (a : Action) : Bool :=
  match s.proc, a with
  | some (.running _ [] true _), .stamp written => written
  | some (.running _ [] true _), _ => false
  | _, _ => true

/-- A run in which every marker that is due is written. -/
def stampingStep (p : Project) (s : State) (a : Action) : Option State := if stampsDue s a then step p s a else none

theorem checkLifecycleScripts_spec {manifest : Option Json.Value} {key : Str} {isTrusted : Str → Bool}
    {pkg : PendingScripts} (h : (checkLifecycleScripts manifest key isTrusted).1 = some pkg) : pkg.key = key ∧
    pkg.marker = markerOf key ∧ pkg.scripts ≠ [] := by
  unfold checkLifecycleScripts at h
  split at h
  · cases h
  dsimp only at h
  split at h
  · cases h
  rename_i hne
  split at h
  · cases h
  · injection h with h
    rw [← h]
    exact ⟨rfl, rfl, fun he => hne (List.isEmpty_iff.mpr he)⟩

/-! ## What holds over all runs -/

/-- What a process has enqueued. -/
def Proc.pending : Proc → List PendingScripts
  | .turning _ pending => pending
  | .running pkg _ _ todo => pkg :: todo

/-- The scripts are those of a package of the lockfile. -/
def IsOf (p : Project) (pkg : PendingScripts) : Prop :=
  lifecycle p pkg.key = some pkg ∧ ∃ package ∈ p.packages, package.key = pkg.key

/-- What every run keeps. -/
structure IsStamped (p : Project) (s : State) : Prop where
  /-- The markers on disk are those of the stamped keys. -/
  markers : ∀ m, m ∈ s.markers ↔ ∃ key ∈ s.stamped, markerOf key = m
  pending : ∀ proc, s.proc = some proc → ∀ pkg ∈ proc.pending, IsOf p pkg
  todo : ∀ todo pending, s.proc = some (.turning todo pending) → ∀ package ∈ todo, package ∈ p.packages
  /-- A package waiting for its marker has completed. -/
  due : ∀ pkg todo, s.proc = some (.running pkg [] true todo) → pkg.key ∈ s.completed
  stamped : ∀ key ∈ s.stamped, key ∈ s.completed ∧ ∃ pkg, IsOf p pkg ∧ pkg.key = key

/-- **One turn of the loop**: at most the package's own scripts are enqueued, and no marker changes. -/
theorem turnPackage_spec (p : Project) (s : State) (package : Package) (todo : List Package)
    (pending : List PendingScripts) (extracted : Str → Bool) (outcome : Except Str Unit) :
    let s' := turnPackage p s package todo pending extracted outcome
    s'.markers = s.markers ∧ s'.completed = s.completed ∧ s'.stamped = s.stamped ∧ ∃ found : Option PendingScripts,
        s'.proc = some (.turning todo (pending ++ found.toList)) ∧
        ∀ pkg, found = some pkg → lifecycle p package.key = some pkg := by
  have hfound : ∀ (b : Bool) pkg, (checkLifecycleScripts
      (if b then p.manifest package.key else none) package.key p.isTrusted).1 = some pkg →
        lifecycle p package.key = some pkg := by
    intro b pkg h
    cases b with
    | true => exact h
    | false => cases h
  have hnone : ∀ pkg, (none : Option PendingScripts) = some pkg →
      lifecycle p package.key = some pkg := fun pkg h => by cases h
  have hskip : pending = pending ++ (none : Option PendingScripts).toList :=
    (append_nil pending).symm
  unfold turnPackage
  dsimp only
  split
  · exact ⟨rfl, rfl, rfl, none, by rw [← hskip], hnone⟩
  split
  · split
    · exact ⟨rfl, rfl, rfl, none, by rw [← hskip], hnone⟩
    · exact ⟨rfl, rfl, rfl, _, rfl, hfound true⟩
  · split
    · exact ⟨rfl, rfl, rfl, _, rfl, hfound _⟩
    · exact ⟨rfl, rfl, rfl, none, by rw [← hskip], hnone⟩

variable {p : Project}

theorem nextPackage_spec {todo : List PendingScripts} (htodo : ∀ pkg ∈ todo, IsOf p pkg) :
    (∀ proc, nextPackage todo = some proc → ∀ pkg ∈ proc.pending, IsOf p pkg) ∧
    (∀ t q, nextPackage todo ≠ some (.turning t q)) ∧ ∀ pkg t, nextPackage todo ≠ some (.running pkg [] true t) := by
  cases todo with
  | nil =>
    refine ⟨fun proc h => ?_, fun t q h => ?_, fun pkg t h => ?_⟩
    · cases h
    · cases h
    · cases h
  | cons pkg todo =>
    refine ⟨?_, ?_, ?_⟩
    · intro proc h
      injection h with h
      rw [← h]
      exact htodo
    · intro t q h
      injection h with h
      cases h
    · intro pkg' t h
      injection h with h
      injection h with h1 h2
      -- what is enqueued has a script
      exact (checkLifecycleScripts_spec (htodo pkg (mem_cons_self ..)).1).2.2 h2

theorem IsStamped.of_proc {s s' : State} (h : IsStamped p s) (hm : s'.markers = s.markers)
    (hc : s'.completed = s.completed) (hst : s'.stamped = s.stamped)
    (hpending : ∀ proc, s'.proc = some proc → ∀ pkg ∈ proc.pending, IsOf p pkg)
    (htodo : ∀ todo pending, s'.proc = some (.turning todo pending) → ∀ package ∈ todo, package ∈ p.packages)
    (hdue : ∀ pkg todo, s'.proc ≠ some (.running pkg [] true todo)) : IsStamped p s' := by
  refine ⟨?_, hpending, htodo, fun pkg todo hp => absurd hp (hdue pkg todo), ?_⟩
  · rw [hm, hst]
    exact h.markers
  · rw [hst, hc]
    exact h.stamped

section Step

variable {p : Project} {s s' : State}

theorem turn_isStamped (h : IsStamped p s) {package : Package} {todo : List Package} {pending : List PendingScripts}
    (hproc : s.proc = some (.turning (package :: todo) pending)) (extracted : Str → Bool) (outcome : Except Str Unit) :
    IsStamped p (turnPackage p s package todo pending extracted outcome) := by
  obtain ⟨hm, hc, hst, found, hnext, hfound⟩ :=
    turnPackage_spec p s package todo pending extracted outcome
  have hpackage : package ∈ p.packages := h.todo _ _ hproc package (mem_cons_self ..)
  refine h.of_proc hm hc hst ?_ ?_ ?_
  · intro proc hp pkg hpkg
    rw [hnext] at hp
    injection hp with hp
    rw [← hp] at hpkg
    rcases mem_append.mp hpkg with hold | hnew
    · exact h.pending _ hproc pkg hold
    · have hl := hfound pkg (Option.mem_toList.mp hnew)
      have hkey := (checkLifecycleScripts_spec hl).1
      exact ⟨hkey ▸ hl, package, hpackage, hkey.symm⟩
  · intro todo' pending' hp q hq
    rw [hnext] at hp
    injection hp with hp
    injection hp with hp
    exact h.todo _ _ hproc q (mem_cons_of_mem _ (hp ▸ hq))
  · intro pkg t hp
    rw [hnext] at hp
    injection hp with hp
    cases hp

theorem stamp_isStamped (h : IsStamped p s) {pkg : PendingScripts} {todo : List PendingScripts}
    (hproc : s.proc = some (.running pkg [] true todo)) :
    IsStamped p { s with
      proc := nextPackage todo
      markers := s.markers ++ [pkg.marker]
      stamped := s.stamped ++ [pkg.key] } := by
  have hpending := h.pending _ hproc
  have hof : IsOf p pkg := hpending pkg (mem_cons_self ..)
  have hmarker := (checkLifecycleScripts_spec hof.1).2.1
  have hrest : ∀ q ∈ todo, IsOf p q := fun q hq => hpending q (mem_cons_of_mem _ hq)
  obtain ⟨h1, h2, h3⟩ := nextPackage_spec hrest
  refine ⟨?_, h1, fun t q hp => absurd hp (h2 t q), fun q t hp => absurd hp (h3 q t), ?_⟩
  · intro m
    show m ∈ s.markers ++ [pkg.marker] ↔ ∃ key ∈ s.stamped ++ [pkg.key], markerOf key = m
    rw [mem_append, h.markers, mem_singleton]
    constructor
    · rintro (⟨key, hk, hm⟩ | rfl)
      · exact ⟨key, mem_append_left _ hk, hm⟩
      · exact ⟨pkg.key, mem_append_right _ (mem_singleton.mpr rfl), hmarker.symm⟩
    · rintro ⟨key, hk, hm⟩
      rcases mem_append.mp hk with hk | hk
      · exact .inl ⟨key, hk, hm⟩
      · rw [mem_singleton.mp hk] at hm
        exact .inr (hm ▸ hmarker.symm)
  · intro key hk
    rcases mem_append.mp hk with hk | hk
    · exact h.stamped key hk
    · rw [mem_singleton.mp hk]
      exact ⟨h.due pkg todo hproc, pkg, hof, rfl⟩

/-- **Every action keeps the markers those of the stamped keys.** -/
theorem step_isStamped {a : Action} (h : IsStamped p s) (hstep : step p s a = some s') : IsStamped p s' := by
  unfold step at hstep
  split at hstep
  · -- a run starts
    injection hstep with hstep
    subst hstep
    refine h.of_proc rfl rfl rfl ?_ ?_ ?_
    · intro proc hp
      injection hp with hp
      rw [← hp]
      exact fun pkg hm => absurd hm not_mem_nil
    · intro todo pending hp package hpackage
      injection hp with hp
      injection hp with hp
      rw [← hp] at hpackage
      exact (mem_filter.mp ((mem_insertionSort _).mp hpackage)).1
    · intro pkg todo hp
      injection hp with hp
      cases hp
  · rename_i hproc
    injection hstep with hstep
    rw [← hstep]
    exact turn_isStamped h hproc _ _
  · -- the loop is through
    rename_i ignored pending hproc
    split at hstep
    · injection hstep with hstep
      subst hstep
      refine h.of_proc rfl rfl rfl ?_ ?_ ?_
      · intro proc hp; cases hp
      · intro todo q hp; cases hp
      · intro pkg todo hp; cases hp
    · injection hstep with hstep
      subst hstep
      obtain ⟨h1, h2, h3⟩ := nextPackage_spec (h.pending _ hproc)
      exact h.of_proc rfl rfl rfl h1 (fun t q hp => absurd hp (h2 t q)) h3
  · rename_i outcome pkg phase cmd left allOk todo hproc
    cases outcome with
    | ok =>
      injection hstep with hstep
      rw [← hstep]
      have hmore : ∀ key ∈ s.completed,
          key ∈ (if allOk && left.isEmpty then s.completed ++ [pkg.key] else s.completed) := by
        intro key hk
        split
        · exact mem_append_left _ hk
        · exact hk
      refine ⟨h.markers, ?_, ?_, ?_, ?_⟩
      · intro proc hp
        injection hp with hp
        have hpending := h.pending _ hproc
        rw [← hp]
        exact hpending
      · intro todo' q hp
        injection hp with hp
        cases hp
      · intro q t hp
        injection hp with hp
        injection hp with hq hleft hok
        subst hq hleft hok
        exact mem_append_right _ (mem_singleton.mpr rfl)
      · exact fun key hk => ⟨hmore key (h.stamped key hk).1, (h.stamped key hk).2⟩
    | error e =>
      -- a failed script: the package will not be stamped in this run
      injection hstep with hstep
      subst hstep
      refine h.of_proc rfl rfl rfl ?_ ?_ ?_
      · intro proc hp
        injection hp with hp
        have hpending := h.pending _ hproc
        rw [← hp]
        exact hpending
      · intro todo' q hp; injection hp with hp; cases hp
      · intro q t hp; injection hp with hp; cases hp
  · rename_i written pkg allOk todo hproc
    split at hstep
    · rename_i hok
      rw [Bool.and_eq_true] at hok
      injection hstep with hstep
      rw [← hstep]
      exact stamp_isStamped h (hok.1 ▸ hproc)
    · injection hstep with hstep
      subst hstep
      have hrest : ∀ q ∈ todo, IsOf p q :=
        fun q hq => h.pending _ hproc q (mem_cons_of_mem _ hq)
      obtain ⟨h1, h2, h3⟩ := nextPackage_spec hrest
      exact h.of_proc rfl rfl rfl h1 (fun t q hp => absurd hp (h2 t q)) h3
  · -- the process dies
    injection hstep with hstep
    subst hstep
    refine h.of_proc rfl rfl rfl ?_ ?_ ?_
    · intro proc hp; cases hp
    · intro todo q hp; cases hp
    · intro pkg todo hp; cases hp
  · cases hstep

/-- The key whose marker is due. -/
def dueKey : Option Proc → List Str
  | some (.running pkg [] true _) => [pkg.key]
  | _ => []

theorem dueKey_nextPackage {todo : List PendingScripts} (htodo : ∀ pkg ∈ todo, IsOf p pkg) :
    dueKey (nextPackage todo) = [] := by
  cases todo with
  | nil => rfl
  | cons pkg todo =>
    rw [nextPackage]
    cases hscripts : pkg.scripts with
    | nil => exact absurd hscripts (checkLifecycleScripts_spec (htodo pkg (mem_cons_self ..)).1).2.2
    | cons => rfl

/-- **Where markers are written when they are due**, the completed keys are the stamped ones and the one that is due. -/
theorem stampingStep_completed {a : Action} (h : IsStamped p s) (hbooks : s.completed = s.stamped ++ dueKey s.proc)
    (hstep : stampingStep p s a = some s') : s'.completed = s'.stamped ++ dueKey s'.proc := by
  unfold stampingStep at hstep
  split at hstep
  case isFalse => nomatch hstep
  case isTrue hdue =>
    unfold step at hstep
    split at hstep
    · rename_i hproc
      cases hstep
      simpa [hproc, dueKey] using hbooks
    · rename_i package todo pending hproc
      injection hstep with hstep
      obtain ⟨-, hc, hst, found, hnext, -⟩ := turnPackage_spec p s package todo pending _ _
      rw [← hstep, hc, hst, hnext, hbooks, hproc]
      rfl
    · rename_i pending hproc
      simp only [hproc, dueKey, append_nil] at hbooks
      split at hstep
      · cases hstep
        simpa [dueKey] using hbooks
      · cases hstep
        show s.completed = s.stamped ++ dueKey (nextPackage pending)
        rw [hbooks, show dueKey (nextPackage pending) = [] from dueKey_nextPackage (h.pending _ hproc), append_nil]
    · rename_i pkg phase cmd left allOk todo hproc
      simp only [hproc, dueKey, append_nil] at hbooks
      cases allOk <;> cases left <;> split at hstep <;> cases hstep <;> simp [dueKey, hbooks]
    · rename_i written pkg allOk todo hproc
      have hnext := dueKey_nextPackage fun q hq => h.pending _ hproc q (mem_cons_of_mem _ hq)
      cases allOk with
      | false =>
        simp only [hproc, dueKey, append_nil] at hbooks
        cases hstep
        show s.completed = s.stamped ++ dueKey (nextPackage todo)
        rw [hbooks, hnext, append_nil]
      | true =>
        simp only [hproc, dueKey] at hbooks
        obtain rfl : written = true := by simpa [stampsDue, hproc] using hdue
        cases hstep
        show s.completed = s.stamped ++ [pkg.key] ++ dueKey (nextPackage todo)
        rw [hbooks, hnext, append_nil]
    · rename_i proc hproc
      cases hstep
      rw [hbooks, hproc]
      simp only [stampsDue, hproc] at hdue
      split at hdue <;> simp_all [dueKey]
    · nomatch hstep

end Step

/-! ## The run-once decision -/

/-- A package found extracted is enqueued unless its marker is there. -/
theorem turnPackage_warm {p : Project} {s : State} {package : Package} (hresolved : package.resolved.isSome = true)
    (hwarm : s.extracted package.key = true) {pkg : PendingScripts} (hscripts : lifecycle p package.key = some pkg)
    (todo : List Package) (pending : List PendingScripts) (now : Str → Bool) (outcome : Except Str Unit) :
    (turnPackage p s package todo pending now outcome).proc = some (.turning todo (pending ++ [pkg])) ↔
      markerOf package.key ∉ s.markers := by
  have hisNone : package.resolved.isNone = false := by
    cases h : package.resolved with
    | none => rw [h] at hresolved; cases hresolved
    | some _ => rfl
  unfold turnPackage
  dsimp only
  rw [hisNone, if_neg Bool.false_ne_true, if_pos hwarm]
  by_cases hm : s.markers.contains (scriptMarker (pkgName package.key))
  · rw [if_pos hm]
    refine iff_of_false (fun h => ?_) (not_not_intro (contains_iff_mem.mp hm))
    injection h with h
    injection h with _ h
    exact absurd (congrArg length h) (by simp)
  · rw [if_neg hm, hwarm, if_pos rfl]
    refine iff_of_true ?_ (mt contains_iff_mem.mpr hm)
    rw [show (checkLifecycleScripts (p.manifest package.key) package.key p.isTrusted).1 = some pkg from hscripts]
    rfl

/-- **When a package found extracted has its scripts enqueued.** After any runs, exactly when none has completed them,
    if no other package with scripts shares its marker. -/
theorem warm_package_enqueued_iff (p : Project) (extracted : Str → Bool) (actions : List Action)
    (s s' : State) (package : Package) (todo : List Package) (pending : List PendingScripts)
    (pkg : PendingScripts) (now : Str → Bool) (outcome : Except Str Unit)
    (hrun : Steps.exec (stampingStep p) (fresh extracted) actions = some s)
    (hunshared : ∀ other ∈ p.packages, other.key ≠ package.key → lifecycle p other.key ≠ none →
      markerOf other.key ≠ markerOf package.key)
    (hproc : s.proc = some (.turning (package :: todo) pending))
    (hresolved : package.resolved.isSome = true) (hwarm : s.extracted package.key = true)
    (hscripts : lifecycle p package.key = some pkg)
    (hstep : step p s (.turn now outcome) = some s') :
    s'.proc = some (.turning todo (pending ++ [pkg])) ↔ package.key ∉ s.completed := by
  have hfresh : IsStamped p (fresh extracted) := by constructor <;> simp [fresh]
  have hinv : IsStamped p s ∧ s.completed = s.stamped ++ dueKey s.proc := by
    refine Steps.exec_invariant (P := fun s => IsStamped p s ∧ s.completed = s.stamped ++ dueKey s.proc)
      (fun t a t' ht hstep => ?_) ⟨hfresh, rfl⟩ hrun
    refine ⟨?_, stampingStep_completed ht.1 ht.2 hstep⟩
    unfold stampingStep at hstep
    split at hstep
    · exact step_isStamped ht.1 hstep
    · nomatch hstep
  obtain ⟨hinv, hbooks⟩ := hinv
  simp only [hproc, dueKey, append_nil] at hbooks
  simp only [step, hproc, Option.some.injEq] at hstep
  rw [← hstep, turnPackage_warm hresolved hwarm hscripts, hinv.markers, hbooks, not_iff_not]
  refine ⟨fun ⟨key, hkey, hmark⟩ => ?_, fun hkey => ⟨_, hkey, rfl⟩⟩
  -- a stamped key is a package with scripts: with this marker it is the package itself
  obtain ⟨-, q, ⟨hq, other, hother, hotherKey⟩, rfl⟩ := hinv.stamped key hkey
  by_cases he : q.key = package.key
  · exact he ▸ hkey
  · refine absurd (hotherKey ▸ hmark) (hunshared other hother (hotherKey ▸ he) ?_)
    rw [hotherKey, hq]
    exact Option.some_ne_none q

/-- One package, with one script. -/
def oneScript : Project where
  packages := [⟨"node_modules/a".toList, some "u".toList⟩]
  manifest := fun _ => some (.obj [("scripts".toList, .obj [("install".toList, .str "make".toList)])])
  isTrusted := fun _ => true

/-- A first run fetches the package and its script fails; a second finds it, runs the script again and stamps it. -/
def retriedRuns : List Action :=
  [.start, .turn (fun _ => true) (.ok ()), .runScripts false, .script (.error "exit 1".toList), .stamp false,
    .start, .turn (fun _ => true) (.ok ()), .runScripts false, .script (.ok ()), .stamp true, .start]

/-- The third run finds the package completed, and does not enqueue it. -/
theorem warm_package_enqueued_iff_third_run : ∃ s s',
    Steps.exec (stampingStep oneScript) (fresh fun _ => false) retriedRuns = some s ∧
    step oneScript s (.turn (fun _ => true) (.ok ())) = some s' ∧
    s'.proc ≠ some (.turning [] [⟨"node_modules/a".toList, "a".toList, [("install".toList, "make".toList)],
      "a".toList⟩]) := by
  obtain ⟨s, hs⟩ := Option.isSome_iff_exists.mp
    (show (Steps.exec (stampingStep oneScript) (fresh fun _ => false) retriedRuns).isSome by decide +kernel)
  have hvalues : (Steps.exec (stampingStep oneScript) (fresh fun _ => false) retriedRuns).map
      (fun s => (s.proc, s.extracted "node_modules/a".toList, s.completed)) =
        some (some (.turning oneScript.packages []), true, ["node_modules/a".toList]) := by decide +kernel
  rw [hs] at hvalues
  injection hvalues with hvalues
  injection hvalues with hproc hvalues
  injection hvalues with hwarm hcompleted
  obtain ⟨s', hstep⟩ := Option.isSome_iff_exists.mp
    (show (step oneScript s (.turn (fun _ => true) (.ok ()))).isSome by simp [step, hproc, oneScript])
  refine ⟨s, s', hs, hstep, ?_⟩
  have hiff := warm_package_enqueued_iff oneScript (fun _ => false) retriedRuns s s'
    ⟨"node_modules/a".toList, some "u".toList⟩ [] []
    ⟨"node_modules/a".toList, "a".toList, [("install".toList, "make".toList)], "a".toList⟩ (fun _ => true) (.ok ()) hs
    (fun other hother hne => absurd (congrArg Package.key (mem_singleton.mp hother)) hne) hproc rfl hwarm
    (by decide +kernel) hstep
  exact fun h => hiff.mp h (hcompleted ▸ mem_singleton.mpr rfl)

/-- A package, and another with a copy of it of its own. -/
def twoCopies : Project where
  packages := [⟨"node_modules/a".toList, some "u".toList⟩, ⟨"node_modules/b".toList, some "v".toList⟩,
    ⟨"node_modules/b/node_modules/a".toList, some "w".toList⟩]
  manifest key :=
    if key = "node_modules/b".toList then some (.obj [])
    else some (.obj [("scripts".toList, .obj [("install".toList, .str "make".toList)])])
  isTrusted _ := true

/-- **A failed copy is not tried again.** The two copies share a marker: one succeeds, and neither is enqueued again. -/
theorem nested_copy_not_retried : (Steps.exec (stampingStep twoCopies) (fresh fun _ => false)
      [.start, .turn (· = "node_modules/a".toList) (.ok ()),
        .turn (fun key => key = "node_modules/a".toList ∨ key = "node_modules/b".toList) (.ok ()),
        .turn (fun _ => true) (.ok ()), .runScripts false,
        .script (.ok ()), .stamp true, .script (.error "exit 1".toList), .stamp false,
        .start, .turn (fun _ => true) (.ok ()), .turn (fun _ => true) (.ok ()), .turn (fun _ => true) (.ok ())]).map
        (fun s => (s.proc, s.completed)) = some (some (.turning [] []), ["node_modules/a".toList]) := by
  decide +kernel

end Oam.Loader.Install
