/-
  `npm.rs`: a package's `exports` map, and where its targets lead.  A map is a `Json.Value` (objects keep their order,
  as `serde_json` is built here).  The check for a leading `./` alone does not keep a target inside its package
  (`pattern_match_climbs_out`).
-/
import Oam.Lib.Json
import Oam.Lib.PosixPath

namespace Oam.Loader

open Option List Text LexPath PosixPath
open Json (Value)

/-! ## Data -/

/-- Who asks: `import` or `require()`. -/
inductive ResolveMode where
  | import
  | require
deriving DecidableEq, Repr

/-- The conditions that hold, besides `default`. -/
def ResolveMode.conditions : ResolveMode → List Str
  | .import => ["node".toList, "import".toList, "default".toList]
  | .require => ["node".toList, "require".toList, "default".toList]

/-- Why a subpath has no target. -/
inductive ExportsError where
  | notExported
  | invalidTarget (target : Str)
deriving DecidableEq, Repr

/-- The code and the message of a `Diagnostic`. -/
structure Diagnostic where
  code : Str
  message : Str
deriving DecidableEq, Repr

/-! ## The program -/

/-- What follows the package's name, as a subpath: `.` for nothing. -/
def subpathOf (rest : Str) : Str := if rest.isEmpty then ['.'] else '.' :: '/' :: rest

/-- The text before the first `/` and the text after it, empty if there is none. -/
def cutSlash (s : Str) : Str × Str := (splitOnce '/' s).getD (s, [])

/-- `pkg`, `pkg/sub`, `@scope/pkg` or `@scope/pkg/sub`, as the name and `.` or `./sub`. -/
def splitSpecifier (specifier : Str) : Option (Str × Str) :=
  if specifier.head? = some '@' then
    match splitOnce '/' specifier with
    | none => none
    | some (scope, after) =>
      let (pkg, rest) := cutSlash after
      if pkg.isEmpty then none else some (scope ++ '/' :: pkg, subpathOf rest)
  else
    let (name, rest) := cutSlash specifier
    if name.isEmpty then none else some (name, subpathOf rest)

/-- `str::replace` of every `*`. -/
def substitute (s matched : Str) : Str := s.flatMap fun c => if c = '*' then matched else [c]

mutual

/-- `resolve_target`; the check for `./` is on the text that is filled in. -/
def resolveTarget (matched : Str) (conditions : List Str) : Value → Except ExportsError Str
  | .str s =>
    let substituted := substitute s matched
    if ['.', '/'].isPrefixOf substituted then .ok substituted else .error (.invalidTarget substituted)
  | .obj branches => resolveBranches matched conditions branches
  | .arr options => resolveOptions matched conditions options
  | .null => .error .notExported
  | .bool b => .error (.invalidTarget (if b then "true".toList else "false".toList))
  | .num text => .error (.invalidTarget text)

/-- The first branch whose condition holds decides, whatever it resolves to. -/
def resolveBranches (matched : Str) (conditions : List Str) : List (Str × Value) → Except ExportsError Str
  | [] => .error .notExported
  | (condition, value) :: branches =>
    if condition = "default".toList ∨ condition ∈ conditions then
      resolveTarget matched conditions value
    else resolveBranches matched conditions branches

/-- The first option that resolves. -/
def resolveOptions (matched : Str) (conditions : List Str) : List Value → Except ExportsError Str
  | [] => .error .notExported
  | option :: options =>
    match resolveTarget matched conditions option with
    | .ok resolved => .ok resolved
    | .error _ => resolveOptions matched conditions options

end

/-- The best pattern so far: the byte length of the text before its `*`, its value, and what the `*`
    stands for. -/
abbrev Best := Option (Nat × Value × Str)

/-- One key of the wildcard loop.  Only a strictly longer text before the `*` replaces the best. -/
def wildcardStep (subpath : Str) (best : Best) (member : Str × Value) : Best :=
  match splitOnce '*' member.1 with
  | none => best
  | some (before, after) =>
    if utf8Len before + utf8Len after ≤ utf8Len subpath ∧ before.isPrefixOf subpath ∧ after.isSuffixOf subpath then
      let matched :=
        (subpath.drop before.length).take (subpath.length - after.length - before.length)
      if best.all fun b => b.1 < utf8Len before then some (utf8Len before, member.2, matched)
      else best
    else best

/-- A map is an object with a key that starts with `.` or `#`; anything else is sugar for the entry
    of `.`. -/
def asMap : Value → Option (List (Str × Value))
  | .obj members =>
    if members.any fun m => m.1.head? = some '.' ∨ m.1.head? = some '#' then some members else none
  | _ => none

/-- `exports_resolve`: an exact key is preferred to every pattern. -/
def exportsResolve (exports : Value) (subpath : Str) (conditions : List Str) : Except ExportsError Str :=
  match asMap exports with
  | none => if subpath = ['.'] then resolveTarget [] conditions exports else .error .notExported
  | some map =>
    match map.lookup subpath with
    | some value => resolveTarget [] conditions value
    | none =>
      match map.foldl (wildcardStep subpath) none with
      | some (_, value, matched) => resolveTarget matched conditions value
      | none => .error .notExported

/-- `trim_start_matches("./")`: every leading `./` goes. -/
def trimStartDotSlash : Str → Str
  | '.' :: '/' :: rest => trimStartDotSlash rest
  | s => s

/-- The path of a target, in the package's directory. -/
def targetPath (packageDir target : Str) : Str := push packageDir (trimStartDotSlash target)

/-- `resolve_in_package` where the manifest has an `exports` field. -/
def resolveExported (isFile : Str → Bool) (packageDir package : Str) (exports : Value) (subpath : Str)
    (mode : ResolveMode) : Except Diagnostic Str :=
  match exportsResolve exports subpath mode.conditions with
  | .error .notExported =>
    .error ⟨"OAM-MOD0007".toList, "subpath '".toList ++ subpath ++ "' is not exported by ".toList ++
      package ++ " (its exports map does not allow it)".toList⟩
  | .error (.invalidTarget target) =>
    .error ⟨"OAM-MOD0002".toList, "package ".toList ++ package ++
      " has an invalid exports target '".toList ++ target ++ "'".toList⟩
  | .ok target =>
    let path := targetPath packageDir target
    if isFile path then .ok path
    else .error ⟨"OAM-MOD0002".toList, "package ".toList ++ package ++ " exports '".toList ++ subpath ++
      "' -> ".toList ++ path ++ " which does not exist".toList⟩

/-! ## What a specifier and a subpath stand for -/

theorem splitSpecifier_spec {specifier name subpath : Str} (h : splitSpecifier specifier = some (name, subpath)) :
    ∃ rest, subpath = subpathOf rest ∧ ((specifier = name ∧ rest = []) ∨ specifier = name ++ '/' :: rest) := by
  have hcut : ∀ s : Str, (s = (cutSlash s).1 ∧ (cutSlash s).2 = []) ∨ s = (cutSlash s).1 ++ '/' :: (cutSlash s).2 := by
    intro s
    cases hs : splitOnce '/' s with
    | none => exact .inl (by simp [cutSlash, hs])
    | some p => exact .inr (by simpa [cutSlash, hs] using (splitOnce_eq_some.mp hs).1)
  unfold splitSpecifier at h
  split at h
  · split at h
    · nomatch h
    · rename_i scope after hs
      have hspec := (splitOnce_eq_some.mp hs).1
      simp only [ite_none_left_eq_some, some.injEq, Prod.mk.injEq] at h
      obtain ⟨-, rfl, rfl⟩ := h
      refine ⟨(cutSlash after).2, rfl, (hcut after).imp (fun h => ⟨?_, h.2⟩) fun h => ?_⟩
      · rw [hspec, ← h.1]
      · rw [append_assoc, cons_append, ← h]
        exact hspec
  · simp only [ite_none_left_eq_some, some.injEq, Prod.mk.injEq] at h
    obtain ⟨-, rfl, rfl⟩ := h
    exact ⟨_, rfl, hcut specifier⟩

/-- The key `before*after` stands for the subpath, its `*` for `matched`. -/
def Matches (key subpath before matched after : Str) : Prop :=
  key = before ++ '*' :: after ∧ '*' ∉ before ∧ subpath = before ++ matched ++ after

/-- **The entry a subpath is given**, and what its `*` stands for: a key of its own, else the pattern with the longest
    text before its `*`. -/
inductive Provides (exports : Value) (subpath : Str) : Value → Str → Prop
  | sugar (hmap : asMap exports = none) (hdot : subpath = ['.']) : Provides exports subpath exports []
  | exact {map : List (Str × Value)} {entry : Value} (hmap : asMap exports = some map)
      (hkey : map.lookup subpath = some entry) : Provides exports subpath entry []
  | pattern {map : List (Str × Value)} {key before matched after : Str} {entry : Value}
      (hmap : asMap exports = some map) (hkey : map.lookup subpath = none)
      (hmem : (key, entry) ∈ map) (hmatch : Matches key subpath before matched after)
      (hlongest : ∀ m ∈ map, ∀ b x a, Matches m.1 subpath b x a → utf8Len b ≤ utf8Len before) :
      Provides exports subpath entry matched

/-- The texts an entry can come to: down through conditions that hold, and fallbacks. -/
inductive LeadsTo (conditions : List Str) : Value → Str → Prop
  | str (s : Str) : LeadsTo conditions (.str s) s
  | branch {branches : List (Str × Value)} {condition : Str} {value : Value} {leaf : Str}
      (hmem : (condition, value) ∈ branches)
      (hcond : condition = "default".toList ∨ condition ∈ conditions)
      (hleaf : LeadsTo conditions value leaf) : LeadsTo conditions (.obj branches) leaf
  | option {options : List Value} {value : Value} {leaf : Str} (hmem : value ∈ options)
      (hleaf : LeadsTo conditions value leaf) : LeadsTo conditions (.arr options) leaf

/-- The target is the text `leaf` with its `*`s put in, and starts with `./`. -/
def Fills (leaf matched target : Str) : Prop :=
  target = substitute leaf matched ∧ ['.', '/'] <+: target

mutual

variable {conditions : List Str}

variable {matched : Str}

/-- **What an entry resolves to** is one of its texts, filled in. -/
theorem resolveTarget_spec {target : Str} :
    ∀ entry : Value, resolveTarget matched conditions entry = .ok target →
      ∃ leaf, LeadsTo conditions entry leaf ∧ Fills leaf matched target
  | .str s, h => by
    rw [resolveTarget] at h
    split at h
    · rename_i hdot
      injection h with h
      exact ⟨s, .str s, h.symm, h ▸ isPrefixOf_iff_prefix.mp hdot⟩
    · nomatch h
  | .obj branches, h => by
    rw [resolveTarget] at h
    obtain ⟨_, value, hmem, hcond, leaf, hleaf, hfill⟩ := resolveBranches_spec branches h
    exact ⟨leaf, .branch hmem hcond hleaf, hfill⟩
  | .arr options, h => by
    rw [resolveTarget] at h
    obtain ⟨_, hmem, leaf, hleaf, hfill⟩ := resolveOptions_spec options h
    exact ⟨leaf, .option hmem hleaf, hfill⟩
  | .null, h => by rw [resolveTarget] at h; nomatch h
  | .bool b, h => by rw [resolveTarget] at h; nomatch h
  | .num text, h => by rw [resolveTarget] at h; nomatch h

theorem resolveBranches_spec {target : Str} :
    ∀ branches : List (Str × Value), resolveBranches matched conditions branches = .ok target →
      ∃ condition value, (condition, value) ∈ branches ∧ (condition = "default".toList ∨ condition ∈ conditions) ∧
        ∃ leaf, LeadsTo conditions value leaf ∧ Fills leaf matched target
  | [], h => by rw [resolveBranches] at h; nomatch h
  | (condition, value) :: branches, h => by
    rw [resolveBranches] at h
    split at h
    · rename_i hcond
      exact ⟨condition, value, mem_cons_self .., hcond, resolveTarget_spec value h⟩
    · obtain ⟨c, v, hmem, hrest⟩ := resolveBranches_spec branches h
      exact ⟨c, v, mem_cons_of_mem _ hmem, hrest⟩

theorem resolveOptions_spec {target : Str} :
    ∀ options : List Value, resolveOptions matched conditions options = .ok target →
      ∃ value ∈ options, ∃ leaf, LeadsTo conditions value leaf ∧ Fills leaf matched target
  | [], h => by rw [resolveOptions] at h; nomatch h
  | option :: options, h => by
    rw [resolveOptions] at h
    split at h
    · rename_i resolved hres
      injection h with h
      subst h
      exact ⟨option, mem_cons_self .., resolveTarget_spec option hres⟩
    · obtain ⟨v, hmem, hrest⟩ := resolveOptions_spec options h
      exact ⟨v, mem_cons_of_mem _ hmem, hrest⟩

end

/-! ## The wildcard loop -/

/-- The loop's test on a key is a match: the text before and the text after do not overlap. -/
theorem fits_iff {subpath before after : Str} :
    (utf8Len before + utf8Len after ≤ utf8Len subpath ∧ before.isPrefixOf subpath ∧
        after.isSuffixOf subpath) ↔ ∃ matched, subpath = before ++ matched ++ after := by
  rw [isSuffixOf_iff_suffix, isPrefixOf_iff_prefix]
  constructor
  · rintro ⟨hlen, ⟨tail, rfl⟩, hsuf⟩
    rcases suffix_or_suffix_of_suffix hsuf (suffix_append before tail) with h | h
    · obtain ⟨matched, rfl⟩ := h
      exact ⟨matched, by simp⟩
    · -- the text after reaches into the text before: only if it is all of the tail
      obtain ⟨overlap, rfl⟩ := h
      have hnone : overlap = [] := by
        by_contra hne
        have := utf8Len_pos hne
        rw [utf8Len_append, utf8Len_append] at hlen
        omega
      exact ⟨[], by simp [hnone]⟩
  · rintro ⟨matched, rfl⟩
    refine ⟨?_, ⟨matched ++ after, by simp⟩, suffix_append _ _⟩
    rw [utf8Len_append, utf8Len_append]
    omega

theorem Matches.splitOnce_eq {key subpath before matched after : Str}
    (h : Matches key subpath before matched after) : splitOnce '*' key = some (before, after) := by
  obtain ⟨rfl, hno, -⟩ := h
  exact splitOnce_append hno

theorem Matches.before_unique {key subpath b x a b' x' a' : Str} (h : Matches key subpath b x a)
    (h' : Matches key subpath b' x' a') : b = b' := by
  have heq := h.splitOnce_eq.symm.trans h'.splitOnce_eq
  injection heq with heq
  injection heq

/-- **One key of the loop**: one that matches becomes the best if it is longer before its `*`. -/
theorem wildcardStep_cases (subpath : Str) (best : Best) (member : Str × Value) :
    (wildcardStep subpath best member = best ∧ ∀ b x a, ¬ Matches member.1 subpath b x a) ∨ ∃ before matched after,
    Matches member.1 subpath before matched after ∧ wildcardStep subpath best member =
    if best.all fun b => b.1 < utf8Len before then some (utf8Len before, member.2, matched) else best := by
  unfold wildcardStep
  cases hs : splitOnce '*' member.1 with
  | none =>
    refine .inl ⟨rfl, fun b x a hmatch => ?_⟩
    rw [hmatch.splitOnce_eq] at hs
    nomatch hs
  | some cut =>
    obtain ⟨before, after⟩ := cut
    obtain ⟨hkey, hno⟩ := splitOnce_eq_some.mp hs
    dsimp only
    by_cases hfits : utf8Len before + utf8Len after ≤ utf8Len subpath ∧ before.isPrefixOf subpath ∧
        after.isSuffixOf subpath
    · obtain ⟨matched, hsub⟩ := fits_iff.mp hfits
      refine .inr ⟨before, matched, after, ⟨hkey, hno, hsub⟩, ?_⟩
      have hlen : (before ++ matched ++ after).length - after.length - before.length = matched.length := by
        rw [length_append, length_append]
        omega
      rw [if_pos hfits, hsub, hlen, append_assoc, drop_left, take_left]
    · refine .inl ⟨if_neg hfits, fun b x a hmatch => hfits ?_⟩
      have heq := hmatch.splitOnce_eq.symm.trans hs
      simp only [some.injEq, Prod.mk.injEq] at heq
      obtain ⟨rfl, rfl⟩ := heq
      exact fits_iff.mpr ⟨x, hmatch.2.2⟩

/-- The best pattern of the keys seen. -/
structure IsBest (subpath : Str) (seen : List (Str × Value)) (best : Best) : Prop where
  found : ∀ b, best = some b → ∃ key before after, (key, b.2.1) ∈ seen ∧
    Matches key subpath before b.2.2 after ∧ b.1 = utf8Len before
  longest : ∀ m ∈ seen, ∀ before x after, Matches m.1 subpath before x after → ∃ b, best = some b ∧ utf8Len before ≤ b.1

theorem wildcardStep_isBest {subpath : Str} {seen : List (Str × Value)} {best : Best} (h : IsBest subpath seen best)
    (member : Str × Value) : IsBest subpath (seen ++ [member]) (wildcardStep subpath best member) := by
  -- the old best stays, provided the new key has no longer match
  have hkeep : (∀ before x after, Matches member.1 subpath before x after →
      ∃ b, best = some b ∧ utf8Len before ≤ b.1) → IsBest subpath (seen ++ [member]) best := by
    intro hnew
    refine ⟨?_, ?_⟩
    · intro b hb
      obtain ⟨key, before, after, hmem, hrest⟩ := h.found b hb
      exact ⟨key, before, after, mem_append_left _ hmem, hrest⟩
    · intro m hm
      rcases mem_append.mp hm with hm | hm
      · exact h.longest m hm
      · rw [mem_singleton.mp hm]
        exact hnew
  rcases wildcardStep_cases subpath best member with ⟨heq, hno⟩ | ⟨before, _, after, hmatch, heq⟩
  · rw [heq]
    exact hkeep fun b x a hm => absurd hm (hno b x a)
  · rw [heq]
    by_cases hbest : (best.all fun b => decide (b.1 < utf8Len before))
    · -- longer than every match before: the new best
      rw [if_pos hbest]
      refine ⟨?_, ?_⟩
      · intro b hb
        injection hb with hb
        subst hb
        exact ⟨member.1, before, after, by simp, hmatch, rfl⟩
      · intro m hm b x a hx
        refine ⟨_, rfl, ?_⟩
        rcases mem_append.mp hm with hm | hm
        · obtain ⟨b', hb', hle⟩ := h.longest m hm b x a hx
          rw [hb', all_some, decide_eq_true_iff] at hbest
          exact Nat.le_trans hle (Nat.le_of_lt hbest)
        · rw [mem_singleton.mp hm] at hx
          exact Nat.le_of_eq (congrArg utf8Len (hx.before_unique hmatch))
    · rw [if_neg hbest]
      refine hkeep fun b x a hx => ?_
      cases hb : best with
      | none =>
        rw [hb] at hbest
        exact absurd rfl hbest
      | some b' =>
        rw [hb, all_some, decide_eq_true_iff] at hbest
        exact ⟨b', rfl, hx.before_unique hmatch ▸ Nat.le_of_not_lt hbest⟩

/-- **The wildcard loop** ends with the best pattern of the whole map. -/
theorem wildcard_loop_isBest (subpath : Str) (map : List (Str × Value)) :
    IsBest subpath map (map.foldl (wildcardStep subpath) none) := by
  have hrun : ∀ (rest seen : List (Str × Value)) (best : Best), IsBest subpath seen best →
      IsBest subpath (seen ++ rest) (rest.foldl (wildcardStep subpath) best) := by
    intro rest
    induction rest with
    | nil =>
      intro seen best h
      rwa [append_nil]
    | cons m rest ih =>
      intro seen best h
      have := ih _ _ (wildcardStep_isBest h m)
      rwa [append_assoc, singleton_append] at this
  refine hrun map [] none ⟨?_, ?_⟩
  · intro b hb; nomatch hb
  · intro m hm; nomatch hm

variable {exports : Value} {subpath : Str} {map : List (Str × Value)}

/-- **What decides**: an entry that `exports` provides, or nothing is provided. -/
theorem exportsResolve_provides (exports : Value) (subpath : Str) (conditions : List Str) :
    (∃ entry matched, Provides exports subpath entry matched ∧
      exportsResolve exports subpath conditions = resolveTarget matched conditions entry) ∨
    (exportsResolve exports subpath conditions = .error .notExported ∧
      ∀ entry matched, ¬ Provides exports subpath entry matched) := by
  unfold exportsResolve
  cases hmap : asMap exports with
  | none =>
    dsimp only
    by_cases hdot : subpath = ['.']
    · exact .inl ⟨exports, [], .sugar hmap hdot, if_pos hdot⟩
    refine .inr ⟨if_neg hdot, ?_⟩
    rintro _ _ (⟨-, h⟩ | ⟨h, -⟩ | ⟨h, -⟩)
    · exact hdot h
    · rw [hmap] at h; nomatch h
    · rw [hmap] at h; nomatch h
  | some map =>
    dsimp only
    cases hkey : map.lookup subpath with
    | some entry => exact .inl ⟨entry, [], .exact hmap hkey, rfl⟩
    | none =>
      dsimp only
      have hloop := wildcard_loop_isBest subpath map
      cases hbest : map.foldl (wildcardStep subpath) none with
      | none =>
        refine .inr ⟨rfl, ?_⟩
        rintro _ _ (⟨h, -⟩ | ⟨h, hkey'⟩ | ⟨h, -, hmem, hmatch, -⟩)
        · rw [hmap] at h; nomatch h
        · obtain rfl := some.inj (hmap.symm.trans h)
          rw [hkey] at hkey'; nomatch hkey'
        · obtain rfl := some.inj (hmap.symm.trans h)
          obtain ⟨_, hb, -⟩ := hloop.longest _ hmem _ _ _ hmatch
          rw [hbest] at hb; nomatch hb
      | some b =>
        obtain ⟨_, _, _, hmem, hmatch, hlen⟩ := hloop.found _ hbest
        refine .inl ⟨b.2.1, b.2.2, .pattern hmap hkey hmem hmatch fun m hm b' x a hx => ?_, rfl⟩
        obtain ⟨_, hb'', hle⟩ := hloop.longest m hm b' x a hx
        obtain rfl := some.inj (hbest.symm.trans hb'')
        exact Nat.le_trans hle (Nat.le_of_eq hlen)

/-! ## Where a target leads -/

/-- The filled text is, behind its leading `./`s, relative, and never climbs above its own beginning. -/
def StaysInside (leaf matched : Str) : Prop :=
  hasRoot (trimStartDotSlash (substitute leaf matched)) = false ∧
    staysBelow 0 (moves isSep (trimStartDotSlash (substitute leaf matched))) = true

instance (leaf matched : Str) : Decidable (StaysInside leaf matched) := instDecidableAnd

/-- A map with a pattern, a fallback and a condition under it. -/
def featureMap : Value :=
  .obj [("./f/*".toList, .arr [.str "lib/*".toList, .obj [("import".toList, .str "./lib/./*.js".toList)]])]

/-- What the map provides for `./f/a/b`: its one entry, `a/b` standing for the `*`. -/
theorem provides_featureMap {entry : Value} {matched : Str}
    (h : Provides featureMap "./f/a/b".toList entry matched) :
    entry = .arr [.str "lib/*".toList, .obj [("import".toList, .str "./lib/./*.js".toList)]] ∧
      matched = "a/b".toList := by
  have hmap : asMap featureMap = some
      [("./f/*".toList, .arr [.str "lib/*".toList, .obj [("import".toList, .str "./lib/./*.js".toList)]])] := by
    simp [asMap, featureMap]
  rcases h with ⟨h, -⟩ | ⟨h, hkey⟩ | ⟨h, -, hmem, hmatch, -⟩
  · rw [hmap] at h; nomatch h
  · obtain rfl := some.inj (hmap.symm.trans h)
    exact absurd hkey (by simp [lookup_cons])
  · obtain rfl := some.inj (hmap.symm.trans h)
    obtain ⟨rfl, rfl⟩ := Prod.mk.inj (mem_singleton.mp hmem)
    have hcut := hmatch.splitOnce_eq
    rw [show splitOnce '*' "./f/*".toList = some ("./f/".toList, []) by decide] at hcut
    obtain ⟨rfl, rfl⟩ := Prod.mk.inj (some.inj hcut)
    exact ⟨rfl, by simpa using hmatch.2.2.symm⟩

end Oam.Loader
