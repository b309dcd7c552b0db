/-
  Node's rules for a target of a package's `exports` or `imports` (`PACKAGE_TARGET_RESOLVE`), beside those of `npm.rs`:
  in Node an object goes on to its next condition if the nested target is `undefined`.
-/
import Oam.Loader.Exports

namespace Oam.Loader

open Text
open Json (Value)

/-! ## Targets -/

/-- What Node's walk of a target comes to: a text, nothing (no condition held), or a block. -/
inductive Outcome where
  | resolved (target : Str)
  | undefined
  | blocked
deriving DecidableEq

namespace Outcome

def orElse : Outcome → Outcome → Outcome
  | .resolved target, _ => .resolved target
  | .undefined, outcome => outcome
  | .blocked, .resolved target => .resolved target
  | .blocked, _ => .blocked

def target : Outcome → Option Str
  | .resolved target => some target
  | _ => none

@[simp] theorem target_orElse (a b : Outcome) : (a.orElse b).target = a.target.or b.target := by
  cases a <;> cases b <;> rfl

end Outcome

section Targets

variable (matched : Str) (conditions : List Str)

mutual

/-- `PACKAGE_TARGET_RESOLVE`. -/
def targetResolve : Value → Outcome
  | .str s => if ['.', '/'].isPrefixOf s then .resolved (substitute s matched) else .blocked
  | .obj branches => branchResolve branches
  | .arr options => if options.isEmpty then .blocked else optionResolve options
  | .null | .bool _ | .num _ => .blocked

/-- The first condition that holds and comes to something. -/
def branchResolve : List (Str × Value) → Outcome
  | [] => .undefined
  | (condition, value) :: branches =>
    if condition = "default".toList ∨ conditions.contains condition = true then
      if targetResolve value = .undefined then branchResolve branches else targetResolve value
    else branchResolve branches

def optionResolve : List Value → Outcome
  | [] => .undefined
  | option :: options => (targetResolve option).orElse (optionResolve options)

end

mutual

/-- No condition of the value holds, all the way down: Node comes to nothing there and falls through to what follows. -/
def fallsThrough : Value → Bool
  | .obj branches => branchesFallThrough branches
  | .arr options => !options.isEmpty && optionsFallThrough options
  | .str _ | .null | .bool _ | .num _ => false

/-- Every branch whose condition holds falls through. -/
def branchesFallThrough : List (Str × Value) → Bool
  | [] => true
  | (condition, value) :: branches =>
    if condition = "default".toList ∨ conditions.contains condition = true then
      fallsThrough value && branchesFallThrough branches
    else branchesFallThrough branches

/-- Every option falls through. -/
def optionsFallThrough : List Value → Bool
  | [] => true
  | option :: options => fallsThrough option && optionsFallThrough options

end

mutual

/-- **The condition on a target**: no branch that is entered falls through, and only a text's own `./` makes it
    relative. -/
def settled : Value → Bool
  | .str s => !(['.', '/'].isPrefixOf (substitute s matched)) || ['.', '/'].isPrefixOf s
  | .obj branches => branchesSettled branches
  | .arr options => optionsSettled options
  | .null | .bool _ | .num _ => true

/-- The first branch whose condition holds is settled, and does not fall through to one that Node resolves. -/
def branchesSettled : List (Str × Value) → Bool
  | [] => true
  | (condition, value) :: branches =>
    if condition = "default".toList ∨ conditions.contains condition = true then
      if fallsThrough conditions value then (branchResolve matched conditions branches).target.isNone
      else settled value
    else branchesSettled branches

/-- The options are settled, up to the one Node chooses. -/
def optionsSettled : List Value → Bool
  | [] => true
  | option :: options =>
    settled option && ((targetResolve matched conditions option).target.isSome || optionsSettled options)

end

variable {matched : Str} {conditions : List Str}

theorem toOption_resolveOptions_cons (option : Value) (options : List Value) :
    (resolveOptions matched conditions (option :: options)).toOption =
      (resolveTarget matched conditions option).toOption.or (resolveOptions matched conditions options).toOption := by
  rw [resolveOptions]
  cases resolveTarget matched conditions option <;> rfl

theorem orElse_eq_undefined_iff (a b : Outcome) : a.orElse b = .undefined ↔ a = .undefined ∧ b = .undefined := by
  cases a <;> cases b <;> simp [Outcome.orElse]

mutual

/-- `fallsThrough` is Node's `undefined`. -/
theorem targetResolve_eq_undefined_iff : ∀ value : Value,
    targetResolve matched conditions value = .undefined ↔ fallsThrough conditions value = true
  | .str s => by
    rw [targetResolve, fallsThrough]
    split <;> simp
  | .obj branches => by
    rw [targetResolve, fallsThrough]
    exact branchResolve_eq_undefined_iff branches
  | .arr [] => by simp [targetResolve, fallsThrough]
  | .arr (option :: options) => by
    rw [targetResolve, fallsThrough, if_neg (by simp), optionResolve_eq_undefined_iff]
    simp
  | .null | .bool _ | .num _ => by simp [targetResolve, fallsThrough]

theorem branchResolve_eq_undefined_iff : ∀ branches : List (Str × Value),
    branchResolve matched conditions branches = .undefined ↔ branchesFallThrough conditions branches = true
  | [] => by simp [branchResolve, branchesFallThrough]
  | (condition, value) :: branches => by
    rw [branchResolve, branchesFallThrough]
    by_cases hcond : condition = "default".toList ∨ conditions.contains condition = true
    · rw [if_pos hcond, if_pos hcond, Bool.and_eq_true, ← targetResolve_eq_undefined_iff value,
        ← branchResolve_eq_undefined_iff branches]
      by_cases hvalue : targetResolve matched conditions value = .undefined
      · rw [if_pos hvalue, and_iff_right hvalue]
      · rw [if_neg hvalue, iff_false_intro hvalue, false_and]
    · rw [if_neg hcond, if_neg hcond]
      exact branchResolve_eq_undefined_iff branches

theorem optionResolve_eq_undefined_iff : ∀ options : List Value,
    optionResolve matched conditions options = .undefined ↔ optionsFallThrough conditions options = true
  | [] => by simp [optionResolve, optionsFallThrough]
  | option :: options => by
    rw [optionResolve, optionsFallThrough, orElse_eq_undefined_iff, Bool.and_eq_true,
      targetResolve_eq_undefined_iff option, optionResolve_eq_undefined_iff options]

end

mutual

/-- What falls through in Node's walk resolves to nothing here. -/
theorem resolveTarget_of_fallsThrough : ∀ value : Value, fallsThrough conditions value = true →
    (resolveTarget matched conditions value).toOption = none
  | .str _, h => by rw [fallsThrough] at h; exact absurd h Bool.false_ne_true
  | .obj branches, h => by
    rw [fallsThrough] at h
    rw [resolveTarget]
    exact resolveBranches_of_fallsThrough branches h
  | .arr options, h => by
    rw [fallsThrough, Bool.and_eq_true] at h
    rw [resolveTarget]
    exact resolveOptions_of_fallsThrough options h.2
  | .null, _ | .bool _, _ | .num _, _ => by rw [resolveTarget]; rfl

theorem resolveBranches_of_fallsThrough : ∀ branches : List (Str × Value),
    branchesFallThrough conditions branches = true → (resolveBranches matched conditions branches).toOption = none
  | [], _ => by rw [resolveBranches]; rfl
  | (condition, value) :: branches, h => by
    rw [branchesFallThrough] at h
    rw [resolveBranches]
    simp only [List.contains_iff_mem] at h
    by_cases hcond : condition = "default".toList ∨ condition ∈ conditions
    · rw [if_pos hcond] at h ⊢
      exact resolveTarget_of_fallsThrough value (Bool.and_eq_true _ _ ▸ h).1
    · rw [if_neg hcond] at h ⊢
      exact resolveBranches_of_fallsThrough branches h

theorem resolveOptions_of_fallsThrough : ∀ options : List Value, optionsFallThrough conditions options = true →
    (resolveOptions matched conditions options).toOption = none
  | [], _ => by rw [resolveOptions]; rfl
  | option :: options, h => by
    rw [optionsFallThrough, Bool.and_eq_true] at h
    rw [toOption_resolveOptions_cons, resolveTarget_of_fallsThrough option h.1,
      resolveOptions_of_fallsThrough options h.2]
    rfl

end

theorem dotSlash_substitute {s : Str} (h : ['.', '/'] <+: s) : ['.', '/'] <+: substitute s matched := by
  obtain ⟨rest, rfl⟩ := h
  exact ⟨substitute rest matched, rfl⟩

mutual

/-- On a settled target the two walks come to the same. -/
theorem toOption_resolveTarget : ∀ value : Value, settled matched conditions value = true →
    (resolveTarget matched conditions value).toOption = (targetResolve matched conditions value).target
  | .str s, h => by
    simp only [settled, Bool.or_eq_true, Bool.not_eq_true', ← Bool.not_eq_true, List.isPrefixOf_iff_prefix] at h
    rw [resolveTarget, targetResolve]
    by_cases hs : ['.', '/'] <+: s
    · simp [hs, dotSlash_substitute hs, Except.toOption, Outcome.target]
    · have hfilled := h.resolve_right hs
      simp [hs, hfilled, Except.toOption, Outcome.target]
  | .obj branches, h => by
    rw [settled] at h
    rw [resolveTarget, targetResolve]
    exact toOption_resolveBranches branches h
  | .arr [], _ => by rw [resolveTarget, targetResolve, resolveOptions]; rfl
  | .arr (option :: options), h => by
    rw [settled] at h
    rw [resolveTarget, targetResolve]
    exact toOption_resolveOptions _ h
  | .null, _ | .bool _, _ | .num _, _ => by rw [resolveTarget, targetResolve]; rfl

theorem toOption_resolveBranches : ∀ branches : List (Str × Value),
    branchesSettled matched conditions branches = true →
      (resolveBranches matched conditions branches).toOption = (branchResolve matched conditions branches).target
  | [], _ => by rw [resolveBranches, branchResolve]; rfl
  | (condition, value) :: branches, h => by
    rw [branchesSettled] at h
    rw [resolveBranches, branchResolve]
    simp only [targetResolve_eq_undefined_iff, List.contains_iff_mem] at h ⊢
    by_cases hcond : condition = "default".toList ∨ condition ∈ conditions
    · rw [if_pos hcond] at h ⊢
      rw [if_pos hcond]
      cases hvalue : fallsThrough conditions value with
      | true =>
        rw [hvalue, if_pos rfl, Option.isNone_iff_eq_none] at h
        rw [if_pos rfl, h, resolveTarget_of_fallsThrough value hvalue]
      | false =>
        rw [hvalue, if_neg Bool.false_ne_true] at h
        rw [if_neg Bool.false_ne_true]
        exact toOption_resolveTarget value h
    · rw [if_neg hcond] at h ⊢
      rw [if_neg hcond]
      exact toOption_resolveBranches branches h

theorem toOption_resolveOptions : ∀ options : List Value, optionsSettled matched conditions options = true →
    (resolveOptions matched conditions options).toOption = (optionResolve matched conditions options).target
  | [], _ => by rw [resolveOptions, optionResolve]; rfl
  | option :: options, h => by
    rw [optionsSettled, Bool.and_eq_true, Bool.or_eq_true] at h
    rw [toOption_resolveOptions_cons, optionResolve, Outcome.target_orElse, toOption_resolveTarget option h.1]
    rcases h.2 with hchosen | hrest
    · obtain ⟨s, hs⟩ := Option.isSome_iff_exists.mp hchosen
      rw [hs]
      rfl
    · rw [toOption_resolveOptions options hrest]

end

/-- **Targets resolve as Node's do, where they are `settled`.** -/
theorem target_resolves_as_node (target : Value) (matched : Str) (conditions : List Str)
    (hsettled : settled matched conditions target = true) (s : Str) :
    resolveTarget matched conditions target = .ok s ↔ targetResolve matched conditions target = .resolved s := by
  have h := toOption_resolveTarget target hsettled
  cases hours : resolveTarget matched conditions target <;> cases hnode : targetResolve matched conditions target <;>
    simp_all [Except.toOption, Outcome.target]

/-- `[{"node": {"worker": "./a.js"}}, {"browser": {"worker": "./b.js"}, "import": {"default": "./c/*.js"}},
    {"node": {"worker": "./a.js"}, "default": "./d.js"}]`. -/
def nested : Value :=
  .arr [.obj [("node".toList, .obj [("worker".toList, .str "./a.js".toList)])],
    .obj [("browser".toList, .obj [("worker".toList, .str "./b.js".toList)]),
      ("import".toList, .obj [("default".toList, .str "./c/*.js".toList)])],
    .obj [("node".toList, .obj [("worker".toList, .str "./a.js".toList)]), ("default".toList, .str "./d.js".toList)]]

/-- The first option falls through, the second resolves, and the third, on which the two differ, is not looked at. -/
theorem target_resolves_as_node_nested :
    resolveTarget "x".toList ResolveMode.import.conditions nested = .ok "./c/x.js".toList :=
  (target_resolves_as_node nested "x".toList ResolveMode.import.conditions (by decide +kernel) "./c/x.js".toList).mpr
    (by decide +kernel)

/-- `{"node": {"worker": "./a.js"}, "default": "./b.js"}`. -/
def dual : Value :=
  .obj [("node".toList, .obj [("worker".toList, .str "./a.js".toList)]), ("default".toList, .str "./b.js".toList)]

/-- Node falls through to `default`; here the target is given up. -/
theorem dual_given_up : resolveTarget [] ResolveMode.import.conditions dual = .error .notExported ∧
    targetResolve [] ResolveMode.import.conditions dual = .resolved "./b.js".toList := by
  decide

end Targets

end Oam.Loader
