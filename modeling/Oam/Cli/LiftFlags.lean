/-
  Flags after a subcommand are moved in front of it (`oam_cli/src/main.rs`).  The lifted tokens are taken out BY VALUE:
  one that spells the subcommand takes it away (`subcommand_lost`), and nothing else goes wrong (`lift_faithful_iff`).
-/
import Oam.Lib.Text

namespace Oam.Cli

open List Text

/-! ## Data -/

def nodeStyleFlags : List Str := List.map String.toList
  ["--pending-deprecation", "--input-type", "--env-file", "--env-file-if-exists", "--permission", "--allow-fs-read",
    "--allow-fs-write", "--allow-net", "--allow-env", "--allow-child-process", "--allow-worker", "--allow-addons",
    "--expose-gc", "--expose-internals", "--experimental-vm-modules", "--allow-natives-syntax", "--js-float16array",
    "--zero-fill-buffers", "--tls-min-v1.0", "--tls-min-v1.1", "--tls-min-v1.2", "--tls-min-v1.3", "--tls-max-v1.2",
    "--tls-max-v1.3", "--max-http-header-size", "--v8-pool-size", "--insecure-http-parser", "--trace-require-module",
    "--dns-result-order", "--title", "--no-warnings", "--no-deprecation", "--trace-warnings", "--trace-deprecation",
    "--throw-deprecation", "--trace-uncaught", "--disable-warning", "--redirect-warnings",
    "--abort-on-uncaught-exception"]

def spacedFlags : List Str := List.map String.toList
  ["--env-file", "--env-file-if-exists", "--input-type", "--max-http-header-size", "--v8-pool-size",
    "--trace-require-module", "--dns-result-order", "--disable-warning", "--redirect-warnings", "--allow-fs-read",
    "--allow-fs-write"]

def subcommands : List Str := List.map String.toList
  ["run", "test", "repl", "check", "daemon", "mcp", "serve", "install", "trust", "compile", "cache", "self-update",
    "help", "__oamd-ts"]

def json : Str := "--json".toList

/-! ## Program -/

def isNodeStyleFlag (arg : Str) : Bool :=
  nodeStyleFlags.any fun f => arg == f || (arg.dropPrefix? f).any fun rest => rest.head? == some '='

def isFlag (arg : Str) : Bool := arg.head? == some '-'

def hasValue (rest : List Str) : Bool := rest.head?.any (!isFlag ·)

/-- The first walk: what is before the subcommand, the subcommand, and what is after it. -/
def findSubcommand : (seen : List Str) → (consumedAsValue : Bool) → List Str → Option (List Str × Str × List Str)
  | _, _, [] => none
  | seen, consumedAsValue, arg :: rest =>
    if arg = json then findSubcommand (seen ++ [arg]) consumedAsValue rest
    else if consumedAsValue then findSubcommand (seen ++ [arg]) false rest
    else if !isFlag arg then if subcommands.contains arg then some (seen, arg, rest) else none
    else if arg = ['-', '-'] then none
    else if isNodeStyleFlag arg then
      findSubcommand (seen ++ [arg]) (spacedFlags.contains arg && hasValue rest) rest
    else none

def addToken (arg : Str) (lifts : Bool) (block : List (Str × Bool) × List Str) : List (Str × Bool) × List Str :=
  ((arg, lifts) :: block.1, block.2)

/-- The second walk: the tokens of the option block, each with whether it is lifted, and what is behind the block. -/
def optionBlock : (valuePending : Bool) → List Str → List (Str × Bool) × List Str
  | _, [] => ([], [])
  | valuePending, arg :: rest =>
    if valuePending then addToken arg true (optionBlock false rest)
    else if arg = ['-', '-'] then ([], arg :: rest)
    else if arg = json then addToken arg false (optionBlock false rest)
    else if !isFlag arg then ([], arg :: rest)
    else if !isNodeStyleFlag arg || spacedFlags.contains arg && !hasValue rest then ([], arg :: rest)
    else addToken arg true (optionBlock (spacedFlags.contains arg) rest)

def liftedOf (block : List (Str × Bool)) : List Str := (block.filter (·.2)).map (·.1)

def keptOf (block : List (Str × Bool)) : List Str := (block.filter (!·.2)).map (·.1)

/-- What is before the subcommand, the subcommand, the option block, and what is behind the block. -/
def blockOf : List Str → Option (List Str × Str × List (Str × Bool) × List Str)
  | [] => none
  | exe :: args => (findSubcommand [exe] false args).map fun (head, sub, after) => (head, sub, optionBlock false after)

def liftNodeFlagsAfterSubcommand (argv : List Str) : List Str :=
  match blockOf argv with
  | none => argv
  | some (head, sub, block, rest) =>
    if (liftedOf block).isEmpty then argv
    else head ++ liftedOf block ++ (sub :: block.map (·.1)).filter (!(liftedOf block).contains ·) ++ rest

/-! ## Specification -/

/-- **Nothing is lost, repeated or out of order.** -/
def Faithful (argv : List Str) : Prop :=
  liftNodeFlagsAfterSubcommand argv ~ argv ∧
  match blockOf argv with
  | none => liftNodeFlagsAfterSubcommand argv = argv
  | some (head, sub, block, rest) =>
    argv = head ++ sub :: block.map (·.1) ++ rest ∧
    liftNodeFlagsAfterSubcommand argv = head ++ liftedOf block ++ sub :: keptOf block ++ rest

def sparesSubcommand (argv : List Str) : Bool :=
  match blockOf argv with
  | none => true
  | some (_, sub, block, _) => !(liftedOf block).contains sub

/-! ## Correctness -/

theorem findSubcommand_eq {seen args head after : List Str} {sub : Str} {consumedAsValue : Bool}
    (h : findSubcommand seen consumedAsValue args = some (head, sub, after)) : seen ++ args = head ++ sub :: after := by
  fun_induction findSubcommand seen consumedAsValue args with
  | case1 | case5 | case6 | case8 => cases h
  | case4 =>
    cases h
    rfl
  | _ => simp_all

theorem optionBlock_eq (valuePending : Bool) (args : List Str) :
    (optionBlock valuePending args).1.map (·.1) ++ (optionBlock valuePending args).2 = args := by
  fun_induction optionBlock valuePending args <;> simp_all [addToken]

/-- The tokens of the block that stay are `--json`, and that is never lifted: neither a flag nor a value is. -/
theorem stays_iff_json {valuePending : Bool} {args : List Str} (hv : valuePending → hasValue args)
    {token : Str × Bool} (h : token ∈ (optionBlock valuePending args).1) : token.2 = false ↔ token.1 = json := by
  fun_induction optionBlock valuePending args with
  | case1 | case3 | case5 | case6 => cases h
  | case2 arg rest ih =>
    rcases mem_cons.mp h with rfl | h
    · have hvalue : isFlag arg = false := by simpa [hasValue] using hv rfl
      refine iff_of_false nofun fun hjson => ?_
      rw [show arg = json from hjson] at hvalue
      cases hvalue
    · exact ih nofun h
  | case4 _ _ _ _ ih =>
    rcases mem_cons.mp h with rfl | h
    · exact iff_of_true rfl rfl
    · exact ih nofun h
  | case7 _ arg rest _ _ hjson _ hspaced ih =>
    rcases mem_cons.mp h with rfl | h
    · exact iff_of_false nofun hjson
    · refine ih (fun hs => ?_) h
      simp_all

theorem blockOf_eq {argv head : List Str} {sub : Str} {block : List (Str × Bool) × List Str}
    (h : blockOf argv = some (head, sub, block)) :
    argv = head ++ sub :: block.1.map (·.1) ++ block.2 ∧ ∀ token ∈ block.1, token.2 = false ↔ token.1 = json := by
  cases argv with
  | nil => cases h
  | cons exe args =>
    obtain ⟨_, hfind, heq⟩ := Option.map_eq_some_iff.mp h
    cases heq
    have hpending : ∀ rest, false → hasValue rest := nofun
    refine ⟨?_, fun token htoken => stays_iff_json (hpending _) htoken⟩
    rw [append_assoc, cons_append, optionBlock_eq, ← findSubcommand_eq hfind]
    rfl

theorem filter_block {block : List (Str × Bool)} (h : ∀ token ∈ block, token.2 = false ↔ token.1 = json) :
    (block.map (·.1)).filter (!(liftedOf block).contains ·) = keptOf block := by
  rw [filter_map]
  congr 1
  refine filter_congr fun token htoken => ?_
  have hlifted : token.1 ∈ liftedOf block ↔ token.2 := by
    constructor
    · intro hmem
      obtain ⟨other, hother, heq⟩ := mem_map.mp hmem
      obtain ⟨hother, htrue⟩ := mem_filter.mp hother
      by_contra hfalse
      have hjson := (h token htoken).mp (Bool.not_eq_true _ ▸ hfalse)
      rw [(h other hother).mpr (heq.trans hjson)] at htrue
      cases htrue
    · intro htrue
      exact mem_map.mpr ⟨token, mem_filter.mpr ⟨htoken, htrue⟩, rfl⟩
  simp [hlifted]

/-- **Lifting is faithful exactly if no lifted token spells the subcommand.** -/
theorem lift_faithful_iff (argv : List Str) : Faithful argv ↔ sparesSubcommand argv = true := by
  unfold Faithful sparesSubcommand liftNodeFlagsAfterSubcommand
  cases hblock : blockOf argv with
  | none => simp
  | some found =>
    obtain ⟨head, sub, block, rest⟩ := found
    obtain ⟨hargv, hjson⟩ := blockOf_eq hblock
    have hkept : (block.map (·.1)).filter (!(liftedOf block).contains ·) = keptOf block := filter_block hjson
    have hperm : liftedOf block ++ keptOf block ~ block.map (·.1) := by
      rw [liftedOf, keptOf, ← map_append]
      exact (filter_append_perm _ block).map _
    dsimp only at hargv ⊢
    constructor
    · rintro ⟨-, -, hout⟩
      by_contra hsub
      have hmem : sub ∈ liftedOf block := by simpa using hsub
      rw [if_neg (by simp [ne_nil_of_mem hmem])] at hout
      have hin : sub ∈ (sub :: block.map (·.1)).filter (!(liftedOf block).contains ·) := by
        rw [append_cancel_left (append_cancel_right hout)]
        exact mem_cons_self
      simpa [hmem] using (mem_filter.mp hin).2
    · intro hsub
      have hout : (if (liftedOf block).isEmpty then argv else
          head ++ liftedOf block ++ sub :: keptOf block ++ rest) = head ++ liftedOf block ++ sub :: keptOf block ++ rest := by
        split
        next hempty =>
          rw [← hkept, isEmpty_iff.mp hempty]
          simpa using hargv
        · rfl
      rw [filter_cons, if_pos hsub, hkept, hout]
      refine ⟨?_, hargv, rfl⟩
      rw [hargv, append_assoc head]
      exact ((perm_middle.trans (hperm.cons sub)).append_left head).append_right rest

/-- `oam run --env-file run app.ts`: the value takes the subcommand away. -/
theorem subcommand_lost :
    liftNodeFlagsAfterSubcommand (["oam", "run", "--env-file", "run", "app.ts"].map String.toList) =
      ["oam", "--env-file", "run", "app.ts"].map String.toList ∧
    ¬Faithful (["oam", "run", "--env-file", "run", "app.ts"].map String.toList) := by
  have hout : liftNodeFlagsAfterSubcommand (["oam", "run", "--env-file", "run", "app.ts"].map String.toList) =
      ["oam", "--env-file", "run", "app.ts"].map String.toList := by decide +kernel
  refine ⟨hout, fun h => ?_⟩
  have hlen := h.1.length_eq
  rw [hout] at hlen
  cases hlen

end Oam.Cli
