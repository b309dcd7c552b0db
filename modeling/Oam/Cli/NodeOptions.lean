/-
  `main.rs` and `node_compat.js`: the flags of a process as text, and back.

  The source's chain of `else if` over the token is a table here (`optionRules`), one rule per branch and in the
  source's order.  The permission model's branches are stated on `Grants` (`grantRules`), which is what lets
  `applyGrants` forget every other flag.
-/
import Oam.Lib.Words

namespace Oam.Cli

open List Text

/-! ## Flags -/

/-- The permission model's flags: one value per occurrence of a list flag, in order. -/
structure Grants where
  permission : Bool := false
  allowFsRead : List Str := []
  allowFsWrite : List Str := []
  allowNet : List Str := []
  allowEnv : List Str := []
  allowChildProcess : Bool := false
  allowWorker : Bool := false
  allowAddons : Bool := false
deriving DecidableEq, Repr

/-- `NodeFlags`, never merged with another set. -/
structure NodeFlags extends Grants where
  pendingDeprecation : Bool := false
  exposeGc : Bool := false
  experimentalVmModules : Bool := false
  noWarnings : Bool := false
  noDeprecation : Bool := false
  traceWarnings : Bool := false
  traceDeprecation : Bool := false
  throwDeprecation : Bool := false
  traceUncaught : Bool := false
  disabledWarnings : List Str := []
  redirectWarnings : Option Str := none
  maxHttpHeaderSize : Option Str := none
  maxHttpHeaderSizeSpaced : Bool := false
  v8PoolSize : Option Str := none
  v8PoolSizeSpaced : Bool := false
  insecureHttpParser : Bool := false
  traceRequireModule : Option Str := none
  traceRequireModuleSpaced : Bool := false
  dnsResultOrder : Option Str := none
  dnsResultOrderSpaced : Bool := false
  dnsResultOrderMissing : Option Str := none
  tlsMinV10 : Bool := false
  tlsMinV11 : Bool := false
  tlsMinV12 : Bool := false
  tlsMinV13 : Bool := false
  tlsMaxV12 : Bool := false
  tlsMaxV13 : Bool := false
deriving DecidableEq, Repr

/-! ## Out: `exec_argv` and `permissionNodeOptions` -/

def flagArg (set : Bool) (flag : String) : List Str := if set then [flag.toList] else []

/-- A list flag's values, the bare form for `*` where the flag has one. -/
def listArg (flag : String) (value : Str) : Str := flag.toList ++ '=' :: value
def bareListArg (flag : String) (value : Str) : Str :=
  if value = ['*'] then flag.toList else listArg flag value

/-- An option's value: two entries when it was given as two tokens, else one. -/
def valueArg (flag : String) (spaced : Bool) : Option Str → List Str
  | none => []
  | some v => if spaced then [flag.toList, v] else [listArg flag v]

/-- `exec_argv` up to the permission flags. -/
def leadingArgs (f : NodeFlags) : List Str :=
  flagArg f.pendingDeprecation "--pending-deprecation" ++ flagArg f.exposeGc "--expose-gc" ++
    flagArg f.experimentalVmModules "--experimental-vm-modules"

/-- The permission flags of `exec_argv`. -/
def permissionArgs (g : Grants) : List Str :=
  flagArg g.permission "--permission" ++ g.allowFsRead.map (listArg "--allow-fs-read") ++
    g.allowFsWrite.map (listArg "--allow-fs-write") ++ g.allowNet.map (bareListArg "--allow-net") ++
    g.allowEnv.map (bareListArg "--allow-env") ++
    flagArg g.allowChildProcess "--allow-child-process" ++
    flagArg g.allowWorker "--allow-worker" ++ flagArg g.allowAddons "--allow-addons"

/-- `exec_argv` after the permission flags. -/
def trailingArgs (f : NodeFlags) : List Str :=
  flagArg f.noWarnings "--no-warnings" ++ flagArg f.noDeprecation "--no-deprecation" ++
    flagArg f.traceWarnings "--trace-warnings" ++
    flagArg f.traceDeprecation "--trace-deprecation" ++
    flagArg f.throwDeprecation "--throw-deprecation" ++ flagArg f.traceUncaught "--trace-uncaught" ++
    f.disabledWarnings.map (listArg "--disable-warning") ++
    valueArg "--redirect-warnings" false f.redirectWarnings ++
    valueArg "--max-http-header-size" f.maxHttpHeaderSizeSpaced f.maxHttpHeaderSize ++
    valueArg "--v8-pool-size" f.v8PoolSizeSpaced f.v8PoolSize ++
    valueArg "--trace-require-module" f.traceRequireModuleSpaced f.traceRequireModule ++
    valueArg "--dns-result-order" f.dnsResultOrderSpaced f.dnsResultOrder ++
    flagArg f.insecureHttpParser "--insecure-http-parser" ++
    flagArg f.tlsMinV10 "--tls-min-v1.0" ++ flagArg f.tlsMinV11 "--tls-min-v1.1" ++
    flagArg f.tlsMinV12 "--tls-min-v1.2" ++ flagArg f.tlsMinV13 "--tls-min-v1.3" ++
    flagArg f.tlsMaxV12 "--tls-max-v1.2" ++ flagArg f.tlsMaxV13 "--tls-max-v1.3"

/-- What `process.execArgv` reflects of a set of flags argv gave. -/
def execArgv (f : NodeFlags) : List Str := leadingArgs f ++ permissionArgs f.toGrants ++ trailingArgs f

/-- `PERMISSION_FLAGS_TO_COPY`. -/
def permissionFlagsToCopy : List Str :=
  ["--allow-fs-read", "--allow-fs-write", "--allow-addons", "--allow-child-process", "--allow-wasi",
    "--allow-worker", "--allow-net", "--allow-env", "--permission"].map String.toList

def permissionFlag : Str := "--permission".toList

/-- One entry appended to the text so far; JavaScript's `value ? … : …` takes an empty text as none. -/
def appendArg (value : Option Str) (arg : Str) : Option Str :=
  match value with
  | none => some arg
  | some v => some (if v = [] then arg else v ++ ' ' :: arg)

/-- The `NODE_OPTIONS` of a child, or `none` to leave the variable. An entry is appended once for EACH flag it starts
    with. -/
def permissionNodeOptions (current : Option Str) (spawnArgs execArgv : List Str) : Option Str :=
  if spawnArgs.contains permissionFlag || current.any (containsText permissionFlag) then none
  else
    let value := execArgv.foldl
      (fun value arg => permissionFlagsToCopy.foldl
        (fun value flag => if flag.isPrefixOf arg then appendArg value arg else value) value) current
    if value = current then none else value

/-! ## In: `split_node_options` and `apply_node_option_tokens` -/

/-- `char::is_whitespace`: Unicode's White_Space. -/
def isWhitespace (c : Char) : Bool :=
  let n := c.toNat
  (9 ≤ n && n ≤ 13) || n == 0x20 || n == 0x85 || n == 0xA0 || n == 0x1680 ||
    (0x2000 ≤ n && n ≤ 0x200A) || n == 0x2028 || n == 0x2029 || n == 0x202F || n == 0x205F ||
    n == 0x3000

/-- What quotes and what separates in `NODE_OPTIONS`. -/
def lexicon : Words.Lexicon Char where
  isQuote c := c == '\'' || c == '"'
  isBlank := isWhitespace
  disjoint := by
    intro c hb
    by_contra hq
    have hc : c = '\'' ∨ c = '"' := by simpa [Decidable.or_iff_not_imp_left] using hq
    rcases hc with rfl | rfl <;> exact absurd hb (by decide)

/-- `split_node_options`: on whitespace, honouring single and double quotes. -/
def splitNodeOptions (raw : Str) : List Str := Words.split lexicon raw

/-- How a branch recognises its token: the token itself, or a text the token starts with, the rest
    being the value. -/
inductive Spelling where
  | exact (s : String)
  | valued (s : String)
deriving DecidableEq, Repr

def Spelling.text : Spelling → Str
  | .exact s => s.toList
  | .valued s => s.toList

/-- The value a token carries under a spelling (empty under an exact one). -/
def Spelling.read : Spelling → Str → Option Str
  | .exact s, tok => if tok = s.toList then some [] else none
  | .valued s, tok => tok.dropPrefix? s.toList

/-- Change the flags with the value at hand; take the next token as the value; or take it unless it is a flag. -/
inductive Effect where
  | set (change : Str → NodeFlags → NodeFlags)
  | next (change : Str → NodeFlags → NodeFlags)
  | nextUnlessFlag (change : Str → NodeFlags → NodeFlags) (missing : NodeFlags → NodeFlags)

structure Rule where
  spelling : Spelling
  effect : Effect

def toggle (flag : String) (change : NodeFlags → NodeFlags) : Rule :=
  ⟨.exact flag, .set fun _ f => change f⟩

/-- The values `--trace-require-module` takes. -/
def isTraceRequireModuleValue (value : Str) : Bool :=
  value == "all".toList || value == "no-node-modules".toList

/-- The branches before the permission model's.  An empty or refused value is ignored. -/
def rulesBefore : List Rule := [
  toggle "--pending-deprecation" fun f => { f with pendingDeprecation := true },
  ⟨.valued "--max-http-header-size=", .set fun v f =>
    if v.isEmpty then f else { f with maxHttpHeaderSize := some v }⟩,
  ⟨.exact "--max-http-header-size", .next fun v f => { f with maxHttpHeaderSize := some v }⟩,
  ⟨.valued "--v8-pool-size=", .set fun v f => if v.isEmpty then f else { f with v8PoolSize := some v }⟩,
  ⟨.exact "--v8-pool-size", .next fun v f => { f with v8PoolSize := some v }⟩,
  toggle "--insecure-http-parser" fun f => { f with insecureHttpParser := true },
  ⟨.valued "--trace-require-module=", .set fun v f =>
    if isTraceRequireModuleValue v then { f with traceRequireModule := some v } else f⟩,
  ⟨.exact "--trace-require-module", .next fun v f =>
    if isTraceRequireModuleValue v then { f with traceRequireModule := some v } else f⟩,
  ⟨.valued "--dns-result-order=", .set fun v f =>
    if v.isEmpty then { f with dnsResultOrderMissing := some "--dns-result-order=".toList }
    else { f with dnsResultOrder := some v }⟩,
  ⟨.exact "--dns-result-order", .nextUnlessFlag (fun v f => { f with dnsResultOrder := some v })
    fun f => { f with dnsResultOrderMissing := some "--dns-result-order".toList }⟩,
  toggle "--no-warnings" fun f => { f with noWarnings := true },
  toggle "--no-deprecation" fun f => { f with noDeprecation := true },
  toggle "--trace-warnings" fun f => { f with traceWarnings := true },
  toggle "--trace-deprecation" fun f => { f with traceDeprecation := true },
  toggle "--throw-deprecation" fun f => { f with throwDeprecation := true },
  toggle "--trace-uncaught" fun f => { f with traceUncaught := true },
  toggle "--expose-gc" fun f => { f with exposeGc := true },
  toggle "--tls-min-v1.0" fun f => { f with tlsMinV10 := true },
  toggle "--tls-min-v1.1" fun f => { f with tlsMinV11 := true },
  toggle "--tls-min-v1.2" fun f => { f with tlsMinV12 := true },
  toggle "--tls-min-v1.3" fun f => { f with tlsMinV13 := true },
  toggle "--tls-max-v1.2" fun f => { f with tlsMaxV12 := true },
  toggle "--tls-max-v1.3" fun f => { f with tlsMaxV13 := true },
  ⟨.valued "--disable-warning=", .set fun v f =>
    { f with disabledWarnings := f.disabledWarnings ++ [v] }⟩,
  ⟨.exact "--disable-warning", .next fun v f =>
    { f with disabledWarnings := f.disabledWarnings ++ [v] }⟩]

/-- The permission model's branches.  `napi`: the build loads addons at all. -/
def grantRules (napi : Bool) : List (Spelling × (Str → Grants → Grants)) := [
  (.exact "--permission", fun _ g => { g with permission := true }),
  (.valued "--allow-fs-read=", fun v g => { g with allowFsRead := g.allowFsRead ++ [v] }),
  (.valued "--allow-fs-write=", fun v g => { g with allowFsWrite := g.allowFsWrite ++ [v] }),
  (.valued "--allow-net=", fun v g => { g with allowNet := g.allowNet ++ [v] }),
  (.exact "--allow-net", fun _ g => { g with allowNet := g.allowNet ++ [['*']] }),
  (.valued "--allow-env=", fun v g => { g with allowEnv := g.allowEnv ++ [v] }),
  (.exact "--allow-env", fun _ g => { g with allowEnv := g.allowEnv ++ [['*']] }),
  (.exact "--allow-child-process", fun _ g => { g with allowChildProcess := true }),
  (.exact "--allow-worker", fun _ g => { g with allowWorker := true }),
  (.exact "--allow-addons", fun _ g => { g with allowAddons := napi })]

def rulesAfter : List Rule := [
  ⟨.valued "--redirect-warnings=", .set fun v f => { f with redirectWarnings := some v }⟩,
  ⟨.exact "--redirect-warnings", .next fun v f => { f with redirectWarnings := some v }⟩]

def grantRule (r : Spelling × (Str → Grants → Grants)) : Rule :=
  ⟨r.1, .set fun v f => { f with toGrants := r.2 v f.toGrants }⟩

def optionRules (napi : Bool) : List Rule :=
  rulesBefore ++ (grantRules napi).map grantRule ++ rulesAfter

/-- The branch a token takes, and the value it carries. -/
def readOption (napi : Bool) (tok : Str) : Option (Effect × Str) :=
  (optionRules napi).findSome? fun r => (r.spelling.read tok).map fun v => (r.effect, v)

/-- A token no branch takes is ignored, and so is an option at the end that still wants its value. -/
def applyNodeOptionTokens (napi : Bool) : NodeFlags → List Str → NodeFlags
  | flags, [] => flags
  | flags, tok :: it =>
    match readOption napi tok with
    | none => applyNodeOptionTokens napi flags it
    | some (.set change, v) => applyNodeOptionTokens napi (change v flags) it
    | some (.next change, _) =>
      match it with
      | [] => flags
      | v :: rest => applyNodeOptionTokens napi (change v flags) rest
    | some (.nextUnlessFlag change missing, _) =>
      let kept := applyNodeOptionTokens napi (missing flags) it
      match it with
      | [] => kept
      | v :: rest =>
        if v.head? = some '-' then kept else applyNodeOptionTokens napi (change v flags) rest

/-! ## The table reads a token one way -/

/-- Whether one token can be read under both spellings. -/
def Spelling.compat : Spelling → Spelling → Bool
  | .exact a, .exact b => a.toList == b.toList
  | .exact a, .valued b => b.toList.isPrefixOf a.toList
  | .valued a, .exact b => a.toList.isPrefixOf b.toList
  | .valued a, .valued b => a.toList.isPrefixOf b.toList || b.toList.isPrefixOf a.toList

variable {tok v : Str}

open Spelling

theorem Spelling.read_exact {s : String} : (exact s).read tok = some v ↔ tok = s.toList ∧ v = [] := by
  show (if tok = s.toList then some [] else none) = some v ↔ _
  by_cases h : tok = s.toList
  · rw [if_pos h]
    exact ⟨fun hv => ⟨h, (Option.some.inj hv).symm⟩, fun hv => congrArg some hv.2.symm⟩
  · rw [if_neg h]
    exact ⟨fun hv => (nomatch hv), fun hv => absurd hv.1 h⟩

variable {s : Spelling}

theorem Spelling.text_prefix_of_read (h : s.read tok = some v) : s.text <+: tok := by
  cases s with
  | exact a => rw [(read_exact.mp h).1]; exact prefix_rfl
  | valued a => exact ⟨v, (dropPrefix?_eq_some.mp h).symm⟩

theorem Spelling.compat_of_read {p q : Spelling} {w : Str} (hp : p.read tok = some v)
    (hq : q.read tok = some w) : p.compat q := by
  cases p with
  | exact a =>
    obtain ⟨rfl, -⟩ := read_exact.mp hp
    cases q with
    | exact b =>
      obtain ⟨hb, -⟩ := read_exact.mp hq
      simp [compat, hb]
    | valued b =>
      have hb := dropPrefix?_eq_some.mp hq
      simp [compat, hb]
  | valued a =>
    have ha := dropPrefix?_eq_some.mp hp
    cases q with
    | exact b =>
      obtain ⟨hb, -⟩ := read_exact.mp hq
      show a.toList.isPrefixOf b.toList
      rw [← hb, ha]
      simp
    | valued b =>
      have hb := dropPrefix?_eq_some.mp hq
      have h1 : a.toList <+: tok := ⟨v, ha.symm⟩
      have h2 : b.toList <+: tok := ⟨w, hb.symm⟩
      rcases prefix_or_prefix_of_prefix h1 h2 with h | h
      · simp [compat, h]
      · simp [compat, h]

theorem findSome?_of_read {ρ τ : Type} {spelling : ρ → Spelling} (out : ρ → Str → τ) {rules : List ρ}
    (hinc : rules.Pairwise fun r r' => (spelling r).compat (spelling r') = false) {r : ρ} (hr : r ∈ rules)
    (hv : (spelling r).read tok = some v) :
    rules.findSome? (fun r => ((spelling r).read tok).map (out r)) = some (out r v) := by
  induction rules with
  | nil => nomatch hr
  | cons r0 rules ih =>
    rw [pairwise_cons] at hinc
    rcases mem_cons.mp hr with rfl | hr
    · simp [hv]
    · have hnone : (spelling r0).read tok = none := by
        cases h0 : (spelling r0).read tok with
        | none => rfl
        | some w =>
          have := compat_of_read h0 hv
          rw [hinc.1 r hr] at this
          nomatch this
      rw [findSome?_cons_of_isNone (by simp [hnone])]
      exact ih hinc.2 hr

def nextSpellings : List Spelling :=
  [.exact "--max-http-header-size", .exact "--v8-pool-size", .exact "--trace-require-module",
    .exact "--disable-warning", .exact "--redirect-warnings"]

theorem exists_exact_of_mem_nextSpellings (hs : s ∈ nextSpellings) : ∃ a, s = .exact a := by
  simp only [nextSpellings, mem_cons, not_mem_nil, or_false] at hs
  rcases hs with rfl | rfl | rfl | rfl | rfl <;> exact ⟨_, rfl⟩

def takesNext (tok : Str) : Bool := nextSpellings.any fun s => (s.read tok).isSome

def Rule.isNext (r : Rule) : Bool :=
  match r.effect with
  | .next _ => true
  | _ => false

def Effect.KeepsGrants : Effect → Prop
  | .set change => ∀ v f, (change v f).toGrants = f.toGrants
  | .next change => ∀ v f, (change v f).toGrants = f.toGrants
  | .nextUnlessFlag change missing =>
    (∀ v f, (change v f).toGrants = f.toGrants) ∧ ∀ f, (missing f).toGrants = f.toGrants

theorem map_spelling (napi : Bool) : (optionRules napi).map (fun r => (r.isNext, r.spelling)) =
      (optionRules true).map fun r => (r.isNext, r.spelling) := rfl

theorem optionRules_pairwise (napi : Bool) :
    (optionRules napi).Pairwise fun r r' => r.spelling.compat r'.spelling = false := by
  have hall : ((optionRules true).map fun r => (r.isNext, r.spelling)).Pairwise
      fun p p' => p.2.compat p'.2 = false := by
    decide +kernel
  rw [← map_spelling napi] at hall
  exact pairwise_map.mp hall

theorem isNext_iff (napi : Bool) : ∀ r ∈ optionRules napi, r.isNext = true ↔ r.spelling ∈ nextSpellings := by
  have hall : ∀ p ∈ (optionRules true).map fun r => (r.isNext, r.spelling),
      p.1 = true ↔ p.2 ∈ nextSpellings := by
    decide +kernel
  rw [← map_spelling napi] at hall
  intro r hr
  exact hall (r.isNext, r.spelling) (mem_map.mpr ⟨r, hr, rfl⟩)

theorem exists_rule_of_mem_nextSpellings (napi : Bool) (hs : s ∈ nextSpellings) :
    ∃ r ∈ optionRules napi, r.spelling = s := by
  have hsub : ∀ s ∈ nextSpellings,
      (true, s) ∈ (optionRules true).map fun r => (r.isNext, r.spelling) := by
    decide +kernel
  rw [← map_spelling napi] at hsub
  obtain ⟨r, hr, heq⟩ := mem_map.mp (hsub s hs)
  exact ⟨r, hr, (Prod.mk.inj heq).2⟩

variable {r : Rule}

theorem keepsGrants_of_mem (hr : r ∈ rulesBefore ++ rulesAfter) : r.effect.KeepsGrants := by
  simp only [rulesBefore, rulesAfter, toggle, mem_append, mem_cons, not_mem_nil, or_false] at hr
  rcases hr with hr | hr
  · rcases hr with rfl | rfl | rfl | rfl | rfl | rfl | rfl | rfl | rfl | rfl | rfl | rfl | rfl |
      rfl | rfl | rfl | rfl | rfl | rfl | rfl | rfl | rfl | rfl | rfl | rfl
    all_goals first
      | exact fun v f => rfl
      | exact ⟨fun v f => rfl, fun f => rfl⟩
      | (intro v f; dsimp only; split <;> rfl)
  · rcases hr with rfl | rfl <;> exact fun v f => rfl

/-! ## The grants after the loop -/

/-- What a token, read as an option, does to the grants. -/
def readGrant (napi : Bool) (tok : Str) (g : Grants) : Grants :=
  match (grantRules napi).findSome? fun r => (r.1.read tok).map r.2 with
  | some change => change g
  | none => g

/-- The loop, seen from the grants: a token that takes the next one hides it, every other is read. -/
def applyGrants (napi : Bool) : Grants → List Str → Grants
  | g, [] => g
  | g, tok :: it =>
    if takesNext tok then
      match it with
      | [] => g
      | _ :: rest => applyGrants napi g rest
    else applyGrants napi (readGrant napi tok g) it

theorem applyGrants_nil (napi : Bool) (g : Grants) : applyGrants napi g [] = g := by
  simp [applyGrants]

theorem applyGrants_next_nil (napi : Bool) (g : Grants) (h : takesNext tok) : applyGrants napi g [tok] = g := by
  simp [applyGrants, h]

theorem applyGrants_next_cons (napi : Bool) (g : Grants) (h : takesNext tok) (v : Str)
    (rest : List Str) : applyGrants napi g (tok :: v :: rest) = applyGrants napi g rest := by
  simp [applyGrants, h]

theorem applyGrants_read (napi : Bool) (g : Grants) (h : takesNext tok = false) (it : List Str) :
    applyGrants napi g (tok :: it) = applyGrants napi (readGrant napi tok g) it := by
  cases it <;> simp [applyGrants, h]

variable {napi : Bool}

theorem readOption_of_read (hr : r ∈ optionRules napi) (hv : r.spelling.read tok = some v) :
    readOption napi tok = some (r.effect, v) :=
  findSome?_of_read (fun (r : Rule) v => (r.effect, v)) (optionRules_pairwise napi) hr hv

theorem takesNext_iff : takesNext tok ↔ ∃ s ∈ nextSpellings, s.read tok = some [] := by
  have hexact : ∀ s ∈ nextSpellings, (s.read tok).isSome ↔ s.read tok = some [] := by
    intro s hs
    obtain ⟨a, rfl⟩ := exists_exact_of_mem_nextSpellings hs
    rw [Option.isSome_iff_exists]
    simp only [read_exact, exists_eq_right, and_true]
  rw [takesNext, List.any_eq_true]
  exact exists_congr fun s => and_congr_right fun hs => hexact s hs

theorem takesNext_of_read (hr : r ∈ optionRules napi) (hv : r.spelling.read tok = some v) :
    takesNext tok = r.isNext := by
  rw [Bool.eq_iff_iff, isNext_iff napi r hr, takesNext_iff]
  constructor
  · rintro ⟨s, hs, hread⟩
    obtain ⟨r', hr', rfl⟩ := exists_rule_of_mem_nextSpellings napi hs
    -- both rules read the token, so both are found for it: one value, one effect
    have h1 := readOption_of_read hr hv
    rw [readOption_of_read hr' hread] at h1
    simp only [Option.some.injEq, Prod.mk.injEq] at h1
    have hnext : r.isNext = r'.isNext := by simp only [Rule.isNext, h1.1]
    rw [← isNext_iff napi r hr, hnext, isNext_iff napi r' hr']
    exact hs
  · intro hs
    obtain ⟨a, ha⟩ := exists_exact_of_mem_nextSpellings hs
    have hnil : v = [] := by
      rw [ha] at hv
      exact (read_exact.mp hv).2
    exact ⟨r.spelling, hs, hnil ▸ hv⟩

theorem mem_optionRules :
    r ∈ optionRules napi ↔ r ∈ rulesBefore ++ rulesAfter ∨ ∃ e ∈ grantRules napi, grantRule e = r := by
  simp only [optionRules, mem_append, mem_map]
  exact or_right_comm

theorem grantRules_pairwise (napi : Bool) : (grantRules napi).Pairwise fun r r' => r.1.compat r'.1 = false := by
  have hsub : ((grantRules napi).map grantRule).Sublist (optionRules napi) :=
    (sublist_append_right ..).trans (sublist_append_left ..)
  exact pairwise_map.mp ((optionRules_pairwise napi).sublist hsub)

theorem readGrant_of_read {e : Spelling × (Str → Grants → Grants)} (he : e ∈ grantRules napi)
    (hv : e.1.read tok = some v) (g : Grants) : readGrant napi tok g = e.2 v g := by
  have h := findSome?_of_read (fun (e : Spelling × (Str → Grants → Grants)) v => e.2 v) (grantRules_pairwise napi) he hv
  simp only [readGrant]
  rw [h]

theorem readGrant_of_none (h : ∀ e ∈ grantRules napi, e.1.read tok = none) (g : Grants) : readGrant napi tok g = g := by
  have hnone : (grantRules napi).findSome? (fun r => (r.1.read tok).map r.2) = none := by
    rw [findSome?_eq_none_iff]
    intro e he
    rw [h e he]; rfl
  simp only [readGrant, hnone]

theorem readGrant_of_other (napi : Bool) (hr : r ∈ rulesBefore ++ rulesAfter)
    (hv : r.spelling.read tok = some v) (g : Grants) : readGrant napi tok g = g := by
  refine readGrant_of_none (fun e he => ?_) g
  obtain ⟨hfirst, -, hafter⟩ := pairwise_append.mp (optionRules_pairwise napi)
  obtain ⟨-, -, hbefore⟩ := pairwise_append.mp hfirst
  have he' : grantRule e ∈ (grantRules napi).map grantRule := mem_map_of_mem he
  cases hread : e.1.read tok with
  | none => rfl
  | some w =>
    rcases mem_append.mp hr with hr | hr
    · exact absurd (compat_of_read hv hread) (Bool.eq_false_iff.mp (hbefore r hr _ he'))
    · have hfalse := hafter _ (mem_append_right _ he') r hr
      exact absurd (compat_of_read hread hv) (Bool.eq_false_iff.mp hfalse)

/-- What a reading of `tok` means for the grants. -/
def ReadsGrants (napi : Bool) (tok : Str) : Option (Effect × Str) → Prop
  | none => takesNext tok = false ∧ ∀ g, readGrant napi tok g = g
  | some (.set change, v) =>
    takesNext tok = false ∧ ∀ f, (change v f).toGrants = readGrant napi tok f.toGrants
  | some (.next change, _) => takesNext tok = true ∧ ∀ v f, (change v f).toGrants = f.toGrants
  | some (.nextUnlessFlag change missing, _) =>
    takesNext tok = false ∧ (∀ g, readGrant napi tok g = g) ∧
      (∀ v f, (change v f).toGrants = f.toGrants) ∧ ∀ f, (missing f).toGrants = f.toGrants

theorem readOption_readsGrants (napi : Bool) (tok : Str) : ReadsGrants napi tok (readOption napi tok) := by
  by_cases hex : ∃ r ∈ optionRules napi, ∃ v, r.spelling.read tok = some v
  · obtain ⟨r, hr, v, hv⟩ := hex
    have hread := readOption_of_read hr hv
    have hnext := takesNext_of_read hr hv
    rcases mem_optionRules.mp hr with hother | ⟨e, he, rfl⟩
    · -- a branch outside the permission model's: the grants stay
      have hkeeps := keepsGrants_of_mem hother
      have hid := readGrant_of_other napi hother hv
      obtain ⟨spelling, effect⟩ := r
      cases effect with
      | set change => rw [hread]; exact ⟨hnext, fun f => by rw [hid, hkeeps v f]⟩
      | next change => rw [hread]; exact ⟨hnext, hkeeps⟩
      | nextUnlessFlag change missing => rw [hread]; exact ⟨hnext, hid, hkeeps⟩
    · rw [hread]
      exact ⟨hnext, fun f => (readGrant_of_read he hv f.toGrants).symm⟩
  · -- no branch takes it
    have hnone : ∀ r ∈ optionRules napi, r.spelling.read tok = none := fun r hr => by
      cases h : r.spelling.read tok with
      | none => rfl
      | some v => exact absurd ⟨r, hr, v, h⟩ hex
    have hread : readOption napi tok = none := by
      rw [readOption, findSome?_eq_none_iff]
      intro r hr
      rw [hnone r hr]; rfl
    have hnext : takesNext tok = false := by
      rw [takesNext, any_eq_false]
      intro s hs
      obtain ⟨r, hr, rfl⟩ := exists_rule_of_mem_nextSpellings napi hs
      simp [hnone r hr]
    rw [hread]
    refine ⟨hnext, readGrant_of_none fun e he => ?_⟩
    exact hnone (grantRule e) (mem_optionRules.mpr (.inr ⟨e, he, rfl⟩))

theorem applyGrants_cons_of_not_flag (napi : Bool) (g : Grants) (h : tok.head? ≠ some '-') (it : List Str) :
    applyGrants napi g (tok :: it) = applyGrants napi g it := by
  have hdash : ∀ r ∈ optionRules napi, ∀ v, r.spelling.read tok = some v → tok.head? = some '-' := by
    have hall : ∀ p ∈ (optionRules true).map fun r => (r.isNext, r.spelling),
        p.2.text.head? = some '-' := by
      decide +kernel
    rw [← map_spelling napi] at hall
    intro r hr v hv
    have hr' := hall (r.isNext, r.spelling) (mem_map.mpr ⟨r, hr, rfl⟩)
    obtain ⟨rest, rfl⟩ := text_prefix_of_read hv
    rw [head?_append, hr']
    rfl
  have hid : ∀ g, readGrant napi tok g = g := readGrant_of_none fun e he => by
    cases hread : e.1.read tok with
    | none => rfl
    | some v =>
      exact absurd (hdash (grantRule e) (mem_optionRules.mpr (.inr ⟨e, he, rfl⟩)) v hread) h
  have hnext : takesNext tok = false := by
    cases hread : readOption napi tok with
    | none =>
      have hspec := readOption_readsGrants napi tok
      rw [hread] at hspec
      exact hspec.1
    | some p =>
      obtain ⟨r, hr, hv⟩ := exists_of_findSome?_eq_some hread
      obtain ⟨w, hw, -⟩ := Option.map_eq_some_iff.mp hv
      exact absurd (hdash r hr w hw) h
  rw [applyGrants_read napi g hnext, hid]

/-- **The loop on the grants.** The other flags never come back into the grants. -/
theorem toGrants_applyNodeOptionTokens (napi : Bool) (flags : NodeFlags) (toks : List Str) :
    (applyNodeOptionTokens napi flags toks).toGrants = applyGrants napi flags.toGrants toks := by
  fun_induction applyNodeOptionTokens napi flags toks with
  | case1 flags => exact (applyGrants_nil napi _).symm
  | case2 flags tok it hread ih =>
    -- ignored
    obtain ⟨hn, hid⟩ : ReadsGrants napi tok none := hread ▸ readOption_readsGrants napi tok
    rw [ih, applyGrants_read napi _ hn, hid]
  | case3 flags tok it change v hread ih =>
    obtain ⟨hn, hg⟩ : ReadsGrants napi tok (some (.set change, v)) :=
      hread ▸ readOption_readsGrants napi tok
    rw [ih, hg, applyGrants_read napi _ hn]
  | case4 flags tok change v hread =>
    -- wants a value, and the line ends
    obtain ⟨hn, -⟩ : ReadsGrants napi tok (some (.next change, v)) :=
      hread ▸ readOption_readsGrants napi tok
    exact (applyGrants_next_nil napi _ hn).symm
  | case5 flags tok change v hread w rest ih =>
    obtain ⟨hn, hkeep⟩ : ReadsGrants napi tok (some (.next change, v)) :=
      hread ▸ readOption_readsGrants napi tok
    rw [ih, hkeep, applyGrants_next_cons napi _ hn]
  | case6 flags tok change missing v hread kept ih =>
    obtain ⟨hn, hid, -, hmissing⟩ : ReadsGrants napi tok (some (.nextUnlessFlag change missing, v)) :=
      hread ▸ readOption_readsGrants napi tok
    rw [applyGrants_read napi _ hn, hid]
    exact ih.trans (by rw [hmissing])
  | case7 flags tok change missing v hread w rest hflag kept ih =>
    obtain ⟨hn, hid, -, hmissing⟩ : ReadsGrants napi tok (some (.nextUnlessFlag change missing, v)) :=
      hread ▸ readOption_readsGrants napi tok
    rw [applyGrants_read napi _ hn, hid]
    exact ih.trans (by rw [hmissing])
  | case8 flags tok change missing v hread w rest hplain _ ih =>
    -- the value is taken, but it is no flag: reading it would not have changed the grants
    obtain ⟨hn, hid, hkeep, -⟩ : ReadsGrants napi tok (some (.nextUnlessFlag change missing, v)) :=
      hread ▸ readOption_readsGrants napi tok
    rw [ih, hkeep, applyGrants_read napi _ hn, hid, applyGrants_cons_of_not_flag napi _ hplain]

end Oam.Cli
