/-
  `transpile_cache.rs`: the content-addressed transpile cache, whatever happens to its files.

  An entry is filed under the SHA-256 of the fingerprint, a NUL and the source; ONE artifact holds both halves of the
  output.  Its digest covers the body and NOT the length before it: a changed length that still ends at a character cuts
  the same body elsewhere.
-/
import Oam.Lib.Decimal
import Oam.Lib.Hex
import Oam.Lib.Slots
import Mathlib.Algebra.Group.Nat.Defs

namespace Oam.Loader.TranspileCache

open Option List Text Decimal

/-! ## Data -/

inductive Language where
  | typescriptDefinition
  | typescript
  | javascript
deriving DecidableEq

inductive ModuleKind where
  | commonjs
  | esModule
  | script
  | unambiguous
deriving DecidableEq

/-- What the fingerprint asks of oxc's `SourceType`. -/
structure SourceType where
  language : Language
  moduleKind : ModuleKind
  isJsx : Bool
deriving DecidableEq

inductive JsxMode where
  | automatic
  | automaticDev
  | classic
deriving DecidableEq

structure JsxSettings where
  mode : JsxMode
  importSource : Option Str
  factory : Option Str
  fragmentFactory : Option Str
deriving DecidableEq

structure TranspileConfig where
  sourceType : SourceType
  jsx : Option JsxSettings
deriving DecidableEq

/-- The path of a source file that was read: the system opens no path with a NUL in it. -/
structure SourcePath where
  text : Str
  noNul : '\x00' ∉ text

structure Input where
  path : SourcePath
  config : TranspileConfig
  source : Str

/-- What `store` is given.  The length of a text is a `usize`. -/
structure Output where
  js : Str
  sourceMap : Option Str
  lenFits : utf8Len js < 2 ^ 64
deriving DecidableEq

inductive File where
  | text (contents : Str)
  | notUtf8
deriving DecidableEq

abbrev Path := List Str

abbrev Disk := Path → Option File

/-- What the cache takes from elsewhere: the digest, and the Unicode tables of `format!("{:?}")`. -/
structure Env where
  sha256 : Str → List UInt8
  isPrintable : Char → Bool
  isGraphemeExtended : Char → Bool

/-! ## Program: the fingerprint -/

section Fingerprint

variable (env : Env)

/-- `char::escape_debug`, as a text quotes it. -/
def debugChar (c : Char) : Str :=
  if c = '\x00' then "\\0".toList
  else if c = '\t' then "\\t".toList
  else if c = '\r' then "\\r".toList
  else if c = '\n' then "\\n".toList
  else if c = '\\' then "\\\\".toList
  else if c = '"' then "\\\"".toList
  else if env.isGraphemeExtended c || !env.isPrintable c then
    "\\u\x7b".toList ++ Hex.hex c.toNat ++ "\x7d".toList
  else [c]

/-- `format!("{s:?}")` of a text. -/
def debugStr (s : Str) : Str := '"' :: s.flatMap (debugChar env) ++ ['"']

def debugOption : Option Str → Str
  | none => "None".toList
  | some s => ["Some(".toList, debugStr env s, ")".toList].flatten

def JsxMode.asStr : JsxMode → Str
  | .automatic => "automatic".toList
  | .automaticDev => "automatic-dev".toList
  | .classic => "classic".toList

def JsxSettings.fingerprint (settings : JsxSettings) : Str :=
  ["mode=".toList, settings.mode.asStr,
   ";import_source=".toList, debugOption env settings.importSource,
   ";factory=".toList, debugOption env settings.factory,
   ";fragment_factory=".toList, debugOption env settings.fragmentFactory].flatten

/-- The versions are those of the workspace's `Cargo.lock`. -/
def oxcTransformerVersion : Str := "0.135.0".toList

def oxcCodegenVersion : Str := "0.135.0".toList

def transpileFormatVersion : Nat := 3

def languageText : Language → Str
  | .typescriptDefinition => "dts".toList
  | .typescript => "ts".toList
  | .javascript => "js".toList

def moduleText : ModuleKind → Str
  | .commonjs => "commonjs".toList
  | .esModule => "module".toList
  | .script => "script".toList
  | .unambiguous => "unambiguous".toList

/-- Under the automatic-dev runtime the output embeds the source path. -/
def pathFacet (path : Str) : Option JsxSettings → Str
  | some settings => if settings.mode = .automaticDev then ";path=".toList ++ path else []
  | none => []

def transpileFingerprintWith (path : Str) (config : TranspileConfig) : Str :=
  ["oxc_transformer=".toList, oxcTransformerVersion,
   ";oxc_codegen=".toList, oxcCodegenVersion,
   ";format=".toList, decimal transpileFormatVersion,
   ";language=".toList, languageText config.sourceType.language,
   ";module=".toList, moduleText config.sourceType.moduleKind,
   ";jsx_syntax=".toList, if config.sourceType.isJsx then "true".toList else "false".toList,
   ";jsx=".toList, config.jsx.elim "none".toList (JsxSettings.fingerprint env),
   pathFacet path config.jsx].flatten

def transpileFingerprint (input : Input) : Str :=
  transpileFingerprintWith env input.path.text input.config

theorem nul_not_mem_debugChar (c : Char) : '\x00' ∉ debugChar env c := by
  rw [debugChar]
  split_ifs with hnul
  all_goals first
    | decide
    | skip
  · -- a character spelled by its code
    intro h
    rcases mem_append.mp h with h | h
    · rcases mem_append.mp h with h | h
      · exact absurd h (by decide)
      · exact absurd (Hex.isHexDigit_of_mem_hex h) (by decide)
    · exact absurd h (by decide)
  · exact fun h => hnul (mem_singleton.mp h).symm

theorem nul_not_mem_debugStr (s : Str) : '\x00' ∉ debugStr env s := by
  intro h
  rcases mem_append.mp h with h | h
  · rcases mem_cons.mp h with h | h
    · exact absurd h (by decide)
    · obtain ⟨c, _, hc⟩ := mem_flatMap.mp h
      exact nul_not_mem_debugChar env c hc
  · exact absurd h (by decide)

theorem nul_not_mem_flatten {part : Str} {parts : List Str} (hpart : '\x00' ∉ part)
    (hparts : '\x00' ∉ parts.flatten) : '\x00' ∉ (part :: parts).flatten := by
  rw [flatten_cons, mem_append]
  exact fun h => h.elim hpart hparts

theorem nul_not_mem_debugOption (value : Option Str) : '\x00' ∉ debugOption env value := by
  cases value with
  | none => exact (by decide : '\x00' ∉ "None".toList)
  | some s => exact nul_not_mem_flatten (by decide) (nul_not_mem_flatten (nul_not_mem_debugStr env s)
      (by decide))

theorem nul_not_mem_fingerprint (settings : JsxSettings) : '\x00' ∉ settings.fingerprint env := by
  have hmode : '\x00' ∉ settings.mode.asStr := by cases settings.mode <;> decide
  have hoption := nul_not_mem_debugOption env
  exact nul_not_mem_flatten (by decide) <| nul_not_mem_flatten hmode <|
    nul_not_mem_flatten (by decide) <| nul_not_mem_flatten (hoption _) <|
    nul_not_mem_flatten (by decide) <| nul_not_mem_flatten (hoption _) <|
    nul_not_mem_flatten (by decide) <| nul_not_mem_flatten (hoption _) not_mem_nil

theorem nul_not_mem_pathFacet {path : Str} (hpath : '\x00' ∉ path) (jsx : Option JsxSettings) :
    '\x00' ∉ pathFacet path jsx := by
  cases jsx with
  | none => exact not_mem_nil
  | some =>
    rw [pathFacet]
    split
    · rw [mem_append]
      exact fun h => h.elim (by decide) hpath
    · exact not_mem_nil

/-- **The fingerprint has no NUL.** -/
theorem nul_not_mem_transpileFingerprint (input : Input) : '\x00' ∉ transpileFingerprint env input := by
  have hversion : '\x00' ∉ decimal transpileFormatVersion := not_mem_decimal (by decide) _
  have hlanguage : '\x00' ∉ languageText input.config.sourceType.language := by
    cases input.config.sourceType.language <;> decide
  have hmodule : '\x00' ∉ moduleText input.config.sourceType.moduleKind := by
    cases input.config.sourceType.moduleKind <;> decide
  have hsyntax : '\x00' ∉ (if input.config.sourceType.isJsx then "true".toList
      else "false".toList) := by
    split <;> decide
  have hjsx : '\x00' ∉ input.config.jsx.elim "none".toList (JsxSettings.fingerprint env) := by
    cases input.config.jsx with
    | none => exact (by decide : '\x00' ∉ "none".toList)
    | some settings => exact nul_not_mem_fingerprint env settings
  have hfacet := nul_not_mem_pathFacet input.path.noNul input.config.jsx
  exact nul_not_mem_flatten (by decide) <| nul_not_mem_flatten (by decide) <|
    nul_not_mem_flatten (by decide) <| nul_not_mem_flatten (by decide) <|
    nul_not_mem_flatten (by decide) <| nul_not_mem_flatten hversion <|
    nul_not_mem_flatten (by decide) <| nul_not_mem_flatten hlanguage <|
    nul_not_mem_flatten (by decide) <| nul_not_mem_flatten hmodule <|
    nul_not_mem_flatten (by decide) <| nul_not_mem_flatten hsyntax <|
    nul_not_mem_flatten (by decide) <| nul_not_mem_flatten hjsx <|
    nul_not_mem_flatten hfacet not_mem_nil

end Fingerprint

/-! ## Program: the entries -/

structure Key where
  fingerprint : Str
  source : Str
  noNul : '\x00' ∉ fingerprint
deriving DecidableEq

/-- The NUL keeps the two apart. -/
def Key.text (key : Key) : Str := key.fingerprint ++ '\x00' :: key.source

theorem Key.text_injective {k k' : Key} (h : k.text = k'.text) : k = k' := by
  have hcut : splitOnce '\x00' k.text = some (k.fingerprint, k.source) := splitOnce_append k.noNul
  have hcut' : splitOnce '\x00' k'.text = some (k'.fingerprint, k'.source) :=
    splitOnce_append k'.noNul
  rw [h, hcut'] at hcut
  injection hcut with hcut
  injection hcut with hfingerprint hsource
  cases k
  cases k'
  subst hfingerprint hsource
  rfl

def artifactHeader : Str := "// oam-transpile v2 ".toList

/-- `<root>/<aa>/<rest>.js`. -/
def entryPath (root : Path) (key : Str) : Path := root ++ [key.take 2, key.drop 2 ++ ".js".toList]

theorem entryPath_injective {root : Path} {key key' : Str} (h : entryPath root key = entryPath root key') :
    key = key' := by
  have hnames := append_cancel_left h
  injection hnames with hdir hrest
  injection hrest with hfile _
  rw [← take_append_drop 2 key, hdir, append_cancel_right hfile, take_append_drop]

def Output.mapText (output : Output) : Str := output.sourceMap.getD []

def Output.body (output : Output) : Str := output.js ++ output.mapText

def mapOf (map : Str) : Option Str := if map.isEmpty then none else some map

/-- The pair as it is handed out: an empty map comes back as none. -/
def Output.served (output : Output) : Str × Option Str := (output.js, mapOf output.mapText)

section Entries

variable (env : Env)

def keyOf (input : Input) : Key where
  fingerprint := transpileFingerprint env input
  source := input.source
  noNul := nul_not_mem_transpileFingerprint env input

def sha256Hex (text : Str) : Str := Hex.hexBytes (env.sha256 text)

def entryKey (key : Key) : Str := sha256Hex env key.text

def payload (output : Output) : Str :=
  artifactHeader ++ ((sha256Hex env output.body ++ ' ' :: decimal (utf8Len output.js)) ++ '\n' :: output.body)

/-- What `try_get_in` makes of a text it has read. -/
def readArtifact (text : Str) : Option (Str × Option Str) := do
  let rest ← text.dropPrefix? artifactHeader
  let (header, body) ← splitOnce '\n' rest
  let (storedHash, jsLen) ← splitOnce ' ' (trimEndMatches '\r' header)
  let jsLen ← parseUnsigned (2 ^ 64) jsLen
  if sha256Hex env body ≠ storedHash then none
  else
    -- a length past the end or inside a character is a corrupt entry
    let (js, map) ← splitAtByte body jsLen
    some (js, mapOf map)

def tryGetIn (root : Path) (disk : Disk) (input : Input) : Option (Str × Option Str) :=
  match disk (entryPath root (entryKey env (keyOf env input))) with
  | some (.text text) => readArtifact env text
  | _ => none

/-- Written beside its place and renamed over it; a failed store leaves the entry as it was. -/
def storeIn (root : Path) (disk : Disk) (input : Input) (output : Output) (written : Bool) : Disk :=
  if written then
    Function.update disk (entryPath root (entryKey env (keyOf env input)))
      (some (.text (payload env output)))
  else disk

/-! ## Specification -/

/-- The text is a complete artifact of `js` and `map`: its digest stands before the body, and the JavaScript's length,
    however it is spelled. -/
def IsArtifact (text js map : Str) : Prop :=
  ∃ jsLen returns, parseUnsigned (2 ^ 64) jsLen = some (utf8Len js) ∧ (∀ c ∈ returns, c = '\r') ∧
    text = artifactHeader ++ ((sha256Hex env (js ++ map) ++ ' ' :: (jsLen ++ returns)) ++ '\n' :: (js ++ map))

theorem not_mem_sha256Hex {c : Char} (hc : Hex.isHexDigit c = false) (text : Str) : c ∉ sha256Hex env text := by
  intro h
  rw [Hex.isHexDigit_of_mem_hexBytes h] at hc
  cases hc

theorem not_mem_header {c : Char} (hhex : Hex.isHexDigit c = false) (hblank : c ≠ ' ') (hplus : c ≠ '+')
    (hdigit : c.isDigit = false) {text jsLen : Str} {n : Nat} (hlen : parseUnsigned (2 ^ 64) jsLen = some n) :
    c ∉ sha256Hex env text ++ ' ' :: jsLen := by
  intro h
  rcases mem_append.mp h with h | h
  · exact not_mem_sha256Hex env hhex text h
  · rcases mem_cons.mp h with h | h
    · exact hblank h
    · rcases mem_of_parseUnsigned hlen h with h | h
      · exact hplus h
      · rw [hdigit] at h
        cases h

theorem readArtifact_of_isArtifact {text js map : Str} (h : IsArtifact env text js map) :
    readArtifact env text = some (js, mapOf map) := by
  obtain ⟨jsLen, returns, hlen, hreturns, rfl⟩ := h
  have hline : '\n' ∉ sha256Hex env (js ++ map) ++ ' ' :: (jsLen ++ returns) := by
    rw [← cons_append, ← append_assoc, mem_append, not_or]
    refine ⟨not_mem_header env (by decide) (by decide) (by decide) (by decide) hlen, fun h => ?_⟩
    exact absurd (hreturns _ h) (by decide)
  have htrim : trimEndMatches '\r' (sha256Hex env (js ++ map) ++ ' ' :: (jsLen ++ returns)) =
      sha256Hex env (js ++ map) ++ ' ' :: jsLen := by
    rw [← cons_append, ← append_assoc]
    apply trimEndMatches_of_copies _ hreturns
    exact not_mem_header env (by decide) (by decide) (by decide) (by decide) hlen
  have hblank : ' ' ∉ sha256Hex env (js ++ map) := not_mem_sha256Hex env (by decide) _
  simp only [readArtifact, dropPrefix?_append, splitOnce_append hline, htrim,
    splitOnce_append hblank, hlen, splitAtByte_append, bind_eq_bind, bind_some,
    ne_eq, not_true_eq_false, if_false]

theorem isArtifact_of_readArtifact {text js : Str} {m : Option Str}
    (h : readArtifact env text = some (js, m)) : ∃ map, IsArtifact env text js map ∧ m = mapOf map := by
  simp only [readArtifact, bind_eq_bind, bind_eq_some_iff] at h
  obtain ⟨_, hrest, ⟨header, body⟩, hline, ⟨storedHash, jsLen⟩, hheader, n, hlen, h⟩ := h
  by_cases hhash : sha256Hex env body = storedHash
  · simp only [hhash, ne_eq, not_true_eq_false, if_false, bind_eq_some_iff] at h
    obtain ⟨⟨_, map⟩, hcut, h⟩ := h
    injection h with h
    injection h with hjs hm
    subst hjs
    obtain ⟨hbody, hjsLen⟩ := splitAtByte_eq_some.mp hcut
    obtain ⟨returns, hreturns, hreturn⟩ := trimEndMatches_append '\r' header
    refine ⟨map, ⟨jsLen, returns, by rw [hjsLen]; exact hlen, hreturn, ?_⟩, hm.symm⟩
    rw [← hbody, hhash, dropPrefix?_eq_some.mp hrest, (splitOnce_eq_some.mp hline).1]
    congr 2
    rw [hreturns, (splitOnce_eq_some.mp hheader).1, append_assoc, cons_append]
  · rw [if_pos hhash] at h
    cases h

theorem isArtifact_payload (output : Output) : IsArtifact env (payload env output) output.js output.mapText := by
  refine ⟨decimal (utf8Len output.js), [], parseUnsigned_decimal output.lenFits, ?_, ?_⟩
  · exact fun c hc => absurd hc not_mem_nil
  · rw [append_nil]
    rfl

theorem readArtifact_payload (output : Output) : readArtifact env (payload env output) = some output.served :=
  readArtifact_of_isArtifact env (isArtifact_payload env output)

theorem mapOf_injective {map map' : Str} (h : mapOf map = mapOf map') : map = map' := by
  cases map <;> cases map' <;> simp_all [mapOf]

/-- A file that holds a complete artifact of something else than `stored`. -/
def HoldsForeign (file : Option File) (stored : Option Output) : Prop :=
  ∃ text js map, file = some (.text text) ∧ IsArtifact env text js map ∧
    stored.map (fun output => (output.js, output.mapText)) ≠ some (js, map)

theorem right_iff_not_holdsForeign {root : Path} {disk : Disk} {input : Input} {stored : Option Output} :
    tryGetIn env root disk input = none ∨ tryGetIn env root disk input = stored.map Output.served ↔ ¬ HoldsForeign env
    (disk (entryPath root (entryKey env (keyOf env input)))) stored := by
  rw [tryGetIn]
  constructor
  · rintro hright ⟨text, js, map, hfile, hartifact, hother⟩
    rw [hfile] at hright
    simp only [readArtifact_of_isArtifact env hartifact] at hright
    rcases hright with h | h
    · cases h
    · obtain ⟨output, hstored, hserved⟩ := map_eq_some_iff.mp h.symm
      injection hserved with hjs hmap
      apply hother
      rw [hstored, map_some, hjs, mapOf_injective hmap]
  · intro hown
    cases hfile : disk (entryPath root (entryKey env (keyOf env input))) with
    | none => exact .inl rfl
    | some file =>
      cases file with
      | notUtf8 => exact .inl rfl
      | text text =>
        show readArtifact env text = none ∨ readArtifact env text = stored.map Output.served
        cases hread : readArtifact env text with
        | none => exact .inl rfl
        | some pair =>
          right
          obtain ⟨map, hartifact, hm⟩ := isArtifact_of_readArtifact env hread
          have hsame : stored.map (fun output => (output.js, output.mapText)) = some (pair.1, map) := by
            by_contra hother
            exact hown ⟨text, pair.1, map, hfile, hartifact, hother⟩
          obtain ⟨_, hstored, hpair⟩ := map_eq_some_iff.mp hsame
          injection hpair with hjs hmap
          rw [hstored, map_some, Output.served, hjs, hmap, ← hm]

end Entries

/-! ## Histories -/

/-- What happens to the cache: a store, or anything else that changes a file. -/
inductive Event where
  | store (input : Input) (output : Output) (written : Bool)
  | corrupt (path : Path) (contents : Option File)

section Histories

variable (env : Env) (root : Path)

def perform (disk : Disk) : Event → Disk
  | .store input output written => storeIn env root disk input output written
  | .corrupt path contents => Function.update disk path contents

def run (events : List Event) : Disk := events.foldl (perform env root) fun _ => none

def slotOf (key : Key) : Path := entryPath root (entryKey env key)

def opsOf : Event → List (Slots.Op Key Output Path File)
  | .store input output true => [.put (keyOf env input) output]
  | .store _ _ false => []
  | .corrupt path contents => [.tamper path contents]

/-- What the events promise: the slots of the keys, with the last stored output of each. -/
def promises (events : List Event) : Slots.State Key Output Path File :=
  Slots.run (slotOf env root) (fun output => .text (payload env output)) (events.flatMap (opsOf env))

/-- The output most recently stored for the input's fingerprint and source. -/
def lastStored (events : List Event) (input : Input) : Option Output :=
  (promises env root events).stored (keyOf env input)

/-- Nothing but stores has touched the input's entry since the last store for it. -/
def isIntact (events : List Event) (input : Input) : Bool :=
  (promises env root events).intact (keyOf env input)

theorem disk_promises (events : List Event) : (promises env root events).disk = run env root events := by
  rw [promises, run, Slots.run]
  generalize hs : (Slots.empty : Slots.State Key Output Path File) = s
  have hdisk : (fun _ => none : Disk) = s.disk := by rw [← hs]; rfl
  rw [hdisk]
  clear hs hdisk
  induction events generalizing s with
  | nil => rfl
  | cons event events ih =>
    rw [flatMap_cons, foldl_append, ih, foldl_cons]
    cases event with
    | corrupt => rfl
    | store input output written => cases written <;> rfl

def CollisionFree (texts : List Str) : Prop :=
  ∀ a ∈ texts, ∀ b ∈ texts, env.sha256 a = env.sha256 b → a = b

/-- The texts whose digests name the entries of the stores and of one input. -/
def hashedKeys (events : List Event) (input : Input) : List Str :=
  (keyOf env input :: Slots.keys (events.flatMap (opsOf env))).map Key.text

theorem tryGetIn_of_isIntact {events : List Event} {input : Input}
    (hfree : CollisionFree env (hashedKeys env events input)) (hintact : isIntact env root events input) :
    tryGetIn env root (run env root events) input = (lastStored env root events input).map Output.served := by
  have hslot : ∀ k' ∈ Slots.keys (events.flatMap (opsOf env)),
      slotOf env root (keyOf env input) = slotOf env root k' → keyOf env input = k' := by
    intro k' hk' h
    have hdigest : env.sha256 (keyOf env input).text = env.sha256 k'.text :=
      Hex.hexBytes_injective (entryPath_injective h)
    refine Key.text_injective (hfree _ (mem_map_of_mem (mem_cons_self ..)) _ ?_ hdigest)
    exact mem_map_of_mem (mem_cons_of_mem _ hk')
  have hdisk := Slots.disk_of_intact hslot hintact
  rw [← disk_promises, tryGetIn]
  rw [show (promises env root events).disk (entryPath root (entryKey env (keyOf env input))) =
    ((promises env root events).stored (keyOf env input)).map fun output =>
      File.text (payload env output) from hdisk, lastStored]
  cases (promises env root events).stored (keyOf env input) with
  | none => rfl
  | some output => exact readArtifact_payload env output

/-! ## Correctness -/

/-- **When the cache serves what was stored, and only that.** Exactly when the entry's file is not a complete artifact
    of another pair; a store is followed by a hit. -/
theorem served_iff_not_foreign {events : List Event} {input : Input}
    (hfree : CollisionFree env (hashedKeys env events input)) :
    (tryGetIn env root (run env root events) input = none ∨ tryGetIn env root (run env root events) input =
          (lastStored env root events input).map Output.served ↔
      ¬ HoldsForeign env (run env root events (slotOf env root (keyOf env input)))
          (lastStored env root events input)) ∧
    (isIntact env root events input = true → tryGetIn env root (run env root events) input =
        (lastStored env root events input).map Output.served) ∧
    (∀ output, tryGetIn env root (run env root (events ++ [.store input output true])) input = some output.served) := by
  refine ⟨right_iff_not_holdsForeign env, tryGetIn_of_isIntact env root hfree, fun output => ?_⟩
  rw [run, foldl_append, foldl_cons, foldl_nil]
  show tryGetIn env root (Function.update _ _ _) input = some output.served
  rw [tryGetIn, Function.update_self]
  exact readArtifact_payload env output

end Histories

/-- SHA-256 on the two texts that are hashed below, and the tables on ASCII. -/
def abEnv : Env where
  sha256 text :=
    if text = "ab".toList then
    [0xfb, 0x8e, 0x20, 0xfc, 0x2e, 0x4c, 0x3f, 0x24, 0x8c, 0x60, 0xc3, 0x9b,
      0xd6, 0x52, 0xf3, 0xc1, 0x34, 0x72, 0x98, 0xbb, 0x97, 0x7b, 0x8b, 0x4d,
      0x59, 0x03, 0xb8, 0x50, 0x55, 0x62, 0x06, 0x03]
    else
    [0xfe, 0x46, 0x0d, 0x03, 0xfb, 0x86, 0x5d, 0x6c, 0x8a, 0xa3, 0xf5, 0x90,
      0xf2, 0xdf, 0xdb, 0xa0, 0xcd, 0x4a, 0x98, 0x4e, 0x12, 0x5d, 0x7d, 0x02,
      0xad, 0x49, 0xee, 0xb5, 0x48, 0x79, 0x20, 0x47]
  isPrintable c := decide (' ' ≤ c) && decide (c ≤ '~')
  isGraphemeExtended _ := false

def abInput : Input where
  path := ⟨"/app/a.ts".toList, by decide⟩
  config := { sourceType := ⟨.typescript, .esModule, false⟩, jsx := none }
  source := "ab".toList

def abOutput : Output := ⟨"ab".toList, none, by decide⟩

def abEvents (path : Path) (contents : Option File) : List Event :=
  [.store abInput abOutput true, .corrupt path contents]

theorem collisionFree_ab (path : Path) (contents : Option File) :
    CollisionFree abEnv (hashedKeys abEnv (abEvents path contents) abInput) := by
  have hkey : ∀ t ∈ hashedKeys abEnv (abEvents path contents) abInput,
      t = (keyOf abEnv abInput).text := by
    intro t ht
    simpa [hashedKeys, abEvents, opsOf, Slots.keys] using ht
  intro a ha b hb _
  rw [hkey a ha, hkey b hb]

theorem served_iff_not_foreign_ab : tryGetIn abEnv [] (run abEnv [] (abEvents ["other.js".toList] none)) abInput =
      some ("ab".toList, none) ∧
    ¬ HoldsForeign abEnv
        (run abEnv [] (abEvents ["other.js".toList] none) (slotOf abEnv [] (keyOf abEnv abInput)))
        (lastStored abEnv [] (abEvents ["other.js".toList] none) abInput) := by
  obtain ⟨hiff, hintact, _⟩ :=
    served_iff_not_foreign abEnv [] (collisionFree_ab ["other.js".toList] none)
  have hserved := hintact (by decide +kernel)
  refine ⟨?_, hiff.mp (.inr hserved)⟩
  rw [hserved]
  decide +kernel

/-- The stored artifact with one digit of its header changed: the length `2` reads `1`. -/
def abChanged : Str := artifactHeader ++ sha256Hex abEnv "ab".toList ++ " 1\nab".toList

def abChangedEvents : List Event :=
  abEvents (slotOf abEnv [] (keyOf abEnv abInput)) (some (.text abChanged))

/-- The text is cut one character early and served. -/
theorem changed_length_serves_other_pair : CollisionFree abEnv (hashedKeys abEnv abChangedEvents abInput) ∧
    payload abEnv abOutput = artifactHeader ++ sha256Hex abEnv "ab".toList ++ " 2\nab".toList ∧
    (lastStored abEnv [] abChangedEvents abInput).map Output.served = some ("ab".toList, none) ∧
    tryGetIn abEnv [] (run abEnv [] abChangedEvents) abInput = some ("a".toList, some "b".toList) := by
  refine ⟨collisionFree_ab _ _, ?_, ?_, ?_⟩ <;> decide +kernel

end Oam.Loader.TranspileCache
