/-
  `precompile.rs`: the freshness key of a precompiled artifact.  It hashes the fingerprint and the source with NOTHING
  between them; but the fingerprints of one path are a prefix-free code (`transpileFingerprint_prefixFree`), so the
  hashed text says where the source begins.
-/
import Oam.Loader.TranspileCache

namespace Oam.Loader.TranspileCache

open List Text

/-! ## Program -/

/-- `freshness_key`. -/
def freshnessKey (env : Env) (path : Str) (config : TranspileConfig) (source : Str) : Str :=
  sha256Hex env (transpileFingerprintWith env path config ++ source)

/-! ## The fields -/

section Fields

variable (env : Env)

/-- The character that a two-character escape stands for. -/
def unescape : Char → Char
  | '0' => '\x00'
  | 't' => '\t'
  | 'r' => '\r'
  | 'n' => '\n'
  | c => c

/-- A character is escaped by one letter, by its code, or not at all. -/
theorem debugChar_cases (c : Char) :
    (∃ e, e ≠ 'u' ∧ unescape e = c ∧ debugChar env c = ['\\', e]) ∨
      debugChar env c = '\\' :: 'u' :: '\x7b' :: (Hex.hex c.toNat ++ ['\x7d']) ∨
      (c ≠ '\\' ∧ c ≠ '"' ∧ debugChar env c = [c]) := by
  unfold debugChar
  split_ifs with hnul htab hcr hlf hback hquote hcode
  · exact .inl ⟨'0', by decide, hnul.symm, rfl⟩
  · exact .inl ⟨'t', by decide, htab.symm, rfl⟩
  · exact .inl ⟨'r', by decide, hcr.symm, rfl⟩
  · exact .inl ⟨'n', by decide, hlf.symm, rfl⟩
  · exact .inl ⟨'\\', by decide, hback.symm, rfl⟩
  · exact .inl ⟨'"', by decide, hquote.symm, rfl⟩
  · exact .inr (.inl rfl)
  · exact .inr (.inr ⟨hback, hquote, rfl⟩)

theorem debugChar_prefixFree : PrefixFree (debugChar env) := by
  refine ⟨fun {c d x y} h => ?_⟩
  rcases debugChar_cases env c with ⟨e, he, rfl, hc⟩ | hc | ⟨hc', -, hc⟩ <;>
    rcases debugChar_cases env d with ⟨e', he', rfl, hd⟩ | hd | ⟨hd', -, hd⟩ <;>
    rw [hc, hd] at h <;> simp only [cons_append, nil_append, append_assoc, cons.injEq, true_and] at h
  · exact ⟨congrArg unescape h.1, h.2⟩
  · exact absurd h.1 he
  · exact absurd h.1.symm hd'
  · exact absurd h.1.symm he'
  · -- both are spelled by their codes, which the closing brace ends
    have hbrace (n : Nat) : '\x7d' ∉ Hex.hex n := fun hmem => absurd (Hex.isHexDigit_of_mem_hex hmem) (by decide)
    have hcut := congrArg (splitOnce '\x7d') h
    rw [splitOnce_append (hbrace _), splitOnce_append (hbrace _), Option.some.injEq, Prod.mk.injEq] at hcut
    exact ⟨Char.toNat_inj.mp (Hex.hex_injective hcut.1), hcut.2⟩
  · exact absurd h.1.symm hd'
  · exact absurd h.1 hc'
  · exact absurd h.1 hc'
  · exact h

/-- A quoted text ends at the quote that no escape begins with. -/
theorem debugStr_prefixFree : PrefixFree (debugStr env) := by
  have hquoted := (debugChar_prefixFree env).quoted (q := '"') fun c x y h => by
    rcases debugChar_cases env c with ⟨e, -, -, hc⟩ | hc | ⟨-, hquote, hc⟩ <;> rw [hc] at h <;> injection h with hfirst
    · exact absurd hfirst (by decide)
    · exact absurd hfirst (by decide)
    · exact hquote hfirst
  exact ⟨fun h => hquoted.read (cons.inj h).2⟩

theorem debugOption_prefixFree : PrefixFree (debugOption env) := by
  refine ⟨fun {s t x y} h => ?_⟩
  cases s with
  | none =>
    cases t with
    | none => exact ⟨rfl, append_cancel_left h⟩
    | some => exact absurd (cons.inj h).1 (by decide)
  | some =>
    cases t with
    | none => exact absurd (cons.inj h).1 (by decide)
    | some =>
      simp only [debugOption, flatten_cons, append_assoc, append_cancel_left_eq] at h
      obtain ⟨rfl, hrest⟩ := (debugStr_prefixFree env).read h
      exact ⟨rfl, append_cancel_left hrest⟩

theorem mode_prefixFree : PrefixFree fun mode => JsxMode.asStr mode ++ ";import_source=".toList :=
  prefixFree_of_words fun a b => by cases a <;> cases b <;> decide

/-- The settings are read field by field from the front. -/
theorem fingerprint_prefixFree : PrefixFree (JsxSettings.fingerprint env) := by
  refine ⟨fun {s t x y} h => ?_⟩
  have hoption := debugOption_prefixFree env
  simp only [JsxSettings.fingerprint, flatten_cons, flatten_nil, append_assoc, append_cancel_left_eq, nil_append] at h
  rw [← append_assoc, ← append_assoc t.mode.asStr] at h
  obtain ⟨hmode, h⟩ := mode_prefixFree.read h
  obtain ⟨himport, h⟩ := hoption.read h
  obtain ⟨hfactory, h⟩ := hoption.read (append_cancel_left h)
  obtain ⟨hfragment, hxy⟩ := hoption.read (append_cancel_left h)
  cases s
  cases t
  subst hmode himport hfactory hfragment
  exact ⟨rfl, hxy⟩

theorem language_prefixFree : PrefixFree languageText :=
  prefixFree_of_words fun a b => by cases a <;> cases b <;> decide

theorem module_prefixFree : PrefixFree moduleText :=
  prefixFree_of_words fun a b => by cases a <;> cases b <;> decide

theorem bool_prefixFree : PrefixFree fun b : Bool => if b then "true".toList else "false".toList :=
  prefixFree_of_words (by decide)

/-- **The fingerprints of one path are a prefix-free code.** -/
theorem transpileFingerprint_prefixFree (path : Str) : PrefixFree (transpileFingerprintWith env path) := by
  refine ⟨fun {a b x y} h => ?_⟩
  obtain ⟨⟨_, _, _⟩, jsx⟩ := a
  obtain ⟨⟨_, _, _⟩, jsx'⟩ := b
  unfold transpileFingerprintWith at h
  simp only [flatten_cons, flatten_nil, append_assoc, append_cancel_left_eq, nil_append] at h
  obtain ⟨rfl, h⟩ := language_prefixFree.read h
  obtain ⟨rfl, h⟩ := module_prefixFree.read (append_cancel_left h)
  obtain ⟨rfl, hrest⟩ := bool_prefixFree.read (append_cancel_left h)
  replace hrest := append_cancel_left hrest
  cases jsx with
  | none =>
    cases jsx' with
    | none => exact ⟨rfl, append_cancel_left hrest⟩
    | some => exact absurd (cons.inj hrest).1 (by decide)
  | some =>
    cases jsx' with
    | none => exact absurd (cons.inj hrest).1 (by decide)
    | some =>
      obtain ⟨rfl, hpath⟩ := (fingerprint_prefixFree env).read hrest
      exact ⟨rfl, append_cancel_left hpath⟩

end Fields

/-- **Equal keys, equal inputs**, if the hashed texts do not collide; and no fingerprint of a path begins another. -/
theorem freshnessKey_eq_iff (env : Env) (path : Str) :
    (∀ config config', transpileFingerprintWith env path config <+: transpileFingerprintWith env path config' →
      config = config') ∧
    ∀ config config' source source', CollisionFree env [transpileFingerprintWith env path config ++ source,
        transpileFingerprintWith env path config' ++ source'] →
      (freshnessKey env path config source = freshnessKey env path config' source' ↔
        config = config' ∧ source = source') := by
  have hcode := transpileFingerprint_prefixFree env path
  refine ⟨?_, ?_⟩
  · rintro config config' ⟨_, hmore⟩
    exact (hcode.read (hmore.trans (append_nil _).symm)).1
  · intro config config' source source' hfree
    constructor
    · intro h
      exact hcode.read (hfree _ (by simp) _ (by simp) (Hex.hexBytes_injective h))
    · rintro ⟨rfl, rfl⟩
      rfl

/-- A TSX module under the automatic-dev runtime of the package `importSource`, if one is named. -/
def devConfig (importSource : Option Str) : TranspileConfig :=
  ⟨⟨.typescript, .esModule, true⟩, some ⟨.automaticDev, importSource, none, none⟩⟩

/-- SHA-256 on the two texts that are hashed below. -/
def devEnv : Env where
  sha256 text :=
    if text = ("oxc_transformer=0.135.0;oxc_codegen=0.135.0;format=3;language=ts;module=module;jsx_syntax=true;" ++
        "jsx=mode=automatic-dev;import_source=None;factory=None;fragment_factory=None;path=/app/a.tsxexport \x7b\x7d;").toList
    then
    [0xd1, 0x51, 0xab, 0xae, 0xb5, 0x9b, 0x04, 0xb3, 0xe6, 0x0d, 0xfc, 0xa0,
      0xbf, 0x06, 0x72, 0xd6, 0x5c, 0xbb, 0x9d, 0xa1, 0xbf, 0x93, 0xe4, 0x4e,
      0x3e, 0x47, 0x98, 0x43, 0xc3, 0x88, 0x5b, 0xde]
    else
    [0x96, 0x1f, 0x39, 0x57, 0xe6, 0x6d, 0x63, 0x1a, 0xff, 0xa4, 0xf5, 0x3e,
      0xa6, 0xa4, 0xf6, 0x92, 0x5a, 0x02, 0x29, 0x10, 0x49, 0x27, 0x66, 0x46,
      0xee, 0xc2, 0x3e, 0xde, 0xa6, 0xc3, 0xc6, 0x51]
  isPrintable := abEnv.isPrintable
  isGraphemeExtended := abEnv.isGraphemeExtended

/-- One source with two packages to import the runtime from has two keys. -/
theorem freshnessKey_eq_iff_dev : freshnessKey devEnv "/app/a.tsx".toList (devConfig none) "export \x7b\x7d;".toList ≠
    freshnessKey devEnv "/app/a.tsx".toList (devConfig (some "preact".toList)) "export \x7b\x7d;".toList := by
  have hfree : CollisionFree devEnv
      [transpileFingerprintWith devEnv "/app/a.tsx".toList (devConfig none) ++ "export \x7b\x7d;".toList,
        transpileFingerprintWith devEnv "/app/a.tsx".toList (devConfig (some "preact".toList)) ++
          "export \x7b\x7d;".toList] := by
    unfold CollisionFree
    decide +kernel
  intro h
  exact absurd (((freshnessKey_eq_iff devEnv "/app/a.tsx".toList).2 _ _ _ _ hfree).mp h).1 (by decide)

end Oam.Loader.TranspileCache
