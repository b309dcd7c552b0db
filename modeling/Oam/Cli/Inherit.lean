/-
  Permission flags on their way to a child process.

  The parent writes its permission flags into the child's `NODE_OPTIONS` as `execArgv` spells them, joined by blanks;
  the child splits the text again, quotes honoured.  Nothing is quoted on the way out.  Values keep their quotes only if
  no quote of the appended text delimits (`Words.split_quotes_lt`), and without quotes no value keeps a blank.
-/
import Oam.Cli.NodeOptions
import Oam.Lib.LexPath

namespace Oam.Cli

open Spelling Words List Text

/-! ## The system -/

/-- The grants of a child started with `spawnArgs` by a process with flags `f`; `current` is the caller's own
    `NODE_OPTIONS`. -/
def childGrants (napi : Bool) (f : NodeFlags) (current : Option Str) (spawnArgs : List Str) : Option Grants :=
  (permissionNodeOptions current spawnArgs (execArgv f)).map fun text =>
    (applyNodeOptionTokens napi {} (splitNodeOptions text)).toGrants

/-- An entry that `permissionNodeOptions` copies. -/
def startsWithPermissionFlag (tok : Str) : Bool :=
  permissionFlagsToCopy.any fun flag => flag.isPrefixOf tok

/-- The values of the four lists. -/
def Grants.values (g : Grants) : List Str :=
  g.allowFsRead ++ g.allowFsWrite ++ g.allowNet ++ g.allowEnv

/-- Entries of `execArgv` behind the permission flags that start with one: a value given as a token of its own. -/
def strayArgs (f : NodeFlags) : List Str := (trailingArgs f).filter startsWithPermissionFlag

/-- Reading the tokens ends at an option that wants a value. -/
def awaitsValue : List Str → Bool
  | [] => false
  | tok :: it =>
    if takesNext tok then
      match it with
      | [] => true
      | _ :: rest => awaitsValue rest
    else awaitsValue it

/-- A value the splitting gives back as it is. -/
def IsPlainWord (v : Str) : Prop := ∀ c ∈ v, lexicon.isQuote c = false ∧ lexicon.isBlank c = false

instance : DecidablePred IsPlainWord := fun v =>
  List.decidableBAll _ v

/-- What the grants and the caller's own text have to be for the grants to arrive. -/
structure Survives (g : Grants) (current : Str) : Prop where
  /-- The caller's text closes the quotes it opens. -/
  closed : closed lexicon current = true
  /-- The caller's text does not end in an option that would take `--permission` as its value. -/
  heard : awaitsValue (splitNodeOptions current) = false
  /-- No value has a blank or a quote. -/
  plain : ∀ v ∈ g.values, IsPlainWord v

/-! ## What is copied -/

theorem startsWithPermissionFlag_iff {tok : Str} :
    startsWithPermissionFlag tok ↔ ∃ flag ∈ permissionFlagsToCopy, flag <+: tok := by
  simp only [startsWithPermissionFlag, any_eq_true, isPrefixOf_iff_prefix]

/-- An entry starts with at most one of the flags, so it is appended at most once. -/
theorem copy_arg (value : Option Str) (arg : Str) : permissionFlagsToCopy.foldl
    (fun value flag => if flag.isPrefixOf arg then appendArg value arg else value) value =
    if startsWithPermissionFlag arg then appendArg value arg else value := by
  have hinc : permissionFlagsToCopy.Pairwise fun a b => ¬ a <+: b ∧ ¬ b <+: a := by decide
  unfold startsWithPermissionFlag
  generalize permissionFlagsToCopy = flags at hinc
  induction flags generalizing value with
  | nil => rfl
  | cons flag flags ih =>
    rw [pairwise_cons] at hinc
    rw [foldl_cons, any_cons]
    by_cases hflag : flag.isPrefixOf arg
    · -- the later flags do not start the entry as well
      have hnone : flags.any (fun flag => flag.isPrefixOf arg) = false := by
        simp only [any_eq_false, isPrefixOf_iff_prefix] at hflag ⊢
        intro other hmem hother
        obtain ⟨h1, h2⟩ := hinc.1 other hmem
        have hboth := prefix_or_prefix_of_prefix hflag hother
        exact hboth.elim h1 h2
      rw [if_pos hflag, ih _ hinc.2, hnone, hflag]
      simp
    · rw [if_neg hflag, ih _ hinc.2]
      simp [hflag]

theorem foldl_appendArg {args : List Str} (hargs : ∀ arg ∈ args, arg ≠ []) (hne : args ≠ []) (current : Option Str) :
    args.foldl appendArg current = some (if current.getD [] = [] then [' '].intercalate args
      else current.getD [] ++ ' ' :: [' '].intercalate args) := by
  have hstep : ∀ (args : List Str) (v : Str), v ≠ [] → (∀ arg ∈ args, arg ≠ []) →
      args.foldl appendArg (some v) = some ([' '].intercalate (v :: args)) := by
    intro args
    induction args with
    | nil => intro v _ _; simp
    | cons arg args ih =>
      intro v hv hargs
      have happ : appendArg (some v) arg = some (v ++ ' ' :: arg) := by simp [appendArg, hv]
      rw [foldl_cons, happ, ih _ (by simp) fun a ha => hargs a (mem_cons_of_mem _ ha)]
      cases args with
      | nil | cons => simp [intercalate_cons_cons]
  cases args with
  | nil => exact absurd rfl hne
  | cons arg args =>
    have harg := hargs arg (mem_cons_self ..)
    have hrest := fun a ha => hargs a (mem_cons_of_mem _ ha)
    cases current with
    | none => simpa [appendArg] using hstep args arg harg hrest
    | some c =>
      by_cases hc : c = []
      · subst hc
        simpa [appendArg] using hstep args arg harg hrest
      · simpa [hc, intercalate_cons_cons] using hstep (arg :: args) c hc hargs

theorem startsWithPermissionFlag_append {flag : Str} (h : flag ∈ permissionFlagsToCopy) (rest : Str) :
    startsWithPermissionFlag (flag ++ rest) :=
  startsWithPermissionFlag_iff.mpr ⟨flag, h, prefix_append ..⟩

variable {arg : Str}

theorem mem_flagArg {set : Bool} {flag : String} : arg ∈ flagArg set flag ↔ set ∧ arg = flag.toList := by
  cases set <;> simp [flagArg]

variable {g : Grants}

/-- Every permission argument is a flag, or a flag with a value of the grants. -/
theorem mem_permissionArgs (h : arg ∈ permissionArgs g) :
    ∃ flag ∈ permissionFlagsToCopy, arg = flag ∨ ∃ v ∈ g.values, arg = flag ++ '=' :: v := by
  suffices hflags : ∃ flag : String, flag.toList ∈ permissionFlagsToCopy ∧
      (arg = flag.toList ∨ ∃ v ∈ g.values, arg = listArg flag v) from hflags.elim fun flag h => ⟨flag.toList, h⟩
  have hbare : ∀ (flag : String) (v : Str), bareListArg flag v = flag.toList ∨ bareListArg flag v = listArg flag v := by
    intro flag v
    unfold bareListArg
    split
    · exact .inl rfl
    · exact .inr rfl
  simp only [permissionArgs, mem_append, mem_flagArg, mem_map] at h
  rcases h with ((((((⟨-, rfl⟩ | ⟨v, hv, rfl⟩) | ⟨v, hv, rfl⟩) | ⟨v, hv, rfl⟩) | ⟨v, hv, rfl⟩) | ⟨-, rfl⟩) | ⟨-, rfl⟩) | ⟨-, rfl⟩
  · exact ⟨_, by decide, .inl rfl⟩
  · exact ⟨_, by decide, .inr ⟨v, by simp [Grants.values, hv], rfl⟩⟩
  · exact ⟨_, by decide, .inr ⟨v, by simp [Grants.values, hv], rfl⟩⟩
  · exact ⟨_, by decide, (hbare _ v).imp id fun h => ⟨v, by simp [Grants.values, hv], h⟩⟩
  · exact ⟨_, by decide, (hbare _ v).imp id fun h => ⟨v, by simp [Grants.values, hv], h⟩⟩
  · exact ⟨_, by decide, .inl rfl⟩
  · exact ⟨_, by decide, .inl rfl⟩
  · exact ⟨_, by decide, .inl rfl⟩

theorem startsWith_of_mem_permissionArgs (h : arg ∈ permissionArgs g) : startsWithPermissionFlag arg := by
  obtain ⟨_, hflag, rfl | ⟨v, -, rfl⟩⟩ := mem_permissionArgs h
  · simpa using startsWithPermissionFlag_append hflag []
  · exact startsWithPermissionFlag_append hflag _

theorem ne_nil_of_mem_permissionArgs (h : arg ∈ permissionArgs g) : arg ≠ [] := by
  rintro rfl
  exact absurd (startsWith_of_mem_permissionArgs h) (by decide)

theorem permissionArgs_of_permission (h : g.permission) :
    permissionArgs g = permissionFlag :: permissionArgs { g with permission := false } := by
  simp only [permissionArgs, h, flagArg]
  rfl

variable {f : NodeFlags}

/-- **What a child gets**: the permission flags as spelled, if there is no stray. -/
theorem filter_execArgv (hstray : strayArgs f = []) :
    (execArgv f).filter startsWithPermissionFlag = permissionArgs f.toGrants := by
  have hlead : (leadingArgs f).filter startsWithPermissionFlag = [] := by
    rw [filter_eq_nil_iff]
    intro arg harg
    simp only [leadingArgs, mem_append, mem_flagArg] at harg
    rcases harg with (⟨-, rfl⟩ | ⟨-, rfl⟩) | ⟨-, rfl⟩ <;> decide
  have hperm : (permissionArgs f.toGrants).filter startsWithPermissionFlag = permissionArgs f.toGrants :=
    filter_eq_self.mpr fun _ => startsWith_of_mem_permissionArgs
  rw [strayArgs] at hstray
  rw [execArgv, filter_append, filter_append, hlead, hperm, hstray, nil_append, append_nil]

/-- What is appended to the caller's text. -/
def appendedText (g : Grants) : Str := [' '].intercalate (permissionArgs g)

/-- The child's `NODE_OPTIONS`. -/
def childText (g : Grants) (current : Str) : Str :=
  if current = [] then appendedText g else current ++ ' ' :: appendedText g

theorem permissionFlag_infix_childText (hperm : g.permission) (current : Str) :
    permissionFlag <:+: childText g current := by
  obtain ⟨tail, ht⟩ := LexPath.join_append_cons ' ' [] permissionFlag (permissionArgs { g with permission := false })
  have happended : appendedText g = permissionFlag ++ tail := by
    rw [appendedText, permissionArgs_of_permission hperm]
    exact ht
  unfold childText
  split
  · exact ⟨[], tail, by rw [happended, nil_append]⟩
  · exact ⟨current ++ [' '], tail, by simp [happended]⟩

theorem permissionNodeOptions_execArgv (hperm : f.permission) (hstray : strayArgs f = []) {current : Option Str}
    {spawnArgs : List Str} (hspawn : permissionFlag ∉ spawnArgs) (hmention : ¬ permissionFlag <:+: current.getD []) :
    permissionNodeOptions current spawnArgs (execArgv f) = some (childText f.toGrants (current.getD [])) := by
  have hguard : (spawnArgs.contains permissionFlag || current.any (containsText permissionFlag)) = false := by
    rw [Bool.or_eq_false_iff, contains_eq_mem]
    refine ⟨decide_eq_false hspawn, ?_⟩
    cases current with
    | none => rfl
    | some => exact Bool.eq_false_iff.mpr fun h => hmention (containsText_iff.mp h)
  have hne : permissionArgs f.toGrants ≠ [] := by
    rw [permissionArgs_of_permission hperm]
    exact cons_ne_nil _ _
  have hvalue : (execArgv f).foldl (fun value arg => permissionFlagsToCopy.foldl
      (fun value flag => if flag.isPrefixOf arg then appendArg value arg else value) value) current =
        some (childText f.toGrants (current.getD [])) := by
    simp only [copy_arg]
    rw [← foldl_filter, filter_execArgv hstray, foldl_appendArg (fun _ => ne_nil_of_mem_permissionArgs) hne]
    rfl
  -- the variable changes: it did not mention the flag before
  have hchanged : some (childText f.toGrants (current.getD [])) ≠ current := by
    intro he
    apply hmention
    rw [← he]
    exact permissionFlag_infix_childText hperm _
  simp only [permissionNodeOptions, hguard, Bool.false_eq_true, if_false, hvalue, if_neg hchanged]

/-! ## Reading the tokens -/

variable {napi : Bool} {e : Spelling × (Str → Grants → Grants)} {tok v : Str}

theorem applyGrants_grant (he : e ∈ grantRules napi) (hv : e.1.read tok = some v) (g : Grants) (it : List Str) :
    applyGrants napi g (tok :: it) = applyGrants napi (e.2 v g) it := by
  rw [applyGrants_read napi g (takesNext_of_read (mem_optionRules.mpr (.inr ⟨e, he, rfl⟩)) hv), readGrant_of_read he hv]

theorem startsWith_of_read (he : e ∈ grantRules napi) (hv : e.1.read tok = some v) :
    startsWithPermissionFlag tok := by
  have hall : ∀ s ∈ (grantRules napi).map Prod.fst, startsWithPermissionFlag s.text := by
    cases napi <;> decide +kernel
  have he' := hall e.1 (mem_map.mpr ⟨e, he, rfl⟩)
  obtain ⟨flag, hflag, hpre⟩ := startsWithPermissionFlag_iff.mp he'
  exact startsWithPermissionFlag_iff.mpr ⟨flag, hflag, hpre.trans (text_prefix_of_read hv)⟩

theorem readGrant_of_not_startsWith (napi : Bool) (h : startsWithPermissionFlag tok = false) (g : Grants) :
    readGrant napi tok g = g := by
  refine readGrant_of_none (fun e he => ?_) g
  cases hread : e.1.read tok with
  | none => rfl
  | some =>
    rw [startsWith_of_read he hread] at h
    nomatch h

theorem applyGrants_append_of_not_startsWith (napi : Bool) (g : Grants) (us : List Str) :
    ∀ ts : List Str, (∀ tok ∈ ts, startsWithPermissionFlag tok = false) →
      applyGrants napi g (ts ++ us) = applyGrants napi g (if awaitsValue ts then us.tail else us)
  | [], _ => rfl
  | [tok], h => by
    cases hn : takesNext tok with
    | true =>
      cases us with
      | nil => simp [awaitsValue, hn, applyGrants_next_nil napi g hn, applyGrants_nil]
      | cons => simp [awaitsValue, hn, applyGrants_next_cons napi g hn]
    | false =>
      have hid := readGrant_of_not_startsWith napi (h tok (mem_cons_self ..)) g
      simp [awaitsValue, hn, applyGrants_read napi g hn, hid]
  | tok :: v :: ts, h => by
    have htail := fun t ht => h t (mem_cons_of_mem _ ht)
    cases hn : takesNext tok with
    | true =>
      have ih := applyGrants_append_of_not_startsWith napi g us ts
        fun t ht => htail t (mem_cons_of_mem _ ht)
      rw [cons_append, cons_append, applyGrants_next_cons napi g hn, ih]
      simp [awaitsValue, hn]
    | false =>
      have hid := readGrant_of_not_startsWith napi (h tok (mem_cons_self ..)) g
      have ih := applyGrants_append_of_not_startsWith napi g us (v :: ts) htail
      rw [cons_append, applyGrants_read napi g hn, hid, ih]
      simp only [awaitsValue, hn, Bool.false_eq_true, if_false]

/-! ## The permission flags, read back -/

theorem applyGrants_listArgs {arg : Str → Str} (upd : Grants → List Str → Grants) (hnil : ∀ g, upd g [] = g)
    (hcons : ∀ g v l, upd (upd g [v]) l = upd g (v :: l))
    (hread : ∀ g v us, applyGrants napi g (arg v :: us) = applyGrants napi (upd g [v]) us) (l : List Str)
    (g : Grants) (us : List Str) : applyGrants napi g (l.map arg ++ us) = applyGrants napi (upd g l) us := by
  induction l generalizing g with
  | nil => rw [hnil]; rfl
  | cons v l ih => rw [map_cons, cons_append, hread, ih, hcons]

theorem applyGrants_flagArg {flag : String} {change : Str → Grants → Grants}
    (he : (exact flag, change) ∈ grantRules napi) (set : Bool) (g : Grants) (us : List Str) :
    applyGrants napi g (flagArg set flag ++ us) = applyGrants napi (if set then change [] g else g) us := by
  cases set with
  | false => rfl
  | true => exact applyGrants_grant he (read_exact.mpr ⟨rfl, rfl⟩) g us

theorem applyGrants_listArg (flag : String) {flagEq : String} {change : Str → Grants → Grants}
    (hflag : flagEq.toList = flag.toList ++ ['=']) (he : (valued flagEq, change) ∈ grantRules napi) (g : Grants)
    (v : Str) (us : List Str) : applyGrants napi g (listArg flag v :: us) = applyGrants napi (change v g) us := by
  refine applyGrants_grant he (dropPrefix?_eq_some.mpr ?_) g us
  rw [hflag, append_assoc]
  rfl

theorem applyGrants_bareListArg (flag : String) {flagEq : String} {bare valued : Str → Grants → Grants}
    (hflag : flagEq.toList = flag.toList ++ ['=']) (hbare : (exact flag, bare) ∈ grantRules napi)
    (hvalued : (Spelling.valued flagEq, valued) ∈ grantRules napi) (hstar : ∀ g, bare [] g = valued ['*'] g)
    (g : Grants) (v : Str) (us : List Str) :
    applyGrants napi g (bareListArg flag v :: us) = applyGrants napi (valued v g) us := by
  unfold bareListArg
  split
  · rename_i hv
    rw [hv, ← hstar]
    exact applyGrants_grant hbare (read_exact.mpr ⟨rfl, rfl⟩) g us
  · exact applyGrants_listArg flag hflag hvalued g v us

/-- **Round trip.**  The permission flags of `g`, read into default grants, give `g` back. -/
theorem applyGrants_permissionArgs (haddons : g.allowAddons → napi) :
    applyGrants napi {} (permissionArgs g) = g := by
  have hmem : ∀ (i : Nat) {e}, (grantRules napi)[i]? = some e → e ∈ grantRules napi :=
    fun i _ h => mem_of_getElem? h
  have hpermission := applyGrants_flagArg (hmem 0 rfl)
  have hread := applyGrants_listArgs (fun g l => { g with allowFsRead := g.allowFsRead ++ l })
    (by simp) (by simp) (applyGrants_listArg "--allow-fs-read" (by decide) (hmem 1 rfl))
  have hwrite := applyGrants_listArgs (fun g l => { g with allowFsWrite := g.allowFsWrite ++ l })
    (by simp) (by simp) (applyGrants_listArg "--allow-fs-write" (by decide) (hmem 2 rfl))
  have hnet := applyGrants_listArgs (fun g l => { g with allowNet := g.allowNet ++ l })
    (by simp) (by simp)
    (applyGrants_bareListArg "--allow-net" (by decide) (hmem 4 rfl) (hmem 3 rfl) fun _ => rfl)
  have henv := applyGrants_listArgs (fun g l => { g with allowEnv := g.allowEnv ++ l })
    (by simp) (by simp)
    (applyGrants_bareListArg "--allow-env" (by decide) (hmem 6 rfl) (hmem 5 rfl) fun _ => rfl)
  have hchild := applyGrants_flagArg (hmem 7 rfl)
  have hworker := applyGrants_flagArg (hmem 8 rfl)
  have haddon := applyGrants_flagArg (hmem 9 rfl)
  rw [← append_nil (permissionArgs g)]
  simp only [permissionArgs, append_assoc]
  rw [hpermission, hread, hwrite, hnet, henv, hchild, hworker, haddon, applyGrants_nil]
  -- what is left is the record the eight parts wrote
  obtain ⟨permission, _, _, _, _, child, worker, addons⟩ := g
  cases permission <;> cases child <;> cases worker <;> cases addons <;> simp_all

/-! ## Values come from tokens -/

theorem values_of_mem_grantRules (he : e ∈ grantRules napi) (v : Str) (g : Grants) : ∃ l₁ l₂ new, g.values = l₁ ++ l₂ ∧
    (e.2 v g).values = l₁ ++ new ++ l₂ ∧ (new = [] ∨ new = [v] ∨ new = [['*']]) := by
  have hsame : ∀ g' : Grants, g'.values = g.values → ∃ l₁ l₂ new, g.values = l₁ ++ l₂ ∧
      g'.values = l₁ ++ new ++ l₂ ∧ (new = [] ∨ new = [v] ∨ new = [['*']]) :=
    fun g' h => ⟨g.values, [], [], by simp, by simp [h], .inl rfl⟩
  simp only [grantRules, mem_cons, not_mem_nil, or_false] at he
  rcases he with rfl | rfl | rfl | rfl | rfl | rfl | rfl | rfl | rfl | rfl
  · exact hsame _ rfl
  · exact ⟨g.allowFsRead, g.allowFsWrite ++ g.allowNet ++ g.allowEnv, [v], by simp [Grants.values],
      by simp [Grants.values], .inr (.inl rfl)⟩
  · exact ⟨g.allowFsRead ++ g.allowFsWrite, g.allowNet ++ g.allowEnv, [v], by simp [Grants.values],
      by simp [Grants.values], .inr (.inl rfl)⟩
  · exact ⟨g.allowFsRead ++ g.allowFsWrite ++ g.allowNet, g.allowEnv, [v], by simp [Grants.values],
      by simp [Grants.values], .inr (.inl rfl)⟩
  · exact ⟨g.allowFsRead ++ g.allowFsWrite ++ g.allowNet, g.allowEnv, [['*']],
      by simp [Grants.values], by simp [Grants.values], .inr (.inr rfl)⟩
  · exact ⟨g.values, [], [v], by simp, by simp [Grants.values], .inr (.inl rfl)⟩
  · exact ⟨g.values, [], [['*']], by simp, by simp [Grants.values], .inr (.inr rfl)⟩
  · exact hsame _ rfl
  · exact hsame _ rfl
  · exact hsame _ rfl

theorem suffix_of_read {s : Spelling} (h : s.read tok = some v) : v <:+ tok := by
  cases s with
  | exact => rw [(read_exact.mp h).2]; exact nil_suffix
  | valued a => exact ⟨a.toList, (dropPrefix?_eq_some.mp h).symm⟩

/-- A token changes nothing, or it is one that is copied and adds at most one value. -/
theorem values_readGrant (napi : Bool) (tok : Str) (g : Grants) :
    readGrant napi tok g = g ∨ (startsWithPermissionFlag tok ∧
      ∃ l₁ l₂ new, g.values = l₁ ++ l₂ ∧ (readGrant napi tok g).values = l₁ ++ new ++ l₂ ∧
        (new = [] ∨ (∃ v, v <:+ tok ∧ new = [v]) ∨ new = [['*']])) := by
  by_cases hex : ∃ e ∈ grantRules napi, ∃ v, e.1.read tok = some v
  · obtain ⟨e, he, v, hv⟩ := hex
    right
    refine ⟨startsWith_of_read he hv, ?_⟩
    rw [readGrant_of_read he hv]
    obtain ⟨l₁, l₂, new, h1, h2, h3⟩ := values_of_mem_grantRules he v g
    exact ⟨l₁, l₂, new, h1, h2, h3.imp id (Or.imp (fun h => ⟨v, suffix_of_read hv, h⟩) id)⟩
  · left
    refine readGrant_of_none (fun e he => ?_) g
    cases h : e.1.read tok with
    | none => rfl
    | some v => exact absurd ⟨e, he, v, h⟩ hex

/-- **Every value was in the grants before, is `*`, or is an end of a copied token.** -/
theorem mem_values_applyGrants (g : Grants) (toks : List Str) (h : v ∈ (applyGrants napi g toks).values) :
    v ∈ g.values ∨ v = ['*'] ∨ ∃ tok ∈ toks, startsWithPermissionFlag tok ∧ v <:+ tok := by
  fun_induction applyGrants napi g toks with
  | case1 => exact .inl h
  | case2 => exact .inl h
  | case3 g tok hn w rest ih =>
    exact (ih h).imp id (Or.imp id fun ⟨t, ht, hs⟩ =>
      ⟨t, mem_cons_of_mem _ (mem_cons_of_mem _ ht), hs⟩)
  | case4 g tok it hn ih =>
    rcases ih h with hv | hv | ⟨t, ht, hs⟩
    · rcases values_readGrant napi tok g with hsame | ⟨hstart, l₁, l₂, new, h1, h2, h3⟩
      · rw [hsame] at hv; exact .inl hv
      · rw [h2] at hv
        have hcase : v ∈ new ∨ v ∈ g.values := by
          rw [h1]
          simp only [mem_append] at hv ⊢
          rcases hv with (hv | hv) | hv
          · exact .inr (.inl hv)
          · exact .inl hv
          · exact .inr (.inr hv)
        rcases hcase with hnew | hold
        · rcases h3 with rfl | ⟨w, hw, rfl⟩ | rfl
          · nomatch hnew
          · rw [mem_singleton.mp hnew]
            exact .inr (.inr ⟨tok, mem_cons_self .., hstart, hw⟩)
          · exact .inr (.inl (mem_singleton.mp hnew))
        · exact .inl hold
    · exact .inr (.inl hv)
    · exact .inr (.inr ⟨t, mem_cons_of_mem _ ht, hs⟩)

/-- **Conservation.**  The values hold no more quotes than the grants before and the copied tokens. -/
theorem quotes_values_applyGrants (napi : Bool) (g : Grants) (toks : List Str) : quotesAll lexicon
    (applyGrants napi g toks).values ≤ quotesAll lexicon g.values + quotesAll lexicon
    (toks.filter startsWithPermissionFlag) := by
  fun_induction applyGrants napi g toks with
  | case1 => exact Nat.le_add_right _ _
  | case2 => exact Nat.le_add_right _ _
  | case3 g tok hn w rest =>
    have hsub : ∀ (t : Str) (l : List Str),
        quotesAll lexicon (l.filter startsWithPermissionFlag) ≤
          quotesAll lexicon ((t :: l).filter startsWithPermissionFlag) := by
      intro t l
      rw [filter_cons]
      split
      · rw [quotesAll_cons]; exact Nat.le_add_left _ _
      · exact Nat.le_refl _
    have h1 := hsub w rest
    have h2 := hsub tok (w :: rest)
    omega
  | case4 g tok it hn ih =>
    rcases values_readGrant napi tok g with hsame | ⟨hstart, l₁, l₂, new, h1, h2, h3⟩
    · rw [hsame] at ih ⊢
      rw [filter_cons]
      split
      · rw [quotesAll_cons]; omega
      · exact ih
    · rw [filter_cons_of_pos hstart, quotesAll_cons]
      have hnew : quotesAll lexicon new ≤ quotes lexicon tok := by
        rcases h3 with rfl | ⟨w, ⟨_, hw⟩, rfl⟩ | rfl
        · exact Nat.zero_le _
        · rw [quotesAll_cons, quotesAll_nil, ← hw, quotes_append]
          omega
        · exact Nat.zero_le _
      rw [h2] at ih
      rw [h1]
      simp only [quotesAll_append] at ih ⊢
      omega

/-! ## The appended text -/

theorem isPlainWord_of_mem_flags : ∀ flag ∈ permissionFlagsToCopy, IsPlainWord flag := by decide

theorem quotes_appendedText (g : Grants) : quotes lexicon (appendedText g) = quotesAll lexicon g.values := by
  have hmap : ∀ (arg : Str → Str) (l : List Str),
      (∀ v, quotes lexicon (arg v) = quotes lexicon v) →
      quotesAll lexicon (l.map arg) = quotesAll lexicon l := by
    intro arg l h
    induction l with
    | nil => rfl
    | cons v l ih => rw [map_cons, quotesAll_cons, h, ih, quotesAll_cons]
  have hlist : ∀ flag : String, quotes lexicon flag.toList = 0 →
      ∀ v, quotes lexicon (listArg flag v) = quotes lexicon v := by
    intro flag hflag v
    rw [listArg, quotes_append, hflag, quotes_cons]
    simp [lexicon]
  have hbare : ∀ flag : String, quotes lexicon flag.toList = 0 →
      ∀ v, quotes lexicon (bareListArg flag v) = quotes lexicon v := by
    intro flag hflag v
    unfold bareListArg
    split
    · rename_i hv
      rw [hv, hflag]; rfl
    · exact hlist flag hflag v
  have hflag : ∀ (set : Bool) (flag : String), quotes lexicon flag.toList = 0 →
      quotesAll lexicon (flagArg set flag) = 0 := by
    intro set flag h
    cases set with
    | false => rfl
    | true => simpa [flagArg, quotesAll] using h
  rw [appendedText, quotes_join lexicon (by decide)]
  simp only [permissionArgs, Grants.values, quotesAll_append]
  rw [hmap _ _ (hlist "--allow-fs-read" (by decide)), hmap _ _ (hlist "--allow-fs-write" (by decide)),
    hmap _ _ (hbare "--allow-net" (by decide)), hmap _ _ (hbare "--allow-env" (by decide)),
    hflag _ "--permission" (by decide), hflag _ "--allow-child-process" (by decide),
    hflag _ "--allow-worker" (by decide), hflag _ "--allow-addons" (by decide)]
  omega

theorem split_appendedText (hplain : ∀ v ∈ g.values, IsPlainWord v) :
    splitNodeOptions (appendedText g) = permissionArgs g := by
  refine split_join lexicon (by decide) (fun arg harg => ⟨ne_nil_of_mem_permissionArgs harg, ?_⟩)
  obtain ⟨flag, hflag, rfl | ⟨v, hv, rfl⟩⟩ := mem_permissionArgs harg
  · exact isPlainWord_of_mem_flags _ hflag
  · intro c hc
    rcases mem_append.mp hc with hc | hc
    · exact isPlainWord_of_mem_flags flag hflag c hc
    · rcases mem_cons.mp hc with rfl | hc
      · decide
      · exact hplain v hv c hc

theorem split_childText {current : Str} (hclosed : closed lexicon current) :
    splitNodeOptions (childText g current) = splitNodeOptions current ++ splitNodeOptions (appendedText g) := by
  unfold childText
  split
  · rename_i hc
    subst hc
    rfl
  · exact split_append_blank lexicon hclosed (by decide) _

/-! ## The round trip through a child -/

section RoundTrip

variable {napi : Bool} {g : Grants} {current : Str}

theorem not_startsWith_append_blank {cur : Str} (h : startsWithPermissionFlag cur = false) (z : Str) :
    startsWithPermissionFlag (cur ++ ' ' :: z) = false := by
  have hblank : ∀ flag ∈ permissionFlagsToCopy, ' ' ∉ flag := by decide
  rw [Bool.eq_false_iff, ne_eq, startsWithPermissionFlag_iff] at h ⊢
  rintro ⟨flag, hflag, hpre⟩
  rcases prefix_or_prefix_of_prefix hpre (prefix_append cur (' ' :: z)) with hle | ⟨r, hr⟩
  · exact h ⟨flag, hflag, hle⟩
  · -- the flag goes on behind `cur`, so it would have the blank
    cases r with
    | nil =>
      rw [append_nil] at hr
      exact h ⟨flag, hflag, hr ▸ prefix_refl _⟩
    | cons =>
      rw [← hr, prefix_append_right_inj, cons_prefix_cons] at hpre
      exact hblank flag hflag (by rw [← hr, hpre.1]; simp)

theorem quotes_le_of_roundTrip {quiet more : List Str} (hquiet : ∀ tok ∈ quiet, startsWithPermissionFlag tok = false)
    (h : applyGrants napi {} (quiet ++ more) = g) :
    quotes lexicon (appendedText g) ≤ quotesAll lexicon more := by
  have hle := quotes_values_applyGrants napi {} (quiet ++ more)
  have hnone : quiet.filter startsWithPermissionFlag = [] := by
    rw [filter_eq_nil_iff]
    intro tok htok
    rw [hquiet tok htok]
    exact Bool.false_ne_true
  rw [h, filter_append, hnone, nil_append] at hle
  have hfilter := quotesAll_filter_le lexicon startsWithPermissionFlag more
  have hzero : quotesAll lexicon ({} : Grants).values = 0 := rfl
  rw [quotes_appendedText]
  omega

variable (hperm : g.permission = true) (hflags : ∀ tok ∈ splitNodeOptions current, startsWithPermissionFlag tok = false)

include hperm hflags in
/-- If the grants come back, the caller's text closes its quotes. -/
theorem closed_of_roundTrip (h : applyGrants napi {} (splitNodeOptions (childText g current)) = g) :
    closed lexicon current := by
  by_contra hopen
  rw [Bool.not_eq_true] at hopen
  have hne : current ≠ [] := by rintro rfl; nomatch hopen
  rw [childText, if_neg hne] at h
  obtain ⟨o, cur, z, more, hcur, hsplit, hmore⟩ :=
    split_open lexicon hopen (b := ' ') (by decide) (appendedText g)
  have hcur' : splitNodeOptions current = o ++ [cur] := hcur
  rw [hcur'] at hflags
  -- neither the caller's words nor the one that runs on are read
  have hquiet : ∀ tok ∈ o ++ [cur ++ ' ' :: z], startsWithPermissionFlag tok = false := by
    intro tok htok
    rcases mem_append.mp htok with ht | ht
    · exact hflags tok (mem_append_left _ ht)
    · rw [mem_singleton.mp ht]
      exact not_startsWith_append_blank (hflags cur (by simp)) z
  have hsplit' : splitNodeOptions (current ++ ' ' :: appendedText g) = (o ++ [cur ++ ' ' :: z]) ++ more := by
    rw [splitNodeOptions, hsplit]; simp
  rw [hsplit'] at h
  rcases hmore with rfl | hlt
  · -- nothing is cut behind it: the child has no grant at all
    rw [applyGrants_append_of_not_startsWith napi _ _ _ hquiet] at h
    have hdefault : applyGrants napi {} [] = g := by
      rw [← h]; split <;> rfl
    rw [applyGrants_nil] at hdefault
    rw [← hdefault] at hperm
    nomatch hperm
  · exact absurd (quotes_le_of_roundTrip hquiet h) (Nat.not_le_of_lt hlt)

include hflags in
theorem plain_of_roundTrip (hclosed : closed lexicon current)
    (h : applyGrants napi {} (splitNodeOptions (childText g current)) = g) : ∀ v ∈ g.values, IsPlainWord v := by
  rw [split_childText hclosed] at h
  -- no quote of the appended text delimits, since none is lost: so it has none
  have hquotes : quotes lexicon (appendedText g) = 0 := by
    by_contra hne
    exact absurd (quotes_le_of_roundTrip hflags h) (Nat.not_le_of_lt (split_quotes_lt lexicon hne))
  intro v hv c hc
  constructor
  · have hvq : quotes lexicon v = 0 := by
      have := quotes_le_quotesAll lexicon hv
      rw [← quotes_appendedText, hquotes] at this
      omega
    exact (quotes_eq_zero lexicon).mp hvq c hc
  · -- without quotes no token has a blank, and a value is an end of a token
    rw [← h] at hv
    rcases mem_values_applyGrants {} _ hv with hnil | rfl | ⟨_, htok, hstart, ⟨_, rfl⟩⟩
    · nomatch hnil
    · rw [mem_singleton.mp hc]; decide
    · rcases mem_append.mp htok with ht | ht
      · rw [hflags _ ht] at hstart; nomatch hstart
      · exact split_no_blank lexicon hquotes _ ht c (mem_append_right _ hc)

include hperm hflags in
/-- Plain values come back; the permission bit does unless the caller's last option takes the flag as its value. -/
theorem roundTrip_of_plain (haddons : g.allowAddons → napi) (hclosed : closed lexicon current)
    (hplain : ∀ v ∈ g.values, IsPlainWord v) :
    applyGrants napi {} (splitNodeOptions (childText g current)) =
      if awaitsValue (splitNodeOptions current) then { g with permission := false } else g := by
  rw [split_childText hclosed, applyGrants_append_of_not_startsWith napi _ _ _ hflags, split_appendedText hplain]
  split
  · rw [permissionArgs_of_permission hperm, tail_cons]
    exact applyGrants_permissionArgs (g := { g with permission := false }) haddons
  · exact applyGrants_permissionArgs haddons

end RoundTrip

/-- **When a child runs under its parent's permissions.** With no stray entry, and a caller's `NODE_OPTIONS` that has no
    permission flag: exactly when the grants survive. -/
theorem childGrants_eq_iff (napi : Bool) (f : NodeFlags) (current : Option Str)
    (spawnArgs : List Str) (hperm : f.permission = true) (hstray : strayArgs f = [])
    (haddons : f.allowAddons = true → napi = true) (hspawn : permissionFlag ∉ spawnArgs)
    (hmention : ¬ permissionFlag <:+: current.getD [])
    (hflags : ∀ tok ∈ splitNodeOptions (current.getD []), startsWithPermissionFlag tok = false) :
    childGrants napi f current spawnArgs = some f.toGrants ↔ Survives f.toGrants (current.getD []) := by
  rw [childGrants, permissionNodeOptions_execArgv hperm hstray hspawn hmention, Option.map_some,
    toGrants_applyNodeOptionTokens, Option.some.injEq]
  have hback := roundTrip_of_plain (g := f.toGrants) hperm hflags haddons
  constructor
  · intro h
    have hclosed := closed_of_roundTrip hperm hflags h
    have hplain := plain_of_roundTrip hflags hclosed h
    refine ⟨hclosed, ?_, hplain⟩
    by_contra hawaits
    rw [Bool.not_eq_false] at hawaits
    -- the permission bit would be lost
    have hlost := hback hclosed hplain
    rw [h, if_pos hawaits] at hlost
    have hbit := congrArg Grants.permission hlost
    rw [hperm] at hbit
    nomatch hbit
  · intro hs
    rw [hback hs.closed hs.plain, hs.heard]
    rfl

/-- Plain paths, a bare `--allow-net` and a caller's own options: the child gets the same grants. -/
theorem childGrants_eq_iff_plain :
    childGrants true { permission := true, allowFsRead := ["/srv/data".toList], allowNet := [['*']] }
        (some "--no-warnings --title='a b'".toList) ["app.js".toList] =
      some { permission := true, allowFsRead := ["/srv/data".toList], allowNet := [['*']] } :=
  (childGrants_eq_iff true
      { permission := true, allowFsRead := ["/srv/data".toList], allowNet := [['*']] }
      (some "--no-warnings --title='a b'".toList) ["app.js".toList] rfl rfl (fun h => nomatch h)
      (by decide +kernel) (mt containsText_iff.mpr (by decide +kernel)) (by decide +kernel)).mpr
    ⟨by decide +kernel, by decide +kernel, by decide +kernel⟩

/-- A readable path with a blank in it: the child may read `/a`, and has the network. -/
theorem blank_in_path_grants_net :
    childGrants true { permission := true, allowFsRead := ["/a --allow-net".toList] } none [] =
      some { permission := true, allowFsRead := ["/a".toList], allowNet := [['*']] } := by
  decide +kernel

-- So does a pool size given as a token of its own, when it is spelt like a flag.
example : childGrants true
    { permission := true, v8PoolSize := some "--allow-net".toList, v8PoolSizeSpaced := true } none [] =
      some { permission := true, allowNet := [['*']] } := by
  decide +kernel

end Oam.Cli
