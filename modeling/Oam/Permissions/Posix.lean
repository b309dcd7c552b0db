/-
  `permissions.rs` on POSIX: the fs gate is subtree containment.  Each function is related to the walk of a location
  once (`normalizePath_eq`, `resolveAgainstCwd_spec`), so the gate's verdict is a statement about two locations.  `/` is
  the only separator: a `\` is a character of the name it is in.
-/
import Oam.Lib.PosixPath
import Oam.Permissions.FsKey

namespace Oam.Permissions.Posix

open List Text LexPath PosixPath

/-! ## The program -/

/-- One segment of `normalize_path`'s loop, over the segments kept so far. -/
def normalizeSegment (out : List Str) (seg : Str) : List Str :=
  if seg = [] ∨ seg = ['.'] then out
  else if seg = ['.', '.'] then out.dropLast
  else out ++ [seg]

/-- Lexical resolution of a path for comparison.  A `..` above the root is dropped. -/
def normalizePath (raw : Str) : Str :=
  let joined := ['/'].intercalate ((raw.splitOn '/').foldl normalizeSegment [])
  if hasRoot raw then '/' :: joined else joined

/-- `std::path::absolute` of a path with no root: its components pushed on the cwd, and a trailing separator kept. -/
def absolute (cwd raw : Str) : Str :=
  let components := (raw.splitOn '/').filter fun seg => !seg.isEmpty && seg != ['.']
  let normalized := components.foldl push cwd
  if raw.getLast? = some '/' then push normalized [] else normalized

/-- A rooted path as given; any other against the cwd, which the empty path names. -/
def resolveAgainstCwd (cwd : Option Str) (raw : Str) : Str :=
  if hasRoot raw then raw
  else
    match cwd with
    | none => raw
    | some cwd => if raw = [] then cwd else absolute cwd raw

/-- The key of a path `normalizePath` has resolved. -/
def posixKey (normalized : Str) : FsKey :=
  let (root, rest) :=
    match normalized.dropPrefix? ['/'] with
    | some rest => (['/'], rest)
    | none => ([], normalized)
  ⟨root, (rest.splitOn '/').filter fun part => !part.isEmpty⟩

/-- `fs_entry_key`'s `plain_key`. -/
def plainKey (path : Str) : Option FsKey := if path.isEmpty then none else some (posixKey path)

def fsEntryKey (entry : Str) : Option FsGrant := entryGrant plainKey '/' (normalizePath entry)

def fsTargetKey (cwd : Option Str) (path : Str) : Option FsKey :=
  some (posixKey (normalizePath (resolveAgainstCwd cwd path)))

/-- Entries with no root are resolved once, here; an empty entry stays empty. -/
def fsGrant (cwd : Option Str) (v : BoolOrList) : PermValue :=
  match fromBoolOrList v with
  | .list items =>
    .list (items.map fun entry => if entry.isEmpty then entry else resolveAgainstCwd cwd entry)
  | other => other

/-- `PermValue::allows_fs_path`, `cwd` being the working directory at the moment of the check. -/
def allowsFsPath (cwd : Option Str) (self : PermValue) (target : Str) : Bool :=
  self.allowsFsPath fsEntryKey (fsTargetKey cwd) target

/-! ## The normaliser is the walk -/

theorem normalize_loop_eq (raw : Str) (out : List Str) :
    (raw.splitOn '/').foldl normalizeSegment out = walk out (moves isSep raw) := by
  have hfun : normalizeSegment = fun out seg => step out (classify seg) := by
    funext out seg
    unfold normalizeSegment classify
    split
    · rfl
    · split <;> rfl
  rw [walk, moves, foldl_map, hfun]
  rfl

theorem normalizePath_eq {raw : Str} (h : hasRoot raw) :
    normalizePath raw = '/' :: ['/'].intercalate (rootedLocation raw) := by
  simp [normalizePath, h, normalize_loop_eq, rootedLocation]

/-! ## Keys of rooted texts -/

theorem posixKey_join {parts : List Str} (h : ∀ n ∈ parts, IsName isSep n) :
    posixKey ('/' :: ['/'].intercalate parts) = ⟨['/'], parts⟩ := by
  have hstrip : ('/' :: ['/'].intercalate parts).dropPrefix? ['/'] = some (['/'].intercalate parts) :=
    dropPrefix?_append (p := ['/'])
  simp only [posixKey, hstrip, splitOn_join_filter fun n hn => isName_ne_nil_and_slash (h n hn)]

theorem posixKey_dirs {dir : List Str} (h : ∀ n ∈ dir, IsName isSep n) :
    posixKey ('/' :: dir.flatMap (· ++ ['/'])) = ⟨['/'], dir⟩ := by
  have hstrip : ('/' :: dir.flatMap (· ++ ['/'])).dropPrefix? ['/'] = some (dir.flatMap (· ++ ['/'])) :=
    dropPrefix?_append (p := ['/'])
  simp only [posixKey, hstrip, splitOn_dirs_filter fun n hn => isName_ne_nil_and_slash (h n hn)]

/-- **Entry against target**, both rooted: the entry's location covers the target's. -/
theorem fsEntryKey_admits {entry target : Str} (he : hasRoot entry) (ht : hasRoot target) :
    ((fsEntryKey entry).any fun g => g.admits (posixKey (normalizePath target))) ↔ covers (rootedLocation entry)
    (rootedLocation target) := by
  have htarget : posixKey (normalizePath target) = ⟨['/'], rootedLocation target⟩ := by
    rw [normalizePath_eq ht, posixKey_join fun _ => isName_of_mem_rootedLocation]
  have hmatch : ((entryGrant plainKey '/' ([] ++ ['/'] ++ ['/'].intercalate (rootedLocation entry))).any fun g =>
          g.admits ⟨['/'], rootedLocation target⟩) ↔
      ['/'] = ['/'] ∧ covers (rootedLocation entry) (rootedLocation target) :=
    entryGrant_admits (N := IsName isSep) (fun n hn => (isName_ne_nil_and_slash hn).2) (by decide)
      (by simp) (fun parts hp => congrArg some (posixKey_join hp))
      (fun dir hd => congrArg some (posixKey_dirs hd)) (by simp)
      (fun _ => isName_of_mem_rootedLocation) ⟨['/'], rootedLocation target⟩
  simp only [fsEntryKey, htarget, normalizePath_eq he]
  simpa using hmatch

/-! ## A `*` entry is a text prefix -/

theorem cut_prefix_iff {c : Char} {d n x y : Str} (hd : c ∉ d) (hn : c ∉ n) :
    d ++ c :: x <+: n ++ c :: y ↔ d = n ∧ x <+: y := by
  constructor
  · rintro ⟨t, ht⟩
    have hcut : some (d, x ++ t) = some (n, y) := by
      rw [← splitOnce_append (v := x ++ t) hd, ← splitOnce_append (v := y) hn, ← ht]
      simp
    obtain ⟨rfl, rfl⟩ := Prod.mk.inj (Option.some.inj hcut)
    exact ⟨rfl, prefix_append x t⟩
  · rintro ⟨rfl, t, rfl⟩
    exact ⟨t, by simp⟩

theorem prefix_of_prefix_cut {c : Char} {start n y : Str} (hstart : c ∉ start) (h : start <+: n ++ c :: y) :
    start <+: n := by
  rcases prefix_or_prefix_of_prefix h (prefix_append n (c :: y)) with hp | ⟨k, rfl⟩
  · exact hp
  · rw [prefix_append_right_inj] at h
    cases k with
    | nil => simp
    | cons => exact absurd (by simp [(cons_prefix_cons.mp h).1]) hstart

theorem dirs_prefix_iff {dir loc : List Str} {start : Str} (hdir : ∀ n ∈ dir, '/' ∉ n) (hloc : ∀ n ∈ loc, '/' ∉ n)
    (hstart : '/' ∉ start) : dir.flatMap (· ++ ['/']) ++ start <+: loc.flatMap (· ++ ['/']) ↔ dir <+: loc ∧
    (start = [] ∨ ∃ n, dir ++ [n] <+: loc ∧ start <+: n) := by
  induction dir generalizing loc with
  | nil =>
    cases loc with
    | nil => simp
    | cons n loc =>
      have hone : ∀ m : Str, [m] <+: n :: loc ↔ m = n := by simp [cons_prefix_cons]
      simp only [flatMap_nil, nil_append, nil_prefix, true_and, hone, exists_eq_left,
        flatMap_cons, append_assoc, singleton_append]
      constructor
      · exact fun h => .inr (prefix_of_prefix_cut hstart h)
      · rintro (rfl | h)
        · exact nil_prefix
        · exact h.trans (prefix_append _ _)
  | cons d dir ih =>
    cases loc with
    | nil => simp
    | cons n loc =>
      have ih := @ih loc (fun m hm => hdir m (mem_cons_of_mem d hm)) fun m hm => hloc m (mem_cons_of_mem n hm)
      simp only [flatMap_cons, append_assoc, cons_append, cons_prefix_cons]
      rw [cut_prefix_iff (hdir d mem_cons_self) (hloc n mem_cons_self), nil_append, nil_append, ih]
      simp only [and_assoc, exists_and_left]
      constructor
      · rintro ⟨rfl, hpre, h⟩
        exact ⟨rfl, hpre, h.imp id fun h => ⟨rfl, h⟩⟩
      · rintro ⟨rfl, hpre, h⟩
        exact ⟨rfl, hpre, h.imp id And.right⟩

theorem rooted_prefix_iff {dir loc : List Str} {start : Str} (hdir : ∀ n ∈ dir, n ≠ [] ∧ '/' ∉ n)
    (hloc : ∀ n ∈ loc, '/' ∉ n) (hstart : '/' ∉ start) : '/' :: (dir.flatMap (· ++ ['/']) ++ start) <+: '/' ::
    ['/'].intercalate loc ++ ['/'] ↔ dir <+: loc ∧ (start = [] ∨ ∃ n, dir ++ [n] <+: loc ∧ start <+: n) := by
  rw [cons_append, cons_prefix_cons, and_iff_right rfl]
  cases loc with
  | nil =>
    -- The root is `/`, which a second separator follows; no name starts with one.
    cases dir with
    | nil =>
      cases start with
      | nil => simp
      | cons x => simpa [cons_prefix_cons] using fun h : x = '/' => absurd (by simp [h]) hstart
    | cons d =>
      obtain ⟨x, d, rfl⟩ := exists_cons_of_ne_nil (hdir d mem_cons_self).1
      have hx : x ≠ '/' := fun h => (hdir _ mem_cons_self).2 (by simp [h])
      simp [cons_prefix_cons, hx]
  | cons n loc =>
    have hjoin : ∀ (n : Str) (loc : List Str), ['/'].intercalate (n :: loc) ++ ['/'] = (n :: loc).flatMap (· ++ ['/']) := by
      intro n loc
      induction loc generalizing n with
      | nil => simp
      | cons m loc ih => rw [intercalate_cons_cons, flatMap_cons, ← ih m, append_assoc, append_assoc]
    rw [hjoin]
    exact dirs_prefix_iff (fun m hm => (hdir m hm).2) hloc hstart

theorem head?_normalizePath_ne {raw : Str} (h : hasRoot raw = false) : (normalizePath raw).head? ≠ some '/' := by
  have htext : normalizePath raw = ['/'].intercalate (rootedLocation raw) := by
    simp [normalizePath, h, normalize_loop_eq, rootedLocation]
  have hnames : ∀ n ∈ rootedLocation raw, n ≠ [] ∧ '/' ∉ n := fun n hn =>
    isName_ne_nil_and_slash (isName_of_mem_rootedLocation hn)
  rw [htext]
  cases hloc : rootedLocation raw with
  | nil => simp
  | cons n loc =>
    rw [hloc] at hnames
    obtain ⟨hne, hslash⟩ := hnames n mem_cons_self
    obtain ⟨x, n, rfl⟩ := exists_cons_of_ne_nil hne
    have hx : x ≠ '/' := fun h => hslash (by simp [h])
    cases loc with
    | nil => simpa using hx
    | cons => simpa [intercalate_cons_cons] using hx

theorem root_of_relative {entry : Str} {g : FsGrant} (hstar : '*' ∈ normalizePath entry)
    (hhead : (normalizePath entry).head? ≠ some '/') (hg : fsEntryKey entry = some g) : g.key.root = [] := by
  unfold fsEntryKey entryGrant at hg
  cases hcut : splitOnce '*' (normalizePath entry) with
  | none => exact absurd hstar (splitOnce_eq_none.mp hcut)
  | some p =>
    obtain ⟨before, after⟩ := p
    obtain ⟨htext, -⟩ := splitOnce_eq_some.mp hcut
    rw [hcut] at hg
    cases hdir : rsplitOnce '/' before with
    | none => simp [hdir, plainKey] at hg
    | some q =>
      obtain ⟨u, v⟩ := q
      obtain ⟨rfl, -⟩ := rsplitOnce_eq_some.mp hdir
      simp only [hdir, plainKey, List.isEmpty_iff, append_eq_nil_iff, cons_ne_nil, and_false, if_false,
        Option.map_some, Option.some.injEq] at hg
      subst hg
      cases u with
      | nil => exact absurd (by rw [htext]; rfl) hhead
      | cons x =>
        have hx : x ≠ '/' := fun hx => hhead (by rw [htext, hx]; rfl)
        simp [posixKey, dropPrefix?, hx]

theorem takeWhile_star {u v : Str} (h : '*' ∉ u) : (u ++ '*' :: v).takeWhile (· ≠ '*') = u := by
  rw [takeWhile_append_of_pos]
  · simp
  · rintro c hc
    exact decide_eq_true fun heq => h (heq ▸ hc)

/-- **A `*` grant is a text prefix.** It admits a target whose normalised text, a separator added, starts with its own
    up to the `*`. -/
theorem star_grant_iff_starts_with (cwd : Option Str) (entry target : Str) (hentry : '*' ∈ normalizePath entry)
    (ht : hasRoot target = true) : ((fsEntryKey entry).any fun g => (fsTargetKey cwd target).any g.admits) = true ↔
    '/' ∈ (normalizePath entry).takeWhile (· ≠ '*') ∧ (normalizePath entry).takeWhile (· ≠ '*') <+:
    normalizePath target ++ ['/'] := by
  have hnames : ∀ n ∈ rootedLocation entry, n ≠ [] ∧ '/' ∉ n := fun n hn =>
    isName_ne_nil_and_slash (isName_of_mem_rootedLocation hn)
  have hkey : fsTargetKey cwd target = some (posixKey (normalizePath target)) := by
    simp only [fsTargetKey, resolveAgainstCwd, ht, if_true]
  rw [hkey]
  simp only [Option.any_some]
  cases he : hasRoot entry with
  | true =>
    rw [fsEntryKey, normalizePath_eq he, normalizePath_eq ht, posixKey_join fun _ => isName_of_mem_rootedLocation]
    rw [normalizePath_eq he, mem_cons, or_iff_right (by decide), mem_join (by decide)] at hentry
    obtain ⟨dir, start, rest, post, hd, hdir, hstart⟩ := exists_first_star hentry
    obtain ⟨tail, hjoin⟩ := join_append_cons '/' dir (start ++ '*' :: rest) post
    have hgrant : entryGrant plainKey '/' ([] ++ ['/'] ++ ['/'].intercalate (dir ++ (start ++ '*' :: rest) :: post)) =
        some ⟨⟨['/'], dir⟩, some start⟩ :=
      entryGrant_of_star (N := IsName isSep) (fun n hn => (isName_ne_nil_and_slash hn).2) (by decide)
        (fun dir hd => congrArg some (posixKey_dirs hd)) (by simp)
        (fun n hn => isName_of_mem_rootedLocation (hd ▸ hn)) hdir hstart
    rw [nil_append, singleton_append, ← hd] at hgrant
    rw [hgrant, Option.any_some, FsGrant.admits_star (by simp), and_iff_right rfl]
    rw [hd] at hnames
    have hstartSlash : '/' ∉ start := fun h => (hnames (start ++ '*' :: rest) (by simp)).2 (by simp [h])
    have hbefore : '*' ∉ '/' :: (dir.flatMap (· ++ ['/']) ++ start) := by
      simp only [mem_cons, mem_append, mem_flatMap, not_mem_nil, or_false, not_or, not_exists, not_and]
      exact ⟨by decide, fun n hn => ⟨hdir n hn, by decide⟩, hstart⟩
    have htext : ('/' :: ['/'].intercalate (rootedLocation entry)).takeWhile (· ≠ '*') =
        '/' :: (dir.flatMap (· ++ ['/']) ++ start) := by
      rw [hd, hjoin, ← takeWhile_star (v := rest ++ tail) hbefore]
      simp
    rw [htext, rooted_prefix_iff (fun n hn => hnames n (by simp [hn]))
      (fun n hn => (isName_ne_nil_and_slash (isName_of_mem_rootedLocation hn)).2) hstartSlash,
      and_iff_right mem_cons_self]
  | false =>
    -- A relative entry has no root to share with the target, and its text does not start with a separator.
    have hhead := head?_normalizePath_ne he
    rw [normalizePath_eq ht, posixKey_join fun _ => isName_of_mem_rootedLocation]
    constructor
    · intro h
      cases hg : fsEntryKey entry with
      | none =>
        rw [hg] at h
        cases h
      | some =>
        rw [hg] at h
        have hroot := FsGrant.root_eq_of_admits h
        rw [root_of_relative hentry hhead hg] at hroot
        cases hroot
    · rintro ⟨hslash, hpre⟩
      cases hbefore : (normalizePath entry).takeWhile (· ≠ '*') with
      | nil =>
        rw [hbefore] at hslash
        cases hslash
      | cons =>
        rw [hbefore, cons_append] at hpre
        have htext := takeWhile_append_dropWhile (p := (· ≠ '*')) (l := normalizePath entry)
        rw [hbefore, (cons_prefix_cons.mp hpre).1] at htext
        exact absurd (by rw [← htext]; rfl) hhead

/-- `/box*` reaches the sibling `/boxer`. -/
theorem star_grant_reaches_sibling :
    ((fsEntryKey "/box*/ignored".toList).any fun g => (fsTargetKey none "/tmp/../boxer/x".toList).any g.admits) = true :=
  (star_grant_iff_starts_with none "/box*/ignored".toList "/tmp/../boxer/x".toList (by decide) (by decide)).mpr (by decide)

/-! ## Resolving against the cwd is walking from it -/

theorem components_foldl {cs : List Str} (hcs : ∀ c ∈ cs, ∀ x ∈ c, isSep x = false) : ∀ path : Str, hasRoot path =
    true → hasRoot (cs.foldl push path) ∧ rootedLocation (cs.foldl push path) = walk (rootedLocation path)
    (cs.map classify) := by
  induction cs with
  | nil => exact fun path hp => ⟨hp, rfl⟩
  | cons c cs ih =>
    intro path hp
    have hc := hcs c (mem_cons_self ..)
    have hnr : hasRoot c = false := by
      cases c with
      | nil => rfl
      | cons x =>
        have hx : x ≠ '/' := by simpa [isSep] using hc x (mem_cons_self ..)
        simp [hasRoot, hx]
    obtain ⟨h1, h2⟩ := ih (fun d hd => hcs d (mem_cons_of_mem _ hd)) (push path c)
      (hasRoot_push hp)
    refine ⟨h1, ?_⟩
    rw [foldl_cons, h2, rootedLocation_push hp hnr, moves_of_no_sep hc]
    rfl

theorem walk_filter_segments (loc : List Str) (segs : List Str) : walk loc
    ((segs.filter fun seg => !seg.isEmpty && seg != ['.']).map classify) = walk loc (segs.map classify) := by
  induction segs generalizing loc with
  | nil => rfl
  | cons seg segs ih =>
    by_cases hs : seg = [] ∨ seg = ['.']
    · rw [filter_cons_of_neg (by rcases hs with rfl | rfl <;> simp), ih]
      simp [classify, hs, step]
    · rw [filter_cons_of_pos (by simpa [not_or] using hs)]
      simp [ih]

/-- **Resolving is walking.** With a rooted cwd the location is the one the walk from it reaches. -/
theorem resolveAgainstCwd_spec {cwd : Str} (hcwd : hasRoot cwd) (raw : Str) : hasRoot
    (resolveAgainstCwd (some cwd) raw) ∧ rootedLocation (resolveAgainstCwd (some cwd) raw) = locate cwd raw := by
  unfold resolveAgainstCwd locate
  by_cases hr : hasRoot raw
  · simp [hr]
  simp only [hr, Bool.false_eq_true, if_false]
  split
  · -- the empty path names the cwd itself
    rename_i hnil
    subst hnil
    exact ⟨hcwd, by simp [step]⟩
  · have hsegs : ∀ c ∈ (raw.splitOn '/').filter (fun seg => !seg.isEmpty && seg != ['.']),
        ∀ x ∈ c, isSep x = false :=
      fun c hc => (infix_of_mem_splitOnP (mem_filter.mp hc).1).2
    obtain ⟨h1, h2⟩ := components_foldl hsegs cwd hcwd
    have h3 : rootedLocation (((raw.splitOn '/').filter
          (fun seg => !seg.isEmpty && seg != ['.'])).foldl push cwd) =
        walk (rootedLocation cwd) (moves isSep raw) := by
      rw [h2, walk_filter_segments]; rfl
    simp only [absolute]
    split
    · refine ⟨hasRoot_push h1, ?_⟩
      rw [rootedLocation_push h1 rfl, h3]
      simp [step]
    · exact ⟨h1, h3⟩

/-! ## The gate -/

theorem no_star_of_locate {cwd raw : Str} (hraw : '*' ∉ raw)
    (hcwd : hasRoot raw ∨ '*' ∉ cwd) : ∀ n ∈ locate cwd raw, '*' ∉ n := by
  have hrooted : ∀ path : Str, '*' ∉ path → ∀ n ∈ rootedLocation path, '*' ∉ n := by
    intro path hpath n hn hstar
    rcases mem_walk hn with h | h
    · nomatch h
    · exact hpath (mem_of_mem_moves h _ hstar)
  intro n hn hstar
  unfold locate at hn
  split at hn
  · exact hrooted raw hraw n hn hstar
  · rename_i hr
    rcases mem_walk hn with h | h
    · exact hrooted cwd (hcwd.resolve_left hr) n h hstar
    · exact hraw (mem_of_mem_moves h _ hstar)

/-- **The fs gate, exactly.** A target is admitted iff the location of some entry, read from the startup cwd, covers its
    own, read from the cwd of the moment. -/
theorem allowsFsPath_iff_covered (entries : List Str) (startup cwd target : Str)
    (hs : hasRoot startup = true) (hc : hasRoot cwd = true) :
    (allowsFsPath (some cwd) (fsGrant (some startup) (.list entries)) target = true ↔
      ∃ entry ∈ entries, entry ≠ [] ∧ covers (locate startup entry) (locate cwd target)) ∧
    ((∀ entry ∈ entries, '*' ∉ entry ∧ (hasRoot entry = true ∨ '*' ∉ startup)) →
      (allowsFsPath (some cwd) (fsGrant (some startup) (.list entries)) target = true ↔
        ∃ entry ∈ entries, entry ≠ [] ∧ locate startup entry <+: locate cwd target)) := by
  have hgate : allowsFsPath (some cwd) (fsGrant (some startup) (.list entries)) target = true ↔
      ∃ entry ∈ entries, entry ≠ [] ∧ covers (locate startup entry) (locate cwd target) := by
    cases entries with
    | nil => simp [allowsFsPath, PermValue.allowsFsPath, fsGrant, fromBoolOrList]
    | cons =>
      simp only [allowsFsPath, fsGrant, fromBoolOrList, isEmpty_cons, Bool.false_eq_true,
        if_false, PermValue.allowsFsPath, PermValue.admitsKey, fsTargetKey, Option.any_some,
        any_map, List.any_eq_true, Function.comp_apply]
      obtain ⟨ht1, ht2⟩ := resolveAgainstCwd_spec hc target
      refine exists_congr fun entry => and_congr_right fun _ => ?_
      cases entry with
      | nil => simp [fsEntryKey, entryGrant, plainKey, normalizePath, hasRoot, normalizeSegment, splitOnce]
      | cons a as =>
        obtain ⟨he1, he2⟩ := resolveAgainstCwd_spec hs (a :: as)
        simp only [isEmpty_cons, Bool.false_eq_true, if_false]
        rw [fsEntryKey_admits he1 ht1, he2, ht2]
        simp
  refine ⟨hgate, fun hstar => hgate.trans ?_⟩
  constructor
  · rintro ⟨entry, hmem, hne, hcov⟩
    obtain ⟨h1, h2⟩ := hstar entry hmem
    exact ⟨entry, hmem, hne, (covers_of_no_star (no_star_of_locate h1 h2)).mp hcov⟩
  · rintro ⟨entry, hmem, hne, hpre⟩
    obtain ⟨h1, h2⟩ := hstar entry hmem
    exact ⟨entry, hmem, hne, (covers_of_no_star (no_star_of_locate h1 h2)).mpr hpre⟩

/-- A relative entry stays where startup put it, and a target that climbs out and back in is judged
    where it ends. -/
theorem allowsFsPath_iff_covered_data :
    allowsFsPath (some "/tmp/d".toList) (fsGrant (some "/srv".toList) (.list ["./data/".toList]))
      "../../srv//data/./x".toList = true :=
  ((allowsFsPath_iff_covered ["./data/".toList] "/srv".toList "/tmp/d".toList
      "../../srv//data/./x".toList (by decide) (by decide)).2 (by decide)).mpr
    ⟨"./data/".toList, by decide, by decide, by decide⟩

/-- `.` read from a startup cwd named `/a*b` is a `*` entry, and admits `/axyz`. -/
theorem star_in_startup_cwd_admits_sibling :
    ¬ ∀ (entries : List Str) (startup cwd target : Str), (∀ entry ∈ entries, '*' ∉ entry) →
      hasRoot startup = true → hasRoot cwd = true →
      (allowsFsPath (some cwd) (fsGrant (some startup) (.list entries)) target = true ↔
        ∃ entry ∈ entries, entry ≠ [] ∧ locate startup entry <+: locate cwd target) := by
  intro h
  have hbad := (h [".".toList] "/a*b".toList "/".toList "/axyz".toList (by decide) (by decide)
    (by decide)).mp (by decide)
  revert hbad
  decide

end Oam.Permissions.Posix
