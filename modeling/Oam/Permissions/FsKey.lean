/-
  `permissions.rs`, the part both platforms share: how an fs grant is MATCHED.  What a platform adds is how a text is
  resolved and how a resolved text is read as a key; `entryGrant_admits` holds whatever its roots look like.
-/
import Oam.Lib.LexPath

namespace Oam.Permissions

open List Text LexPath

/-! ## Keys and grants -/

/-- A path as the fs grants compare it: its root, then its components, each compared exactly. -/
structure FsKey where
  /-- `/`, `C:` or `\\server\share`; empty for a POSIX path that stayed relative. -/
  root : Str
  parts : List Str
deriving DecidableEq, Repr

/-- Whether this entry key admits `target`.  A key with no root and no components admits nothing. -/
def FsKey.admits (self target : FsKey) : Bool :=
  if self.root = [] ∧ self.parts = [] then false
  else self.root == target.root && self.parts.isPrefixOf target.parts

structure FsGrant where
  /-- The entry's path, or for a `*` entry the directory its text before the `*` ends in. -/
  key : FsKey
  /-- For a `*` entry, what the next component of an admitted path must start with. -/
  star : Option Str
deriving DecidableEq, Repr

def FsGrant.admits (self : FsGrant) (target : FsKey) : Bool :=
  match self.star with
  | none => self.key.admits target
  | some start =>
    if self.key.root = [] ∧ self.key.parts = [] then false
    else
      self.key.root == target.root && self.key.parts.isPrefixOf target.parts && (start.isEmpty ||
          target.parts[self.key.parts.length]?.any fun part => start.isPrefixOf part)

/-- `fs_entry_key` after the platform has resolved the entry: the text before the first `*` is cut AFTER its last
    separator. -/
def entryGrant (plainKey : Str → Option FsKey) (sep : Char) (resolved : Str) : Option FsGrant :=
  match splitOnce '*' resolved with
  | none => (plainKey resolved).map fun key => ⟨key, none⟩
  | some (before, _) =>
    let (dir, start) :=
      match rsplitOnce sep before with
      | some (u, v) => (u ++ [sep], v)
      | none => ([], before)
    (plainKey dir).map fun key => ⟨key, some start⟩

/-- The setting of one fs category (`PermValue`). -/
inductive PermValue where
  | all
  | none
  | list (items : List Str)
deriving DecidableEq, Repr

/-- A setting as the configuration spells it (`BoolOrList`). -/
inductive BoolOrList where
  | bool (b : Bool)
  | list (items : List Str)
deriving DecidableEq, Repr

/-- An empty list is a refusal, not a list. -/
def fromBoolOrList : BoolOrList → PermValue
  | .bool true => .all
  | .bool false => .none
  | .list items => if items.isEmpty then .none else .list items

namespace PermValue

/-- Whether a list entry admits the target key, the platform reading entries by `fsEntryKey`. -/
def admitsKey (fsEntryKey : Str → Option FsGrant) (self : PermValue) (target : FsKey) : Bool :=
  match self with
  | .all => true
  | .none => false
  | .list items => items.any fun item => (fsEntryKey item).any fun entry => entry.admits target

/-- The fs match for a target exactly as the OS is handed it, the platform reading targets by
    `fsTargetKey`. -/
def allowsFsPath (fsEntryKey : Str → Option FsGrant) (fsTargetKey : Str → Option FsKey)
    (self : PermValue) (target : Str) : Bool :=
  match self with
  | .all => true
  | .none => false
  | .list _ => (fsTargetKey target).any fun t => self.admitsKey fsEntryKey t

end PermValue

/-! ## What a grant covers -/

/-- What the grant of a location `d` reaches: with no `*`, `d` and all below it; else what starts as `d` does up to its
    first `*`. -/
def covers (d loc : List Str) : Prop :=
  ((∀ n ∈ d, '*' ∉ n) ∧ d <+: loc) ∨
  ∃ dir start rest post, d = dir ++ (start ++ '*' :: rest) :: post ∧ (∀ n ∈ dir, '*' ∉ n) ∧
    '*' ∉ start ∧ dir <+: loc ∧ (start = [] ∨ ∃ n, dir ++ [n] <+: loc ∧ start <+: n)

theorem covers_of_no_star {d loc : List Str} (h : ∀ n ∈ d, '*' ∉ n) : covers d loc ↔ d <+: loc := by
  constructor
  · rintro (⟨-, hp⟩ | ⟨_, start, rest, _, rfl, -, -, -⟩)
    · exact hp
    · exact absurd (by simp) (h (start ++ '*' :: rest) (by simp))
  · exact fun hp => .inl ⟨h, hp⟩

theorem exists_first_star {d : List Str} (h : ∃ n ∈ d, '*' ∈ n) : ∃ dir start rest post, d = dir ++
    (start ++ '*' :: rest) :: post ∧ (∀ n ∈ dir, '*' ∉ n) ∧ '*' ∉ start := by
  induction d with
  | nil => obtain ⟨n, hn, -⟩ := h; nomatch hn
  | cons x xs ih =>
    by_cases hx : '*' ∈ x
    · -- the first name has it: cut that name at its first `*`
      cases hs : splitOnce '*' x with
      | none => exact absurd hx (splitOnce_eq_none.mp hs)
      | some p =>
        obtain ⟨he, hn⟩ := splitOnce_eq_some.mp hs
        exact ⟨[], p.1, p.2, xs, by simp [he], by simp, hn⟩
    · have h' : ∃ n ∈ xs, '*' ∈ n := by
        obtain ⟨n, hn, hmem⟩ := h
        rcases mem_cons.mp hn with rfl | hn
        · exact absurd hmem hx
        · exact ⟨n, hn, hmem⟩
      obtain ⟨dir, start, rest, post, rfl, hdir, hstart⟩ := ih h'
      refine ⟨x :: dir, start, rest, post, rfl, ?_, hstart⟩
      intro n hn
      rcases mem_cons.mp hn with rfl | hn
      · exact hx
      · exact hdir n hn

theorem next_part_any {dir loc : List Str} (hdir : dir <+: loc) (start : Str) :
    (loc[dir.length]?.any fun part => start.isPrefixOf part) ↔ ∃ n, dir ++ [n] <+: loc ∧ start <+: n := by
  obtain ⟨r, rfl⟩ := hdir
  cases r with
  | nil =>
    have hlong : ∀ n : Str, ¬ dir ++ [n] <+: dir ++ [] := fun n => by
      rw [prefix_append_right_inj]; simp
    simp [-append_nil, hlong]
  | cons x xs =>
    have hone : ∀ n : Str, dir ++ [n] <+: dir ++ x :: xs ↔ n = x := fun n => by
      simp [prefix_append_right_inj]
    simp [hone]

/-! ## Matching is covering -/

section Admits

variable {plainKey : Str → Option FsKey} {sep : Char} {rootDir root : Str} {N : Str → Prop}

theorem FsGrant.root_eq_of_admits {g : FsGrant} {target : FsKey} (h : g.admits target) :
    g.key.root = target.root := by
  unfold FsGrant.admits FsKey.admits at h
  split at h <;> split at h <;> simp_all

theorem FsGrant.admits_star {root start : Str} (hroot : root ≠ []) (dir : List Str) (target : FsKey) :
    FsGrant.admits ⟨⟨root, dir⟩, some start⟩ target ↔
      root = target.root ∧ dir <+: target.parts ∧ (start = [] ∨ ∃ n, dir ++ [n] <+: target.parts ∧ start <+: n) := by
  simp only [FsGrant.admits, hroot, false_and, if_false, Bool.and_eq_true, beq_iff_eq,
    isPrefixOf_iff_prefix, Bool.or_eq_true, List.isEmpty_iff]
  constructor
  · rintro ⟨⟨h1, h2⟩, h3⟩
    exact ⟨h1, h2, h3.imp id (next_part_any h2 start).mp⟩
  · rintro ⟨h1, h2, h3⟩
    exact ⟨⟨h1, h2⟩, h3.imp id (next_part_any h2 start).mpr⟩

theorem entryGrant_of_star (hN : ∀ n, N n → sep ∉ n) (hsep : sep ≠ '*') (hdir : ∀ dir : List Str, (∀ n ∈ dir, N n) →
      plainKey (rootDir ++ [sep] ++ dir.flatMap (· ++ [sep])) = some ⟨root, dir⟩)
    (hstar : '*' ∉ rootDir) {dir post : List Str} {start rest : Str}
    (hnames : ∀ n ∈ dir ++ (start ++ '*' :: rest) :: post, N n)
    (hdirStar : ∀ n ∈ dir, '*' ∉ n) (hstartStar : '*' ∉ start) :
    entryGrant plainKey sep
        (rootDir ++ [sep] ++ [sep].intercalate (dir ++ (start ++ '*' :: rest) :: post)) =
      some ⟨⟨root, dir⟩, some start⟩ := by
  obtain ⟨tail, ht⟩ := join_append_cons sep dir (start ++ '*' :: rest) post
  have hstartSep : sep ∉ start := fun h => hN _ (hnames (start ++ '*' :: rest) (by simp)) (by simp [h])
  -- first cut: everything up to `start` is free of `*`
  have hbefore : '*' ∉ rootDir ++ [sep] ++ dir.flatMap (· ++ [sep]) ++ start := by
    simp only [mem_append, mem_singleton, mem_flatMap, not_or, not_exists, not_and]
    exact ⟨⟨⟨hstar, Ne.symm hsep⟩, fun n hn => ⟨hdirStar n hn, Ne.symm hsep⟩⟩, hstartStar⟩
  have hcut : splitOnce '*'
      (rootDir ++ [sep] ++ [sep].intercalate (dir ++ (start ++ '*' :: rest) :: post)) =
        some (rootDir ++ [sep] ++ dir.flatMap (· ++ [sep]) ++ start, rest ++ tail) := by
    rw [ht]
    simpa using splitOnce_append (v := rest ++ tail) hbefore
  -- second cut: the directory's text ends in a separator, `start` has none
  obtain ⟨u, hu⟩ : ∃ u, rootDir ++ [sep] ++ dir.flatMap (· ++ [sep]) = u ++ [sep] := by
    rcases eq_nil_or_concat dir with rfl | ⟨ds, d, rfl⟩
    · exact ⟨rootDir, by simp⟩
    · exact ⟨rootDir ++ [sep] ++ ds.flatMap (· ++ [sep]) ++ d, by simp⟩
  have hrcut : rsplitOnce sep (rootDir ++ [sep] ++ dir.flatMap (· ++ [sep]) ++ start) = some (u, start) := by
    rw [hu]
    simpa using rsplitOnce_append (u := u) hstartSep
  have hkey := hdir dir fun n hn => hnames n (by simp [hn])
  rw [hu] at hkey
  simp only [entryGrant, hcut, hrcut, hkey, Option.map_some]

/-- **Matching is covering.** Where `plainKey` reads the text of a location as its components, the grant read from the
    text of `d` admits what `d` covers. -/
theorem entryGrant_admits (hN : ∀ n, N n → sep ∉ n) (hsep : sep ≠ '*') (hroot : root ≠ [])
    (hkey : ∀ parts : List Str, (∀ n ∈ parts, N n) →
      plainKey (rootDir ++ [sep] ++ [sep].intercalate parts) = some ⟨root, parts⟩)
    (hdir : ∀ dir : List Str, (∀ n ∈ dir, N n) →
      plainKey (rootDir ++ [sep] ++ dir.flatMap (· ++ [sep])) = some ⟨root, dir⟩)
    (hstar : '*' ∉ rootDir) {d : List Str} (hd : ∀ n ∈ d, N n) (target : FsKey) :
    (entryGrant plainKey sep (rootDir ++ [sep] ++ [sep].intercalate d)).any
        (fun g => g.admits target) ↔
      root = target.root ∧ covers d target.parts := by
  by_cases hs : ∃ n ∈ d, '*' ∈ n
  · obtain ⟨dir, start, rest, post, rfl, hdirStar, hstartStar⟩ := exists_first_star hs
    rw [entryGrant_of_star hN hsep hdir hstar hd hdirStar hstartStar]
    rw [Option.any_some, FsGrant.admits_star hroot]
    constructor
    · rintro ⟨h1, h2, h3⟩
      exact ⟨h1, .inr ⟨dir, start, rest, post, rfl, hdirStar, hstartStar, h2, h3⟩⟩
    · rintro ⟨h1, ⟨hno, -⟩ | ⟨_, _, _, _, he, hdir', hstart', h2, h3⟩⟩
      · exact absurd (by simp) (hno (start ++ '*' :: rest) (by simp))
      · -- the cut at the first `*` is unique: both readings give one and the same grant
        have hg := entryGrant_of_star hN hsep hdir hstar (he ▸ hd) hdir' hstart'
        rw [← he, entryGrant_of_star hN hsep hdir hstar hd hdirStar hstartStar] at hg
        injection hg with hg
        injection hg with hk hst
        injection hk with _ hk
        injection hst with hst
        subst hk hst
        exact ⟨h1, h2, h3⟩
  · have hno : ∀ n ∈ d, '*' ∉ n := fun n hn hmem => hs ⟨n, hn, hmem⟩
    have hnone : splitOnce '*' (rootDir ++ [sep] ++ [sep].intercalate d) = none := by
      rw [splitOnce_eq_none, mem_append, mem_append, mem_join (Ne.symm hsep)]
      simp only [mem_singleton, not_or, not_exists, not_and]
      exact ⟨⟨hstar, Ne.symm hsep⟩, hno⟩
    rw [covers_of_no_star hno]
    simp only [entryGrant, hnone, hkey d hd, Option.map_some, Option.any_some, FsGrant.admits]
    simp [FsKey.admits, hroot]

end Admits

end Oam.Permissions
