/-
  Lexical paths.  A path is a list of MOVES and denotes the location they lead to (`walk`).  Moves that never climb above
  their start (`staysBelow`) stay inside any base.  The second half reads a TEXT as moves, for any separators.
-/
import Oam.Lib.Text

namespace LexPath

open List Text

section Walk

variable {α : Type}

inductive Move (α : Type) where
  | stay
  | up
  | down (a : α)
deriving DecidableEq, Repr

/-- One move from `loc`.  The root `[]` is its own parent (`[].dropLast = []`). -/
def step (loc : List α) : Move α → List α
  | .stay => loc
  | .up => loc.dropLast
  | .down a => loc ++ [a]

/-- The location reached from `loc` by `ms`. -/
def walk (loc : List α) (ms : List (Move α)) : List α := ms.foldl step loc

@[simp] theorem walk_nil (loc : List α) : walk loc [] = loc := rfl

@[simp] theorem walk_cons (loc : List α) (m : Move α) (ms : List (Move α)) :
    walk loc (m :: ms) = walk (step loc m) ms := rfl

theorem walk_append (loc : List α) (ms ns : List (Move α)) : walk loc (ms ++ ns) = walk (walk loc ms) ns := by
  simp [walk, foldl_append]

variable {ms : List (Move α)}

theorem mem_walk {loc : List α} {a : α} (h : a ∈ walk loc ms) : a ∈ loc ∨ Move.down a ∈ ms := by
  induction ms generalizing loc with
  | nil => exact .inl h
  | cons m ms ih =>
    rcases ih h with hs | hm
    · cases m with
      | stay => exact .inl hs
      | up => exact .inl (dropLast_subset loc hs)
      | down =>
        rcases mem_append.mp hs with hl | hb
        · exact .inl hl
        · rw [mem_singleton.mp hb]; exact .inr (mem_cons_self ..)
    · exact .inr (mem_cons_of_mem m hm)

/-! ## Moves that never climb above their start -/

/-- From depth `d` below some base, `ms` never goes up from the base itself. -/
def staysBelow : Nat → List (Move α) → Bool
  | _, [] => true
  | d, .stay :: ms => staysBelow d ms
  | 0, .up :: _ => false
  | d + 1, .up :: ms => staysBelow d ms
  | d, .down _ :: ms => staysBelow (d + 1) ms

/-- **Below a base, the base does not matter.**  The walk only ever pops what it pushed itself. -/
theorem walk_base_append (base : List α) : ∀ (ms : List (Move α)) (loc : List α), staysBelow loc.length ms →
      walk (base ++ loc) ms = base ++ walk loc ms
  | [], _, _ => rfl
  | .stay :: ms, loc, h => walk_base_append base ms loc (by simpa [staysBelow] using h)
  | .down a :: ms, loc, h => by
    have h' : staysBelow (loc ++ [a]).length ms := by simpa [staysBelow] using h
    simpa [step] using walk_base_append base ms (loc ++ [a]) h'
  | .up :: ms, loc, h => by
    rcases eq_nil_or_concat loc with rfl | ⟨l, a, rfl⟩
    · simp [staysBelow] at h
    · have h' : staysBelow l.length ms := by simpa [staysBelow] using h
      have hw := walk_base_append base ms l h'
      simpa [step, ← append_assoc] using hw

theorem prefix_walk_of_staysBelow (base : List α) (h : staysBelow 0 ms) : base <+: walk base ms :=
  ⟨walk [] ms, by simpa using (walk_base_append base ms [] h).symm⟩

theorem staysBelow_of_append {ns : List (Move α)} {d : Nat} (h : staysBelow d (ms ++ ns)) :
    staysBelow d ms := by
  induction ms generalizing d with
  | nil => rw [staysBelow]
  | cons m ms ih =>
    cases m with
    | stay => exact ih h
    | down => exact ih h
    | up =>
      cases d with
      | zero => exact absurd h (by simp [staysBelow])
      | succ => exact ih h

end Walk

/-! ## Reading a text as moves -/

def classify (s : Str) : Move Str :=
  if s = [] ∨ s = ['.'] then .stay else if s = ['.', '.'] then .up else .down s

/-- The moves of a text whose separators are the characters satisfying `sep`. -/
def moves (sep : Char → Bool) (s : Str) : List (Move Str) := (s.splitOnP sep).map classify

/-- A component a walk can leave in a location: not empty, `.` or `..`, and free of separators. -/
structure IsName (sep : Char → Bool) (s : Str) : Prop where
  ne_nil : s ≠ []
  ne_dot : s ≠ ['.']
  ne_dotdot : s ≠ ['.', '.']
  no_sep : ∀ c ∈ s, sep c = false

variable {sep : Char → Bool}

variable {s : Str}

theorem classify_of_isName (h : IsName sep s) : classify s = .down s := by
  simp [classify, h.ne_nil, h.ne_dot, h.ne_dotdot]

variable {t : Str}

theorem classify_eq_down (h : classify s = .down t) : t = s ∧ s ≠ [] ∧ s ≠ ['.'] ∧ s ≠ ['.', '.'] := by
  unfold classify at h
  split at h
  · nomatch h
  split at h
  · nomatch h
  · rename_i h1 h2
    rw [not_or] at h1
    injection h with h3
    exact ⟨h3.symm, h1.1, h1.2, h2⟩

@[simp] theorem moves_nil : moves sep [] = [.stay] := by simp [moves, classify]

variable {c : Char}

theorem moves_append_cons (hc : sep c) : moves sep (s ++ c :: t) = moves sep s ++ moves sep t := by
  simp [moves, splitOnP_append_cons s t hc]

theorem moves_cons_sep (hc : sep c) : moves sep (c :: t) = .stay :: moves sep t := by
  simpa using moves_append_cons (s := []) (t := t) hc

theorem moves_of_no_sep (h : ∀ c ∈ s, sep c = false) : moves sep s = [classify s] := by
  simp [moves, splitOnP_eq_singleton h]

/-- A segment is a piece of the text without a separator. -/
theorem infix_of_mem_splitOnP {seg : Str} (h : seg ∈ s.splitOnP sep) : seg <:+: s ∧ ∀ c ∈ seg, sep c = false := by
  -- the first segment is even a beginning, so that the character before it joins it
  suffices hall : ∃ first more, s.splitOnP sep = first :: more ∧ first <+: s ∧
      ∀ seg ∈ first :: more, seg <:+: s ∧ ∀ c ∈ seg, sep c = false by
    obtain ⟨first, more, hsplit, -, hsegs⟩ := hall
    exact hsegs seg (hsplit ▸ h)
  clear h
  induction s with
  | nil => exact ⟨[], [], rfl, prefix_rfl, by simp⟩
  | cons x xs ih =>
    obtain ⟨first, more, hsplit, hfirst, hsegs⟩ := ih
    have htail := fun seg hseg => And.imp_left (infix_cons (a := x)) (hsegs seg hseg)
    rw [splitOnP_cons_eq_if_modifyHead, hsplit]
    split
    · have hempty : [] <:+: x :: xs := nil_infix
      exact ⟨[], first :: more, rfl, nil_prefix, forall_mem_cons.mpr ⟨⟨hempty, nofun⟩, htail⟩⟩
    · next hx =>
      have hlonger : x :: first <+: x :: xs := prefix_cons_inj x |>.mpr hfirst
      refine ⟨x :: first, more, rfl, hlonger, forall_mem_cons.mpr
        ⟨⟨hlonger.isInfix, ?_⟩, fun seg hseg => htail seg (.tail _ hseg)⟩⟩
      exact forall_mem_cons.mpr ⟨by simpa using hx, (hsegs first mem_cons_self).2⟩

theorem isName_of_mem_moves (h : Move.down t ∈ moves sep s) : IsName sep t := by
  obtain ⟨seg, hseg, hcl⟩ := mem_map.mp h
  obtain ⟨rfl, h1, h2, h3⟩ := classify_eq_down hcl
  exact ⟨h1, h2, h3, (infix_of_mem_splitOnP hseg).2⟩

/-- … spelt with the text's own characters. -/
theorem mem_of_mem_moves (h : Move.down t ∈ moves sep s) : ∀ c ∈ t, c ∈ s := by
  obtain ⟨seg, hseg, hcl⟩ := mem_map.mp h
  obtain ⟨rfl, -⟩ := classify_eq_down hcl
  exact fun c hc => (infix_of_mem_splitOnP hseg).1.subset hc

/-- **A walked location is made of names.** -/
theorem isName_of_mem_walk {loc : List Str} (hloc : ∀ n ∈ loc, IsName sep n) :
    ∀ n ∈ walk loc (moves sep s), IsName sep n := by
  intro n hn
  rcases mem_walk hn with h | h
  · exact hloc n h
  · exact isName_of_mem_moves h

/-- **Joining is a right inverse of reading**: names joined with a separator walk down to
    themselves. -/
theorem walk_moves_join (loc : List Str) (hc : sep c) : ∀ parts : List Str, (∀ n ∈ parts, IsName sep n) →
      walk loc (moves sep ([c].intercalate parts)) = loc ++ parts
  | [], _ => by simp [step]
  | [n], h => by
    have hn := h n (mem_singleton.mpr rfl)
    simp [moves_of_no_sep hn.no_sep, classify_of_isName hn, step]
  | n :: m :: parts, h => by
    have hn := h n (mem_cons_self ..)
    have ih := walk_moves_join (loc ++ [n]) hc (m :: parts)
      (fun k hk => h k (mem_cons_of_mem _ hk))
    rw [intercalate_cons_cons, append_assoc, singleton_append,
      moves_append_cons hc, moves_of_no_sep hn.no_sep, classify_of_isName hn, walk_append]
    simpa [step] using ih

variable {parts : List Str}

theorem splitOn_join_filter (h : ∀ n ∈ parts, n ≠ [] ∧ c ∉ n) :
    (([c].intercalate parts).splitOn c).filter (fun p => !p.isEmpty) = parts := by
  rcases parts with _ | ⟨n, ns⟩
  · simp
  · rw [splitOn_intercalate c (fun l hl => (h l hl).2) (by simp)]
    apply filter_eq_self.mpr
    intro p hp
    simpa using (h p hp).1

theorem splitOn_dirs_filter {dir : List Str} (h : ∀ n ∈ dir, n ≠ [] ∧ c ∉ n) :
    ((dir.flatMap (· ++ [c])).splitOn c).filter (fun p => !p.isEmpty) = dir := by
  induction dir with
  | nil => simp
  | cons n ns ih =>
    obtain ⟨hne, hc⟩ := h n (mem_cons_self ..)
    rw [flatMap_cons, append_assoc, singleton_append,
      splitOn_append_cons_self_of_not_mem hc, filter_cons_of_pos (by simpa using hne),
      ih fun m hm => h m (mem_cons_of_mem _ hm)]

theorem mem_join {a : Char} (hac : a ≠ c) : a ∈ [c].intercalate parts ↔ ∃ n ∈ parts, a ∈ n := by
  induction parts with
  | nil => simp
  | cons n ns ih =>
    cases ns with
    | nil => simp
    | cons =>
      rw [intercalate_cons_cons, mem_append, mem_append, ih]
      simp [hac]

theorem join_append_cons (c : Char) (dir : List Str) (x : Str) (post : List Str) :
    ∃ tail, [c].intercalate (dir ++ x :: post) = dir.flatMap (· ++ [c]) ++ (x ++ tail) := by
  induction dir with
  | nil =>
    cases post with
    | nil => exact ⟨[], by simp⟩
    | cons y ys => exact ⟨[c] ++ [c].intercalate (y :: ys), by simp [intercalate_cons_cons]⟩
  | cons d ds ih =>
    obtain ⟨tail, ht⟩ := ih
    refine ⟨tail, ?_⟩
    rw [cons_append, intercalate_cons_of_ne_nil (by simp), ht]
    simp

theorem join_concat (c : Char) (hne : parts ≠ []) (n : Str) :
    [c].intercalate (parts ++ [n]) = [c].intercalate parts ++ c :: n := by
  induction parts with
  | nil => exact absurd rfl hne
  | cons p ps ih =>
    cases ps with
    | nil => simp [intercalate_cons_cons]
    | cons =>
      rw [cons_append, intercalate_cons_of_ne_nil (by simp), ih (by simp), intercalate_cons_cons]
      simp

theorem join_eq_nil (h : ∀ n ∈ parts, n ≠ []) : [c].intercalate parts = [] ↔ parts = [] := by
  constructor
  · intro hj
    cases parts with
    | nil => rfl
    | cons p ps =>
      obtain ⟨tail, ht⟩ := join_append_cons c [] p ps
      rw [nil_append] at ht
      rw [ht] at hj
      have hp : p = [] := by
        simp only [flatMap_nil, nil_append, append_eq_nil_iff] at hj
        exact hj.1
      exact absurd hp (h p (mem_cons_self ..))
  · rintro rfl; rfl

end LexPath
