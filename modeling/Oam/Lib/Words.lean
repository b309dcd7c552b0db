/-
  Splitting a line into words at blanks, quotes honoured, over any alphabet (`Lexicon`).  A quote runs to the next
  occurrence of the SAME character; nothing escapes it.  Two kinds of facts:

  * composition — a line whose quotes are closed splits independently of what follows a blank (`split_append_blank`);
  * conservation — a quote character of the line is in a word or delimits one, never both (`split_quotes_lt`).
-/
import Oam.Lib.Text

namespace Words

open List

/-- Which characters quote and which are blank. -/
structure Lexicon (α : Type) where
  isQuote : α → Bool
  isBlank : α → Bool
  /-- No character is both. -/
  disjoint : ∀ c, isBlank c = true → isQuote c = false

/-- The words so far, and the one being read. -/
structure State (α : Type) where
  out : List (List α)
  cur : List α
  quote : Option α
  has : Bool

variable {α : Type}

def init : State α := ⟨[], [], none, false⟩

/-- The end of the line ends the word being read. -/
def finish (s : State α) : List (List α) :=
  if s.has || !s.cur.isEmpty then s.out ++ [s.cur] else s.out

variable {w : List α}

theorem mem_finish {s : State α} (h : w ∈ finish s) : w ∈ s.out ∨ w = s.cur := by
  unfold finish at h
  cases hin : s.has || !s.cur.isEmpty with
  | true => simpa [hin] using h
  | false => exact .inl (by simpa [hin] using h)

variable (L : Lexicon α)

/-! ## Counting quotes -/

/-- The quote characters of a line. -/
def quotes (line : List α) : Nat := line.countP L.isQuote

def quotesAll (words : List (List α)) : Nat := quotes L words.flatten

@[simp] theorem quotes_nil : quotes L [] = 0 := rfl

theorem quotes_cons (c : α) (line : List α) :
    quotes L (c :: line) = (if L.isQuote c then 1 else 0) + quotes L line := by
  simp [quotes, countP_cons, Nat.add_comm]

theorem quotes_append (x y : List α) : quotes L (x ++ y) = quotes L x + quotes L y := by
  simp [quotes, countP_append]

variable {line : List α}

theorem quotes_eq_zero : quotes L line = 0 ↔ ∀ c ∈ line, L.isQuote c = false := by
  simp [quotes, countP_eq_zero]

@[simp] theorem quotesAll_nil : quotesAll L [] = 0 := rfl

theorem quotesAll_cons (w : List α) (ws : List (List α)) : quotesAll L (w :: ws) = quotes L w + quotesAll L ws := by
  rw [quotesAll, flatten_cons, quotes_append, quotesAll]

theorem quotesAll_append (x y : List (List α)) : quotesAll L (x ++ y) = quotesAll L x + quotesAll L y := by
  rw [quotesAll, flatten_append, quotes_append, quotesAll, quotesAll]

variable {ws : List (List α)}

theorem quotes_le_quotesAll (h : w ∈ ws) : quotes L w ≤ quotesAll L ws := by
  induction ws with
  | nil => nomatch h
  | cons v vs ih =>
    rw [quotesAll_cons]
    rcases mem_cons.mp h with rfl | h
    · exact Nat.le_add_right _ _
    · exact Nat.le_trans (ih h) (Nat.le_add_left _ _)

theorem quotesAll_filter_le (p : List α → Bool) (ws : List (List α)) : quotesAll L (ws.filter p) ≤ quotesAll L ws := by
  induction ws with
  | nil => exact Nat.le_refl _
  | cons =>
    rw [filter_cons]
    split
    · rw [quotesAll_cons, quotesAll_cons]; omega
    · rw [quotesAll_cons]; omega

theorem quotes_join {b : α} (hb : L.isBlank b) (ws : List (List α)) :
    quotes L ([b].intercalate ws) = quotesAll L ws := by
  induction ws with
  | nil => rfl
  | cons w ws ih =>
    cases ws with
    | nil => simp [quotesAll]
    | cons =>
      rw [intercalate_cons_cons, quotes_append, quotes_append, ih, quotesAll_cons L w]
      simp [quotes_cons, L.disjoint b hb]

/-- The quote characters of the words so far. -/
def held (s : State α) : Nat := quotesAll L s.out + quotes L s.cur

variable (s : State α)

theorem quotesAll_finish : quotesAll L (finish s) = held L s := by
  obtain ⟨o, cur, _, h⟩ := s
  cases h <;> cases cur <;> simp [finish, held, quotesAll, quotes_append]

/-! ## The pass -/

variable [DecidableEq α]

def step (s : State α) (ch : α) : State α :=
  match s.quote with
  | some q => if ch = q then { s with quote := none } else { s with cur := s.cur ++ [ch] }
  | none =>
    if L.isQuote ch then { s with quote := some ch, has := true }
    else if L.isBlank ch then
      if s.has || !s.cur.isEmpty then { s with out := s.out ++ [s.cur], cur := [], has := false }
      else s
    else { s with cur := s.cur ++ [ch] }

def run (s : State α) (line : List α) : State α := line.foldl (step L) s

/-- The words of a line. -/
def split (line : List α) : List (List α) := finish (run L init line)

/-- Every quote of the line is closed. -/
def closed (line : List α) : Bool := (run L init line).quote.isNone

/-! ## Unfolding the pass -/

@[simp] theorem run_nil : run L s [] = s := rfl

@[simp] theorem run_cons (ch : α) (line : List α) : run L s (ch :: line) = run L (step L s ch) line := rfl

theorem run_append (x y : List α) : run L s (x ++ y) = run L (run L s x) y := by
  simp [run, foldl_append]

variable (o : List (List α))

variable (cur : List α)

theorem step_quoted (q : α) (h : Bool) (ch : α) : step L ⟨o, cur, some q, h⟩ ch =
      if ch = q then ⟨o, cur, none, h⟩ else ⟨o, cur ++ [ch], some q, h⟩ := rfl

variable {ch : α}

theorem step_quote (h : Bool) (hq : L.isQuote ch) : step L ⟨o, cur, none, h⟩ ch = ⟨o, cur, some ch, true⟩ := by
  simp [step, hq]

theorem step_blank (h : Bool) (hb : L.isBlank ch) :
    step L ⟨o, cur, none, h⟩ ch = ⟨finish ⟨o, cur, none, h⟩, [], none, false⟩ := by
  have hq := L.disjoint ch hb
  cases h <;> cases cur <;> simp [step, hq, hb, finish]

theorem step_plain (h : Bool) (hq : L.isQuote ch = false)
    (hb : L.isBlank ch = false) : step L ⟨o, cur, none, h⟩ ch = ⟨o, cur ++ [ch], none, h⟩ := by
  simp [step, hq, hb]

theorem step_frame (ch : α) : step L { s with out := o ++ s.out } ch =
      { step L s ch with out := o ++ (step L s ch).out } := by
  obtain ⟨out, cur, quote, h⟩ := s
  cases quote with
  | some q =>
    show step L ⟨o ++ out, cur, some q, h⟩ ch = _
    rw [step_quoted, step_quoted]
    split <;> rfl
  | none =>
    show step L ⟨o ++ out, cur, none, h⟩ ch = _
    by_cases hq : L.isQuote ch
    · rw [step_quote L _ _ _ hq, step_quote L _ _ _ hq]
    by_cases hb : L.isBlank ch
    · rw [step_blank L _ _ _ hb, step_blank L _ _ _ hb]
      cases h <;> cases cur <;> simp [finish]
    · rw [step_plain L _ _ _ (by simpa using hq) (by simpa using hb),
        step_plain L _ _ _ (by simpa using hq) (by simpa using hb)]

theorem finish_run_frame (line : List α) (s : State α) :
    finish (run L { s with out := o ++ s.out } line) = o ++ finish (run L s line) := by
  induction line generalizing s with
  | nil =>
    cases hin : s.has || !s.cur.isEmpty <;> simp [finish, hin]
  | cons ch line ih => rw [run_cons, run_cons, step_frame, ih]

theorem finish_run_fresh (line : List α) : finish (run L ⟨o, [], none, false⟩ line) = o ++ split L line := by
  have h : finish (run L ⟨o ++ [], [], none, false⟩ line) = o ++ split L line :=
    finish_run_frame L o line init
  rwa [append_nil] at h

/-! ## Composition -/

/-- **Closed lines compose.** -/
theorem split_append_blank {x : List α} (hx : closed L x) {c : α} (hc : L.isBlank c)
    (y : List α) : split L (x ++ c :: y) = split L x ++ split L y := by
  obtain ⟨o, cur, quote, h, hrun⟩ : ∃ o cur quote h, run L init x = ⟨o, cur, quote, h⟩ :=
    ⟨_, _, _, _, rfl⟩
  have hquote : quote = none := by simpa [closed, hrun] using hx
  subst hquote
  have hsplit : split L x = finish ⟨o, cur, none, h⟩ := by rw [split, hrun]
  rw [split, run_append, run_cons, hrun, step_blank L _ _ _ hc, finish_run_fresh, hsplit]

theorem run_plain (hw : ∀ c ∈ w, L.isQuote c = false ∧ L.isBlank c = false) (o : List (List α)) (cur : List α)
    (h : Bool) : run L ⟨o, cur, none, h⟩ w = ⟨o, cur ++ w, none, h⟩ := by
  induction w generalizing cur with
  | nil => simp
  | cons c w ih =>
    obtain ⟨hq, hb⟩ := hw c (mem_cons_self ..)
    rw [run_cons, step_plain L _ _ _ hq hb, ih fun d hd => hw d (mem_cons_of_mem _ hd)]
    simp

theorem split_plain (hne : w ≠ []) (hw : ∀ c ∈ w, L.isQuote c = false ∧ L.isBlank c = false) : split L w = [w] := by
  rw [split, init, run_plain L hw]
  simp [finish, hne]

/-- **Plain words joined by a blank split into themselves.** -/
theorem split_join {c : α} (hc : L.isBlank c)
    (hws : ∀ w ∈ ws, w ≠ [] ∧ ∀ d ∈ w, L.isQuote d = false ∧ L.isBlank d = false) :
    split L ([c].intercalate ws) = ws := by
  induction ws with
  | nil => rfl
  | cons w ws ih =>
    obtain ⟨hne, hplain⟩ := hws w (mem_cons_self ..)
    have ih' := ih fun v hv => hws v (mem_cons_of_mem _ hv)
    by_cases hmore : ws = []
    · rw [hmore, intercalate_singleton, split_plain L hne hplain]
    · rw [intercalate_cons_of_ne_nil hmore, append_assoc, singleton_append,
        split_append_blank L (by rw [closed, init, run_plain L hplain]; rfl) hc, split_plain L hne hplain, ih']
      rfl

/-! ## Conservation of quotes -/

theorem held_step_le (ch : α) : held L (step L s ch) ≤ held L s + if L.isQuote ch then 1 else 0 := by
  obtain ⟨o, _, quote, h⟩ := s
  cases quote with
  | some =>
    rw [step_quoted]
    split
    · exact Nat.le_add_right _ _
    · simp only [held, quotes_append, quotes_cons, quotes_nil]
      omega
  | none =>
    by_cases hq : L.isQuote ch
    · rw [step_quote L _ _ _ hq]
      exact Nat.le_add_right _ _
    by_cases hb : L.isBlank ch
    · rw [step_blank L _ _ _ hb]
      simp only [held, quotesAll_finish, quotes_nil]
      omega
    · rw [step_plain L _ _ _ (by simpa using hq) (by simpa using hb)]
      simp only [held, quotes_append, quotes_cons, quotes_nil]
      omega

theorem held_run_le (line : List α) : held L (run L s line) ≤ held L s + quotes L line := by
  induction line generalizing s with
  | nil => exact Nat.le_add_right _ _
  | cons c line ih =>
    have h1 := held_step_le L s c
    have h2 := ih (step L s c)
    rw [run_cons, quotes_cons]
    omega

theorem held_run_lt (h : Bool) (hline : quotes L line ≠ 0) :
    held L (run L ⟨o, cur, none, h⟩ line) < held L ⟨o, cur, none, h⟩ + quotes L line := by
  induction line generalizing o cur h with
  | nil => exact absurd rfl hline
  | cons c line ih =>
    rw [run_cons]
    by_cases hq : L.isQuote c
    · have hrest := held_run_le L ⟨o, cur, some c, true⟩ line
      rw [step_quote L _ _ _ hq, quotes_cons, if_pos hq]
      simp only [held] at hrest ⊢
      omega
    · rw [quotes_cons, if_neg hq, Nat.zero_add] at hline ⊢
      have hle := held_step_le L ⟨o, cur, none, h⟩ c
      rw [if_neg hq] at hle
      by_cases hb : L.isBlank c
      · rw [step_blank L _ _ _ hb] at hle ⊢
        have := ih (finish ⟨o, cur, none, h⟩) [] false hline
        omega
      · rw [step_plain L _ _ _ (by simpa using hq) (by simpa using hb)] at hle ⊢
        have := ih o (cur ++ [c]) h hline
        omega

theorem split_quotes_le (line : List α) : quotesAll L (split L line) ≤ quotes L line := by
  rw [split, quotesAll_finish]
  simpa [held, init, quotesAll] using held_run_le L init line

/-- **A line with a quote character loses one**: its words hold strictly fewer. -/
theorem split_quotes_lt (h : quotes L line ≠ 0) : quotesAll L (split L line) < quotes L line := by
  rw [split, quotesAll_finish]
  simpa [held, init, quotesAll] using held_run_lt L [] [] false h

theorem split_no_blank (h : quotes L line = 0) : ∀ w ∈ split L line, ∀ c ∈ w, L.isBlank c = false := by
  rw [quotes_eq_zero] at h
  have hrun : ∀ (o : List (List α)) (cur : List α),
      (∀ w ∈ o, ∀ c ∈ w, L.isBlank c = false) → (∀ c ∈ cur, L.isBlank c = false) →
      ∀ w ∈ finish (run L ⟨o, cur, none, false⟩ line), ∀ c ∈ w, L.isBlank c = false := by
    induction line with
    | nil =>
      intro o cur ho hcur w hw
      rcases mem_finish hw with hw | rfl
      · exact ho w hw
      · exact hcur
    | cons c line ih =>
      intro o cur ho hcur
      have hq := h c (mem_cons_self ..)
      have ih' := ih fun d hd => h d (mem_cons_of_mem _ hd)
      rw [run_cons]
      by_cases hb : L.isBlank c
      · rw [step_blank L _ _ _ hb]
        refine ih' _ [] ?_ (by simp)
        intro w hw
        rcases mem_finish hw with hw | rfl
        · exact ho w hw
        · exact hcur
      · rw [step_plain L _ _ _ hq (by simpa using hb)]
        refine ih' o _ ho ?_
        intro d hd
        rcases mem_append.mp hd with hd | hd
        · exact hcur d hd
        · rw [mem_singleton.mp hd]; simpa using hb
  exact hrun [] [] (by simp) (by simp)

/-! ## A quote left open -/

theorem finish_run_in_word (quote : Option α) (line : List α) : ∃ z more, finish
    (run L ⟨o, cur, quote, true⟩ line) = o ++ (cur ++ z) :: more ∧ quotes L z + quotesAll L more ≤ quotes L line := by
  induction line generalizing cur quote with
  | nil => exact ⟨[], [], by simp [finish], by simp [quotesAll]⟩
  | cons c line ih =>
    -- the character joins the word …
    have hjoin : ∀ quote', ∃ z more,
        finish (run L ⟨o, cur ++ [c], quote', true⟩ line) = o ++ (cur ++ z) :: more ∧
          quotes L z + quotesAll L more ≤ quotes L (c :: line) := by
      intro quote'
      obtain ⟨z, more, he, hle⟩ := ih (cur ++ [c]) quote'
      refine ⟨c :: z, more, by simpa using he, ?_⟩
      rw [quotes_cons, quotes_cons]
      omega
    -- … or is a delimiter of it
    have hdrop : ∀ quote', ∃ z more,
        finish (run L ⟨o, cur, quote', true⟩ line) = o ++ (cur ++ z) :: more ∧
          quotes L z + quotesAll L more ≤ quotes L (c :: line) := by
      intro quote'
      obtain ⟨z, more, he, _⟩ := ih cur quote'
      refine ⟨z, more, he, ?_⟩
      rw [quotes_cons]
      omega
    rw [run_cons]
    cases quote with
    | some q =>
      rw [step_quoted]
      split
      · exact hdrop none
      · exact hjoin (some q)
    | none =>
      by_cases hq : L.isQuote c
      · rw [step_quote L _ _ _ hq]
        exact hdrop (some c)
      by_cases hb : L.isBlank c
      · -- … or ends it
        rw [step_blank L _ _ _ hb, finish_run_fresh]
        refine ⟨[], split L line, by simp [finish], ?_⟩
        have := split_quotes_le L line
        rw [quotes_nil, quotes_cons]
        omega
      · rw [step_plain L _ _ _ (by simpa using hq) (by simpa using hb)]
        exact hjoin none

theorem quote_open {q : α} (h : (run L init line).quote = some q) :
    (run L init line).has ∧ L.isQuote q := by
  have hinv : ∀ (line : List α) (s : State α),
      (∀ q, s.quote = some q → s.has ∧ L.isQuote q) →
      ∀ q, (run L s line).quote = some q → (run L s line).has ∧ L.isQuote q := by
    intro line
    induction line with
    | nil => exact fun s hs => hs
    | cons c line ih =>
      intro s hs
      refine ih (step L s c) ?_
      obtain ⟨o, _, quote, h⟩ := s
      intro q hq
      cases quote with
      | some p =>
        obtain ⟨h1, h2⟩ := hs p rfl
        rw [step_quoted] at hq ⊢
        split at hq
        · nomatch hq
        · rename_i hne
          rw [if_neg hne]
          injection hq with hq
          exact ⟨h1, hq ▸ h2⟩
      | none =>
        by_cases hc : L.isQuote c
        · rw [step_quote L _ _ _ hc] at hq ⊢
          injection hq with hq
          exact ⟨rfl, hq ▸ hc⟩
        · by_cases hb : L.isBlank c
          · rw [step_blank L _ _ _ hb] at hq
            nomatch hq
          · rw [step_plain L _ _ _ (by simpa using hc) (by simpa using hb)] at hq
            nomatch hq
  exact hinv line init (by simp [init]) q h

theorem run_quoted {q : α} (h : Bool) {t : List α} (ht : q ∉ t) :
    run L ⟨o, cur, some q, h⟩ t = ⟨o, cur ++ t, some q, h⟩ := by
  induction t generalizing cur with
  | nil => simp
  | cons d t ih =>
    have hdq : d ≠ q := fun he => ht (by simp [he])
    rw [run_cons, step_quoted, if_neg hdq, ih _ fun hm => ht (mem_cons_of_mem _ hm)]
    simp

/-- **A quote left open swallows the blank behind it**, and what is cut after that word holds strictly fewer quotes. -/
theorem split_open {x : List α} (hx : closed L x = false) {b : α} (hb : L.isBlank b) (y : List α) :
    ∃ o cur z more, split L x = o ++ [cur] ∧ split L (x ++ b :: y) = o ++ (cur ++ b :: z) :: more ∧
    (more = [] ∨ quotesAll L more < quotes L y) := by
  obtain ⟨o, cur, quote, h, hrun⟩ : ∃ o cur quote h, run L init x = ⟨o, cur, quote, h⟩ :=
    ⟨_, _, _, _, rfl⟩
  obtain ⟨q, rfl⟩ : ∃ q, quote = some q := by
    cases quote with
    | none => simp [closed, hrun] at hx
    | some q => exact ⟨q, rfl⟩
  obtain ⟨hhas, hq⟩ := quote_open L (show (run L init x).quote = some q by rw [hrun])
  rw [hrun] at hhas
  simp only at hhas
  subst hhas
  have hbq : b ≠ q := fun he => by
    rw [← he, L.disjoint b hb] at hq
    nomatch hq
  have hsplit : split L (x ++ b :: y) = finish (run L ⟨o, cur ++ [b], some q, true⟩ y) := by
    rw [split, run_append, run_cons, hrun, step_quoted, if_neg hbq]
  refine ⟨o, cur, ?_⟩
  have hx' : split L x = o ++ [cur] := by simp [split, hrun, finish]
  by_cases hmem : q ∈ y
  · -- the quote is closed in `y`: up to there `y` joins the word, and that quote is spent
    obtain ⟨pre, rest, rfl, hpre⟩ := eq_append_cons_of_mem hmem
    obtain ⟨z, more, he, _⟩ := finish_run_in_word L o (cur ++ [b] ++ pre) none rest
    refine ⟨pre ++ z, more, hx', ?_, .inr ?_⟩
    · rw [hsplit, run_append, run_quoted L o _ _ hpre, run_cons, step_quoted, if_pos rfl, he]
      simp
    · rw [quotes_append, quotes_cons, if_pos hq]
      omega
  · -- it never is: the whole line is one word
    refine ⟨y, [], hx', ?_, .inl rfl⟩
    rw [hsplit, run_quoted L o _ _ hmem]
    simp [finish]

end Words
