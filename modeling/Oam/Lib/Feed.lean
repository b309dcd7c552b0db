/-
  Loops that read a buffer from its front, and where the buffer is cut.

  An incremental parser is called with one buffer after the other.  Each call runs a loop; a turn of the loop looks at
  the next symbol, and a FAST turn also runs over the symbols behind it, up to the end of the buffer.  That end is where
  cuts could show.  States are compared through a `view`, and calls after `join`, which may merge neighbours.
-/
import Mathlib.Data.List.Basic

namespace Feed

open List

variable {σ β κ ν : Type}

/-! ## Data -/

inductive Turn (σ κ : Type) where
  | next (s : σ) (read : Nat) (calls : List κ)
  | halt (s : σ) (calls : List κ)

def Turn.map (f : σ → ν) : Turn σ κ → Turn ν κ
  | .next s read calls => .next (f s) read calls
  | .halt s calls => .halt (f s) calls

/-! ## Program -/

section Program

variable (turn : σ → β → List β → Turn σ κ)

/-- The loop over one buffer; `none` is a loop that is still going after `fuel` turns. -/
def loop : Nat → σ → List β → Option (σ × List κ)
  | _, s, [] => some (s, [])
  | 0, _, _ :: _ => none
  | fuel + 1, s, b :: tail =>
    match turn s b tail with
    | .halt s' calls => some (s', calls)
    | .next s' read calls =>
      (loop fuel s' ((b :: tail).drop read)).map fun r => (r.1, calls ++ r.2)

inductive Runs : σ → List β → σ → List κ → Prop
  | nil {s : σ} : Runs s [] s []
  | halt {s s' : σ} {b : β} {tail : List β} {calls : List κ} (hturn : turn s b tail = .halt s' calls) :
      Runs s (b :: tail) s' calls
  | next {s s' w : σ} {b : β} {tail : List β} {read : Nat} {calls more : List κ}
      (hturn : turn s b tail = .next s' read calls) (hrest : Runs s' ((b :: tail).drop read) w more) :
      Runs s (b :: tail) w (calls ++ more)

end Program

def feed (call : σ → List β → Option (σ × List κ)) : σ → List (List β) → Option (σ × List κ)
  | s, [] => some (s, [])
  | s, buf :: bufs =>
    (call s buf).bind fun r => (feed call r.1 bufs).map fun q => (q.1, r.2 ++ q.2)

/-! ## The loop ends -/

/-- A turn that reads nothing lowers a rank, which is bounded. -/
structure Ranked (turn : σ → β → List β → Turn σ κ) (rank : σ → β → Nat) (bound : Nat) : Prop where
  lt : ∀ s b, rank s b < bound
  next : ∀ {s b tail s' read calls}, turn s b tail = .next s' read calls →
    read ≤ tail.length + 1 ∧ (read = 0 → rank s' b < rank s b)

def turnsLeft (rank : σ → β → Nat) (bound : Nat) (s : σ) : List β → Nat
  | [] => 0
  | b :: tail => bound * tail.length + rank s b + 1

namespace Ranked

variable {turn : σ → β → List β → Turn σ κ} {rank : σ → β → Nat} {bound : Nat}

theorem turnsLeft_le (h : Ranked turn rank bound) (s : σ) (l : List β) :
    turnsLeft rank bound s l ≤ bound * l.length := by
  cases l with
  | nil => exact Nat.zero_le _
  | cons b =>
    have hlt := h.lt s b
    rw [turnsLeft, length_cons, Nat.mul_add, Nat.mul_one]
    omega

theorem turnsLeft_lt (h : Ranked turn rank bound) {s s' : σ} {b : β} {tail : List β} {read : Nat}
    {calls : List κ} (hturn : turn s b tail = .next s' read calls) :
    turnsLeft rank bound s' ((b :: tail).drop read) < turnsLeft rank bound s (b :: tail) := by
  obtain ⟨hread, hrank⟩ := h.next hturn
  cases read with
  | zero =>
    have hless := hrank rfl
    rw [drop_zero, turnsLeft, turnsLeft]
    omega
  | succ n =>
    have hle := h.turnsLeft_le s' (tail.drop n)
    have hshort : bound * (tail.drop n).length ≤ bound * tail.length :=
      Nat.mul_le_mul_left _ (by rw [length_drop]; omega)
    rw [drop_succ_cons, turnsLeft]
    omega

theorem loop_runs (h : Ranked turn rank bound) {fuel : Nat} {s : σ} {l : List β}
    (hfuel : turnsLeft rank bound s l ≤ fuel) :
    ∃ w calls, loop turn fuel s l = some (w, calls) ∧ Runs turn s l w calls := by
  induction fuel generalizing s l with
  | zero =>
    cases l with
    | nil => exact ⟨s, [], rfl, .nil⟩
    | cons => exact absurd hfuel (by rw [turnsLeft]; omega)
  | succ fuel ih =>
    cases l with
    | nil => exact ⟨s, [], rfl, .nil⟩
    | cons b tail =>
      cases hturn : turn s b tail with
      | halt s' calls => exact ⟨s', calls, by rw [loop, hturn], .halt hturn⟩
      | next s' read calls =>
        have hless := h.turnsLeft_lt hturn
        obtain ⟨w, more, hloop, hruns⟩ := ih (Nat.le_of_lt_succ (Nat.lt_of_lt_of_le hless hfuel))
        refine ⟨w, calls ++ more, ?_, .next hturn hruns⟩
        rw [loop, hturn]
        simp only [hloop, Option.map_some]

end Ranked

theorem Runs.det {turn : σ → β → List β → Turn σ κ} {s w w' : σ} {l : List β} {calls calls' : List κ}
    (h : Runs turn s l w calls) (h' : Runs turn s l w' calls') : w = w' ∧ calls = calls' := by
  induction h generalizing w' calls' with
  | nil =>
    cases h'
    exact ⟨rfl, rfl⟩
  | halt hturn =>
    cases h' with
    | halt hturn' =>
      rw [hturn] at hturn'
      cases hturn'
      exact ⟨rfl, rfl⟩
    | next hturn' =>
      rw [hturn] at hturn'
      cases hturn'
  | next hturn _ ih =>
    cases h' with
    | halt hturn' =>
      rw [hturn] at hturn'
      cases hturn'
    | next hturn' hrest' =>
      rw [hturn] at hturn'
      cases hturn'
      obtain ⟨rfl, rfl⟩ := ih hrest'
      exact ⟨rfl, rfl⟩

theorem Ranked.loop_eq {turn : σ → β → List β → Turn σ κ} {rank : σ → β → Nat} {bound : Nat}
    (h : Ranked turn rank bound) {fuel : Nat} {s w : σ} {l : List β} {calls : List κ}
    (hfuel : bound * l.length ≤ fuel) : loop turn fuel s l = some (w, calls) ↔ Runs turn s l w calls := by
  obtain ⟨w', calls', hloop, hruns⟩ := h.loop_runs (Nat.le_trans (h.turnsLeft_le s l) hfuel)
  constructor
  · intro heq
    rw [hloop] at heq
    cases heq
    exact hruns
  · intro hruns'
    obtain ⟨rfl, rfl⟩ := hruns.det hruns'
    exact hloop

/-! ## Cuts -/

/-- After a turn that read `n` symbols, the turn `second` does what the turn `whole` did at once. -/
def Continues (view : σ → ν) (join : List κ → List κ) (whole : Turn σ κ) (n : Nat) (first : List κ) : Turn σ κ → Prop
  | .next s read calls => ∃ s' calls', whole = .next s' (n + read) calls' ∧ view s' = view s ∧
      join calls' = join (first ++ calls)
  | .halt s calls => ∃ s' calls', whole = .halt s' calls' ∧ view s' = view s ∧ join calls' = join (first ++ calls)

/-- What a turn has to keep to for cuts not to matter; a cut is `clean` by the state it leaves and the symbol behind it.
    One that leaves a `spent` state hides an end that a turn over both buffers comes to, with the view `failed`. -/
structure Cuttable (turn : σ → β → List β → Turn σ κ) (view : σ → ν) (join : List κ → List κ)
    (fine : κ → Prop) (good : σ → Prop) (dead : σ → Prop) (clean spent : σ → β → Prop) (failed : ν) : Prop where
  view_turn : ∀ {s s'} b tail, view s = view s' → (turn s b tail).map view = (turn s' b tail).map view
  cut : ∀ s b tail c more, turn s b (tail ++ c :: more) = turn s b tail ∨
    ∃ s₁ calls₁, turn s b tail = .next s₁ (tail.length + 1) calls₁ ∧
      (clean s₁ c → Continues view join (turn s b (tail ++ c :: more)) (tail.length + 1) calls₁
        (turn s₁ c more)) ∧
      (spent s₁ c → ∃ w calls, turn s b (tail ++ c :: more) = .halt w calls ∧ view w = failed ∧ join calls = join calls₁)
  next : ∀ {s b tail s' read calls}, turn s b tail = .next s' read calls →
    read ≤ tail.length + 1 ∧ ¬ dead s' ∧ (good s → (∀ k ∈ calls, fine k) → good s')
  halt : ∀ {s b tail s' calls}, turn s b tail = .halt s' calls → good s → (∀ k ∈ calls, fine k) → dead s'
  join_append : ∀ {x x' y y'}, join x = join x' → join y = join y' → join (x ++ y) = join (x' ++ y')
  join_fine : ∀ {x y}, join x = join y → (∀ k ∈ x, fine k) → ∀ k ∈ y, fine k

namespace Cuttable

variable {turn : σ → β → List β → Turn σ κ} {view : σ → ν} {join : List κ → List κ} {fine : κ → Prop}
  {good dead : σ → Prop} {clean spent : σ → β → Prop} {failed : ν}

variable (h : Cuttable turn view join fine good dead clean spent failed)

include h

theorem runs_view {s s' w : σ} {l : List β} {calls : List κ}
    (hruns : Runs turn s l w calls) (hview : view s = view s') : ∃ w', Runs turn s' l w' calls ∧ view w' = view w := by
  induction hruns generalizing s' with
  | nil => exact ⟨s', .nil, hview.symm⟩
  | @halt s w b tail calls hturn =>
    have hmap := h.view_turn b tail hview
    rw [hturn] at hmap
    cases hturn' : turn s' b tail with
    | next =>
      rw [hturn'] at hmap
      cases hmap
    | halt s₂ =>
      rw [hturn', Turn.map, Turn.map, Turn.halt.injEq] at hmap
      obtain ⟨hsame, rfl⟩ := hmap
      exact ⟨s₂, .halt hturn', hsame.symm⟩
  | @next s s₁ w b tail read calls more hturn _ ih =>
    have hmap := h.view_turn b tail hview
    rw [hturn] at hmap
    cases hturn' : turn s' b tail with
    | halt =>
      rw [hturn'] at hmap
      cases hmap
    | next =>
      rw [hturn', Turn.map, Turn.map, Turn.next.injEq] at hmap
      obtain ⟨hsame, rfl, rfl⟩ := hmap
      obtain ⟨w', hruns', hw⟩ := ih hsame
      exact ⟨w', .next hturn' hruns', hw⟩

/-- What a second buffer adds to a run over the first one, so that together they come to `w` and `calls`; behind a
    spent state, it has nothing to add. -/
def Resumes (turn : σ → β → List β → Turn σ κ) (view : σ → ν) (join : List κ → List κ) (good dead : σ → Prop)
    (spent : σ → β → Prop) (failed : ν) (w : σ) (calls : List κ) (s₁ : σ) (calls₁ : List κ) (b : List β) : Prop :=
  (dead s₁ ∧ view s₁ = view w ∧ calls = calls₁) ∨
    (¬ dead s₁ ∧ good s₁ ∧ ((∃ w₂ calls₂, Runs turn s₁ b w₂ calls₂ ∧ view w₂ = view w ∧
      join calls = join (calls₁ ++ calls₂)) ∨ (∃ c ∈ b.head?, spent s₁ c) ∧ view w = failed ∧ join calls = join calls₁))

theorem resumes_through {s w s₁ : σ} {x c : β} {a more : List β}
    {calls calls₁ : List κ} (hgood : good s) (hfirst : turn s x a = .next s₁ (a.length + 1) calls₁)
    (hgoes : Continues view join (turn s x (a ++ c :: more)) (a.length + 1) calls₁ (turn s₁ c more))
    (hruns : Runs turn s (x :: (a ++ c :: more)) w calls) (hfine : ∀ k ∈ calls, fine k) :
    Resumes turn view join good dead spent failed w calls s₁ calls₁ (c :: more) := by
  obtain ⟨-, halive, hkeeps⟩ := h.next hfirst
  cases hsecond : turn s₁ c more with
  | halt s₂ calls₂ =>
    rw [hsecond] at hgoes
    obtain ⟨s', calls', hwhole, hview, hjoin⟩ := hgoes
    cases hruns with
    | next hturn =>
      rw [hwhole] at hturn
      cases hturn
    | halt hturn =>
      rw [hwhole] at hturn
      cases hturn
      have hgood₁ : good s₁ :=
        hkeeps hgood fun k hk => h.join_fine hjoin hfine k (mem_append_left _ hk)
      exact .inr ⟨halive, hgood₁, .inl ⟨s₂, calls₂, .halt hsecond, hview.symm, hjoin⟩⟩
  | next s₂ read calls₂ =>
    rw [hsecond] at hgoes
    obtain ⟨s', calls', hwhole, hview, hjoin⟩ := hgoes
    cases hruns with
    | halt hturn =>
      rw [hwhole] at hturn
      cases hturn
    | @next _ _ _ _ _ _ _ rest hturn hrest =>
      rw [hwhole] at hturn
      cases hturn
      have hdrop : (x :: (a ++ c :: more)).drop (a.length + 1 + read) = (c :: more).drop read := by
        rw [← cons_append, ← length_cons (a := x), ← drop_drop, drop_left]
      rw [hdrop] at hrest
      obtain ⟨w₂, hruns₂, hview₂⟩ := h.runs_view hrest hview
      have hall : join (calls' ++ rest) = join (calls₁ ++ (calls₂ ++ rest)) := by
        rw [← append_assoc]
        exact h.join_append hjoin rfl
      have hgood₁ : good s₁ :=
        hkeeps hgood fun k hk => h.join_fine hall hfine k (mem_append_left _ hk)
      exact .inr ⟨halive, hgood₁, .inl ⟨w₂, calls₂ ++ rest, .next hsecond hruns₂, hview₂, hall⟩⟩

theorem resumes_spent {s w s₁ : σ} {x c : β} {a more : List β} {calls calls₁ calls' : List κ} {w' : σ} (hgood : good s)
    (hfirst : turn s x a = .next s₁ (a.length + 1) calls₁) (hspent : spent s₁ c)
    (hhalt : turn s x (a ++ c :: more) = .halt w' calls') (hover : view w' = failed) (hjoin : join calls' = join calls₁)
    (hruns : Runs turn s (x :: (a ++ c :: more)) w calls) (hfine : ∀ k ∈ calls, fine k) :
    Resumes turn view join good dead spent failed w calls s₁ calls₁ (c :: more) := by
  obtain ⟨-, halive, hkeeps⟩ := h.next hfirst
  obtain ⟨rfl, rfl⟩ := hruns.det (.halt hhalt)
  exact .inr ⟨halive, hkeeps hgood (h.join_fine hjoin hfine), .inr ⟨⟨c, rfl, hspent⟩, hover, hjoin⟩⟩

/-- A turn does not see the cut, or it ends the first buffer and the second resumes it. -/
theorem unseen_or_resumes {s : σ} (x : β) (a b : List β) (hgood : good s) : turn s x (a ++ b) = turn s x a ∨
    ∃ s₁ calls₁, Runs turn s (x :: a) s₁ calls₁ ∧ ∀ {w calls}, Runs turn s (x :: (a ++ b)) w calls →
      (∀ k ∈ calls, fine k) → dead s₁ ∨ (∀ c ∈ b.head?, clean s₁ c ∨ spent s₁ c) →
        Resumes turn view join good dead spent failed w calls s₁ calls₁ b := by
  cases b with
  | nil => exact .inl (by rw [append_nil])
  | cons c more =>
    refine (h.cut s x a c more).imp_right ?_
    rintro ⟨s₁, calls₁, hfirst, hgoes, hover⟩
    have hends : Runs turn s (x :: a) s₁ (calls₁ ++ []) :=
      .next hfirst (by rw [← length_cons (a := x), drop_length]; exact .nil)
    rw [append_nil] at hends
    refine ⟨s₁, calls₁, hends, fun hruns hfine hclean => ?_⟩
    rcases hclean.resolve_left (h.next hfirst).2.1 c rfl with hclean | hspent
    · exact h.resumes_through hgood hfirst (hgoes hclean) hruns hfine
    · obtain ⟨w', calls', hhalt, hview, hjoin⟩ := hover hspent
      exact h.resumes_spent hgood hfirst hspent hhalt hview hjoin hruns hfine

/-- **One cut.** The run over two buffers that were one comes, if the cut is clean, to the same view and calls. -/
theorem append {s w : σ} {l a b : List β} {calls : List κ} (hruns : Runs turn s l w calls) (hl : l = a ++ b)
    (hgood : good s) (halive : ¬ dead s) (hfine : ∀ k ∈ calls, fine k) : ∃ s₁ calls₁, Runs turn s a s₁ calls₁ ∧
    (dead s₁ ∨ (∀ c ∈ b.head?, clean s₁ c ∨ spent s₁ c) →
      Resumes turn view join good dead spent failed w calls s₁ calls₁ b) := by
  induction hruns generalizing a with
  | nil =>
    obtain ⟨rfl, rfl⟩ := append_eq_nil_iff.mp hl.symm
    exact ⟨_, [], .nil, fun _ => .inr ⟨halive, hgood, .inl ⟨_, [], .nil, rfl, rfl⟩⟩⟩
  | @halt s w x tail calls hturn =>
    rcases cons_eq_append_iff.mp hl with ⟨rfl, rfl⟩ | ⟨a, rfl, rfl⟩
    · exact ⟨s, [], .nil, fun _ => .inr ⟨halive, hgood, .inl ⟨w, calls, .halt hturn, rfl, rfl⟩⟩⟩
    rcases h.unseen_or_resumes x a b hgood with hsame | ⟨s₁, calls₁, hends, hresumes⟩
    · rw [hsame] at hturn
      exact ⟨w, calls, .halt hturn, fun _ => .inl ⟨h.halt hturn hgood hfine, rfl, rfl⟩⟩
    · exact ⟨s₁, calls₁, hends, hresumes (.halt hturn) hfine⟩
  | @next s s' w x tail read calls rest hturn hrest ih =>
    rcases cons_eq_append_iff.mp hl with ⟨rfl, rfl⟩ | ⟨a, rfl, rfl⟩
    · exact ⟨s, [], .nil, fun _ => .inr ⟨halive, hgood, .inl ⟨w, _, .next hturn hrest, rfl, rfl⟩⟩⟩
    rcases h.unseen_or_resumes x a b hgood with hsame | ⟨s₁, calls₁, hends, hresumes⟩
    · -- a turn that did not see the cut is the same over the first buffer alone
      rw [hsame] at hturn
      obtain ⟨hread, halive', hkeeps⟩ := h.next hturn
      have hgood' : good s' := hkeeps hgood fun k hk => hfine k (mem_append_left _ hk)
      have hdrop : (x :: a ++ b).drop read = (x :: a).drop read ++ b := drop_append_of_le_length hread
      obtain ⟨s₁, calls₁, hruns₁, hresumes⟩ := ih hdrop hgood' halive' fun k hk => hfine k (mem_append_right _ hk)
      refine ⟨s₁, calls ++ calls₁, .next hturn hruns₁, fun hclean => ?_⟩
      rcases hresumes hclean with ⟨hdead, hview, rfl⟩ |
        ⟨halive₁, hgood₁, ⟨w₂, calls₂, hruns₂, hview, hjoin⟩ | ⟨hspent, hover, hjoin⟩⟩
      · exact .inl ⟨hdead, hview, rfl⟩
      · refine .inr ⟨halive₁, hgood₁, .inl ⟨w₂, calls₂, hruns₂, hview, ?_⟩⟩
        rw [append_assoc]
        exact h.join_append rfl hjoin
      · exact .inr ⟨halive₁, hgood₁, .inr ⟨hspent, hover, h.join_append rfl hjoin⟩⟩
    · exact ⟨s₁, calls₁, hends, hresumes (.next hturn hrest) hfine⟩

end Cuttable

/-! ## Every cut -/

/-- A call that gives the same for two buffers as for the one they make up, where the cut is `clean`. -/
structure Splits (call : σ → List β → Option (σ × List κ)) (view : σ → ν) (join : List κ → List κ)
    (fine : κ → Prop) (good : σ → Prop) (clean : σ → List β → Prop) : Prop where
  nil : ∀ {s}, good s → ∃ w, call s [] = some (w, []) ∧ view w = view s
  append : ∀ {s w a b calls}, good s → call s (a ++ b) = some (w, calls) → (∀ k ∈ calls, fine k) →
    ∃ s₁ calls₁, call s a = some (s₁, calls₁) ∧ (clean s₁ b → good s₁ ∧
      ∃ w₂ calls₂, call s₁ b = some (w₂, calls₂) ∧ view w₂ = view w ∧ join calls = join (calls₁ ++ calls₂))
  join_append : ∀ {x x' y y'}, join x = join x' → join y = join y' → join (x ++ y) = join (x' ++ y')
  join_fine : ∀ {x y}, join x = join y → (∀ k ∈ x, fine k) → ∀ k ∈ y, fine k

def CleanCuts (call : σ → List β → Option (σ × List κ)) (clean : σ → List β → Prop) : σ → List (List β) → Prop
  | _, [] => True
  | s, buf :: bufs => ∀ s₁ calls, call s buf = some (s₁, calls) → clean s₁ bufs.flatten ∧ CleanCuts call clean s₁ bufs

/-- **Every cut.** However cleanly the input is cut, the calls come to the same view and say the same as one call. -/
theorem Splits.feed_flatten {call : σ → List β → Option (σ × List κ)} {view : σ → ν} {join : List κ → List κ}
    {fine : κ → Prop} {good : σ → Prop} {clean : σ → List β → Prop} (h : Splits call view join fine good clean)
    {s w : σ} {bufs : List (List β)} {calls : List κ} (hgood : good s) (hcall : call s bufs.flatten = some (w, calls))
    (hfine : ∀ k ∈ calls, fine k) (hclean : CleanCuts call clean s bufs) : ∃ w' calls', feed call s bufs = some
    (w', calls') ∧ view w' = view w ∧ join calls' = join calls := by
  induction bufs generalizing s w calls with
  | nil =>
    obtain ⟨w', hnil, hview⟩ := h.nil hgood
    rw [flatten_nil, hnil] at hcall
    cases hcall
    exact ⟨s, [], rfl, hview.symm, rfl⟩
  | cons buf bufs ih =>
    obtain ⟨s₁, calls₁, hfirst, hrest⟩ := h.append hgood hcall hfine
    obtain ⟨hhere, hlater⟩ := hclean s₁ calls₁ hfirst
    obtain ⟨hgood₁, w₂, calls₂, hsecond, hview, hjoin⟩ := hrest hhere
    have hfine₂ : ∀ k ∈ calls₂, fine k := fun k hk =>
      h.join_fine hjoin hfine k (mem_append_right _ hk)
    obtain ⟨w', calls', hfeed, hview', hjoin'⟩ := ih hgood₁ hsecond hfine₂ hlater
    refine ⟨w', calls₁ ++ calls', ?_, hview'.trans hview, ?_⟩
    · rw [feed, hfirst, Option.bind_some, hfeed, Option.map_some]
    · rw [hjoin]
      exact h.join_append rfl hjoin'

end Feed
