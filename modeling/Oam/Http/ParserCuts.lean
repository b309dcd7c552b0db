/-
  `node:_http_common`: two calls do what one call does over the same bytes, if the cut is `clean`.  A turn that runs up
  to the cut goes on behind it (`scan_goes`, `cutOk_body`), and every turn gets on; `Lib/Feed` does the rest.
-/
import Oam.Http.ParserPlaces

namespace Oam.Http.HttpParser

open List Feed Number

/-! ## Specification -/

def joinBodies : List Call → List Call
  | [] => []
  | .body chunk :: calls =>
    match joinBodies calls with
    | .body more :: rest => .body (chunk ++ more) :: rest
    | rest => .body chunk :: rest
  | call :: calls => call :: joinBodies calls

/-- The call does not hand the connection over: no upgrade, no CONNECT and no 101. -/
def Stays (ret : HeadArgs → Ret) : Call → Prop
  | .headersComplete args => args.upgrade = false ∧ args.status ≠ some 101 ∧ ret args ≠ .two
  | _ => True

def State.counts : State → Option (UInt8 → Bool)
  | .url => some isUrlByte
  | .reason => some fun b => !isEol b
  | .field => some isToken
  | _ => none

def State.inBody : State → Bool
  | .bodyLength => true
  | .chunkData => true
  | _ => false

/-- The text at hand is full, and ends before the byte `b`: a call that sees both fails. -/
def endsFull (p : Parser) (b : UInt8) : Bool :=
  match p.state.counts with
  | some isIn => overflows p && !isIn b
  | none => false

/-- A cut before the byte `b` that nothing is lost at. -/
def clean (p : Parser) (b : UInt8) : Bool := !endsFull p b && (!p.state.inBody || decide (p.remaining < limit))

def State.isError : State → Bool
  | .error _ => true
  | _ => false

def State.isOverflow : State → Bool
  | .error err => decide (err.code = .headerOverflow) && decide (err.reason = "Header overflow")
  | _ => false

/-- The next name or value is counted too, and that fails before anything is reported. -/
def countedAgain (ret : HeadArgs → Ret) (p : Parser) (rest : Bytes) : Bool :=
  match execute ret p rest with
  | some (q, []) => q.state.isOverflow
  | _ => false

/-- A cut before `rest`: anything goes before nothing, or once the parser has failed. -/
def cleanCut (ret : HeadArgs → Ret) (p : Parser) : Bytes → Bool
  | [] => true
  | c :: more => p.state.isError || clean p c || endsFull p c && countedAgain ret p (c :: more)

def cleanCuts (ret : HeadArgs → Ret) : Parser → List Bytes → Bool
  | _, [] => true
  | p, buf :: bufs =>
    match execute ret p buf with
    | none => false
    | some (q, _) => cleanCut ret q bufs.flatten && cleanCuts ret q bufs

variable {p : Parser}

theorem endsFull_iff {b : UInt8} {isIn : UInt8 → Bool} (hstate : p.state.counts = some isIn) :
    endsFull p b ↔ overflows p ∧ isIn b = false := by
  rw [endsFull, hstate, Bool.and_eq_true, Bool.not_eq_true']

theorem endsFull_of_none {b : UInt8} (hstate : p.state.counts = none) : endsFull p b = false := by
  rw [endsFull, hstate]

theorem clean_counts {b : UInt8} {isIn : UInt8 → Bool} (h : clean p b) (hstate : p.state.counts = some isIn)
    (hfull : overflows p) : isIn b := by
  rw [clean, Bool.and_eq_true, Bool.not_eq_true'] at h
  by_contra hout
  rw [(endsFull_iff hstate).mpr ⟨hfull, Bool.eq_false_iff.mpr hout⟩] at h
  cases h.1

theorem State.counts_inBody {state : State} (h : state.inBody) : state.counts = none := by
  cases state <;> first | rfl | cases h

theorem clean_body {b : UInt8} (h : clean p b) (hbody : p.state.inBody) : p.remaining < limit := by
  rw [clean, Bool.and_eq_true, hbody, Bool.not_true, Bool.false_or] at h
  exact of_decide_eq_true h.2

theorem cleanCuts_spec {ret : HeadArgs → Ret} {bufs : List Bytes} (h : cleanCuts ret p bufs) :
    CleanCuts (execute ret) (fun p rest => cleanCut ret p rest) p bufs := by
  induction bufs generalizing p with
  | nil => trivial
  | cons buf bufs ih =>
    intro q calls hcall
    rw [cleanCuts, hcall, Bool.and_eq_true] at h
    exact ⟨h.1, ih h.2⟩

/-! ## Joining bodies -/

def consCall : Call → List Call → List Call
  | .body chunk, .body more :: rest => .body (chunk ++ more) :: rest
  | call, rest => call :: rest

theorem joinBodies_cons (call : Call) (calls : List Call) :
    joinBodies (call :: calls) = consCall call (joinBodies calls) := by
  cases call with
  | body =>
    rw [joinBodies]
    cases joinBodies calls with
    | nil => rfl
    | cons next => cases next <;> rfl
  | _ => rfl

theorem joinBodies_append (x y : List Call) : joinBodies (x ++ y) = x.foldr consCall (joinBodies y) := by
  induction x with
  | nil => rfl
  | cons call x ih => rw [cons_append, joinBodies_cons, ih, foldr_cons]

theorem foldr_consCall (call : Call) (x z : List Call) :
    (consCall call x).foldr consCall z = consCall call (x.foldr consCall z) := by
  cases call with
  | body a =>
    cases x with
    | nil => rfl
    | cons next =>
      cases next with
      | body b =>
        rw [consCall, foldr_cons, foldr_cons]
        cases foldr consCall z _ with
        | nil => rfl
        | cons next =>
          cases next with
          | body => simp only [consCall, append_assoc]
          | _ => rfl
      | _ => rfl
  | _ => rfl

theorem foldr_joinBodies (x z : List Call) : (joinBodies x).foldr consCall z = x.foldr consCall z := by
  induction x with
  | nil => rfl
  | cons call x ih => rw [joinBodies_cons, foldr_consCall, ih, foldr_cons]

theorem joinBodies_congr {x x' y y' : List Call} (hx : joinBodies x = joinBodies x')
    (hy : joinBodies y = joinBodies y') : joinBodies (x ++ y) = joinBodies (x' ++ y') := by
  rw [joinBodies_append, joinBodies_append, ← foldr_joinBodies x, ← foldr_joinBodies x', hx, hy]

theorem joinBodies_split (a b : Bytes) : joinBodies [.body (a ++ b)] = joinBodies [.body a, .body b] := rfl

def Call.isBody : Call → Bool
  | .body _ => true
  | _ => false

theorem mem_consCall {k call : Call} (hk : k.isBody = false) (calls : List Call) :
    k ∈ consCall call calls ↔ k ∈ call :: calls := by
  cases call with
  | body =>
    cases calls with
    | nil => exact Iff.rfl
    | cons next =>
      cases next with
      | body =>
        have hnot (chunk : Bytes) : k ≠ .body chunk := by
          rintro rfl
          cases hk
        simp only [consCall, mem_cons, hnot, false_or]
      | _ => exact Iff.rfl
  | _ => exact Iff.rfl

theorem mem_joinBodies {k : Call} (hk : k.isBody = false) (calls : List Call) : k ∈ joinBodies calls ↔ k ∈ calls := by
  induction calls with
  | nil => exact Iff.rfl
  | cons call calls ih => rw [joinBodies_cons, mem_consCall hk, mem_cons, mem_cons, ih]

theorem stays_of_join {ret : HeadArgs → Ret} {x y : List Call} (h : joinBodies x = joinBodies y)
    (hx : ∀ k ∈ x, Stays ret k) : ∀ k ∈ y, Stays ret k := by
  intro k hk
  cases hbody : k.isBody with
  | true =>
    cases k with
    | body => trivial
    | _ => cases hbody
  | false =>
    rw [← mem_joinBodies hbody, ← h, mem_joinBodies hbody] at hk
    exact hx k hk

/-! ## A turn that runs up to the cut -/

/-- The second round does what the first did, `n` bytes later and after the calls `before`. -/
def Goes (whole : Round) (n : Nat) (before : List Call) (second : Round) : Prop :=
  Continues (fun s : Cursor => seen s.p) joinBodies whole n before second

variable {q : Parser} {i j n : Nat} {before : List Call}

theorem goes_go {read : Nat} {calls calls' : List Call} (h : p.blur = q.blur)
    (hcalls : joinBodies calls = joinBodies (before ++ calls')) :
    Goes (go p i (n + read) calls) n before (go q j read calls') :=
  ⟨_, _, rfl, seen_of_blur h, hcalls⟩

theorem Later.goes {r r' : Round} (h : Later n r r') : Goes r n [] r' := by
  cases r with
  | next s read calls =>
    cases r' with
    | next =>
      obtain ⟨hseen, rfl, rfl⟩ := h
      exact ⟨s, calls, rfl, hseen, rfl⟩
    | halt => cases h
  | halt s calls =>
    cases r' with
    | next => cases h
    | halt =>
      obtain ⟨hseen, rfl⟩ := h
      exact ⟨s, calls, rfl, hseen, rfl⟩

variable {isIn : UInt8 → Bool} {store : Parser → Bytes → Parser} {counted : Bool} {stop : Stop} {p : Parser}
  {a : Bytes}

/-- A scan that all of the first buffer belongs to goes on over the second, unless the text is full and ends at the cut.
    -/
theorem scan_goes (hscans : Scans store stop) {more : Bytes} {c : UInt8} (hall : ∀ b ∈ a, isIn b)
    (hclean : counted → overflows (store p a) → isIn c) (i j : Nat) : Later a.length
    (scan isIn store counted stop p i (a ++ c :: more)) (scan isIn store counted stop (store p a) j (c :: more)) := by
  have htake : (a ++ c :: more).takeWhile isIn = a ++ (c :: more).takeWhile isIn :=
    takeWhile_append_of_pos hall
  have hdrop : (a ++ c :: more).dropWhile isIn = (c :: more).dropWhile isIn :=
    dropWhile_append_of_pos hall
  unfold scan
  dsimp only
  rw [htake, hdrop, hscans.append, length_append]
  cases hbehind : (c :: more).dropWhile isIn with
  | nil => exact later_go rfl
  | cons =>
    by_cases hrun : (c :: more).takeWhile isIn = []
    · -- the text ended at the cut, so it was not full
      have hout : isIn c = false := by
        rw [takeWhile_cons] at hrun
        cases hin : isIn c with
        | false => rfl
        | true =>
          rw [hin, if_pos rfl] at hrun
          cases hrun
      have hfits : (counted && overflows (store p a)) = false := by
        cases hcounted : counted with
        | false => rfl
        | true =>
          cases hfull : overflows (store p a) with
          | false => rfl
          | true =>
            rw [hclean hcounted hfull] at hout
            cases hout
      have hskip (e : Bool) : (counted && e && overflows (store p a)) = false := by
        rw [Bool.and_right_comm, hfits, Bool.false_and]
      rw [hrun, hscans.nil, append_nil, hskip, hskip]
      exact hscans.later (store p a) (store p a).valueStart ..
    · have hsome : ((c :: more).takeWhile isIn).isEmpty = false := isEmpty_eq_false_iff.mpr hrun
      have hboth : (a ++ (c :: more).takeWhile isIn).isEmpty = false :=
        isEmpty_eq_false_iff.mpr fun hnone => hrun (append_eq_nil_iff.mp hnone).2
      rw [hsome, hboth]
      exact ite_both later_fail (hscans.later (store (store p a) _) (store (store p a) _).valueStart ..)

/-- One turn over a full text and its end fails. -/
theorem scan_full {c : UInt8} {more : Bytes} (hne : a ≠ []) (hall : ∀ b ∈ a, isIn b) (hout : isIn c = false)
    (hfull : overflows (store p a)) (i : Nat) : scan isIn store true stop p i (a ++ c :: more) =
      fail (store p a) ⟨.headerOverflow, "Header overflow", i + a.length + 1⟩ [] := by
  have hnot : ¬isIn c = true := by rw [hout]; exact Bool.false_ne_true
  unfold scan
  rw [takeWhile_append_of_pos hall, dropWhile_append_of_pos hall, takeWhile_cons_of_neg hnot,
    dropWhile_cons_of_neg hnot, append_nil]
  simp only [hfull, Bool.true_and, Bool.and_true, Bool.not_eq_true', isEmpty_eq_false_iff.mpr hne, if_true]

theorem scan_local (hends : ¬ ∀ b ∈ a, isIn b) (i : Nat) (more : Bytes) :
    scan isIn store counted stop p i (a ++ more) = scan isIn store counted stop p i a := by
  obtain ⟨b, rest, hdrop⟩ : ∃ b rest, a.dropWhile isIn = b :: rest := by
    cases hdrop : a.dropWhile isIn with
    | nil => exact absurd (dropWhile_eq_nil_iff.mp hdrop) hends
    | cons b rest => exact ⟨b, rest, rfl⟩
  have hout : isIn b = false := by
    have hhead := head?_dropWhile_not isIn a
    rw [hdrop] at hhead
    simpa using hhead
  have hsplit : a = a.takeWhile isIn ++ b :: rest := by
    rw [← hdrop, takeWhile_append_dropWhile]
  have hin : ∀ x ∈ a.takeWhile isIn, isIn x := fun x hx => mem_takeWhile_imp hx
  have htake : (a ++ more).takeWhile isIn = a.takeWhile isIn := by
    conv_lhs => rw [hsplit, append_assoc]
    rw [takeWhile_append_of_pos hin, cons_append, takeWhile_cons_of_neg (by simp [hout]),
      append_nil]
  have hdrop' : (a ++ more).dropWhile isIn = b :: (rest ++ more) := by
    conv_lhs => rw [hsplit, append_assoc]
    rw [dropWhile_append_of_pos hin, cons_append, dropWhile_cons_of_neg (by simp [hout])]
  unfold scan
  rw [htake, hdrop', hdrop]

/-! ## A body that runs up to the cut -/

theorem toNumber_pos {n : Nat} (h : 0 < n) : 0 < toNumber n := by
  by_cases hsmall : n < limit
  · rw [toNumber_of_lt hsmall]
    exact h
  · exact Nat.lt_of_lt_of_le (by decide) (limit_le_toNumber (Nat.le_of_not_lt hsmall))

variable {last : Parser → Nat → Nat → List Call → Round}

theorem bodyTurn_first (hmore : a.length < p.remaining) (i : Nat) :
    bodyTurn last p i a = go (took p a.length) i a.length [.body a] := by
  have hpos : (took p a.length).remaining ≠ 0 :=
    Nat.ne_of_gt (toNumber_pos (Nat.sub_pos_of_lt hmore))
  unfold bodyTurn takeBody
  rw [Nat.min_eq_right (Nat.le_of_lt hmore), take_length, if_neg hpos]

theorem took_took {n : Nat} (hexact : (took p n).remaining = p.remaining - n) (m : Nat) :
    took p (n + m) = took (took p n) m := by
  have hleft : p.remaining - (n + m) = (took p n).remaining - m := by rw [hexact, Nat.sub_sub]
  calc took p (n + m) = { p with remaining := toNumber ((took p n).remaining - m) } := by
        rw [← hleft]
        rfl
    _ = took (took p n) m := rfl

theorem lastChunk_goes (p : Parser) (i j n read : Nat) (x y : Bytes) :
    Goes (lastChunk p i (n + read) [.body (x ++ y)]) n [.body x] (lastChunk p j read [.body y]) :=
  goes_go rfl (joinBodies_split ..)

theorem lastBody_goes (p : Parser) (i j n read : Nat) (x y : Bytes) :
    Goes (lastBody p i (n + read) [.body (x ++ y)]) n [.body x] (lastBody p j read [.body y]) := by
  unfold lastBody endMessage
  have hcalls (calls : List Call) : joinBodies ([.body (x ++ y)] ++ calls) = joinBodies ([.body x, .body y] ++ calls) :=
    joinBodies_congr (joinBodies_split x y) rfl
  exact ite_both (R := (Goes · n [.body x] ·)) ⟨_, _, rfl, rfl, hcalls _⟩ (goes_go rfl (hcalls _))

/-! ## Any turn -/

section Cut

variable {ret : HeadArgs → Ret} {p : Parser}

/-- What a parser is seen as that has failed at the limit. -/
def overflown : Except (Code × String) Parser := .error (.headerOverflow, "Header overflow")

/-- A turn does not see the cut, or it runs up to it and goes on behind it, or fails there. -/
def CutOk (ret : HeadArgs → Ret) (s : Cursor) (b : UInt8) (tail : Bytes) (c : UInt8) (more : Bytes) : Prop :=
  turn ret s b (tail ++ c :: more) = turn ret s b tail ∨
    ∃ s₁ calls₁, turn ret s b tail = .next s₁ (tail.length + 1) calls₁ ∧
      (clean s₁.p c = true → Goes (turn ret s b (tail ++ c :: more)) (tail.length + 1) calls₁ (turn ret s₁ c more)) ∧
      (endsFull s₁.p c = true → ∃ w calls, turn ret s b (tail ++ c :: more) = .halt w calls ∧ seen w.p = overflown ∧
        joinBodies calls = joinBodies calls₁)

theorem cutOk_scan (isIn : UInt8 → Bool) (counted : Bool) {store : Parser → Bytes → Parser} {stop : Stop}
    (hscans : Scans store stop)
    (hturn : ∀ q, q.state = p.state → q.lenient = p.lenient → ∀ j x rest,
      turn ret ⟨q, j⟩ x rest = scan isIn store counted stop q j (x :: rest))
    (hcounts : p.state.counts = if counted then some isIn else none)
    (i : Nat) (b : UInt8) (tail : Bytes) (c : UInt8) (more : Bytes) : CutOk ret ⟨p, i⟩ b tail c more := by
  unfold CutOk
  rw [hturn p rfl rfl, hturn p rfl rfl]
  by_cases hall : ∀ x ∈ b :: tail, isIn x
  · have hfirst : scan isIn store counted stop p i (b :: tail) = go (store p (b :: tail)) i (tail.length + 1) [] := by
      unfold scan
      rw [takeWhile_eq_self_iff.mpr hall, dropWhile_eq_nil_iff.mpr hall]
      rfl
    obtain ⟨hstate, hlenient⟩ := hscans.keeps p (b :: tail)
    rw [← hstate] at hcounts
    refine .inr ⟨_, _, hfirst, fun hclean => ?_, fun hfull => ?_⟩
    · rw [hturn _ hstate hlenient]
      refine (scan_goes hscans hall (fun hcounted hfull => clean_counts hclean ?_ hfull) i _).goes
      rw [hcounts, hcounted]
      rfl
    · cases counted with
      | false =>
        rw [endsFull_of_none hcounts] at hfull
        cases hfull
      | true =>
        obtain ⟨hfull, hout⟩ := (endsFull_iff hcounts).mp hfull
        exact ⟨_, _, scan_full (cons_ne_nil b tail) hall hout hfull i, rfl, rfl⟩
  · exact .inl (scan_local hall i _)

theorem cutOk_body {last : Parser → Nat → Nat → List Call → Round}
    (hturn : ∀ q, q.state = p.state → ∀ j x rest, turn ret ⟨q, j⟩ x rest = bodyTurn last q j (x :: rest))
    (hbody : p.state.inBody)
    (hlast : ∀ p i j n read x y, Goes (last p i (n + read) [.body (x ++ y)]) n [.body x] (last p j read [.body y]))
    (i : Nat) (b : UInt8) (tail : Bytes) (c : UInt8) (more : Bytes) : CutOk ret ⟨p, i⟩ b tail c more := by
  unfold CutOk
  rw [hturn p rfl, hturn p rfl]
  by_cases hends : p.remaining ≤ (b :: tail).length
  · left
    unfold bodyTurn takeBody
    rw [← cons_append, length_append, Nat.min_eq_left hends, Nat.min_eq_left (Nat.le_trans hends (Nat.le_add_right _ _)),
      take_append_of_le_length hends]
  have hmore : (b :: tail).length < p.remaining := Nat.lt_of_not_le hends
  refine .inr ⟨_, _, bodyTurn_first hmore i, fun hclean => ?_, fun hfull => ?_⟩
  swap
  · have hnone : (took p (b :: tail).length).state.counts = none := State.counts_inBody hbody
    rw [endsFull_of_none hnone] at hfull
    cases hfull
  rw [hturn (took p (b :: tail).length) rfl]
  have hexact : (took p (b :: tail).length).remaining = p.remaining - (b :: tail).length :=
    toNumber_of_lt (lt_of_toNumber_lt (clean_body hclean hbody))
  show Goes (bodyTurn last p i ((b :: tail) ++ c :: more)) (b :: tail).length _ _
  generalize b :: tail = a at hmore hexact ⊢
  have hmin : min p.remaining (a ++ c :: more).length =
      a.length + min (took p a.length).remaining (c :: more).length := by
    rw [hexact, length_append]
    omega
  have htake (n : Nat) : (a ++ c :: more).take (a.length + n) = a ++ (c :: more).take n :=
    take_length_add_append n
  unfold bodyTurn takeBody
  rw [hmin, htake, took_took hexact]
  generalize took (took p a.length) _ = q
  exact ite_both (R := (Goes · a.length [.body a] ·)) (hlast ..) (goes_go rfl (joinBodies_split ..))

/-- **A turn and a cut.** -/
theorem turn_cut (s : Cursor) (b : UInt8) (tail : Bytes) (c : UInt8) (more : Bytes) : CutOk ret s b tail c more := by
  obtain ⟨p, i⟩ := s
  cases hstate : p.state with
  | url =>
    refine cutOk_scan isUrlByte true scans_url (fun q hq _ j x rest => ?_) (by rw [hstate]; rfl) i b tail c more
    simp only [turn, hq, hstate]
  | reason =>
    refine cutOk_scan (fun b => !isEol b) true scans_reason (fun q hq _ j x rest => ?_) (by rw [hstate]; rfl)
      i b tail c more
    simp only [turn, hq, hstate]
  | field =>
    refine cutOk_scan isToken true scans_field (fun q hq _ j x rest => ?_) (by rw [hstate]; rfl) i b tail c more
    simp only [turn, hq, hstate]
  | value =>
    refine cutOk_scan (isValueByte p.lenient.headers) false scans_value (fun q hq hlenient j x rest => ?_) (by rw [hstate]; rfl)
      i b tail c more
    simp only [turn, hq, hstate]
    rw [hlenient]
  | chunkExt =>
    refine cutOk_scan (fun b => !isEol b) false scans_ext (fun q hq _ j x rest => ?_) (by rw [hstate]; rfl) i b tail c more
    simp only [turn, hq, hstate]
  | bodyLength =>
    refine cutOk_body (fun q hq j x rest => ?_) (by rw [hstate]; rfl) lastBody_goes i b tail c more
    simp only [turn, hq, hstate]
  | chunkData =>
    refine cutOk_body (fun q hq j x rest => ?_) (by rw [hstate]; rfl) lastChunk_goes i b tail c more
    simp only [turn, hq, hstate]
  | bodyEof =>
    have hturn (j : Nat) (x : UInt8) (rest : Bytes) :
        turn ret ⟨p, j⟩ x rest = go p j (rest.length + 1) [.body (x :: rest)] := by
      simp only [turn, hstate]
    refine .inr ⟨_, _, hturn i b tail, fun _ => ?_, fun hfull => ?_⟩
    · rw [hturn, hturn, length_append, length_cons, Nat.add_right_comm]
      exact goes_go rfl (joinBodies_split (b :: tail) (c :: more))
    · rw [endsFull_of_none (by rw [hstate]; rfl)] at hfull
      cases hfull
  | _ =>
    refine .inl ?_
    simp only [turn, hstate]

end Cut

end Oam.Http.HttpParser
