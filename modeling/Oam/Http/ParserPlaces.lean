/-
  `node:_http_common`: a parser tells where it stands in its buffer only through indexes — of an error, and of the place
  at which a value began — so they are all that a cut may change (`turn_place`).
-/
import Oam.Http.HttpParser

namespace Oam.Http.HttpParser

open List Bytes Feed

/-! ## Specification -/

/-- Without the index of the value's first byte. -/
def Parser.blur (p : Parser) : Parser := { p with valueStart := 0 }

/-- What can be seen of a parser: the code and the reason of its error, or all of it but indexes. -/
def seen (p : Parser) : Except (Code × String) Parser :=
  match p.state with
  | .error err => .error (err.code, err.reason)
  | _ => .ok p.blur

/-! ## Indexes do not matter -/

def Same (r r' : Round) : Prop := r.map (fun s => seen s.p) = r'.map fun s => seen s.p

variable {p q : Parser}

theorem seen_of_blur (h : p.blur = q.blur) : seen p = seen q := by
  have hstate : p.blur.state = q.blur.state := by rw [h]
  have hstate : p.state = q.state := hstate
  unfold seen
  rw [hstate, h]

variable {i j : Nat} {calls : List Call}

theorem same_go {read : Nat} (h : p.blur = q.blur) : Same (go p i read calls) (go q j read calls) := by
  unfold Same go
  rw [Turn.map, Turn.map, seen_of_blur h]

theorem same_halt (h : p.blur = q.blur) : Same (.halt ⟨p, i⟩ calls) (.halt ⟨q, j⟩ calls) := by
  unfold Same
  rw [Turn.map, Turn.map, seen_of_blur h]

theorem same_fail {code : Code} {reason : String} :
    Same (fail p ⟨code, reason, i⟩ calls) (fail q ⟨code, reason, j⟩ calls) := rfl

theorem ite_both {α β : Type} {R : α → β → Prop} {P : Prop} [Decidable P] {a a' : α} {b b' : β} (hpos : R a b)
    (hneg : R a' b') : R (if P then a else a') (if P then b else b') := by
  by_cases h : P
  · rw [if_pos h, if_pos h]
    exact hpos
  · rw [if_neg h, if_neg h]
    exact hneg

/-- The round `r` does what `r'` does, and has read `n` bytes more. -/
def Later (n : Nat) : Round → Round → Prop
  | .next s read calls, .next s' read' calls' => seen s.p = seen s'.p ∧ read = n + read' ∧ calls = calls'
  | .halt s calls, .halt s' calls' => seen s.p = seen s'.p ∧ calls = calls'
  | _, _ => False

theorem later_go {n read : Nat} (h : p.blur = q.blur) : Later n (go p i (n + read) calls) (go q j read calls) :=
  ⟨seen_of_blur h, rfl, rfl⟩

theorem later_fail {n : Nat} {code : Code} {reason : String} :
    Later n (fail p ⟨code, reason, i⟩ calls) (fail q ⟨code, reason, j⟩ calls) := ⟨rfl, rfl⟩

theorem Later.same {r r' : Round} (h : Later 0 r r') : Same r r' := by
  cases r with
  | next =>
    cases r' with
    | next =>
      obtain ⟨hseen, rfl, rfl⟩ := h
      rw [Nat.zero_add, Same, Turn.map, Turn.map, hseen]
    | halt => cases h
  | halt =>
    cases r' with
    | next => cases h
    | halt =>
      obtain ⟨hseen, rfl⟩ := h
      rw [Same, Turn.map, Turn.map, hseen]

/-- The parser with the value at another place. -/
def Parser.place (p : Parser) (v : Int) : Parser := { p with valueStart := v }

/-- The first is the second, with the value at `v`. -/
def Placed (v : Int) (q p : Parser) : Prop := q = p.place v

theorem place_of_blur (h : p.blur = q.blur) : ∃ v, q = p.place v := by
  refine ⟨q.valueStart, ?_⟩
  calc q = q.blur.place q.valueStart := rfl
    _ = p.blur.place q.valueStart := by rw [h]
    _ = p.place q.valueStart := rfl

section Place

variable (p : Parser) (v : Int) (i j : Nat) (c : UInt8)

theorem methodTurn_place : Same (methodTurn (p.place v) j c) (methodTurn p i c) := by
  unfold methodTurn
  refine ite_both ?_ (ite_both same_fail (same_go (by rfl)))
  have htok : (p.place v).tok = p.tok := rfl
  rw [htok]
  cases methodIndex p.tok with
  | none => exact same_fail
  | some => exact same_go (by rfl)

theorem fieldStartTurn_place : Same (fieldStartTurn (p.place v) j c) (fieldStartTurn p i c) := by
  unfold fieldStartTurn
  refine ite_both (same_go (by rfl)) (ite_both (same_go (by rfl)) (ite_both ?_
    (ite_both same_fail (ite_both (same_go (by rfl)) (same_go (by rfl))))))
  have hheaders : (p.place v).lenient.headers = p.lenient.headers := rfl
  have hfields : (p.place v).fields = p.fields := rfl
  rw [hheaders, hfields]
  cases p.lenient.headers with
  | false => exact same_fail
  | true =>
    cases p.fields.getLast? with
    | none => exact same_fail
    | some => exact same_go (by rfl)

theorem chunkSizeTurn_place : Same (chunkSizeTurn (p.place v) j c) (chunkSizeTurn p i c) := by
  unfold chunkSizeTurn
  cases hexValue c with
  | some => exact ite_both same_fail (same_go (by rfl))
  | none =>
    exact ite_both same_fail (ite_both (same_go (by rfl)) (ite_both (same_go (by rfl)) (ite_both
      (ite_both (same_go (by rfl)) same_fail) (ite_both (same_go (by rfl)) same_fail))))

/-! ### The end of a head and of a message -/

theorem messageComplete_place :
    messageComplete (p.place v) = ((messageComplete p).1.place v, (messageComplete p).2) := by
  unfold messageComplete
  exact ite_both (R := fun r r' : Parser × List Call => r = (r'.1.place v, r'.2)) rfl rfl

theorem endMessage_place (read : Nat) (stop : Bool) (calls : List Call) :
    Same (endMessage (p.place v) j read stop calls) (endMessage p i read stop calls) := by
  have hended : ended (p.place v) stop = (ended p stop).place v := rfl
  unfold endMessage
  rw [hended, messageComplete_place]
  exact ite_both (same_halt (by rfl)) (same_go (by rfl))

theorem afterHead_place (answer : Ret) : afterHead (p.place v) answer = (afterHead p answer).place v := by
  unfold afterHead
  have hflushed : (p.place v).flushed = p.flushed := rfl
  rw [hflushed]
  cases p.flushed with
  | true | false => rfl

variable (ret : HeadArgs → Ret)

theorem headersComplete_place (read : Nat) :
    Same (headersComplete ret (p.place v) j read) (headersComplete ret p i read) := by
  have hdone : headDone (p.place v) = (headDone p).place v := rfl
  have hargs : headArgs ((headDone p).place v) = headArgs (headDone p) := rfl
  have hcalls : headCalls ((headDone p).place v) = headCalls (headDone p) := rfl
  have hstop (answer : Ret) : headStop ((headDone p).place v) answer = headStop (headDone p) answer := rfl
  unfold headersComplete
  rw [hdone]
  dsimp only
  rw [hargs, hcalls, hstop, afterHead_place]
  unfold bodyFollows
  exact ite_both same_fail (ite_both (endMessage_place ..) (ite_both (same_go (by rfl)) (ite_both
    (same_go (by rfl)) (ite_both (endMessage_place ..) (same_go (by rfl))))))

theorem headEndLfTurn_place : Same (headEndLfTurn ret (p.place v) j c) (headEndLfTurn ret p i c) := by
  have hend (read : Nat) : Same (headEnd ret (p.place v) j read) (headEnd ret p i read) := by
    unfold headEnd
    exact ite_both (endMessage_place ..) (headersComplete_place ..)
  unfold headEndLfTurn
  exact ite_both (ite_both same_fail (hend 0)) (hend 1)

/-! ### Values -/

def SameResult {α : Type} (view : α → α) (r r' : Except ParseError α) : Prop :=
  (∃ x x', r = .ok x ∧ r' = .ok x' ∧ view x = view x') ∨
    ∃ code reason k k', r = .error ⟨code, reason, k⟩ ∧ r' = .error ⟨code, reason, k'⟩

variable {α : Type} {view : α → α}

theorem sameResult_ok {x x' : α} (h : view x = view x') : SameResult view (.ok x) (.ok x') :=
  .inl ⟨x, x', rfl, rfl, h⟩

theorem sameResult_error {code : Code} {reason : String} {k k' : Nat} :
    SameResult view (.error ⟨code, reason, k⟩ : Except ParseError α) (.error ⟨code, reason, k'⟩) :=
  .inr ⟨code, reason, k, k', rfl, rfl⟩

theorem valueStart_place : SameResult Parser.blur (valueStart (p.place v) j) (valueStart p i) := by
  unfold valueStart
  exact ite_both (sameResult_ok (by rfl)) (ite_both sameResult_error
    (ite_both sameResult_error (sameResult_ok (by rfl))))

theorem lengthDigits_place (value rest : Bytes) (k n : Nat) (big : Option Nat) :
    SameResult id (lengthDigits value j k rest n big) (lengthDigits value i k rest n big) := by
  induction rest generalizing k n big with
  | nil =>
    cases big with
    | none | some => exact sameResult_ok rfl
  | cons c rest ih =>
    rw [lengthDigits, lengthDigits]
    exact ite_both sameResult_error (ite_both sameResult_error (ih ..))

theorem codings_place (k offset : Nat) (l : List Bytes) :
    SameResult Parser.blur (codings (p.place v) k offset l) (codings p k offset l) := by
  induction l generalizing p k offset with
  | nil => exact sameResult_ok rfl
  | cons raw rest ih =>
    rw [codings, codings]
    refine ite_both sameResult_error ?_
    exact ih { p with chunked := decide ((trim raw).map toLowerCase = ascii "chunked") } ..

theorem lengthValue_place : SameResult Parser.blur (lengthValue (p.place v) j) (lengthValue p i) := by
  unfold lengthValue
  refine ite_both sameResult_error (ite_both sameResult_error ?_)
  have hvalue : (p.place v).value = p.value := rfl
  rw [hvalue]
  rcases lengthDigits_place i j p.value p.value 0 0 none with
    ⟨n, n', hn, hn', hsame⟩ | ⟨code, reason, k, k', hn, hn'⟩
  · obtain rfl : n = n' := hsame
    rw [hn, hn']
    exact sameResult_ok rfl
  · rw [hn, hn']
    exact sameResult_error

theorem framingValue_place : SameResult Parser.blur (framingValue (p.place v) j) (framingValue p i) := by
  unfold framingValue
  have hkind : (p.place v).fieldKind = p.fieldKind := rfl
  rw [hkind]
  cases p.fieldKind with
  | plain => exact sameResult_ok rfl
  | contentLength => exact lengthValue_place ..
  | transferEncoding => exact codings_place { p with teSeen := true } v 0 0 _

theorem connectionTokens_place (tokens : List Bytes) :
    tokens.foldl connectionToken (p.place v) = (tokens.foldl connectionToken p).place v := by
  induction tokens generalizing p with
  | nil => rfl
  | cons t tokens ih =>
    have hone : connectionToken (p.place v) t = (connectionToken p t).place v := by
      unfold connectionToken
      exact ite_both (R := Placed v) rfl (ite_both (R := Placed v) rfl (ite_both (R := Placed v) rfl rfl))
    rw [foldl_cons, foldl_cons, hone, ih]

theorem fieldDone_place : fieldDone (p.place v) = (fieldDone p).place v := by
  unfold fieldDone
  refine ite_both (R := Placed v) rfl (ite_both (R := Placed v) ?_ (ite_both (R := Placed v) rfl rfl))
  exact connectionTokens_place { p with fields := p.fields ++ [(p.field, p.value)] } v _

/-! ### Turns that run on -/

/-- What a text is put away with and what its end is answered with: in pieces as at once, wherever they come to lie. -/
structure Scans (store : Parser → Bytes → Parser) (stop : Stop) : Prop where
  nil : ∀ p, store p [] = p
  append : ∀ p x y, store p (x ++ y) = store (store p x) y
  place : ∀ p v run, store (p.place v) run = (store p run).place v
  keeps : ∀ p run, (store p run).state = p.state ∧ (store p run).lenient = p.lenient
  later : ∀ p v i j n read b, Later n (stop (p.place v) i (n + read) b) (stop p j read b)

theorem scans_url : Scans storeUrl stopUrl where
  nil _ := by simp [storeUrl]
  append _ _ _ := by simp only [storeUrl, append_assoc, foldl_append, length_append, Nat.add_assoc]
  place _ _ _ := rfl
  keeps _ _ := ⟨rfl, rfl⟩
  later _ _ _ _ _ _ _ := ite_both (later_go rfl) (ite_both later_fail later_fail)

theorem scans_reason : Scans storeReason stopReason where
  nil _ := by simp [storeReason]
  append _ _ _ := by simp only [storeReason, append_assoc, length_append, Nat.add_assoc]
  place _ _ _ := rfl
  keeps _ _ := ⟨rfl, rfl⟩
  later _ _ _ _ _ _ _ := ite_both later_fail (later_go rfl)

theorem scans_field : Scans storeField stopField where
  nil _ := by simp [storeField]
  append _ _ _ := by simp only [storeField, append_assoc, length_append, Nat.add_assoc]
  place _ _ _ := rfl
  keeps _ _ := ⟨rfl, rfl⟩
  later p v i j n read b := by
    refine ite_both later_fail ?_
    rcases valueStart_place p v (j + read + 1) (i + (n + read) + 1) with
      ⟨q, q', hq, hq', hsame⟩ | ⟨code, reason, k, k', hq, hq'⟩
    · rw [hq, hq']
      obtain ⟨u, rfl⟩ := place_of_blur hsame
      exact later_go rfl
    · rw [hq, hq']
      exact later_fail

theorem scans_value : Scans storeValue stopValue where
  nil _ := by simp [storeValue]
  append _ _ _ := by simp only [storeValue, append_assoc]
  place _ _ _ := rfl
  keeps _ _ := ⟨rfl, rfl⟩
  later p v i j n read b := by
    refine ite_both later_fail (ite_both later_fail ?_)
    have hread : { p.place v with
        value := (p.place v).value.rdropWhile isBlank
        nread := (p.place v).nread + ((p.place v).value.rdropWhile isBlank).length } =
        Parser.place { p with
          value := p.value.rdropWhile isBlank
          nread := p.nread + (p.value.rdropWhile isBlank).length } v := rfl
    dsimp only
    rw [hread]
    generalize ({ p with
      value := p.value.rdropWhile isBlank
      nread := p.nread + (p.value.rdropWhile isBlank).length } : Parser) = q
    refine ite_both later_fail ?_
    rcases framingValue_place q v (j + read) (i + (n + read)) with
      ⟨r, r', hr, hr', hsame⟩ | ⟨code, reason, k, k', hr, hr'⟩
    · rw [hr, hr']
      obtain ⟨u, rfl⟩ := place_of_blur hsame
      dsimp only
      rw [fieldDone_place]
      exact later_go rfl
    · rw [hr, hr']
      exact later_fail

theorem scans_ext : Scans storeExt stopExt where
  nil _ := rfl
  append _ _ _ := rfl
  place _ _ _ := rfl
  keeps _ _ := ⟨rfl, rfl⟩
  later p v i j n read b := by
    refine ite_both later_fail ?_
    cases b == 13 with
    | true | false => exact later_go rfl

theorem scan_place {isIn : UInt8 → Bool} {store : Parser → Bytes → Parser} {counted : Bool} {stop : Stop}
    (hscans : Scans store stop) (rest : Bytes) :
    Same (scan isIn store counted stop (p.place v) j rest) (scan isIn store counted stop p i rest) := by
  unfold scan
  dsimp only
  rw [hscans.place]
  cases rest.dropWhile isIn with
  | nil => exact same_go (by rfl)
  | cons b =>
    have hstop := hscans.later (store p (rest.takeWhile isIn)) v j i 0 (rest.takeWhile isIn).length b
    rw [Nat.zero_add] at hstop
    exact ite_both same_fail hstop.same

theorem bodyTurn_place {last : Parser → Nat → Nat → List Call → Round}
    (hlast : ∀ p read calls, Same (last (p.place v) j read calls) (last p i read calls)) (rest : Bytes) :
    Same (bodyTurn last (p.place v) j rest) (bodyTurn last p i rest) := by
  unfold bodyTurn takeBody
  exact ite_both (hlast (took p _) _ _) (same_go (by rfl))

theorem lastChunk_place (read : Nat) (calls : List Call) :
    Same (lastChunk (p.place v) j read calls) (lastChunk p i read calls) :=
  same_go (by rfl)

/-- The turns that look at one byte: a tree of tests on it, and at each leaf the same change or the same error. -/
theorem byteTurn_place (state : State) : Same (byteTurn ret (p.place v) j c state) (byteTurn ret p i c state) := by
  cases state with
  | method => exact methodTurn_place ..
  | fieldStart => exact fieldStartTurn_place ..
  | headEndLf => exact headEndLfTurn_place ..
  | chunkSize => exact chunkSizeTurn_place ..
  | _ =>
    simp only [byteTurn, startTurn, closedTurn, urlStartTurn, protoTurn, majorTurn, dotTurn, minorTurn, reqLineEndTurn,
      statusStartTurn, statusTurn, statusEndTurn, valueOwsTurn, chunkSizeLfTurn, chunkDataCrTurn, chunkDataLfTurn]
    repeat' first
      | exact same_go (by rfl)
      | exact same_fail
      | exact same_halt rfl
      | apply ite_both

/-- **Indexes do not matter.** A turn tells where it stands only through indexes. -/
theorem turn_place (tail : Bytes) : Same (turn ret ⟨p.place v, j⟩ c tail) (turn ret ⟨p, i⟩ c tail) := by
  unfold turn
  dsimp only
  have hstate : (p.place v).state = p.state := rfl
  rw [hstate]
  cases p.state with
  | url => exact scan_place p v i j scans_url _
  | reason => exact scan_place p v i j scans_reason _
  | field => exact scan_place p v i j scans_field _
  | value => exact scan_place p v i j scans_value _
  | chunkExt => exact scan_place p v i j scans_ext _
  | bodyLength => exact bodyTurn_place p v i j (fun _ _ _ => endMessage_place ..) _
  | chunkData => exact bodyTurn_place p v i j (fun _ _ _ => lastChunk_place ..) _
  | bodyEof => exact same_go (by rfl)
  | _ => exact byteTurn_place ..

end Place

end Oam.Http.HttpParser
