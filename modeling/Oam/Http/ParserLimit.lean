/-
  `node:_http_common`: a head that is handed out is under the limit.  A name is counted as it is read and the limit is
  checked behind it — if the buffer goes on.  So over ONE call the count is under the limit at every turn (`Under`).
-/
import Oam.Http.ParserRuns

namespace Oam.Http.HttpParser

open List Bytes Feed

/-! ## Specification -/

def fieldsSize : List (Bytes × Bytes) → Nat
  | [] => 0
  | f :: fields => f.1.length + f.2.length + fieldsSize fields

/-- What a call adds to the bytes that were handed out of the head. -/
def handed (n : Nat) : Call → Nat
  | .messageBegin => 0
  | .headers fields url => n + fieldsSize fields + url.length
  | .headersComplete args =>
    n + fieldsSize (args.headers.getD []) + (args.url.getD []).length + (args.reason.getD []).length
  | _ => n

def Call.isComplete : Call → Bool
  | .headersComplete _ => true
  | _ => false

/-- Each head that is complete was handed out with less than `max` bytes; `n` went out before. -/
def HeadsUnder (max : Nat) : Nat → List Call → Prop
  | _, [] => True
  | n, call :: calls => (call.isComplete = true → handed n call < max) ∧ HeadsUnder max (handed n call) calls

variable {max n : Nat}

theorem headsUnder_append {x y : List Call} :
    HeadsUnder max n (x ++ y) ↔ HeadsUnder max n x ∧ HeadsUnder max (x.foldl handed n) y := by
  induction x generalizing n with
  | nil => simp [HeadsUnder]
  | cons call x ih => rw [cons_append, HeadsUnder, HeadsUnder, ih, foldl_cons, and_assoc]

theorem headsUnder_consCall (call : Call) (calls : List Call) :
    HeadsUnder max n (consCall call calls) ↔ HeadsUnder max n (call :: calls) := by
  cases call with
  | body =>
    cases calls with
    | nil => exact Iff.rfl
    | cons next =>
      cases next with
      | body => simp [consCall, HeadsUnder, handed, Call.isComplete]
      | _ => exact Iff.rfl
  | _ => exact Iff.rfl

theorem headsUnder_joinBodies (calls : List Call) : HeadsUnder max n (joinBodies calls) ↔ HeadsUnder max n calls := by
  induction calls generalizing n with
  | nil => exact Iff.rfl
  | cons call calls ih => rw [joinBodies_cons, headsUnder_consCall, HeadsUnder, HeadsUnder, ih]

/-! ## The invariant -/

def held (p : Parser) : Nat :=
  fieldsSize p.fields + p.url.length + p.reason.length + (if p.state.inField then p.field.length else 0)

/-- In a head of which `n` bytes are handed out: all of it is counted, and the count is under the limit. -/
structure Under (p : Parser) (n : Nat) : Prop where
  counted : p.trailers = false → n + held p ≤ p.nread
  below : p.trailers = false → p.nread < p.max

def Holds (p : Parser) (rest : Bytes) : Round → Prop
  | .next s read calls => ∀ n, Under p n → HeadsUnder p.max n calls ∧ s.p.max = p.max ∧
      (rest.drop read ≠ [] → Under s.p (calls.foldl handed n))
  | .halt _ calls => ∀ n, Under p n → HeadsUnder p.max n calls

section Holds

variable {p q : Parser} {rest : Bytes}

theorem holds_fail {err : ParseError} : Holds p rest (fail q err []) := fun _ _ => trivial

theorem holds_ite {P : Prop} [Decidable P] {r₁ r₂ : Round} (hpos : Holds p rest r₁)
    (hneg : Holds p rest r₂) : Holds p rest (if P then r₁ else r₂) :=
  iteInduction (fun _ => hpos) fun _ => hneg

theorem Under.congr {n : Nat} (h : Under p n) (hpart : headPart q = headPart p)
    (hopen : q.state.inField = p.state.inField) : Under q n := by
  simp only [headPart, Prod.mk.injEq] at hpart
  obtain ⟨hmax, htrailers, hnread, hfields, hurl, hreason, hfield⟩ := hpart
  have hheld : held q = held p := by
    unfold held
    rw [hfields, hurl, hreason, hfield, hopen]
  constructor
  · rw [hheld, hnread, htrailers]
    exact h.counted
  · rw [hnread, hmax, htrailers]
    exact h.below

theorem holds_go {i read : Nat} {s : State} (hp : p.state = s) (hopen : q.state.inField = s.inField)
    (hpart : headPart q = headPart p) : Holds p rest (go q i read []) :=
  fun _ hunder => ⟨trivial, (Prod.mk.inj hpart).1, fun _ => hunder.congr hpart (hp ▸ hopen)⟩

theorem PlainTurn.holds {c : UInt8} {n : Nat} {r : Round} (h : PlainTurn p c n r) : Holds p rest r := by
  cases r with
  | halt =>
    obtain ⟨rfl, -⟩ := h
    exact fun _ _ => trivial
  | next w =>
    obtain ⟨rfl, -, -, -, hopen, hpart, -⟩ := h
    exact holds_go (i := w.i) rfl hopen hpart

end Holds

section Turns

variable {p : Parser} (i : Nat) (c : UInt8) (rest : Bytes)

theorem startTurn_holds (hmax : 0 < p.max) (h : p.state = .start) : Holds p rest (startTurn p i c) := by
  unfold startTurn
  refine holds_ite (holds_go h (by rw [h]) rfl) fun n _ => ⟨⟨nofun, trivial⟩, rfl, fun _ => ?_⟩
  refine ⟨fun _ => ?_, fun _ => hmax⟩
  dsimp only
  cases p.type with
  | request | response => exact Nat.le_refl 0

theorem fieldsSize_append (x y : List (Bytes × Bytes)) : fieldsSize (x ++ y) = fieldsSize x + fieldsSize y := by
  induction x with
  | nil => rw [nil_append, fieldsSize, Nat.zero_add]
  | cons f x ih =>
    rw [cons_append, fieldsSize, fieldsSize, ih]
    omega

theorem fieldStartTurn_holds (h : p.state = .fieldStart) : Holds p rest (fieldStartTurn p i c) := by
  unfold fieldStartTurn
  refine holds_ite (holds_go h rfl rfl) (holds_ite (holds_go h rfl rfl) (holds_ite ?_
    (holds_ite holds_fail (holds_ite ?_ ?_))))
  · cases p.lenient.headers with
    | false => exact holds_fail
    | true =>
      cases hlast : p.fields.getLast? with
      | none => exact holds_fail
      | some last =>
        -- the value is held no more, its name still is
        refine fun n hunder => ⟨trivial, rfl, fun _ => ⟨fun hhead => ?_, hunder.below⟩⟩
        have hcounted := hunder.counted hhead
        have hsize : fieldsSize p.fields.dropLast + (last.1.length + last.2.length) = fieldsSize p.fields := by
          rw [← dropLast_append_getLast? _ hlast, fieldsSize_append, dropLast_concat]
          rfl
        have hin : p.state.inField = false := by rw [h]; rfl
        show n + (fieldsSize p.fields.dropLast + p.url.length + p.reason.length + last.1.length) ≤ p.nread
        unfold held at hcounted
        rw [hin, if_neg Bool.false_ne_true] at hcounted
        omega
  · refine fun n hunder => ⟨⟨nofun, trivial⟩, rfl, fun _ => ⟨fun hhead => ?_, hunder.below⟩⟩
    have hcounted := hunder.counted hhead
    show n + fieldsSize p.fields + p.url.length + (0 + 0 + p.reason.length + 0) ≤ p.nread
    unfold held at hcounted
    omega
  · refine fun n hunder => ⟨trivial, rfl, fun _ => ⟨fun hhead => ?_, hunder.below⟩⟩
    have hcounted := hunder.counted hhead
    show n + (fieldsSize p.fields + p.url.length + p.reason.length + 0) ≤ p.nread
    unfold held at hcounted
    omega

end Turns

/-! ### The end of a head and of a message -/

section End

variable {p q : Parser} {rest : Bytes}

theorem under_of_trailers {n : Nat} (h : p.trailers) : Under p n := by
  have hnot : ¬ p.trailers = false := by
    rw [h]
    exact Bool.noConfusion
  exact ⟨fun hhead => absurd hhead hnot, fun hhead => absurd hhead hnot⟩

variable {calls : List Call}

theorem headsUnder_of_none {max n : Nat} (h : ∀ k ∈ calls, k.isComplete = false) : HeadsUnder max n calls := by
  induction calls generalizing n with
  | nil => trivial
  | cons call calls ih =>
    obtain ⟨hcall, hcalls⟩ := forall_mem_cons.mp h
    exact ⟨fun hc => (nomatch hcall.symm.trans hc), ih hcalls⟩

theorem messageComplete_calls (q : Parser) : ∀ k ∈ (messageComplete q).2, k.isComplete = false := by
  unfold messageComplete
  split
  · exact forall_mem_cons.mpr ⟨rfl, forall_mem_singleton.mpr rfl⟩
  · exact forall_mem_singleton.mpr rfl

theorem messageComplete_head (q : Parser) : (messageComplete q).1.max = q.max ∧ (messageComplete q).1.trailers =
    q.trailers ∧ (q.trailers = false → messageComplete q = (q, [.messageComplete])) := by
  unfold messageComplete
  by_cases h : (q.trailers && !q.fields.isEmpty)
  · rw [if_pos h]
    refine ⟨rfl, rfl, fun hhead => ?_⟩
    rw [hhead, Bool.false_and] at h
    cases h
  · rw [if_neg h]
    exact ⟨rfl, rfl, fun _ => rfl⟩

theorem endMessage_holds {i read : Nat} {stop : Bool} (hmax : q.max = p.max)
    (hcalls : ∀ n, Under p n → HeadsUnder p.max n calls)
    (hunder : ∀ n, Under p n → q.trailers ∨ (Under q (calls.foldl handed n) ∧ q.state.inField = false)) :
    Holds p rest (endMessage q i read stop calls) := by
  obtain ⟨hdoneMax, hdoneTrailers, hdone⟩ := messageComplete_head (ended q stop)
  have hall (n : Nat) (h : Under p n) : HeadsUnder p.max n (calls ++ (messageComplete (ended q stop)).2) :=
    headsUnder_append.mpr ⟨hcalls n h, headsUnder_of_none (messageComplete_calls _)⟩
  unfold endMessage
  refine holds_ite hall fun n h => ⟨hall n h, hdoneMax.trans hmax, fun _ => ?_⟩
  cases htrailers : q.trailers with
  | true => exact under_of_trailers (hdoneTrailers.trans htrailers)
  | false =>
    have hnot : (ended q stop).trailers = false := htrailers
    obtain ⟨hq, hin⟩ := (hunder n h).resolve_left (by rw [htrailers]; exact Bool.false_ne_true)
    have hended : (ended q stop).state.inField = false := by
      unfold ended
      dsimp only
      split
      · rfl
      · split <;> rfl
    have hheld : held (ended q stop) = held q := by
      unfold held
      rw [hended, hin]
      rfl
    rw [hdone hnot, foldl_append]
    exact ⟨fun hhead => by rw [hheld]; exact hq.counted hhead, hq.below⟩

theorem handed_headArgs (q : Parser) (m : Nat) : handed m (.headersComplete (headArgs q)) ≤
    m + (if q.flushed then 0 else fieldsSize q.fields + q.url.length) + q.reason.length := by
  unfold headArgs handed
  cases q.flushed with
  | true =>
    cases q.type with
    | request => exact Nat.le_add_right ..
    | response => exact Nat.le_refl _
  | false =>
    cases q.type with
    | request =>
      show m + fieldsSize q.fields + q.url.length + 0 ≤ m + (fieldsSize q.fields + q.url.length) + q.reason.length
      omega
    | response =>
      show m + fieldsSize q.fields + 0 + q.reason.length ≤ m + (fieldsSize q.fields + q.url.length) + q.reason.length
      omega

theorem headCalls_under (n : Nat) (h : Under p n) (hhead : p.trailers = false) :
    HeadsUnder p.max n (headCalls (headDone p)) := by
  have hcounted := h.counted hhead
  have hbelow := h.below hhead
  have hargs := handed_headArgs (headDone p)
  unfold held at hcounted
  unfold headCalls
  cases hflushed : (headDone p).flushed with
  | true =>
    refine ⟨nofun, fun _ => ?_, trivial⟩
    refine Nat.lt_of_le_of_lt (hargs _) ?_
    rw [hflushed]
    show n + fieldsSize p.fields + p.url.length + 0 + p.reason.length < p.max
    omega
  | false =>
    refine ⟨fun _ => Nat.lt_of_le_of_lt (hargs _) ?_, trivial⟩
    rw [hflushed]
    show n + (fieldsSize p.fields + p.url.length) + p.reason.length < p.max
    omega

theorem bodyFollows_holds {i read : Nat} {stop : Bool} (hmax : q.max = p.max)
    (hcalls : ∀ n, Under p n → HeadsUnder p.max n calls) (htrailers : q.trailers) :
    Holds p rest (bodyFollows q i read stop calls) := by
  have hend : Holds p rest (endMessage q i read stop calls) :=
    endMessage_holds hmax hcalls fun _ _ => .inl htrailers
  unfold bodyFollows
  refine holds_ite hcalls (holds_ite hend (holds_ite ?_ (holds_ite ?_ (holds_ite hend ?_))))
  · exact fun n h => ⟨hcalls n h, hmax, fun _ => under_of_trailers htrailers⟩
  · exact fun n h => ⟨hcalls n h, hmax, fun _ => under_of_trailers htrailers⟩
  · exact fun n h => ⟨hcalls n h, hmax, fun _ => under_of_trailers htrailers⟩

theorem headEndLfTurn_holds {ret : HeadArgs → Ret} {i : Nat} {c : UInt8} : Holds p rest (headEndLfTurn ret p i c) := by
  have hend (read : Nat) : Holds p rest (headEnd ret p i read) := by
    unfold headEnd
    by_cases htrailers : p.trailers
    · rw [if_pos htrailers]
      exact endMessage_holds rfl (fun _ _ => trivial) fun _ _ => .inl htrailers
    rw [if_neg htrailers]
    have hhead : p.trailers = false := Bool.eq_false_of_not_eq_true htrailers
    have hmax (q : Parser) (answer : Ret) : (afterHead q answer).max = q.max := by
      unfold afterHead
      split <;> rfl
    unfold headersComplete
    exact bodyFollows_holds (hmax _ _) (fun n h => headCalls_under n h hhead) rfl
  unfold headEndLfTurn
  exact holds_ite (holds_ite holds_fail (hend 0)) (hend 1)

end End

/-! ### Turns that run on -/

section RunOn

variable {p : Parser} {rest : Bytes}

variable (i : Nat)

theorem scan_holds {isIn : UInt8 → Bool} {store : Parser → Bytes → Parser} {counted : Bool} {stop : Stop}
    (hmax : ∀ run, (store p run).max = p.max)
    (hstop : ∀ run read b, (counted → run ≠ [] → (store p run).nread < p.max) →
      Holds p rest (stop (store p run) i read b)) :
    Holds p rest (scan isIn store counted stop p i rest) := by
  unfold scan
  dsimp only
  cases hdrop : rest.dropWhile isIn with
  | nil =>
    refine fun n h => ⟨trivial, hmax _, fun hleft => ?_⟩
    -- the whole buffer is read
    have hall : rest.takeWhile isIn = rest := takeWhile_eq_self_iff.mpr (dropWhile_eq_nil_iff.mp hdrop)
    rw [hall, drop_length] at hleft
    exact absurd rfl hleft
  | cons b =>
    by_cases hfull : (counted && !(rest.takeWhile isIn).isEmpty && overflows (store p (rest.takeWhile isIn)))
    · dsimp only
      rw [if_pos hfull]
      exact holds_fail
    · dsimp only
      rw [if_neg hfull]
      refine hstop _ _ b fun hcounted hrun => ?_
      have hsome : (rest.takeWhile isIn).isEmpty = false := isEmpty_eq_false_iff.mpr hrun
      rw [hcounted, hsome, Bool.not_false, Bool.and_true, Bool.true_and] at hfull
      have hfits : ¬ (store p (rest.takeWhile isIn)).max ≤ (store p (rest.takeWhile isIn)).nread :=
        fun hle => hfull (decide_eq_true hle)
      rw [hmax] at hfits
      exact Nat.lt_of_not_le hfits

theorem nread_lt {run : Bytes} {k m : Nat} (hbelow : k < m) (hcheck : run ≠ [] → k + run.length < m) :
    k + run.length < m := by
  cases run with
  | nil => exact hbelow
  | cons b run => exact hcheck (cons_ne_nil b run)

theorem url_holds : Holds p rest (scan isUrlByte storeUrl true stopUrl p i rest) := by
  refine scan_holds i (fun _ => rfl) fun run read b hcheck => ?_
  unfold stopUrl
  refine holds_ite (fun n hunder => ⟨trivial, rfl, fun _ => ⟨fun hhead => ?_, fun hhead => ?_⟩⟩)
    (holds_ite holds_fail holds_fail)
  · have hcounted := hunder.counted hhead
    show n + (fieldsSize p.fields + (p.url ++ run).length + p.reason.length + 0) ≤ p.nread + run.length
    unfold held at hcounted
    rw [length_append]
    omega
  · exact nread_lt (hunder.below hhead) (hcheck rfl)

theorem reason_holds : Holds p rest (scan (fun b => !isEol b) storeReason true stopReason p i rest) := by
  refine scan_holds i (fun _ => rfl) fun run read b hcheck => ?_
  unfold stopReason
  refine holds_ite holds_fail fun n hunder => ⟨trivial, rfl, fun _ => ⟨fun hhead => ?_, fun hhead => ?_⟩⟩
  · have hcounted := hunder.counted hhead
    have hstate : (if b == 13 then State.lineLf else State.fieldStart).inField = false := by
      split <;> rfl
    show n + (fieldsSize p.fields + p.url.length + (p.reason ++ run).length +
      if (if b == 13 then State.lineLf else State.fieldStart).inField then p.field.length else 0) ≤
      p.nread + run.length
    unfold held at hcounted
    rw [hstate, length_append, if_neg Bool.false_ne_true]
    omega
  · exact nread_lt (hunder.below hhead) (hcheck rfl)

theorem field_holds (h : p.state = .field) : Holds p rest (scan isToken storeField true stopField p i rest) := by
  refine scan_holds i (fun _ => rfl) fun run read b hcheck => ?_
  unfold stopField
  refine holds_ite holds_fail ?_
  cases hstart : valueStart (storeField p run) (i + read + 1) with
  | error => exact holds_fail
  | ok =>
    have hpart := headPart_of_kept (valueStart_kept hstart)
    refine fun n hunder => ⟨trivial, (Prod.mk.inj hpart).1, fun _ => ?_⟩
    refine Under.congr (p := { storeField p run with state := .valueOws }) ⟨fun hhead => ?_, fun hhead => ?_⟩ hpart rfl
    · have hcounted := hunder.counted hhead
      show n + (fieldsSize p.fields + p.url.length + p.reason.length + (p.field ++ run).length) ≤ p.nread + run.length
      rw [held, if_pos (by rw [h]; rfl)] at hcounted
      rw [length_append]
      omega
    · exact nread_lt (hunder.below hhead) (hcheck rfl)

theorem value_holds (h : p.state = .value) :
    Holds p rest (scan (isValueByte p.lenient.headers) storeValue false stopValue p i rest) := by
  refine scan_holds i (fun _ => rfl) fun run read b _ => ?_
  unfold stopValue
  refine holds_ite holds_fail (holds_ite holds_fail ?_)
  generalize hv : (storeValue p run).value.rdropWhile isBlank = v
  dsimp only
  by_cases hfull : overflows { storeValue p run with value := v, nread := (storeValue p run).nread + v.length }
  · rw [if_pos hfull]
    exact holds_fail
  rw [if_neg hfull]
  have hfits : p.nread + v.length < p.max :=
    Nat.lt_of_not_le fun hle => hfull (decide_eq_true hle)
  cases hvalue : framingValue { storeValue p run with
      value := v, nread := (storeValue p run).nread + v.length } (i + read) with
  | error => exact holds_fail
  | ok r =>
    obtain ⟨hkept, htext⟩ := framingValue_kept hvalue
    have hpart := headPart_of_kept hkept
    have hdone := headPart_of_kept (fieldDone_kept r)
    refine fun n hunder => ⟨trivial, (Prod.mk.inj hdone).1.trans (Prod.mk.inj hpart).1, fun _ => ?_⟩
    have hstate : (if b == 10 then State.fieldStart else State.valueLf).inField = false := by
      split <;> rfl
    refine Under.congr (p := { r with fields := r.fields ++ [(r.field, r.value)], state := .fieldStart }) ?_ hdone hstate
    simp only [headPart, Prod.mk.injEq] at hpart
    obtain ⟨hmax, htrailers, hnread, hfields, hurl, hreason, hfield⟩ := hpart
    refine ⟨fun hhead => ?_, fun _ => ?_⟩
    · have hcounted := hunder.counted (htrailers ▸ hhead)
      show n + (fieldsSize (r.fields ++ [(r.field, r.value)]) + r.url.length + r.reason.length + 0) ≤ r.nread
      rw [hurl, hreason, hnread, hfields, hfield, htext, fieldsSize_append]
      show n + (fieldsSize p.fields + (p.field.length + v.length) + p.url.length + p.reason.length + 0) ≤
        p.nread + v.length
      rw [held, if_pos (by rw [h]; rfl)] at hcounted
      omega
    · show r.nread < r.max
      rw [hnread, hmax]
      exact hfits

theorem chunkExt_holds (h : p.state = .chunkExt) :
    Holds p rest (scan (fun b => !isEol b) storeExt false stopExt p i rest) := by
  refine scan_holds i (fun _ => rfl) fun run read b _ => ?_
  unfold stopExt storeExt
  exact holds_ite holds_fail (holds_go h rfl rfl)

theorem bodyTurn_holds {last : Parser → Nat → Nat → List Call → Round}
    (hlast : ∀ read chunk, Holds p rest (last (took p read) i read [.body chunk])) :
    Holds p rest (bodyTurn last p i rest) := by
  unfold bodyTurn takeBody
  refine holds_ite (hlast _ _) fun n hunder => ⟨⟨nofun, trivial⟩, rfl, fun _ => ?_⟩
  exact ⟨hunder.counted, hunder.below⟩

end RunOn

/-! ## A whole call -/

theorem turn_holds (ret : HeadArgs → Ret) {p : Parser} (hmax : 0 < p.max) (i : Nat) (c : UInt8) (tail : Bytes) :
    Holds p (c :: tail) (turn ret ⟨p, i⟩ c tail) := by
  by_cases hplain : p.state.plain
  · exact (turn_plain ret hplain i c tail).holds
  unfold turn
  dsimp only
  cases h : p.state with
  | url => exact url_holds i
  | reason => exact reason_holds i
  | field => exact field_holds i h
  | value => exact value_holds i h
  | chunkExt => exact chunkExt_holds i h
  | bodyLength =>
    refine bodyTurn_holds i fun read chunk => ?_
    refine endMessage_holds rfl (fun _ _ => ⟨fun hc => (by cases hc), trivial⟩) fun n hunder => ?_
    exact .inr ⟨⟨hunder.counted, hunder.below⟩, by rw [took, h]; rfl⟩
  | chunkData =>
    refine bodyTurn_holds i fun read chunk => ?_
    refine fun n hunder => ⟨⟨fun hc => (by cases hc), trivial⟩, rfl, fun _ => ⟨fun hhead => ?_, hunder.below⟩⟩
    have hcounted := hunder.counted hhead
    unfold held at hcounted
    rw [h] at hcounted
    exact hcounted
  | bodyEof =>
    exact fun n hunder => ⟨⟨fun hc => (by cases hc), trivial⟩, rfl, fun _ => hunder⟩
  | start => exact startTurn_holds i c _ hmax h
  | fieldStart => exact fieldStartTurn_holds i c _ h
  | headEndLf => exact headEndLfTurn_holds
  | upgraded | error => exact fun _ _ => trivial
  | _ =>
    rw [h] at hplain
    exact absurd rfl hplain

/-- **One call hands out no head that reaches the limit.** -/
theorem runs_under {ret : HeadArgs → Ret} {s w : Cursor} {buf : Bytes} {calls : List Call} {n : Nat}
    (hruns : Runs (turn ret) s buf w calls) (hmax : 0 < s.p.max) (hunder : buf ≠ [] → Under s.p n) :
    HeadsUnder s.p.max n calls := by
  induction hruns generalizing n with
  | nil => trivial
  | @halt s w c tail calls hturn =>
    have hholds := turn_holds ret hmax s.i c tail
    rw [show turn ret ⟨s.p, s.i⟩ c tail = _ from hturn] at hholds
    exact hholds n (hunder (cons_ne_nil c tail))
  | @next s s' w c tail read calls more hturn hrest ih =>
    have hholds := turn_holds ret hmax s.i c tail
    rw [show turn ret ⟨s.p, s.i⟩ c tail = _ from hturn] at hholds
    obtain ⟨hhere, hsame, hlater⟩ := hholds n (hunder (cons_ne_nil c tail))
    have hmore := ih (by rw [hsame]; exact hmax) hlater
    rw [hsame] at hmore
    exact headsUnder_append.mpr ⟨hhere, hmore⟩

-- A full name ends at the cut, and its value is counted.
example : cleanCuts (fun _ => .other) (initParser .request 3 kLenientNone)
    [ascii "GET / HTTP/1.1\r\nAb", ascii ": c\r\n\r\n"] = true := by decide +kernel

end Oam.Http.HttpParser
