/-
  `node:_http_common`: whole runs of the parser, over any buffers.  Every turn reads, or the state comes closer to
  reading (`State.rank`), so the loop ends; it stops before the buffer does only on an error or where the connection is
  handed over, and the latter shows in the calls (`Good`).
-/
import Oam.Http.ParserCuts

namespace Oam.Http.HttpParser

open Nat List Feed Number

/-! ## Every turn gets on -/

/-- How many turns a state can take without reading the byte `c`. -/
def State.rank (c : UInt8) : State → Nat
  | .start => 1
  | .closed => 2
  | .urlStart => 1
  | .status => 1
  | .lineLf => 2
  | .valueLf => 2
  | .fieldStart => 1
  | .valueOws => 1
  | .headEndLf => if c = 10 then 0 else 4
  | .bodyLength => 3
  | .chunkSizeStart => 2
  | .chunkSize => if c = 10 then 1 else 0
  | .chunkExt => 1
  | .chunkSizeLf => if c = 10 then 0 else 5
  | .chunkData => 4
  | .chunkDataCr => 3
  | .chunkDataLf => 3
  | _ => 0

open State

/-- A byte is read within six turns. -/
theorem State.rank_lt (c : UInt8) (s : State) : s.rank c < 6 := by
  cases s <;> simp only [rank] <;> (try split) <;> decide

theorem State.lt_rank {s t : State} {c : UInt8} {m : Nat} (h : s = t) (hm : m < t.rank c) : m < s.rank c := by
  rw [h]
  exact hm

/-- Neither failed nor handed over. -/
def State.live : State → Bool
  | .error _ => false
  | .upgraded => false
  | _ => true

/-- The states of a status line. -/
def State.responds : State → Bool
  | .resProto => true
  | .statusStart => true
  | .status => true
  | .statusEnd => true
  | .reason => true
  | _ => false

/-- The connection will not be handed over when this message ends, and a request has no status. -/
structure Good (p : Parser) : Prop where
  live : p.state.live = true
  owes : p.upgradeAfterBody = false
  asks : p.type = .request → p.status = 0 ∧ p.versionNext = .reqLineEnd ∧ p.state.responds = false

/-- What a round at the byte `c`, with `n` bytes from there on, may come to. -/
def Advances (ret : HeadArgs → Ret) (p : Parser) (c : UInt8) (n : Nat) : Round → Prop
  | .next s read calls => read ≤ n ∧ (read = 0 → s.p.state.rank c < p.state.rank c) ∧
      s.p.state.live = true ∧ (Good p → (∀ k ∈ calls, Stays ret k) → Good s.p)
  | .halt s calls => Good p → (∀ k ∈ calls, Stays ret k) → s.p.state.isError = true

section Advances

variable {ret : HeadArgs → Ret} {p q : Parser} {c : UInt8} {n : Nat}

/-- A failure needs nothing. -/
theorem advances_fail {err : ParseError} {calls : List Call} : Advances ret p c n (fail q err calls) :=
  fun _ _ => rfl

theorem advances_ite {P : Prop} [Decidable P] {r₁ r₂ : Round} (hpos : Advances ret p c n r₁)
    (hneg : Advances ret p c n r₂) : Advances ret p c n (if P then r₁ else r₂) :=
  iteInduction (fun _ => hpos) fun _ => hneg

/-- What `Good` reads besides the state. -/
def framePart (p : Parser) := (p.type, p.upgradeAfterBody, p.status, p.versionNext)

/-- `Good` depends on the frame and the state alone. -/
theorem Good.keeps (h : Good p) (hkeeps : framePart q = framePart p) (hlive : q.state.live)
    (hresponds : q.state.responds → p.state.responds) : Good q := by
  simp only [framePart, Prod.mk.injEq] at hkeeps
  obtain ⟨htype, howes, hstatus, hnext⟩ := hkeeps
  refine ⟨hlive, howes.trans h.owes, fun hreq => ?_⟩
  obtain ⟨hzero, hline, hasks⟩ := h.asks (htype ▸ hreq)
  exact ⟨hstatus.trans hzero, hnext.trans hline, Bool.eq_false_iff.mpr fun hq => Bool.eq_false_iff.mp hasks (hresponds hq)⟩

variable {i : Nat}

theorem advances_go {read : Nat} {calls : List Call} (hread : read ≤ n)
    (hrank : read = 0 → q.state.rank c < p.state.rank c) (hlive : q.state.live)
    (hgood : Good p → (∀ k ∈ calls, Stays ret k) → Good q) : Advances ret p c n (go q i read calls) :=
  ⟨hread, hrank, hlive, hgood⟩

/-- A turn that reads one byte gets on. -/
theorem advances_one (hn : 1 ≤ n) (hkeeps : framePart q = framePart p) (hlive : q.state.live)
    (hresponds : q.state.responds → p.state.responds) : Advances ret p c n (go q i 1 []) :=
  advances_go hn nofun hlive fun hgood _ => hgood.keeps hkeeps hlive hresponds

/-- A turn that reads nothing gets on if the rank falls. -/
theorem advances_none (hkeeps : framePart q = framePart p) (hlive : q.state.live)
    (hresponds : q.state.responds → p.state.responds) (hrank : q.state.rank c < p.state.rank c) :
    Advances ret p c n (go q i 0 []) :=
  advances_go (zero_le _) (fun _ => hrank) hlive fun hgood _ => hgood.keeps hkeeps hlive hresponds

end Advances

/-! ### Plain turns -/

/-- The state has a name that is not yet among the fields. -/
def State.inField : State → Bool
  | .field => true
  | .valueOws => true
  | .value => true
  | _ => false

/-- What is read of a parser besides its state to tell what it holds and counts. -/
def headPart (p : Parser) : Nat × Bool × Nat × List (Bytes × Bytes) × Bytes × Bytes × Bytes :=
  (p.max, p.trailers, p.nread, p.fields, p.url, p.reason, p.field)

/-- The head, and what `Good` reads besides the state. -/
def keptPart (p : Parser) := (headPart p, framePart p)

/-- Neither into a field or out of it, nor into a status line, nor to an end. -/
def State.plainTo (s t : State) : Bool := t.live && t.inField == s.inField && (s.responds || !t.responds)

/-- A turn that fails, or makes no call, gets on and leaves the head as it is. -/
def PlainTurn (p : Parser) (c : UInt8) (n : Nat) : Round → Prop
  | .next s read calls => calls = [] ∧ read ≤ n ∧ (read = 0 → s.p.state.rank c < p.state.rank c) ∧
      s.p.state.live = true ∧ s.p.state.inField = p.state.inField ∧ headPart s.p = headPart p ∧ (Good p → Good s.p)
  | .halt s calls => calls = [] ∧ s.p.state.isError = true

section Plain

variable {p q : Parser} {s : State} {c : UInt8} {n i read : Nat}

theorem plain_fail {err : ParseError} : PlainTurn p c n (fail q err []) := ⟨rfl, rfl⟩

theorem plain_ite {P : Prop} [Decidable P] {r₁ r₂ : Round} (hpos : PlainTurn p c n r₁) (hneg : PlainTurn p c n r₂) :
    PlainTurn p c n (if P then r₁ else r₂) :=
  iteInduction (fun _ => hpos) fun _ => hneg

theorem plain_go (hread : read ≤ n) (hrank : read = 0 → q.state.rank c < s.rank c) (h : p.state = s)
    (hto : s.plainTo q.state) (hkept : keptPart q = keptPart p) : PlainTurn p c n (go q i read []) := by
  subst h
  simp only [plainTo, Bool.and_eq_true, beq_iff_eq, Bool.or_eq_true, Bool.not_eq_true'] at hto
  refine ⟨rfl, hread, hrank, hto.1.1, hto.1.2, (Prod.mk.inj hkept).1, fun hgood => ?_⟩
  refine hgood.keeps (Prod.mk.inj hkept).2 hto.1.1 fun hresponds => hto.2.resolve_right ?_
  rw [hresponds]
  exact Bool.noConfusion

theorem plain_one (hn : 1 ≤ n) (h : p.state = s) (hto : s.plainTo q.state) (hkept : keptPart q = keptPart p) :
    PlainTurn p c n (go q i 1 []) :=
  plain_go hn (nomatch ·) h hto hkept

theorem plain_none (h : p.state = s) (hto : s.plainTo q.state) (hkept : keptPart q = keptPart p)
    (hrank : q.state.rank c < s.rank c) : PlainTurn p c n (go q i 0 []) :=
  plain_go (zero_le _) (fun _ => hrank) h hto hkept

theorem plain_line (hn : 1 ≤ n) (h : p.state = s) (hlive : q.state.live) (hopen : q.state.inField = s.inField)
    (hpart : headPart q = headPart p)
    (hasks : (p.type = .request → p.status = 0 ∧ p.versionNext = .reqLineEnd ∧ s.responds = false) →
      q.type = .request → q.status = 0 ∧ q.versionNext = .reqLineEnd ∧ q.state.responds = false)
    (howes : q.upgradeAfterBody = p.upgradeAfterBody) : PlainTurn p c n (go q i 1 []) :=
  ⟨rfl, hn, (nomatch ·), hlive, h ▸ hopen, hpart, fun hgood => ⟨hlive, howes.trans hgood.owes, hasks (h ▸ hgood.asks)⟩⟩

/-- A plain turn gets on. -/
theorem PlainTurn.advances {ret : HeadArgs → Ret} {r : Round} (h : PlainTurn p c n r) : Advances ret p c n r := by
  cases r with
  | halt => exact fun _ _ => h.2
  | next =>
    obtain ⟨-, hread, hrank, hlive, -, -, hgood⟩ := h
    exact ⟨hread, hrank, hlive, fun hp _ => hgood hp⟩

end Plain

section PlainTurns

variable {p : Parser} (i : Nat) (c : UInt8) {n : Nat} (hn : 1 ≤ n)

include hn

theorem methodTurn_plain (h : p.state = .method) : PlainTurn p c n (methodTurn p i c) := by
  unfold methodTurn
  refine plain_ite ?_ (plain_ite plain_fail (plain_one hn h (by rw [h]; rfl) rfl))
  cases methodIndex p.tok with
  | none => exact plain_fail
  | some => exact plain_one hn h rfl rfl

theorem chunkSizeTurn_plain (h : p.state = .chunkSize) : PlainTurn p c n (chunkSizeTurn p i c) := by
  unfold chunkSizeTurn
  cases hexValue c with
  | some => exact plain_ite plain_fail (plain_one hn h (by rw [h]; rfl) rfl)
  | none =>
    refine plain_ite plain_fail (plain_ite (plain_one hn h rfl rfl) (plain_ite (plain_one hn h rfl rfl) ?_))
    by_cases hc : (c == 10)
    · rw [if_pos hc, beq_iff_eq.mp hc]
      exact plain_ite (plain_none h rfl rfl zero_lt_one) plain_fail
    · rw [if_neg hc]
      exact plain_ite (plain_one hn h (by rw [h]; rfl) rfl) plain_fail

theorem chunkSizeLfTurn_plain (h : p.state = .chunkSizeLf) : PlainTurn p c n (chunkSizeLfTurn p i c) := by
  have hrank (hc : c ≠ 10) : rank c .chunkSizeLf = 5 := if_neg hc
  unfold chunkSizeLfTurn
  dsimp only
  by_cases hzero : p.remaining = 0
  · rw [if_pos hzero]
    refine iteInduction (fun hc => plain_ite plain_fail (plain_none h rfl rfl ?_)) fun _ => plain_one hn h rfl rfl
    rw [hrank (by simpa using hc)]
    exact (by decide : 1 < 5)
  · rw [if_neg hzero]
    refine iteInduction (fun hc => plain_ite plain_fail (plain_none h rfl rfl ?_)) fun _ => plain_one hn h rfl rfl
    rw [hrank (by simpa using hc)]
    exact Nat.lt_add_one 4

end PlainTurns

/-- The states whose turns are plain. -/
def State.plain : State → Bool
  | .closed | .method | .urlStart | .reqProto | .resProto | .major | .dot | .minor | .reqLineEnd | .lineLf | .valueLf | .statusStart
  | .status | .statusEnd | .valueOws | .chunkSizeStart | .chunkSize | .chunkSizeLf | .chunkDataCr | .chunkDataLf => true
  | _ => false

variable (ret : HeadArgs → Ret)

/-- The turns of the plain states are plain. -/
theorem turn_plain {p : Parser} (hplain : p.state.plain) (i : Nat) (c : UInt8)
    (tail : Bytes) : PlainTurn p c (tail.length + 1) (turn ret ⟨p, i⟩ c tail) := by
  have hn : 1 ≤ tail.length + 1 := Nat.le_add_left ..
  unfold turn
  dsimp only
  cases h : p.state with
  | method => exact methodTurn_plain i c hn h
  | chunkSizeStart =>
    refine plain_none h rfl rfl ?_
    show (if c = 10 then 1 else 0) < 2
    split <;> decide
  | chunkSize => exact chunkSizeTurn_plain i c hn h
  | chunkSizeLf => exact chunkSizeLfTurn_plain i c hn h
  | minor =>
    have hlive : p.versionNext.state.live ∧ p.versionNext.state.inField = false := by
      cases p.versionNext with
      | reqLineEnd | statusStart => exact ⟨rfl, rfl⟩
    refine plain_ite plain_fail (plain_ite plain_fail (plain_ite plain_fail ?_))
    refine plain_line hn h hlive.1 hlive.2 rfl (fun hasks hreq => ?_) rfl
    obtain ⟨hstatus, hnext, -⟩ := hasks hreq
    exact ⟨hstatus, hnext, congrArg (responds ∘ VersionNext.state) hnext⟩
  | closed | urlStart | reqProto | resProto | major | dot | reqLineEnd | lineLf | valueLf | statusStart | status | statusEnd
  | valueOws | chunkDataCr | chunkDataLf =>
    -- a tree of tests on the byte; at each leaf an error, or the state that follows
    simp only [byteTurn, closedTurn, urlStartTurn, protoTurn, majorTurn, dotTurn, reqLineEndTurn, lineLfTurn, valueLfTurn,
      lfTurn, statusStartTurn, statusTurn, statusEndTurn, valueOwsTurn, chunkDataCrTurn, chunkDataLfTurn]
    repeat' first
      | exact plain_fail
      | exact plain_one hn h rfl rfl
      | exact plain_one hn h (by rw [h]; rfl) rfl
      | exact plain_line hn h rfl rfl rfl (fun hasks hreq => ⟨(hasks hreq).1, rfl, rfl⟩) rfl
      | exact plain_line hn h rfl rfl rfl (fun hasks hreq => Bool.noConfusion (hasks hreq).2.2) rfl
      | exact plain_line hn h (by rw [h]; rfl) (by rw [h]) rfl (fun hasks hreq => Bool.noConfusion (hasks hreq).2.2) rfl
      | exact plain_none h rfl rfl (Nat.lt_add_one _)
      | apply plain_ite
  | _ =>
    rw [h] at hplain
    cases hplain

/-! ### Turns of a request line and of a field -/

section Turns

variable {ret : HeadArgs → Ret} {p : Parser} (i : Nat) (c : UInt8) {n : Nat} (hn : 1 ≤ n)

include hn

theorem startTurn_advances (h : p.state = .start) : Advances ret p c n (startTurn p i c) := by
  unfold startTurn
  refine advances_ite (advances_one hn rfl (by rw [h]; rfl) id) ?_
  dsimp only
  cases htype : p.type with
  | request =>
    refine advances_go (zero_le _) (fun _ => lt_rank h zero_lt_one) rfl fun hgood _ => ?_
    exact ⟨rfl, hgood.owes, fun _ => ⟨rfl, (hgood.asks htype).2.1, rfl⟩⟩
  | response =>
    refine advances_go (zero_le _) (fun _ => lt_rank h zero_lt_one) rfl fun hgood _ => ?_
    refine ⟨rfl, hgood.owes, fun hreq => ?_⟩
    have hreq : p.type = .request := hreq
    rw [htype] at hreq
    cases hreq

theorem fieldStartTurn_advances (h : p.state = .fieldStart) : Advances ret p c n (fieldStartTurn p i c) := by
  have hrank : 0 < p.state.rank c := lt_rank h zero_lt_one
  unfold fieldStartTurn
  refine advances_ite (advances_one hn rfl rfl nofun) ?_
  by_cases hlf : (c == 10 && lenientLF p)
  · rw [if_pos hlf]
    have hc : c = 10 := by
      rw [Bool.and_eq_true, beq_iff_eq] at hlf
      exact hlf.1
    refine advances_none rfl rfl nofun ?_
    rw [hc]
    rw [hc] at hrank
    exact hrank
  · rw [if_neg hlf]
    refine advances_ite ?_ (advances_ite advances_fail (advances_ite ?_ ?_))
    · cases p.lenient.headers with
      | false => exact advances_fail
      | true =>
        cases p.fields.getLast? with
        | none => exact advances_fail
        | some => exact advances_one hn rfl rfl nofun
    · refine advances_go (zero_le _) (fun _ => hrank) rfl fun hgood _ => ?_
      exact hgood.keeps rfl rfl nofun
    · exact advances_none rfl rfl nofun hrank

end Turns

/-! ### The end of a head and of a message -/

section End

variable {ret : HeadArgs → Ret} {p q : Parser} {c : UInt8} {n : Nat}

/-- The end of a message keeps the frame. -/
theorem messageComplete_keeps (q : Parser) :
    framePart (messageComplete q).1 = framePart q ∧ (messageComplete q).1.state = q.state := by
  unfold messageComplete
  split
  · exact ⟨rfl, rfl⟩
  · exact ⟨rfl, rfl⟩

variable {i read : Nat} {stop : Bool} {calls : List Call}

/-- Its turn gets on, unless the connection is handed over. -/
theorem endMessage_advances (hread : read ≤ n) (hrank : read = 0 → 2 < p.state.rank c) (hkeeps : framePart q = framePart p)
    (hstop : Good p → (∀ k ∈ calls, Stays ret k) → stop = false) :
    Advances ret p c n (endMessage q i read stop calls) := by
  unfold endMessage
  cases stop with
  | true =>
    intro hgood hstays
    have hnot := hstop hgood fun k hk => hstays k (mem_append_left _ hk)
    cases hnot
  | false =>
    obtain ⟨hdone, hstate⟩ := messageComplete_keeps (ended q false)
    obtain ⟨hlive, hasks, hclose⟩ : (ended q false).state.live ∧ (ended q false).state.responds = false ∧
        (ended q false).state.rank c ≤ 2 := by
      unfold ended
      cases q.keepAlive with
      | true => exact ⟨rfl, rfl, le_succ 1⟩
      | false => exact ⟨rfl, rfl, le_refl 2⟩
    rw [← hstate] at hlive hasks hclose
    refine advances_go hread (fun hzero => lt_of_le_of_lt hclose (hrank hzero)) hlive fun hgood _ => ?_
    refine hgood.keeps (hdone.trans hkeeps) hlive ?_
    intro hresponds
    rw [hasks] at hresponds
    cases hresponds

theorem bodyFollows_advances (hread : read ≤ n) (hrank : read = 0 → 3 < p.state.rank c)
    (hkeeps : framePart q = framePart p) (hstop : Good p → (∀ k ∈ calls, Stays ret k) → stop = false) :
    Advances ret p c n (bodyFollows q i read stop calls) := by
  have hend : Advances ret p c n (endMessage q i read stop calls) :=
    endMessage_advances hread (fun hzero => lt_of_succ_lt (hrank hzero)) hkeeps hstop
  have hbody {r : Parser} (hr : framePart r = (q.type, stop, q.status, q.versionNext)) (hlive : r.state.live)
      (hasks : r.state.responds = false) (hclose : r.state.rank c ≤ 3) : Advances ret p c n (go r i read calls) := by
    simp only [framePart, Prod.mk.injEq] at hr hkeeps
    refine advances_go hread (fun hzero => lt_of_le_of_lt hclose (hrank hzero)) hlive fun hgood hstays => ?_
    refine ⟨hlive, hr.2.1.trans (hstop hgood hstays), fun hreq => ?_⟩
    obtain ⟨hzero, hline, -⟩ := hgood.asks (hkeeps.1 ▸ hr.1 ▸ hreq)
    exact ⟨hr.2.2.1.trans (hkeeps.2.2.1.trans hzero), hr.2.2.2.trans (hkeeps.2.2.2.trans hline), hasks⟩
  unfold bodyFollows
  refine advances_ite advances_fail (advances_ite hend (advances_ite ?_ (advances_ite ?_ (advances_ite hend ?_))))
  · exact hbody rfl rfl rfl (by decide : 2 ≤ 3)
  · exact hbody rfl rfl rfl (by decide : 3 ≤ 3)
  · exact hbody rfl rfl rfl (by decide : 0 ≤ 3)

/-- A head that stays does not stop the loop. -/
theorem headStop_eq_false (hgood : Good p) (hstays : ∀ k ∈ headCalls (headDone p), Stays ret k) :
    headStop (headDone p) (ret (headArgs (headDone p))) = false := by
  have hargs : Stays ret (.headersComplete (headArgs (headDone p))) := by
    refine hstays _ ?_
    unfold headCalls
    exact mem_append_right _ (mem_singleton_self _)
  obtain ⟨hup, hstatus, hanswer⟩ := hargs
  have hup : (headDone p).upgrade = false := by
    unfold headArgs at hup
    by_cases htype : (headDone p).type = .request
    · rw [if_pos htype] at hup
      exact hup
    · rw [if_neg htype] at hup
      exact hup
  have hstatus : (headDone p).status ≠ 101 := by
    unfold headArgs at hstatus
    by_cases htype : (headDone p).type = .request
    · have hzero : (headDone p).status = 0 := (hgood.asks htype).1
      rw [hzero]
      decide
    · rw [if_neg htype] at hstatus
      exact fun heq => hstatus (congrArg some heq)
  unfold headStop
  rw [hup, decide_eq_false hanswer, decide_eq_false hstatus]
  rfl

theorem headEndLfTurn_advances (i : Nat) (hn : 1 ≤ n) (h : p.state = .headEndLf) :
    Advances ret p c n (headEndLfTurn ret p i c) := by
  have hend {read : Nat} (hread : read ≤ n) (hrank : read = 0 → 3 < p.state.rank c) :
      Advances ret p c n (headEnd ret p i read) := by
    unfold headEnd
    refine advances_ite ?_ ?_
    · exact endMessage_advances hread (fun hzero => lt_of_succ_lt (hrank hzero)) rfl
        fun hgood _ => hgood.owes
    · unfold headersComplete
      refine bodyFollows_advances hread hrank ?_ headStop_eq_false
      unfold afterHead
      split <;> rfl
  unfold headEndLfTurn
  by_cases hc : c = 10
  · rw [hc, if_neg (by decide), ← hc]
    exact hend hn nofun
  · rw [if_pos (by simpa using hc)]
    refine advances_ite advances_fail (hend (zero_le _) fun _ => ?_)
    rw [h, rank, if_neg hc]
    exact Nat.lt_add_one 3

end End

/-! ### Turns that run on -/

section RunOn

variable {ret : HeadArgs → Ret} {p : Parser} {c : UInt8} {tail : Bytes}

/-- A scan gets on, if what it stops at does. -/
theorem scan_advances {isIn : UInt8 → Bool} {store : Parser → Bytes → Parser} {counted : Bool} {stop : Stop}
    (hlive : p.state.live) (i : Nat)
    (hstore : ∀ run, framePart (store p run) = framePart p ∧ (store p run).state = p.state)
    (hstop : ∀ q read b, framePart q = framePart p → q.state = p.state → read + 1 ≤ tail.length + 1 → isIn b = false →
      (read = 0 → b = c) → Advances ret p c (tail.length + 1) (stop q i read b)) :
    Advances ret p c (tail.length + 1) (scan isIn store counted stop p i (c :: tail)) := by
  obtain ⟨hkeeps, hstate⟩ := hstore ((c :: tail).takeWhile isIn)
  have hlen : ((c :: tail).takeWhile isIn).length + ((c :: tail).dropWhile isIn).length = tail.length + 1 := by
    rw [← length_append, takeWhile_append_dropWhile, length_cons]
  unfold scan
  dsimp only
  cases hdrop : (c :: tail).dropWhile isIn with
  | nil =>
    rw [hdrop, length_nil] at hlen
    refine advances_go (le_of_eq hlen) (fun hzero => ?_) (by rw [hstate]; exact hlive) fun hgood _ => ?_
    · omega
    · exact hgood.keeps hkeeps (by rw [hstate]; exact hlive) (by rw [hstate]; exact id)
  | cons b =>
    rw [hdrop, length_cons] at hlen
    have hout : isIn b = false := by
      have hhead := head?_dropWhile_not isIn (c :: tail)
      rw [hdrop] at hhead
      simpa using hhead
    refine advances_ite advances_fail (hstop _ _ b hkeeps hstate (by omega) hout fun hzero => ?_)
    have hnone : (c :: tail).takeWhile isIn = [] := length_eq_zero_iff.mp hzero
    have hall := takeWhile_append_dropWhile (p := isIn) (l := c :: tail)
    rw [hnone, hdrop, nil_append, List.cons.injEq] at hall
    exact hall.1

/-- A body turn gets on, if its last one does. -/
theorem bodyTurn_advances {last : Parser → Nat → Nat → List Call → Round} (hlive : p.state.live) (i : Nat)
    (hlast : ∀ read calls, read ≤ tail.length + 1 →
      Advances ret p c (tail.length + 1) (last (took p read) i read calls)) :
    Advances ret p c (tail.length + 1) (bodyTurn last p i (c :: tail)) := by
  have hread : min p.remaining (c :: tail).length ≤ tail.length + 1 := min_le_right ..
  unfold bodyTurn takeBody
  by_cases hzero : (took p (min p.remaining (c :: tail).length)).remaining = 0
  · rw [if_pos hzero]
    exact hlast _ _ hread
  rw [if_neg hzero]
  refine advances_go hread (fun hnone => ?_) hlive fun hgood _ => hgood.keeps rfl hlive id
  -- nothing is read of an empty rest only, and then it was the end
  rw [length_cons, min_eq_zero_iff] at hnone
  have hempty : p.remaining = 0 := hnone.resolve_right (succ_ne_zero _)
  refine absurd ?_ hzero
  rw [hempty, Nat.zero_min, took, Nat.sub_zero, hempty]
  exact toNumber_of_lt (Nat.two_pow_pos 53)

variable {q : Parser}

theorem advances_stop {n i read : Nat} (hread : read + 1 ≤ n) (hkeeps : framePart q = framePart p)
    (hlive : q.state.live) (hasks : q.state.responds = false) : Advances ret p c n (go q i (read + 1) []) := by
  refine advances_go hread nofun hlive fun hgood _ => hgood.keeps hkeeps hlive ?_
  intro hresponds
  rw [hasks] at hresponds
  cases hresponds

variable {r : Parser}

theorem headPart_of_kept (h : keptPart r = keptPart q) : headPart r = headPart q := (Prod.mk.inj h).1

theorem valueStart_kept {i : Nat} (h : valueStart q i = .ok r) : keptPart r = keptPart q := by
  unfold valueStart at h
  split at h
  · cases h
    rfl
  split at h
  · cases h
  · split at h
    · cases h
    · cases h
      rfl

theorem codings_kept {k offset : Nat} {l : List Bytes} (h : codings q k offset l = .ok r) :
    keptPart r = keptPart q ∧ r.value = q.value := by
  induction l generalizing q k offset with
  | nil =>
    cases h
    exact ⟨rfl, rfl⟩
  | cons raw rest ih =>
    rw [codings] at h
    split at h
    · cases h
    · obtain ⟨hkept, htext⟩ := ih h
      exact ⟨hkept, htext⟩

theorem lengthValue_ok {stop : Nat} (h : lengthValue q stop = .ok r) : ∃ m, r = { q with contentLength := some m } := by
  unfold lengthValue at h
  split at h
  · cases h
  split at h
  · cases h
  cases hdigits : lengthDigits q.value stop 0 q.value 0 none with
  | error =>
    rw [hdigits] at h
    cases h
  | ok m =>
    rw [hdigits] at h
    cases h
    exact ⟨m, rfl⟩

theorem framingValue_kept {stop : Nat} (h : framingValue q stop = .ok r) :
    keptPart r = keptPart q ∧ r.value = q.value := by
  unfold framingValue at h
  cases hkind : q.fieldKind with
  | plain =>
    rw [hkind] at h
    cases h
    exact ⟨rfl, rfl⟩
  | contentLength =>
    rw [hkind] at h
    obtain ⟨m, rfl⟩ := lengthValue_ok h
    exact ⟨rfl, rfl⟩
  | transferEncoding =>
    rw [hkind] at h
    have h : codings { q with teSeen := true } 0 0 (q.value.splitOn 44) = .ok r := h
    obtain ⟨hkept, htext⟩ := codings_kept h
    exact ⟨hkept, htext⟩

theorem connectionTokens_kept (q : Parser) (tokens : List Bytes) :
    keptPart (tokens.foldl connectionToken q) = keptPart q := by
  induction tokens generalizing q with
  | nil => rfl
  | cons t tokens ih =>
    rw [foldl_cons, ih]
    unfold connectionToken
    split
    · rfl
    · split
      · rfl
      · split <;> rfl

theorem fieldDone_kept (q : Parser) :
    keptPart (fieldDone q) = keptPart { q with fields := q.fields ++ [(q.field, q.value)] } := by
  unfold fieldDone
  dsimp only
  split
  · rfl
  · split
    · rw [connectionTokens_kept]
    · split <;> rfl

section Stop

variable {n i read : Nat} {q : Parser} {b : UInt8} (hread : read + 1 ≤ n) (hkeeps : framePart q = framePart p)

include hread hkeeps

theorem stopUrl_advances : Advances ret p c n (stopUrl q i read b) := by
  unfold stopUrl
  exact advances_ite (advances_stop hread hkeeps rfl rfl)
    (advances_ite advances_fail advances_fail)

theorem stopReason_advances : Advances ret p c n (stopReason q i read b) := by
  unfold stopReason
  refine advances_ite advances_fail ?_
  cases b == 13 with
  | true | false => exact advances_stop hread hkeeps rfl rfl

theorem stopField_advances : Advances ret p c n (stopField q i read b) := by
  unfold stopField
  refine advances_ite advances_fail ?_
  cases hstart : valueStart q (i + read + 1) with
  | error => exact advances_fail
  | ok r =>
    have hr : framePart r = framePart q := (Prod.mk.inj (valueStart_kept hstart)).2
    exact advances_stop hread (hr.trans hkeeps) rfl rfl

theorem stopValue_advances : Advances ret p c n (stopValue q i read b) := by
  unfold stopValue
  refine advances_ite advances_fail (advances_ite advances_fail (advances_ite advances_fail ?_))
  dsimp only
  cases hvalue : framingValue _ (i + read) with
  | error => exact advances_fail
  | ok r =>
    have hframing := (Prod.mk.inj (framingValue_kept hvalue).1).2
    have hr : framePart (fieldDone r) = framePart p :=
      (Prod.mk.inj (fieldDone_kept r)).2.trans (hframing.trans hkeeps)
    dsimp only
    cases b == 10 with
    | true | false => exact advances_stop hread hr rfl rfl

end Stop

theorem stopExt_advances {n i read : Nat} {q : Parser} {b : UInt8} (h : p.state = .chunkExt)
    (hread : read + 1 ≤ n) (hkeeps : framePart q = framePart p) (hout : isEol b) (hfirst : read = 0 → b = c) :
    Advances ret p c n (stopExt q i read b) := by
  unfold stopExt
  refine advances_ite advances_fail ?_
  cases hcr : b == 13 with
  | true => exact advances_stop hread hkeeps rfl rfl
  | false =>
    have hlf : b = 10 := by
      unfold isEol at hout
      rw [hcr, Bool.false_or, beq_iff_eq] at hout
      exact hout
    refine advances_go (le_of_succ_le hread) (fun hzero => ?_) rfl fun hgood _ =>
      hgood.keeps hkeeps rfl nofun
    rw [← hfirst hzero, hlf, h]
    exact zero_lt_one

end RunOn

variable {p : Parser}

/-- **Every turn gets on.** -/
theorem turn_advances (hlive : p.state.live) (i : Nat) (c : UInt8)
    (tail : Bytes) : Advances ret p c (tail.length + 1) (turn ret ⟨p, i⟩ c tail) := by
  have hn : 1 ≤ tail.length + 1 := Nat.le_add_left ..
  by_cases hplain : p.state.plain
  · exact (turn_plain ret hplain i c tail).advances
  unfold turn
  dsimp only
  cases h : p.state with
  | error =>
    rw [h] at hlive
    cases hlive
  | upgraded =>
    rw [h] at hlive
    cases hlive
  | url =>
    exact scan_advances hlive i (fun _ => ⟨rfl, rfl⟩)
      fun q read b hkeeps _ hread _ _ => stopUrl_advances hread hkeeps
  | reason =>
    exact scan_advances hlive i (fun _ => ⟨rfl, rfl⟩)
      fun q read b hkeeps _ hread _ _ => stopReason_advances hread hkeeps
  | field =>
    exact scan_advances hlive i (fun _ => ⟨rfl, rfl⟩)
      fun q read b hkeeps _ hread _ _ => stopField_advances hread hkeeps
  | value =>
    exact scan_advances hlive i (fun _ => ⟨rfl, rfl⟩)
      fun q read b hkeeps _ hread _ _ => stopValue_advances hread hkeeps
  | chunkExt =>
    exact scan_advances hlive i (fun _ => ⟨rfl, rfl⟩)
      fun q read b hkeeps _ hread hout hfirst =>
        stopExt_advances h hread hkeeps (by simpa using hout) hfirst
  | bodyLength =>
    refine bodyTurn_advances hlive i fun read calls hread => ?_
    refine endMessage_advances hread (fun _ => lt_rank h (Nat.lt_add_one 2)) rfl ?_
    exact fun hgood _ => hgood.owes
  | chunkData =>
    refine bodyTurn_advances hlive i fun read calls hread => ?_
    exact advances_go hread (fun _ => lt_rank h (Nat.lt_add_one 3)) rfl fun hgood _ =>
      hgood.keeps rfl rfl nofun
  | bodyEof =>
    exact advances_go (le_refl _) nofun hlive fun hgood _ => hgood
  | start => exact startTurn_advances i c hn h
  | fieldStart => exact fieldStartTurn_advances i c hn h
  | headEndLf => exact headEndLfTurn_advances i hn h
  | _ =>
    rw [h] at hplain
    exact absurd rfl hplain

/-! ## Cuts -/

/-- A parser that is not live stays as it is. -/
theorem turn_dead (h : p.state.live = false) (i : Nat) (c : UInt8) (tail : Bytes) :
    turn ret ⟨p, i⟩ c tail = .halt ⟨p, i⟩ [] := by
  cases hstate : p.state with
  | error | upgraded => simp only [turn, hstate, byteTurn]
  | _ =>
    rw [hstate] at h
    cases h

theorem live_of_next {ret : HeadArgs → Ret} {s s' : Cursor} {c : UInt8} {tail : Bytes} {read : Nat}
    {calls : List Call} (h : turn ret s c tail = .next s' read calls) : s.p.state.live := by
  cases hlive : s.p.state.live with
  | true => rfl
  | false =>
    rw [turn_dead ret hlive] at h
    cases h

theorem live_of_isError {s : State} (h : s.isError) : s.live = false := by
  cases s with
  | error => rfl
  | _ => cases h

theorem isError_of_live {s : State} (h : s.live) : ¬ s.isError := by
  intro herror
  rw [live_of_isError herror] at h
  cases h

/-- The loop has an end. -/
theorem turn_ranked : Ranked (turn ret) (fun s c => s.p.state.rank c) 6 where
  lt s c := rank_lt c s.p.state
  next {s c tail s' read calls} h := by
    have hadvances := turn_advances ret (live_of_next h) s.i c tail
    rw [show turn ret ⟨s.p, s.i⟩ c tail = _ from h] at hadvances
    exact ⟨hadvances.1, hadvances.2.1⟩

theorem seen_cases (p : Parser) :
    (p.state.isError ∧ ∃ err, p.state = .error err ∧ seen p = .error (err.code, err.reason)) ∨
      (p.state.isError = false ∧ seen p = .ok p.blur) := by
  unfold seen
  cases p.state with
  | error err => exact .inl ⟨rfl, err, rfl, rfl⟩
  | _ => exact .inr ⟨rfl, rfl⟩

theorem seen_eq {q : Parser} (h : seen p = seen q) :
    (p.state.isError ∧ q.state.isError) ∨ ∃ v, q = p.place v := by
  rcases seen_cases p with ⟨hp, _, -, hseen⟩ | ⟨-, hseen⟩
  · rcases seen_cases q with ⟨hq, -⟩ | ⟨-, hseen'⟩
    · exact .inl ⟨hp, hq⟩
    · rw [hseen, hseen'] at h
      cases h
  · rcases seen_cases q with ⟨-, _, -, hseen'⟩ | ⟨-, hseen'⟩
    · rw [hseen, hseen'] at h
      cases h
    · rw [hseen, hseen', Except.ok.injEq] at h
      exact .inr (place_of_blur h)

/-- The turns do not show a clean cut. -/
theorem turn_cuttable :
    Cuttable (turn ret) (fun s => seen s.p) joinBodies (Stays ret) (fun s => Good s.p)
      (fun s => s.p.state.isError) (fun s c => clean s.p c) (fun s c => endsFull s.p c) overflown where
  view_turn {s s'} c tail h := by
    obtain ⟨p, i⟩ := s
    obtain ⟨q, j⟩ := s'
    rcases seen_eq h with ⟨hp, hq⟩ | ⟨v, rfl⟩
    · rw [turn_dead ret (live_of_isError hp), turn_dead ret (live_of_isError hq), Turn.map, Turn.map, h]
    · exact (turn_place p v i j c ret tail).symm
  cut s b tail c more := turn_cut s b tail c more
  next {s c tail s' read calls} h := by
    have hadvances := turn_advances ret (live_of_next h) s.i c tail
    rw [show turn ret ⟨s.p, s.i⟩ c tail = _ from h] at hadvances
    exact ⟨hadvances.1, isError_of_live hadvances.2.2.1, hadvances.2.2.2⟩
  halt {s c tail s' calls} h hgood hstays := by
    have hadvances := turn_advances ret hgood.live s.i c tail
    rw [show turn ret ⟨s.p, s.i⟩ c tail = _ from h] at hadvances
    exact hadvances hgood hstays
  join_append := joinBodies_congr
  join_fine := stays_of_join

/-- Good, or failed. -/
def Fit (p : Parser) : Prop := Good p ∨ p.state.isError = true

/-- `execute` runs the loop. -/
theorem execute_of_live {w : Parser} (h : p.state.live) {buf : Bytes}
    {calls : List Call} : execute ret p buf = some (w, calls) ↔ ∃ i, Runs (turn ret) ⟨p, 0⟩ buf ⟨w, i⟩ calls := by
  have hrun : run ret p buf = loop (turn ret) (turns buf) ⟨p, 0⟩ buf := by
    unfold run
    cases hstate : p.state with
    | error =>
      rw [hstate] at h
      cases h
    | upgraded =>
      rw [hstate] at h
      cases h
    | _ => rfl
  unfold execute
  rw [hrun, Option.map_eq_some_iff]
  constructor
  · rintro ⟨⟨⟨w', i⟩, calls'⟩, hloop, heq⟩
    cases heq
    exact ⟨i, ((turn_ranked ret).loop_eq (le_refl _)).mp hloop⟩
  · rintro ⟨i, hruns⟩
    exact ⟨(⟨w, i⟩, calls), ((turn_ranked ret).loop_eq (le_refl _)).mpr hruns, rfl⟩

/-- A failed parser answers the same error again. -/
theorem execute_of_error (h : p.state.isError) (buf : Bytes) :
    ∃ w, execute ret p buf = some (w, []) ∧ seen w = seen p ∧ w.state.isError := by
  rcases seen_cases p with ⟨-, err, hstate, hseen⟩ | ⟨hnot, -⟩
  · refine ⟨{ p with state := .error { err with bytesParsed := 0 } }, ?_, hseen.symm, rfl⟩
    simp only [execute, run, hstate, Option.map_some]
  · rw [hnot] at h
    cases h

/-- Every call returns. -/
theorem execute_total (p : Parser) (buf : Bytes) : (execute ret p buf).isSome := by
  cases hlive : p.state.live with
  | true =>
    have hfuel := (turn_ranked ret).turnsLeft_le ⟨p, 0⟩ buf
    obtain ⟨⟨w, i⟩, calls, -, hruns⟩ := (turn_ranked ret).loop_runs hfuel
    rw [(execute_of_live ret hlive).mpr ⟨i, hruns⟩]
    rfl
  | false =>
    cases hstate : p.state with
    | error => simp only [execute, run, hstate, Option.map_some, Option.isSome_some]
    | upgraded =>
      simp only [execute, run, hstate, Option.isSome_map]
      split
      · rfl
      · split <;> rfl
    | _ =>
      rw [hstate] at hlive
      cases hlive

theorem countedAgain_spec {rest : Bytes} (h : countedAgain ret p rest) :
    ∃ w, execute ret p rest = some (w, []) ∧ seen w = overflown := by
  unfold countedAgain at h
  split at h
  · next w hrun =>
    refine ⟨w, hrun, ?_⟩
    unfold State.isOverflow at h
    split at h
    · next err hstate =>
      simp only [Bool.and_eq_true, decide_eq_true_eq] at h
      rw [seen, hstate, overflown]
      simp only [h]
    · cases h
  · cases h

theorem cleanCut_cases {rest : Bytes} (h : cleanCut ret p rest) : p.state.isError ∨ ∀ c ∈ rest.head?,
    clean p c ∨ endsFull p c ∧ ∃ w, execute ret p rest = some (w, []) ∧ seen w = overflown := by
  cases rest with
  | nil => exact .inr nofun
  | cons c more =>
    simp only [cleanCut, Bool.or_eq_true, Bool.and_eq_true, or_assoc] at h
    refine h.imp_right fun h d hd => ?_
    obtain rfl := Option.some.inj hd
    exact h.imp_right (And.imp_right (countedAgain_spec ret))

/-- **Two buffers do what one does**, at a clean cut. -/
theorem splits :
    Splits (execute ret) seen joinBodies (Stays ret) Fit (fun p rest => cleanCut ret p rest) where
  nil {p} hfit := by
    rcases hfit with hgood | herror
    · exact ⟨p, (execute_of_live ret hgood.live).mpr ⟨0, .nil⟩, rfl⟩
    · obtain ⟨w, hw, hseen, -⟩ := execute_of_error ret herror []
      exact ⟨w, hw, hseen⟩
  append {p w a b calls} hfit hcall hstays := by
    rcases hfit with hgood | herror
    · obtain ⟨i, hruns⟩ := (execute_of_live ret hgood.live).mp hcall
      obtain ⟨⟨p₁, i₁⟩, calls₁, hfirst, hresumes⟩ :=
        (turn_cuttable ret).append hruns rfl hgood (isError_of_live hgood.live) hstays
      refine ⟨p₁, calls₁, (execute_of_live ret hgood.live).mpr ⟨i₁, hfirst⟩, fun hclean => ?_⟩
      rcases hresumes ((cleanCut_cases ret hclean).imp_right fun h c hc => (h c hc).imp_right And.left) with
        ⟨hdead, hseen, rfl⟩ | ⟨halive, hgood₁, ⟨⟨w₂, i₂⟩, calls₂, hruns₂, hseen, hjoin⟩ | ⟨⟨c, hc, hfull⟩, hover, hjoin⟩⟩
      · obtain ⟨w₂, hw₂, hseen₂, -⟩ := execute_of_error ret hdead b
        refine ⟨.inr hdead, w₂, [], hw₂, hseen₂.trans hseen, ?_⟩
        rw [append_nil]
      · -- the second call begins at index 0
        have hview : (fun s : Cursor => seen s.p) ⟨p₁, i₁⟩ = (fun s : Cursor => seen s.p) ⟨p₁, 0⟩ := rfl
        obtain ⟨⟨w₃, i₃⟩, hruns₃, hseen₃⟩ := (turn_cuttable ret).runs_view hruns₂ hview
        exact ⟨.inl hgood₁, w₃, calls₂, (execute_of_live ret hgood₁.live).mpr ⟨i₃, hruns₃⟩, hseen₃.trans hseen, hjoin⟩
      · -- one call has failed at the cut, and the second one fails later
        obtain ⟨w₂, hsecond, hseen₂⟩ := (((cleanCut_cases ret hclean).resolve_left halive c hc).resolve_left fun h => by
          rw [clean, hfull] at h
          cases h).2
        exact ⟨.inl hgood₁, w₂, [], hsecond, hseen₂.trans hover.symm, by rw [append_nil]; exact hjoin⟩
    · obtain ⟨p₁, hfirst, hseen₁, herror₁⟩ := execute_of_error ret herror a
      obtain ⟨w', hwhole, hseen', -⟩ := execute_of_error ret herror (a ++ b)
      rw [hwhole] at hcall
      cases hcall
      refine ⟨p₁, [], hfirst, fun _ => ⟨.inr herror₁, ?_⟩⟩
      obtain ⟨w₂, hsecond, hseen₂, -⟩ := execute_of_error ret herror₁ b
      exact ⟨w₂, [], hsecond, (hseen₂.trans hseen₁).trans hseen'.symm, rfl⟩
  join_append := joinBodies_congr
  join_fine := stays_of_join

end Oam.Http.HttpParser
