/-
  A hop is delivered once, unless it is safe to repeat.  The invariant is `Counted`: the resend allowances COUNT the
  sends of the current hop, across parks, and a streamed body's receiver is in the slot or in one request.
-/
import Oam.Fetch.Send

namespace Oam.Fetch

open Nat List Headers Trace

section
variable {H : Type} {c : Crates} {hm : HeaderMap H}

/-- A send that handed its request back for a lookup reached no connection. -/
def Reply.reached : Reply H → Bool
  | came (.error e) => e.lookupNeeded.isNone
  | _ => true

/-- The peer said that it did not process the request. -/
def Reply.unprocessed : Reply H → Bool
  | came (.error e) => e.chain.isH2Retryable
  | _ => false

/-- The reply to a send of this hop that reached a connection. -/
def sendIn (number : Nat) : Event H → Option (Reply H)
  | .sent hop _ reply => if hop.number = number ∧ reply.reached then some reply else none
  | _ => none

/-- What the sends of a hop that reached a connection came to, in their order. -/
def hopSends (number : Nat) (log : List (Event H)) : List (Reply H) := log.filterMap (sendIn number)

/-- The send failed, its body is not streamed, and it may be repeated. -/
def Safe (hop : Hop H) (req : Request H) (reply : Reply H) : Prop :=
  ∃ e, reply = .came (.error e) ∧ hop.streamed = false ∧ (e.chain.isH2Retryable = true ∨
      req.method.isIdempotent = true ∧ e.reused = true ∧ e.responseStarted = false)

/-- The earlier sends of the same hop that reached a connection were safe to repeat. -/
def RepeatsSafely (before : List (Event H)) : Event H → Prop
  | .sent hop _ _ => ∀ hop₀ req₀ reply₀, .sent hop₀ req₀ reply₀ ∈ before → hop₀.number = hop.number →
      reply₀.reached = true → Safe hop₀ req₀ reply₀
  | _ => True

/-- The event hands a streamed body to a request. -/
def tookReceiver : Event H → Bool
  | .built { body := .channel _, .. } => true
  | _ => false

/-- How often a streamed body was handed out. -/
def receivers (log : List (Event H)) : Nat := (log.filter tookReceiver).length

/-- The receivers that the source has left. -/
def BodySource.receivers : BodySource → Nat
  | stream { state := .untaken, .. } => 1
  | _ => 0

/-! ## What the events add -/

@[simp] theorem hopSends_append (number : Nat) (log events : List (Event H)) :
    hopSends number (log ++ events) = hopSends number log ++ hopSends number events :=
  filterMap_append

@[simp] theorem receivers_append (log events : List (Event H)) :
    receivers (log ++ events) = receivers log + receivers events := by
  simp [receivers]

/-- No event is a send, or takes a receiver. -/
def Silent (events : List (Event H)) : Prop :=
  ∀ e ∈ events, tookReceiver e = false ∧ (∀ number, sendIn number e = none) ∧ ∀ hop req reply, e ≠ .sent hop req reply

/-- The head of a turn is silent. -/
theorem silent_head (auth : Option Bytes) (check : Option NetCheck) (url : Url) :
    Silent (.turn auth :: asks check url : List (Event H)) := by
  intro e he
  rcases mem_cons.mp he with rfl | he
  · exact ⟨rfl, fun _ => rfl, fun _ _ _ h => by cases h⟩
  · unfold asks at he
    split at he
    · rw [mem_singleton.mp he]
      exact ⟨rfl, fun _ => rfl, fun _ _ _ h => by cases h⟩
    · cases he

theorem silent_parked (wants : Wants) (uri : Uri) : Silent [(.parked wants uri : Event H)] := by
  intro e he
  rw [mem_singleton.mp he]
  exact ⟨rfl, fun _ => rfl, fun _ _ _ h => by cases h⟩

theorem silent_followed (origin url : Url) (dropBody spent : Bool) :
    Silent [(.followed origin url dropBody spent : Event H)] := by
  intro e he
  rw [mem_singleton.mp he]
  exact ⟨rfl, fun _ => rfl, fun _ _ _ h => by cases h⟩

theorem Silent.append {first second : List (Event H)} (h : Silent first) (h' : Silent second) :
    Silent (first ++ second) := fun e he =>
  (mem_append.mp he).elim (h e) (h' e)

variable {events log : List (Event H)}

theorem hopSends_eq_nil {number : Nat} (h : ∀ hop req reply, .sent hop req reply ∈ log → hop.number ≠ number) :
    hopSends number log = [] := by
  refine filterMap_eq_nil_iff.mpr fun e he => ?_
  cases e with
  | sent hop req reply => exact if_neg fun hin => h hop req reply he hin.1
  | _ => rfl

theorem Silent.hopSends (h : Silent events) (number : Nat) : hopSends number events = [] :=
  filterMap_eq_nil_iff.mpr fun e he => (h e he).2.1 number

theorem Silent.receivers (h : Silent events) : receivers events = 0 :=
  length_eq_zero_iff.mpr (filter_eq_nil_iff.mpr fun e he => by simp [(h e he).1])

/-! ## The invariant -/

/-- What the log keeps: at most four sends a hop, and one receiver. -/
structure Tally (log : List (Event H)) : Prop where
  four : ∀ number, (hopSends number log).length ≤ 4
  once : ∀ number, ((hopSends number log).dropLast.filter fun reply => !reply.unprocessed).length ≤ 1
  safely : Each RepeatsSafely log
  receivers : receivers log ≤ 1

/-- What holds while the loop is in a hop: each send of it that reached a connection was paid for by an allowance. -/
structure Counted (s : LoopState H) (log : List (Event H)) : Prop where
  h2 : s.resends.h2 ≤ maxH2Retries
  sends : (hopSends s.hops log).length = s.resends.h2 + s.resends.stale.toNat
  stale : ((hopSends s.hops log).filter fun reply => !reply.unprocessed).length ≤ s.resends.stale.toNat
  safe : ∀ hop req reply, .sent hop req reply ∈ log → hop.number = s.hops → reply.reached = true → Safe hop req reply
  later : ∀ hop req reply, .sent hop req reply ∈ log → hop.number ≤ s.hops
  unsent : ∀ r, s.unsent = some r → r.method = s.method
  receivers : receivers log + s.source.receivers ≤ 1

/-- Silent events change no count. -/
theorem Tally.silent (h : Tally log) (hs : Silent events) : Tally (log ++ events) where
  four := fun number => by simpa [hs.hopSends number] using h.four number
  once := fun number => by simpa [hs.hopSends number] using h.once number
  safely := each_append.mpr ⟨h.safely, each_of_forall fun before e he => by
    cases e with
    | sent hop req reply => exact absurd rfl ((hs _ he).2.2 hop req reply)
    | _ => trivial⟩
  receivers := by simpa [hs.receivers] using h.receivers

variable {s : LoopState H}

/-- They use no allowance either. -/
theorem Counted.silent (h : Counted s log) (hs : Silent events) : Counted s (log ++ events) := by
  have hsent : ∀ hop req reply, .sent hop req reply ∈ log ++ events → .sent hop req reply ∈ log := by
    intro hop req reply hmem
    rcases mem_append.mp hmem with hmem | hmem
    · exact hmem
    · exact absurd rfl ((hs _ hmem).2.2 hop req reply)
  exact
    { h2 := h.h2
      sends := by simpa [hs.hopSends s.hops] using h.sends
      stale := by simpa [hs.hopSends s.hops] using h.stale
      safe := fun hop req reply hmem => h.safe hop req reply (hsent hop req reply hmem)
      later := fun hop req reply hmem => h.later hop req reply (hsent hop req reply hmem)
      unsent := h.unsent
      receivers := by simpa [hs.receivers] using h.receivers }

/-! ## A send -/

/-- What taking a request leaves of the state. -/
structure Took (s s' : LoopState H) (req : Request H) : Prop where
  hops : s'.hops = s.hops
  resends : s'.resends = s.resends
  method : s'.method = s.method
  unsent : s'.unsent = none
  reqMethod : req.method = s.method

section Take

variable {s' : LoopState H} {uri : Uri} {headers : H} {known : Bool} {req : Request H}
  {built : List (Event H)} (htake : takeRequest s uri headers known = .ok (s', req, built))

include htake

theorem Counted.took (h : Counted s log) : Took s s' req := by
  rcases takeRequest_eq htake with ⟨hunsent, rfl, _⟩ | ⟨_, _, hunsent, _, rfl, rfl, _⟩
  · exact ⟨rfl, rfl, rfl, rfl, h.unsent req hunsent⟩
  · exact ⟨rfl, rfl, rfl, hunsent, rfl⟩

theorem not_sent_before (sent : Sent H) (hop : Hop H)
    (r : Request H) (reply : Reply H) : .sent hop r reply ∉ built ++ sent.checkouts.map Event.checkedOut := by
  intro h
  rcases mem_append.mp h with h | h
  · rcases takeRequest_eq htake with ⟨_, _, rfl⟩ | ⟨_, _, _, _, _, _, rfl⟩
    · cases h
    · cases mem_singleton.mp h
  · obtain ⟨_, _, h⟩ := mem_map.mp h
    cases h

/-- A send counts for its own hop, if it reached a connection. -/
theorem hopSends_sendEvents (sent : Sent H) (reply : Reply H) (number : Nat) : hopSends number
    (sendEvents s' built sent req reply) = if s'.hops = number ∧ reply.reached then [reply] else [] := by
  have hbefore : hopSends number (built ++ sent.checkouts.map Event.checkedOut) = [] :=
    hopSends_eq_nil fun hop r reply' h => absurd h (not_sent_before htake sent hop r reply')
  rw [sendEvents, hopSends_append, hbefore, nil_append, hopSends]
  show filterMap _ [_] = _
  by_cases h : s'.hops = number ∧ reply.reached
  · simp [sendIn, LoopState.hop, h]
  · simp [sendIn, LoopState.hop, h]

theorem sent_mem_sendEvents {sent : Sent H} {reply reply' : Reply H} {hop : Hop H} {r : Request H}
    (h : .sent hop r reply' ∈ sendEvents s' built sent req reply) : hop = s'.hop ∧ r = req ∧ reply' = reply := by
  rcases mem_append.mp h with h | h
  · exact absurd h (not_sent_before htake sent hop r reply')
  · cases mem_singleton.mp h
    exact ⟨rfl, rfl, rfl⟩

/-- A receiver is handed out at most once. -/
theorem receivers_sendEvents (sent : Sent H)
    (reply : Reply H) : receivers (sendEvents s' built sent req reply) + s'.source.receivers ≤ s.source.receivers := by
  have hcheckouts : receivers (sent.checkouts.map Event.checkedOut : List (Event H)) = 0 := by
    refine length_eq_zero_iff.mpr (filter_eq_nil_iff.mpr fun e he => ?_)
    obtain ⟨_, _, rfl⟩ := mem_map.mp he
    exact Bool.false_ne_true
  rw [sendEvents, receivers_append, receivers_append, hcheckouts]
  show receivers built + 0 + 0 + s'.source.receivers ≤ s.source.receivers
  rcases takeRequest_eq htake with ⟨_, rfl, rfl⟩ | ⟨source, _, _, hbuild, rfl, rfl, rfl⟩
  · show 0 + 0 + 0 + s.source.receivers ≤ _
    omega
  · show receivers [_] + 0 + 0 + source.receivers ≤ s.source.receivers
    cases hsource : s.source with
    | empty =>
      rw [hsource] at hbuild
      cases hbuild
      exact le_refl 0
    | full =>
      rw [hsource] at hbuild
      cases hbuild
      exact le_refl 0
    | stream slot =>
      rw [hsource, BodySource.build] at hbuild
      unfold StreamSlot.take at hbuild
      cases slot with
      | mk handle state =>
        cases state <;> cases known <;> cases hbuild
        exact le_refl 1

/-- A send keeps the tally. -/
theorem Tally.send (h : Tally log) (hs : Counted s log)
    (sent : Sent H) (reply : Reply H) : Tally (log ++ sendEvents s' built sent req reply) := by
  have htook := hs.took htake
  have hh2 : s.resends.h2 ≤ 2 := hs.h2
  have hstale : s.resends.stale.toNat ≤ 1 := Bool.toNat_le _
  refine ⟨fun number => ?_, fun number => ?_, ?_, ?_⟩
  · rw [hopSends_append, hopSends_sendEvents htake]
    split
    · next hin =>
      obtain rfl : s.hops = number := htook.hops.symm.trans hin.1
      rw [length_append, hs.sends, length_singleton]
      omega
    · simpa using h.four number
  · rw [hopSends_append, hopSends_sendEvents htake]
    split
    · next hin =>
      obtain rfl : s.hops = number := htook.hops.symm.trans hin.1
      rw [dropLast_concat]
      exact hs.stale.trans hstale
    · simpa using h.once number
  · rw [sendEvents, each_append, each_append]
    refine ⟨h.safely, each_of_forall fun before e he => ?_, each_cons.mpr ⟨?_, each_nil _⟩⟩
    · cases e with
      | sent hop r reply' => exact absurd he (not_sent_before htake sent hop r reply')
      | _ => trivial
    · intro hop₀ req₀ reply₀ hmem hnumber
      rw [append_nil] at hmem
      rcases mem_append.mp hmem with hmem | hmem
      · exact hs.safe hop₀ req₀ reply₀ hmem (hnumber.trans htook.hops)
      · exact absurd hmem (not_sent_before htake sent hop₀ req₀ reply₀)
  · have hrec := receivers_sendEvents htake sent reply
    have hlog := hs.receivers
    rw [receivers_append]
    omega

/-- What a send adds to its hop. -/
structure Adds (s s' : LoopState H) (req : Request H) (reply : Reply H) (log after : List (Event H)) : Prop where
  sends : hopSends s'.hops after = hopSends s.hops log ++ if reply.reached then [reply] else []
  later : ∀ hop r reply', .sent hop r reply' ∈ after → hop.number ≤ s'.hops
  safe : (reply.reached = true → Safe s'.hop req reply) → ∀ hop r reply', .sent hop r reply' ∈ after →
    hop.number = s'.hops → reply'.reached = true → Safe hop r reply'
  receivers : Oam.Fetch.receivers after + s'.source.receivers ≤ 1

theorem Counted.adds (hs : Counted s log)
    (sent : Sent H) (reply : Reply H) : Adds s s' req reply log (log ++ sendEvents s' built sent req reply) := by
  have htook := hs.took htake
  refine ⟨?_, fun hop r reply' hmem => ?_, fun hreply hop r reply' hmem hnumber hreached => ?_, ?_⟩
  · rw [hopSends_append, hopSends_sendEvents htake, htook.hops]
    simp only [true_and]
  · rcases mem_append.mp hmem with hmem | hmem
    · exact (hs.later hop r reply' hmem).trans_eq htook.hops.symm
    · obtain ⟨rfl, _, _⟩ := sent_mem_sendEvents htake hmem
      exact le_refl _
  · rcases mem_append.mp hmem with hmem | hmem
    · exact hs.safe hop r reply' hmem (hnumber.trans htook.hops) hreached
    · obtain ⟨rfl, rfl, rfl⟩ := sent_mem_sendEvents htake hmem
      exact hreply hreached
  · have hrec := receivers_sendEvents htake sent reply
    have hlog := hs.receivers
    rw [receivers_append]
    omega

variable {e : SendError H}

theorem Counted.returns (hs : Counted s log)
    {sent : Sent H} (hsent : Sends hm req sent) (he : sent.outcome = .error e) {needed : NeedsLookup}
    (hneeded : e.lookupNeeded = some needed) :
    Counted { s' with unsent := e.returned } (log ++ sendEvents s' built sent req (.came (.error e))) := by
  have htook := hs.took htake
  have hadds := hs.adds htake sent (.came (.error e))
  have hnot : ((.came (.error e) : Reply H)).reached = false := by simp [Reply.reached, hneeded]
  have hsends := hadds.sends
  rw [hnot, if_neg Bool.false_ne_true, append_nil] at hsends
  refine ⟨htook.resends ▸ hs.h2, ?_, ?_, hadds.safe fun h => ?_, hadds.later, fun r hr => ?_, hadds.receivers⟩
  · show (hopSends s'.hops _).length = s'.resends.h2 + s'.resends.stale.toNat
    rw [hsends, htook.resends, hs.sends]
  · show ((hopSends s'.hops _).filter _).length ≤ s'.resends.stale.toNat
    rw [hsends, htook.resends]
    exact hs.stale
  · rw [hnot] at h
    cases h
  · obtain ⟨r', hr', _, hredressed⟩ := hsent.returned e he needed hneeded
    obtain rfl : r' = r := Option.some.inj (hr'.symm.trans hr)
    exact hredressed.method.trans (htook.reqMethod.trans htook.method.symm)

omit htake in
/-- A resend uses up one of the two allowances. -/
theorem resend_eq {resends : Resends} (h : resend s e = some resends) : s.source.replayable ∧
      (s.resends.h2 < maxH2Retries ∧ e.chain.isH2Retryable ∧ resends = { s.resends with h2 := s.resends.h2 + 1 } ∨
        s.resends.stale = false ∧ s.method.isIdempotent ∧ e.reused ∧ e.responseStarted = false ∧
          resends = { s.resends with stale := true }) := by
  unfold resend at h
  split at h
  · next hh2 =>
    cases h
    exact ⟨hh2.2.1, .inl ⟨hh2.1, hh2.2.2, rfl⟩⟩
  split at h
  · next hstale =>
    cases h
    obtain ⟨hunused, hreplayable, hidempotent, _, hreused, hstarted⟩ := hstale
    exact ⟨hreplayable, .inr ⟨by simpa using hunused, hidempotent, hreused, by simpa using hstarted, rfl⟩⟩
  · cases h

/-- A resend is paid for. -/
theorem Counted.resends (hs : Counted s log)
    (sent : Sent H) (hneeded : e.lookupNeeded = none) {resends : Resends} (hresend : resend s' e = some resends) :
    Counted { s' with resends } (log ++ sendEvents s' built sent req (.came (.error e))) := by
  have htook := hs.took htake
  obtain ⟨hreplayable, hpaid⟩ := resend_eq hresend
  rw [htook.resends] at hpaid
  have hadds := hs.adds htake sent (.came (.error e))
  have hsends := hadds.sends
  rw [if_pos (by simp [Reply.reached, hneeded])] at hsends
  refine ⟨?_, ?_, ?_, hadds.safe fun _ => ?_, hadds.later, fun r hr => ?_, hadds.receivers⟩
  · rcases hpaid with ⟨hroom, _, rfl⟩ | ⟨_, _, _, _, rfl⟩
    · exact hroom
    · exact hs.h2
  · show (hopSends s'.hops _).length = resends.h2 + resends.stale.toNat
    rw [hsends, length_append, hs.sends, length_singleton]
    rcases hpaid with ⟨_, _, rfl⟩ | ⟨hunused, _, _, _, rfl⟩
    · show _ = s.resends.h2 + 1 + s.resends.stale.toNat
      omega
    · rw [hunused]
      rfl
  · have hstale := hs.stale
    show ((hopSends s'.hops _).filter _).length ≤ resends.stale.toNat
    rw [hsends, filter_append, length_append]
    rcases hpaid with ⟨_, hh2, rfl⟩ | ⟨hunused, _, _, _, rfl⟩
    · simpa [Reply.unprocessed, hh2] using hstale
    · rw [hunused] at hstale
      rw [Nat.le_zero.mp hstale, Nat.zero_add]
      exact length_filter_le _ _
  · refine ⟨e, rfl, by simp [LoopState.hop, hreplayable], ?_⟩
    rcases hpaid with ⟨_, hh2, _⟩ | ⟨_, hidempotent, hreused, hstarted, _⟩
    · exact .inl hh2
    · rw [htook.reqMethod, ← htook.method]
      exact .inr ⟨hidempotent, hreused, hstarted⟩
  · cases htook.unsent.symm.trans hr

/-- A redirect starts a hop of its own. -/
theorem Counted.follow (hs : Counted s log) (sent : Sent H) (reply : Reply H) (url : Url) (method : Method)
    (dropBody : Bool) : Counted (follow hm s' url method dropBody) (log ++ sendEvents s' built sent req reply) := by
  obtain ⟨-, hlater, -, _⟩ := hs.adds htake sent reply
  have hnone : hopSends (s'.hops + 1) (log ++ sendEvents s' built sent req reply) = [] :=
    hopSends_eq_nil fun hop r reply' hmem hnumber => by
      have := hlater hop r reply' hmem
      omega
  refine ⟨zero_le _, congrArg List.length hnone, ?_, fun hop r reply' hmem hnumber _ => ?_,
    fun hop r reply' hmem => (hlater hop r reply' hmem).trans (le_succ _), fun r hr => ?_, ?_⟩
  · show ((hopSends (s'.hops + 1) _).filter _).length ≤ 0
    rw [hnone]
    exact le_refl 0
  · have hle := hlater hop r reply' hmem
    have hnext : hop.number = s'.hops + 1 := hnumber
    omega
  · cases (hs.took htake).unsent.symm.trans hr
  · have hsource : (Oam.Fetch.follow hm s' url method dropBody).source.receivers ≤ s'.source.receivers := by
      show (if _ then BodySource.empty else s'.source).receivers ≤ _
      split
      · exact zero_le _
      · exact le_refl _
    omega

end Take

/-! ## The loop -/

/-- **The invariant.** -/
def Tallied (config : Config H) (log : List (Event H)) : Prop :=
  Tally log ∧ match config with
    | .top s | .sending s _ _ | .parked { state := s, .. } => Counted s log
    | .finished _ => True

/-- Every move keeps the invariant. -/
theorem tallied_move {config config' : Config H} (h : Tallied config log)
    (hmove : Move c hm config config' events) : Tallied config' (log ++ events) := by
  obtain ⟨htally, hconfig⟩ := h
  cases hmove with
  | stays => simpa using ⟨htally, hconfig⟩
  | ends => exact ⟨by simpa using htally, trivial⟩
  | resumes => exact ⟨by simpa using htally, by simpa using hconfig⟩
  | turnEnds => exact ⟨htally.silent (silent_head _ _ _), trivial⟩
  | @turnParks s auth uri p granted huri hstate =>
    subst hstate
    have hsilent := (silent_head auth p.state.netCheck p.state.target).append (silent_parked (H := H) p.wants uri)
    exact ⟨htally.silent hsilent, hconfig.silent hsilent⟩
  | turnSends => exact ⟨htally.silent (silent_head _ _ _), hconfig.silent (silent_head _ _ _)⟩
  | sendEnds htake reply => exact ⟨htally.send htake hconfig _ reply, trivial⟩
  | returns htake hsent hneeded =>
    rw [← append_assoc]
    exact ⟨(htally.send htake hconfig _ _).silent (silent_parked _ _),
      (hconfig.returns htake (request_sends _ _ _) hsent hneeded).silent (silent_parked _ _)⟩
  | resends htake hsent hneeded hresend =>
    exact ⟨htally.send htake hconfig _ _, hconfig.resends htake _ hneeded hresend⟩
  | follows htake =>
    rw [← append_assoc]
    exact ⟨(htally.send htake hconfig _ _).silent (silent_followed _ _ _ _),
      (hconfig.follow htake _ _ _ _ _).silent (silent_followed _ _ _ _)⟩

theorem tallied_fetch (c : Crates) (hm : HeaderMap H) (process : Process) (req : FetchRequest) (check : Option NetCheck) :
    Tallied (fetch c hm process req check) [] := by
  refine ⟨⟨fun _ => zero_le _, fun _ => zero_le _, each_nil _, zero_le _⟩, ?_⟩
  rcases fetch_fresh process req check with ⟨_, h⟩ | ⟨s, h, hfresh⟩
  · rw [h]
    trivial
  · rw [h]
    have hsource : s.source.receivers ≤ 1 := by
      unfold BodySource.receivers
      split
      · exact le_refl 1
      · exact zero_le 1
    exact
      { h2 := by rw [hfresh.resends]; exact zero_le _
        sends := by rw [hfresh.resends]; rfl
        stale := zero_le _
        safe := fun _ _ _ hmem => by cases hmem
        later := fun _ _ _ hmem => by cases hmem
        unsent := fun r hr => by cases hfresh.unsent.symm.trans hr
        receivers := (Nat.zero_add _).trans_le hsource }

/-- **A hop is delivered at most once unless it is safe to repeat.** At most four sends of a hop reach a connection, and
    at most one follows a failure that the peer did not declare unprocessed. -/
theorem resent_only_if_safe (process : Process) (req : FetchRequest) (check : Option NetCheck) (inputs : List Input) :
    (∀ number, (hopSends number (run (step c hm) (fetch c hm process req check) inputs).2).length ≤ 4) ∧
    (∀ number, ((hopSends number (run (step c hm) (fetch c hm process req check) inputs).2).dropLast.filter
      fun reply => !reply.unprocessed).length ≤ 1) ∧
    (∀ before hop request reply after,
      (run (step c hm) (fetch c hm process req check) inputs).2 = before ++ .sent hop request reply :: after →
      ∀ hop₀ request₀ reply₀, .sent hop₀ request₀ reply₀ ∈ before → hop₀.number = hop.number →
        reply₀.reached = true → Safe hop₀ request₀ reply₀) ∧
    receivers (run (step c hm) (fetch c hm process req check) inputs).2 ≤ 1 := by
  have h := (fetch_invariant process req check (tallied_fetch c hm process req check)
    (fun _ _ _ _ => tallied_move) inputs).1
  exact ⟨h.four, h.once, fun before hop request reply after hlog => h.safely before _ after hlog, h.receivers⟩

end

end Oam.Fetch
