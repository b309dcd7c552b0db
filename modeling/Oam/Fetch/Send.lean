/-
  The fetch loop (`oam_core/src/http_client/send.rs`).  `turn` is the head of the outer loop, `send` the body of the
  inner one with everything up to its next wait; `step_moves` says once all that a step can do.
-/
import Oam.Fetch.Redirect
import Oam.Fetch.Transport
import Oam.Lib.Trace

namespace Oam.Fetch

open Headers

/-! ## The state -/

structure AccessDenial where
  permission : String
  resource : String
  deriving DecidableEq

structure NetTarget where
  host : String
  port : Nat
  deriving DecidableEq

abbrev NetCheck := NetTarget → Except AccessDenial Unit

inductive SlotState where
  | untaken
  | taken
  | dead
  deriving DecidableEq

structure StreamSlot where
  handle : Nat
  state : SlotState
  deriving DecidableEq

/-- `known`: the channel is still there. -/
def StreamSlot.take (slot : StreamSlot) (known : Bool) : StreamSlot × Bool :=
  if slot.state = .untaken then ({ slot with state := .taken }, known) else (slot, false)

inductive BodySource where
  | empty
  | full (bytes : Bytes)
  | stream (slot : StreamSlot)
  deriving DecidableEq

namespace BodySource

def replayable : BodySource → Bool
  | stream _ => false
  | _ => true

/-- The body for the next send; a stream's receiver is taken here. -/
def build (source : BodySource) (known : Bool) : Except String (BodySource × Body) :=
  match source with
  | empty => .ok (source, .empty)
  | full bytes => .ok (source, .full bytes)
  | stream slot =>
    match slot.take known with
    | (slot, true) => .ok (stream slot, .channel slot.handle)
    | (slot, false) => .error ("fetch: unknown body stream " ++ toString slot.handle)

end BodySource

inductive RedirectMode where
  | follow
  | manual
  | error
  deriving DecidableEq

structure Resends where
  h2 : Nat
  stale : Bool
  deriving DecidableEq

def Resends.default : Resends := { h2 := 0, stale := false }

/-- RFC 9110's idempotent methods. -/
def Method.isIdempotent : Method → Bool
  | get | head | put | delete | options | trace => true
  | _ => false

def maxH2Retries : Nat := 2

/-- What the loop carries from turn to turn. -/
structure LoopState (H : Type) where
  method : Method
  current : Url
  pin : Option Url
  carried : H
  source : BodySource
  hops : Nat
  redirect : RedirectMode
  netCheck : Option NetCheck
  maxHeaderSize : Nat
  undiciHead : Bool
  fetchRules : Bool
  deferHead : Option Bool
  iterableBody : Bool
  unsent : Option (Request H)
  resends : Resends

inductive Wants where
  | addresses
  | connection
  deriving DecidableEq

structure PendingFetch (H : Type) where
  state : LoopState H
  host : String
  key : String
  wants : Wants

inductive Outcome (H : Type) where
  | failed (text : String)
  | nodeFailed (code message : String)
  | accessDenied (denial : AccessDenial)
  | invalidLocation (input : String) (base : Url)
  | sendFailed (error : SendError H) (url : Url)
  | response (url : Url) (response : Response)
  | abandoned

inductive Config (H : Type) where
  | top (s : LoopState H)
  | sending (s : LoopState H) (uri : Uri) (headers : H)
  | parked (pending : PendingFetch H)
  | finished (outcome : Outcome H)

/-! ## What is observed -/

structure Hop (H : Type) where
  number : Nat
  url : Url
  method : Method
  carried : H
  streamed : Bool

def LoopState.hop {H : Type} (s : LoopState H) : Hop H :=
  { number := s.hops, url := s.current, method := s.method, carried := s.carried, streamed := !s.source.replayable }

/-- How a send ended: it was dropped by a cancel or by the headers timeout, or it came to something. -/
inductive Reply (H : Type) where
  | cancelled
  | late
  | came (outcome : Except (SendError H) Response)

inductive Event (H : Type) where
  | turn (proxyAuthorization : Option Bytes)
  | asked (target : NetTarget) (denial : Option AccessDenial)
  | built (request : Request H)
  | checkedOut (dst : Uri)
  | sent (hop : Hop H) (request : Request H) (reply : Reply H)
  | parked (wants : Wants) (uri : Uri)
  | followed (origin target : Url) (dropBody spent : Bool)

/-! ## The head of the outer loop -/

/-- What the route says of the hop's URI: `connection_needed`, `lookup_needed` and `proxy_authorization`. -/
structure RouteAnswer where
  connectionNeeded : Bool
  lookupNeeded : Bool
  proxyAuthorization : Option Bytes

def pinnedUrl (url pin : Url) : Url := { url with scheme := pin.scheme, host := pin.host, port := pin.port }

def LoopState.target {H : Type} (s : LoopState H) : Url :=
  match s.pin with
  | some pin => pinnedUrl s.current pin
  | none => s.current

def netTarget (url : Url) : NetTarget := { host := url.host.getD "", port := url.portOrKnownDefault.getD 0 }

def netDenial (check : Option NetCheck) (url : Url) : Option AccessDenial :=
  check.bind fun check =>
    match check (netTarget url) with
    | .ok _ => none
    | .error denial => some denial

def asks {H : Type} (check : Option NetCheck) (url : Url) : List (Event H) :=
  if check.isSome then [.asked (netTarget url) (netDenial check url)] else []

section
variable {H : Type} (c : Crates) (hm : HeaderMap H)

/-- proxy-authorization is per hop and never carried. -/
def hopHeaders (carried : H) : Option Bytes → Option H
  | none => some carried
  | some auth =>
    if hm.containsKey carried "proxy-authorization" then some carried
    else hm.tryInsert carried "proxy-authorization" auth

def turn (s : LoopState H) (a : RouteAnswer) : Config H × List (Event H) :=
  let head := .turn a.proxyAuthorization :: asks s.netCheck s.target
  match netDenial s.netCheck s.target with
  | some denial => (.finished (.accessDenied denial), head)
  | none =>
    match toUri c s.target with
    | none => (.finished (.failed builderError), head)
    | some uri =>
      match uri.authorityKey.filter fun _ => a.connectionNeeded with
      | some key =>
        (.parked { state := s, host := unbracketed (s.target.host.getD ""), key, wants := .connection },
          head ++ [.parked .connection uri])
      | none =>
        match (needsLookup uri).filter fun _ => s.unsent.isNone && a.lookupNeeded with
        | some needed =>
          (.parked { state := s, host := needed.host, key := needed.key, wants := .addresses },
            head ++ [.parked .addresses uri])
        | none =>
          match hopHeaders hm s.carried a.proxyAuthorization with
          | none => (.finished (.failed PrepareError.tooManyHeaders.text), head)
          | some headers => (.sending s uri headers, head)

/-! ## The inner loop -/

/-- The request of the next send: the one that was handed back unsent, or a new one. -/
def takeRequest (s : LoopState H) (uri : Uri) (headers : H) (known : Bool) :
    Except String (LoopState H × Request H × List (Event H)) :=
  match s.unsent with
  | some request => .ok ({ s with unsent := none }, request, [])
  | none =>
    match s.source.build known with
    | .error text => .error text
    | .ok (source, body) =>
      let request :=
        { method := s.method, uri, headers, body, headAwaitsBody := if source.replayable then none else s.deferHead }
      .ok ({ s with source, deferHead := if source.replayable then s.deferHead else none }, request, [.built request])

/-- Whether a failed send is made again, and what that leaves of the allowances. -/
def resend (s : LoopState H) (e : SendError H) : Option Resends :=
  if s.resends.h2 < maxH2Retries ∧ s.source.replayable ∧ e.chain.isH2Retryable then
    some { s.resends with h2 := s.resends.h2 + 1 }
  else if !s.resends.stale ∧ s.source.replayable ∧ s.method.isIdempotent ∧ e.chain.isIncompleteMessage ∧ e.reused ∧
      !e.responseStarted then
    some { s.resends with stale := true }
  else none

/-- undici counts names and values, node's parser the reason phrase too. -/
def responseHeadOverflow (response : Response) (limit : Nat) (undiciHead : Bool) : Option (String × String) :=
  let count := (response.headers.map fun line => line.1.utf8ByteSize + line.2.length).foldr (· + ·) 0
  let count := if !undiciHead && !response.http2 then count + response.reason.length else count
  if count < limit then none
  else if undiciHead then some ("UND_ERR_HEADERS_OVERFLOW", "Headers Overflow Error")
  else some ("HPE_HEADER_OVERFLOW", "Parse Error: Header overflow")

def redirectBody (s : LoopState H) : RedirectBody :=
  match s.source.replayable, s.fetchRules with
  | true, false => if s.undiciHead then .undiciReplayable else .replayable
  | true, true => .replayable
  | false, true => .streamedFetch
  | false, false => if s.iterableBody then .undiciIterable else .streamed

/-- The hop that a followed redirect starts.  A spent iterable is sent again: no bytes, with the length that says
    so. -/
def follow (s : LoopState H) (url : Url) (method : Method) (dropBody : Bool) : LoopState H :=
  let spent := !dropBody && redirectBody s = .undiciIterable
  let carried := apply hm s.carried s.current url dropBody
  { s with
    carried := if spent then hm.insert (hm.remove carried "transfer-encoding") "content-length" (utf8 "0") else carried
    source := if dropBody || spent then .empty else s.source
    method, current := url, hops := s.hops + 1, resends := .default }

def aborted : String := "fetch: aborted"

/-- A response, and whether the fetch is cancelled while a 3xx's connection is released. -/
def answer (s : LoopState H) (response : Response) (cancelled : Bool) : Config H × List (Event H) :=
  match responseHeadOverflow response s.maxHeaderSize s.undiciHead with
  | some (code, message) => (.finished (.nodeFailed code message), [])
  | none =>
    if s.redirect = .manual then (.finished (.response s.current response), [])
    else if s.redirect = .error ∧ isRedirectStatus response.status then (.finished (.failed unexpectedRedirect), [])
    else
      match next c response.status s.method s.current (location (valuesOf response.headers "location")) s.hops
          (redirectBody s) with
      | .done | .returnResponse => (.finished (.response s.current response), [])
      | .fail text => (.finished (.failed text), [])
      | .invalidLocation input => (.finished (.invalidLocation input s.current), [])
      | .follow url method dropBody =>
        if cancelled then (.finished (.failed aborted), [])
        else
          (.top (follow hm s url method dropBody),
            [.followed s.current url dropBody (!dropBody && redirectBody s = .undiciIterable)])

inductive Interrupt where
  | none
  | cancelled
  | late
  deriving DecidableEq

/-- What a send meets: the body's channel, the hook's answer, the network's answers, and what interrupts it. -/
structure SendAnswer where
  known : Bool
  pinned : Bool
  attempts : Nat → Attempt
  interrupt : Interrupt
  cancelledAfter : Bool

/-- What is observed of a send; one that is interrupted has asked for some of its connections. -/
def sendEvents (s : LoopState H) (built : List (Event H)) (sent : Sent H) (req : Request H) (reply : Reply H) :
    List (Event H) :=
  built ++ sent.checkouts.map .checkedOut ++ [.sent s.hop req reply]

def send (s : LoopState H) (uri : Uri) (headers : H) (a : SendAnswer) : Config H × List (Event H) :=
  match takeRequest s uri headers a.known with
  | .error text => (.finished (.failed text), [])
  | .ok (s, req, built) =>
    let sent := request c hm a.pinned a.attempts req
    let events := sendEvents s built sent req
    match a.interrupt with
    | .cancelled => (.finished (.failed aborted), events .cancelled)
    | .late => (.finished (.nodeFailed "UND_ERR_HEADERS_TIMEOUT" "Headers Timeout Error"), events .late)
    | .none =>
      match sent.outcome with
      | .ok response =>
        let (config, after) := answer c hm s response a.cancelledAfter
        (config, events (.came sent.outcome) ++ after)
      | .error e =>
        match e.lookupNeeded with
        | some needed =>
          (.parked { state := { s with unsent := e.returned }, host := needed.host, key := needed.key, wants := .addresses },
            events (.came sent.outcome) ++ [.parked .addresses uri])
        | none =>
          match resend s e with
          | some resends => (.sending { s with resends } uri headers, events (.came sent.outcome))
          | none => (.finished (.sendFailed e { s.target with fragment := none }), events (.came sent.outcome))

/-! ## The loop -/

inductive Input where
  | turn (a : RouteAnswer)
  | send (a : SendAnswer)
  | resume (wants : Wants)
  | malformed (text : String)
  | abandon

/-- A parked fetch that waits for the other answer stays parked; a malformed lookup answer consumes it. -/
def step : Config H → Input → Config H × List (Event H)
  | .top s, .turn a => turn c hm s a
  | .sending s uri headers, .send a => send c hm s uri headers a
  | .parked p, .resume wants => if p.wants = wants then (.top p.state, []) else (.parked p, [])
  | .parked p, .malformed text => if p.wants = .addresses then (.finished (.failed text), []) else (.parked p, [])
  | .parked _, .abandon => (.finished .abandoned, [])
  | config, _ => (config, [])

/-- The port that the engine checks a hook's addresses with. -/
def fetchParkedPort (p : PendingFetch H) : Option Nat :=
  if p.wants = .addresses then
    match p.state.pin with
    | some pin => pin.portOrKnownDefault
    | none => p.state.current.portOrKnownDefault
  else none

structure FetchRequest where
  url : String
  method : Option String
  headers : List (String × String)
  body : Option String
  bodyBase64 : Option String
  bodyStream : Option Nat
  fetchSemantics : Bool
  dispatchSemantics : Bool
  redirect : RedirectMode
  defaultHeaders : Bool
  maxHeaderSize : Option Nat
  deferHead : Option Bool
  iterableBody : Bool
  pinOrigin : Option String

structure Process where
  userAgent : Bytes
  maxHttpHeaderSize : Nat

def pinOrigin (origin : String) : Except String Url :=
  match c.parse origin with
  | some url => if url.isHttp ∧ url.host.isSome then .ok url else .error ("fetch: invalid dispatcher origin " ++ origin)
  | none => .error ("fetch: invalid dispatcher origin " ++ origin)

def bodySource (req : FetchRequest) : Except String BodySource :=
  match req.bodyStream, req.body, req.bodyBase64 with
  | some handle, _, _ => .ok (.stream { handle, state := .untaken })
  | none, some body, _ => .ok (.full (utf8 body))
  | none, none, some encoded =>
    match c.decode encoded with
    | some bytes => .ok (.full bytes)
    | none => .error "fetch: malformed base64 body"
  | none, none, none => .ok .empty

def pinOf (req : FetchRequest) : Except String (Option Url) :=
  match req.pinOrigin with
  | none => .ok none
  | some origin => (pinOrigin c origin).map some

/-- The fetch op: the grant is a parameter, and no field of the request. -/
def fetch (process : Process) (req : FetchRequest) (netCheck : Option NetCheck) : Config H :=
  match prepare c hm req.url (req.method.getD "GET") req.headers req.defaultHeaders process.userAgent with
  | .error e => .finished (.failed e.text)
  | .ok prepared =>
    if req.fetchSemantics ∧ isBadPort prepared.url then .finished (.failed badPort)
    else
      match bodySource c req with
      | .error text => .finished (.failed text)
      | .ok source =>
        match pinOf c req with
        | .error text => .finished (.failed text)
        | .ok pin =>
          .top
            { method := prepared.method, current := prepared.url, pin, carried := prepared.headers, source, hops := 0,
              redirect := req.redirect, netCheck, maxHeaderSize := req.maxHeaderSize.getD process.maxHttpHeaderSize,
              undiciHead := req.fetchSemantics || req.dispatchSemantics, fetchRules := req.fetchSemantics,
              deferHead := req.deferHead, iterableBody := req.iterableBody, unsent := none, resends := .default }

/-! ## What a step can do -/

/-- What a step can do, whatever the answers of the outside were. -/
inductive Move : Config H → Config H → List (Event H) → Prop
  | stays (config : Config H) : Move config config []
  | ends (config : Config H) (outcome : Outcome H) : Move config (.finished outcome) []
  | resumes (p : PendingFetch H) : Move (.parked p) (.top p.state) []
  | turnEnds (s : LoopState H) (auth : Option Bytes) (outcome : Outcome H) :
      Move (.top s) (.finished outcome) (.turn auth :: asks s.netCheck s.target)
  | turnParks {s : LoopState H} {auth : Option Bytes} {uri : Uri} {p : PendingFetch H}
      (granted : netDenial s.netCheck s.target = none) (huri : toUri c s.target = some uri) (hstate : p.state = s) :
      Move (.top s) (.parked p) (.turn auth :: asks s.netCheck s.target ++ [.parked p.wants uri])
  | turnSends {s : LoopState H} {auth : Option Bytes} {uri : Uri} {headers : H}
      (granted : netDenial s.netCheck s.target = none) (huri : toUri c s.target = some uri)
      (hheaders : hopHeaders hm s.carried auth = some headers) :
      Move (.top s) (.sending s uri headers) (.turn auth :: asks s.netCheck s.target)
  | sendEnds {s s' : LoopState H} {uri : Uri} {headers : H} {a : SendAnswer} {req : Request H}
      {built : List (Event H)} (htake : takeRequest s uri headers a.known = .ok (s', req, built)) (reply : Reply H)
      (outcome : Outcome H) :
      Move (.sending s uri headers) (.finished outcome)
        (sendEvents s' built (request c hm a.pinned a.attempts req) req reply)
  | returns {s s' : LoopState H} {uri : Uri} {headers : H} {a : SendAnswer} {req : Request H}
      {built : List (Event H)} {e : SendError H} {needed : NeedsLookup}
      (htake : takeRequest s uri headers a.known = .ok (s', req, built))
      (hsent : (request c hm a.pinned a.attempts req).outcome = .error e) (hneeded : e.lookupNeeded = some needed) :
      Move (.sending s uri headers)
        (.parked { state := { s' with unsent := e.returned }, host := needed.host, key := needed.key, wants := .addresses })
        (sendEvents s' built (request c hm a.pinned a.attempts req) req (.came (.error e)) ++ [.parked .addresses uri])
  | resends {s s' : LoopState H} {uri : Uri} {headers : H} {a : SendAnswer} {req : Request H}
      {built : List (Event H)} {e : SendError H} {resends : Resends}
      (htake : takeRequest s uri headers a.known = .ok (s', req, built))
      (hsent : (request c hm a.pinned a.attempts req).outcome = .error e) (hneeded : e.lookupNeeded = none)
      (hresend : resend s' e = some resends) :
      Move (.sending s uri headers) (.sending { s' with resends } uri headers)
        (sendEvents s' built (request c hm a.pinned a.attempts req) req (.came (.error e)))
  | follows {s s' : LoopState H} {uri : Uri} {headers : H} {a : SendAnswer} {req : Request H}
      {built : List (Event H)} {response : Response} {location : Option Bytes} {url : Url} {method : Method}
      {dropBody : Bool} (htake : takeRequest s uri headers a.known = .ok (s', req, built))
      (hsent : (request c hm a.pinned a.attempts req).outcome = .ok response)
      (hnext : next c response.status s'.method s'.current location s'.hops (redirectBody s') =
        .follow url method dropBody) :
      Move (.sending s uri headers) (.top (follow hm s' url method dropBody))
        (sendEvents s' built (request c hm a.pinned a.attempts req) req (.came (.ok response)) ++
          [.followed s'.current url dropBody (!dropBody && redirectBody s' = .undiciIterable)])

variable {c hm}

theorem takeRequest_eq {s s' : LoopState H} {uri : Uri} {headers : H} {known : Bool} {req : Request H}
    {built : List (Event H)} (h : takeRequest s uri headers known = .ok (s', req, built)) :
    (s.unsent = some req ∧ s' = { s with unsent := none } ∧ built = []) ∨
      ∃ source body, s.unsent = none ∧ s.source.build known = .ok (source, body) ∧
        s' = { s with source, deferHead := if source.replayable then s.deferHead else none } ∧
        req = ⟨s.method, uri, headers, body, if source.replayable then none else s.deferHead⟩ ∧
        built = [.built req] := by
  unfold takeRequest at h
  split at h
  · next r hunsent =>
    cases h
    exact .inl ⟨hunsent, rfl, rfl⟩
  next hunsent =>
  split at h
  · cases h
  · next source body hbuild =>
    cases h
    exact .inr ⟨source, body, hunsent, hbuild, rfl, rfl, rfl⟩

theorem turn_moves (s : LoopState H) (a : RouteAnswer) : Move c hm (.top s) (turn c hm s a).1 (turn c hm s a).2 := by
  unfold turn
  simp only
  split
  · exact .turnEnds s _ _
  next hgranted =>
  split
  · exact .turnEnds s _ _
  next uri huri =>
  split
  · exact .turnParks hgranted huri rfl
  split
  · exact .turnParks hgranted huri rfl
  split
  · exact .turnEnds s _ _
  · next headers hheaders => exact .turnSends hgranted huri hheaders

theorem answer_eq (s : LoopState H) (response : Response) (cancelled : Bool) :
    (∃ outcome, answer c hm s response cancelled = (.finished outcome, [])) ∨ ∃ location url method dropBody,
        next c response.status s.method s.current location s.hops (redirectBody s) = .follow url method dropBody ∧
        answer c hm s response cancelled = (.top (follow hm s url method dropBody),
          [.followed s.current url dropBody (!dropBody && redirectBody s = .undiciIterable)]) := by
  unfold answer
  split
  · exact .inl ⟨_, rfl⟩
  split
  · exact .inl ⟨_, rfl⟩
  split
  · exact .inl ⟨_, rfl⟩
  split
  · exact .inl ⟨_, rfl⟩
  · exact .inl ⟨_, rfl⟩
  · exact .inl ⟨_, rfl⟩
  · exact .inl ⟨_, rfl⟩
  next url method dropBody hnext =>
  split
  · exact .inl ⟨_, rfl⟩
  · exact .inr ⟨_, url, method, dropBody, hnext, rfl⟩

theorem send_moves (s : LoopState H) (uri : Uri) (headers : H) (a : SendAnswer) :
    Move c hm (.sending s uri headers) (send c hm s uri headers a).1 (send c hm s uri headers a).2 := by
  unfold send
  split
  · exact .ends _ _
  next s' req built htake =>
  simp only
  split
  · exact .sendEnds htake _ _
  · exact .sendEnds htake _ _
  split
  · next response hsent =>
    rw [hsent]
    rcases answer_eq (c := c) s' response a.cancelledAfter with ⟨outcome, h⟩ | ⟨_, _, _, _, hnext, h⟩
    · rw [h]
      simpa using Move.sendEnds htake _ outcome
    · rw [h]
      exact .follows htake hsent hnext
  next e hsent =>
  rw [hsent]
  split
  · next needed hneeded => exact .returns htake hsent hneeded
  next hneeded =>
  split
  · next resends hresend => exact .resends htake hsent hneeded hresend
  · exact .sendEnds htake _ _

/-- **All that a step can do.** -/
theorem step_moves (config : Config H) (input : Input) :
    Move c hm config (step c hm config input).1 (step c hm config input).2 := by
  unfold step
  split
  · exact turn_moves _ _
  · exact send_moves _ _ _ _
  · split
    · exact .resumes _
    · exact .stays _
  · split
    · exact .ends _ _
    · exact .stays _
  · exact .ends _ _
  · exact .stays _

/-! ## The start -/

structure Fresh (check : Option NetCheck) (s : LoopState H) : Prop where
  netCheck : s.netCheck = check
  current : s.current.isHttp = true
  pin : ∀ pin, s.pin = some pin → pin.isHttp = true
  unsent : s.unsent = none
  hops : s.hops = 0
  resends : s.resends = .default

theorem pinOf_isHttp {req : FetchRequest} {pin : Option Url} (h : pinOf c req = .ok pin) :
    ∀ url, pin = some url → url.isHttp := by
  rintro url rfl
  unfold pinOf at h
  split at h
  · cases h
  unfold pinOrigin at h
  split at h
  · split at h
    · next hhttp =>
      cases h
      exact hhttp.1
    · cases h
  · cases h

theorem fetch_fresh (process : Process) (req : FetchRequest) (check : Option NetCheck) :
    (∃ outcome, fetch c hm process req check = .finished outcome) ∨
      ∃ s, fetch c hm process req check = .top s ∧ Fresh check s := by
  unfold fetch
  split
  · exact .inl ⟨_, rfl⟩
  next prepared hprepared =>
  split
  · exact .inl ⟨_, rfl⟩
  split
  · exact .inl ⟨_, rfl⟩
  split
  · exact .inl ⟨_, rfl⟩
  · next pin hpin =>
    exact .inr ⟨_, rfl, rfl, prepare_isHttp hprepared, pinOf_isHttp hpin, rfl, rfl, rfl⟩

/-- **What every move keeps, every run of a fetch keeps.** -/
theorem fetch_invariant {P : Config H → List (Event H) → Prop} (process : Process) (req : FetchRequest)
    (check : Option NetCheck) (hstart : P (fetch c hm process req check) [])
    (hmove : ∀ config config' log events, P config log → Move c hm config config' events → P config' (log ++ events))
    (inputs : List Input) : P (Trace.run (step c hm) (fetch c hm process req check) inputs).1
    (Trace.run (step c hm) (fetch c hm process req check) inputs).2 :=
  Trace.run_invariant (fun config _ input h => hmove _ _ _ _ h (step_moves config input)) hstart inputs

end

/-! ## A pair of origins -/

namespace Sample

def urlOf (host : String) : Url :=
  { scheme := "http", username := "", password := none, host := some host, port := none, path := "/", query := none,
    fragment := none }

/-- The crates, on the URLs of `a.test` and `b.test`. -/
def crates : Crates where
  parse := fun text => if text = "http://a.test/" then some (urlOf "a.test") else none
  join := fun _ text => if text = "http://b.test/" then some (urlOf "b.test") else none
  lossy := fun bytes => String.ofList (bytes.map fun b => Char.ofNat b.toNat)
  uri := fun url =>
    some { scheme := some url.scheme, host := url.host, port := url.port, pathAndQuery := url.path ++ url.query.elim "" ("?" ++ ·) }
  method := fun text => if text = "GET" then some .get else none
  headerName := fun text => some text.toLower
  headerValue := fun bytes => bytes.all fun b => b = 9 || (32 ≤ b && b ≠ 127)
  percentDecode := some
  encode := fun _ => ""
  decode := fun _ => none

def process : Process := { userAgent := utf8 "oam", maxHttpHeaderSize := 16384 }

/-- A GET of `http://a.test/` with these headers and no defaults. -/
def get (headers : List (String × String)) : FetchRequest :=
  { url := "http://a.test/", method := none, headers, body := none, bodyBase64 := none, bodyStream := none,
    fetchSemantics := true, dispatchSemantics := false, redirect := .follow, defaultHeaders := false,
    maxHeaderSize := none, deferHead := none, iterableBody := false, pinOrigin := none }

def turn : Input := .turn { connectionNeeded := false, lookupNeeded := false, proxyAuthorization := none }

def answered (status : Nat) (headers : List (String × Bytes)) : Input :=
  .send
    { known := false, pinned := false, interrupt := .none, cancelledAfter := false, attempts := fun _ =>
        { checkout := .conn false false, first := .chunk,
          result := .ok { status, headers, http2 := false, reason := [] } } }

/-- A hop that is redirected to `b.test`. -/
def redirected : List Input := [turn, answered 302 [("location", utf8 "http://b.test/")]]

end Sample

end Oam.Fetch
