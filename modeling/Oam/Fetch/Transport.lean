/-
  One send of a request (`oam_core/src/http_client/pool.rs`, `Pool::request`).  The network is the environment: it says
  what each checkout finds and what each attempt comes to (`Attempt`).
-/
import Oam.Fetch.Prepare

namespace Oam.Fetch

open Headers

/-- A request's body: a streamed one is the receiver of the channel with that handle. -/
inductive Body where
  | empty
  | full (bytes : Bytes)
  | channel (handle : Nat)
  deriving DecidableEq

/-- `headAwaitsBody`: the head waits for the body's first chunk; whether a body without one has a length of 0. -/
structure Request (H : Type) where
  method : Method
  uri : Uri
  headers : H
  body : Body
  headAwaitsBody : Option Bool

structure Response where
  status : Nat
  headers : List (String × Bytes)
  http2 : Bool
  reason : Bytes

structure NeedsLookup where
  key : String
  host : String
  deriving DecidableEq

structure Chain where
  isH2Retryable : Bool
  isIncompleteMessage : Bool

/-- `SendError`: its chain, and what the pool knows of the connection. -/
structure SendError (H : Type) where
  lookupNeeded : Option NeedsLookup
  returned : Option (Request H)
  chain : Chain
  reused : Bool
  responseStarted : Bool

/-! ## The network's part -/

/-- What a checkout finds: a connection, idle or dialled; a name that the hook has not answered for; a failure. -/
inductive Checkout where
  | conn (isH2 proxied : Bool)
  | needsLookup
  | failed (chain : Chain)

/-- What a body that is waited for begins with. -/
inductive First where
  | chunk
  | none
  | failed (chain : Chain)

inductive SendResult where
  | ok (response : Response)
  | unsent (chain : Chain) (reused responseStarted : Bool)
  | sent (chain : Chain) (reused responseStarted : Bool)

structure Attempt where
  checkout : Checkout
  first : First
  result : SendResult

/-! ## The pool's part -/

structure PoolKey where
  scheme : String
  host : String
  port : Option Nat
  deriving DecidableEq

def poolKey (uri : Uri) : Option PoolKey :=
  match uri.scheme, uri.host with
  | some scheme, some host => some { scheme, host, port := uri.port }
  | _, _ => none

/-- The destination that the connector dials for a key. -/
def domainAsUri (key : PoolKey) : Uri :=
  { scheme := some key.scheme, host := some key.host, port := key.port, pathAndQuery := "/" }

/-- `needs_lookup`, on a hooked connector and for a host that is not an IP literal. -/
def needsLookup (dst : Uri) : Option NeedsLookup :=
  match dst.authorityKey, dst.hostForConnect with
  | some key, some host => some { key, host }
  | _, _ => none

def nonDefaultPort (uri : Uri) : Option Nat :=
  uri.port.filter fun port =>
    let secure := uri.scheme = some "https" ∨ uri.scheme = some "wss"
    !(port = 443 ∧ secure ∨ port = 80 ∧ ¬secure)

def hostValue (uri : Uri) : Option Bytes :=
  uri.host.map fun host => utf8 (host ++ (nonDefaultPort uri).elim "" fun port => ":" ++ toString port)

def originForm (uri : Uri) : Uri :=
  { scheme := none, host := none, port := none, pathAndQuery := if uri.pathAndQuery.isEmpty then "/" else uri.pathAndQuery }

def authorityForm (uri : Uri) : Uri :=
  if uri.host.isSome then { scheme := none, host := uri.host, port := uri.port, pathAndQuery := "" } else uri

def rewriteRequestUri (uri : Uri) (isH2 proxied isConnect : Bool) : Uri :=
  if isH2 then uri
  else if isConnect then authorityForm uri
  else if proxied then uri
  else originForm uri

section
variable {H : Type} (c : Crates) (hm : HeaderMap H)

def setHostHeader (req : Request H) (isH2 : Bool) : Request H :=
  if isH2 || hm.containsKey req.headers "host" then req
  else
    match (hostValue req.uri).filter c.headerValue with
    | none => req
    | some value => { req with headers := hm.insert req.headers "host" value }

/-- `HeadAwaitsBody::prime`: a body that ended with no chunk goes as no body at all. -/
def prime (emptyContentLength : Bool) (req : Request H) : First → Except Chain (Request H)
  | .chunk => .ok req
  | .failed chain => .error chain
  | .none =>
    let headers := hm.remove req.headers "transfer-encoding"
    let headers :=
      if emptyContentLength && !hm.containsKey headers "content-length" then
        hm.insert headers "content-length" (utf8 "0")
      else headers
    .ok { req with body := .empty, headers }

def primed (req : Request H) (first : First) : Except Chain (Request H) :=
  match req.headAwaitsBody with
  | none => .ok req
  | some emptyContentLength => prime hm emptyContentLength { req with headAwaitsBody := none } first

def maxAttempts : Nat := 3

def noChain : Chain := { isH2Retryable := false, isIncompleteMessage := false }

/-- What a send came to, and the destinations of the connections it asked for. -/
structure Sent (H : Type) where
  outcome : Except (SendError H) Response
  checkouts : List Uri

def Sent.failed (chain : Chain) (reused responseStarted : Bool) (checkouts : List Uri) : Sent H :=
  { outcome := .error { lookupNeeded := none, returned := none, chain, reused, responseStarted }, checkouts }

/-- The attempts, with `left` of them left.  `original` is the URI that each of them starts from. -/
def attemptsFrom (key : PoolKey) (original : Uri) (attempts : Nat → Attempt) :
    (left : Nat) → (allowReuse : Bool) → Request H → Sent H
  | 0, _, _ => .failed noChain false false []
  | left + 1, allowReuse, req =>
    let dst := domainAsUri key
    match (attempts left).checkout with
    | .failed chain => .failed chain false false [dst]
    | .needsLookup =>
      match needsLookup dst with
      | none => .failed noChain false false [dst]
      | some needed =>
        { outcome := .error
            { lookupNeeded := some needed, returned := some { req with uri := original }, chain := noChain,
              reused := false, responseStarted := false },
          checkouts := [] }
    | .conn isH2 proxied =>
      match primed hm req (attempts left).first with
      | .error chain => .failed chain false false [dst]
      | .ok req =>
        let isConnect : Bool := req.method = .connect
        let req := setHostHeader c hm { req with uri := original } isH2
        let onWire := { req with uri := rewriteRequestUri req.uri isH2 proxied isConnect }
        match (attempts left).result with
        | .ok response => { outcome := .ok response, checkouts := [dst] }
        | .sent chain reused responseStarted => .failed chain reused responseStarted [dst]
        | .unsent chain reused responseStarted =>
          -- A reused connection handed the request back unsent: once more, on a fresh one.
          if reused && allowReuse then
            let rest := attemptsFrom key original attempts left false onWire
            { rest with checkouts := dst :: rest.checkouts }
          else .failed chain reused responseStarted [dst]

/-- `pinned`: the route holds the hook's answer for the request's authority. -/
def request (pinned : Bool) (attempts : Nat → Attempt) (req : Request H) : Sent H :=
  match poolKey req.uri with
  | none => .failed noChain false false []
  | some key => attemptsFrom c hm key req.uri attempts maxAttempts (!pinned) req

end

/-! ## What comes back -/

section
variable {H : Type} {c : Crates} {hm : HeaderMap H}

/-- `r` is `req` again, as far as its caller can tell. -/
structure Redressed (hm : HeaderMap H) (uri : Uri) (req r : Request H) : Prop where
  method : r.method = req.method
  body : r.body = req.body ∨ r.body = .empty
  headers : ∀ name, name ≠ "transfer-encoding" → name ≠ "content-length" → name ≠ "host" →
    hm.getAll r.headers name = hm.getAll req.headers name
  host : hm.getAll r.headers "host" = hm.getAll req.headers "host" ∨
    hm.getAll req.headers "host" = [] ∧ hm.getAll r.headers "host" = (hostValue uri).toList

theorem Redressed.refl (uri : Uri) (req : Request H) : Redressed hm uri req req :=
  ⟨rfl, .inl rfl, fun _ _ _ _ => rfl, .inl rfl⟩

variable {uri : Uri}

theorem Redressed.trans {req r r' : Request H} (h : Redressed hm uri req r)
    (h' : Redressed hm uri r r') : Redressed hm uri req r' where
  method := h'.method.trans h.method
  body := h'.body.elim (fun hbody => hbody ▸ h.body) .inr
  headers := fun name hte hcl hhost => (h'.headers name hte hcl hhost).trans (h.headers name hte hcl hhost)
  host := by
    rcases h.host with hsame | ⟨hnone, hset⟩
    · rw [← hsame]
      exact h'.host
    · rcases h'.host with hsame | ⟨_, hset'⟩
      · exact .inr ⟨hnone, hsame.trans hset⟩
      · exact .inr ⟨hnone, hset'⟩

theorem Redressed.setUri {req r : Request H} (h : Redressed hm uri req r) (uri' : Uri) :
    Redressed hm uri req { r with uri := uri' } :=
  ⟨h.method, h.body, h.headers, h.host⟩

theorem redressed_primed {req r : Request H} {first : First} (h : primed hm req first = .ok r) :
    Redressed hm uri req r := by
  unfold primed at h
  split at h
  · cases h
    exact .refl uri req
  next emptyContentLength _ =>
  cases first with
  | chunk =>
    cases h
    exact ⟨rfl, .inl rfl, fun _ _ _ _ => rfl, .inl rfl⟩
  | failed chain => cases h
  | none =>
    cases h
    have hkept : ∀ name, name ≠ "transfer-encoding" → name ≠ "content-length" →
        hm.getAll (if emptyContentLength && !hm.containsKey (hm.remove req.headers "transfer-encoding") "content-length"
          then hm.insert (hm.remove req.headers "transfer-encoding") "content-length" (utf8 "0")
          else hm.remove req.headers "transfer-encoding") name = hm.getAll req.headers name := by
      intro name hte hcl
      split
      · simp [hte, hcl]
      · simp [hte]
    exact ⟨rfl, .inr rfl, fun name hte hcl _ => hkept name hte hcl, .inl (hkept "host" (by decide) (by decide))⟩

theorem redressed_setHostHeader (req : Request H) (isH2 : Bool) :
    Redressed hm req.uri req (setHostHeader c hm req isH2) := by
  unfold setHostHeader
  split
  · exact .refl req.uri req
  next hhost =>
  have hnone : hm.getAll req.headers "host" = [] := by
    rw [Bool.or_eq_true, not_or] at hhost
    simpa [HeaderMap.containsKey] using hhost.2
  split
  · exact .refl req.uri req
  · next value hvalue =>
    have hset : hostValue req.uri = some value := (Option.filter_eq_some_iff.mp hvalue).1
    exact ⟨rfl, .inl rfl, fun name _ _ hname => by simp [hname], .inr ⟨hnone, by simp [hset]⟩⟩

def SameOrigin (a b : Uri) : Prop := a.scheme = b.scheme ∧ a.host = b.host ∧ a.port = b.port

/-- Every connection asked for is to the request's own origin, and a request that comes back is the same request. -/
structure Sends (hm : HeaderMap H) (req : Request H) (sent : Sent H) : Prop where
  checkouts : ∀ dst ∈ sent.checkouts, SameOrigin dst req.uri
  returned : ∀ e, sent.outcome = .error e → ∀ needed, e.lookupNeeded = some needed →
    ∃ r, e.returned = some r ∧ r.uri = req.uri ∧ Redressed hm req.uri req r

variable {req : Request H}

theorem Sends.failed {chain : Chain} {reused responseStarted : Bool} {checkouts : List Uri}
    (h : ∀ dst ∈ checkouts, SameOrigin dst req.uri) :
    Sends hm req (.failed chain reused responseStarted checkouts) where
  checkouts := h
  returned := fun e he needed hneeded => by
    cases he
    cases hneeded

theorem Sends.cons {rest : Sent H} {dst : Uri} (h : Sends hm req rest)
    (hdst : SameOrigin dst req.uri) : Sends hm req { rest with checkouts := dst :: rest.checkouts } where
  checkouts := fun x hx => by
    rcases List.mem_cons.mp hx with rfl | hx
    · exact hdst
    · exact h.checkouts x hx
  returned := h.returned

theorem sameOrigin_domainAsUri {key : PoolKey} (h : poolKey uri = some key) : SameOrigin (domainAsUri key) uri := by
  unfold poolKey at h
  split at h
  · next scheme host hscheme hhost =>
    cases h
    exact ⟨hscheme.symm, hhost.symm, rfl⟩
  · cases h

theorem attemptsFrom_sends {key : PoolKey} {base : Request H} (hkey : poolKey base.uri = some key)
    (attempts : Nat → Attempt) (left : Nat) (allowReuse : Bool) (hreq : Redressed hm base.uri base req) : Sends hm base
    (attemptsFrom c hm key base.uri attempts left allowReuse req) := by
  have hdst : SameOrigin (domainAsUri key) base.uri := sameOrigin_domainAsUri hkey
  have hone : ∀ dst ∈ [domainAsUri key], SameOrigin dst base.uri := fun dst hmem => by
    rw [List.mem_singleton.mp hmem]
    exact hdst
  induction left generalizing req allowReuse with
  | zero => exact .failed fun dst h => by cases h
  | succ left ih =>
    unfold attemptsFrom
    simp only
    split
    · exact .failed hone
    · split
      · exact .failed hone
      · refine ⟨fun dst h => (by cases h), fun e he needed _ => ?_⟩
        cases he
        exact ⟨_, rfl, rfl, hreq.setUri base.uri⟩
    · next isH2 proxied _ =>
      split
      · exact .failed hone
      next r hprimed =>
      split
      · exact ⟨hone, fun e he => by cases he⟩
      · exact .failed hone
      split
      · -- The next attempt starts from the caller's URI again.
        have hr : Redressed hm base.uri base r := hreq.trans (redressed_primed hprimed)
        have hsent : Redressed hm base.uri base (setHostHeader c hm { r with uri := base.uri } isH2) :=
          (hr.setUri base.uri).trans (redressed_setHostHeader { r with uri := base.uri } isH2)
        refine Sends.cons (ih false ?_) hdst
        exact hsent.setUri _
      · exact .failed hone

/-- **A send asks for connections to its own origin only, and gives back what it was given.** -/
theorem request_sends (pinned : Bool) (attempts : Nat → Attempt) (req : Request H) :
    Sends hm req (request c hm pinned attempts req) := by
  unfold request
  split
  · exact .failed fun dst h => by cases h
  · next key hkey => exact attemptsFrom_sends hkey attempts maxAttempts (!pinned) (.refl req.uri req)

end

end Oam.Fetch
