/-
  The redirect step of fetch (`oam_core/src/http_client/redirect.rs`): what a response asks for, and the headers the
  next hop starts from.
-/
import Oam.Fetch.Prepare

namespace Oam.Fetch

open Headers

/-! ## What a response asks for -/

def maxRedirects : Nat := 20

def invalidUrl : String := "Invalid URL"
def badScheme : String := "URL scheme must be a HTTP(S) scheme"
def countExceeded : String := "redirect count exceeded"
def credentials : String := "cross origin not allowed for request mode \"cors\""
def badPort : String := "bad port"
def unexpectedRedirect : String := "unexpected redirect"
def streamedBody : String := ""

inductive RedirectBody where
  | replayable
  | streamed
  | streamedFetch
  | undiciReplayable
  | undiciIterable
  deriving DecidableEq

/-- Whose rules a followed redirect goes by. -/
inductive Rules where
  | fetch
  | undici
  deriving DecidableEq

def rulesOf (body : RedirectBody) : Rules :=
  if body = .undiciReplayable ∨ body = .undiciIterable then .undici else .fetch

inductive Next where
  | done
  | follow (url : Url) (method : Method) (dropBody : Bool)
  | returnResponse
  | fail (message : String)
  | invalidLocation (input : String)
  deriving DecidableEq

def isRedirectStatus (status : Nat) : Bool :=
  status = 301 || status = 302 || status = 303 || status = 307 || status = 308

/-- Repeated Location lines are joined. -/
def location : List Bytes → Option Bytes
  | [] => none
  | first :: rest => some (rest.foldl (fun joined value => joined ++ [0x2c, 0x20] ++ value) first)

def rewritesToGet (status : Nat) (method : Method) : Rules → Bool
  | .undici => status = 303 && method ≠ .head
  | .fetch => ((status = 301 || status = 302) && method = .post) || (status = 303 && method ≠ .get && method ≠ .head)

/-- A value with blanks at its ends or a NUL, CR or LF in it is not parsed. -/
def resolveLocation (c : Crates) (raw : Bytes) (current : Url) : Except (Option String) Url :=
  let badEdge (b : Option UInt8) : Bool := b = some 0x09 || b = some 0x20
  if badEdge raw.head? || badEdge raw.getLast? || raw.any (fun b => b = 0 || b = 0x0d || b = 0x0a) then .error none
  else
    match c.join current (c.lossy raw) with
    | some url => .ok url
    | none => .error (some (c.lossy raw))

def inheritFragment (target current : Url) : Url :=
  if target.fragment.all (·.isEmpty) then
    { target with fragment := current.fragment.filter fun f => !f.isEmpty }
  else target

/-- The step for a response to `method` for `current`, with `redirects` followed so far. -/
def next (c : Crates) (status : Nat) (method : Method) (current : Url) (location : Option Bytes) (redirects : Nat)
    (body : RedirectBody) : Next :=
  if !isRedirectStatus status then .done
  else
    match location with
    | none => .done
    | some location =>
      if body = .streamed then .returnResponse
      else
        match resolveLocation c location current with
        | .error (some input) => .invalidLocation input
        | .error none => .fail invalidUrl
        | .ok target =>
          if !target.isHttp then .fail badScheme
          else if maxRedirects ≤ redirects then .fail countExceeded
          else if !target.username.isEmpty || target.password.isSome then .fail credentials
          else
            let target := inheritFragment target current
            if body = .streamedFetch ∧ status ≠ 303 then .fail streamedBody
            else
              let rewrite := rewritesToGet status method (rulesOf body)
              if !rewrite ∧ body = .streamedFetch then .returnResponse
              else if isBadPort target then .fail badPort
              else if rewrite then .follow target .get true
              else .follow target method false

/-- A followed redirect is below the limit, to an http URL, and the body goes exactly when the method is rewritten. -/
theorem next_follow {c : Crates} {status redirects : Nat} {method method' : Method} {current url : Url}
    {location : Option Bytes} {body : RedirectBody} {dropBody : Bool}
    (h : next c status method current location redirects body = .follow url method' dropBody) :
    redirects < maxRedirects ∧ url.isHttp ∧ body ≠ .streamed ∧
      (body = .streamedFetch → dropBody) ∧ method' = if dropBody then .get else method := by
  unfold next at h
  split at h
  · cases h
  split at h
  · cases h
  split at h
  · cases h
  next hstreamed =>
  split at h
  · cases h
  · cases h
  next target _ =>
  split at h
  · cases h
  next hhttp =>
  split at h
  · cases h
  next hcount =>
  split at h
  · cases h
  have hhttp' : (inheritFragment target current).isHttp := by
    have htarget : target.isHttp := by simpa using hhttp
    unfold inheritFragment
    split
    · exact htarget
    · exact htarget
  simp only at h
  split at h
  · cases h
  split at h
  · cases h
  next hkeeps =>
  split at h
  · cases h
  split at h
  · cases h
    exact ⟨by omega, hhttp', hstreamed, fun _ => rfl, rfl⟩
  · next hrewrite =>
    cases h
    refine ⟨by omega, hhttp', hstreamed, fun hbody => ?_, rfl⟩
    exact absurd ⟨by simpa using hrewrite, hbody⟩ hkeeps

/-! ## The headers of the next hop -/

def bodyHeaders : List String :=
  ["content-encoding", "content-language", "content-location", "content-type", "content-length", "transfer-encoding"]

def credentialHeaders : List String := ["authorization", "proxy-authorization", "cookie", "host"]

/-- Rewrite the carried headers for the hop `origin` → `target`. -/
def apply {H : Type} (hm : HeaderMap H) (headers : H) (origin target : Url) (dropBody : Bool) : H :=
  let headers := if dropBody then hm.removeAll headers bodyHeaders else headers
  if originEq origin target then headers else hm.removeAll headers credentialHeaders

def removed (origin target : Url) (dropBody : Bool) : List String :=
  (if dropBody then bodyHeaders else []) ++ if originEq origin target then [] else credentialHeaders

theorem getAll_apply {H : Type} (hm : HeaderMap H) (headers : H) (origin target : Url) (dropBody : Bool)
    (name : String) : hm.getAll (apply hm headers origin target dropBody) name =
    if name ∈ removed origin target dropBody then [] else hm.getAll headers name := by
  rw [← hm.getAll_removeAll]
  unfold apply removed HeaderMap.removeAll
  cases dropBody <;> cases originEq origin target <;> simp [List.foldl_append]

end Oam.Fetch
