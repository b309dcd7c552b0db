/-
  What a fetch starts from (`oam_core/src/http_client/prepare.rs`), before anything dials.  The crates' own work
  (parsing a URL, a URI, a method, base64) is the record `Crates`.
-/
import Oam.Lib.Headers

namespace Oam.Fetch

open Headers

inductive Method where
  | get
  | head
  | post
  | put
  | delete
  | options
  | trace
  | patch
  | connect
  | extension (token : String)
  deriving DecidableEq

/-! ## URLs and URIs -/

/-- A parsed URL, by its parts; a default port is `none`. -/
structure Url where
  scheme : String
  username : String
  password : Option String
  host : Option String
  port : Option Nat
  path : String
  query : Option String
  fragment : Option String
  deriving DecidableEq

namespace Url

def isHttp (url : Url) : Bool := url.scheme = "http" || url.scheme = "https"

def portOrKnownDefault (url : Url) : Option Nat :=
  url.port <|>
    if url.scheme = "http" ∨ url.scheme = "ws" then some 80
    else if url.scheme = "https" ∨ url.scheme = "wss" then some 443
    else if url.scheme = "ftp" then some 21
    else none

end Url

def unbracketed (host : String) : String :=
  match host.toList with
  | '[' :: rest => if rest.getLast? = some ']' then String.ofList rest.dropLast else host
  | _ => host

/-- `http::Uri`. -/
structure Uri where
  scheme : Option String
  host : Option String
  port : Option Nat
  pathAndQuery : String
  deriving DecidableEq

namespace Uri

def effectivePort (uri : Uri) : Nat := uri.port.getD (if uri.scheme = some "https" then 443 else 80)

/-- `host_for_connect`: the host without the brackets of an IPv6 address. -/
def hostForConnect (uri : Uri) : Option String := uri.host.map unbracketed

/-- `authority_key`: what a hook's answer, or a supplied connection, is filed under. -/
def authorityKey (uri : Uri) : Option String :=
  uri.hostForConnect.map fun host => host.toLower ++ ":" ++ toString uri.effectivePort

end Uri

/-- Scheme, host and port. -/
def originEq (a b : Url) : Bool :=
  a.scheme = b.scheme && a.host = b.host && a.portOrKnownDefault = b.portOrKnownDefault

def badPorts : List Nat :=
  [1, 7, 9, 11, 13, 15, 17, 19, 20, 21, 22, 23, 25, 37, 42, 43, 53, 69, 77, 79, 87, 95, 101, 102,
    103, 104, 109, 110, 111, 113, 115, 117, 119, 123, 135, 137, 139, 143, 161, 179, 389, 427, 465,
    512, 513, 514, 515, 526, 530, 531, 532, 540, 548, 554, 556, 563, 587, 601, 636, 989, 990, 993,
    995, 1719, 1720, 1723, 2049, 3659, 4045, 4190, 5060, 5061, 6000, 6566, 6665, 6666, 6667, 6668,
    6669, 6679, 6697, 10080]

def isBadPort (url : Url) : Bool := url.isHttp && url.port.any fun port => badPorts.contains port

/-! ## Preparing a request -/

/-- The crates' own work: `url`, `http`, `percent_encoding`, `base64`.  `uri` reads the text of a URL as a URI. -/
structure Crates where
  parse : String → Option Url
  join : Url → String → Option Url
  lossy : Bytes → String
  uri : Url → Option Uri
  method : String → Option Method
  headerName : String → Option String
  headerValue : Bytes → Bool
  percentDecode : String → Option String
  encode : Bytes → String
  decode : String → Option Bytes

def utf8 (text : String) : Bytes := text.toList.flatMap String.utf8EncodeChar

def builderError : String := "builder error"

inductive PrepareError where
  | builder
  | invalidMethod (method : String)
  | tooManyHeaders
  deriving DecidableEq

def PrepareError.text : PrepareError → String
  | builder => builderError
  | invalidMethod m => "fetch: invalid method '" ++ m ++ "'"
  | tooManyHeaders => "fetch: too many request headers"

structure Prepared (H : Type) where
  url : Url
  method : Method
  headers : H

variable {H : Type} (c : Crates) (hm : HeaderMap H)

/-- Scheme, host, port, path and query, read again as a URI: no userinfo and no fragment. -/
def toUri (url : Url) : Option Uri := c.uri { url with username := "", password := none, fragment := none }

def parseUrl (raw : String) : Option Url :=
  (c.parse raw).bind fun url => if url.isHttp ∧ url.host.isSome then (toUri c url).map fun _ => url else none

/-- Take the userinfo out, and give it back as a Basic credential. -/
def takeUserinfo (url : Url) : Url × Option Bytes :=
  if url.username.isEmpty ∧ url.password = none then (url, none)
  else
    let password := url.password.bind c.percentDecode
    let credential :=
      (c.percentDecode url.username).bind fun username =>
        if username.isEmpty ∧ password = none then none
        else
          let value := utf8 ("Basic " ++ c.encode (utf8 (username ++ ":" ++ password.getD "")))
          if c.headerValue value then some value else none
    ({ url with username := "", password := none }, credential)

def latin1Bytes (text : String) : Option Bytes :=
  text.toList.mapM fun char => if char.toNat < 256 then some (UInt8.ofNat char.toNat) else none

def latin1HeaderValue (text : String) : Option Bytes := (latin1Bytes text).filter c.headerValue

def appendAll (headers : H) : List (String × String) → Except PrepareError H
  | [] => .ok headers
  | (name, value) :: rest =>
    match c.headerName name, latin1HeaderValue c value with
    | some name, some value =>
      match hm.tryAppend headers name value with
      | some headers => appendAll headers rest
      | none => .error .tooManyHeaders
    | _, _ => .error .builder

def addDefaults (headers : H) : List (String × Bytes) → Except PrepareError H
  | [] => .ok headers
  | (name, value) :: rest =>
    if hm.containsKey headers name then addDefaults headers rest
    else
      match hm.tryInsert headers name value with
      | some headers => addDefaults headers rest
      | none => .error .tooManyHeaders

def prepare (rawUrl method : String) (userHeaders : List (String × String)) (defaultHeaders : Bool)
    (userAgent : Bytes) : Except PrepareError (Prepared H) :=
  match c.method method with
  | none => .error (.invalidMethod method)
  | some method =>
    match parseUrl c rawUrl with
    | none => .error .builder
    | some url =>
      let (url, basic) := takeUserinfo c url
      -- An explicit authorization wins over the URL's.
      let basic := if userHeaders.any (fun h => h.1.toLower = "authorization") then none else basic
      let start :=
        match basic with
        | none => some hm.empty
        | some basic => hm.tryAppend hm.empty "authorization" basic
      match start with
      | none => .error .tooManyHeaders
      | some headers =>
        match appendAll c hm headers userHeaders with
        | .error e => .error e
        | .ok headers =>
          let defaults :=
            [("accept", utf8 "*/*"), ("user-agent", userAgent), ("accept-encoding", utf8 "gzip,deflate")]
          match if defaultHeaders then addDefaults hm headers defaults else .ok headers with
          | .error e => .error e
          | .ok headers => .ok { url, method, headers }

variable {c hm}

theorem parseUrl_isHttp {raw : String} {url : Url} (h : parseUrl c raw = some url) : url.isHttp := by
  obtain ⟨parsed, _, h⟩ := Option.bind_eq_some_iff.mp h
  split at h
  · next hparsed =>
    obtain ⟨_, _, rfl⟩ := Option.map_eq_some_iff.mp h
    exact hparsed.1
  · cases h

theorem takeUserinfo_isHttp (url : Url) : (takeUserinfo c url).1.isHttp = url.isHttp := by
  unfold takeUserinfo
  split
  · rfl
  · rfl

/-- **What is prepared is an http URL.** -/
theorem prepare_isHttp {rawUrl method : String} {userHeaders : List (String × String)} {defaultHeaders : Bool}
    {userAgent : Bytes} {p : Prepared H}
    (h : prepare c hm rawUrl method userHeaders defaultHeaders userAgent = .ok p) : p.url.isHttp := by
  unfold prepare at h
  split at h
  · cases h
  split at h
  · cases h
  next url hurl =>
  simp only at h
  split at h
  · cases h
  split at h
  · cases h
  split at h
  · cases h
  · cases h
    exact (takeUserinfo_isHttp url).trans (parseUrl_isHttp hurl)

end Oam.Fetch
