/-
  `node:_http_common`: the `HTTPParser` that JavaScript feeds with `execute`.

  A text of the source is a latin1 string, so it is its bytes.  A failed parser keeps the error IN its state, since
  nothing else of it is read again.  The callbacks are a log of calls with their arguments; of their answers only that
  of `kOnHeadersComplete` is read, and it is a function of its arguments.
-/
import Oam.Lib.Bytes
import Oam.Lib.Feed
import Oam.Lib.Number

namespace Oam.Http.HttpParser

open Bytes Feed Number

/-! ## Data -/

inductive Kind where
  | request
  | response
deriving DecidableEq

/-- The codes of `parseError`. -/
inductive Code where
  | closedConnection
  | crExpected
  | headerOverflow
  | invalidChunkSize
  | invalidConstant
  | invalidContentLength
  | invalidHeaderToken
  | invalidMethod
  | invalidStatus
  | invalidTransferEncoding
  | invalidUrl
  | invalidVersion
  | lfExpected
  | pausedH2Upgrade
  | strict
  | unexpectedContentLength
deriving DecidableEq

structure ParseError where
  code : Code
  reason : String
  bytesParsed : Nat
deriving DecidableEq

/-- The states of the parser, as the source lists them. -/
inductive State where
  | start
  | closed
  | method
  | urlStart
  | url
  | reqProto
  | resProto
  | major
  | dot
  | minor
  | reqLineEnd
  | lineLf
  | statusStart
  | status
  | statusEnd
  | reason
  | fieldStart
  | field
  | valueOws
  | value
  | valueLf
  | headEndLf
  | bodyLength
  | chunkSizeStart
  | chunkSize
  | chunkExt
  | chunkSizeLf
  | chunkData
  | chunkDataCr
  | chunkDataLf
  | bodyEof
  | upgraded
  | error (err : ParseError)
deriving DecidableEq

/-- `p.versionNext`: the state behind the version, `S_REQ_LINE_END` or `S_STATUS_START`. -/
inductive VersionNext where
  | reqLineEnd
  | statusStart
deriving DecidableEq

def VersionNext.state : VersionNext → State
  | .reqLineEnd => .reqLineEnd
  | .statusStart => .statusStart

/-- `p.fieldKind`: whether the field decides the framing. -/
inductive FieldKind where
  | plain
  | contentLength
  | transferEncoding
deriving DecidableEq

/-- The lenient flags, `kLenientNone` to `kLenientAll`. -/
structure Lenient where
  headers : Bool
  chunkedLength : Bool
  keepAlive : Bool
  transferEncoding : Bool
  version : Bool
  dataAfterClose : Bool
  optionalLFAfterCR : Bool
  optionalCRLFAfterChunk : Bool
  optionalCRBeforeLF : Bool
  spacesAfterChunkSize : Bool
deriving DecidableEq

def kLenientNone : Lenient where
  headers := false
  chunkedLength := false
  keepAlive := false
  transferEncoding := false
  version := false
  dataAfterClose := false
  optionalLFAfterCR := false
  optionalCRLFAfterChunk := false
  optionalCRBeforeLF := false
  spacesAfterChunkSize := false

structure Parser where
  type : Kind
  max : Nat
  lenient : Lenient
  state : State
  tok : Bytes
  /-- `none` is the source's `-1`. -/
  method : Option Nat
  url : Bytes
  urlPart : Nat
  major : Nat
  minor : Nat
  versionNext : VersionNext
  status : Nat
  statusDigits : Nat
  reason : Bytes
  /-- The fields gathered; the source keeps a name and its value as two entries. -/
  fields : List (Bytes × Bytes)
  field : Bytes
  value : Bytes
  fieldKind : FieldKind
  /-- Where in the buffer the value began, or `-1`. -/
  valueStart : Int
  flushed : Bool
  nread : Nat
  trailers : Bool
  /-- `none` is the source's `-1`. -/
  contentLength : Option Nat
  teSeen : Bool
  chunked : Bool
  connClose : Bool
  connKeepAlive : Bool
  connUpgrade : Bool
  upgradeHeader : Bool
  upgrade : Bool
  skipBody : Bool
  keepAlive : Bool
  upgradeAfterBody : Bool
  resumed : Bool
  remaining : Nat
  hexDigits : Nat
  hexSignificant : Nat
deriving DecidableEq

/-- What `kOnHeadersComplete` is called with. -/
structure HeadArgs where
  major : Nat
  minor : Nat
  headers : Option (List (Bytes × Bytes))
  method : Option (Option Nat)
  url : Option Bytes
  status : Option Nat
  reason : Option Bytes
  upgrade : Bool
  keepAlive : Bool
deriving DecidableEq

inductive Call where
  | messageBegin
  | headers (fields : List (Bytes × Bytes)) (url : Bytes)
  | headersComplete (args : HeadArgs)
  | body (chunk : Bytes)
  | messageComplete
deriving DecidableEq

/-- The answer of `kOnHeadersComplete`: `1` skips the body, `2` also stops the parser. -/
inductive Ret where
  | one
  | two
  | other
deriving DecidableEq

/-- A place in the loop: the parser and the index into the buffer. -/
structure Cursor where
  p : Parser
  i : Nat

/-! ## Program -/

def MAX_FIELDS : Nat := 32

def MAX_SAFE : Nat := 2 ^ 53 - 1

def U64_MAX : Nat := 2 ^ 64 - 1

def LLHTTP_METHODS : List Bytes :=
  ["DELETE", "GET", "HEAD", "POST", "PUT", "CONNECT", "OPTIONS", "TRACE", "COPY", "LOCK",
    "MKCOL", "MOVE", "PROPFIND", "PROPPATCH", "SEARCH", "UNLOCK", "BIND", "REBIND", "UNBIND",
    "ACL", "REPORT", "MKACTIVITY", "CHECKOUT", "MERGE", "M-SEARCH", "NOTIFY", "SUBSCRIBE",
    "UNSUBSCRIBE", "PATCH", "PURGE", "MKCALENDAR", "LINK", "UNLINK", "SOURCE", "PRI",
    "DESCRIBE", "ANNOUNCE", "SETUP", "PLAY", "PAUSE", "TEARDOWN", "GET_PARAMETER",
    "SET_PARAMETER", "REDIRECT", "RECORD", "FLUSH", "QUERY"].map ascii

def CONNECT : Nat := 5

def PRI : Nat := 34

def isLlhttpHttpMethod (index : Nat) : Bool := decide (index < 34) || index == 46

/-- `METHOD_INDEX`. -/
def methodIndex (tok : Bytes) : Option Nat := LLHTTP_METHODS.findIdx? (· == tok)

/-- `METHOD_PREFIXES`: the proper prefixes, the empty one apart. -/
def isMethodPrefix (tok : Bytes) : Bool :=
  LLHTTP_METHODS.any fun name => !tok.isEmpty && tok.isPrefixOf name && decide (tok.length < name.length)

def isDigit (c : UInt8) : Bool := decide (48 ≤ c.toNat) && decide (c.toNat ≤ 57)

def isLetter (c : UInt8) : Bool :=
  (decide (65 ≤ c.toNat) && decide (c.toNat ≤ 90)) || (decide (97 ≤ c.toNat) && decide (c.toNat ≤ 122))

/-- `TOKEN`. -/
def isToken (c : UInt8) : Bool := isDigit c || isLetter c || (ascii "!#$%&'*+-.^_\x60|~").contains c

def isBlank (c : UInt8) : Bool := c == 32 || c == 9

def isEol (c : UInt8) : Bool := c == 13 || c == 10

/-- `String.prototype.toLowerCase` on a latin1 code unit. -/
def toLowerCase (c : UInt8) : UInt8 :=
  if (65 ≤ c.toNat ∧ c.toNat ≤ 90) ∨ (192 ≤ c.toNat ∧ c.toNat ≤ 222 ∧ c ≠ 215) then c + 32 else c

/-- What `String.prototype.trim` takes off, of latin1: TAB, LF, VT, FF, CR, SP and NBSP. -/
def isWhiteSpace (c : UInt8) : Bool := (decide (9 ≤ c.toNat) && decide (c.toNat ≤ 13)) || c == 32 || c == 160

def trim (text : Bytes) : Bytes := (text.dropWhile isWhiteSpace).rdropWhile isWhiteSpace

/-- A parser as its `initialize` method leaves it. -/
def initParser (type : Kind) (max : Nat) (lenient : Lenient) : Parser where
  type := type
  max := max
  lenient := lenient
  state := .start
  tok := []
  method := none
  url := []
  urlPart := 0
  major := 0
  minor := 0
  versionNext := .reqLineEnd
  status := 0
  statusDigits := 0
  reason := []
  fields := []
  field := []
  value := []
  fieldKind := .plain
  valueStart := -1
  flushed := false
  nread := 0
  trailers := false
  contentLength := none
  teSeen := false
  chunked := false
  connClose := false
  connKeepAlive := false
  connUpgrade := false
  upgradeHeader := false
  upgrade := false
  skipBody := false
  keepAlive := false
  upgradeAfterBody := false
  resumed := false
  remaining := 0
  hexDigits := 0
  hexSignificant := 0

def resetMessage (p : Parser) : Parser :=
  { p with
    tok := [], method := none, url := [], urlPart := 0, major := 0, minor := 0, status := 0,
    reason := [], fields := [], field := [], value := [], flushed := false, nread := 0,
    trailers := false, contentLength := none, teSeen := false, chunked := false, connClose := false,
    connKeepAlive := false, connUpgrade := false, upgradeHeader := false, keepAlive := false,
    remaining := 0, hexDigits := 0 }

def flush (p : Parser) : Parser × Call :=
  ({ p with fields := [], url := [], flushed := true }, .headers p.fields p.url)

/-- `track`'s answer, once the bytes are added to `nread`. -/
def overflows (p : Parser) : Bool := decide (p.max ≤ p.nread)

def needsEof (p : Parser) : Bool :=
  if p.type = .request then false
  else if p.status / 100 == 1 || p.status == 204 || p.status == 304 || p.skipBody then false
  else if p.teSeen && !p.chunked then true
  else if p.chunked || p.contentLength.isSome then false
  else true

def shouldKeepAlive (p : Parser) : Bool :=
  if p.major > 0 ∧ p.minor > 0 then !p.connClose && !needsEof p
  else p.connKeepAlive && !needsEof p

def messageComplete (p : Parser) : Parser × List Call :=
  if p.trailers && !p.fields.isEmpty then ((flush p).1, [(flush p).2, .messageComplete])
  else (p, [.messageComplete])

/-- One token of a `Connection` value. -/
def connectionToken (p : Parser) (t : Bytes) : Parser :=
  if t = ascii "close" then { p with connClose := true }
  else if t = ascii "keep-alive" then { p with connKeepAlive := true }
  else if t = ascii "upgrade" then { p with connUpgrade := true }
  else p

def fieldDone (p : Parser) : Parser :=
  let name := p.field.map toLowerCase
  let q := { p with fields := p.fields ++ [(p.field, p.value)] }
  if p.trailers then q
  else if name = ascii "connection" then
    (((p.value.map toLowerCase).splitOn 44).map trim).foldl connectionToken q
  else if name = ascii "upgrade" then { q with upgradeHeader := true }
  else q

def kindOf (name : Bytes) : FieldKind :=
  if name.map toLowerCase = ascii "content-length" then .contentLength
  else if name.map toLowerCase = ascii "transfer-encoding" then .transferEncoding
  else .plain

def valueStart (p : Parser) (i : Nat) : Except ParseError Parser :=
  if p.trailers then .ok { p with fieldKind := .plain }
  else if kindOf p.field = .contentLength ∧ p.teSeen ∧ !p.lenient.chunkedLength then
    .error ⟨.invalidContentLength, "Content-Length can't be present with Transfer-Encoding", i⟩
  else if kindOf p.field = .transferEncoding ∧ p.contentLength.isSome ∧ !p.lenient.chunkedLength then
    .error ⟨.invalidTransferEncoding, "Transfer-Encoding can't be present with Content-Length", i⟩
  else .ok { p with fieldKind := kindOf p.field }

/-- `BigInt` of digits. -/
def bigInt (digits : Bytes) : Nat := digits.foldl (fun n c => n * 10 + (c.toNat - 48)) 0

/-- The index of the byte that a `Content-Length` value is refused at: past the whitespace inside. -/
def badAt (value : Bytes) (k : Nat) : Nat :=
  min (k + ((value.drop k).takeWhile isBlank).length) (value.length - 1)

/-- The digits of a `Content-Length` from the `k`-th on: a number while it is safe, then a `BigInt`. -/
def lengthDigits (value : Bytes) (stop : Nat) : Nat → Bytes → Nat → Option Nat → Except ParseError Nat
  | _, [], n, none => .ok n
  | _, [], _, some big => .ok (toNumber big)
  | k, c :: rest, n, big =>
    if !isDigit c then
      .error ⟨.invalidContentLength, "Invalid character in Content-Length",
        stop - (value.length - badAt value k)⟩
    else
      let m := toNumber (toNumber (n * 10) + (c.toNat - 48))
      let big' := match big with
        | none => if m > MAX_SAFE then some (bigInt (value.take (k + 1))) else none
        | some b => some (b * 10 + (c.toNat - 48))
      if big'.any (· > U64_MAX) then
        .error ⟨.invalidContentLength, "Content-Length overflow", stop - (value.length - k) + 1⟩
      else lengthDigits value stop (k + 1) rest (if big.isNone then m else n) big'

/-- The codings of a `Transfer-Encoding` from the `k`-th on, which begins `offset` bytes in. -/
def codings : Parser → Nat → Nat → List Bytes → Except ParseError Parser
  | p, _, _, [] => .ok p
  | p, k, offset, raw :: rest =>
    if p.chunked ∧ p.type = .request ∧ !p.lenient.transferEncoding then
      .error ⟨.invalidTransferEncoding, "Invalid \x60Transfer-Encoding\x60 header value",
        if p.valueStart < 0 then 0
        else if k = 0 then p.valueStart.toNat + 1 else p.valueStart.toNat + offset⟩
    else
      codings { p with chunked := decide ((trim raw).map toLowerCase = ascii "chunked") } (k + 1)
        (offset + raw.length + 1) rest

/-- A complete `Content-Length`; `stop` is the index of the byte that ends its line. -/
def lengthValue (p : Parser) (stop : Nat) : Except ParseError Parser :=
  if p.contentLength.isSome then
    .error ⟨.unexpectedContentLength, "Duplicate Content-Length", p.valueStart.toNat⟩
  else if p.value.isEmpty then .error ⟨.invalidContentLength, "Empty Content-Length", stop + 2⟩
  else (lengthDigits p.value stop 0 p.value 0 none).map fun n => { p with contentLength := some n }

/-- A complete `Transfer-Encoding`. -/
def encodingValue (p : Parser) : Except ParseError Parser :=
  codings { p with teSeen := true } 0 0 (p.value.splitOn 44)

def framingValue (p : Parser) (stop : Nat) : Except ParseError Parser :=
  match p.fieldKind with
  | .plain => .ok p
  | .contentLength => lengthValue p stop
  | .transferEncoding => encodingValue p

/-! ### The end of a head and of a message -/

abbrev Round := Turn Cursor Call

/-- The turn goes on, `read` bytes later. -/
def go (p : Parser) (i read : Nat) (calls : List Call) : Round := .next ⟨p, i + read⟩ read calls

def fail (p : Parser) (err : ParseError) (calls : List Call) : Round :=
  .halt ⟨{ p with state := .error err }, err.bytesParsed⟩ calls

/-- The parser at the end of a message; `stop` is an upgrade, or a 101 without one. -/
def ended (p : Parser) (stop : Bool) : Parser :=
  { p with
    state := if stop && p.upgrade then .upgraded else if p.keepAlive then .start else .closed
    resumed := false }

/-- A message is over, `read` bytes behind `i`; `stop` ends this call there. -/
def endMessage (p : Parser) (i read : Nat) (stop : Bool) (calls : List Call) : Round :=
  let r := messageComplete (ended p stop)
  if stop then .halt ⟨r.1, i + read⟩ (calls ++ r.2) else go r.1 i read (calls ++ r.2)

def headDone (p : Parser) : Parser :=
  let p : Parser := { p with
    upgrade := (p.upgradeHeader && p.connUpgrade) || (decide (p.type = .request) && decide (p.method = some CONNECT))
    skipBody := false }
  { p with keepAlive := shouldKeepAlive p }

/-- The arguments of `kOnHeadersComplete`. -/
def headArgs (p : Parser) : HeadArgs :=
  let headers := if p.flushed then none else some p.fields
  let url := if p.flushed then none else some p.url
  if p.type = .request then
    ⟨p.major, p.minor, headers, some p.method, url, none, none, p.upgrade, p.keepAlive⟩
  else ⟨p.major, p.minor, headers, none, none, some p.status, some p.reason, p.upgrade, p.keepAlive⟩

/-- The fields go out with the call, or before it when some went out already. -/
def headCalls (p : Parser) : List Call :=
  (if p.flushed then [(flush p).2] else []) ++ [.headersComplete (headArgs p)]

/-- The parser behind the call; the url stays for a trailer flush, unless it was handed on. -/
def afterHead (p : Parser) (answer : Ret) : Parser :=
  let q := if p.flushed then (flush p).1 else { p with fields := [] }
  { q with
    trailers := true
    skipBody := decide (answer ≠ .other)
    upgrade := p.upgrade || decide (answer = .two) }

def headStop (p : Parser) (answer : Ret) : Bool :=
  p.upgrade || decide (answer = .two) || decide (p.status = 101)

/-- Behind the head: no body, a chunked or counted one, or one that the end of the stream ends. -/
def bodyFollows (p : Parser) (i read : Nat) (stop : Bool) (calls : List Call) : Round :=
  if p.type = .request ∧ p.teSeen ∧ !p.chunked ∧ !p.lenient.transferEncoding then
    fail p ⟨.invalidTransferEncoding, "Request has invalid \x60Transfer-Encoding\x60", i + read⟩ calls
  else if p.skipBody || (stop && !(p.chunked || p.contentLength.any (· > 0))) ||
      (decide (p.type = .response) && (p.status / 100 == 1 || p.status == 204 || p.status == 304)) then
    endMessage p i read stop calls
  else if p.chunked then
    go { p with state := .chunkSizeStart, upgradeAfterBody := stop } i read calls
  else if p.contentLength.any (· > 0) then
    go { p with remaining := p.contentLength.getD 0, state := .bodyLength, upgradeAfterBody := stop }
      i read calls
  else if p.contentLength = some 0 ∨ p.type = .request then endMessage p i read stop calls
  else go { p with state := .bodyEof, upgradeAfterBody := stop } i read calls

/-- The head is in, `read` bytes behind `i`. -/
def headersComplete (ret : HeadArgs → Ret) (p : Parser) (i read : Nat) : Round :=
  let q := headDone p
  let answer := ret (headArgs q)
  bodyFollows (afterHead q answer) i read (headStop q answer) (headCalls q)

/-! ### Turns that look at one byte -/

def lenientLF (p : Parser) : Bool := p.lenient.optionalCRBeforeLF

/-- `HTTP/`, the `k`-th byte. -/
def httpSlash (k : Nat) : Option UInt8 := (ascii "HTTP/")[k]?

def hexValue (c : UInt8) : Option Nat :=
  if 48 ≤ c.toNat ∧ c.toNat ≤ 57 then some (c.toNat - 48)
  else if 65 ≤ c.toNat ∧ c.toNat ≤ 70 then some (c.toNat - 55)
  else if 97 ≤ c.toNat ∧ c.toNat ≤ 102 then some (c.toNat - 87)
  else none

section Turns

variable (p : Parser) (i : Nat) (c : UInt8)

def startTurn : Round :=
  if isEol c then go p i 1 []
  else
    let q := resetMessage p
    go { q with state := if p.type = .request then .method else .resProto } i 0 [.messageBegin]

def closedTurn : Round :=
  if isEol c then go p i 1 []
  else if p.lenient.keepAlive || p.lenient.dataAfterClose then go { p with state := .start } i 0 []
  else fail p ⟨.closedConnection, "Data after \x60Connection: close\x60", i + 1⟩ []

def methodTurn : Round :=
  if c == 32 then
    match methodIndex p.tok with
    | none => fail p ⟨.invalidMethod, "Invalid method encountered", i⟩ []
    | some index => go { p with method := some index, state := .urlStart } i 1 []
  else if !isMethodPrefix (p.tok ++ [c]) && (methodIndex (p.tok ++ [c])).isNone then
    fail p ⟨.invalidMethod, "Invalid method encountered", i⟩ []
  else go { p with tok := p.tok ++ [c] } i 1 []

def urlStartTurn : Round :=
  if c == 32 then go p i 1 [] else go { p with state := .url, urlPart := 0 } i 0 []

/-- `HTTP/` of a request line (`req`) or of a status line. -/
def protoTurn (req : Bool) (p : Parser) (i : Nat) (c : UInt8) : Round :=
  if req && c == 32 && p.tok.isEmpty then go p i 1 []
  else if httpSlash p.tok.length ≠ some c then
    fail p ⟨.invalidConstant, if req then "Expected HTTP/" else "Expected HTTP/, RTSP/ or ICE/", i⟩ []
  else if p.tok.length = 4 then
    if req && !p.method.any (fun m => isLlhttpHttpMethod m || m == PRI) then
      fail p ⟨.invalidConstant, "Invalid method for HTTP/x.x request", i⟩ []
    else go { p with versionNext := if req then .reqLineEnd else .statusStart, state := .major } i 1 []
  else go { p with tok := p.tok ++ [c] } i 1 []

def majorTurn : Round :=
  if !isDigit c then fail p ⟨.invalidVersion, "Invalid major version", i⟩ []
  else go { p with major := c.toNat - 48, state := .dot } i 1 []

def dotTurn : Round :=
  if c != 46 then fail p ⟨.invalidVersion, "Expected dot", i⟩ []
  else go { p with state := .minor } i 1 []

def minorTurn : Round :=
  if !isDigit c then fail p ⟨.invalidVersion, "Invalid minor version", i⟩ []
  else
    let v := p.major * 10 + (c.toNat - 48)
    if !p.lenient.version && v != 9 && v != 10 && v != 11 && v != 20 then
      fail p ⟨.invalidVersion, "Invalid HTTP version", i + 1⟩ []
    else if p.method = some PRI ∧ p.type = .request then
      fail p ⟨.pausedH2Upgrade, "Pause on PRI/Upgrade", i + 1⟩ []
    else go { p with minor := c.toNat - 48, state := p.versionNext.state } i 1 []

def reqLineEndTurn : Round :=
  if c == 13 then go { p with state := .lineLf } i 1 []
  else if c == 10 && lenientLF p then go { p with state := .fieldStart } i 1 []
  else
    fail p ⟨.invalidVersion, "Expected CRLF after version", if c == 10 then i + 1 else i⟩ []

def lfTurn (err : ParseError) (p : Parser) (i : Nat) (c : UInt8) : Round :=
  if c != 10 then
    if p.lenient.optionalLFAfterCR then go { p with state := .fieldStart } i 0 [] else fail p err []
  else go { p with state := .fieldStart } i 1 []

def lineLfTurn : Round :=
  lfTurn ⟨.strict, "Expected LF after CR", i⟩ p i c

def valueLfTurn : Round :=
  lfTurn ⟨.lfExpected, "Missing expected LF after header value", i⟩ p i c

def statusStartTurn : Round :=
  if c != 32 then fail p ⟨.invalidVersion, "Expected space after version", i⟩ []
  else go { p with state := .status, status := 0, statusDigits := 0 } i 1 []

def statusTurn : Round :=
  if isDigit c then
    if p.statusDigits = 3 then fail p ⟨.invalidStatus, "Invalid response status", i⟩ []
    else
      go { p with status := p.status * 10 + (c.toNat - 48), statusDigits := p.statusDigits + 1 } i 1 []
  else if p.statusDigits ≠ 3 then fail p ⟨.invalidStatus, "Invalid status code", i⟩ []
  else go { p with state := .statusEnd } i 0 []

def statusEndTurn : Round :=
  if c == 32 then go { p with state := .reason } i 1 []
  else if c == 13 then go { p with state := .lineLf } i 1 []
  else if c == 10 && lenientLF p then go { p with state := .fieldStart } i 1 []
  else fail p ⟨.invalidStatus, "Invalid response status", i⟩ []

/-- A folded line goes on with the value before it. -/
def unfoldValue (p : Parser) (name value : Bytes) : Parser :=
  { p with state := .valueOws, field := name, value := value ++ [32], fields := p.fields.dropLast }

def fieldStartTurn : Round :=
  if c == 13 then go { p with state := .headEndLf } i 1 []
  else if c == 10 && lenientLF p then go { p with state := .headEndLf } i 0 []
  else if isBlank c then
    match p.lenient.headers, p.fields.getLast? with
    | true, some (name, value) => go (unfoldValue p name value) i 1 []
    | _, _ =>
      fail p ⟨.invalidHeaderToken, "Unexpected whitespace after header value", i⟩ []
  else if !isToken c then fail p ⟨.invalidHeaderToken, "Invalid header token", i⟩ []
  else if p.fields.length = MAX_FIELDS - 1 then
    go { (flush p).1 with field := [], value := [], state := .field } i 0 [(flush p).2]
  else go { p with field := [], value := [], state := .field } i 0 []

def valueOwsTurn : Round :=
  if isBlank c then go p i 1 []
  else if p.fieldKind = .contentLength ∧ p.contentLength.isSome ∧ !isEol c then
    fail p ⟨.unexpectedContentLength, "Duplicate Content-Length", i⟩ []
  else go { p with state := .value, valueStart := i } i 0 []

/-- What the empty line ends: the trailers of a chunked body, or the head. -/
def headEnd (ret : HeadArgs → Ret) (p : Parser) (i read : Nat) : Round :=
  if p.trailers then endMessage p i read p.upgradeAfterBody [] else headersComplete ret p i read

def headEndLfTurn (ret : HeadArgs → Ret) (p : Parser) (i : Nat) (c : UInt8) : Round :=
  if c != 10 then
    if !p.lenient.optionalLFAfterCR then fail p ⟨.strict, "Expected LF after headers", i⟩ []
    else headEnd ret p i 0
  else headEnd ret p i 1

def chunkSizeStartTurn (p : Parser) (i : Nat) : Round :=
  go { p with remaining := 0, hexDigits := 0, hexSignificant := 0, state := .chunkSize } i 0 []

def chunkSizeTurn : Round :=
  match hexValue c with
  | some h =>
    let significant := if p.remaining > 0 ∨ h > 0 then p.hexSignificant + 1 else p.hexSignificant
    if significant > 16 then fail p ⟨.invalidChunkSize, "Chunk size overflow", i + 1⟩ []
    else
      go { p with
        hexSignificant := significant
        remaining := toNumber (toNumber (p.remaining * 16) + h)
        hexDigits := p.hexDigits + 1 } i 1 []
  | none =>
    if p.hexDigits = 0 then
      fail p ⟨.invalidChunkSize, "Invalid character in chunk size", i⟩ []
    else if c == 59 then go { p with state := .chunkExt } i 1 []
    else if c == 13 then go { p with state := .chunkSizeLf } i 1 []
    else if c == 10 then
      if lenientLF p then go { p with state := .chunkSizeLf } i 0 []
      else fail p ⟨.crExpected, "Missing expected CR after chunk size", i + 1⟩ []
    else if isBlank c && p.lenient.spacesAfterChunkSize then go p i 1 []
    else fail p ⟨.invalidChunkSize, "Invalid character in chunk size", i + 1⟩ []

def chunkSizeLfTurn : Round :=
  let q := { p with state := if p.remaining = 0 then .fieldStart else .chunkData }
  if c != 10 then
    if !p.lenient.optionalLFAfterCR then fail p ⟨.strict, "Expected LF after chunk size", i⟩ []
    else go q i 0 []
  else go q i 1 []

def chunkDataCrTurn : Round :=
  if c == 13 then go { p with state := .chunkDataLf } i 1 []
  else if c == 10 && lenientLF p then go { p with state := .chunkSizeStart } i 1 []
  else if p.lenient.optionalCRLFAfterChunk then go { p with state := .chunkSizeStart } i 0 []
  else fail p ⟨.strict, "Expected LF after chunk data", i⟩ []

def chunkDataLfTurn : Round :=
  if c != 10 then
    if !p.lenient.optionalLFAfterCR then fail p ⟨.strict, "Expected LF after chunk data", i⟩ []
    else go { p with state := .chunkSizeStart } i 0 []
  else go { p with state := .chunkSizeStart } i 1 []

end Turns

/-! ### Turns that run on -/

/-- The byte behind what a turn ran over: `j` is its index, and `read` the bytes read with it. -/
abbrev Stop := Parser → Nat → Nat → UInt8 → Round

/-- Run over the bytes that belong to a text and put them away. If it is COUNTED and ends in the buffer, the count is
    checked. -/
def scan (isIn : UInt8 → Bool) (store : Parser → Bytes → Parser) (counted : Bool) (stop : Stop)
    (p : Parser) (i : Nat) (rest : Bytes) : Round :=
  let run := rest.takeWhile isIn
  let q := store p run
  match rest.dropWhile isIn with
  | [] => go q i run.length []
  | b :: _ =>
    if counted && !run.isEmpty && overflows q then
      fail q ⟨.headerOverflow, "Header overflow", i + run.length + 1⟩ []
    else stop q i run.length b

def isUrlByte (b : UInt8) : Bool := decide (33 ≤ b.toNat) && decide (b.toNat ≤ 126)

/-- The part of the url behind the byte `b`: path, query or fragment. -/
def urlPartAfter (part : Nat) (b : UInt8) : Nat :=
  if b = 63 ∧ part = 0 then 1 else if b = 35 ∧ part < 2 then 2 else part

def storeUrl (p : Parser) (run : Bytes) : Parser :=
  { p with url := p.url ++ run, urlPart := run.foldl urlPartAfter p.urlPart, nread := p.nread + run.length }

def urlPartName (part : Nat) : String :=
  if part = 0 then "path" else if part = 1 then "query" else "fragment start"

def stopUrl (p : Parser) (i j : Nat) (b : UInt8) : Round :=
  if b == 32 then go { p with state := .reqProto, tok := [] } i (j + 1) []
  else if b == 9 then fail p ⟨.invalidUrl, "Invalid characters in url", i + j + 1⟩ []
  else fail p ⟨.invalidUrl, "Invalid char in url " ++ urlPartName p.urlPart, i + j⟩ []

def storeReason (p : Parser) (run : Bytes) : Parser :=
  { p with reason := p.reason ++ run, nread := p.nread + run.length }

def stopReason (p : Parser) (i j : Nat) (b : UInt8) : Round :=
  if b == 10 && !lenientLF p then
    fail p ⟨.crExpected, "Missing expected CR after response line", i + j + 1⟩ []
  else go { p with state := if b == 13 then .lineLf else .fieldStart } i (j + 1) []

def storeField (p : Parser) (run : Bytes) : Parser :=
  { p with field := p.field ++ run, nread := p.nread + run.length }

def stopField (p : Parser) (i j : Nat) (b : UInt8) : Round :=
  if b != 58 then fail p ⟨.invalidHeaderToken, "Invalid header token", i + j⟩ []
  else
    match valueStart p (i + j + 1) with
    | .error err => fail p err []
    | .ok q => go { q with state := .valueOws, valueStart := -1 } i (j + 1) []

def isValueByte (lenientHeaders : Bool) (b : UInt8) : Bool :=
  !isEol b && (lenientHeaders || !((decide (b.toNat < 32) && b != 9) || b == 127))

def storeValue (p : Parser) (run : Bytes) : Parser := { p with value := p.value ++ run }

def stopValue (p : Parser) (i j : Nat) (b : UInt8) : Round :=
  if !isEol b then fail p ⟨.invalidHeaderToken, "Invalid header value char", i + j⟩ []
  else if b == 10 && !lenientLF p then
    fail p ⟨.crExpected, "Missing expected CR after header value", i + j⟩ []
  else
    let v := p.value.rdropWhile isBlank
    let q := { p with value := v, nread := p.nread + v.length }
    if overflows q then fail q ⟨.headerOverflow, "Header overflow", i + j + 1⟩ []
    else
      match framingValue q (i + j) with
      | .error err => fail q err []
      | .ok r => go { fieldDone r with state := if b == 10 then .fieldStart else .valueLf } i (j + 1) []

def storeExt (p : Parser) (_run : Bytes) : Parser := p

def stopExt (p : Parser) (i j : Nat) (b : UInt8) : Round :=
  if b == 10 && !lenientLF p then
    fail p ⟨.crExpected, "Missing expected CR after chunk extension name", i + j + 1⟩ []
  else go { p with state := .chunkSizeLf } i (if b == 13 then j + 1 else j) []

/-- The parser that has read `n` bytes more of a body. -/
def took (p : Parser) (n : Nat) : Parser := { p with remaining := toNumber (p.remaining - n) }

/-- `n` bytes of a body of known length; `last` is what its end leads to. -/
def takeBody (last : Parser → Nat → Nat → List Call → Round) (p : Parser) (i n : Nat) (rest : Bytes) : Round :=
  if (took p n).remaining = 0 then last (took p n) i n [.body (rest.take n)]
  else go (took p n) i n [.body (rest.take n)]

def bodyTurn (last : Parser → Nat → Nat → List Call → Round) (p : Parser) (i : Nat) (rest : Bytes) : Round :=
  takeBody last p i (min p.remaining rest.length) rest

def lastBody (p : Parser) (i read : Nat) (calls : List Call) : Round :=
  endMessage p i read p.upgradeAfterBody calls

def lastChunk (p : Parser) (i read : Nat) (calls : List Call) : Round :=
  go { p with state := .chunkDataCr } i read calls

/-! ### The loop -/

/-- The states whose turn looks at one byte; the others never come here. -/
def byteTurn (ret : HeadArgs → Ret) (p : Parser) (i : Nat) (c : UInt8) : State → Round
  | .start => startTurn p i c
  | .closed => closedTurn p i c
  | .method => methodTurn p i c
  | .urlStart => urlStartTurn p i c
  | .reqProto => protoTurn true p i c
  | .resProto => protoTurn false p i c
  | .major => majorTurn p i c
  | .dot => dotTurn p i c
  | .minor => minorTurn p i c
  | .reqLineEnd => reqLineEndTurn p i c
  | .lineLf => lineLfTurn p i c
  | .statusStart => statusStartTurn p i c
  | .status => statusTurn p i c
  | .statusEnd => statusEndTurn p i c
  | .fieldStart => fieldStartTurn p i c
  | .valueOws => valueOwsTurn p i c
  | .valueLf => valueLfTurn p i c
  | .headEndLf => headEndLfTurn ret p i c
  | .chunkSizeStart => chunkSizeStartTurn p i
  | .chunkSize => chunkSizeTurn p i c
  | .chunkSizeLf => chunkSizeLfTurn p i c
  | .chunkDataCr => chunkDataCrTurn p i c
  | .chunkDataLf => chunkDataLfTurn p i c
  | _ => .halt ⟨p, i⟩ []

/-- One round of the source's loop, at the byte `c` with `tail` behind it. -/
def turn (ret : HeadArgs → Ret) (s : Cursor) (c : UInt8) (tail : Bytes) : Round :=
  let p := s.p
  match p.state with
  | .url => scan isUrlByte storeUrl true stopUrl p s.i (c :: tail)
  | .reason => scan (fun b => !isEol b) storeReason true stopReason p s.i (c :: tail)
  | .field => scan isToken storeField true stopField p s.i (c :: tail)
  | .value => scan (isValueByte p.lenient.headers) storeValue false stopValue p s.i (c :: tail)
  | .chunkExt => scan (fun b => !isEol b) storeExt false stopExt p s.i (c :: tail)
  | .bodyLength => bodyTurn lastBody p s.i (c :: tail)
  | .chunkData => bodyTurn lastChunk p s.i (c :: tail)
  | .bodyEof => go p s.i (tail.length + 1) [.body (c :: tail)]
  | state => byteTurn ret p s.i c state

/-- What `execute` returns: the bytes parsed, or the error. -/
def answer (s : Cursor) : Except ParseError Nat :=
  match s.p.state with
  | .error err => .error err
  | _ => .ok s.i

/-- More turns than a buffer can take: at most five for a byte. -/
def turns (buf : Bytes) : Nat := 6 * buf.length

/-- The parse loop over one buffer.  `none` is a loop that has not ended after that many turns. -/
def run (ret : HeadArgs → Ret) (p : Parser) (buf : Bytes) : Option (Cursor × List Call) :=
  match p.state with
  | .error err => some (⟨{ p with state := .error { err with bytesParsed := 0 } }, 0⟩, [])
  | .upgraded =>
    -- resumed once: the next message begins, or one byte of a closed connection is taken
    if p.resumed then some (⟨p, 0⟩, [])
    else if p.keepAlive then some (⟨{ p with resumed := true }, 0⟩, [.messageBegin])
    else some (⟨{ p with resumed := true }, min 1 buf.length⟩, [])
  | _ => loop (turn ret) (turns buf) ⟨p, 0⟩ buf

/-- `execute`: the parser it leaves, and the calls it made. -/
def execute (ret : HeadArgs → Ret) (p : Parser) (buf : Bytes) : Option (Parser × List Call) :=
  (run ret p buf).map fun r => (r.1.p, r.2)

end Oam.Http.HttpParser
