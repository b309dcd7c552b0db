/-
  The limits around a request head (`http_head.rs`, `http_server.rs`).

  hyper reads a head into a buffer with a CEILING and parses it into a number of field slots; both come from the byte
  limit that the check applies afterwards.  FOUR times the limit does not always leave room for the bytes the check does
  not count; and a head that goes to a takeover is parsed a second time, with 100 slots and not those of the first.
-/
import Oam.Http.RequestHead
import Oam.Lib.Utf
import Mathlib.Algebra.GroupWithZero.Nat

namespace Oam.Http

open List Bytes

/-! ## Program -/

/-- The slack of one batch of fields. -/
def headerBatch : Nat := 32

/-- `saturating_mul(4)`, and at least 64 KiB. -/
def HeadPolicy.readBufferLimit (policy : HeadPolicy) : Nat := max (min (policy.maxHeaderSize * 4) (2 ^ 64 - 1)) (64 * 1024)

/-- The field slots hyper may use: at four bytes a field, those that fill the buffer. -/
def HeadPolicy.maxParsedHeaders (policy : HeadPolicy) : Nat := policy.readBufferLimit / 4 + headerBatch

/-- `httparse::Request` once it is parsed. -/
structure ParsedRequest where
  method : Option Bytes
  path : Option Bytes
  version : Option Nat
  headers : List (Bytes × Bytes)

/-- What httparse answers. -/
inductive Parsed where
  | complete (len : Nat) (req : ParsedRequest)
  | incomplete
  | tooManyHeaders
  | malformed

/-- `Request::parse`, by the slots for its fields. -/
abbrev Httparse := (slots : Nat) → (head : Bytes) → Parsed

/-- What a takeover is handed; a value is a `String`. -/
structure ParsedHead where
  method : Bytes
  target : Bytes
  http10 : Bool
  headers : List (Bytes × Text.Str)

/-- What `parse_request_head` makes of a parsed request: `from_utf8_lossy` of each value. -/
def ParsedRequest.lossyHead (req : ParsedRequest) : ParsedHead where
  method := req.method.getD []
  target := req.path.getD []
  http10 := req.version = some 0
  headers := req.headers.map fun h => (h.1, Text.lossy h.2)

/-- hyper's default. -/
def maxHeaders : Nat := 100

/-- `parse_request_head`. -/
def parseRequestHead (httparse : Httparse) (head : Bytes) (policy : HeadPolicy) : Except HeadError ParsedHead :=
  match httparse maxHeaders head with
  | .complete len req =>
    if len = head.length then (checkRequestHead head policy).map fun _ => req.lossyHead
    else .error (.badRequest "bytes after the head")
  | .incomplete => .error (.badRequest "incomplete head")
  | .tooManyHeaders => .error .headerOverflow
  | .malformed => .error (.badRequest "malformed head")

/-- An `Upgrade` header, and `upgrade` among the tokens of a `Connection` header. -/
def isUpgrade (headers : List (Bytes × Bytes)) : Bool :=
  headers.any (fun h => eqIgnoreAsciiCase h.1 (ascii "upgrade")) &&
    headers.any fun h => eqIgnoreAsciiCase h.1 (ascii "connection") &&
      (h.2.splitOn 44).any fun token => eqIgnoreAsciiCase (trimOws token) (ascii "upgrade")

/-- Whether a server routes its upgrades; a route has a listener or not, and takes a socket or not. -/
inductive Upgrades where
  | serve
  | closeConnect
  | route (listener takes : Bool)

/-- What becomes of a request. -/
inductive Dispatched where
  | refused (error : HeadError)
  | aborted
  | takenOver (head : ParsedHead)
  | served

/-- `dispatch_request`, for a request that hyper parsed as `req`, and whether it declares no body. -/
def dispatchRequest (httparse : Httparse) (upgrades : Upgrades) (raw : Bytes) (policy : HeadPolicy) (req : ParsedRequest)
    (isEndStream : Bool) : Dispatched :=
  match checkRequestHead raw policy with
  | .error error => .refused error
  | .ok () =>
    let connect : Bool := req.method = some (ascii "CONNECT")
    match upgrades with
    | .serve => .served
    | .closeConnect => if connect then .aborted else .served
    | .route listener takes =>
      let upgrade := !connect && listener && isEndStream && isUpgrade req.headers
      match parseRequestHead httparse raw policy with
      | .ok head => if (connect || upgrade) && takes then .takenOver head else .served
      | .error _ => .served

/-! ## The ceiling of the read buffer -/

/-- A head as clients write it: nothing before the request line, at most one space behind a colon, CRLF everywhere. -/
structure Plain (h : RequestHead) : Prop where
  leading : h.leading = []
  version : h.version.length = 8
  lines : h.requestEol = .crlf ∧ (∀ f ∈ h.fields, f.eol = .crlf) ∧ h.endEol = .crlf
  raw : ∀ f ∈ h.fields, f.raw = f.value ∨ f.raw = space :: f.value

/-- The bytes of a head that node does not count. -/
def RequestHead.uncounted (h : RequestHead) : Nat :=
  h.method.length + 14 + (h.fields.map fun f => 3 + (f.raw.length - f.value.length)).sum

/-- The count as a sum over the fields. -/
theorem counted_eq (target : Bytes) (fields : List Field) :
    counted target fields = target.length + (fields.map Field.size).sum := by
  induction fields with
  | nil => rfl
  | cons f fields ih =>
    rw [counted, ih, map_cons, sum_cons]
    omega

/-- **Every byte is counted or not.** -/
theorem length_bytes {h : RequestHead} (hplain : Plain h) : h.bytes.length = counted h.target h.fields + h.uncounted := by
  have hfields : ∀ fields : List Field, (∀ f ∈ fields, f.eol = .crlf) →
      (∀ f ∈ fields, f.raw = f.value ∨ f.raw = space :: f.value) →
      (fields.map Field.line).flatten.length =
        (fields.map Field.size).sum + (fields.map fun f => 3 + (f.raw.length - f.value.length)).sum := by
    intro fields
    induction fields with
    | nil => exact fun _ _ => rfl
    | cons f fields ih =>
      intro hline hraw
      have hrest := ih (fun g hg => hline g (mem_cons_of_mem _ hg)) fun g hg => hraw g (mem_cons_of_mem _ hg)
      have hlen : f.value.length ≤ f.raw.length := by
        rcases hraw f mem_cons_self with heq | heq <;> rw [heq]
        exact Nat.le_succ _
      simp only [map_cons, flatten_cons, length_append, sum_cons, hrest, Field.line, Field.size,
        hline f mem_cons_self, Eol.bytes, length_cons, length_nil]
      omega
  obtain ⟨hrequest, hlines, hend⟩ := hplain.lines
  rw [counted_eq, RequestHead.bytes, hplain.leading, RequestHead.requestLine, hrequest, hend, RequestHead.uncounted]
  simp only [map_nil, flatten_nil, nil_append, length_append, length_cons, length_nil,
    hfields h.fields hlines hplain.raw, hplain.version, Eol.bytes]
  omega

/-- The framing rules leave the count alone. -/
theorem checkFraming_count {strict : Bool} {s s' : Framing} {name value : Bytes}
    (h : checkFraming strict s name value = .ok s') : s'.count = s.count := by
  unfold checkFraming at h
  split at h
  · split at h
    · cases h
    split at h
    · cases h
    split at h <;> cases h
    rfl
  split at h
  · split at h
    · cases h
      rfl
    split at h
    · cases h
    cases hcodings : checkCodings strict s.chunked ((value.splitOn 44).map trimOws) with
    | error =>
      rw [hcodings] at h
      cases h
    | ok =>
      rw [hcodings] at h
      cases h
      rfl
  · cases h
    rfl

theorem checkFields_size {policy : HeadPolicy} {e : Eol} {fields : List Field} {s s' : Framing}
    (hs : s.count < policy.maxHeaderSize) (h : checkFields policy s (fields.map Field.line ++ [e.bytes]) = .ok s') :
    s.count + (fields.map Field.size).sum < policy.maxHeaderSize := by
  induction fields generalizing s with
  | nil => exact hs
  | cons f fields ih =>
    rw [map_cons, cons_append, checkFields, if_neg (by simp [isEmptyLine_field]), Field.checkField_eq] at h
    split at h
    · cases h
    split at h
    · cases h
    next hsize _ =>
    cases hframing : checkFraming (!policy.lenient) { s with count := s.count + f.size } f.name f.value with
    | error =>
      rw [hframing] at h
      cases h
    | ok t =>
      rw [hframing] at h
      have hcount : t.count = s.count + f.size := checkFraming_count hframing
      have hrest := ih (by omega) h
      rw [map_cons, sum_cons]
      omega

/-- **What is accepted is counted below the limit**, under every policy. -/
theorem counted_lt_of_ok {policy : HeadPolicy} {h : RequestHead} (hok : checkRequestHead h.bytes policy = .ok ()) :
    counted h.target h.fields < policy.maxHeaderSize := by
  rw [checkRequestHead, splitInclusive_bytes] at hok
  change (checkRequestLine policy h.requestLine).bind (fun s =>
    (checkFields policy s (h.fields.map Field.line ++ [h.endEol.bytes])).bind checkEnd) = .ok () at hok
  cases hline : checkRequestLine policy h.requestLine with
  | error =>
    rw [hline] at hok
    cases hok
  | ok s =>
    rw [hline] at hok
    cases hfields : checkFields policy s (h.fields.map Field.line ++ [h.endEol.bytes]) with
    | error =>
      change (checkFields policy s _).bind checkEnd = .ok () at hok
      rw [hfields] at hok
      cases hok
    | ok =>
      have hcount : s.count = h.target.length ∧ s.count < policy.maxHeaderSize := by
        simp only [checkRequestLine, splitRequestLine_requestLine, addCount_eq policy.fits, Nat.zero_add] at hline
        by_cases hover : policy.maxHeaderSize ≤ h.target.length
        · rw [if_pos hover] at hline
          cases hline
        rw [if_neg hover] at hline
        change (if _ then _ else if _ then _ else _) = _ at hline
        split at hline
        · cases hline
        split at hline <;> cases hline
        exact ⟨rfl, Nat.lt_of_not_le hover⟩
      have hsize := checkFields_size hcount.2 hfields
      rw [counted_eq]
      omega

/-- **A head that the check accepts fits the buffer** if its uncounted bytes leave the limit itself of it. -/
theorem fits_of_room {policy : HeadPolicy} {h : RequestHead} (hplain : Plain h)
    (hok : checkRequestHead h.bytes policy = .ok ())
    (hroom : h.uncounted + policy.maxHeaderSize ≤ policy.readBufferLimit) :
    h.bytes.length < policy.readBufferLimit ∧ h.fields.length ≤ policy.maxParsedHeaders := by
  have hlen := length_bytes hplain
  have hcount := counted_lt_of_ok hok
  -- a field has a name, a colon and a line end
  have hfields : h.fields.length * 4 ≤ h.bytes.length := by
    have hsize : ∀ fields : List Field, fields.length * 4 ≤
        (fields.map Field.size).sum + (fields.map fun f => 3 + (f.raw.length - f.value.length)).sum := by
      intro fields
      induction fields with
      | nil => exact Nat.le_refl 0
      | cons f =>
        have hname := length_pos_iff.mpr f.name_ne
        simp only [length_cons, map_cons, sum_cons, Field.size]
        omega
    have := hsize h.fields
    rw [hlen, counted_eq, RequestHead.uncounted]
    omega
  unfold HeadPolicy.maxParsedHeaders
  omega

/-! ### Heads that do not fit -/

/-- The line `a:`. -/
def tinyField : Field where
  name := [97]
  raw := []
  eol := .crlf
  name_ne := List.cons_ne_nil _ _
  name_inLine := rfl
  name_noColon := rfl
  raw_inLine := rfl

/-- A method that can stand in a request line. -/
structure Method where
  bytes : Bytes
  ne : bytes ≠ []
  inLine : inLine bytes = true
  noSpace : bytes.contains space = false

/-- The method, a target of `more + 1` bytes, and `n` fields of one counted byte each. -/
def tinyHead (method : Method) (more n : Nat) : RequestHead where
  leading := []
  method := method.bytes
  target := 47 :: List.replicate more 97
  version := ascii "HTTP/1.1"
  requestEol := .crlf
  fields := List.replicate n tinyField
  endEol := .crlf
  method_ne := method.ne
  method_inLine := method.inLine
  method_noSpace := method.noSpace
  target_inLine := inLine_cons (by decide) (all_eq_true.mpr fun b hb => eq_of_mem_replicate hb ▸ rfl)
  version_inLine := by decide
  version_noSpace := by decide

variable (method : Method) (more n : Nat)

theorem plain_tinyHead : Plain (tinyHead method more n) := by
  have hfield : ∀ f ∈ (tinyHead method more n).fields, f = tinyField := fun f hf => eq_of_mem_replicate hf
  refine ⟨rfl, rfl, ⟨rfl, fun f hf => ?_, rfl⟩, fun f hf => ?_⟩
  · rw [hfield f hf]
    rfl
  · rw [hfield f hf]
    exact .inl rfl

theorem uncounted_tinyHead : (tinyHead method more n).uncounted = method.bytes.length + 14 + 3 * n := by
  show method.bytes.length + 14 + ((replicate n tinyField).map fun f => 3 + (f.raw.length - f.value.length)).sum = _
  rw [map_replicate, sum_replicate_nat]
  show method.bytes.length + 14 + n * 3 = _
  omega

theorem length_tinyHead : (tinyHead method more n).bytes.length = more + 1 + n + (method.bytes.length + 14 + 3 * n) := by
  rw [length_bytes (plain_tinyHead method more n), uncounted_tinyHead, counted_eq]
  show (47 :: replicate more 97).length + ((replicate n tinyField).map Field.size).sum + _ = _
  rw [map_replicate, sum_replicate_nat, length_cons, length_replicate]
  show more + 1 + n * 1 + _ = _
  omega

/-- The pass over the fields counts one byte for each. -/
theorem checkFields_tiny {policy : HeadPolicy} (s : Framing) (hs : s.count + n < policy.maxHeaderSize) :
    checkFields policy s ((replicate n tinyField).map Field.line ++ [Eol.crlf.bytes]) =
      .ok { s with count := s.count + n } := by
  induction n generalizing s with
  | zero =>
    show (if isEmptyLine Eol.crlf.bytes then _ else _) = _
    rw [if_pos (isEmptyLine_end _), show bareLf Eol.crlf.bytes = false from rfl, Bool.and_false]
    rfl
  | succ n ih =>
    rw [replicate_succ, map_cons, cons_append, checkFields, if_neg (by simp [isEmptyLine_field]), Field.checkField_eq,
      show tinyField.size = 1 from rfl, if_neg (by omega), show decide (tinyField.eol = .lf) = false from rfl,
      Bool.and_false, if_neg Bool.false_ne_true]
    show checkFields policy { s with count := s.count + 1 } _ = _
    rw [ih _ (by simp only; omega), Nat.add_assoc, Nat.add_comm 1]

theorem checkRequestHead_tinyHead {policy : HeadPolicy} (hsize : more + 1 + n < policy.maxHeaderSize) :
    checkRequestHead (tinyHead method more n).bytes policy = .ok () := by
  have htarget : isRequestTarget (47 :: replicate more 97) = true :=
    (isRequestTarget_iff _).mpr (.inl ⟨_, rfl⟩)
  have hline : checkRequestLine policy (tinyHead method more n).requestLine =
      .ok ⟨more + 1, 0, false, false⟩ := by
    have hbare : bareLf (tinyHead method more n).requestLine = false := bareLf_line (tinyHead method more n).text_inLine .crlf
    have hlen : (tinyHead method more n).target.length = more + 1 := by
      show (47 :: replicate more 97).length = _
      rw [length_cons, length_replicate]
    simp only [checkRequestLine, splitRequestLine_requestLine, addCount_eq policy.fits, Nat.zero_add, hlen, hbare,
      Bool.and_false]
    rw [if_neg (by omega)]
    show (if (_ && !isRequestTarget (47 :: replicate more 97)) = true then _ else _) = _
    rw [htarget, Bool.not_true, Bool.and_false]
    rfl
  rw [checkRequestHead, splitInclusive_bytes]
  show (checkRequestLine policy (tinyHead method more n).requestLine).bind (fun s =>
    (checkFields policy s ((replicate n tinyField).map Field.line ++ [Eol.crlf.bytes])).bind checkEnd) = .ok ()
  rw [hline]
  show (checkFields policy ⟨more + 1, 0, false, false⟩ _).bind checkEnd = _
  rw [checkFields_tiny n _ hsize]
  rfl

/-- **When a head that the check accepts fits the buffer.** If the bytes not counted leave the limit itself of the
    ceiling; where they leave less, some such head does not fit. -/
theorem head_fits_where_room (policy : HeadPolicy) :
    (∀ h : RequestHead, Plain h → checkRequestHead h.bytes policy = .ok () →
      h.uncounted + policy.maxHeaderSize ≤ policy.readBufferLimit →
      h.bytes.length < policy.readBufferLimit ∧ h.fields.length ≤ policy.maxParsedHeaders) ∧
    ∀ (method : Method) (n : Nat), n + 2 ≤ policy.maxHeaderSize →
      policy.readBufferLimit < method.bytes.length + 14 + 3 * n + policy.maxHeaderSize →
      ∃ h : RequestHead, Plain h ∧ h.method = method.bytes ∧ h.fields.length = n ∧
        h.uncounted = method.bytes.length + 14 + 3 * n ∧ checkRequestHead h.bytes policy = .ok () ∧
        policy.readBufferLimit ≤ h.bytes.length := by
  refine ⟨fun h hplain hok hroom => fits_of_room hplain hok hroom, fun method n hn hover => ?_⟩
  -- the target takes what the fields leave of the limit
  refine ⟨tinyHead method (policy.maxHeaderSize - 2 - n) n, plain_tinyHead _ _ _, rfl, length_replicate,
    uncounted_tinyHead _ _ _, checkRequestHead_tinyHead _ _ _ (by omega), ?_⟩
  rw [length_tinyHead]
  omega

/-- The method of most requests. -/
def get : Method := ⟨ascii "GET", by decide, by decide, by decide⟩

/-- A head with one field fits. -/
theorem head_fits_where_room_oneField : (tinyHead get 0 1).bytes.length < (strictPolicy 16384).readBufferLimit ∧
    (tinyHead get 0 1).fields.length ≤ (strictPolicy 16384).maxParsedHeaders :=
  (head_fits_where_room (strictPolicy 16384)).1 (tinyHead get 0 1) (plain_tinyHead get 0 1)
    (checkRequestHead_tinyHead get 0 1 (by decide)) (by rw [uncounted_tinyHead]; decide +kernel)

/-- Sixteen thousand fields of one byte are counted below the limit: the head is accepted and does not fit. -/
theorem tinyHead_overruns : Plain (tinyHead get 0 16382) ∧
    checkRequestHead (tinyHead get 0 16382).bytes (strictPolicy 16384) = .ok () ∧
    (strictPolicy 16384).readBufferLimit ≤ (tinyHead get 0 16382).bytes.length := by
  refine ⟨plain_tinyHead _ _ _, checkRequestHead_tinyHead _ _ _ (by decide), ?_⟩
  rw [length_tinyHead]
  decide +kernel

/-! ## The second parse -/

/-- A takeover is handed what hyper read: the method, the target, and the fields byte for byte. -/
structure ParsedHead.Reads (head : ParsedHead) (req : ParsedRequest) : Prop where
  method : head.method = req.method.getD []
  target : head.target = req.path.getD []
  http10 : head.http10 = decide (req.version = some 0)
  headers : head.headers.map (fun h => (h.1, Text.encode h.2)) = req.headers

/-- The bytes of a text. -/
def IsUtf8 (bytes : Bytes) : Prop := ∃ text, bytes = Text.encode text

/-- **A value comes through iff it is UTF-8.** -/
theorem reads_lossyHead_iff (req : ParsedRequest) : req.lossyHead.Reads req ↔ ∀ h ∈ req.headers, IsUtf8 h.2 := by
  have hmap : req.lossyHead.headers.map (fun h => (h.1, Text.encode h.2)) =
      req.headers.map fun h => (h.1, Text.encode (Text.lossy h.2)) := map_map
  constructor
  · intro hreads h hmem
    have hheaders := (hmap.symm.trans hreads.headers).trans (map_id _).symm
    exact ⟨_, (Prod.mk.inj (map_inj_left.mp hheaders h hmem)).2.symm⟩
  · intro hutf8
    refine ⟨rfl, rfl, rfl, hmap.trans ((map_inj_left.mpr fun h hmem => ?_).trans (map_id _))⟩
    obtain ⟨text, htext⟩ := hutf8 h hmem
    rw [htext, Text.lossy_encode, ← htext]
    rfl

/-- **What httparse does with its slots**: enough are as good as more, and with fewer there are too many headers. -/
def Slots (httparse : Httparse) : Prop :=
  ∀ slots slots' head len req, httparse slots head = .complete len req →
    httparse slots' head = if req.headers.length ≤ slots' then .complete len req else .tooManyHeaders

/-- **When a head is read the same way twice.** Exactly if it has at most 100 fields, with values that are UTF-8. -/
theorem parsed_twice_iff {httparse : Httparse} {policy : HeadPolicy} {head : Bytes} {req : ParsedRequest}
    (hslots : Slots httparse) (hparsed : httparse policy.maxParsedHeaders head = .complete head.length req)
    (hok : checkRequestHead head policy = .ok ()) :
    (∃ parsed, parseRequestHead httparse head policy = .ok parsed ∧ parsed.Reads req ∧
      ∀ listener isEndStream, req.method = some (ascii "CONNECT") ∨
          (listener = true ∧ isEndStream = true ∧ isUpgrade req.headers = true) →
        dispatchRequest httparse (.route listener true) head policy req isEndStream = .takenOver parsed) ↔
    req.headers.length ≤ maxHeaders ∧ ∀ h ∈ req.headers, IsUtf8 h.2 := by
  have hagain := hslots _ maxHeaders _ _ _ hparsed
  by_cases hfew : req.headers.length ≤ maxHeaders
  · rw [if_pos hfew] at hagain
    have hparse : parseRequestHead httparse head policy = .ok req.lossyHead := by
      simp only [parseRequestHead, hagain, hok, if_true]
      rfl
    rw [and_iff_right hfew, ← reads_lossyHead_iff]
    constructor
    · rintro ⟨parsed, hparsed, hreads, -⟩
      obtain rfl := Except.ok.inj (hparse.symm.trans hparsed)
      exact hreads
    · refine fun hreads => ⟨_, hparse, hreads, fun listener isEndStream hasks => ?_⟩
      have hroute : (decide (req.method = some (ascii "CONNECT")) || (!decide (req.method = some (ascii "CONNECT")) &&
          listener && isEndStream && isUpgrade req.headers)) = true := by
        rcases hasks with hconnect | ⟨rfl, rfl, hupgrade⟩
        · rw [decide_eq_true hconnect]
          rfl
        · rw [hupgrade]
          cases decide (req.method = some (ascii "CONNECT")) <;> rfl
      simp only [dispatchRequest, hok, hparse, hroute, Bool.and_true, if_true]
  · rw [if_neg hfew] at hagain
    refine iff_of_false ?_ fun h => hfew h.1
    rintro ⟨parsed, hparse, -⟩
    simp only [parseRequestHead, hagain] at hparse
    cases hparse

/-- An httparse that reads this request off every head. -/
def readsAs (req : ParsedRequest) : Httparse := fun slots head =>
  if req.headers.length ≤ slots then .complete head.length req else .tooManyHeaders

theorem slots_readsAs (req : ParsedRequest) : Slots (readsAs req) := by
  intro slots slots' head len req' h
  unfold readsAs at h ⊢
  split at h
  · cases h
    rfl
  · cases h

/-- `CONNECT a.test:1` with `n` fields. -/
def connectHead (n : Nat) : Bytes :=
  ascii "CONNECT a.test:1 HTTP/1.1\r\n" ++ (List.replicate n (ascii "a:b\r\n")).flatten ++ ascii "\r\n"

/-- What httparse reads off it. -/
def connectRequest (n : Nat) : ParsedRequest where
  method := some (ascii "CONNECT")
  path := some (ascii "a.test:1")
  version := some 1
  headers := List.replicate n (ascii "a", ascii "b")

/-- A CONNECT with 101 fields is parsed, accepted — and then served as an ordinary request. -/
theorem connect_falls_through : readsAs (connectRequest 101) (strictPolicy 16384).maxParsedHeaders (connectHead 101) =
    .complete (connectHead 101).length (connectRequest 101) ∧ checkRequestHead (connectHead 101) (strictPolicy 16384) =
    .ok () ∧ dispatchRequest (readsAs (connectRequest 101)) (.route true true) (connectHead 101) (strictPolicy 16384)
    (connectRequest 101) true = .served := by
  have hok : checkRequestHead (connectHead 101) (strictPolicy 16384) = .ok () := by decide +kernel
  refine ⟨rfl, hok, ?_⟩
  rw [dispatchRequest, hok]
  rfl

/-- One with two is taken over, with both its fields. -/
theorem parsed_twice_iff_two : ∃ parsed, dispatchRequest (readsAs (connectRequest 2)) (.route false true) (connectHead 2)
    (strictPolicy 16384) (connectRequest 2) true = .takenOver parsed ∧ parsed.Reads (connectRequest 2) := by
  obtain ⟨parsed, -, hreads, htaken⟩ := (@parsed_twice_iff (readsAs (connectRequest 2)) (strictPolicy 16384)
    (connectHead 2) (connectRequest 2) (slots_readsAs _) rfl (by decide +kernel)).mpr
      ⟨by decide, fun h hmem => ⟨['b'], eq_of_mem_replicate hmem ▸ rfl⟩⟩
  exact ⟨parsed, htaken false true (.inl rfl), hreads⟩

end Oam.Http
