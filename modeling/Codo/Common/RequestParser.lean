import Codo.Common.Chunked
import Codo.Common.HttpTypes

/-!
# The request parser

`parse_http_request` and what it calls.  The parser works on the connection's
read buffer: it writes a NUL over line ends and colons and reads the pieces as C
strings.  `parseHttpRequest` does the same on a list of bytes.

`readRequest` is a reader without a buffer, given the bytes of the request only.
`exists_parseHttpRequest_eq` says that the parser computes what the reader does on the
bytes below the end it was given, and leaves the others alone.
-/

namespace Codo.Common

open Codo.Support List

variable {value name : Bytes} {n : ℕ}

/-! ## The parts of a request -/

def stringToHttpMethod (method : Bytes) : HttpMethod :=
  if strcaseeq method (ascii "GET") then .get
  else if strcaseeq method (ascii "POST") then .post
  else if strcaseeq method (ascii "PUT") then .put
  else if strcaseeq method (ascii "DELETE") then .delete
  else if strcaseeq method (ascii "HEAD") then .head
  else if strcaseeq method (ascii "OPTIONS") then .options
  else if strcaseeq method (ascii "PATCH") then .patch
  else if strcaseeq method (ascii "CONNECT") then .connect
  else if strcaseeq method (ascii "TRACE") then .trace
  else .unknown

def httpParseContentLength (value : Bytes) : Option ℕ :=
  let value := skipBlanks value
  let digits := value.takeWhile isDigit
  if digits = [] then none
  else if sizeMax < digitsValue digits then none
  else if skipBlanks (value.dropWhile isDigit) ≠ [] then none
  else some (digitsValue digits)

theorem httpParseContentLength_append {blanks : Bytes} (hblanks : ∀ b ∈ blanks, isBlank b = true) :
    httpParseContentLength (value ++ blanks) = httpParseContentLength value := by
  have hstop : ∀ b ∈ blanks.head?, isDigit b = false := fun b hb =>
    isDigit_of_isBlank (hblanks b (mem_of_mem_head? hb))
  rw [httpParseContentLength, httpParseContentLength, skipBlanks_append_blanks hblanks]
  by_cases hnil : skipBlanks value = []
  · rw [if_pos hnil, hnil]
  · have hrest : ∀ w : Bytes, skipBlanks (w ++ blanks) ≠ [] ↔ skipBlanks w ≠ [] := by
      intro w
      rw [skipBlanks_append_blanks hblanks]
      by_cases hw : skipBlanks w = [] <;> simp [hw]
    simp only [if_neg hnil, takeWhile_append_of_stop hstop, dropWhile_append_of_stop hstop, hrest]

theorem httpParseContentLength_eq_some (h : httpParseContentLength value = some n) :
    (skipBlanks value).takeWhile isDigit ≠ [] ∧ n ≤ sizeMax ∧
      skipBlanks ((skipBlanks value).dropWhile isDigit) = [] := by
  unfold httpParseContentLength at h
  simp only at h
  split at h
  next => cases h
  next hdigits =>
    split at h
    next => cases h
    next hle =>
      split at h
      next => cases h
      next hrest =>
        cases h
        exact ⟨hdigits, not_lt.mp hle, not_not.mp hrest⟩

/-- A length is a run of digits between blanks. -/
theorem httpParseContentLength_shape (h : httpParseContentLength value = some n) :
    ∃ lead digits trail, value = lead ++ (digits ++ trail) ∧
      (∀ b ∈ lead, isBlank b = true) ∧ (∀ b ∈ digits, isDigit b = true) ∧
      digits ≠ [] ∧ ∀ b ∈ trail, isBlank b = true := by
  obtain ⟨hdigits, -, hrest⟩ := httpParseContentLength_eq_some h
  refine ⟨value.takeWhile isBlank, (skipBlanks value).takeWhile isDigit,
    (skipBlanks value).dropWhile isDigit, ?_, ?_, ?_, hdigits, skipBlanks_eq_nil_iff.mp hrest⟩
  · rw [takeWhile_append_dropWhile, skipBlanks, takeWhile_append_dropWhile]
  · intro b hb
    exact mem_takeWhile_imp hb
  · intro b hb
    exact mem_takeWhile_imp hb

/-- The suffix form `-N` of a range. -/
def parseSuffixRange (spec : Bytes) (request : Request) : Request :=
  match strtoll spec with
  | none => request
  | some (n, rest) =>
    if n < 0 ∨ skipBlanks rest ≠ [] then request
    else
      { request with
        rangeSuffix := true, rangeStart := n, rangeEnd := -1, hasRange := true }

/-- The end of a range behind its dash, `-1` when it is open. -/
def parseRangeEnd (first : ℤ) (after : Bytes) : Option ℤ :=
  if after = [] then some (-1)
  else
    match strtoll after with
    | none => none
    | some (last, rest) => if last < first ∨ skipBlanks rest ≠ [] then none else some last

def parseRangeHeader (value : Bytes) (request : Request) : Request :=
  if !strncaseeq value (ascii "bytes=") 6 then request
  else if 44 ∈ value.drop 6 then request
  else
    let spec := skipBlanks (value.drop 6)
    if spec.head? = some 45 then parseSuffixRange spec.tail request
    else
      match strtoll spec with
      | none => request
      | some (first, rest) =>
        if first < 0 ∨ rest.head? ≠ some 45 then request
        else
          match parseRangeEnd first (skipBlanks rest.tail) with
          | none => request
          | some last =>
            { request with
              rangeStart := first, rangeEnd := last, hasRange := true }

/-- `strip_crlf_inplace`. -/
def stripCrlf (s : Bytes) : Bytes :=
  s.filter fun b => b ≠ 13 ∧ b ≠ 10

def parseRequestLine (line : Bytes) (request : Request) : ℤ × Request :=
  match scanWord 15 line with
  | none => (-1, request)
  | some (method, line) =>
    match scanWord 2047 line with
    | none => (-1, request)
    | some (uri, line) =>
      match scanWord 15 line with
      | none => (-1, { request with uri := uri })
      | some (version, _) =>
        let request := { request with
          method := stringToHttpMethod method
          version := version
          keepAlive := version == ascii "HTTP/1.1" }
        match splitByte 63 uri with
        | none => (0, { request with uri := uri })
        | some (path, query) => (0, { request with uri := path, queryString := query })

/-- The three words `sscanf` finds in a request line. -/
def requestWords (line : Bytes) : Option (Bytes × Bytes × Bytes) :=
  match scanWord 15 line with
  | none => none
  | some (method, line) =>
    match scanWord 2047 line with
    | none => none
    | some (uri, line) =>
      match scanWord 15 line with
      | none => none
      | some (version, _) => some (method, uri, version)

theorem parseRequestLine_eq_zero_iff (line : Bytes) (request : Request) :
    (parseRequestLine line request).1 = 0 ↔ (requestWords line).isSome := by
  rw [parseRequestLine, requestWords]
  cases scanWord 15 line with
  | none => simp
  | some first =>
    simp only
    cases scanWord 2047 first.2 with
    | none => simp
    | some second =>
      simp only
      cases scanWord 15 second.2 with
      | none => simp
      | some third =>
        simp only
        cases splitByte 63 second.1 with
        | none => simp
        | some parts => simp

/-- The value of a `Transfer-Encoding` field the parser understands. -/
def isChunkedCoding (value : Bytes) : Bool :=
  (trimBlanks value).length == 7 && strncaseeq value (ascii "chunked") 7

/-- The slot of the header table a field takes, when there is one left. -/
def addHeader (request : Request) (name value : Bytes) : Request :=
  if request.headers.length < maxHeaders then
    { request with headers := request.headers ++
        [(stripCrlf (name.take 255), stripCrlf (value.take 2047))] }
  else request

/-- `store_header_field`: the result, the request, and whether a
`Content-Length` was seen.  `date` is `parse_http_date`. -/
def storeHeaderField (date : Bytes → ℤ) (request : Request)
    (name value : Bytes) (sawContentLength : Bool) : ℤ × Request × Bool :=
  let request := addHeader request name value
  if strcaseeq name (ascii "Connection") then
    if strcasestr value (ascii "close") then
      (0, { request with keepAlive := false }, sawContentLength)
    else if strcasestr value (ascii "keep-alive") || strcasestr value (ascii "upgrade") then
      (0, { request with keepAlive := true }, sawContentLength)
    else (0, request, sawContentLength)
  else if strcaseeq name (ascii "Content-Length") then
    match httpParseContentLength value with
    | none => (-1, request, sawContentLength)
    | some n => (0, { request with contentLength := n }, true)
  else if strcaseeq name (ascii "Transfer-Encoding") then
    if isChunkedCoding value then
      (0, { request with chunked := true }, sawContentLength)
    else (-1, request, sawContentLength)
  else if strcaseeq name (ascii "If-None-Match") then
    (0, { request with ifNoneMatch := value.take 511 }, sawContentLength)
  else if strcaseeq name (ascii "If-Modified-Since") then
    let t := date value
    (0, { request with ifModifiedSince := if t = -1 then 0 else t }, sawContentLength)
  else if strcaseeq name (ascii "If-Range") then
    (0, { request with ifRange := value.take 127 }, sawContentLength)
  else if strcaseeq name (ascii "Range") then
    (0, parseRangeHeader value request, sawContentLength)
  else if strcaseeq name (ascii "Expect") then
    (0, { request with
      expectContinue := strcaseeq value (ascii "100-continue") },
      sawContentLength)
  else if strcaseeq name (ascii "Upgrade") then
    (0, { request with
      isWebsocketUpgrade := strcaseeq value (ascii "websocket") },
      sawContentLength)
  else if strcaseeq name (ascii "Sec-WebSocket-Key") then
    (0, { request with websocketKey := value.take 63 }, sawContentLength)
  else if strcaseeq name (ascii "Sec-WebSocket-Protocol") then
    (0, { request with websocketProtocol := value.take 255 }, sawContentLength)
  else (0, request, sawContentLength)

/-- The parts of a request that decide about its body. -/
def bodyFields (request : Request) : ℕ × Bool × Option Bytes :=
  (request.contentLength, request.chunked, request.body)

theorem bodyFields_addHeader (request : Request) (name value : Bytes) :
    bodyFields (addHeader request name value) = bodyFields request := by
  rw [addHeader]
  split <;> rfl

theorem bodyFields_parseRequestLine (line : Bytes) (request : Request) :
    bodyFields (parseRequestLine line request).2 = bodyFields request := by
  rw [parseRequestLine]
  split
  · rfl
  · split
    · rfl
    · split
      · rfl
      · simp only
        split <;> rfl

theorem bodyFields_parseSuffixRange (spec : Bytes) (request : Request) :
    bodyFields (parseSuffixRange spec request) = bodyFields request := by
  rw [parseSuffixRange]
  split
  · rfl
  · split <;> rfl

theorem bodyFields_parseRangeHeader (value : Bytes) (request : Request) :
    bodyFields (parseRangeHeader value request) = bodyFields request := by
  rw [parseRangeHeader]
  split
  · rfl
  · split
    · rfl
    · simp only
      split
      · exact bodyFields_parseSuffixRange _ _
      · split
        · rfl
        · split
          · rfl
          · split <;> rfl

/-- A header field that leaves the framing of the body alone. -/
def KeepsBody (request : Request) (saw : Bool) (r : ℤ × Request × Bool) : Prop :=
  r.1 = 0 ∧ bodyFields r.2.1 = bodyFields request ∧ r.2.2 = saw

theorem storeHeaderField_other (hlength : strcaseeq name (ascii "Content-Length") = false)
    (hcoding : strcaseeq name (ascii "Transfer-Encoding") = false)
    (date : Bytes → ℤ) (request : Request) (value : Bytes) (saw : Bool) :
    KeepsBody request saw (storeHeaderField date request name value saw) := by
  have hkeep : ∀ request' : Request, bodyFields request' = bodyFields request →
      KeepsBody request saw (0, request', saw) := fun _ h => ⟨rfl, h, rfl⟩
  have hadd := bodyFields_addHeader request name value
  have hrange := bodyFields_parseRangeHeader value (addHeader request name value)
  rw [storeHeaderField, hlength, hcoding]
  refine iteInduction (fun _ => ?_) fun _ => ?_
  · exact iteInduction (fun _ => hkeep _ hadd) fun _ =>
      iteInduction (fun _ => hkeep _ hadd) fun _ => hkeep _ hadd
  · rw [if_neg Bool.false_ne_true, if_neg Bool.false_ne_true]
    refine iteInduction (fun _ => hkeep _ hadd) fun _ =>
      iteInduction (fun _ => hkeep _ hadd) fun _ =>
      iteInduction (fun _ => hkeep _ hadd) fun _ =>
      iteInduction (fun _ => hkeep _ (hrange.trans hadd)) fun _ =>
      iteInduction (fun _ => hkeep _ hadd) fun _ =>
      iteInduction (fun _ => hkeep _ hadd) fun _ =>
      iteInduction (fun _ => hkeep _ hadd) fun _ =>
      iteInduction (fun _ => hkeep _ hadd) fun _ => hkeep _ hadd

theorem storeHeaderField_contentLength {date : Bytes → ℤ}
    (hname : strcaseeq name (ascii "Content-Length") = true)
    (hvalue : httpParseContentLength value = some n) (request : Request) (saw : Bool) :
    storeHeaderField date request name value saw =
      (0, { addHeader request name value with contentLength := n }, true) := by
  have hconnection : strcaseeq name (ascii "Connection") = false := by
    rw [strcaseeq_congr hname]
    decide
  rw [storeHeaderField, hconnection, hname, if_neg Bool.false_ne_true, if_pos rfl, hvalue]

theorem storeHeaderField_chunked {date : Bytes → ℤ}
    (hname : strcaseeq name (ascii "Transfer-Encoding") = true)
    (hvalue : isChunkedCoding value = true) (request : Request) (saw : Bool) :
    storeHeaderField date request name value saw =
      (0, { addHeader request name value with chunked := true }, saw) := by
  have hconnection : strcaseeq name (ascii "Connection") = false := by
    rw [strcaseeq_congr hname]
    decide
  have hlength : strcaseeq name (ascii "Content-Length") = false := by
    rw [strcaseeq_congr hname]
    decide
  rw [storeHeaderField, hconnection, hlength, hname, if_neg Bool.false_ne_true,
    if_neg Bool.false_ne_true, if_pos rfl, hvalue, if_pos rfl]

/-- `parse_request_body`.  `mallocOk` says whether the allocation succeeds. -/
def parseRequestBody (mallocOk : Bool) (request : Request) (body : Bytes) : ℤ × Request :=
  if request.chunked then
    if !mallocOk then (-2, request)
    else
      let d := httpChunkedDecode body
      if d.rc ≠ 1 then (-1, request)
      else (0, { request with body := some d.out })
  else
    let body := body.take request.contentLength
    if body = [] then (0, request)
    else if !mallocOk then (-2, request)
    else (0, { request with body := some body })

theorem parseRequestBody_chunked {request : Request} {body out : Bytes}
    {consumed : ℕ} (hchunked : request.chunked = true)
    (hdecode : httpChunkedDecode body = ⟨1, out, n, consumed⟩) (mallocOk : Bool) :
    parseRequestBody mallocOk request body =
      if mallocOk then (0, { request with body := some out })
      else (-2, request) := by
  rw [parseRequestBody, if_pos hchunked, hdecode]
  cases mallocOk with
  | false => rfl
  | true => rfl

theorem parseRequestBody_sized {request : Request} {body : Bytes}
    (hchunked : request.chunked = false)
    (hlength : body.length = request.contentLength) (mallocOk : Bool) :
    parseRequestBody mallocOk request body =
      if body = [] then (0, request)
      else if mallocOk then (0, { request with body := some body })
      else (-2, request) := by
  rw [parseRequestBody, hchunked, if_neg Bool.false_ne_true, take_of_length_le hlength.le]
  cases mallocOk with
  | false => rfl
  | true => rfl

/-! ## The parser on the read buffer -/

/-- The C string at an offset of the buffer. -/
def stringAt (buf : Bytes) (p : ℕ) : Bytes :=
  cString (buf.drop p)

/-- `next_line`: the new cursor and the buffer; the line starts at the old
cursor. -/
def nextLine (buf : Bytes) (cursor stop : ℕ) : Option (ℕ × Bytes) :=
  match splitByte 10 ((buf.take stop).drop cursor) with
  | none => none
  | some (line, _) =>
    let nl := cursor + line.length
    let buf := buf.set nl 0
    let buf := if cursor < nl ∧ buf[nl - 1]? = some 13 then buf.set (nl - 1) 0
      else buf
    some (nl + 1, buf)

/-- What `parse_http_request` leaves behind.  `bodyAt` is the cursor behind the
blank line, when one was found. -/
structure Parsed where
  rc : ℤ
  request : Request
  buffer : Bytes
  bodyAt : Option ℕ
  deriving DecidableEq

/-- The end of the headers, with the body at `cursor`. -/
def finishHeaders (mallocOk : Bool) (buf : Bytes) (cursor stop : ℕ)
    (request : Request) (sawContentLength : Bool) : Parsed :=
  if request.chunked ∧ sawContentLength then ⟨-1, request, buf, some cursor⟩
  else if cursor < stop then
    let r := parseRequestBody mallocOk request ((buf.take stop).drop cursor)
    ⟨r.1, r.2, buf, some cursor⟩
  else ⟨0, request, buf, some cursor⟩

/-- The loop over the header lines. -/
def parseFields (date : Bytes → ℤ) (mallocOk : Bool) (stop : ℕ) :
    ℕ → Bytes → ℕ → Request → Bool → Parsed
  | 0, buf, _, request, _ => ⟨0, request, buf, none⟩
  | fuel + 1, buf, line, request, sawContentLength =>
    match nextLine buf line stop with
    | none => ⟨0, request, buf, none⟩
    | some (cursor, buf) =>
      if stringAt buf line = [] then
        finishHeaders mallocOk buf cursor stop request sawContentLength
      else
        match splitByte 58 (stringAt buf line) with
        | none => parseFields date mallocOk stop fuel buf cursor request sawContentLength
        | some (name, _) =>
          let colon := line + name.length
          let buf := buf.set colon 0
          let value := cString (skipBlanks (buf.drop (colon + 1)))
          let r := storeHeaderField date request (stringAt buf line) value sawContentLength
          if r.1 ≠ 0 then ⟨-1, r.2.1, buf, none⟩
          else parseFields date mallocOk stop fuel buf cursor r.2.1 r.2.2

/-- `parse_http_request` on the buffer `buf`; `request` is the record of the
connection. -/
def parseHttpRequest (date : Bytes → ℤ) (mallocOk : Bool) (request : Request)
    (buf : Bytes) (requestLen : ℕ) : Parsed :=
  if buf.length < requestLen then ⟨-1, request, buf, none⟩
  else
    match nextLine buf 0 requestLen with
    | none => ⟨-1, .zero, buf, none⟩
    | some (cursor, buf) =>
      let r := parseRequestLine (stringAt buf 0) .zero
      if r.1 ≠ 0 then ⟨-1, r.2, buf, none⟩
      else
        parseFields date mallocOk requestLen (requestLen + 1) buf cursor r.2 false

/-! ## The reader of one request -/

/-- What the reader finds; `rest` is what follows the blank line. -/
structure Reading where
  rc : ℤ
  request : Request
  rest : Option Bytes

/-- A header line, given as a C string. -/
def readField (date : Bytes → ℤ) (request : Request) (sawContentLength : Bool)
    (line : Bytes) : ℤ × Request × Bool :=
  match splitByte 58 line with
  | none => (0, request, sawContentLength)
  | some (name, value) => storeHeaderField date request name (skipBlanks value) sawContentLength

/-- The end of the headers, followed by `rest`. -/
def readBody (mallocOk : Bool) (request : Request) (sawContentLength : Bool)
    (rest : Bytes) : Reading :=
  if request.chunked ∧ sawContentLength then ⟨-1, request, some rest⟩
  else if rest ≠ [] then
    let r := parseRequestBody mallocOk request rest
    ⟨r.1, r.2, some rest⟩
  else ⟨0, request, some rest⟩

/-- The header lines at the start of `text`. -/
def readFields (date : Bytes → ℤ) (mallocOk : Bool) :
    ℕ → Request → Bool → Bytes → Reading
  | 0, request, _, _ => ⟨0, request, none⟩
  | fuel + 1, request, sawContentLength, text =>
    match splitByte 10 text with
    | none => ⟨0, request, none⟩
    | some (line, rest) =>
      if cString (stripCr line) = [] then
        readBody mallocOk request sawContentLength rest
      else
        let r := readField date request sawContentLength (cString (stripCr line))
        if r.1 ≠ 0 then ⟨-1, r.2.1, none⟩
        else readFields date mallocOk fuel r.2.1 r.2.2 rest

/-- The request `text` consists of. -/
def readRequest (date : Bytes → ℤ) (mallocOk : Bool) (text : Bytes) : Reading :=
  match splitByte 10 text with
  | none => ⟨-1, .zero, none⟩
  | some (line, rest) =>
    let r := parseRequestLine (cString (stripCr line)) .zero
    if r.1 ≠ 0 then ⟨-1, r.2, none⟩
    else readFields date mallocOk (text.length + 1) r.2 false rest

section Refinement

variable {date : Bytes → ℤ} {mallocOk : Bool} {line rest tail pre : Bytes}

/-- The bytes of a line behind `next_line`. -/
def endLine (line : Bytes) : Bytes :=
  if line.getLast? = some 13 then line.dropLast ++ [0, 0] else line ++ [0]

theorem length_endLine (line : Bytes) : (endLine line).length = line.length + 1 := by
  rw [endLine]
  split
  next hcr =>
    obtain ⟨init, rfl⟩ := List.getLast?_eq_some_iff.mp hcr
    simp
  next => simp

/-- A reader of the terminated line sees the line without its carriage
return. -/
theorem exists_endLine (line : Bytes) :
    ∃ junk, endLine line = cString (stripCr line) ++ 0 :: junk := by
  rw [endLine, stripCr]
  split
  · exact exists_append_zero _ [0]
  · exact exists_append_zero _ []

theorem set_line (pre line more : Bytes) :
    let buf := (pre ++ line ++ 10 :: more).set (pre.length + line.length) 0
    (if pre.length < pre.length + line.length ∧ buf[pre.length + line.length - 1]? = some 13 then
      buf.set (pre.length + line.length - 1) 0 else buf) =
      pre ++ endLine line ++ more := by
  have hset := set_middle (pre ++ line) more 10 0
  rw [length_append] at hset
  simp only [hset]
  rcases eq_nil_or_concat' line with rfl | ⟨init, b, rfl⟩
  · rw [if_neg (fun h => absurd h.1 (by simp))]
    simp [endLine]
  · have hpos : pre.length + (init ++ [b]).length - 1 = (pre ++ init).length := by simp
    have hget : (pre ++ (init ++ [b]) ++ 0 :: more)[(pre ++ init).length]? = some b := by simp
    rw [hpos, hget, endLine, List.getLast?_concat]
    by_cases hb : b = 13
    · have hreset := set_middle (pre ++ init) (0 :: more) b 0
      rw [if_pos ⟨by simp, by rw [hb]⟩, if_pos (by rw [hb]), dropLast_concat]
      simp only [append_assoc, singleton_append] at hreset ⊢
      exact hreset
    · rw [if_neg (fun h => hb (Option.some.inj h.2)), if_neg (fun h => hb (Option.some.inj h))]
      simp

theorem nextLine_append (hline : 10 ∉ line) (pre rest tail : Bytes) :
    nextLine (pre ++ (line ++ 10 :: rest) ++ tail) pre.length
        (pre.length + (line ++ 10 :: rest).length) = some (pre.length + line.length + 1,
        pre ++ endLine line ++ (rest ++ tail)) := by
  have hset := set_line pre line (rest ++ tail)
  rw [nextLine, take_left' (by rw [length_append]), drop_left,
    splitByte_append hline]
  simp only [append_assoc, cons_append] at hset ⊢
  rw [hset]

theorem nextLine_eq_none {window : Bytes} (hopen : 10 ∉ window) (pre tail : Bytes) :
    nextLine (pre ++ window ++ tail) pre.length (pre.length + window.length) = none := by
  rw [nextLine, take_left' (by rw [length_append]), drop_left,
    splitByte_eq_none_iff.mpr hopen]

theorem stringAt_endLine (pre line more : Bytes) :
    stringAt (pre ++ endLine line ++ more) pre.length = cString (stripCr line) := by
  obtain ⟨junk, hjunk⟩ := exists_endLine line
  rw [stringAt, append_assoc, drop_left, hjunk, append_assoc, cons_append]
  exact cString_append_zero (zero_notMem_cString _) _

/-- Writing over the colon of a header line leaves its two parts, each a C
string. -/
theorem set_colon (hcolon : splitByte 58 (cString (stripCr line)) = some (name, value))
    (pre more : Bytes) :
    ∃ mid, mid.length = line.length + 1 ∧
      (pre ++ endLine line ++ more).set (pre.length + name.length) 0 = pre ++ mid ++ more ∧
      stringAt (pre ++ mid ++ more) pre.length = name ∧
      cString (skipBlanks ((pre ++ mid ++ more).drop
        (pre.length + name.length + 1))) = skipBlanks value := by
  obtain ⟨junk, hjunk⟩ := exists_endLine line
  obtain ⟨htext, -⟩ := eq_of_splitByte hcolon
  have hzero := zero_notMem_cString (stripCr line)
  rw [htext] at hjunk hzero
  simp only [mem_append, mem_cons, not_or] at hzero
  have hlen := length_endLine line
  rw [hjunk] at hlen
  refine ⟨name ++ 0 :: (value ++ 0 :: junk), ?_, ?_, ?_, ?_⟩
  · simp only [length_append, length_cons] at hlen ⊢
    omega
  · have hset := set_middle (pre ++ name) (value ++ 0 :: (junk ++ more)) 58 0
    rw [length_append] at hset
    simp only [append_assoc] at hset
    simp only [hjunk, append_assoc, cons_append, hset]
  · rw [stringAt, append_assoc, drop_left, append_assoc, cons_append]
    exact cString_append_zero hzero.1 _
  · have hdrop : (pre ++ (name ++ 0 :: (value ++ 0 :: junk)) ++ more).drop
        (pre.length + name.length + 1) = value ++ 0 :: (junk ++ more) := by
      have hassoc : pre ++ (name ++ 0 :: (value ++ 0 :: junk)) ++ more =
          (pre ++ name ++ [0]) ++ (value ++ 0 :: (junk ++ more)) := by simp
      rw [hassoc]
      exact drop_left' (by simp [Nat.add_assoc])
    rw [hdrop, skipBlanks_append_zero]
    refine cString_append_zero (fun h => hzero.2.2 ?_) _
    exact (dropWhile_sublist _).mem h

theorem finishHeaders_eq {window : Bytes} (request : Request) (saw : Bool) (pre tail : Bytes) :
    finishHeaders mallocOk (pre ++ window ++ tail) pre.length
        (pre.length + window.length) request saw =
      let r := readBody mallocOk request saw window
      ⟨r.rc, r.request, pre ++ window ++ tail,
        r.rest.map fun rest => pre.length + window.length - rest.length⟩ := by
  have hlt : pre.length < pre.length + window.length ↔ window ≠ [] := by
    rw [← length_pos_iff]
    omega
  rw [finishHeaders, readBody, take_left' (by rw [length_append]), drop_left]
  simp only [hlt]
  split
  · simp
  · split <;> simp

/-- The loop of the parser computes what the reader does, below the end of the
window. -/
theorem exists_parseFields_eq (window pre tail : Bytes) (request : Request)
    (saw : Bool) (fuel : ℕ) :
    let r := readFields date mallocOk fuel request saw window
    let stop := pre.length + window.length
    ∃ mid, mid.length = stop ∧
      parseFields date mallocOk stop fuel (pre ++ window ++ tail) pre.length request saw =
        ⟨r.rc, r.request, mid ++ tail, r.rest.map fun rest => stop - rest.length⟩ := by
  induction fuel generalizing window pre request saw with
  | zero => exact ⟨pre ++ window, by simp, rfl⟩
  | succ fuel ih =>
    simp only [readFields, parseFields]
    cases hsplit : splitByte 10 window with
    | none =>
      rw [nextLine_eq_none (splitByte_eq_none_iff.mp hsplit)]
      exact ⟨pre ++ window, by simp, rfl⟩
    | some cut =>
      obtain ⟨line, rest⟩ := cut
      obtain ⟨rfl, hline⟩ := eq_of_splitByte hsplit
      rw [nextLine_append hline]
      simp only [stringAt_endLine]
      -- The rest of the window, behind a line that keeps its length.
      have hcursor : ∀ mid : Bytes, mid.length = line.length + 1 →
          pre.length + line.length + 1 = (pre ++ mid).length := by
        intro mid hmid
        rw [length_append, hmid, Nat.add_assoc]
      have hstop : ∀ mid : Bytes, mid.length = line.length + 1 →
          pre.length + (line ++ 10 :: rest).length = (pre ++ mid).length + rest.length := by
        intro mid hmid
        simp only [length_append, length_cons, hmid]
        omega
      by_cases hblank : cString (stripCr line) = []
      · simp only [if_pos hblank]
        refine ⟨pre ++ endLine line ++ rest, ?_, ?_⟩
        · rw [hstop _ (length_endLine line), length_append]
        · rw [hstop _ (length_endLine line), hcursor _ (length_endLine line), ← append_assoc]
          exact finishHeaders_eq request saw (pre ++ endLine line) tail
      · simp only [if_neg hblank]
        cases hcolon : splitByte 58 (cString (stripCr line)) with
        | none =>
          simp only [readField, hcolon]
          rw [hstop _ (length_endLine line), hcursor _ (length_endLine line), ← append_assoc]
          exact ih rest (pre ++ endLine line) request saw
        | some parts =>
          obtain ⟨name, value⟩ := parts
          obtain ⟨mid, hmid, hset, hname, hvalue⟩ := set_colon hcolon pre (rest ++ tail)
          simp only [readField, hcolon, hset, hname, hvalue]
          rw [hstop _ hmid, hcursor _ hmid, ← append_assoc]
          split
          · exact ⟨pre ++ mid ++ rest, length_append, rfl⟩
          · exact ih rest (pre ++ mid) _ _

variable (date mallocOk) in
/-- The parser computes what the reader does on the bytes below the end it was
given, and leaves the others alone. -/
theorem exists_parseHttpRequest_eq (request : Request) (window tail : Bytes) :
    let r := readRequest date mallocOk window
    ∃ mid, mid.length = window.length ∧
      parseHttpRequest date mallocOk request (window ++ tail) window.length =
        ⟨r.rc, r.request, mid ++ tail, r.rest.map fun rest => window.length - rest.length⟩ := by
  simp only [readRequest, parseHttpRequest]
  rw [if_neg (by rw [length_append]; omega)]
  cases hsplit : splitByte 10 window with
  | none =>
    have hnone := nextLine_eq_none (splitByte_eq_none_iff.mp hsplit) [] tail
    simp only [nil_append, length_nil, Nat.zero_add] at hnone
    rw [hnone]
    exact ⟨window, rfl, rfl⟩
  | some cut =>
    obtain ⟨line, rest⟩ := cut
    obtain ⟨rfl, hline⟩ := eq_of_splitByte hsplit
    have hnext := nextLine_append hline [] rest tail
    have hfirst := stringAt_endLine [] line (rest ++ tail)
    have hlen : (line ++ 10 :: rest).length = (endLine line).length + rest.length := by
      rw [length_endLine, length_append, length_cons]
      omega
    simp only [nil_append, length_nil, Nat.zero_add] at hnext hfirst
    rw [hnext]
    simp only [hfirst]
    split
    · exact ⟨endLine line ++ rest, by rw [hlen, length_append], by simp⟩
    · rw [hlen, ← length_endLine, ← append_assoc]
      exact exists_parseFields_eq rest (endLine line) tail _ false _

end Refinement

end Codo.Common
