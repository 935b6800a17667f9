import Codo.Common.HttpTypes

/-!
# Staging a response

`send_http_response` renders the head of a response into a local array of
`MAX_HEADERS_SIZE` bytes and copies it, with the body, into the write buffer of
the connection.  A queued file is not copied: the write path streams it behind
the buffer.  The length that the head announces and the bytes that follow it
are decided in different places.

The clock, the texts of dates, the name of the server, zlib and the allocator
are given from outside.
-/

namespace Codo.Common

open Support List

/-! ## Records -/

/-- `http_response_t`, with what only file responses fill in.  A body that is
`NULL` is the empty one. -/
structure HttpResponse extends Response where
  version : Bytes
  gzipCompressed : Bool
  lastModified : ℤ
  etag : Bytes
  deriving DecidableEq

/-- The fields of `connection_t` that staging a response uses.  `staged` are the
first `write_buffer_size` bytes of the write buffer, whose capacity is `0` while
there is none.  `writing` is `CONN_STATE_WRITING_RESPONSE`. -/
structure SendConn where
  request : Request
  fileFd : ℤ
  fileOffset : Int64
  fileSize : UInt64
  staged : Bytes
  writeBufferCap : ℕ
  writeBufferPos : ℕ
  writing : Bool
  deriving DecidableEq

/-- What staging a response asks the system for: the time, the text of a date
(`format_http_date`), `http_server_name`, `gzip_compress_buffer` with `none` for
a failure, and whether `realloc` succeeds. -/
structure SendEnv where
  now : ℤ
  httpDate : ℤ → Bytes
  serverName : Bytes
  gzip : Bytes → Option Bytes
  reallocOk : Bool

def maxResponseSize : ℕ := 1048576

def maxHeadersSize : ℕ := 8192

def gzipMinSize : ℕ := 256

def connReadBufferMin : ℕ := 8192

def crlf : Bytes := [13, 10]

/-! ## Compression -/

def clientAcceptsGzip (request : Request) : Bool :=
  match request.headers.find? fun h => strcaseeq h.1 (ascii "Accept-Encoding") with
  | some h => strcasestr h.2 (ascii "gzip")
  | none => false

def mimeTypeCompressible (v : Bytes) : Bool :=
  strncaseeq v (ascii "text/") 5 || strcasestr v (ascii "json") ||
    strcasestr v (ascii "javascript") || strcasestr v (ascii "xml") || strcasestr v (ascii "svg")

def contentTypeCompressible (response : HttpResponse) : Bool :=
  match response.headers.find? fun h => strcaseeq h.1 (ascii "Content-Type") with
  | some h => mimeTypeCompressible h.2
  | none => false

def responseShouldGzip (conn : SendConn) (response : HttpResponse) : Bool :=
  if response.gzipCompressed then false
  else if response.body.length < gzipMinSize then false
  else contentTypeCompressible response && clientAcceptsGzip conn.request

/-! ## The head -/

def headerFieldHasCrlf (field : Bytes) : Bool :=
  field.any fun c => c == 13 || c == 10

/-- `buf_appendf` behind the bytes `buf`, with the text its format makes. -/
def bufAppendf (cap : ℕ) (buf text : Bytes) : Option Bytes :=
  if cap ≤ buf.length then none
  else if cap - buf.length ≤ text.length then none
  else some (buf ++ text)

/-- A guarded append: `if (c && buf_appendf(..) != 0) return -1`. -/
def bufAppendIf (c : Prop) [Decidable c] (cap : ℕ) (buf text : Bytes) : Option Bytes :=
  if c then bufAppendf cap buf text else some buf

/-- One round of the loop over the response's own headers. -/
def appendHeader (cap : ℕ) (buf : Bytes) (header : Bytes × Bytes) : Option Bytes :=
  if headerFieldHasCrlf header.1 || headerFieldHasCrlf header.2 then none
  else bufAppendf cap buf (header.1 ++ ascii ": " ++ header.2 ++ crlf)

/-- The origin that the middleware selected. -/
def appendCors (cap : ℕ) (buf corsOrigin : Bytes) : Option Bytes :=
  if corsOrigin = [] then some buf
  else if headerFieldHasCrlf corsOrigin then none
  else bufAppendf cap buf (ascii "Access-Control-Allow-Origin: " ++ corsOrigin ++ crlf ++
      if corsOrigin = ascii "*" then [] else ascii "Vary: Origin" ++ crlf)

def buildResponseHeaders (env : SendEnv) (response : HttpResponse)
    (gzipped : Bool) (contentLength : UInt64) (noBody : Bool) (cap : ℕ) :
    Option Bytes := do
  let buf ← bufAppendf cap []
    ((if response.version = [] then ascii "HTTP/1.1" else response.version) ++
      ascii " " ++ decimal response.status.code ++ ascii " " ++ response.status.reason ++ crlf ++
      ascii "Server: " ++ env.serverName ++ crlf ++ ascii "Date: " ++ env.httpDate env.now ++ crlf)
  let buf ← bufAppendIf (noBody = false) cap buf
    (ascii "Content-Length: " ++ decimal contentLength.toNat ++ crlf)
  let buf ← bufAppendf cap buf (ascii "Connection: " ++
      (if response.keepAlive then ascii "keep-alive" else ascii "close") ++ crlf)
  let buf ← bufAppendIf (gzipped = true) cap buf (ascii "Content-Encoding: gzip" ++ crlf ++
      ascii "Vary: Accept-Encoding" ++ crlf)
  let buf ← bufAppendIf (response.lastModified ≠ 0) cap buf
    (ascii "Last-Modified: " ++ env.httpDate response.lastModified ++ crlf)
  let buf ← bufAppendIf (response.etag ≠ [] ∧ headerFieldHasCrlf response.etag = false) cap buf
    (ascii "ETag: " ++ (if gzipped then ascii "W/" else []) ++ response.etag ++ crlf)
  let buf ← response.headers.foldlM (appendHeader cap) buf
  let buf ← appendCors cap buf response.corsOrigin
  bufAppendf cap buf crlf

/-! ## The write buffer -/

/-- The loop of `grow_to`.  The capacity is positive, so `need` doublings are
enough. -/
def growLoop (need : ℕ) : ℕ → ℕ → ℕ
  | 0, cap => cap
  | fuel + 1, cap => if cap < need then growLoop need fuel (cap * 2) else cap

def growTo (start need : ℕ) : ℕ :=
  growLoop need need (if start = 0 then connReadBufferMin else start)

/-- `conn_reserve_write` on a buffer of capacity `cap`: the capacity behind the
call, `none` when the room cannot be had. -/
def connReserveWrite (reallocOk : Bool) (cap need : ℕ) : Option ℕ :=
  if maxResponseSize < need then none
  else if 0 < cap ∧ need ≤ cap then some cap
  else if reallocOk = false then none
  else
    let grown := min (growTo cap need) maxResponseSize
    if need ≤ grown then some grown else none

/-! ## `send_http_response` -/

/-- A file is queued: `conn->file_fd >= 0`. -/
def SendConn.streaming (conn : SendConn) : Bool :=
  decide (0 ≤ conn.fileFd)

/-- The body placed in the write buffer and whether it is compressed. -/
def outBody (env : SendEnv) (conn : SendConn) (response : HttpResponse) : Bytes × Bool :=
  if !conn.streaming && responseShouldGzip conn response then
    match env.gzip response.body with
    | some compressed =>
      if compressed.length < response.body.length then (compressed, true)
      else (response.body, false)
    | none => (response.body, false)
  else (response.body, false)

/-- The number in the `Content-Length` line, computed in `size_t`. -/
def contentLength (env : SendEnv) (conn : SendConn) (response : HttpResponse) : UInt64 :=
  if conn.streaming then conn.fileSize - conn.fileOffset.toUInt64
  else UInt64.ofNat (outBody env conn response).1.length

/-- The part of the body that goes into the write buffer. -/
def bodyInBuffer (env : SendEnv) (conn : SendConn) (response : HttpResponse) : Bytes :=
  if conn.streaming ∨ response.status = .notModified ∨ conn.request.method = .head then []
  else (outBody env conn response).1

/-- The connection with a response staged.  A `HEAD` request releases the
queued file. -/
def SendConn.stage (conn : SendConn) (cap : ℕ) (bytes : Bytes) : SendConn :=
  let released := conn.streaming ∧ conn.request.method = .head
  { conn with
    fileFd := if released then -1 else conn.fileFd
    fileOffset := if released then 0 else conn.fileOffset
    fileSize := if released then 0 else conn.fileSize
    staged := bytes
    writeBufferCap := cap
    writeBufferPos := 0
    writing := true }

/-- `send_http_response`; `none` is `-1`, which leaves the connection as it
was. -/
def sendHttpResponse (env : SendEnv) (conn : SendConn)
    (response : HttpResponse) : Option SendConn := do
  let header ← buildResponseHeaders env response
    (outBody env conn response).2 (contentLength env conn response)
    (response.status = .notModified) maxHeadersSize
  let body := bodyInBuffer env conn response
  let cap ← connReserveWrite env.reallocOk conn.writeBufferCap (header.length + body.length)
  some (conn.stage cap (header ++ body))

/-! ## The lines of a head -/

/-- The lines, each with its end, and the blank line. -/
def renderHead (lines : List Bytes) : Bytes :=
  lines.flatMap (· ++ crlf) ++ crlf

/-- A text without the bytes that end a line. -/
def CleanText (text : Bytes) : Prop :=
  13 ∉ text ∧ 10 ∉ text

instance (text : Bytes) : Decidable (CleanText text) :=
  inferInstanceAs (Decidable (_ ∧ _))

def fieldLine (field : Bytes × Bytes) : Bytes :=
  field.1 ++ ascii ": " ++ field.2

/-- The lines of a head that announces `length`: the fixed ones, one for each
header of the response, and those of the allowed origin. -/
def headLines (env : SendEnv) (response : HttpResponse) (gzipped : Bool)
    (length : Option ℕ) : List Bytes :=
  [(if response.version = [] then ascii "HTTP/1.1" else response.version) ++
      ascii " " ++ decimal response.status.code ++ ascii " " ++ response.status.reason,
    fieldLine (ascii "Server", env.serverName), fieldLine (ascii "Date", env.httpDate env.now)] ++
  (length.toList.map fun n => fieldLine (ascii "Content-Length", decimal n)) ++
  [fieldLine (ascii "Connection",
    if response.keepAlive then ascii "keep-alive" else ascii "close")] ++
  (if gzipped then
    [fieldLine (ascii "Content-Encoding", ascii "gzip"),
      fieldLine (ascii "Vary", ascii "Accept-Encoding")]
  else []) ++
  (if response.lastModified ≠ 0 then
    [fieldLine (ascii "Last-Modified", env.httpDate response.lastModified)]
  else []) ++
  (if response.etag ≠ [] ∧ headerFieldHasCrlf response.etag = false then
    [fieldLine (ascii "ETag", (if gzipped then ascii "W/" else []) ++ response.etag)]
  else []) ++
  response.headers.map fieldLine ++
  (if response.corsOrigin = [] then []
  else [fieldLine (ascii "Access-Control-Allow-Origin", response.corsOrigin)] ++
    (if response.corsOrigin = ascii "*" then []
    else [fieldLine (ascii "Vary", ascii "Origin")]))

/-- No header of the response and no allowed origin holds a line end. -/
def CleanFields (response : HttpResponse) : Prop :=
  (∀ h ∈ response.headers, headerFieldHasCrlf h.1 = false ∧ headerFieldHasCrlf h.2 = false) ∧
  headerFieldHasCrlf response.corsOrigin = false

instance (response : HttpResponse) : Decidable (CleanFields response) :=
  inferInstanceAs (Decidable (_ ∧ _))

/-- A text that leaves room for its terminating NUL. -/
def fits (cap : ℕ) (text : Bytes) : Option Bytes :=
  if text.length < cap then some text else none

section Building

variable {cap : ℕ} {buf text : Bytes}

theorem bufAppendf_eq : bufAppendf cap buf text = fits cap (buf ++ text) := by
  rw [bufAppendf, fits, length_append]
  split_ifs <;> first | rfl | omega

/-- An append behind a text that fits: the two steps fail together. -/
theorem fits_bind_fits :
    ((fits cap buf).bind fun b => fits cap (b ++ text)) = fits cap (buf ++ text) := by
  by_cases hbuf : buf.length < cap
  · rw [show fits cap buf = some buf from if_pos hbuf, Option.bind_some]
  · have hboth : ¬ (buf ++ text).length < cap := by
      rw [length_append]
      omega
    rw [show fits cap buf = none from if_neg hbuf, Option.bind_none,
      show fits cap (buf ++ text) = none from if_neg hboth]

theorem fits_bind_bufAppendIf (c : Prop) [Decidable c] :
    ((fits cap buf).bind fun b => bufAppendIf c cap b text) =
      fits cap (buf ++ if c then text else []) := by
  by_cases hc : c
  · simp only [bufAppendIf, if_pos hc, bufAppendf_eq]
    exact fits_bind_fits
  · simp only [bufAppendIf, if_neg hc, append_nil]
    exact Option.bind_fun_some _

/-- The loop over the headers fails at the first one that holds a line end. -/
theorem fits_bind_foldlM (headers : List (Bytes × Bytes)) (buf : Bytes) :
    ((fits cap buf).bind fun b => headers.foldlM (appendHeader cap) b) =
      if ∀ h ∈ headers, headerFieldHasCrlf h.1 = false ∧ headerFieldHasCrlf h.2 = false then
        fits cap (buf ++ headers.flatMap fun h => fieldLine h ++ crlf)
      else none := by
  induction headers generalizing buf with
  | nil =>
    rw [if_pos (by simp), flatMap_nil, append_nil]
    exact Option.bind_fun_some _
  | cons h headers ih =>
    simp only [foldlM_cons, forall_mem_cons]
    by_cases hclean : headerFieldHasCrlf h.1 = false ∧ headerFieldHasCrlf h.2 = false
    · have happend : ∀ b, appendHeader cap b h = fits cap (b ++ (fieldLine h ++ crlf)) := by
        intro b
        rw [appendHeader, hclean.1, hclean.2, ← bufAppendf_eq]
        rfl
      have hrest := ih (buf ++ (fieldLine h ++ crlf))
      rw [← fits_bind_fits, Option.bind_assoc] at hrest
      simp only [happend, hclean, true_and, flatMap_cons]
      rw [← append_assoc buf]
      exact hrest
    · have happend : ∀ b, appendHeader cap b h = none := by
        intro b
        rw [appendHeader, if_pos]
        by_contra hno
        apply hclean
        simpa using hno
      rw [if_neg fun hall => hclean hall.1]
      simp only [happend]
      exact Option.bind_fun_none _

theorem fits_bind_appendCors (corsOrigin : Bytes) :
    ((fits cap buf).bind fun b => appendCors cap b corsOrigin) =
      if headerFieldHasCrlf corsOrigin = false then
        fits cap (buf ++ if corsOrigin = [] then []
          else ascii "Access-Control-Allow-Origin: " ++ corsOrigin ++ crlf ++
            if corsOrigin = ascii "*" then []
            else ascii "Vary: Origin" ++ crlf)
      else none := by
  by_cases hnil : corsOrigin = []
  · subst hnil
    simp only [appendCors, if_true, append_nil]
    exact Option.bind_fun_some _
  · by_cases hclean : headerFieldHasCrlf corsOrigin = false
    · simp only [appendCors, if_neg hnil, hclean, Bool.false_eq_true, if_false,
        if_true, bufAppendf_eq]
      exact fits_bind_fits
    · have hcrlf := (Bool.not_eq_false _).mp hclean
      simp only [appendCors, if_neg hnil, if_pos hcrlf, if_neg hclean]
      exact Option.bind_fun_none _

end Building

theorem headText_eq (env : SendEnv) (response : HttpResponse)
    (gzipped : Bool) (n : ℕ) (noBody : Bool) :
    (if response.version = [] then ascii "HTTP/1.1" else response.version) ++
      ascii " " ++ decimal response.status.code ++ ascii " " ++ response.status.reason ++ crlf ++
      ascii "Server: " ++ env.serverName ++ crlf ++
      ascii "Date: " ++ env.httpDate env.now ++ crlf ++ (if noBody = false then
        ascii "Content-Length: " ++ decimal n ++ crlf else []) ++
      (ascii "Connection: " ++ (if response.keepAlive = true then ascii "keep-alive"
          else ascii "close") ++ crlf) ++
      (if gzipped = true then
        ascii "Content-Encoding: gzip" ++ crlf ++ ascii "Vary: Accept-Encoding" ++ crlf else []) ++
      (if response.lastModified ≠ 0 then
        ascii "Last-Modified: " ++ env.httpDate response.lastModified ++ crlf
        else []) ++
      (if response.etag ≠ [] ∧ headerFieldHasCrlf response.etag = false then
        ascii "ETag: " ++ (if gzipped = true then ascii "W/" else []) ++
          response.etag ++ crlf else []) ++
      (response.headers.flatMap fun h => fieldLine h ++ crlf) ++
      (if response.corsOrigin = [] then []
        else ascii "Access-Control-Allow-Origin: " ++ response.corsOrigin ++
          crlf ++ if response.corsOrigin = ascii "*" then []
            else ascii "Vary: Origin" ++ crlf) ++ crlf =
      renderHead (headLines env response gzipped (if noBody then none else some n)) := by
  have hserver : ascii "Server: " = ascii "Server" ++ ascii ": " := rfl
  have hdate : ascii "Date: " = ascii "Date" ++ ascii ": " := rfl
  have hlength : ascii "Content-Length: " = ascii "Content-Length" ++ ascii ": " := rfl
  have hconnection : ascii "Connection: " = ascii "Connection" ++ ascii ": " := rfl
  have hencoding : ascii "Content-Encoding: gzip" =
      ascii "Content-Encoding" ++ ascii ": " ++ ascii "gzip" := rfl
  have hvary : ascii "Vary: Accept-Encoding" =
      ascii "Vary" ++ ascii ": " ++ ascii "Accept-Encoding" := rfl
  have hmodified : ascii "Last-Modified: " = ascii "Last-Modified" ++ ascii ": " := rfl
  have hetag : ascii "ETag: " = ascii "ETag" ++ ascii ": " := rfl
  have hcors : ascii "Access-Control-Allow-Origin: " =
      ascii "Access-Control-Allow-Origin" ++ ascii ": " := rfl
  have horigin : ascii "Vary: Origin" = ascii "Vary" ++ ascii ": " ++ ascii "Origin" := rfl
  rw [hserver, hdate, hlength, hconnection, hencoding, hvary, hmodified, hetag, hcors, horigin]
  simp only [renderHead, headLines, fieldLine, flatMap_append,
    flatMap_cons, flatMap_nil, append_assoc, append_nil,
    nil_append, flatMap_map, apply_ite (List.flatMap _), cons_append]
  cases noBody <;> simp

/-- What `build_response_headers` makes: the lines of the head, if they fit and
no field holds a line end. -/
theorem buildResponseHeaders_eq (env : SendEnv) (response : HttpResponse)
    (gzipped : Bool) (length : UInt64) (noBody : Bool) (cap : ℕ) :
    buildResponseHeaders env response gzipped length noBody cap =
      if CleanFields response then
        fits cap (renderHead (headLines env response gzipped
          (if noBody then none else some length.toNat)))
      else none := by
  simp only [buildResponseHeaders, bind, bufAppendf_eq, nil_append]
  rw [← Option.bind_assoc, fits_bind_bufAppendIf, ← Option.bind_assoc, fits_bind_fits,
    ← Option.bind_assoc, fits_bind_bufAppendIf, ← Option.bind_assoc, fits_bind_bufAppendIf,
    ← Option.bind_assoc, fits_bind_bufAppendIf, ← Option.bind_assoc, fits_bind_foldlM]
  by_cases hheaders : ∀ h ∈ response.headers,
      headerFieldHasCrlf h.1 = false ∧ headerFieldHasCrlf h.2 = false
  · rw [if_pos hheaders, ← Option.bind_assoc, fits_bind_appendCors]
    by_cases hcors : headerFieldHasCrlf response.corsOrigin = false
    · have hclean : CleanFields response := ⟨hheaders, hcors⟩
      rw [if_pos hcors, if_pos hclean, fits_bind_fits, headText_eq]
    · rw [if_neg hcors, if_neg fun h => hcors h.2]
      rfl
  · rw [if_neg hheaders, if_neg fun h => hheaders h.1]
    rfl

section Sending

variable {env : SendEnv} {conn conn' : SendConn} {response : HttpResponse}

/-- The head of the response as it goes out. -/
def sentHead (env : SendEnv) (conn : SendConn) (response : HttpResponse) : Bytes :=
  renderHead (headLines env response (outBody env conn response).2
    (if response.status = .notModified then none
    else some (contentLength env conn response).toNat))

theorem sendHttpResponse_eq (env : SendEnv) (conn : SendConn) (response : HttpResponse) :
    sendHttpResponse env conn response =
      if CleanFields response ∧ (sentHead env conn response).length < maxHeadersSize then
        (connReserveWrite env.reallocOk conn.writeBufferCap ((sentHead env conn response).length +
            (bodyInBuffer env conn response).length)).map fun cap =>
          conn.stage cap (sentHead env conn response ++ bodyInBuffer env conn response)
      else none := by
  have hlength : (if decide (response.status = .notModified) = true then none
      else some (contentLength env conn response).toNat) =
      (if response.status = .notModified then none
      else some (contentLength env conn response).toNat) := by
    simp only [decide_eq_true_eq]
  rw [sendHttpResponse, buildResponseHeaders_eq, hlength]
  change ((if CleanFields response then
    fits maxHeadersSize (sentHead env conn response) else none).bind _) = _
  by_cases hclean : CleanFields response
  · by_cases hfits : (sentHead env conn response).length < maxHeadersSize
    · rw [if_pos hclean, if_pos ⟨hclean, hfits⟩, fits, if_pos hfits, Option.bind_some]
      exact Option.map_eq_bind.symm
    · rw [if_pos hclean, if_neg fun h => hfits h.2, fits, if_neg hfits, Option.bind_none]
  · rw [if_neg hclean, if_neg fun h => hclean h.1, Option.bind_none]

/-- What a response that was accepted left on the connection. -/
theorem sendHttpResponse_eq_some (h : sendHttpResponse env conn response =
    some conn') : CleanFields response ∧
      (sentHead env conn response).length < maxHeadersSize ∧ ∃ cap,
      connReserveWrite env.reallocOk conn.writeBufferCap ((sentHead env conn response).length +
          (bodyInBuffer env conn response).length) = some cap ∧ conn' = conn.stage cap
        (sentHead env conn response ++ bodyInBuffer env conn response) := by
  rw [sendHttpResponse_eq] at h
  split_ifs at h with hok
  obtain ⟨cap, hcap, hconn⟩ := Option.map_eq_some_iff.mp h
  exact ⟨hok.1, hok.2, cap, hcap, hconn.symm⟩

theorem le_growLoop {need fuel : ℕ} : ∀ {cap : ℕ}, 0 < cap → need ≤ cap + fuel →
    need ≤ growLoop need fuel cap := by
  induction fuel with
  | zero => exact fun _ hle => hle
  | succ fuel ih =>
    intro cap hpos hle
    rw [growLoop]
    split
    · exact ih (by omega) (by omega)
    · omega

/-- With memory to be had, only the size limit is in the way. -/
theorem exists_connReserveWrite (cap : ℕ) {need : ℕ} (hneed : need ≤ maxResponseSize) :
    ∃ cap', connReserveWrite true cap need = some cap' := by
  have hgrown : need ≤ growTo cap need := by
    rw [growTo]
    apply le_growLoop
    · split
      · decide
      · omega
    · omega
  rw [connReserveWrite, if_neg (not_lt.mpr hneed), if_neg (by decide : ¬true = false)]
  dsimp only
  rw [if_pos (le_min hgrown hneed)]
  split <;> exact ⟨_, rfl⟩

theorem le_of_connReserveWrite {reallocOk : Bool} {cap need cap' : ℕ}
    (h : connReserveWrite reallocOk cap need = some cap') : need ≤ maxResponseSize := by
  rw [connReserveWrite] at h
  split_ifs at h with hbig
  all_goals exact not_lt.mp hbig

/-! ### Clean lines -/

theorem cleanText_append {a b : Bytes} : CleanText (a ++ b) ↔ CleanText a ∧ CleanText b := by
  simp only [CleanText, mem_append, not_or]
  tauto

theorem hasCrlf_eq_false_iff {field : Bytes} :
    headerFieldHasCrlf field = false ↔ CleanText field := by
  rw [headerFieldHasCrlf, any_eq_false]
  constructor
  · intro h
    exact ⟨fun hmem => h 13 hmem rfl, fun hmem => h 10 hmem rfl⟩
  · rintro ⟨hcr, hlf⟩ c hc heq
    rw [Bool.or_eq_true, beq_iff_eq, beq_iff_eq] at heq
    rcases heq with rfl | rfl
    · exact hcr hc
    · exact hlf hc

theorem cleanText_decimal (n : ℕ) : CleanText (decimal n) := by
  constructor
  · intro hmem
    exact absurd (isDigit_of_mem_decimal hmem) (by decide)
  · intro hmem
    exact absurd (isDigit_of_mem_decimal hmem) (by decide)

theorem cleanText_reason (status : HttpStatus) : CleanText status.reason := by
  cases status <;> decide

theorem cleanText_fieldLine {name value : Bytes} (hname : CleanText name)
    (hvalue : CleanText value) : CleanText (fieldLine (name, value)) := by
  rw [fieldLine, cleanText_append, cleanText_append]
  exact ⟨⟨hname, by decide⟩, hvalue⟩

/-- Version, server name and dates hold no line end. -/
structure CleanEnv (env : SendEnv) (response : HttpResponse) : Prop where
  version : CleanText response.version
  serverName : CleanText env.serverName
  httpDate : ∀ t, CleanText (env.httpDate t)

theorem cleanText_of_mem_headLines (henv : CleanEnv env response)
    (hfields : CleanFields response) {gzipped : Bool} {length : Option ℕ}
    {line : Bytes} (hline : line ∈ headLines env response gzipped length) : CleanText line := by
  simp only [headLines, mem_append] at hline
  rcases hline with
    (((((((hline | hline) | hline) | hline) | hline) | hline) | hline) | hline)
  · simp only [mem_cons, not_mem_nil, or_false] at hline
    rcases hline with rfl | rfl | rfl
    · have hversion : CleanText (if response.version = [] then
          ascii "HTTP/1.1" else response.version) := by
        split
        · decide
        · exact henv.version
      simp only [cleanText_append]
      exact ⟨⟨⟨⟨hversion, by decide⟩, cleanText_decimal _⟩, by decide⟩, cleanText_reason _⟩
    · exact cleanText_fieldLine (by decide) henv.serverName
    · exact cleanText_fieldLine (by decide) (henv.httpDate _)
  · obtain ⟨n, -, rfl⟩ := mem_map.mp hline
    exact cleanText_fieldLine (by decide) (cleanText_decimal n)
  · rw [mem_singleton.mp hline]
    apply cleanText_fieldLine (by decide)
    split <;> decide
  · split at hline
    · simp only [mem_cons, not_mem_nil, or_false] at hline
      rcases hline with rfl | rfl <;> decide
    · exact absurd hline not_mem_nil
  · split at hline
    · rw [mem_singleton.mp hline]
      exact cleanText_fieldLine (by decide) (henv.httpDate _)
    · exact absurd hline not_mem_nil
  · split at hline
    next hetag =>
      rw [mem_singleton.mp hline]
      apply cleanText_fieldLine (by decide)
      rw [cleanText_append]
      refine ⟨?_, hasCrlf_eq_false_iff.mp hetag.2⟩
      split <;> decide
    next => exact absurd hline not_mem_nil
  · obtain ⟨h, hmem, rfl⟩ := mem_map.mp hline
    exact cleanText_fieldLine (hasCrlf_eq_false_iff.mp (hfields.1 h hmem).1)
      (hasCrlf_eq_false_iff.mp (hfields.1 h hmem).2)
  · split at hline
    · exact absurd hline not_mem_nil
    · rcases mem_append.mp hline with hline | hline
      · rw [mem_singleton.mp hline]
        exact cleanText_fieldLine (by decide) (hasCrlf_eq_false_iff.mp hfields.2)
      · split at hline
        · exact absurd hline not_mem_nil
        · rw [mem_singleton.mp hline]
          decide

/-! ### The announced length -/

/-- The bytes of the queued file that the write path sends behind the buffer:
those of the window from `file_offset` to `file_size`, compared as `off_t`. -/
def SendConn.queuedLength (conn : SendConn) : ℕ :=
  if conn.streaming then
    (conn.fileSize.toInt64.toInt - conn.fileOffset.toInt).toNat
  else 0

/-- The unsigned difference is the length of the window unless the window is
turned around. -/
theorem toNat_sub_eq_iff (size : UInt64) (offset : Int64) :
    (size - offset.toUInt64).toNat = (size.toInt64.toInt - offset.toInt).toNat ↔
      offset.toInt ≤ size.toInt64.toInt := by
  have hsize : size.toInt64.toInt = size.toBitVec.toInt := rfl
  have hoffset : offset.toInt = offset.toUInt64.toBitVec.toInt := rfl
  rw [hsize, hoffset, UInt64.toNat_sub]
  generalize offset.toUInt64 = start
  have hsigned := BitVec.toInt_eq_toNat_cond size.toBitVec
  have hsigned' := BitVec.toInt_eq_toNat_cond start.toBitVec
  rw [UInt64.toNat_toBitVec] at hsigned hsigned'
  have hlt := size.toNat_lt
  have hlt' := start.toNat_lt
  omega

/-- The connection with the same request made by another method. -/
def SendConn.withMethod (conn : SendConn) (method : HttpMethod) : SendConn :=
  { conn with request := { conn.request with method := method } }

/-- The response on the connection is one message: a head of clean lines, then
the body.  The length that the head announces is that of the body which any
request but `HEAD` gets, in the buffer or from the queued file, and nothing
follows the head for `HEAD` and for `304`. -/
structure Delimited (env : SendEnv) (conn : SendConn)
    (response : HttpResponse) (conn' : SendConn) : Prop where
  staged : ∃ body, conn'.staged = sentHead env conn response ++ body ∧
    (body = [] ∨ body = (outBody env conn response).1)
  clean : ∀ line ∈ headLines env response (outBody env conn response).2
    (if response.status = .notModified then none
    else some (contentLength env conn response).toNat), CleanText line
  announced : response.status ≠ .notModified → ∀ method ≠ .head, ∀ other,
    sendHttpResponse env (conn.withMethod method) response = some other →
    other.staged.length + other.queuedLength = (sentHead env conn response).length +
        (contentLength env conn response).toNat
  bodiless : conn.request.method = .head ∨ response.status = .notModified →
    conn'.staged = sentHead env conn response ∧ conn'.queuedLength = 0

/-- A queued file does not go with a `304` that is not for `HEAD`, unless its
window is empty, and its window is not turned around. -/
def QueueFits (conn : SendConn) (response : HttpResponse) : Prop :=
  conn.streaming = true →
    if response.status = .notModified then
      conn.request.method = .head ∨ conn.queuedLength = 0
    else conn.fileOffset.toInt ≤ conn.fileSize.toInt64.toInt

theorem queuedLength_eq_zero (h : conn.streaming ≠ true) : conn.queuedLength = 0 :=
  if_neg h

theorem stage_kept (h : ¬(conn.streaming = true ∧ conn.request.method = .head)) (cap : ℕ)
    (bytes : Bytes) :
    (conn.stage cap bytes).fileFd = conn.fileFd ∧
      (conn.stage cap bytes).fileOffset = conn.fileOffset ∧
      (conn.stage cap bytes).fileSize = conn.fileSize :=
  ⟨if_neg h, if_neg h, if_neg h⟩

theorem queuedLength_stage (cap : ℕ) (bytes : Bytes) :
    (conn.stage cap bytes).queuedLength =
      if conn.request.method = .head then 0 else conn.queuedLength := by
  by_cases hreleased : conn.streaming = true ∧ conn.request.method = .head
  · have hfd : (conn.stage cap bytes).fileFd = -1 := if_pos hreleased
    rw [if_pos hreleased.2]
    apply queuedLength_eq_zero
    rw [SendConn.streaming, hfd]
    decide
  · obtain ⟨hfd, hoffset, hsize⟩ := stage_kept hreleased cap bytes
    have hkept : (conn.stage cap bytes).queuedLength = conn.queuedLength := by
      rw [SendConn.queuedLength, SendConn.queuedLength, SendConn.streaming,
        SendConn.streaming, hfd, hoffset, hsize]
    rw [hkept]
    by_cases hhead : conn.request.method = .head
    · rw [if_pos hhead]
      exact queuedLength_eq_zero fun hqueued => hreleased ⟨hqueued, hhead⟩
    · rw [if_neg hhead]

theorem outBody_withMethod (method : HttpMethod) :
    outBody env (conn.withMethod method) response = outBody env conn response := rfl

theorem contentLength_withMethod (method : HttpMethod) :
    contentLength env (conn.withMethod method) response = contentLength env conn response := rfl

theorem sentHead_withMethod (method : HttpMethod) :
    sentHead env (conn.withMethod method) response = sentHead env conn response := by
  rw [sentHead, sentHead, outBody_withMethod, contentLength_withMethod]

theorem length_of_send {method : HttpMethod} (hmethod : method ≠ .head)
    {other : SendConn} (hstatus : response.status ≠ .notModified)
    (h : sendHttpResponse env (conn.withMethod method) response = some other) :
    other.staged.length + other.queuedLength = (sentHead env conn response).length +
          (if conn.streaming then conn.queuedLength
          else (outBody env conn response).1.length) ∧
      (conn.streaming = false → (outBody env conn response).1.length ≤ maxResponseSize) := by
  obtain ⟨-, -, cap, hcap, rfl⟩ := sendHttpResponse_eq_some h
  have hqueue : ((conn.withMethod method).stage cap (sentHead env conn response ++
        bodyInBuffer env (conn.withMethod method) response)).queuedLength =
      conn.queuedLength := by
    rw [queuedLength_stage]
    exact if_neg hmethod
  have hstaged : ((conn.withMethod method).stage cap (sentHead env conn response ++
        bodyInBuffer env (conn.withMethod method) response)).staged.length =
      (sentHead env conn response).length +
        (bodyInBuffer env (conn.withMethod method) response).length := length_append
  rw [sentHead_withMethod, hstaged, hqueue]
  by_cases hqueued : conn.streaming = true
  · have hbody : bodyInBuffer env (conn.withMethod method) response = [] := if_pos (.inl hqueued)
    rw [hbody, if_pos hqueued]
    exact ⟨rfl, fun hidle => absurd (hqueued.symm.trans hidle) (by decide)⟩
  · have hbody : bodyInBuffer env (conn.withMethod method) response =
        (outBody env conn response).1 :=
      if_neg fun hor => hor.elim hqueued fun hor => hor.elim hstatus hmethod
    rw [hbody, if_neg hqueued, queuedLength_eq_zero hqueued]
    rw [sentHead_withMethod, hbody] at hcap
    exact ⟨rfl, fun _ => le_trans (Nat.le_add_left _ _) (le_of_connReserveWrite hcap)⟩

theorem exists_send_get (hqueued : conn.streaming = true)
    (h : sendHttpResponse env conn response = some conn') :
    ∃ other, sendHttpResponse env (conn.withMethod .get) response = some other := by
  obtain ⟨hclean, hfits, cap, hcap, -⟩ := sendHttpResponse_eq_some h
  have hbody : bodyInBuffer env conn response = [] := if_pos (.inl hqueued)
  have hbody' : bodyInBuffer env (conn.withMethod .get) response = [] := if_pos (.inl hqueued)
  have hcap' : (conn.withMethod .get).writeBufferCap =
      conn.writeBufferCap := rfl
  rw [hbody] at hcap
  rw [sendHttpResponse_eq, sentHead_withMethod, hbody', hcap', if_pos ⟨hclean, hfits⟩, hcap]
  exact ⟨_, rfl⟩

theorem toNat_contentLength_of_streaming (hqueued : conn.streaming = true) :
    (contentLength env conn response).toNat = conn.queuedLength ↔
      conn.fileOffset.toInt ≤ conn.fileSize.toInt64.toInt := by
  rw [contentLength, if_pos hqueued, SendConn.queuedLength, if_pos hqueued]
  exact toNat_sub_eq_iff _ _

/-- A response that `send_http_response` accepts is a delimited message exactly
when the queued file, if there is one, fits it. -/
theorem response_delimited_iff (env : SendEnv) (conn : SendConn)
    (response : HttpResponse) (henv : CleanEnv env response)
    (conn' : SendConn)
    (h : sendHttpResponse env conn response = some conn') :
    Delimited env conn response conn' ↔ QueueFits conn response := by
  constructor
  · intro hdelimited hqueued
    by_cases hstatus : response.status = .notModified
    · rw [if_pos hstatus]
      have hnone := (hdelimited.bodiless (.inr hstatus)).2
      obtain ⟨-, -, cap, -, rfl⟩ := sendHttpResponse_eq_some h
      rw [queuedLength_stage] at hnone
      by_cases hhead : conn.request.method = .head
      · exact .inl hhead
      · rw [if_neg hhead] at hnone
        exact .inr hnone
    · rw [if_neg hstatus]
      obtain ⟨other, hother⟩ := exists_send_get hqueued h
      have hannounced := hdelimited.announced hstatus .get (by decide) other hother
      rw [(length_of_send (by decide) hstatus hother).1, if_pos hqueued]
        at hannounced
      exact (toNat_contentLength_of_streaming hqueued).mp (Nat.add_left_cancel hannounced).symm
  · intro hfits
    obtain ⟨hclean, -, cap, -, rfl⟩ := sendHttpResponse_eq_some h
    constructor
    · refine ⟨bodyInBuffer env conn response, rfl, ?_⟩
      rw [bodyInBuffer]
      split
      · exact .inl rfl
      · exact .inr rfl
    · intro line hline
      exact cleanText_of_mem_headLines henv hclean hline
    · intro hstatus method hmethod other hother
      obtain ⟨hlength, hsmall⟩ := length_of_send hmethod hstatus hother
      rw [hlength]
      by_cases hqueued : conn.streaming = true
      · have hwindow := hfits hqueued
        rw [if_neg hstatus] at hwindow
        rw [if_pos hqueued, (toNat_contentLength_of_streaming hqueued).mpr hwindow]
      · have hbound := hsmall (Bool.eq_false_iff.mpr hqueued)
        rw [if_neg hqueued, contentLength, if_neg hqueued, UInt64.toNat_ofNat_of_lt']
        exact lt_of_le_of_lt hbound (by decide)
    · intro hbodiless
      have hbody : bodyInBuffer env conn response = [] := by
        rw [bodyInBuffer, if_pos]
        exact .inr hbodiless.symm
      refine ⟨?_, ?_⟩
      · show sentHead env conn response ++ bodyInBuffer env conn response = _
        rw [hbody, append_nil]
      · rw [queuedLength_stage]
        by_cases hhead : conn.request.method = .head
        · rw [if_pos hhead]
        · rw [if_neg hhead]
          by_cases hqueued : conn.streaming = true
          · have hempty := hfits hqueued
            rw [if_pos (hbodiless.resolve_left hhead)] at hempty
            exact hempty.resolve_left hhead
          · exact queuedLength_eq_zero hqueued

end Sending

/-! ### Two responses -/

/-- An environment without compression. -/
def plainEnv : SendEnv where
  now := 0
  httpDate _ := ascii "Thu, 01 Jan 1970 00:00:00 GMT"
  serverName := ascii "Codo"
  gzip _ := none
  reallocOk := true

/-- A connection with a request by `GET` and, if `fd` is not negative, the first
ten bytes of a file queued. -/
def getConn (fd : ℤ) : SendConn where
  request := .zero
  fileFd := fd
  fileOffset := 0
  fileSize := 10
  staged := []
  writeBufferCap := 8192
  writeBufferPos := 0
  writing := false

def textResponse (status : HttpStatus) : HttpResponse where
  status := status
  headers := [(ascii "Content-Type", ascii "text/plain")]
  body := ascii "hi"
  keepAlive := true
  corsOrigin := []
  version := ascii "HTTP/1.1"
  gzipCompressed := false
  lastModified := 0
  etag := []

theorem cleanEnv_plainEnv (status : HttpStatus) : CleanEnv plainEnv (textResponse status) :=
  ⟨show CleanText (ascii "HTTP/1.1") by decide,
    show CleanText (ascii "Codo") by decide,
    fun _ => show CleanText (ascii "Thu, 01 Jan 1970 00:00:00 GMT") by decide⟩

theorem response_delimited_iff_text :
    ∃ conn', sendHttpResponse plainEnv (getConn (-1)) (textResponse .ok) =
        some conn' ∧
      QueueFits (getConn (-1)) (textResponse .ok) ∧
      Delimited plainEnv (getConn (-1)) (textResponse .ok) conn' := by
  have hsend : sendHttpResponse plainEnv (getConn (-1)) (textResponse .ok) =
      some ((getConn (-1)).stage 8192 (sentHead plainEnv (getConn (-1))
        (textResponse .ok) ++ ascii "hi")) := by decide +kernel
  have hfits : QueueFits (getConn (-1)) (textResponse .ok) :=
    fun hstreaming => absurd hstreaming (by decide)
  exact ⟨_, hsend, hfits, (response_delimited_iff _ _ _ (cleanEnv_plainEnv .ok) _ hsend).mpr hfits⟩

/-- A `304` leaves a queued file queued, and its bytes follow the head. -/
theorem response_undelimited :
    ∃ conn', sendHttpResponse plainEnv (getConn 5) (textResponse .notModified) =
        some conn' ∧
      conn'.queuedLength = 10 ∧
      ¬ Delimited plainEnv (getConn 5) (textResponse .notModified) conn' := by
  have hsend : sendHttpResponse plainEnv (getConn 5)
      (textResponse .notModified) = some ((getConn 5).stage 8192
        (sentHead plainEnv (getConn 5) (textResponse .notModified))) := by
    decide +kernel
  have hqueue : ((getConn 5).stage 8192 (sentHead plainEnv (getConn 5)
      (textResponse .notModified))).queuedLength = 10 := by
    decide +kernel
  refine ⟨_, hsend, hqueue, fun hdelimited => ?_⟩
  have hnone := (hdelimited.bodiless (.inr rfl)).2
  rw [hqueue] at hnone
  exact absurd hnone (by decide)

end Codo.Common
