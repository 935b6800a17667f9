import Codo.Server.ProxyHeader
import Codo.Server.Pipelining
import Codo.Server.WebSocket
import Codo.Support.Outlet

/-!
# A connection of a worker

A worker answers the requests of a connection one after the other.  Readable
bytes are collected until a request is complete, a handler stages the response,
and the socket is armed for writing until the response is out.  A handler that
blocks runs on a thread of the storage pool, which owns the connection meanwhile.
After a WebSocket handshake the connection carries frames instead.

`epoll` is armed for input, for output, or for neither, so an event reports one
of the two at most.  What the calls of a handler return is given with its event.
A connection is modelled with the bytes written to its socket, the requests that
were taken from it, and the responses and frames that were staged for it.
-/

namespace Codo.Server

open Support Common List

/-! ## Connections -/

/-- The states of `connection_state_t` that the worker uses. -/
inductive ConnState
  | readingRequest
  | processing
  | writingResponse
  | websocket
  deriving DecidableEq, Repr

inductive Armed
  | input
  | output
  | parked
  deriving DecidableEq, Repr

/-- The settings of the server, and the functions that read texts. -/
structure ServerConfig where
  maxRequestSize : ℕ
  trustProxyProtocol : Bool
  enableKeepalive : Bool
  addressText : AddressText
  httpDate : Bytes → ℤ

structure ServerConn where
  state : ConnState
  read : Bytes
  readCap : ℕ
  write : Outlet
  writeCap : ℕ
  /-- The window of the queued file, with what is streamed of it. -/
  file : Option Outlet
  clientAddr : SockAddr
  proxyHeaderDone : Bool
  continuePos : ℕ
  continueSent : Bool
  request : Request
  response : Response
  handshakeComplete : Bool
  closing : Bool
  offloaded : Bool
  armed : Armed
  closed : Bool
  sent : Bytes
  /-- The requests taken from the stream; `none` for one that was refused. -/
  taken : List (Option Request)
  responses : List Bytes
  frames : List Bytes

/-- A connection as `handle_new_connection` registers it. -/
def newServerConn (clientAddr : SockAddr) (response : Response) : ServerConn where
  state := .readingRequest
  read := []
  readCap := connReadBufferMin
  write := ⟨[], 0⟩
  writeCap := 0
  file := none
  clientAddr := clientAddr
  proxyHeaderDone := false
  continuePos := 0
  continueSent := false
  request := .zero
  response := response
  handshakeComplete := false
  closing := false
  offloaded := false
  armed := .input
  closed := false
  sent := []
  taken := []
  responses := []
  frames := []

def dropConnection (conn : ServerConn) : ServerConn :=
  { conn with closed := true }

/-- `arm_socket` and the return of its caller: a failure tears the connection
down. -/
def armSocket (armOk : Bool) (armed : Armed) (conn : ServerConn) : ServerConn :=
  if armOk then { conn with armed := armed } else dropConnection conn

/-! ## Responses -/

/-- The bytes of the response in the write buffer and the queued file. -/
def ServerConn.staged (conn : ServerConn) : Bytes :=
  conn.write.bytes ++ (conn.file.elim [] Outlet.bytes)

/-- The response is ready to be written. -/
def stageResponse (conn : ServerConn) : ServerConn :=
  { conn with
    state := .writingResponse
    responses := conn.responses ++ [conn.staged] }

def finalizeResponse (armOk : Bool) (conn : ServerConn) : ServerConn :=
  armSocket armOk .output (stageResponse conn)

/-- The fields that `send_http_response` uses.  Nothing of a queued file is
streamed yet. -/
def ServerConn.toSend (conn : ServerConn) : SendConn where
  request := conn.request
  fileFd := if conn.file.isSome then 0 else -1
  fileOffset := 0
  fileSize := UInt64.ofNat (conn.file.elim 0 fun file => file.bytes.length)
  staged := conn.write.bytes
  writeBufferCap := conn.writeCap
  writeBufferPos := conn.write.sent
  writing := conn.state = .writingResponse

def sendErrorResponse (env : SendEnv) (status : HttpStatus) (message : Bytes)
    (conn : ServerConn) : ServerConn :=
  let response := conn.response.sendErrorResponse status message
  let conn := { conn with response := response }
  -- The version and the validators are set here, and nothing sets `gzip_compressed`.
  match sendHttpResponse env conn.toSend ⟨response, ascii "HTTP/1.1", false, 0, []⟩ with
  | none => conn
  | some out =>
    { conn with
      write := ⟨out.staged, 0⟩
      writeCap := out.writeBufferCap
      file := if out.streaming then conn.file else none }

def rejectRequest (env : SendEnv) (armOk : Bool) (status : HttpStatus)
    (message : Bytes) (conn : ServerConn) : ServerConn :=
  let conn := sendErrorResponse env status message conn
  finalizeResponse armOk { conn with read := [], taken := conn.taken ++ [none] }

/-- What the middlewares and the handler of a request leave behind. -/
structure HandlerOutcome where
  rc : ℤ
  staged : Bytes
  writeCap : ℕ
  file : Option Bytes
  response : Response
  handshake : Bool

/-- Run the handler, with an error response if it failed without one. -/
def runHandler (env : SendEnv) (outcome : HandlerOutcome) (conn : ServerConn) : ServerConn :=
  let conn :=
    { conn with
      write := ⟨outcome.staged, 0⟩
      writeCap := outcome.writeCap
      file := outcome.file.map (⟨·, 0⟩)
      response := outcome.response
      handshakeComplete := conn.handshakeComplete || outcome.handshake
      closing := conn.closing && !outcome.handshake }
  if outcome.rc ≠ 0 ∧ outcome.staged = [] then
    sendErrorResponse env .internalServerError (ascii "Handler error") conn
  else conn

/-- The part of `run_offloaded_handler` that works on the connection. -/
def runOffloadedHandler (env : SendEnv) (outcome : HandlerOutcome)
    (conn : ServerConn) : ServerConn :=
  { stageResponse (runHandler env outcome conn) with
    offloaded := false
    armed := .output }

/-! ## Reading -/

inductive RecvResult
  | bytes (bytes : Bytes)
  | wouldBlock
  | peerClosed
  | failed
  deriving DecidableEq

/-- A call of `conn_recv`, and whether the allocator would grow the buffer
before it. -/
structure Recv where
  reallocOk : Bool
  result : RecvResult
  deriving DecidableEq

/-- The read buffer after `drain_socket_reads`, and its results. -/
structure SocketReads where
  read : Bytes
  readCap : ℕ
  bufferFull : Bool
  peerClosed : Bool
  failed : Bool

/-- Read until the socket would block; once the results are used up it does, and
the allocator succeeds. -/
def drainSocketReads (maxRequestSize : ℕ) :
    List Recv → Bytes → ℕ → SocketReads
  | [], read, readCap =>
    if readCap - 1 ≤ read.length then
      if readCap * 2 ≤ maxRequestSize then
        ⟨read, readCap * 2, false, false, false⟩
      else ⟨read, readCap, true, false, false⟩
    else ⟨read, readCap, false, false, false⟩
  | recv :: recvs, read, readCap =>
    let full := readCap - 1 ≤ read.length
    let grows := readCap * 2 ≤ maxRequestSize ∧ recv.reallocOk
    if full ∧ ¬grows then ⟨read, readCap, true, false, false⟩
    else
      let readCap := if full then readCap * 2 else readCap
      match recv.result with
      | .bytes bytes =>
        drainSocketReads maxRequestSize recvs
          (read ++ bytes.take (readCap - read.length - 1)) readCap
      | .wouldBlock => ⟨read, readCap, false, false, false⟩
      | .peerClosed => ⟨read, readCap, false, decide (read ≠ []), decide (read = [])⟩
      | .failed => ⟨read, readCap, false, false, true⟩

/-- `"HTTP/1.1 100 Continue\r\n\r\n"`. -/
def interimLine : Bytes :=
  ascii "HTTP/1.1 100 Continue\r\n\r\n"

/-- The connection after a call of `send_100_continue`, and whether it
succeeded. -/
def send100Continue (sends : List SendResult) (conn : ServerConn) : ServerConn × Bool :=
  let drained := (Outlet.mk interimLine conn.continuePos).drain sends
  let conn :=
    { conn with
      continuePos := drained.outlet.sent
      sent := conn.sent ++ drained.written }
  match drained.outcome with
  | .drained => ({ conn with continueSent := true }, true)
  | .blocked => (conn, true)
  | .failed => (conn, false)

/-- How a request is handled: by no handler, by one that runs here, or by one
that the storage pool accepted. -/
inductive Dispatch
  | noHandler
  | inline (outcome : HandlerOutcome)
  | offload

/-- What the calls made by `handle_client_data` return.  `allocs` is for the
frames it stages. -/
structure DataInput where
  buffersOk : Bool
  recvs : List Recv
  sends : List SendResult
  bodyOk : Bool
  env : SendEnv
  allocs : List Bool
  dispatch : Dispatch
  armOk : Bool

/-! ## Requests -/

/-- The part of `handle_client_data` behind the framing. -/
def processRequest (cfg : ServerConfig) (input : DataInput) (requestLen : ℕ)
    (conn : ServerConn) : ServerConn :=
  let parsed := parseHttpRequest cfg.httpDate input.bodyOk conn.request conn.read requestLen
  let conn := { conn with state := .processing, request := parsed.request }
  if parsed.rc = -2 then
    rejectRequest input.env input.armOk .internalServerError (ascii "Internal Server Error") conn
  else if parsed.rc ≠ 0 then
    rejectRequest input.env input.armOk .badRequest (ascii "Bad Request") conn
  else
    let conn :=
      { conn with
        read := connConsumeRead parsed.buffer requestLen
        taken := conn.taken ++ [some parsed.request] }
    match input.dispatch with
    | .noHandler =>
      finalizeResponse input.armOk (sendErrorResponse input.env .notFound (ascii "Not Found") conn)
    | .inline outcome => finalizeResponse input.armOk (runHandler input.env outcome conn)
    | .offload => { conn with offloaded := true, armed := .parked }

/-- The part of `handle_client_data` behind the reads and the PROXY header. -/
def handleBuffered (cfg : ServerConfig) (input : DataInput)
    (bufferFull peerClosed : Bool) (conn : ServerConn) : ServerConn :=
  let frame := checkRequestFrame cfg.maxRequestSize conn.read
  if frame.rc = 0 then
    if bufferFull then
      rejectRequest input.env input.armOk .payloadTooLarge (ascii "Request too large") conn
    else if peerClosed then dropConnection conn
    else if frame.expect100 ∧ conn.continueSent = false then
      let (conn, ok) := send100Continue input.sends conn
      if ok then conn else dropConnection conn
    else conn
  else if frame.rc = -2 then
    rejectRequest input.env input.armOk .notImplemented (ascii "Unsupported Transfer-Encoding") conn
  else if frame.rc = -3 then
    rejectRequest input.env input.armOk .payloadTooLarge (ascii "Request too large") conn
  else if frame.rc < 0 then
    rejectRequest input.env input.armOk .badRequest (ascii "Bad Request") conn
  else if 0 < conn.continuePos ∧ conn.continueSent = false then
    let (conn, ok) := send100Continue input.sends conn
    if ok ∧ conn.continueSent then
      processRequest cfg input frame.requestLen conn
    else dropConnection conn
  else processRequest cfg input frame.requestLen conn

/-- A full buffer is decoded before the next read. -/
def decodeFull (cap : ℕ) (read : Bytes) (write : WriteBuffer) : WsBuffers :=
  if cap - 1 ≤ read.length then wsProcessFrames cap read write
  else ⟨read, write, false⟩

/-- The loop of `handle_websocket_data`: the buffers, and whether to shut down;
`none` if a read fails. -/
def websocketLoop (cap : ℕ) :
    List RecvResult → Bytes → WriteBuffer → Option WsBuffers
  | recvs, read, write =>
    let pass := decodeFull cap read write
    if pass.shouldClose ∨ cap - 1 ≤ pass.read.length then
      some { pass with shouldClose := true }
    else
      match recvs with
      | [] | .wouldBlock :: _ => some (wsProcessFrames cap pass.read pass.write)
      | .bytes bytes :: recvs =>
        websocketLoop cap recvs (pass.read ++ bytes.take (cap - pass.read.length - 1)) pass.write
      | .peerClosed :: _ | .failed :: _ => none

def handleWebsocketData (input : DataInput) (conn : ServerConn) : ServerConn :=
  match websocketLoop conn.readCap (input.recvs.map Recv.result) conn.read
      ⟨conn.write.bytes, conn.writeCap, input.allocs⟩ with
  | none => dropConnection conn
  | some after =>
    let conn :=
      { conn with
        read := after.read
        write := ⟨after.write.bytes, 0⟩
        writeCap := after.write.cap }
    if after.write.bytes ≠ [] then
      armSocket input.armOk .output
        { conn with
          closing := after.shouldClose
          state := .writingResponse
          frames := conn.frames ++ [after.write.bytes] }
    else if after.shouldClose then dropConnection conn
    else conn

def handleClientData (cfg : ServerConfig) (input : DataInput) (conn : ServerConn) : ServerConn :=
  if input.buffersOk = false then dropConnection conn
  else if conn.state = .websocket then handleWebsocketData input conn
  else
    let reads := drainSocketReads cfg.maxRequestSize input.recvs conn.read conn.readCap
    let conn := { conn with read := reads.read, readCap := reads.readCap }
    if reads.failed then dropConnection conn
    else if cfg.trustProxyProtocol ∧ conn.proxyHeaderDone = false then
      let proxy := consumeProxyHeader cfg.addressText conn.read conn.clientAddr
      if proxy.result < 0 then dropConnection conn
      else if proxy.result = 0 then
        if reads.peerClosed then dropConnection conn else conn
      else
        handleBuffered cfg input reads.bufferFull reads.peerClosed
          { conn with
            read := proxy.buf
            clientAddr := proxy.clientAddr
            proxyHeaderDone := true }
    else handleBuffered cfg input reads.bufferFull reads.peerClosed conn

/-! ## Writing -/

/-- What the calls made by `handle_client_write` return; `next` is for the
request that is already in the buffer. -/
structure WriteInput where
  sends : List SendResult
  fileSends : List SendResult
  shrinkOk : Bool
  armOk : Bool
  next : DataInput

def resetForNextRequest (shrinkOk : Bool) (conn : ServerConn) : ServerConn :=
  { conn with
    state := .readingRequest
    write := ⟨[], 0⟩
    continuePos := 0
    continueSent := false
    request := .zero
    response :=
      { conn.response with
        headers := [], body := [], keepAlive := false, corsOrigin := [] }
    -- `conn_release_idle` frees one buffer, and hands back what the other grew by.
    writeCap := if conn.read = [] then 0 else conn.writeCap
    readCap :=
      if conn.read = [] ∧ shrinkOk then min conn.readCap connReadBufferMin
      else conn.readCap }

/-- The part of `handle_client_write` behind the last byte of the response. -/
def responseWritten (cfg : ServerConfig) (input : WriteInput) (conn : ServerConn) : ServerConn :=
  if conn.handshakeComplete then
    if conn.closing then dropConnection conn
    else
      armSocket input.armOk .input { conn with state := .websocket, write := ⟨[], 0⟩ }
  else if ¬(conn.request.keepAlive ∧ conn.response.keepAlive ∧
      cfg.enableKeepalive) then dropConnection conn
  else
    let conn := armSocket input.armOk .input (resetForNextRequest input.shrinkOk conn)
    if conn.closed = false ∧ conn.read ≠ [] then
      handleClientData cfg input.next conn
    else conn

def handleClientWrite (cfg : ServerConfig) (input : WriteInput) (conn : ServerConn) : ServerConn :=
  if conn.state ≠ .writingResponse then dropConnection conn
  else
    let flushed := conn.write.drain input.sends
    let conn :=
      { conn with
        write := flushed.outlet
        sent := conn.sent ++ flushed.written }
    match flushed.outcome with
    | .blocked => conn
    | .failed => dropConnection conn
    | .drained =>
      match conn.file with
      | none => responseWritten cfg input conn
      | some file =>
        let streamed := file.drain input.fileSends
        let conn :=
          { conn with
            file := some streamed.outlet
            sent := conn.sent ++ streamed.written }
        match streamed.outcome with
        | .blocked => conn
        | .failed => dropConnection conn
        | .drained => responseWritten cfg input { conn with file := none }

/-! ## Steps -/

/-- What can happen to a connection.  A hangup, the idle sweep and the end of
the worker all drop it. -/
inductive ServerEvent
  | readable (input : DataInput)
  | writable (input : WriteInput)
  | poolDone (env : SendEnv) (outcome : HandlerOutcome)
  | dropped

def ServerEvent.Enabled (conn : ServerConn) : ServerEvent → Prop
  | readable _ => conn.offloaded = false ∧ conn.armed = .input
  | writable _ => conn.offloaded = false ∧ conn.armed = .output
  | poolDone _ _ => conn.offloaded = true
  | dropped => conn.offloaded = false

def serverStep (cfg : ServerConfig) (conn : ServerConn) :
    ServerEvent → ServerConn
  | .readable input => handleClientData cfg input conn
  | .writable input => handleClientWrite cfg input conn
  | .poolDone env outcome => runOffloadedHandler env outcome conn
  | .dropped => dropConnection conn

/-- A step of a connection that is not torn down. -/
inductive ServerStep (cfg : ServerConfig) : ServerConn → ServerConn → Prop
  | event {conn : ServerConn} (event : ServerEvent) :
      conn.closed = false → event.Enabled conn → ServerStep cfg conn (serverStep cfg conn event)

section Parts

variable (env : SendEnv) (conn : ServerConn)

theorem sendErrorResponse_eq (status : HttpStatus) (message : Bytes) :
    ∃ response write writeCap file, sendErrorResponse env status message conn =
        { conn with
          response := response
          write := write
          writeCap := writeCap
          file := file } ∧
      (write = conn.write ∨ write.sent = 0) ∧ (file = conn.file ∨ file = none) := by
  rw [sendErrorResponse]
  dsimp only
  split
  · exact ⟨_, _, _, _, rfl, .inl rfl, .inl rfl⟩
  · refine ⟨_, _, _, _, rfl, .inr rfl, ?_⟩
    split
    · exact .inl rfl
    · exact .inr rfl

theorem runHandler_eq (outcome : HandlerOutcome) :
    ∃ response write writeCap file, runHandler env outcome conn =
        { conn with
          response := response
          write := write
          writeCap := writeCap
          file := file
          handshakeComplete := conn.handshakeComplete || outcome.handshake
          closing := conn.closing && !outcome.handshake } ∧
      write.sent = 0 ∧ ∀ f ∈ file, f.sent = 0 := by
  have hfresh : ∀ f ∈ outcome.file.map (Outlet.mk · 0), f.sent = 0 := by
    intro f hf
    obtain ⟨bytes, _, rfl⟩ := Option.map_eq_some_iff.mp hf
    rfl
  rw [runHandler]
  split
  · obtain ⟨response, write, writeCap, file, heq, hwrite, hfile⟩ := sendErrorResponse_eq env
        { conn with
          write := ⟨outcome.staged, 0⟩
          writeCap := outcome.writeCap
          file := outcome.file.map (⟨·, 0⟩)
          response := outcome.response
          handshakeComplete := conn.handshakeComplete || outcome.handshake
          closing := conn.closing && !outcome.handshake }
        .internalServerError (ascii "Handler error")
    refine ⟨response, write, writeCap, file, heq, ?_, ?_⟩
    · rcases hwrite with rfl | hwrite
      · rfl
      · exact hwrite
    · rcases hfile with rfl | rfl
      · exact hfresh
      · exact nofun
  · exact ⟨_, _, _, _, rfl, rfl, hfresh⟩

theorem send100Continue_eq (sends : List SendResult) :
    ∃ pos written continueSent, (send100Continue sends conn).1 =
        { conn with
          continuePos := pos
          sent := conn.sent ++ written
          continueSent := continueSent } ∧
      interimLine.take conn.continuePos ++ written = interimLine.take pos ∧
      (continueSent → conn.continueSent ∨ interimLine.length ≤ pos) := by
  have hbytes := Outlet.drain_bytes ⟨interimLine, conn.continuePos⟩ sends
  have hspec := Outlet.drain_spec ⟨interimLine, conn.continuePos⟩ sends
  rw [send100Continue]
  generalize Outlet.drain ⟨interimLine, conn.continuePos⟩ sends = drained at hbytes hspec
  have hrest : drained.outlet.rest = interimLine.drop drained.outlet.sent := by
    rw [Outlet.rest, hbytes]
  have htake : interimLine.take conn.continuePos ++ drained.written =
      interimLine.take drained.outlet.sent := by
    have hall := hspec.conserved
    rw [hrest, Outlet.rest] at hall
    refine (append_left_inj (interimLine.drop drained.outlet.sent)).mp ?_
    rw [append_assoc, hall, take_append_drop, take_append_drop]
  split
  case h_1 houtcome =>
    refine ⟨_, _, _, rfl, htake, fun _ => .inr ?_⟩
    have hnil := hspec.drained_rest houtcome
    rw [hrest] at hnil
    exact drop_eq_nil_iff.mp hnil
  case h_2 => exact ⟨_, _, _, rfl, htake, .inl⟩
  case h_3 => exact ⟨_, _, _, rfl, htake, .inl⟩

end Parts

/-! ## A server without a proxy -/

def plainConfig : ServerConfig where
  maxRequestSize := 1048576
  trustProxyProtocol := false
  enableKeepalive := true
  addressText := dottedText
  httpDate _ := 0

def blankResponse : Response := ⟨.ok, [], [], false, []⟩

/-- A read of `bytes`, the results of the writes that it leads to, and how the
request is handled. -/
def arrival (bytes : Bytes) (sends : List SendResult) (dispatch : Dispatch) : ServerEvent :=
  .readable ⟨true, [⟨true, .bytes bytes⟩], sends, true, plainEnv, [], dispatch, true⟩

theorem arrival_ne_writable {bytes : Bytes} {sends : List SendResult}
    {dispatch : Dispatch} {input : WriteInput} :
    arrival bytes sends dispatch ≠ .writable input := by
  rw [arrival]
  exact nofun

def departure (sends : List SendResult) : ServerEvent :=
  .writable ⟨sends, [], true, true, ⟨true, [], [], true, plainEnv, [], .noHandler, true⟩⟩

theorem departure_ne_readable {sends : List SendResult} {input : DataInput} :
    departure sends ≠ .readable input := by
  rw [departure]
  exact nofun

end Codo.Server
