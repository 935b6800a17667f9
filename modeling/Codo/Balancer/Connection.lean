import Codo.Support.Outlet
import Mathlib.Data.List.Nodup

/-!
# Relaying a connection

The balancer joins a client and a backend.  Each direction has one chunk buffer
that is read into, drained into the other socket, and read into again; a PROXY
header is drained to the backend before anything else.  A side is read only
when its buffer is empty, which the balancer sees to by asking `epoll` for
readability only then.

`epoll_wait` hands out a batch of events that reports what was asked for when
the batch was collected.  Events are dispatched one by one, and a handler may
change what is asked for, or close the connection, before the rest of its batch
is dispatched.

A connection is modelled with the bytes that were read from and written to its
sockets, the health marks given to its backend, and the reason it was closed.
-/

namespace Codo.Balancer

open Support Bool List

/-! ## Connections -/

def lbBufferSize : ℕ := 8192

/-- The side of a connection a descriptor belongs to. -/
inductive IoRole
  | client
  | backend
  deriving DecidableEq, Repr

/-- What `epoll` is asked to report for a descriptor. -/
structure Interest where
  readable : Bool
  writable : Bool
  deriving DecidableEq

/-- What one non-blocking `read` does; no bytes are the end of the stream. -/
inductive ReadResult
  | bytes (bytes : Bytes)
  | wouldBlock
  | failed
  deriving DecidableEq

inductive HealthMark
  | success
  | failure
  deriving DecidableEq, Repr

inductive CloseCause
  | clientReadFailed
  | clientWriteFailed
  | backendEof
  | backendReadFailed
  | backendWriteFailed
  | hangup (role : IoRole)
  deriving DecidableEq, Repr

/-- The cause is the end of the backend's side. -/
def CloseCause.BackendEnded : CloseCause → Prop
  | backendEof | backendReadFailed | backendWriteFailed => True
  | hangup role => role = .backend
  | clientReadFailed | clientWriteFailed => False

structure LbConnection where
  proxyHdr : Outlet
  clientBuffer : Outlet
  backendBuffer : Outlet
  clientInterest : Interest
  backendInterest : Interest
  clientEof : Bool
  closed : Bool
  fromClient : Bytes
  fromBackend : Bytes
  toClient : Bytes
  toBackend : Bytes
  marks : List HealthMark
  cause : Option CloseCause

namespace LbConnection

/-- The buffer that bytes read from a side are put into. -/
def readBuffer (conn : LbConnection) : IoRole → Outlet
  | .client => conn.clientBuffer
  | .backend => conn.backendBuffer

def interest (conn : LbConnection) : IoRole → Interest
  | .client => conn.clientInterest
  | .backend => conn.backendInterest

end LbConnection

/-- A connection as `lb_handle_new_connection` registers it, with the header
that `build_proxy_header` left in it. -/
def newConnection (header : Bytes) : LbConnection where
  proxyHdr := ⟨header, 0⟩
  clientBuffer := ⟨[], 0⟩
  backendBuffer := ⟨[], 0⟩
  clientInterest := ⟨true, false⟩
  backendInterest := ⟨true, false⟩
  clientEof := false
  closed := false
  fromClient := []
  fromBackend := []
  toClient := []
  toBackend := []
  marks := []
  cause := none

/-! ## Handlers -/

def updateEpollInterest (conn : LbConnection) : LbConnection :=
  let c2bPending := decide (conn.clientBuffer.Pending ∨ conn.proxyHdr.Pending)
  let b2cPending := decide conn.backendBuffer.Pending
  { conn with
    clientInterest := ⟨!c2bPending && !conn.clientEof, b2cPending⟩
    backendInterest := ⟨!b2cPending, c2bPending⟩ }

def mark (healthMark : HealthMark) (conn : LbConnection) : LbConnection :=
  { conn with marks := conn.marks ++ [healthMark] }

def lbCloseConnection (cause : CloseCause) (conn : LbConnection) : LbConnection :=
  if conn.closed then conn
  else { conn with closed := true, cause := some cause }

def flushClientToBackend (writes : List SendResult) (conn : LbConnection) : LbConnection :=
  let header := conn.proxyHdr.drain writes
  let conn :=
    { conn with
      proxyHdr := header.outlet
      toBackend := conn.toBackend ++ header.written }
  match header.outcome with
  | .blocked => updateEpollInterest conn
  | .failed => lbCloseConnection .backendWriteFailed (mark .failure conn)
  | .drained =>
    let payload := conn.clientBuffer.drain header.results
    let conn :=
      { conn with
        clientBuffer := payload.outlet
        toBackend := conn.toBackend ++ payload.written }
    match payload.outcome with
    | .blocked => updateEpollInterest conn
    | .failed => lbCloseConnection .backendWriteFailed (mark .failure conn)
    | .drained => updateEpollInterest { conn with clientBuffer := ⟨[], 0⟩ }

def flushBackendToClient (writes : List SendResult) (conn : LbConnection) : LbConnection :=
  let payload := conn.backendBuffer.drain writes
  let conn :=
    { conn with
      backendBuffer := payload.outlet
      toClient := conn.toClient ++ payload.written }
  match payload.outcome with
  | .blocked => updateEpollInterest conn
  | .failed => lbCloseConnection .clientWriteFailed conn
  | .drained => updateEpollInterest { conn with backendBuffer := ⟨[], 0⟩ }

def lbHandleClientData (read : ReadResult) (writes : List SendResult)
    (conn : LbConnection) : LbConnection :=
  match read with
  | .bytes bytes =>
    let chunk := bytes.take lbBufferSize
    if chunk = [] then
      -- Half-close: the client is done sending but still wants the response.
      updateEpollInterest { conn with clientEof := true }
    else
      flushClientToBackend writes
        { conn with
          clientBuffer := ⟨chunk, 0⟩
          fromClient := conn.fromClient ++ chunk }
  | .wouldBlock => conn
  | .failed => lbCloseConnection .clientReadFailed conn

def lbHandleBackendData (read : ReadResult) (writes : List SendResult)
    (conn : LbConnection) : LbConnection :=
  match read with
  | .bytes bytes =>
    let chunk := bytes.take lbBufferSize
    if chunk = [] then
      lbCloseConnection .backendEof conn
    else
      flushBackendToClient writes
        { mark .success conn with
          backendBuffer := ⟨chunk, 0⟩
          fromBackend := conn.fromBackend ++ chunk }
  | .wouldBlock => conn
  | .failed => lbCloseConnection .backendReadFailed (mark .failure conn)

/-- The side that hung up is not known to the source; `role` only names the
cause.  `socketError` says whether the backend's socket has an error pending. -/
def lbHandleConnectionError (role : IoRole) (socketError : Bool)
    (conn : LbConnection) : LbConnection :=
  lbCloseConnection (.hangup role) (if socketError then mark .failure conn else conn)

/-! ## The event loop -/

/-- An event of one descriptor, with what the calls made for it will return. -/
structure Event where
  role : IoRole
  readable : Bool
  writable : Bool
  hangup : Bool
  read : ReadResult
  writes : List SendResult
  socketError : Bool

/-- One iteration of the loop over a batch. -/
def dispatch (conn : LbConnection) (event : Event) : LbConnection :=
  if conn.closed then conn
  else if event.hangup && !event.readable then
    lbHandleConnectionError event.role event.socketError conn
  else if event.readable then
    match event.role with
    | .client => lbHandleClientData event.read event.writes conn
    | .backend => lbHandleBackendData event.read event.writes conn
  else if event.writable then
    match event.role with
    | .client => flushBackendToClient event.writes conn
    | .backend => flushClientToBackend event.writes conn
  else conn

/-- `epoll` reports at most one event for each descriptor, and readability and
writability only where asked for. -/
structure Reported (conn : LbConnection) (batch : List Event) : Prop where
  distinct : (batch.map Event.role).Nodup
  readable : ∀ event ∈ batch, event.readable → (conn.interest event.role).readable
  writable : ∀ event ∈ batch, event.writable → (conn.interest event.role).writable

theorem reported_singleton {conn : LbConnection} {event : Event}
    (hreadable : event.readable → (conn.interest event.role).readable)
    (hwritable : event.writable → (conn.interest event.role).writable) : Reported conn [event] := by
  constructor
  · exact nodup_singleton _
  · intro other hother
    rw [mem_singleton.mp hother]
    exact hreadable
  · intro other hother
    rw [mem_singleton.mp hother]
    exact hwritable

/-- A connection and the events of the current batch not dispatched yet. -/
structure LoopState where
  conn : LbConnection
  batch : List Event

inductive LoopStep : LoopState → LoopState → Prop
  | collect {conn : LbConnection} {batch : List Event} :
      conn.closed = false → Reported conn batch → LoopStep ⟨conn, []⟩ ⟨conn, batch⟩
  | dispatch (conn : LbConnection) (event : Event) (batch : List Event) :
      LoopStep ⟨conn, event :: batch⟩ ⟨dispatch conn event, batch⟩

/-! ## What the handlers do -/

theorem lbCloseConnection_of_open {conn : LbConnection} (hopen : conn.closed = false)
    (cause : CloseCause) :
    lbCloseConnection cause conn = { conn with closed := true, cause := some cause } := by
  rw [lbCloseConnection, hopen, if_neg Bool.false_ne_true]

/-- The connection after part of the header and of the payload went out. -/
structure SentToBackend (conn sent : LbConnection) (header payload : Bytes) : Prop where
  header_rest : header ++ sent.proxyHdr.rest = conn.proxyHdr.rest
  payload_rest : payload ++ sent.clientBuffer.rest = conn.clientBuffer.rest
  header_first : sent.proxyHdr.rest ≠ [] → payload = []
  eq : sent =
    { conn with
      proxyHdr := sent.proxyHdr
      clientBuffer := sent.clientBuffer
      toBackend := conn.toBackend ++ (header ++ payload) }

/-- A flush to the backend sends part of what is buffered; it ends with the
interest updated, or with the connection closed on a failing write. -/
theorem flushClientToBackend_cases (writes : List SendResult) (conn : LbConnection) :
    ∃ sent header payload, SentToBackend conn sent header payload ∧
      (flushClientToBackend writes conn = updateEpollInterest sent ∨
        flushClientToBackend writes conn =
          lbCloseConnection .backendWriteFailed (mark .failure sent) ∧
        ∃ result ∈ writes, result.Fails) := by
  rw [flushClientToBackend]
  have hheader := conn.proxyHdr.drain_spec writes
  generalize conn.proxyHdr.drain writes = header at hheader
  have hstart : SentToBackend conn
      { conn with
        proxyHdr := header.outlet
        toBackend := conn.toBackend ++ header.written } header.written [] := by
    constructor
    · exact hheader.conserved
    · rfl
    · intro _
      rfl
    · rw [append_nil]
  cases houtcome : header.outcome with
  | blocked => exact ⟨_, _, _, hstart, .inl rfl⟩
  | failed => exact ⟨_, _, _, hstart, .inr ⟨rfl, hheader.fails houtcome⟩⟩
  | drained =>
    have hpayload := conn.clientBuffer.drain_spec header.results
    dsimp only
    generalize conn.clientBuffer.drain header.results = payload at hpayload
    have hempty := hheader.drained_rest houtcome
    have hsent : ∀ buffer : Outlet, buffer.rest = payload.outlet.rest → SentToBackend conn
          { conn with
            proxyHdr := header.outlet
            clientBuffer := buffer
            toBackend := conn.toBackend ++ header.written ++ payload.written }
          header.written payload.written := by
      intro buffer hbuffer
      constructor
      · exact hheader.conserved
      · exact hbuffer ▸ hpayload.conserved
      · intro hrest
        exact absurd hempty hrest
      · rw [append_assoc]
    cases hend : payload.outcome with
    | blocked => exact ⟨_, _, _, hsent payload.outlet rfl, .inl rfl⟩
    | failed =>
      obtain ⟨result, hresult, hfails⟩ := hpayload.fails hend
      exact ⟨_, _, _, hsent payload.outlet rfl,
        .inr ⟨rfl, result, hheader.leftover result hresult, hfails⟩⟩
    | drained =>
      have hnil := hpayload.drained_rest hend
      exact ⟨_, _, _, hsent ⟨[], 0⟩ hnil.symm, .inl rfl⟩

/-- The connection after part of the backend's bytes went out. -/
structure SentToClient (conn sent : LbConnection) (payload : Bytes) : Prop where
  payload_rest : payload ++ sent.backendBuffer.rest = conn.backendBuffer.rest
  eq : sent =
    { conn with
      backendBuffer := sent.backendBuffer
      toClient := conn.toClient ++ payload }

theorem flushBackendToClient_cases (writes : List SendResult) (conn : LbConnection) :
    ∃ sent payload, SentToClient conn sent payload ∧
      (flushBackendToClient writes conn = updateEpollInterest sent ∨
        flushBackendToClient writes conn = lbCloseConnection .clientWriteFailed sent) := by
  rw [flushBackendToClient]
  have hpayload := conn.backendBuffer.drain_spec writes
  generalize conn.backendBuffer.drain writes = payload at hpayload
  have hsent : ∀ buffer : Outlet, buffer.rest = payload.outlet.rest → SentToClient conn
        { conn with
          backendBuffer := buffer
          toClient := conn.toClient ++ payload.written } payload.written := by
    intro buffer hbuffer
    constructor
    · exact hbuffer ▸ hpayload.conserved
    · rfl
  cases hend : payload.outcome with
  | blocked => exact ⟨_, _, hsent payload.outlet rfl, .inl rfl⟩
  | failed => exact ⟨_, _, hsent payload.outlet rfl, .inr rfl⟩
  | drained =>
    have hnil := hpayload.drained_rest hend
    exact ⟨_, _, hsent ⟨[], 0⟩ hnil.symm, .inl rfl⟩

/-- What dispatching an event does to a connection. -/
inductive Dispatched (conn : LbConnection) (event : Event) : LbConnection → Prop
  | skipped : Dispatched conn event conn
  | hangup (hopen : conn.closed = false) (hhangup : event.hangup)
      (hreadable : event.readable = false) :
      Dispatched conn event (lbHandleConnectionError event.role event.socketError conn)
  | clientData (hopen : conn.closed = false) (hrole : event.role = .client)
      (hreadable : event.readable) :
      Dispatched conn event (lbHandleClientData event.read event.writes conn)
  | backendData (hopen : conn.closed = false) (hrole : event.role = .backend)
      (hreadable : event.readable) :
      Dispatched conn event (lbHandleBackendData event.read event.writes conn)
  | clientWrite (hopen : conn.closed = false) (hrole : event.role = .client)
      (hwritable : event.writable) :
      Dispatched conn event (flushBackendToClient event.writes conn)
  | backendWrite (hopen : conn.closed = false) (hrole : event.role = .backend)
      (hreadable : event.readable = false) (hwritable : event.writable) :
      Dispatched conn event (flushClientToBackend event.writes conn)

theorem dispatched (conn : LbConnection) (event : Event) :
    Dispatched conn event (dispatch conn event) := by
  rw [dispatch]
  split
  · exact .skipped
  case isFalse hclosed =>
  have hopen : conn.closed = false := eq_false_iff.mpr hclosed
  split
  case isTrue hhangup =>
    rw [and_eq_true, not_eq_true'] at hhangup
    exact .hangup hopen hhangup.1 hhangup.2
  split
  case isTrue hreadable =>
    split
    case h_1 hrole => exact .clientData hopen hrole hreadable
    case h_2 hrole => exact .backendData hopen hrole hreadable
  case isFalse hreadable =>
    split
    case isTrue hwritable =>
      split
      case h_1 hrole => exact .clientWrite hopen hrole hwritable
      case h_2 hrole => exact .backendWrite hopen hrole (eq_false_iff.mpr hreadable) hwritable
    · exact .skipped

end Codo.Balancer
