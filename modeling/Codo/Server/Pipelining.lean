import Codo.Server.Framing

/-!
# Pipelined requests

The part of `handle_client_data` that turns buffered bytes into requests, and a
connection that reads a stream in pieces.  `handle_client_write` calls
`handle_client_data` again while bytes are left in the buffer, so the requests
that have arrived are taken one after the other.

How the stream is cut into reads makes no difference: at every point the buffer
holds a proper start of the next request.
-/

namespace Codo.Server

open Support Common List

/-- What `handle_client_data` does with the buffered bytes. -/
inductive Taken
  | wait
  | reject (status : HttpStatus) (message : Bytes)
  | dispatch (request : Request) (buf : Bytes)

/-- The framing, parsing and consuming part of `handle_client_data`; `request`
is the record of the connection. -/
def takeRequest (date : Bytes → ℤ) (mallocOk : Bool) (maxBody : ℕ)
    (request : Request) (buf : Bytes) : Taken :=
  let frame := checkRequestFrame maxBody buf
  if frame.rc = 0 then .wait
  else if frame.rc = -2 then
    .reject .notImplemented (ascii "Unsupported Transfer-Encoding")
  else if frame.rc = -3 then .reject .payloadTooLarge (ascii "Request too large")
  else if frame.rc < 0 then .reject .badRequest (ascii "Bad Request")
  else
    let p := parseHttpRequest date mallocOk request buf frame.requestLen
    if p.rc = -2 then
      .reject .internalServerError (ascii "Internal Server Error")
    else if p.rc ≠ 0 then .reject .badRequest (ascii "Bad Request")
    else .dispatch p.request (connConsumeRead p.buffer frame.requestLen)

/-- A connection: the parsed requests, the record of the last one, the read
buffer, and the answer that closed it. -/
structure Connection where
  served : List Request
  request : Request
  buffer : Bytes
  rejected : Option (HttpStatus × Bytes)

def Connection.start : Connection := ⟨[], .zero, [], none⟩

section Pump

variable (date : Bytes → ℤ) (mallocOk : Bool) (maxBody : ℕ)

/-- Take requests while they are complete. -/
def pump : ℕ → Connection → Connection
  | 0, conn => conn
  | fuel + 1, conn =>
    match takeRequest date mallocOk maxBody conn.request conn.buffer with
    | .wait => conn
    | .reject status message => { conn with rejected := some (status, message) }
    | .dispatch request buf =>
      pump fuel { conn with
        served := conn.served ++ [request], request := request, buffer := buf }

/-- A read of `bytes`, and the requests complete by then. -/
def Connection.read (conn : Connection) (bytes : Bytes) : Connection :=
  if conn.rejected.isSome then conn
  else
    let buf := conn.buffer ++ bytes
    pump date mallocOk maxBody (buf.length + 1) { conn with buffer := buf }

def receive (reads : List Bytes) : Connection :=
  reads.foldl (Connection.read date mallocOk maxBody) .start

/-- A complete request that framer and parser accept, and the request parsed. -/
def Accepted (r : Bytes) (request : Request) : Prop :=
  r.length ≤ 65535 ∧ (checkRequestFrame maxBody r).rc = 1 ∧
    (checkRequestFrame maxBody r).requestLen = r.length ∧
    (parseHttpRequest date mallocOk .zero r r.length).rc = 0 ∧
    (parseHttpRequest date mallocOk .zero r r.length).request = request

end Pump

section Single

variable {date : Bytes → ℤ} {mallocOk : Bool} {maxBody : ℕ} {p r : Bytes} {request : Request}

section

variable (h : Accepted date mallocOk maxBody r request)
include h

theorem Accepted.message : Message maxBody r :=
  message_of_frame (by have := h.1; omega) h.2.1 h.2.2.1

theorem Accepted.frame_proper (hp : p <+: r) (hne : p ≠ r) : (checkRequestFrame maxBody p).rc = 0 :=
  h.message.frame_proper (by have := h.1; omega) hp hne

theorem Accepted.ne_nil : r ≠ [] := by
  rintro rfl
  have hempty : (checkRequestFrame maxBody []).rc = 0 := rfl
  rw [h.2.1] at hempty
  exact absurd hempty one_ne_zero

/-- A request is taken whatever follows it, and the rest stays. -/
theorem Accepted.takeRequest_append (old : Request) (more : Bytes) :
    takeRequest date mallocOk maxBody old (r ++ more) = .dispatch request more := by
  obtain ⟨hrc, hlen⟩ := h.message.frame_append (by have := h.1; omega) more
  obtain ⟨-, -, -, hparse, hrequest⟩ := h
  obtain ⟨mid, hmid, heq⟩ := exists_parseHttpRequest_eq date mallocOk old r more
  obtain ⟨_, -, heq'⟩ := exists_parseHttpRequest_eq date mallocOk .zero r []
  rw [append_nil] at heq'
  rw [heq'] at hparse hrequest
  have hrest : connConsumeRead (mid ++ more) r.length = more := drop_left' hmid
  rw [takeRequest]
  simp only [hrc, hlen, heq, hparse, hrequest, hrest]
  rfl

theorem Accepted.takeRequest_proper (old : Request) (hp : p <+: r) (hne : p ≠ r) :
    takeRequest date mallocOk maxBody old p = .wait := by
  rw [takeRequest]
  simp only [h.frame_proper hp hne, if_true]

end

end Single

section Streams

variable {date : Bytes → ℤ} {mallocOk : Bool} {maxBody : ℕ}

/-- The buffer holds a proper start of the next request, or nothing. -/
def Pending (buf : Bytes) : List Bytes → Prop
  | [] => buf = []
  | r :: _ => buf <+: r ∧ buf ≠ r

/-- The connection still has to serve `requests`, the requests `rs`, of which
`future` has not been read; then it has served `all`. -/
structure Awaits (date : Bytes → ℤ) (mallocOk : Bool) (maxBody : ℕ)
    (all : List Request) (future : Bytes) (rs : List Bytes)
    (requests : List Request) (conn : Connection) : Prop where
  accepted : List.Forall₂ (Accepted date mallocOk maxBody) rs requests
  notRejected : conn.rejected = none
  bytes : conn.buffer ++ future = rs.flatten
  served : conn.served ++ requests = all

theorem Awaits.pump {rs : List Bytes} {requests all : List Request}
    {future : Bytes} {conn : Connection}
    (h : Awaits date mallocOk maxBody all future rs requests conn) {fuel : ℕ}
    (hfuel : conn.buffer.length < fuel) :
    ∃ rs' requests', Awaits date mallocOk maxBody all future rs' requests'
        (pump date mallocOk maxBody fuel conn) ∧
      Pending (Server.pump date mallocOk maxBody fuel conn).buffer rs' := by
  induction rs generalizing requests conn fuel with
  | nil =>
    have hnil : conn.buffer = [] := (append_eq_nil_iff.mp h.bytes).1
    obtain ⟨fuel, rfl⟩ := Nat.exists_eq_add_one_of_ne_zero (Nat.ne_zero_of_lt hfuel)
    have hwait : takeRequest date mallocOk maxBody conn.request conn.buffer =
        .wait := by rw [hnil]; rfl
    rw [Server.pump, hwait]
    exact ⟨[], requests, h, hnil⟩
  | cons r rs ih =>
    obtain ⟨request, requests, hr, hrs, rfl⟩ := forall₂_cons_left_iff.mp h.accepted
    obtain ⟨fuel, rfl⟩ := Nat.exists_eq_add_one_of_ne_zero (Nat.ne_zero_of_lt hfuel)
    have hbytes := h.bytes
    rw [flatten_cons] at hbytes
    have hbuf : conn.buffer <+: r ++ rs.flatten := ⟨future, hbytes⟩
    rcases le_or_gt r.length conn.buffer.length with hlong | hshort
    · obtain ⟨q, hq⟩ := prefix_of_prefix_length_le (prefix_append r rs.flatten) hbuf hlong
      have hpos := length_pos_iff.mpr hr.ne_nil
      rw [← hq, append_assoc] at hbytes
      rw [← hq, length_append] at hfuel
      have hnext : Awaits date mallocOk maxBody all future rs requests
          { conn with
            served := conn.served ++ [request]
            request := request
            buffer := q } :=
        ⟨hrs, h.notRejected, append_cancel_left hbytes, by
          rw [append_assoc]
          exact h.served⟩
      have hlt : q.length < fuel := by omega
      rw [Server.pump, ← hq, hr.takeRequest_append]
      exact ih hnext hlt
    · have hp := prefix_of_prefix_length_le hbuf (prefix_append r rs.flatten) hshort.le
      have hne : conn.buffer ≠ r := fun heq => absurd hshort (by rw [heq]; exact lt_irrefl _)
      rw [Server.pump, hr.takeRequest_proper conn.request hp hne]
      exact ⟨r :: rs, request :: requests, h, hp, hne⟩

/-- Reading the rest of the stream, in whatever pieces, serves the rest of the
requests. -/
theorem Awaits.receive {rs reads : List Bytes} {requests all : List Request} {conn : Connection}
    (h : Awaits date mallocOk maxBody all reads.flatten rs requests conn)
    (hpending : Pending conn.buffer rs) :
    let conn' := reads.foldl (Connection.read date mallocOk maxBody) conn
    conn'.served = all ∧ conn'.buffer = [] ∧ conn'.rejected = none := by
  induction reads generalizing rs requests conn with
  | nil =>
    have hbytes := h.bytes
    rw [flatten_nil, append_nil] at hbytes
    cases rs with
    | nil =>
      have hnone := forall₂_nil_left_iff.mp h.accepted
      have hserved := h.served
      rw [hnone, append_nil] at hserved
      exact ⟨hserved, hpending, h.notRejected⟩
    | cons r rs =>
      have hle : r.length ≤ conn.buffer.length := by
        rw [hbytes, flatten_cons, length_append]
        exact Nat.le_add_right _ _
      have hsame := hpending.1.eq_of_length (le_antisymm hpending.1.length_le hle)
      exact absurd hsame hpending.2
  | cons bytes reads ih =>
    have hread : Awaits date mallocOk maxBody all reads.flatten rs requests
        { conn with buffer := conn.buffer ++ bytes } := ⟨h.accepted, h.notRejected, by
        rw [append_assoc]
        exact h.bytes, h.served⟩
    obtain ⟨rs', requests', hafter, hpending'⟩ := hread.pump (Nat.lt_succ_self _)
    have hstep : Connection.read date mallocOk maxBody conn bytes =
        Server.pump date mallocOk maxBody ((conn.buffer ++ bytes).length + 1)
          { conn with buffer := conn.buffer ++ bytes } := by
      rw [Connection.read, h.notRejected]
      rfl
    rw [foldl_cons, hstep]
    exact ih hafter hpending'

/-- A stream of accepted requests gives the same requests however it is cut into
reads, and no byte is left; a proper start of a request is incomplete. -/
theorem pipelining_independent_of_reads (date : Bytes → ℤ) (mallocOk : Bool)
    (maxBody : ℕ) (rs : List Bytes) (requests : List Request)
    (haccepted : List.Forall₂ (Accepted date mallocOk maxBody) rs requests) :
    (∀ reads : List Bytes, reads.flatten = rs.flatten →
      (receive date mallocOk maxBody reads).served = requests ∧
      (receive date mallocOk maxBody reads).buffer = [] ∧
      (receive date mallocOk maxBody reads).rejected = none) ∧
    ∀ r ∈ rs, ∀ p, p <+: r → p ≠ r → (checkRequestFrame maxBody p).rc = 0 := by
  constructor
  · intro reads hreads
    have hstart : Awaits date mallocOk maxBody requests reads.flatten rs requests
        .start := ⟨haccepted, rfl, hreads, rfl⟩
    refine hstart.receive ?_
    cases haccepted with
    | nil => rfl
    | cons haccept _ => exact ⟨List.nil_prefix, haccept.ne_nil.symm⟩
  · intro r hr p hp hne
    obtain ⟨i, hi, rfl⟩ := getElem_of_mem hr
    have haccept := haccepted.get hi (haccepted.length_eq ▸ hi)
    exact haccept.frame_proper hp hne

/-- A request without a body. -/
def getRequest : Bytes := ascii "GET / HTTP/1.1\r\n\r\n"

def chunkedRequest : Bytes :=
  ascii "PUT /a HTTP/1.1\nTransfer-Encoding: chunked\n\n1\r\nx\r\n0\r\n\r\n"

/-- What the parser makes of a request that stands alone. -/
def parsedAlone (r : Bytes) : Request :=
  (parseHttpRequest (fun _ => 0) true .zero r r.length).request

theorem pipelining_independent_of_reads_two :
    [getRequest ++ chunkedRequest.take 47, chunkedRequest.drop 47].flatten =
        [getRequest, chunkedRequest].flatten ∧
      (receive (fun _ => 0) true 16
        [getRequest ++ chunkedRequest.take 47, chunkedRequest.drop 47]).served =
        [parsedAlone getRequest, parsedAlone chunkedRequest] := by
  have hcut : [getRequest ++ chunkedRequest.take 47, chunkedRequest.drop 47].flatten =
      [getRequest, chunkedRequest].flatten := by decide
  have haccepted : List.Forall₂ (Accepted (fun _ => 0) true 16) [getRequest, chunkedRequest]
      [parsedAlone getRequest, parsedAlone chunkedRequest] := by
    refine .cons ⟨?_, ?_, ?_, ?_, rfl⟩ (.cons ⟨?_, ?_, ?_, ?_, rfl⟩ .nil)
    all_goals decide
  exact ⟨hcut, ((pipelining_independent_of_reads _ _ _ _ _ haccepted).1 _ hcut).1⟩

end Streams

end Codo.Server
