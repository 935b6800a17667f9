import Codo.Balancer.Connection
import Mathlib.Logic.Relation

/-!
# Bytes are relayed faithfully

In every run of the event loop, the bytes written to the backend are a front
part of the PROXY header followed by the bytes read from the client, and the
bytes written to the client are a front part of the bytes read from the backend.

The invariant has two halves.  `Relayed` accounts for the bytes, as long as no
read overwrites unsent ones.  `Armed` and the events still in the batch see to
that: readability was asked for with an empty buffer, and only an event of the
same side fills that buffer again.
-/

namespace Codo.Balancer

open Codo.Support List Relation

/-! ## Nothing is lost, duplicated or reordered -/

/-- The bytes of both directions are accounted for. -/
structure Relayed (header : Bytes) (conn : LbConnection) : Prop where
  toBackend : ∃ payload, conn.toBackend ++ conn.proxyHdr.rest = header ++ payload ∧
      payload ++ conn.clientBuffer.rest = conn.fromClient ∧ (conn.proxyHdr.rest ≠ [] → payload = [])
  toClient : conn.toClient ++ conn.backendBuffer.rest = conn.fromBackend

variable {header : Bytes} {conn : LbConnection}

section Relayed

variable {sent : LbConnection}

theorem relayed_newConnection (header : Bytes) : Relayed header (newConnection header) := by
  constructor
  · refine ⟨[], ?_, rfl, fun _ => rfl⟩
    rw [append_nil]
    exact Outlet.rest_mk_zero header
  · rfl

section

variable (h : Relayed header conn)
include h

theorem Relayed.updateEpollInterest : Relayed header (updateEpollInterest conn) :=
  ⟨h.toBackend, h.toClient⟩

theorem Relayed.mark (healthMark : HealthMark) : Relayed header (mark healthMark conn) :=
  ⟨h.toBackend, h.toClient⟩

theorem Relayed.close (cause : CloseCause) : Relayed header (lbCloseConnection cause conn) := by
  rw [lbCloseConnection]
  split
  · exact h
  · exact ⟨h.toBackend, h.toClient⟩

theorem Relayed.sentToBackend {front payload : Bytes}
    (hsent : SentToBackend conn sent front payload) : Relayed header sent := by
  obtain ⟨hfront, hpayload, hfirst, heq⟩ := hsent
  obtain ⟨before, hheader, hclient, hbefore⟩ := h.toBackend
  have hto : sent.toBackend = conn.toBackend ++ (front ++ payload) :=
    congrArg LbConnection.toBackend heq
  have hfrom : sent.fromClient = conn.fromClient := (congrArg LbConnection.fromClient heq :)
  constructor
  · refine ⟨before ++ payload, ?_, ?_, ?_⟩
    · rw [hto]
      by_cases hrest : sent.proxyHdr.rest = []
      · rw [hrest, append_nil] at hfront ⊢
        rw [hfront, ← append_assoc, hheader, append_assoc]
      · rw [hfirst hrest, append_nil, append_nil, append_assoc, hfront, hheader]
    · rw [append_assoc, hpayload, hclient, hfrom]
    · intro hrest
      have hpending : conn.proxyHdr.rest ≠ [] := by
        intro hnil
        rw [hnil] at hfront
        exact hrest (append_eq_nil_iff.mp hfront).2
      rw [hbefore hpending, hfirst hrest, append_nil]
  · rw [congrArg LbConnection.toClient heq, congrArg LbConnection.backendBuffer heq,
      congrArg LbConnection.fromBackend heq]
    exact h.toClient

theorem Relayed.sentToClient {payload : Bytes}
    (hsent : SentToClient conn sent payload) : Relayed header sent := by
  obtain ⟨hpayload, heq⟩ := hsent
  constructor
  · rw [congrArg LbConnection.toBackend heq, congrArg LbConnection.proxyHdr heq,
      congrArg LbConnection.clientBuffer heq, congrArg LbConnection.fromClient heq]
    exact h.toBackend
  · have hto : sent.toClient = conn.toClient ++ payload :=
      congrArg LbConnection.toClient heq
    have hfrom : sent.fromBackend = conn.fromBackend := (congrArg LbConnection.fromBackend heq :)
    rw [hto, append_assoc, hpayload, hfrom]
    exact h.toClient

theorem Relayed.flushClientToBackend (writes : List SendResult) :
    Relayed header (flushClientToBackend writes conn) := by
  obtain ⟨sent, front, payload, hsent, heq | ⟨heq, -⟩⟩ := flushClientToBackend_cases writes conn
  · rw [heq]
    exact (h.sentToBackend hsent).updateEpollInterest
  · rw [heq]
    exact ((h.sentToBackend hsent).mark _).close _

theorem Relayed.flushBackendToClient (writes : List SendResult) :
    Relayed header (flushBackendToClient writes conn) := by
  obtain ⟨sent, payload, hsent, heq | heq⟩ := flushBackendToClient_cases writes conn
  · rw [heq]
    exact (h.sentToClient hsent).updateEpollInterest
  · rw [heq]
    exact (h.sentToClient hsent).close _

theorem Relayed.readClient (hempty : conn.clientBuffer.rest = []) (chunk : Bytes) :
    Relayed header
      { conn with
        clientBuffer := ⟨chunk, 0⟩
        fromClient := conn.fromClient ++ chunk } := by
  obtain ⟨payload, hheader, hclient, hfirst⟩ := h.toBackend
  rw [hempty, append_nil] at hclient
  constructor
  · refine ⟨payload, hheader, ?_, hfirst⟩
    rw [Outlet.rest_mk_zero, hclient]
  · exact h.toClient

theorem Relayed.readBackend (hempty : conn.backendBuffer.rest = []) (chunk : Bytes) :
    Relayed header
      { conn with
        backendBuffer := ⟨chunk, 0⟩
        fromBackend := conn.fromBackend ++ chunk } := by
  have hclient := h.toClient
  rw [hempty, append_nil] at hclient
  constructor
  · exact h.toBackend
  · rw [Outlet.rest_mk_zero, hclient]

theorem Relayed.lbHandleClientData (hempty : conn.clientBuffer.rest = [])
    (read : ReadResult) (writes : List SendResult) :
    Relayed header (lbHandleClientData read writes conn) := by
  cases read with
  | bytes bytes =>
    rw [Balancer.lbHandleClientData]
    split
    · exact ⟨h.toBackend, h.toClient⟩
    · exact (h.readClient hempty _).flushClientToBackend _
  | wouldBlock => exact h
  | failed => exact h.close _

theorem Relayed.lbHandleBackendData (hempty : conn.backendBuffer.rest = [])
    (read : ReadResult) (writes : List SendResult) :
    Relayed header (lbHandleBackendData read writes conn) := by
  cases read with
  | bytes bytes =>
    rw [Balancer.lbHandleBackendData]
    split
    · exact h.close _
    · exact ((h.mark _).readBackend hempty _).flushBackendToClient _
  | wouldBlock => exact h
  | failed => exact (h.mark _).close _

theorem Relayed.lbHandleConnectionError (role : IoRole) (socketError : Bool) :
    Relayed header (lbHandleConnectionError role socketError conn) := by
  rw [Balancer.lbHandleConnectionError]
  split
  · exact (h.mark _).close _
  · exact h.close _

end

end Relayed

/-! ## Reads only into empty buffers -/

/-- An open connection asks for readability only where its buffer is empty. -/
def Armed (conn : LbConnection) : Prop :=
  conn.closed = false → ∀ role, (conn.interest role).readable → (conn.readBuffer role).rest = []

variable {after : LbConnection} {event : Event}

theorem armed_updateEpollInterest (conn : LbConnection) : Armed (updateEpollInterest conn) := by
  intro _ role hreadable
  cases role with
  | client =>
    rw [Outlet.rest_eq_nil_iff]
    intro hpending
    simp [LbConnection.interest, updateEpollInterest] at hreadable
    exact absurd hpending (not_lt.mpr (not_lt.mp hreadable.1.1))
  | backend =>
    rw [Outlet.rest_eq_nil_iff]
    intro hpending
    simp [LbConnection.interest, updateEpollInterest] at hreadable
    exact absurd hpending hreadable

theorem armed_lbCloseConnection (cause : CloseCause) (conn : LbConnection) :
    Armed (lbCloseConnection cause conn) := by
  intro hopen
  rw [lbCloseConnection] at hopen
  split at hopen
  case isTrue hclosed => cases hclosed.symm.trans hopen
  case isFalse => cases hopen

theorem armed_flushClientToBackend (writes : List SendResult)
    (conn : LbConnection) : Armed (flushClientToBackend writes conn) := by
  obtain ⟨sent, _, _, -, heq | ⟨heq, -⟩⟩ := flushClientToBackend_cases writes conn
  · rw [heq]
    exact armed_updateEpollInterest sent
  · rw [heq]
    exact armed_lbCloseConnection _ _

theorem armed_flushBackendToClient (writes : List SendResult)
    (conn : LbConnection) : Armed (flushBackendToClient writes conn) := by
  obtain ⟨sent, _, -, heq | heq⟩ := flushBackendToClient_cases writes conn
  · rw [heq]
    exact armed_updateEpollInterest sent
  · rw [heq]
    exact armed_lbCloseConnection _ _

theorem Armed.dispatched (h : Armed conn) (hd : Dispatched conn event after) : Armed after := by
  cases hd with
  | skipped => exact h
  | hangup => exact armed_lbCloseConnection _ _
  | clientData =>
    cases event.read with
    | bytes bytes =>
      rw [lbHandleClientData]
      split
      · exact armed_updateEpollInterest _
      · exact armed_flushClientToBackend _ _
    | wouldBlock => exact h
    | failed => exact armed_lbCloseConnection _ _
  | backendData =>
    cases event.read with
    | bytes bytes =>
      rw [lbHandleBackendData]
      split
      · exact armed_lbCloseConnection _ _
      · exact armed_flushBackendToClient _ _
    | wouldBlock => exact h
    | failed => exact armed_lbCloseConnection _ _
  | clientWrite => exact armed_flushBackendToClient _ _
  | backendWrite => exact armed_flushClientToBackend _ _

section Other

variable {role : IoRole}

theorem lbCloseConnection_readBuffer (cause : CloseCause) (conn : LbConnection) (role : IoRole) :
    (lbCloseConnection cause conn).readBuffer role = conn.readBuffer role := by
  rw [lbCloseConnection]
  split
  · rfl
  · cases role <;> rfl

theorem updateEpollInterest_readBuffer (conn : LbConnection) (role : IoRole) :
    (updateEpollInterest conn).readBuffer role = conn.readBuffer role := by
  cases role <;> rfl

theorem mark_readBuffer (healthMark : HealthMark) (conn : LbConnection) (role : IoRole) :
    (mark healthMark conn).readBuffer role = conn.readBuffer role := by
  cases role <;> rfl

section

variable (hempty : (conn.readBuffer role).rest = [])
include hempty

theorem SentToBackend.rest_eq_nil {sent : LbConnection} {payload : Bytes}
    (h : SentToBackend conn sent header payload) : (sent.readBuffer role).rest = [] := by
  cases role with
  | client =>
    have hrest := h.payload_rest.trans hempty
    exact (append_eq_nil_iff.mp hrest).2
  | backend =>
    have hsame : sent.backendBuffer = conn.backendBuffer :=
      (congrArg LbConnection.backendBuffer h.eq :)
    rw [LbConnection.readBuffer, hsame]
    exact hempty

theorem SentToClient.rest_eq_nil {sent : LbConnection} {payload : Bytes}
    (h : SentToClient conn sent payload) : (sent.readBuffer role).rest = [] := by
  cases role with
  | client =>
    have hsame : sent.clientBuffer = conn.clientBuffer :=
      (congrArg LbConnection.clientBuffer h.eq :)
    rw [LbConnection.readBuffer, hsame]
    exact hempty
  | backend =>
    have hrest := h.payload_rest.trans hempty
    exact (append_eq_nil_iff.mp hrest).2

theorem flushClientToBackend_rest (writes : List SendResult) :
    ((flushClientToBackend writes conn).readBuffer role).rest = [] := by
  obtain ⟨sent, _, _, hsent, heq | ⟨heq, -⟩⟩ := flushClientToBackend_cases writes conn
  · rw [heq, updateEpollInterest_readBuffer]
    exact hsent.rest_eq_nil hempty
  · rw [heq, lbCloseConnection_readBuffer, mark_readBuffer]
    exact hsent.rest_eq_nil hempty

theorem flushBackendToClient_rest (writes : List SendResult) :
    ((flushBackendToClient writes conn).readBuffer role).rest = [] := by
  obtain ⟨sent, _, hsent, heq | heq⟩ := flushBackendToClient_cases writes conn
  · rw [heq, updateEpollInterest_readBuffer]
    exact hsent.rest_eq_nil hempty
  · rw [heq, lbCloseConnection_readBuffer]
    exact hsent.rest_eq_nil hempty

/-- An event of one side leaves the buffer of the other side empty. -/
theorem Dispatched.rest_eq_nil (hd : Dispatched conn event after)
    (hother : role ≠ event.role) : (after.readBuffer role).rest = [] := by
  cases hd with
  | skipped => exact hempty
  | hangup =>
    rw [lbHandleConnectionError, lbCloseConnection_readBuffer]
    split
    · rw [mark_readBuffer]
      exact hempty
    · exact hempty
  | clientData _ hrole =>
    cases role with
    | client => exact absurd hrole.symm hother
    | backend =>
      cases event.read with
      | bytes bytes =>
        rw [lbHandleClientData]
        split
        · exact hempty
        · refine flushClientToBackend_rest ?_ _
          exact hempty
      | wouldBlock => exact hempty
      | failed =>
        rw [lbHandleClientData, lbCloseConnection_readBuffer]
        exact hempty
  | backendData _ hrole =>
    cases role with
    | client =>
      cases event.read with
      | bytes bytes =>
        rw [lbHandleBackendData]
        split
        · rw [lbCloseConnection_readBuffer]
          exact hempty
        · refine flushBackendToClient_rest ?_ _
          exact hempty
      | wouldBlock => exact hempty
      | failed =>
        rw [lbHandleBackendData, lbCloseConnection_readBuffer]
        exact hempty
    | backend => exact absurd hrole.symm hother
  | clientWrite => exact flushBackendToClient_rest hempty _
  | backendWrite => exact flushClientToBackend_rest hempty _

end

end Other

/-! ## Whole runs -/

/-- What holds of the loop between any two steps. -/
structure Sound (header : Bytes) (state : LoopState) : Prop where
  relayed : Relayed header state.conn
  armed : Armed state.conn
  distinct : (state.batch.map Event.role).Nodup
  emptied : ∀ event ∈ state.batch, event.readable → (state.conn.readBuffer event.role).rest = []

section Runs

variable {state state' : LoopState}

theorem sound_newConnection (header : Bytes) : Sound header ⟨newConnection header, []⟩ := by
  constructor
  · exact relayed_newConnection header
  · intro _ role _
    cases role <;> rfl
  · exact nodup_nil
  · exact nofun

theorem Sound.relayed_dispatch {batch : List Event} (h : Sound header ⟨conn, event :: batch⟩) :
    Relayed header (dispatch conn event) := by
  have hempty := h.emptied event mem_cons_self
  have hd := dispatched conn event
  have hconn := h.relayed
  generalize dispatch conn event = after at hd ⊢
  cases hd with
  | skipped => exact hconn
  | hangup => exact hconn.lbHandleConnectionError _ _
  | clientData _ hrole hreadable =>
    have hbuffer := hempty hreadable
    rw [hrole] at hbuffer
    exact hconn.lbHandleClientData hbuffer _ _
  | backendData _ hrole hreadable =>
    have hbuffer := hempty hreadable
    rw [hrole] at hbuffer
    exact hconn.lbHandleBackendData hbuffer _ _
  | clientWrite => exact hconn.flushBackendToClient _
  | backendWrite => exact hconn.flushClientToBackend _

theorem Sound.step (h : Sound header state) (hstep : LoopStep state state') :
    Sound header state' := by
  cases hstep with
  | collect hopen hreported =>
    constructor
    · exact h.relayed
    · exact h.armed
    · exact hreported.distinct
    · intro event hevent hreadable
      exact h.armed hopen event.role (hreported.readable event hevent hreadable)
  | dispatch conn event batch =>
    have hdistinct := nodup_cons.mp h.distinct
    constructor
    · exact h.relayed_dispatch
    · exact h.armed.dispatched (dispatched conn event)
    · exact hdistinct.2
    · intro later hlater hreadable
      -- The later event is one of the other side.
      have hother : later.role ≠ event.role := by
        intro heq
        exact hdistinct.1 (heq ▸ mem_map_of_mem hlater)
      exact (dispatched conn event).rest_eq_nil
        (h.emptied later (mem_cons_of_mem event hlater) hreadable) hother

theorem sound_of_run (hrun : ReflTransGen LoopStep ⟨newConnection header, []⟩ state) :
    Sound header state := by
  induction hrun with
  | refl => exact sound_newConnection header
  | tail _ hstep ih => exact ih.step hstep

/-- In every run, the bytes written to the backend and those still buffered are
the header followed by the bytes read from the client, and likewise the other
way without a header.  So nothing is lost, duplicated or reordered, no payload
precedes the header, and a side about to be read has an empty buffer. -/
theorem relay_faithful
    (hrun : ReflTransGen LoopStep ⟨newConnection header, []⟩ state) :
    let conn := state.conn
    (conn.toBackend ++ (conn.proxyHdr.rest ++ conn.clientBuffer.rest) =
        header ++ conn.fromClient ∧
      conn.toClient ++ conn.backendBuffer.rest = conn.fromBackend) ∧
    (conn.toBackend <+: header ++ conn.fromClient ∧
      conn.toClient <+: conn.fromBackend) ∧
    (conn.proxyHdr.rest ≠ [] → conn.toBackend <+: header) ∧
    ∀ event ∈ state.batch, event.readable →
      (conn.readBuffer event.role).rest = [] := by
  have hsound := sound_of_run hrun
  obtain ⟨payload, hheader, hclient, hfirst⟩ := hsound.relayed.toBackend
  have htoBackend : state.conn.toBackend ++
      (state.conn.proxyHdr.rest ++ state.conn.clientBuffer.rest) =
      header ++ state.conn.fromClient := by
    rw [← append_assoc, hheader, append_assoc, hclient]
  have htoClient := hsound.relayed.toClient
  refine ⟨⟨htoBackend, htoClient⟩, ⟨?_, ?_⟩, ?_, hsound.emptied⟩
  · exact ⟨_, htoBackend⟩
  · exact ⟨_, htoClient⟩
  · intro hrest
    rw [hfirst hrest, append_nil] at hheader
    exact ⟨_, hheader⟩

/-- A client sends three bytes, of which the backend takes the header and one
byte. -/
theorem relay_faithful_partial :
    let event : Event := ⟨.client, true, false, false, .bytes [1, 2, 3],
      [.sent 2, .sent 1, .wouldBlock], false⟩
    let conn := dispatch (newConnection [80, 82]) event
    conn.toBackend = [80, 82, 1] ∧ conn.clientBuffer.rest = [2, 3] ∧
      conn.toBackend <+: [80, 82] ++ conn.fromClient := by
  have hrun : ReflTransGen LoopStep ⟨newConnection [80, 82], []⟩
      ⟨dispatch (newConnection [80, 82]) ⟨.client, true, false, false,
        .bytes [1, 2, 3], [.sent 2, .sent 1, .wouldBlock], false⟩, []⟩ := by
    refine (ReflTransGen.single (.collect rfl ?_)).tail (.dispatch _ _ [])
    exact reported_singleton (fun _ => rfl) nofun
  exact ⟨rfl, rfl, (relay_faithful hrun).2.1.1⟩

end Runs

end Codo.Balancer
