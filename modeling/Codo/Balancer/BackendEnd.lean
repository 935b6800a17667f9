import Codo.Balancer.Relay

/-!
# The response when the backend ends

A backend may end by closing its side, by an error, or by hanging up.  A clean
end is seen by a read, which happens only when the response read so far is
written to the client.  A hangup is reported whatever was asked for, and it
closes the connection at once when the backend is not readable as well; that is
always so while response bytes are pending, because readability is not asked for
then.  A failing write to the backend closes the connection in the same way.
-/

namespace Codo.Balancer

open Codo.Support Relation

/-- The results of the writes to the backend that an event leads to. -/
def Event.backendWrites (event : Event) : List SendResult :=
  match event.role, event.readable with
  | .client, true => event.writes
  | .backend, false => event.writes
  | _, _ => []

/-- While response bytes are pending, the backend does not hang up without being
readable, and no write to it fails. -/
def Calm (conn : LbConnection) (event : Event) : Prop :=
  conn.backendBuffer.rest ≠ [] → ¬(event.role = .backend ∧ event.hangup ∧ event.readable = false) ∧
      ∀ result ∈ event.backendWrites, ¬result.Fails

/-- A step of the loop that dispatches only calm events. -/
def CalmStep (state state' : LoopState) : Prop :=
  LoopStep state state' ∧ ∀ event batch, state.batch = event :: batch → Calm state.conn event

/-- A connection closed at the backend's end has its response out. -/
structure Complete (conn : LbConnection) : Prop where
  open_cause : conn.closed = false → conn.cause = none
  response : ∀ cause, conn.cause = some cause → cause.BackendEnded → conn.backendBuffer.rest = []

section Ends

variable {conn after : LbConnection} {event : Event} {header : Bytes} {state state' : LoopState}

theorem complete_of_cause_none (hcause : conn.cause = none) : Complete conn := by
  constructor
  · intro _
    exact hcause
  · intro cause hsome
    exact absurd (hcause.symm.trans hsome) nofun

theorem complete_close (hopen : conn.closed = false) {cause : CloseCause}
    (hended : cause.BackendEnded → conn.backendBuffer.rest = []) :
    Complete (lbCloseConnection cause conn) := by
  rw [lbCloseConnection_of_open hopen]
  constructor
  · exact nofun
  · intro cause' hsome
    obtain rfl := Option.some.inj hsome
    exact hended

theorem complete_flushClientToBackend (hopen : conn.closed = false)
    (hcause : conn.cause = none) {writes : List SendResult}
    (hfails : (∃ result ∈ writes, result.Fails) → conn.backendBuffer.rest = []) :
    Complete (flushClientToBackend writes conn) := by
  obtain ⟨sent, _, _, hsent, heq | ⟨heq, hfail⟩⟩ := flushClientToBackend_cases writes conn
  · rw [heq]
    exact complete_of_cause_none ((congrArg LbConnection.cause hsent.eq :).trans hcause)
  · rw [heq]
    have hbuffer : sent.backendBuffer = conn.backendBuffer :=
      (congrArg LbConnection.backendBuffer hsent.eq :)
    apply complete_close
    · exact (congrArg LbConnection.closed hsent.eq :).trans hopen
    · intro _
      exact (congrArg Outlet.rest hbuffer).trans (hfails hfail)

theorem complete_flushBackendToClient (hopen : conn.closed = false)
    (hcause : conn.cause = none) (writes : List SendResult) :
    Complete (flushBackendToClient writes conn) := by
  obtain ⟨sent, _, hsent, heq | heq⟩ := flushBackendToClient_cases writes conn
  · rw [heq]
    exact complete_of_cause_none ((congrArg LbConnection.cause hsent.eq :).trans hcause)
  · rw [heq]
    exact complete_close ((congrArg LbConnection.closed hsent.eq :).trans hopen) False.elim

theorem Calm.not_fails (hcalm : Calm conn event) (hwrites : event.backendWrites = event.writes)
    (hfail : ∃ result ∈ event.writes, result.Fails) : conn.backendBuffer.rest = [] := by
  by_contra hrest
  obtain ⟨result, hresult, hfails⟩ := hfail
  exact (hcalm hrest).2 result (hwrites ▸ hresult) hfails

theorem Complete.dispatched (h : Complete conn) (hd : Dispatched conn event after)
    (hcalm : Calm conn event) (hempty : event.readable → (conn.readBuffer event.role).rest = []) :
    Complete after := by
  cases hd with
  | skipped => exact h
  | hangup hopen hhangup hreadable =>
    rw [lbHandleConnectionError]
    have hended : (CloseCause.hangup event.role).BackendEnded → conn.backendBuffer.rest = [] := by
      intro hrole
      by_contra hrest
      exact (hcalm hrest).1 ⟨hrole, hhangup, hreadable⟩
    apply complete_close
    · split <;> exact hopen
    · split <;> exact hended
  | clientData hopen hrole hreadable =>
    have hcause := h.open_cause hopen
    have hwrites : event.backendWrites = event.writes := by
      rw [Event.backendWrites, hrole, hreadable]
    cases event.read with
    | bytes bytes =>
      rw [lbHandleClientData]
      split
      · exact complete_of_cause_none hcause
      · apply complete_flushClientToBackend
        · exact hopen
        · exact hcause
        · exact hcalm.not_fails hwrites
    | wouldBlock => exact h
    | failed => exact complete_close hopen False.elim
  | backendData hopen hrole hreadable =>
    have hcause := h.open_cause hopen
    have hbuffer := hempty hreadable
    rw [hrole] at hbuffer
    cases event.read with
    | bytes bytes =>
      rw [lbHandleBackendData]
      split
      · exact complete_close hopen fun _ => hbuffer
      · apply complete_flushBackendToClient
        · exact hopen
        · exact hcause
    | wouldBlock => exact h
    | failed =>
      apply complete_close
      · exact hopen
      · intro _
        exact hbuffer
  | clientWrite hopen => exact complete_flushBackendToClient hopen (h.open_cause hopen) _
  | backendWrite hopen hrole hreadable =>
    have hwrites : event.backendWrites = event.writes := by
      rw [Event.backendWrites, hrole, hreadable]
    exact complete_flushClientToBackend hopen (h.open_cause hopen) (hcalm.not_fails hwrites)

theorem complete_of_run (hrun : ReflTransGen CalmStep ⟨newConnection header, []⟩ state) :
    Sound header state ∧ Complete state.conn := by
  induction hrun with
  | refl => exact ⟨sound_newConnection header, complete_of_cause_none rfl⟩
  | tail _ hstep ih =>
    obtain ⟨hsound, hcomplete⟩ := ih
    obtain ⟨hloop, hcalm⟩ := hstep
    refine ⟨hsound.step hloop, ?_⟩
    cases hloop with
    | collect => exact hcomplete
    | dispatch conn event batch =>
      exact hcomplete.dispatched (dispatched conn event)
        (hcalm event batch rfl) (hsound.emptied event List.mem_cons_self)

/-- In every run of calm steps, a connection closed because the backend's side
ended has every byte read from the backend written to the client. -/
theorem response_complete_of_calm
    (hrun : ReflTransGen CalmStep ⟨newConnection header, []⟩ state)
    {cause : CloseCause} (hcause : state.conn.cause = some cause)
    (hended : cause.BackendEnded) :
    state.conn.toClient = state.conn.fromBackend := by
  obtain ⟨hsound, hcomplete⟩ := complete_of_run hrun
  have hresponse := hsound.relayed.toClient
  rw [hcomplete.response cause hcause hended, List.append_nil] at hresponse
  exact hresponse

/-- The backend answers with one byte. -/
def answer (writes : List SendResult) : Event :=
  ⟨.backend, true, false, false, .bytes [7], writes, false⟩

/-- An answer that the client takes, then the end of the backend's stream. -/
theorem response_complete_of_calm_eof :
    (dispatch (dispatch (newConnection []) (answer [.sent 1]))
      ⟨.backend, true, false, false, .bytes [], [], false⟩).toClient = [7] := by
  have hcollect : ∀ conn event, conn.closed = false →
      conn.backendBuffer.rest = [] → Reported conn [event] →
      ReflTransGen CalmStep ⟨conn, []⟩ ⟨dispatch conn event, []⟩ := by
    intro conn event hopen hempty hreported
    have hfirst : CalmStep ⟨conn, []⟩ ⟨conn, [event]⟩ := ⟨.collect hopen hreported, nofun⟩
    have hsecond : CalmStep ⟨conn, [event]⟩ ⟨dispatch conn event, []⟩ :=
      ⟨.dispatch conn event [], fun _ _ _ hrest => absurd hempty hrest⟩
    exact (ReflTransGen.single hfirst).tail hsecond
  have hanswer := hcollect (newConnection []) (answer [.sent 1]) rfl rfl
    (reported_singleton (fun _ => rfl) nofun)
  have hend := hcollect (dispatch (newConnection []) (answer [.sent 1]))
    ⟨.backend, true, false, false, .bytes [], [], false⟩ rfl rfl
    (reported_singleton (fun _ => rfl) nofun)
  exact response_complete_of_calm (hanswer.trans hend) rfl trivial

/-- The client does not take the answer, and the backend hangs up: the answer is
lost. -/
theorem response_truncated_by_hangup :
    ∃ state, ReflTransGen LoopStep ⟨newConnection [], []⟩ state ∧
      state.conn.cause = some (.hangup .backend) ∧
      state.conn.fromBackend = [7] ∧ state.conn.toClient = [] := by
  have hcollect : ∀ conn event, conn.closed = false → Reported conn [event] →
      ReflTransGen LoopStep ⟨conn, []⟩ ⟨dispatch conn event, []⟩ := by
    intro conn event hopen hreported
    exact (ReflTransGen.single (.collect hopen hreported)).tail (.dispatch conn event [])
  have hanswer := hcollect (newConnection []) (answer [.wouldBlock]) rfl
    (reported_singleton (fun _ => rfl) nofun)
  have hhangup := hcollect (dispatch (newConnection []) (answer [.wouldBlock]))
    ⟨.backend, false, false, true, .wouldBlock, [], false⟩ rfl (reported_singleton nofun nofun)
  exact ⟨_, hanswer.trans hhangup, rfl, rfl, rfl⟩

end Ends

end Codo.Balancer
