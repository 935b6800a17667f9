import Codo.Server.Worker
import Mathlib.Logic.Relation

/-!
# Parked connections

Bytes that are already in the read buffer raise no further event, so a
connection that waits for input must not hold anything that is to be answered: no
request while it speaks HTTP, no frame after a handshake, be it to be refused.

After a response the worker looks at the buffer again.  After the response to a
handshake it does not, so a frame that came along with the upgrade request waits
until more bytes arrive.
-/

namespace Codo.Server

open Support Common Option Relation List

/-! ## Nothing complete -/

/-- More bytes are needed to tell what the next frame is. -/
def FrameArrives (cap : ℕ) (buf : Bytes) : Prop :=
  wsDecodeFrame cap buf = .incomplete

/-- More bytes are needed to tell what the next request is. -/
def RequestArrives (cfg : ServerConfig) (buf : Bytes) : Prop :=
  (checkRequestFrame cfg.maxRequestSize buf).rc = 0

/-- The read buffer holds nothing that could be answered. -/
def ServerConn.NothingComplete (cfg : ServerConfig) (conn : ServerConn) : Prop :=
  match conn.state with
  | .readingRequest => RequestArrives cfg conn.read
  | .websocket => FrameArrives conn.readCap conn.read
  | .processing | .writingResponse => True

/-- The connection waits for input only. -/
def ServerConn.WaitsForInput (conn : ServerConn) : Prop :=
  conn.closed = false ∧ conn.offloaded = false ∧ conn.armed = .input ∧ conn.state ≠ .writingResponse

instance : DecidablePred ServerConn.WaitsForInput :=
  fun _ => inferInstanceAs (Decidable (_ ∧ _))

section Loops

theorem checkRequestFrame_of_no_newline (maxBody : ℕ) {buf : Bytes}
    (hbuf : 10 ∉ buf) : (checkRequestFrame maxBody buf).rc = 0 := by
  have hnone : findHeaderEnd 0 buf = none := by
    cases hfound : findHeaderEnd 0 buf with
    | none => rfl
    | some found =>
      obtain ⟨first, fields, head, more, ⟨-, block, -, rfl⟩, rfl⟩ := isHead_of_findHeaderEnd hfound
      exact absurd (mem_append_left more (mem_append_right first mem_cons_self)) hbuf
  rw [checkRequestFrame, frameHead, hnone]

theorem no_newline_of_consumeProxyHeader {text : AddressText} {buf : Bytes} {clientAddr : SockAddr}
    (h : (consumeProxyHeader text buf clientAddr).result = 0) : 10 ∉ buf := by
  have hneg : (-1 : ℤ) ≠ 0 := by decide
  have hpos : (1 : ℤ) ≠ 0 := by decide
  rw [consumeProxyHeader] at h
  split at h
  case isTrue =>
    split at h
    case isTrue hfront =>
      rw [hfront]
      intro hmem
      exact absurd (mem_of_mem_take hmem) (by decide)
    case isFalse => exact absurd h hneg
  case isFalse =>
    split at h
    case isTrue => exact absurd h hneg
    case isFalse =>
      split at h
      case h_1 hnone =>
        split at h
        case isTrue => exact absurd h hneg
        case isFalse hshort =>
          rw [take_of_length_le (not_le.mp hshort).le] at hnone
          exact splitByte_eq_none_iff.mp hnone
      case h_2 =>
        dsimp only at h
        split at h
        · exact absurd h hneg
        · split at h
          · exact absurd h hneg
          · exact absurd h hpos

variable {cap : ℕ}

theorem frameEnd_pos {buf : Bytes} {frame : WsFrame}
    (h : wsDecodeFrame cap buf = .frame frame) : 0 < frame.frameEnd := by
  rw [wsDecodeFrame.eq_def] at h
  split at h
  · split at h
    · cases h
    split at h
    · cases h
    split at h
    · cases h
    split at h
    · cases h
    split at h
    · cases h
    split at h
    · cases h
    · obtain rfl := WsDecoded.frame.inj h
      exact Nat.add_pos_left (Nat.add_pos_right _ (by decide)) _
  · cases h

/-- A loop that does not ask to shut down stops at a frame still arriving. -/
theorem frameArrives_wsFrameLoop {fuel : ℕ} {read : Bytes} {write : WriteBuffer}
    (hfuel : read.length ≤ fuel) (hclose : (wsFrameLoop cap fuel read write).shouldClose = false) :
    FrameArrives cap (wsFrameLoop cap fuel read write).read := by
  induction fuel generalizing read write with
  | zero =>
    obtain rfl := eq_nil_of_length_eq_zero (Nat.le_zero.mp hfuel)
    rfl
  | succ fuel ih =>
    rw [wsFrameLoop] at hclose ⊢
    cases hdecoded : wsDecodeFrame cap read with
    | incomplete => exact hdecoded
    | violation code =>
      rw [hdecoded] at hclose
      cases hclose
    | frame frame =>
      rw [hdecoded] at hclose
      dsimp only at hclose ⊢
      split at hclose
      case isTrue => exact absurd hclose nofun
      case isFalse hopen =>
        rw [if_neg hopen]
        apply ih
        · have hpos := frameEnd_pos hdecoded
          rw [length_drop]
          omega
        · exact hclose

theorem frameArrives_websocketLoop {recvs : List RecvResult} {read : Bytes}
    {write : WriteBuffer} {after : WsBuffers} (h : websocketLoop cap recvs read write = some after)
    (hclose : after.shouldClose = false) : FrameArrives cap after.read := by
  have hlast : ∀ pass : WsBuffers, some (wsProcessFrames cap pass.read pass.write) = some after →
        FrameArrives cap after.read := by
    intro pass heq
    obtain rfl := some.inj heq
    exact frameArrives_wsFrameLoop le_rfl hclose
  induction recvs generalizing read write with
  | nil =>
    rw [websocketLoop.eq_def] at h
    dsimp only at h
    generalize decodeFull cap read write = pass at h
    split at h
    · obtain rfl := some.inj h
      cases hclose
    · exact hlast _ h
  | cons recv recvs ih =>
    rw [websocketLoop.eq_def] at h
    dsimp only at h
    generalize decodeFull cap read write = pass at h
    split at h
    · obtain rfl := some.inj h
      cases hclose
    · cases recv with
      | bytes bytes => exact ih h
      | wouldBlock => exact hlast _ h
      | peerClosed => cases h
      | failed => cases h

end Loops

/-! ## Phases -/

/-- What is left in the buffer behind staged frames is still arriving, unless they
end the connection. -/
def ServerConn.FramesTaken (conn : ServerConn) : Prop :=
  conn.frames ≠ [] → conn.closing ∨ FrameArrives conn.readCap conn.read

/-- The connection waits for a request. -/
structure ReadsRequest (conn : ServerConn) : Prop where
  state_eq : conn.state = .readingRequest
  mine : conn.offloaded = false
  armed_eq : conn.armed = .input
  http : conn.handshakeComplete = false
  frames_eq : conn.frames = []

/-- What holds of a connection between events. -/
inductive Parked (cfg : ServerConfig) (conn : ServerConn) : Prop
  | closed (hclosed : conn.closed = true)
  | reading (hreads : ReadsRequest conn) (hwait : RequestArrives cfg conn.read)
  | offloaded (hoff : conn.offloaded = true) (hhttp : conn.handshakeComplete = false)
      (hframes : conn.frames = [])
  | writing (hstate : conn.state = .writingResponse)
      (hmine : conn.offloaded = false) (harmed : conn.armed = .output)
      (hhttp : conn.handshakeComplete = false → conn.frames = []) (hframes : conn.FramesTaken)
  | framed (hstate : conn.state = .websocket) (hmine : conn.offloaded = false)
      (harmed : conn.armed = .input) (hupgraded : conn.handshakeComplete)
      (hwait : FrameArrives conn.readCap conn.read)

variable {cfg : ServerConfig} {env : SendEnv} {conn : ServerConn}

theorem parked_new (clientAddr : SockAddr) (response : Response) :
    Parked cfg (newServerConn clientAddr response) :=
  .reading ⟨rfl, rfl, rfl, rfl, rfl⟩ rfl

theorem Parked.nothingComplete (h : Parked cfg conn) (hwaits : conn.WaitsForInput) :
    conn.NothingComplete cfg := by
  obtain ⟨hopen, hmine, harmed, hstate⟩ := hwaits
  rw [ServerConn.NothingComplete]
  cases h with
  | closed hclosed => exact absurd (hopen.symm.trans hclosed) nofun
  | reading hreads hwait =>
    rw [hreads.state_eq]
    exact hwait
  | offloaded hoff => exact absurd (hmine.symm.trans hoff) nofun
  | writing hwriting => exact absurd hwriting hstate
  | framed hframed _ _ _ hwait =>
    rw [hframed]
    exact hwait

theorem parked_finalizeResponse (hmine : conn.offloaded = false)
    (hframes : conn.frames = []) (armOk : Bool) : Parked cfg (finalizeResponse armOk conn) := by
  cases armOk with
  | true => exact .writing rfl hmine rfl (fun _ => hframes) fun hsome => absurd hframes hsome
  | false => exact .closed rfl

theorem parked_rejectRequest (hmine : conn.offloaded = false)
    (hframes : conn.frames = []) (armOk : Bool) (status : HttpStatus) (message : Bytes) :
    Parked cfg (rejectRequest env armOk status message conn) := by
  obtain ⟨response, write, writeCap, file, heq, -⟩ := sendErrorResponse_eq env conn status message
  rw [rejectRequest, heq]
  apply parked_finalizeResponse
  · exact hmine
  · exact hframes

theorem parked_processRequest (hmine : conn.offloaded = false)
    (hhttp : conn.handshakeComplete = false) (hframes : conn.frames = [])
    (input : DataInput) (requestLen : ℕ) :
    Parked cfg (processRequest cfg input requestLen conn) := by
  rw [processRequest]
  generalize parseHttpRequest cfg.httpDate input.bodyOk conn.request conn.read requestLen = parsed
  dsimp only
  split
  · apply parked_rejectRequest
    · exact hmine
    · exact hframes
  split
  · apply parked_rejectRequest
    · exact hmine
    · exact hframes
  generalize hnext : ({ conn with
    state := .processing
    request := parsed.request
    read := connConsumeRead parsed.buffer requestLen
    taken := conn.taken ++ [some parsed.request] } : ServerConn) = next
  have hmine' : next.offloaded = false := hnext ▸ hmine
  have hframes' : next.frames = [] := hnext ▸ hframes
  cases input.dispatch with
  | noHandler =>
    obtain ⟨response, write, writeCap, file, heq, -⟩ :=
      sendErrorResponse_eq input.env next .notFound (ascii "Not Found")
    dsimp only
    rw [heq]
    apply parked_finalizeResponse
    · exact hmine'
    · exact hframes'
  | inline outcome =>
    obtain ⟨response, write, writeCap, file, heq, -⟩ := runHandler_eq input.env next outcome
    dsimp only
    rw [heq]
    apply parked_finalizeResponse
    · exact hmine'
    · exact hframes'
  | offload => exact .offloaded rfl hhttp hframes

/-! ## Handlers -/

theorem ReadsRequest.send100Continue (h : ReadsRequest conn) (sends : List SendResult) :
    ReadsRequest (send100Continue sends conn).1 ∧
      (send100Continue sends conn).1.read = conn.read := by
  obtain ⟨pos, written, continueSent, heq, -⟩ := send100Continue_eq conn sends
  rw [heq]
  exact ⟨{ h with }, rfl⟩

theorem ReadsRequest.handleBuffered (h : ReadsRequest conn) (input : DataInput)
    (bufferFull peerClosed : Bool) :
    Parked cfg (handleBuffered cfg input bufferFull peerClosed conn) := by
  obtain ⟨hnext, hsame⟩ := h.send100Continue input.sends
  rw [Server.handleBuffered]
  dsimp only
  split
  case isTrue hzero =>
    split
    · exact parked_rejectRequest h.mine h.frames_eq _ _ _
    split
    · exact .closed rfl
    split
    · split
      · exact .reading hnext (hsame ▸ hzero)
      · exact .closed rfl
    · exact .reading h hzero
  case isFalse =>
    split
    · exact parked_rejectRequest h.mine h.frames_eq _ _ _
    split
    · exact parked_rejectRequest h.mine h.frames_eq _ _ _
    split
    · exact parked_rejectRequest h.mine h.frames_eq _ _ _
    split
    · split
      · exact parked_processRequest hnext.mine hnext.http hnext.frames_eq _ _
      · exact .closed rfl
    · exact parked_processRequest h.mine h.http h.frames_eq _ _

theorem ReadsRequest.handleClientData (h : ReadsRequest conn) (input : DataInput) :
    Parked cfg (handleClientData cfg input conn) := by
  have hstate : conn.state ≠ .websocket := ne_of_eq_of_ne h.state_eq nofun
  rw [Server.handleClientData, if_neg hstate]
  split
  · exact .closed rfl
  generalize drainSocketReads cfg.maxRequestSize input.recvs conn.read conn.readCap = reads
  have hreads : ReadsRequest
      { conn with read := reads.read, readCap := reads.readCap } := { h with }
  dsimp only
  split
  · exact .closed rfl
  split
  · split
    · exact .closed rfl
    split
    case isTrue hproxy =>
      split
      · exact .closed rfl
      · exact .reading hreads (checkRequestFrame_of_no_newline _
          (no_newline_of_consumeProxyHeader hproxy))
    case isFalse =>
      apply ReadsRequest.handleBuffered
      exact { h with }
  · exact hreads.handleBuffered _ _ _

theorem parked_handleWebsocketData (hstate : conn.state = .websocket)
    (hmine : conn.offloaded = false) (harmed : conn.armed = .input)
    (hupgraded : conn.handshakeComplete) (input : DataInput) :
    Parked cfg (handleWebsocketData input conn) := by
  rw [handleWebsocketData]
  split
  · exact .closed rfl
  case h_2 after hloop =>
    dsimp only
    have hplain : conn.handshakeComplete = false → conn.frames ++ [after.write.bytes] = [] :=
      fun hfalse => absurd hupgraded (ne_of_eq_of_ne hfalse nofun)
    have htaken : after.shouldClose = true ∨ FrameArrives conn.readCap after.read := by
      cases hclose : after.shouldClose with
      | true => exact .inl rfl
      | false => exact .inr (frameArrives_websocketLoop hloop hclose)
    split
    · rw [armSocket]
      split
      · exact .writing rfl hmine rfl hplain fun _ => htaken
      · exact .closed rfl
    split
    · exact .closed rfl
    case isFalse hclose => exact .framed hstate hmine harmed hupgraded (htaken.resolve_left hclose)

/-- The response to a handshake is written out only when what the client has sent
ahead of it is still arriving. -/
def CalmWrite (conn : ServerConn) : Prop :=
  conn.handshakeComplete → conn.frames = [] → FrameArrives conn.readCap conn.read

theorem parked_responseWritten (hmine : conn.offloaded = false)
    (hhttp : conn.handshakeComplete = false → conn.frames = [])
    (hframes : conn.FramesTaken) (hcalm : CalmWrite conn) (input : WriteInput) :
    Parked cfg (responseWritten cfg input conn) := by
  rw [responseWritten]
  split
  case isTrue hupgraded =>
    split
    · exact .closed rfl
    case isFalse hclosing =>
      have hwait : FrameArrives conn.readCap conn.read := by
        by_cases hnone : conn.frames = []
        · exact hcalm hupgraded hnone
        · exact (hframes hnone).resolve_left hclosing
      rw [armSocket]
      split
      · exact .framed rfl hmine rfl hupgraded hwait
      · exact .closed rfl
  case isFalse hplain =>
    have hfalse : conn.handshakeComplete = false := Bool.eq_false_iff.mpr hplain
    split
    · exact .closed rfl
    have hreset : ReadsRequest { resetForNextRequest input.shrinkOk conn with armed := .input } :=
      ⟨rfl, hmine, rfl, hfalse, hhttp hfalse⟩
    rw [armSocket]
    dsimp only
    split
    · split
      · exact hreset.handleClientData input.next
      case isFalse hidle =>
        -- Nothing is left in the buffer, or the connection is torn down.
        rw [not_and_or, not_not] at hidle
        rcases hidle with hclosed | hempty
        · exact .closed (Bool.not_eq_false _ ▸ hclosed)
        · refine .reading hreset ?_
          rw [show ({ resetForNextRequest input.shrinkOk conn with
            armed := .input } : ServerConn).read = [] from hempty]
          rfl
    · exact .closed rfl

theorem parked_handleClientWrite (hstate : conn.state = .writingResponse)
    (hmine : conn.offloaded = false) (harmed : conn.armed = .output)
    (hhttp : conn.handshakeComplete = false → conn.frames = [])
    (hframes : conn.FramesTaken) (hcalm : CalmWrite conn) (input : WriteInput) :
    Parked cfg (handleClientWrite cfg input conn) := by
  rw [handleClientWrite, if_neg (not_not.mpr hstate)]
  generalize conn.write.drain input.sends = flushed
  dsimp only
  cases flushed.outcome with
  | blocked => exact .writing hstate hmine harmed hhttp hframes
  | failed => exact .closed rfl
  | drained =>
    dsimp only
    split
    · apply parked_responseWritten
      · exact hmine
      · exact hhttp
      · exact hframes
      · exact hcalm
    case h_2 file _ =>
      generalize file.drain input.fileSends = streamed
      cases streamed.outcome with
      | blocked => exact .writing hstate hmine harmed hhttp hframes
      | failed => exact .closed rfl
      | drained =>
        apply parked_responseWritten
        · exact hmine
        · exact hhttp
        · exact hframes
        · exact hcalm

theorem parked_runOffloadedHandler (hframes : conn.frames = []) (outcome : HandlerOutcome) :
    Parked cfg (runOffloadedHandler env outcome conn) := by
  obtain ⟨response, write, writeCap, file, heq, -⟩ := runHandler_eq env conn outcome
  rw [runOffloadedHandler, heq]
  exact .writing rfl rfl rfl (fun _ => hframes) fun hsome => absurd hframes hsome

/-! ## Runs -/

/-- A step that meets `CalmWrite` when it writes. -/
inductive CalmWriteStep (cfg : ServerConfig) : ServerConn → ServerConn → Prop
  | event {conn : ServerConn} (event : ServerEvent) :
      conn.closed = false → event.Enabled conn →
      (∀ input, event = .writable input → CalmWrite conn) →
      CalmWriteStep cfg conn (serverStep cfg conn event)

section Runs

variable {conn' : ServerConn}

theorem Parked.step (h : Parked cfg conn) (hstep : CalmWriteStep cfg conn conn') :
    Parked cfg conn' := by
  obtain ⟨event, hopen, henabled, hcalm⟩ := hstep
  cases event with
  | dropped => exact .closed rfl
  | readable input =>
    obtain ⟨hmine, harmed⟩ := henabled
    cases h with
    | closed hclosed => exact absurd (hopen.symm.trans hclosed) nofun
    | reading hreads _ => exact hreads.handleClientData input
    | offloaded hoff => exact absurd (hmine.symm.trans hoff) nofun
    | writing _ _ hout => exact absurd (hout.symm.trans harmed) nofun
    | framed hstate _ _ hupgraded _ =>
      rw [serverStep, handleClientData, if_pos hstate]
      split
      · exact .closed rfl
      · exact parked_handleWebsocketData hstate hmine harmed hupgraded input
  | writable input =>
    obtain ⟨hmine, harmed⟩ := henabled
    cases h with
    | closed hclosed => exact absurd (hopen.symm.trans hclosed) nofun
    | reading hreads _ => exact absurd (hreads.armed_eq.symm.trans harmed) nofun
    | offloaded hoff => exact absurd (hmine.symm.trans hoff) nofun
    | writing hstate _ _ hhttp hframes =>
      exact parked_handleClientWrite hstate hmine harmed hhttp hframes (hcalm input rfl) input
    | framed _ _ hin => exact absurd (hin.symm.trans harmed) nofun
  | poolDone env outcome =>
    have hoff : conn.offloaded = true := henabled
    cases h with
    | closed hclosed => exact absurd (hopen.symm.trans hclosed) nofun
    | reading hreads _ => exact absurd (hreads.mine.symm.trans hoff) nofun
    | offloaded _ _ hframes => exact parked_runOffloadedHandler hframes outcome
    | writing _ hmine => exact absurd (hmine.symm.trans hoff) nofun
    | framed _ hmine => exact absurd (hmine.symm.trans hoff) nofun

theorem parked_of_run {clientAddr : SockAddr} {response : Response}
    (hrun : ReflTransGen (CalmWriteStep cfg)
      (newServerConn clientAddr response) conn) : Parked cfg conn := by
  induction hrun with
  | refl => exact parked_new clientAddr response
  | tail _ hstep ih => exact ih.step hstep

/-- Unless a frame comes ahead of the response to the handshake, a connection
that waits for input holds nothing complete. -/
theorem nothingComplete_of_calm {clientAddr : SockAddr} {response : Response}
    (hrun : ReflTransGen (CalmWriteStep cfg)
      (newServerConn clientAddr response) conn)
    (hwaits : conn.WaitsForInput) : conn.NothingComplete cfg :=
  (parked_of_run hrun).nothingComplete hwaits

end Runs

/-- An upgrade request arrives in one read with the bytes `early` behind it, and
the handshake is accepted. -/
def upgradedConn (early : Bytes) : ServerConn :=
  serverStep plainConfig (newServerConn .other blankResponse) (arrival
      (ascii ("GET /ws HTTP/1.1\r\nUpgrade: websocket\r\nConnection: Upgrade\r\n" ++
        "Sec-WebSocket-Key: dGhlIHNhbXBsZSBub25jZQ==\r\n\r\n") ++ early) [] (.inline
        { rc := 0
          staged := ascii ("HTTP/1.1 101 Switching Protocols\r\n" ++
            "Upgrade: websocket\r\nConnection: Upgrade\r\n" ++
            "Sec-WebSocket-Accept: s3pPLMBiTxaQ9kYGzzhZRbK+xOo=\r\n\r\n")
          writeCap := 8192
          file := none
          response := { blankResponse with status := .switchingProtocols }
          handshake := true }))

/-- The response to the handshake is written. -/
def framedConn (early : Bytes) : ServerConn :=
  serverStep plainConfig (upgradedConn early) (departure [.sent 1000])

/-- The first byte of a frame comes along with the upgrade request, and the
response to the handshake is written. -/
theorem nothingComplete_of_calm_handshake :
    ReflTransGen (CalmWriteStep plainConfig) (newServerConn .other blankResponse)
        (framedConn [0x81]) ∧
      (framedConn [0x81]).handshakeComplete ∧ (framedConn [0x81]).read = [0x81] ∧
      (framedConn [0x81]).WaitsForInput ∧
      (framedConn [0x81]).NothingComplete plainConfig := by
  have hupgraded : CalmWriteStep plainConfig (newServerConn .other blankResponse)
      (upgradedConn [0x81]) :=
    .event _ rfl ⟨rfl, rfl⟩ fun _ hwrite => absurd hwrite arrival_ne_writable
  have hopen : (upgradedConn [0x81]).closed = false ∧ (upgradedConn [0x81]).offloaded = false ∧
      (upgradedConn [0x81]).armed = .output ∧
      wsDecodeFrame (upgradedConn [0x81]).readCap (upgradedConn [0x81]).read =
        .incomplete := by decide +kernel
  have hcalm : CalmWrite (upgradedConn [0x81]) := by
    intro _ _
    exact hopen.2.2.2
  have hframed : CalmWriteStep plainConfig (upgradedConn [0x81]) (framedConn [0x81]) :=
    .event _ hopen.1 ⟨hopen.2.1, hopen.2.2.1⟩ fun _ _ => hcalm
  have hrun := (ReflTransGen.single hupgraded).tail hframed
  have hends : (framedConn [0x81]).handshakeComplete ∧
      (framedConn [0x81]).read = [0x81] ∧ (framedConn [0x81]).WaitsForInput := by
    decide +kernel
  -- From here on the connection is not computed any more.
  generalize framedConn [0x81] = conn at hrun hends ⊢
  exact ⟨hrun, hends.1, hends.2.1, hends.2.2, nothingComplete_of_calm hrun hends.2.2⟩

/-- An empty text frame. -/
def emptyText : Bytes := [0x81, 0x80, 1, 2, 3, 4]

/-- A frame that comes along with the upgrade request is left in the buffer of a
connection that waits for input. -/
theorem nothingComplete_fails_after_handshake :
    ReflTransGen (ServerStep plainConfig)
        (newServerConn .other blankResponse) (framedConn emptyText) ∧
      (framedConn emptyText).WaitsForInput ∧
      ¬(framedConn emptyText).NothingComplete plainConfig := by
  have hupgraded : ServerStep plainConfig (newServerConn .other blankResponse)
      (upgradedConn emptyText) := .event _ rfl ⟨rfl, rfl⟩
  have hopen : (upgradedConn emptyText).closed = false ∧
      (upgradedConn emptyText).offloaded = false ∧
      (upgradedConn emptyText).armed = .output := by decide +kernel
  have hframed : ServerStep plainConfig (upgradedConn emptyText)
      (framedConn emptyText) := .event _ hopen.1 hopen.2
  have hends : (framedConn emptyText).WaitsForInput ∧ (framedConn emptyText).state = .websocket ∧
      wsDecodeFrame (framedConn emptyText).readCap (framedConn emptyText).read =
        .frame ⟨true, 1, [1, 2, 3, 4], [], 6⟩ := by decide +kernel
  refine ⟨(ReflTransGen.single hupgraded).tail hframed, hends.1, ?_⟩
  rw [ServerConn.NothingComplete, hends.2.1]
  exact fun hnone => absurd (hends.2.2.symm.trans hnone) nofun

end Codo.Server
