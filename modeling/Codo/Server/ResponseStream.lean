import Codo.Server.Worker
import Mathlib.Logic.Relation

/-!
# The stream of responses

What a connection has sent is a front part of a sequence of whole messages: for
each request its response, behind at most one interim line, and frames behind
the response that accepted a handshake.

The interim line is written past the write buffer, and it may be written in
part.  A complete request flushes the rest of it before anything else; a request
that the framer refuses does not, so its error response follows the part of the
line that is out.
-/

namespace Codo.Server

open Support Common List Relation

/-! ## Well-formed streams -/

def interimIf (interim : Bool) : Bytes :=
  if interim then interimLine else []

/-- The responses, each behind its interim line if it has one. -/
def streamBytes (interims : List Bool) (responses : List Bytes) : Bytes :=
  (interims.zip responses).flatMap fun message => interimIf message.1 ++ message.2

/-- The bytes sent are a front part of the responses in order, with at most one
interim line for each request, and the frames. -/
def ServerConn.WellFormed (conn : ServerConn) : Prop :=
  ∃ interims last, interims.length = conn.responses.length ∧ (conn.frames = [] ∨ last = false) ∧
    conn.sent <+: streamBytes interims conn.responses ++ (interimIf last ++ conn.frames.flatten)

/-- The bytes are the responses, with interim lines, and a tail. -/
def Ledger (bytes : Bytes) (responses : List Bytes) (tail : Bytes) : Prop :=
  ∃ interims, interims.length = responses.length ∧ bytes = streamBytes interims responses ++ tail

section Ledgers

variable {bytes tail : Bytes} {responses : List Bytes}

theorem streamBytes_concat {interims : List Bool}
    (hlen : interims.length = responses.length) (interim : Bool) (response : Bytes) :
    streamBytes (interims ++ [interim]) (responses ++ [response]) =
      streamBytes interims responses ++ (interimIf interim ++ response) := by
  rw [streamBytes, zip_append hlen, flatMap_append]
  exact congrArg (streamBytes interims responses ++ ·) (append_nil _)

theorem Ledger.nil : Ledger [] [] [] :=
  ⟨[], rfl, rfl⟩

theorem Ledger.append (h : Ledger bytes responses tail) (more : Bytes) :
    Ledger (bytes ++ more) responses (tail ++ more) := by
  obtain ⟨interims, hlen, heq⟩ := h
  exact ⟨interims, hlen, by rw [heq, append_assoc]⟩

theorem Ledger.stage {interim : Bool}
    (h : Ledger bytes responses (interimIf interim)) (response : Bytes) :
    Ledger (bytes ++ response) (responses ++ [response]) [] := by
  obtain ⟨interims, hlen, heq⟩ := h
  refine ⟨interims ++ [interim], ?_, ?_⟩
  · rw [length_append, length_append, hlen]
    rfl
  · rw [streamBytes_concat hlen, heq, append_assoc, append_nil]

end Ledgers

/-! ## Phases -/

/-- The part of the response that is still to be written. -/
def ServerConn.owed (conn : ServerConn) : Bytes :=
  conn.write.rest ++ conn.file.elim [] Outlet.rest

/-- No part of an interim line is out, or all of it. -/
def WholeInterim (conn : ServerConn) : Prop :=
  conn.continuePos = 0 ∨ interimLine.length ≤ conn.continuePos

/-- A request is being read, or waits for its response. -/
structure OpenPhase (cfg : ServerConfig) (conn : ServerConn) : Prop where
  ledger : Ledger conn.sent conn.responses (interimLine.take conn.continuePos)
  write_eq : conn.write = ⟨[], 0⟩
  file_eq : conn.file = none
  frames_eq : conn.frames = []
  http : conn.handshakeComplete = false
  state_ne : conn.state ≠ .writingResponse ∧ conn.state ≠ .websocket
  continued : conn.continueSent → interimLine.length ≤ conn.continuePos
  proxy : cfg.trustProxyProtocol → conn.proxyHeaderDone = false → conn.continuePos = 0
  taken_eq :
    conn.taken.length = conn.responses.length + if conn.offloaded then 1 else 0
  armed_ne : conn.closed = false → conn.armed ≠ .output
  reading : conn.closed = false → conn.offloaded = false → conn.armed = .input
  whole : conn.offloaded → WholeInterim conn

/-- A response, or a batch of frames, is being written. -/
structure WritingPhase (conn : ServerConn) : Prop where
  ledger : Ledger (conn.sent ++ conn.owed) conn.responses conn.frames.flatten
  frames_eq : conn.handshakeComplete = false → conn.frames = []
  state_eq : conn.state = .writingResponse
  taken_eq : conn.taken.length = conn.responses.length
  mine : conn.offloaded = false
  armed_eq : conn.closed = false → conn.armed = .output

structure FramedPhase (conn : ServerConn) : Prop where
  ledger : Ledger conn.sent conn.responses conn.frames.flatten
  write_eq : conn.write = ⟨[], 0⟩
  file_eq : conn.file = none
  upgraded : conn.handshakeComplete
  state_eq : conn.state = .websocket
  taken_eq : conn.taken.length = conn.responses.length
  mine : conn.offloaded = false
  armed_eq : conn.closed = false → conn.armed = .input

/-- What holds of a connection between events. -/
inductive Streams (cfg : ServerConfig) (conn : ServerConn) : Prop
  | reading (h : OpenPhase cfg conn)
  | writing (h : WritingPhase conn)
  | framed (h : FramedPhase conn)

variable {cfg : ServerConfig} {env : SendEnv} {conn : ServerConn}

theorem OpenPhase.new (clientAddr : SockAddr) (response : Response) :
    OpenPhase cfg (newServerConn clientAddr response) where
  ledger := .nil
  write_eq := rfl
  file_eq := rfl
  frames_eq := rfl
  http := rfl
  state_ne := ⟨nofun, nofun⟩
  continued := nofun
  proxy _ _ := rfl
  taken_eq := rfl
  armed_ne _ := nofun
  reading _ _ := rfl
  whole := nofun

theorem OpenPhase.drop (h : OpenPhase cfg conn) : OpenPhase cfg (dropConnection conn) :=
  { h with armed_ne := nofun, reading := nofun }

theorem WritingPhase.drop (h : WritingPhase conn) : WritingPhase (dropConnection conn) :=
  { h with armed_eq := nofun }

theorem FramedPhase.drop (h : FramedPhase conn) : FramedPhase (dropConnection conn) :=
  { h with armed_eq := nofun }

theorem Streams.drop (h : Streams cfg conn) : Streams cfg (dropConnection conn) := by
  cases h with
  | reading h => exact .reading h.drop
  | writing h => exact .writing h.drop
  | framed h => exact .framed h.drop

theorem Streams.wellFormed (h : Streams cfg conn) : conn.WellFormed := by
  cases h with
  | reading h =>
    obtain ⟨interims, hlen, hsent⟩ := h.ledger
    refine ⟨interims, true, hlen, .inl h.frames_eq, ?_⟩
    rw [hsent, h.frames_eq]
    exact (prefix_append_right_inj _).mpr ((List.take_prefix _ _).trans (prefix_append _ _))
  | writing h =>
    obtain ⟨interims, hlen, hsent⟩ := h.ledger
    refine ⟨interims, false, hlen, .inr rfl, ?_⟩
    exact hsent ▸ prefix_append conn.sent conn.owed
  | framed h =>
    obtain ⟨interims, hlen, hsent⟩ := h.ledger
    exact ⟨interims, false, hlen, .inr rfl, hsent ▸ prefix_rfl⟩

theorem Streams.taken_eq (h : Streams cfg conn) :
    conn.taken.length = conn.responses.length + if conn.offloaded then 1 else 0 := by
  cases h with
  | reading h => exact h.taken_eq
  | writing h =>
    rw [h.mine, h.taken_eq]
    rfl
  | framed h =>
    rw [h.mine, h.taken_eq]
    rfl

/-! ## Answering a request -/

/-- A request was taken, and its response is not staged yet. -/
structure Unanswered (conn : ServerConn) : Prop where
  ledger : ∃ interim, Ledger conn.sent conn.responses (interimIf interim)
  frames_eq : conn.frames = []
  taken_eq : conn.taken.length = conn.responses.length + 1

/-- Nothing of what is staged is written yet. -/
def Fresh (write : Outlet) (file : Option Outlet) : Prop :=
  write.sent = 0 ∧ ∀ f ∈ file, f.sent = 0

variable (env) in
theorem sendErrorResponse_fresh (hwrite : conn.write = ⟨[], 0⟩)
    (hfile : conn.file = none) (status : HttpStatus) (message : Bytes) :
    ∃ response write writeCap file, sendErrorResponse env status message conn =
        { conn with
          response := response
          write := write
          writeCap := writeCap
          file := file } ∧
      Fresh write file := by
  obtain ⟨response, write, writeCap, file, heq, hwrite', hfile'⟩ :=
    sendErrorResponse_eq env conn status message
  refine ⟨response, write, writeCap, file, heq, ?_, ?_⟩
  · rcases hwrite' with rfl | hsent
    · rw [hwrite]
    · exact hsent
  · rcases hfile' with rfl | rfl
    · rw [hfile]
      exact nofun
    · exact nofun

theorem owed_of_fresh (hfresh : Fresh conn.write conn.file) : conn.owed = conn.staged := by
  obtain ⟨hwrite, hfile⟩ := hfresh
  have hrest : ∀ outlet : Outlet, outlet.sent = 0 → outlet.rest = outlet.bytes := by
    intro outlet hsent
    rw [Outlet.rest, hsent, drop_zero]
  rw [ServerConn.owed, ServerConn.staged, hrest conn.write hwrite]
  cases hcase : conn.file with
  | none => rfl
  | some file => exact congrArg (conn.write.bytes ++ ·) (hrest file (hfile file hcase))

section

variable (h : Unanswered conn)
include h

theorem Unanswered.ledger_stage (hfresh : Fresh conn.write conn.file) :
    Ledger (conn.sent ++ conn.owed) (conn.responses ++ [conn.staged])
      conn.frames.flatten := by
  obtain ⟨interim, hledger⟩ := h.ledger
  rw [owed_of_fresh hfresh, h.frames_eq]
  exact hledger.stage conn.staged

theorem Unanswered.taken_stage : conn.taken.length = (conn.responses ++ [conn.staged]).length := by
  rw [h.taken_eq, length_append, length_singleton]

theorem Unanswered.finalize (hfresh : Fresh conn.write conn.file)
    (hmine : conn.offloaded = false) (armOk : Bool) :
    WritingPhase (finalizeResponse armOk conn) := by
  cases armOk with
  | true =>
    exact ⟨h.ledger_stage hfresh, fun _ => h.frames_eq, rfl, h.taken_stage, hmine, fun _ => rfl⟩
  | false => exact ⟨h.ledger_stage hfresh, fun _ => h.frames_eq, rfl, h.taken_stage, hmine, nofun⟩

theorem Unanswered.sendError (hwrite : conn.write = ⟨[], 0⟩)
    (hfile : conn.file = none) (hmine : conn.offloaded = false) (armOk : Bool)
    (status : HttpStatus) (message : Bytes) :
    WritingPhase (finalizeResponse armOk (sendErrorResponse env status message conn)) := by
  obtain ⟨response, write, writeCap, file, heq, hfresh⟩ :=
    sendErrorResponse_fresh env hwrite hfile status message
  rw [heq]
  apply Unanswered.finalize
  · exact ⟨h.ledger, h.frames_eq, h.taken_eq⟩
  · exact hfresh
  · exact hmine

theorem Unanswered.runHandler (hmine : conn.offloaded = false) (armOk : Bool)
    (outcome : HandlerOutcome) :
    WritingPhase (finalizeResponse armOk (runHandler env outcome conn)) := by
  obtain ⟨response, write, writeCap, file, heq, hfresh⟩ := runHandler_eq env conn outcome
  rw [heq]
  apply Unanswered.finalize
  · exact ⟨h.ledger, h.frames_eq, h.taken_eq⟩
  · exact hfresh
  · exact hmine

end

theorem OpenPhase.ledger_interimIf (h : OpenPhase cfg conn) (hwhole : WholeInterim conn) :
    ∃ interim, Ledger conn.sent conn.responses (interimIf interim) := by
  rcases hwhole with hnone | hall
  · refine ⟨false, ?_⟩
    have hledger := h.ledger
    rw [hnone] at hledger
    exact hledger
  · refine ⟨true, ?_⟩
    have hledger := h.ledger
    rw [take_of_length_le hall] at hledger
    exact hledger

theorem OpenPhase.length_taken (h : OpenPhase cfg conn)
    (hmine : conn.offloaded = false) (request : Option Request) :
    (conn.taken ++ [request]).length = conn.responses.length + 1 := by
  rw [length_append, h.taken_eq, hmine]
  rfl

theorem OpenPhase.reject (h : OpenPhase cfg conn) (hwhole : WholeInterim conn)
    (hmine : conn.offloaded = false) (armOk : Bool) (status : HttpStatus) (message : Bytes) :
    WritingPhase (rejectRequest env armOk status message conn) := by
  obtain ⟨response, write, writeCap, file, heq, hfresh⟩ :=
    sendErrorResponse_fresh env h.write_eq h.file_eq status message
  rw [rejectRequest, heq]
  apply Unanswered.finalize
  · exact ⟨h.ledger_interimIf hwhole, h.frames_eq, h.length_taken hmine none⟩
  · exact hfresh
  · exact hmine

theorem OpenPhase.processRequest (h : OpenPhase cfg conn)
    (hwhole : WholeInterim conn) (hmine : conn.offloaded = false)
    (input : DataInput) (requestLen : ℕ) :
    Streams cfg (processRequest cfg input requestLen conn) := by
  rw [Server.processRequest]
  generalize parseHttpRequest cfg.httpDate input.bodyOk conn.request conn.read requestLen = parsed
  have hparsed : OpenPhase cfg { conn with state := .processing, request := parsed.request } :=
    { h with state_ne := ⟨nofun, nofun⟩ }
  dsimp only
  split
  · exact .writing (hparsed.reject hwhole hmine _ _ _)
  split
  · exact .writing (hparsed.reject hwhole hmine _ _ _)
  have htaken : Unanswered
      { conn with
        state := .processing
        request := parsed.request
        read := connConsumeRead parsed.buffer requestLen
        taken := conn.taken ++ [some parsed.request] } :=
    ⟨h.ledger_interimIf hwhole, h.frames_eq, h.length_taken hmine _⟩
  cases input.dispatch with
  | noHandler => exact .writing (htaken.sendError h.write_eq h.file_eq hmine _ _ _)
  | inline outcome => exact .writing (htaken.runHandler hmine _ outcome)
  | offload =>
    exact .reading
      { hparsed with
        taken_eq := htaken.taken_eq
        armed_ne := nofun
        reading := nofun
        whole := fun _ => hwhole }

/-! ## Reading -/

/-- The framer refuses the buffered bytes, or they fill the buffer. -/
def RefusesFrame (cfg : ServerConfig) (bufferFull : Bool) (buf : Bytes) : Prop :=
  (checkRequestFrame cfg.maxRequestSize buf).rc < 0 ∨
    (checkRequestFrame cfg.maxRequestSize buf).rc = 0 ∧ bufferFull

/-- While an interim line is written in part, the bytes that arrive are not
refused. -/
def CalmData (cfg : ServerConfig) (conn : ServerConn) (input : DataInput) : Prop :=
  let reads := drainSocketReads cfg.maxRequestSize input.recvs conn.read conn.readCap
  0 < conn.continuePos → conn.continueSent = false → ¬RefusesFrame cfg reads.bufferFull reads.read

theorem OpenPhase.wholeInterim (h : OpenPhase cfg conn)
    (hcalm : ¬(0 < conn.continuePos ∧ conn.continueSent = false)) : WholeInterim conn := by
  rcases Nat.eq_zero_or_pos conn.continuePos with hzero | hpos
  · exact .inl hzero
  · have hsent : conn.continueSent = true := by
      rw [← Bool.not_eq_false]
      exact fun hfalse => hcalm ⟨hpos, hfalse⟩
    exact .inr (h.continued hsent)

theorem OpenPhase.send100Continue (h : OpenPhase cfg conn) (hmine : conn.offloaded = false)
    (hproxy : cfg.trustProxyProtocol → conn.proxyHeaderDone) (sends : List SendResult) :
    OpenPhase cfg (send100Continue sends conn).1 := by
  obtain ⟨pos, written, continueSent, heq, htake, hsent⟩ := send100Continue_eq conn sends
  rw [heq]
  have hledger := h.ledger.append written
  rw [htake] at hledger
  have hcontinued : continueSent → interimLine.length ≤ pos := by
    intro hcontinue
    rcases hsent hcontinue with hold | hnew
    · -- The line was out before, so its front part is all of it.
      have hall := h.continued hold
      rw [take_of_length_le hall] at htake
      have hlen := congrArg List.length htake
      rw [length_append, length_take] at hlen
      omega
    · exact hnew
  exact
    { h with
      ledger := hledger
      continued := hcontinued
      proxy := fun htrust hdone => absurd (hproxy htrust) (ne_of_eq_of_ne hdone nofun)
      whole := fun hoff => absurd hoff (ne_of_eq_of_ne hmine nofun) }

theorem OpenPhase.handleBuffered (h : OpenPhase cfg conn) (hmine : conn.offloaded = false)
    (hproxy : cfg.trustProxyProtocol → conn.proxyHeaderDone)
    {bufferFull : Bool} (hcalm : 0 < conn.continuePos → conn.continueSent = false →
      ¬RefusesFrame cfg bufferFull conn.read) (peerClosed : Bool) (input : DataInput) :
    Streams cfg (handleBuffered cfg input bufferFull peerClosed conn) := by
  have hwhole : RefusesFrame cfg bufferFull conn.read → WholeInterim conn :=
    fun hrefuses => h.wholeInterim fun hpart => hcalm hpart.1 hpart.2 hrefuses
  have hnext := h.send100Continue hmine hproxy input.sends
  obtain ⟨pos, written, continueSent, heq, -, -⟩ := send100Continue_eq conn input.sends
  rw [Server.handleBuffered]
  dsimp only
  split
  case isTrue hzero =>
    split
    case isTrue hfull => exact .writing (h.reject (hwhole (.inr ⟨hzero, hfull⟩)) hmine _ _ _)
    split
    · exact .reading h.drop
    split
    · split
      · exact .reading hnext
      · exact .reading hnext.drop
    · exact .reading h
  case isFalse =>
    split
    case isTrue hrc =>
      have hneg : (checkRequestFrame cfg.maxRequestSize conn.read).rc < 0 := by omega
      exact .writing (h.reject (hwhole (.inl hneg)) hmine _ _ _)
    split
    case isTrue hrc =>
      have hneg : (checkRequestFrame cfg.maxRequestSize conn.read).rc < 0 := by omega
      exact .writing (h.reject (hwhole (.inl hneg)) hmine _ _ _)
    split
    case isTrue hneg => exact .writing (h.reject (hwhole (.inl hneg)) hmine _ _ _)
    split
    · split
      case isTrue hdone =>
        have hall := hnext.continued hdone.2
        rw [heq] at hnext hall ⊢
        exact hnext.processRequest (.inr hall) hmine input _
      · exact .reading hnext.drop
    case isFalse hpart => exact h.processRequest (h.wholeInterim hpart) hmine input _

theorem OpenPhase.handleClientData (h : OpenPhase cfg conn) (hmine : conn.offloaded = false)
    {input : DataInput} (hcalm : CalmData cfg conn input) :
    Streams cfg (handleClientData cfg input conn) := by
  rw [Server.handleClientData]
  split
  · exact .reading h.drop
  rw [if_neg h.state_ne.2]
  rw [CalmData] at hcalm
  generalize drainSocketReads cfg.maxRequestSize input.recvs conn.read conn.readCap =
    reads at hcalm ⊢
  have hreads : OpenPhase cfg
      { conn with read := reads.read, readCap := reads.readCap } := { h with }
  dsimp only
  split
  · exact .reading hreads.drop
  split
  case isTrue hfirst =>
    split
    · exact .reading hreads.drop
    split
    · split
      · exact .reading hreads.drop
      · exact .reading hreads
    · have hzero := h.proxy hfirst.1 hfirst.2
      apply OpenPhase.handleBuffered
      · exact { h with proxy := nofun }
      · exact hmine
      · intro _
        rfl
      · intro hpos
        exact absurd hzero hpos.ne'
  case isFalse hdone =>
    apply hreads.handleBuffered hmine
    · intro htrust
      rw [← Bool.not_eq_false]
      exact fun hfalse => hdone ⟨htrust, hfalse⟩
    · exact hcalm

theorem FramedPhase.handleClientData (h : FramedPhase conn) (input : DataInput) :
    Streams cfg (handleClientData cfg input conn) := by
  rw [Server.handleClientData]
  split
  · exact .framed h.drop
  rw [if_pos h.state_eq, handleWebsocketData]
  split
  · exact .framed h.drop
  case h_2 after _ =>
    dsimp only
    split
    case isTrue =>
      have hledger : Ledger (conn.sent ++ (after.write.bytes ++ []))
          conn.responses (conn.frames ++ [after.write.bytes]).flatten := by
        rw [append_nil, flatten_concat]
        exact h.ledger.append after.write.bytes
      have hframes : ∀ armed closed, (closed = false → armed = Armed.output) → WritingPhase
            { conn with
              read := after.read
              write := ⟨after.write.bytes, 0⟩
              writeCap := after.write.cap
              closing := after.shouldClose
              state := .writingResponse
              frames := conn.frames ++ [after.write.bytes]
              armed := armed
              closed := closed } := by
        intro armed closed harmed
        refine ⟨?_, ?_, rfl, h.taken_eq, h.mine, harmed⟩
        · rw [ServerConn.owed, h.file_eq]
          exact hledger
        · intro hplain
          exact absurd h.upgraded (ne_of_eq_of_ne hplain nofun)
      rw [armSocket]
      split
      · exact .writing (hframes .output conn.closed fun _ => rfl)
      · exact .writing (hframes conn.armed true nofun)
    case isFalse hnone =>
      have hwrite : after.write.bytes = [] := not_not.mp hnone
      have hidle : FramedPhase
          { conn with
            read := after.read
            write := ⟨after.write.bytes, 0⟩
            writeCap := after.write.cap } :=
        { h with write_eq := by rw [hwrite] }
      split
      · exact .framed hidle.drop
      · exact .framed hidle

/-! ## Writing -/

theorem WritingPhase.responseWritten (h : WritingPhase conn)
    (hwrite : conn.write.rest = []) (hfile : conn.file = none)
    (input : WriteInput) : Streams cfg (responseWritten cfg input conn) := by
  have hledger := h.ledger
  rw [ServerConn.owed, hwrite, hfile, Option.elim_none, append_nil, append_nil] at hledger
  rw [Server.responseWritten]
  split
  case isTrue hupgraded =>
    split
    · exact .writing h.drop
    · have hframed : ∀ armed closed, (closed = false → armed = Armed.input) → FramedPhase
            { conn with
              state := .websocket
              write := ⟨[], 0⟩
              armed := armed
              closed := closed } :=
        fun _ _ harmed => ⟨hledger, rfl, hfile, hupgraded, rfl, h.taken_eq, h.mine, harmed⟩
      rw [armSocket]
      split
      · exact .framed (hframed .input conn.closed fun _ => rfl)
      · exact .framed (hframed conn.armed true nofun)
  case isFalse hplain =>
    have hhttp : conn.handshakeComplete = false := Bool.eq_false_iff.mpr hplain
    have hframes := h.frames_eq hhttp
    rw [hframes] at hledger
    split
    · exact .writing h.drop
    have htaken : conn.taken.length = conn.responses.length + if conn.offloaded then 1 else 0 := by
      rw [h.mine, h.taken_eq]
      rfl
    have hoff : conn.offloaded = true → False := by
      rw [h.mine]
      exact nofun
    have hreset : ∀ armed closed, (closed = false → armed = Armed.input) → OpenPhase cfg
          { resetForNextRequest input.shrinkOk conn with
            armed := armed
            closed := closed } := by
      intro armed closed harmed
      exact
        { ledger := hledger
          write_eq := rfl
          file_eq := hfile
          frames_eq := hframes
          http := hhttp
          state_ne := ⟨nofun, nofun⟩
          continued := nofun
          proxy := fun _ _ => rfl
          taken_eq := htaken
          armed_ne := fun hopen => ne_of_eq_of_ne (harmed hopen) nofun
          reading := fun hopen _ => harmed hopen
          whole := fun hoffloaded => (hoff hoffloaded).elim }
    rw [armSocket]
    dsimp only
    split
    · split
      · apply (hreset .input conn.closed fun _ => rfl).handleClientData
        · exact h.mine
        · exact fun hpos => absurd hpos (Nat.lt_irrefl 0)
      · exact .reading (hreset .input conn.closed fun _ => rfl)
    · exact .reading (hreset conn.armed true nofun)

theorem WritingPhase.handleClientWrite (h : WritingPhase conn) (input : WriteInput) :
    Streams cfg (handleClientWrite cfg input conn) := by
  rw [Server.handleClientWrite, if_neg (not_not.mpr h.state_eq)]
  have hflush := conn.write.drain_spec input.sends
  generalize conn.write.drain input.sends = flushed at hflush
  have hflushed : WritingPhase
      { conn with
        write := flushed.outlet
        sent := conn.sent ++ flushed.written } := by
    refine { h with ledger := ?_ }
    have hledger := h.ledger
    rw [ServerConn.owed, ← hflush.conserved] at hledger
    rw [ServerConn.owed, append_assoc, ← append_assoc flushed.written]
    exact hledger
  dsimp only
  cases houtcome : flushed.outcome with
  | blocked => exact .writing hflushed
  | failed => exact .writing hflushed.drop
  | drained =>
    have hdrained := hflush.drained_rest houtcome
    cases hfile : conn.file with
    | none =>
      rw [hfile] at hflushed
      exact hflushed.responseWritten hdrained rfl input
    | some file =>
      have hstream := file.drain_spec input.fileSends
      dsimp only
      generalize file.drain input.fileSends = streamed at hstream
      have hstreamed : ∀ left : Option Outlet,
          left.elim [] Outlet.rest = streamed.outlet.rest → WritingPhase
            { conn with
              write := flushed.outlet
              sent := conn.sent ++ flushed.written ++ streamed.written
              file := left } := by
        intro left hleft
        refine { h with ledger := ?_ }
        have hledger := hflushed.ledger
        rw [ServerConn.owed, hdrained, hfile, Option.elim_some, ← hstream.conserved] at hledger
        rw [ServerConn.owed, hdrained, hleft, append_assoc]
        exact hledger
      cases hend : streamed.outcome with
      | blocked => exact .writing (hstreamed (some streamed.outlet) rfl)
      | failed => exact .writing (hstreamed (some streamed.outlet) rfl).drop
      | drained =>
        have hnil := hstream.drained_rest hend
        exact (hstreamed none hnil.symm).responseWritten hdrained rfl input

/-! ## Runs -/

/-- A step that meets `CalmData` when it reads. -/
inductive CalmServerStep (cfg : ServerConfig) : ServerConn → ServerConn → Prop
  | event {conn : ServerConn} (event : ServerEvent) :
      conn.closed = false → event.Enabled conn →
      (∀ input, event = .readable input → CalmData cfg conn input) →
      CalmServerStep cfg conn (serverStep cfg conn event)

section Runs

variable {conn' : ServerConn}

theorem OpenPhase.poolDone (h : OpenPhase cfg conn) (hoff : conn.offloaded = true)
    (outcome : HandlerOutcome) : WritingPhase (runOffloadedHandler env outcome conn) := by
  obtain ⟨response, write, writeCap, file, heq, hfresh⟩ := runHandler_eq env conn outcome
  have htaken : conn.taken.length = conn.responses.length + 1 := by
    rw [h.taken_eq, hoff]
    rfl
  rw [runOffloadedHandler, heq]
  have hunanswered : Unanswered
      { conn with
        response := response
        write := write
        writeCap := writeCap
        file := file
        handshakeComplete := conn.handshakeComplete || outcome.handshake
        closing := conn.closing && !outcome.handshake } :=
    ⟨h.ledger_interimIf (h.whole hoff), h.frames_eq, htaken⟩
  exact ⟨hunanswered.ledger_stage hfresh, fun _ => h.frames_eq, rfl,
    hunanswered.taken_stage, rfl, fun _ => rfl⟩

theorem Streams.step (h : Streams cfg conn) (hstep : CalmServerStep cfg conn conn') :
    Streams cfg conn' := by
  obtain ⟨event, hopen, henabled, hcalm⟩ := hstep
  cases event with
  | dropped => exact h.drop
  | readable input =>
    obtain ⟨hmine, harmed⟩ := henabled
    cases h with
    | reading h => exact h.handleClientData hmine (hcalm input rfl)
    | writing h => exact absurd ((h.armed_eq hopen).symm.trans harmed) nofun
    | framed h => exact h.handleClientData input
  | writable input =>
    obtain ⟨hmine, harmed⟩ := henabled
    cases h with
    | reading h => exact absurd harmed (h.armed_ne hopen)
    | writing h => exact h.handleClientWrite input
    | framed h => exact absurd ((h.armed_eq hopen).symm.trans harmed) nofun
  | poolDone env outcome =>
    have hoff : conn.offloaded = true := henabled
    cases h with
    | reading h => exact .writing (h.poolDone hoff outcome)
    | writing h => exact absurd (h.mine.symm.trans hoff) nofun
    | framed h => exact absurd (h.mine.symm.trans hoff) nofun

theorem streams_of_run {clientAddr : SockAddr} {response : Response}
    (hrun : ReflTransGen (CalmServerStep cfg)
      (newServerConn clientAddr response) conn) : Streams cfg conn := by
  induction hrun with
  | refl => exact .reading (.new clientAddr response)
  | tail _ hstep ih => exact ih.step hstep

/-- Unless bytes are refused while an interim line is written in part, what was
sent is well formed, and every request taken has its response, apart from one
that the pool works on. -/
theorem responses_wellFormed_of_calm {clientAddr : SockAddr} {response : Response}
    (hrun : ReflTransGen (CalmServerStep cfg)
      (newServerConn clientAddr response) conn) :
    conn.WellFormed ∧ conn.taken.length =
      conn.responses.length + if conn.offloaded then 1 else 0 := by
  have hstreams := streams_of_run hrun
  exact ⟨hstreams.wellFormed, hstreams.taken_eq⟩

end Runs

/-! ## A request with an interim line -/

/-- The client asks for an interim line, of which ten bytes can be written. -/
def askedConn : ServerConn :=
  serverStep plainConfig (newServerConn .other blankResponse)
    (arrival (ascii ("POST / HTTP/1.1\r\nExpect: 100-continue\r\n" ++
      "Transfer-Encoding: chunked\r\n\r\n")) [.sent 10] .noHandler)

/-- An empty body follows, and the rest of the line can be written. -/
def bodyConn : ServerConn :=
  serverStep plainConfig askedConn (arrival (ascii "0\r\n\r\n") [.sent 100] .noHandler)

def answeredConn : ServerConn :=
  serverStep plainConfig bodyConn (departure [.sent 1000])

theorem calmData_new (input : DataInput) :
    CalmData plainConfig (newServerConn .other blankResponse) input :=
  fun hpos => absurd hpos (Nat.lt_irrefl 0)

/-- The interim line is written in two parts, and the response behind it. -/
theorem responses_wellFormed_of_calm_interim :
    ReflTransGen (CalmServerStep plainConfig)
        (newServerConn .other blankResponse) answeredConn ∧
      answeredConn.responses.length = 1 ∧
      answeredConn.sent = interimLine ++ answeredConn.responses.flatten ∧
      answeredConn.WellFormed := by
  have hasked : CalmServerStep plainConfig (newServerConn .other blankResponse)
      askedConn := .event _ rfl ⟨rfl, rfl⟩ fun input _ => calmData_new input
  have hbody : CalmServerStep plainConfig askedConn bodyConn := by
    have hready : askedConn.closed = false ∧ askedConn.offloaded = false ∧
        askedConn.armed = .input := by decide +kernel
    refine .event _ hready.1 hready.2 fun input hevent _ _ => ?_
    cases hevent
    rw [RefusesFrame]
    decide +kernel
  have hanswered : CalmServerStep plainConfig bodyConn answeredConn := by
    have hready : bodyConn.closed = false ∧ bodyConn.offloaded = false ∧
        bodyConn.armed = .output := by decide +kernel
    exact .event _ hready.1 hready.2 fun _ hread => absurd hread departure_ne_readable
  have hrun := ((ReflTransGen.single hasked).tail hbody).tail hanswered
  have hsent : answeredConn.responses.length = 1 ∧
      answeredConn.sent = interimLine ++ answeredConn.responses.flatten := by
    decide +kernel
  -- From here on the connection is not computed any more.
  generalize answeredConn = conn at hrun hsent ⊢
  exact ⟨hrun, hsent.1, hsent.2, (responses_wellFormed_of_calm hrun).1⟩

/-- A chunk size that is not a number follows. -/
def refusedConn : ServerConn :=
  serverStep plainConfig askedConn (arrival (ascii "zz\r\n") [] .noHandler)

def tornConn : ServerConn :=
  serverStep plainConfig refusedConn (departure [.sent 5])

/-- The error response follows the first ten bytes of the interim line. -/
theorem responses_torn_by_refusal :
    ReflTransGen (ServerStep plainConfig)
        (newServerConn .other blankResponse) tornConn ∧
      tornConn.sent = ascii "HTTP/1.1 1HTTP/" ∧ ¬tornConn.WellFormed := by
  have hasked : ServerStep plainConfig (newServerConn .other blankResponse)
      askedConn := .event _ rfl ⟨rfl, rfl⟩
  have hrefused : ServerStep plainConfig askedConn refusedConn :=
    .event _ (by decide +kernel) ⟨by decide +kernel, by decide +kernel⟩
  have htorn : ServerStep plainConfig refusedConn tornConn :=
    .event _ (by decide +kernel) ⟨by decide +kernel, by decide +kernel⟩
  have hends : tornConn.sent = ascii "HTTP/1.1 1HTTP/" ∧
      tornConn.responses.length = 1 ∧ tornConn.frames = [] := by decide +kernel
  refine ⟨((ReflTransGen.single hasked).tail hrefused).tail htorn, hends.1, ?_⟩
  rintro ⟨interims, last, hlen, -, hstream⟩
  rw [hends.1, hends.2.2] at hstream
  obtain ⟨interim, rfl⟩ := length_eq_one_iff.mp (hlen.trans hends.2.1)
  have hnone : ∀ interim last : Bool, ¬ascii "HTTP/1.1 1HTTP/" <+:
      streamBytes [interim] tornConn.responses ++ (interimIf last ++ [].flatten) := by
    decide +kernel
  exact hnone interim last hstream

end Codo.Server
