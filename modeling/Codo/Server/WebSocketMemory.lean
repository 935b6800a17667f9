import Codo.Server.Parked
import Codo.Server.WebSocketEcho
import Codo.Support.Checked

/-!
# WebSocket frames in the read buffer

`ws_process_frames` on the buffered bytes themselves: positions instead of
slices, the payload unmasked in place, every access and every subtraction of
sizes checked.  The run agrees with the one on byte strings, and it never leaves
a full buffer behind unless it asks to shut down.
-/

namespace Codo.Server

open Support Common List Option

namespace InBuffer

variable {avail : ℕ}

/-- `ws_frame_t`, with the mask given by its position. -/
structure FrameAt where
  fin : Bool
  opcode : UInt8
  maskOff : ℕ
  payloadOff : ℕ
  len : ℕ
  frameEnd : ℕ

inductive DecodedAt
  | incomplete
  | violation (closeCode : ℕ)
  | frame (frame : FrameAt)

/-- The payload length and the size of the header in front of the mask. -/
def wsLength (buf : Block avail) (off len7 : ℕ) : Checked (Option (ℕ × ℕ)) :=
  if len7 = 126 then do
    if (← checkedSub avail off) < 4 then pure none
    else pure (some (beValue (← buf.load (off + 2) 2), 4))
  else if len7 = 127 then do
    if (← checkedSub avail off) < 10 then pure none
    else pure (some (beValue (← buf.load (off + 2) 8), 10))
  else pure (some (len7, 2))

/-- `ws_decode_frame` behind the length field. -/
def wsFrameAt (avail cap off header len : ℕ) (b0 b1 : UInt8) : Checked DecodedAt :=
  if b1 &&& 0x80 = 0 then pure (.violation 1002)
  else if cap < header + 4 + 1 then pure (.violation 1009)
  else do
    let room ← checkedSub (← checkedSub (← checkedSub cap 1) header) 4
    if room < len then pure (.violation 1009)
    else
      let maskOff := off + header
      if (← checkedSub avail maskOff) < 4 then pure .incomplete
      else
        let payloadOff := maskOff + 4
        if (← checkedSub avail payloadOff) < len then pure .incomplete
        else pure (.frame
          { fin := b0 &&& 0x80 ≠ 0
            opcode := b0 &&& 0x0F
            maskOff := maskOff
            payloadOff := payloadOff
            len := len
            frameEnd := payloadOff + len })

def wsDecodeFrame (cap : ℕ) (buf : Block avail) (off : ℕ) :
    Checked DecodedAt := do
  if (← checkedSub avail off) < 2 then pure .incomplete
  else
    let b0 ← buf.byte off
    let b1 ← buf.byte (off + 1)
    if b0 &&& 0x70 ≠ 0 then pure (.violation 1002)
    else
      match ← wsLength buf off (b1 &&& 0x7F).toNat with
      | none => pure .incomplete
      | some (len, header) => wsFrameAt avail cap off header len b0 b1

/-- The loop of `ws_process_frames`: the buffer, how much of it is consumed, the
write buffer and whether to shut down. -/
def wsFrameLoop (cap : ℕ) : ℕ → Block avail → ℕ → WriteBuffer →
    Checked (Block avail × ℕ × WriteBuffer × Bool)
  | 0, buf, off, write => if off < avail then .error .endless else pure (buf, off, write, false)
  | fuel + 1, buf, off, write =>
    if off < avail then do
      match ← wsDecodeFrame cap buf off with
      | .incomplete => pure (buf, off, write, false)
      | .violation code => pure (buf, off, wsAppendClose write code, true)
      | .frame frame =>
        let mask ← buf.load frame.maskOff 4
        let masked ← buf.load frame.payloadOff frame.len
        let payload := applyMask mask masked
        let buf ← buf.store frame.payloadOff payload
        let (write, shouldClose) := wsHandleFrame write
          ⟨frame.fin, frame.opcode, mask, masked, frame.frameEnd⟩ payload
        if shouldClose then pure (buf, frame.frameEnd, write, true)
        else wsFrameLoop cap fuel buf frame.frameEnd write
    else pure (buf, off, write, false)

/-- The end of `ws_process_frames`: what is not consumed moves to the front. -/
def keepRest (buf : Block avail) (off : ℕ) : Checked Bytes := do
  let remaining ← checkedSub avail off
  if 0 < off ∧ 0 < remaining then
    pure ((← buf.memmove 0 off remaining).bytes.take remaining)
  else pure (buf.bytes.take remaining)

def wsProcessFrames (cap : ℕ) (buf : Block avail) (write : WriteBuffer) :
    Checked WsBuffers := do
  let (buf, off, write, shouldClose) ← wsFrameLoop cap avail buf 0 write
  pure ⟨← keepRest buf off, write, shouldClose⟩

/-! ## Agreement with the byte strings -/

/-- A decoded frame as the decoder of byte strings gives it. -/
def DecodedAt.read (buf : Block avail) (off : ℕ) : DecodedAt → WsDecoded
  | .incomplete => .incomplete
  | .violation code => .violation code
  | .frame f => .frame ⟨f.fin, f.opcode, slice buf.bytes f.maskOff 4,
      slice buf.bytes f.payloadOff f.len, f.frameEnd - off⟩

/-- The parts of a frame follow each other inside the buffered bytes. -/
def DecodedAt.Inside (avail off : ℕ) : DecodedAt → Prop
  | .frame f => off < f.maskOff ∧ f.payloadOff = f.maskOff + 4 ∧
      f.frameEnd = f.payloadOff + f.len ∧ f.frameEnd ≤ avail
  | _ => True

section Agreement

variable {cap off : ℕ} {buf : Block avail}

theorem wsLength_eq (hoff : off ≤ avail) (len7 : ℕ) :
    wsLength buf off len7 = .ok (Server.wsLength (buf.bytes.drop off) len7) := by
  have hlen : (buf.bytes.drop off).length = avail - off := by rw [length_drop, buf.length_eq]
  have hslice : ∀ n, slice buf.bytes (off + 2) n = slice (buf.bytes.drop off) 2 n := by
    intro n
    rw [slice, slice, drop_drop]
  rw [wsLength, Server.wsLength, checkedSub_of_le hoff, hlen]
  split
  · rw [Checked.ok_bind]
    split
    · rfl
    · rw [Block.load_of_le (by omega), hslice]
      rfl
  · split
    · rw [Checked.ok_bind]
      split
      · rfl
      · rw [Block.load_of_le (by omega), hslice]
        rfl
    · rfl

theorem header_of_wsLength {bs : Bytes} {len7 len header : ℕ}
    (htwo : 2 ≤ bs.length) (h : Server.wsLength bs len7 = some (len, header)) :
    2 ≤ header ∧ header ≤ bs.length ∧ header ≤ 10 := by
  rw [Server.wsLength] at h
  split at h
  · obtain ⟨hlong, heq⟩ := ite_none_left_eq_some.mp h
    obtain ⟨-, rfl⟩ := Prod.mk.inj (some.inj heq)
    omega
  split at h
  · obtain ⟨hlong, heq⟩ := ite_none_left_eq_some.mp h
    obtain ⟨-, rfl⟩ := Prod.mk.inj (some.inj heq)
    omega
  · obtain ⟨-, rfl⟩ := Prod.mk.inj (some.inj h)
    omega

theorem byte_of_drop {b : UInt8} {rest : Bytes}
    (h : buf.bytes.drop off = b :: rest) : buf.byte off = .ok b := by
  rw [Block.byte, ← List.head?_drop, h]
  rfl

/-- The decoder stays inside the buffered bytes, and reads what is there. -/
theorem exists_wsDecodeFrame (cap : ℕ) (buf : Block avail) (hoff : off ≤ avail) :
    ∃ d, wsDecodeFrame cap buf off = .ok d ∧ d.Inside avail off ∧
      Server.wsDecodeFrame cap (buf.bytes.drop off) = d.read buf off := by
  have hlen : (buf.bytes.drop off).length = avail - off := by rw [length_drop, buf.length_eq]
  rw [wsDecodeFrame, checkedSub_of_le hoff, Checked.ok_bind]
  rcases hdrop : buf.bytes.drop off with _ | ⟨b0, _ | ⟨b1, rest⟩⟩
  · rw [hdrop, length_nil] at hlen
    rw [if_pos (by omega)]
    exact ⟨.incomplete, rfl, trivial, rfl⟩
  · rw [hdrop, length_singleton] at hlen
    rw [if_pos (by omega)]
    exact ⟨.incomplete, rfl, trivial, rfl⟩
  have hnext : buf.bytes.drop (off + 1) = b1 :: rest := by
    rw [← drop_drop, hdrop]
    rfl
  have htwo : 2 ≤ (b0 :: b1 :: rest).length := Nat.le_add_left 2 _
  rw [hdrop] at hlen
  rw [if_neg (by omega), byte_of_drop hdrop, Checked.ok_bind,
    byte_of_drop hnext, Checked.ok_bind, Server.wsDecodeFrame, hlen]
  split
  · exact ⟨.violation 1002, rfl, trivial, rfl⟩
  rw [wsLength_eq hoff, hdrop, Checked.ok_bind]
  cases hlength : Server.wsLength (b0 :: b1 :: rest) (b1 &&& 0x7F).toNat with
  | none => exact ⟨.incomplete, rfl, trivial, rfl⟩
  | some found =>
    obtain ⟨len, header⟩ := found
    obtain ⟨hheader, hin, -⟩ := header_of_wsLength htwo hlength
    have hslice : ∀ i n, slice (b0 :: b1 :: rest) i n = slice buf.bytes (off + i) n := by
      intro i n
      rw [slice, slice, ← drop_drop, hdrop]
    dsimp only
    rw [wsFrameAt]
    split
    · exact ⟨.violation 1002, rfl, trivial, rfl⟩
    by_cases hcap : cap < header + 4 + 1
    · rw [if_pos hcap, if_pos (.inl hcap)]
      exact ⟨.violation 1009, rfl, trivial, rfl⟩
    rw [if_neg hcap, checkedSub_of_le (by omega), Checked.ok_bind,
      checkedSub_of_le (by omega), Checked.ok_bind, checkedSub_of_le (by omega), Checked.ok_bind]
    by_cases hroom : cap - 1 - header - 4 < len
    · rw [if_pos hroom, if_pos (.inr hroom)]
      exact ⟨.violation 1009, rfl, trivial, rfl⟩
    rw [if_neg hroom, if_neg (not_or.mpr ⟨hcap, hroom⟩)]
    dsimp only
    rw [checkedSub_of_le (by omega), Checked.ok_bind]
    have hleft : avail - (off + header) = avail - off - header := by omega
    have hleft' : avail - (off + header + 4) = avail - off - (header + 4) := by omega
    rw [hleft, hslice, hslice]
    split
    · exact ⟨.incomplete, rfl, trivial, rfl⟩
    rw [checkedSub_of_le (by omega), Checked.ok_bind, hleft']
    split
    · exact ⟨.incomplete, rfl, trivial, rfl⟩
    · refine ⟨_, rfl, ⟨?_, rfl, rfl, ?_⟩, ?_⟩
      · exact Nat.lt_add_of_pos_right (by omega)
      · change off + header + 4 + len ≤ avail
        omega
      · rw [DecodedAt.read]
        simp only [WsDecoded.frame.injEq, WsFrame.mk.injEq, true_and]
        refine ⟨by rw [Nat.add_assoc], by omega⟩

/-- The loop makes no invalid access and does what it does on byte strings. -/
theorem exists_wsFrameLoop (cap : ℕ) (buf : Block avail) (write : WriteBuffer)
    {fuel : ℕ} (hoff : off ≤ avail) (hfuel : avail - off ≤ fuel) :
    let after := Server.wsFrameLoop cap fuel (buf.bytes.drop off) write
    ∃ buf' off', off' ≤ avail ∧ wsFrameLoop cap fuel buf off write =
        .ok (buf', off', after.write, after.shouldClose) ∧ buf'.bytes.drop off' = after.read := by
  induction fuel generalizing buf off write with
  | zero =>
    rw [wsFrameLoop, if_neg (by omega)]
    exact ⟨buf, off, hoff, rfl, rfl⟩
  | succ fuel ih =>
    rw [wsFrameLoop, Server.wsFrameLoop]
    by_cases hlt : off < avail
    · rw [if_pos hlt]
      obtain ⟨d, hd, hinside, hread⟩ := exists_wsDecodeFrame cap buf hoff
      rw [hd, hread, Checked.ok_bind]
      cases d with
      | incomplete => exact ⟨buf, off, hoff, rfl, rfl⟩
      | violation code => exact ⟨buf, off, hoff, rfl, rfl⟩
      | frame f =>
        obtain ⟨hmask, hpayload, hend, hin⟩ := hinside
        dsimp only [DecodedAt.read]
        rw [Block.load_of_le (by omega), Checked.ok_bind,
          Block.load_of_le (by omega), Checked.ok_bind]
        generalize hpay : applyMask (slice buf.bytes f.maskOff 4)
          (slice buf.bytes f.payloadOff f.len) = payload
        have hlen : payload.length = f.len := by
          rw [← hpay, ClientFrame.length_applyMask]
          exact length_slice_of_le (by rw [buf.length_eq]; omega)
        have hrest : off + (f.frameEnd - off) = f.frameEnd := by omega
        have hkept : (buf.blit f.payloadOff payload).bytes.drop f.frameEnd =
            buf.bytes.drop f.frameEnd := Block.drop_blit_of_le (by omega) (by omega)
        -- The handler does not look at where the frame ends.
        have hhandle : ∀ mask masked, wsHandleFrame write
            ⟨f.fin, f.opcode, mask, masked, f.frameEnd⟩ payload = wsHandleFrame write
              ⟨f.fin, f.opcode, mask, masked, f.frameEnd - off⟩ payload := fun _ _ => rfl
        rw [Block.store_of_le (by omega), Checked.ok_bind, drop_drop, hrest, hhandle]
        generalize wsHandleFrame write _ payload = handled
        obtain ⟨write', close⟩ := handled
        cases close with
        | true => exact ⟨_, _, hin, rfl, hkept⟩
        | false =>
          have hnext := ih (buf.blit f.payloadOff payload) write' hin (by omega)
          rw [hkept] at hnext
          exact hnext
    · rw [if_neg hlt, drop_eq_nil_of_le (by rw [buf.length_eq]; omega)]
      refine ⟨buf, off, hoff, rfl, ?_⟩
      exact drop_eq_nil_of_le (by rw [buf.length_eq]; omega)

theorem keepRest_eq (hoff : off ≤ avail) : keepRest buf off = .ok (buf.bytes.drop off) := by
  have hlen := buf.length_eq
  rw [keepRest, checkedSub_of_le hoff, Checked.ok_bind]
  split
  case isTrue hmove =>
    have hslice : slice buf.bytes off (avail - off) = buf.bytes.drop off :=
      take_of_length_le (by rw [length_drop, hlen])
    have hfits : 0 + (buf.bytes.drop off).length ≤ avail := by
      rw [length_drop]
      omega
    have htake := Block.take_add_blit (b := buf) hfits
    rw [length_drop, hlen, Nat.zero_add, take_zero, nil_append] at htake
    rw [Block.memmove_of_le (by omega) (by omega), Checked.ok_bind, hslice, htake]
    rfl
  case isFalse hnone =>
    by_cases hzero : off = 0
    · subst hzero
      exact congrArg Except.ok (take_of_length_le (by omega))
    · rw [drop_eq_nil_of_le (by omega), show avail - off = 0 by omega]
      rfl

/-- `ws_process_frames` makes no invalid access, whatever is in the buffer. -/
theorem wsProcessFrames_eq (cap : ℕ) (buf : Block avail) (write : WriteBuffer) :
    wsProcessFrames cap buf write = .ok (Server.wsProcessFrames cap buf.bytes write) := by
  obtain ⟨buf', off, hoff, hloop, hleft⟩ :=
    exists_wsFrameLoop cap buf write (Nat.zero_le avail) (Nat.sub_le avail 0)
  rw [drop_zero] at hloop hleft
  rw [wsProcessFrames, hloop, Checked.ok_bind]
  dsimp only
  rw [keepRest_eq hoff, Checked.ok_bind, hleft, Server.wsProcessFrames, buf.length_eq]
  rfl

end Agreement

end InBuffer

section Wedged

variable {cap : ℕ} {write : WriteBuffer}

theorem length_lt_of_incomplete (hcap : 16 ≤ cap) {bs : Bytes}
    (h : FrameArrives cap bs) : bs.length < cap - 1 := by
  rcases bs with _ | ⟨b0, _ | ⟨b1, rest⟩⟩
  · rw [length_nil]
    omega
  · rw [length_singleton]
    omega
  rw [FrameArrives, wsDecodeFrame] at h
  split at h
  · cases h
  split at h
  case h_1 hnone =>
    rw [wsLength] at hnone
    split at hnone
    · split at hnone
      · omega
      · cases hnone
    split at hnone
    · split at hnone
      · omega
      · cases hnone
    · cases hnone
  case h_2 len header hsome =>
    have hheader := InBuffer.header_of_wsLength (Nat.le_add_left 2 _) hsome
    split at h
    · cases h
    split at h
    · cases h
    split at h
    · omega
    split at h
    · omega
    · cases h

/-- The loop of `handle_websocket_data` without its buffer-full branch. -/
def unguardedLoop (cap : ℕ) :
    List RecvResult → Bytes → WriteBuffer → Option WsBuffers
  | recvs, read, write =>
    let pass := decodeFull cap read write
    if pass.shouldClose then some pass
    else
      match recvs with
      | [] | .wouldBlock :: _ => some (wsProcessFrames cap pass.read pass.write)
      | .bytes bytes :: recvs =>
        unguardedLoop cap recvs (pass.read ++ bytes.take (cap - pass.read.length - 1)) pass.write
      | .peerClosed :: _ | .failed :: _ => none

theorem length_lt_of_open (hcap : 16 ≤ cap) {read : Bytes}
    (hopen : (decodeFull cap read write).shouldClose = false) :
    (decodeFull cap read write).read.length < cap - 1 := by
  rw [decodeFull] at hopen ⊢
  split at hopen
  case isTrue hfull =>
    rw [if_pos hfull]
    exact length_lt_of_incomplete hcap (frameArrives_wsFrameLoop le_rfl hopen)
  case isFalse hroom =>
    rw [if_neg hroom]
    exact not_le.mp hroom

/-- A pass over a full buffer frees room or shuts down. -/
theorem guard_eq (hcap : 16 ≤ cap) (read : Bytes) (write : WriteBuffer) (next : Option WsBuffers) :
    let pass := decodeFull cap read write
    (if pass.shouldClose ∨ cap - 1 ≤ pass.read.length then
      some { pass with shouldClose := true } else next) =
        if pass.shouldClose then some pass else next := by
  intro pass
  cases hclose : pass.shouldClose with
  | true => rw [if_pos (.inl rfl), if_pos rfl, ← hclose]
  | false =>
    have hroom : ¬cap - 1 ≤ pass.read.length := not_le.mpr (length_lt_of_open hcap hclose)
    rw [if_neg (not_or.mpr ⟨Bool.false_ne_true, hroom⟩), if_neg Bool.false_ne_true]

theorem websocketLoop_eq_unguardedLoop (hcap : 16 ≤ cap) (recvs : List RecvResult)
    (read : Bytes) (write : WriteBuffer) :
    websocketLoop cap recvs read write = unguardedLoop cap recvs read write := by
  induction recvs generalizing read write with
  | nil =>
    rw [websocketLoop.eq_def, unguardedLoop.eq_def]
    exact guard_eq hcap read write _
  | cons recv recvs ih =>
    rw [websocketLoop.eq_def, unguardedLoop.eq_def]
    cases recv with
    | bytes bytes =>
      refine (guard_eq hcap read write _).trans ?_
      dsimp only
      rw [ih]
    | wouldBlock => exact guard_eq hcap read write _
    | peerClosed => exact guard_eq hcap read write _
    | failed => exact guard_eq hcap read write _

/-- A frame that cannot be buffered is refused once its length is there. -/
theorem ClientFrame.wsDecodeFrame_oversized (f : ClientFrame)
    (hlarge : cap - 1 < f.wire.length) (rest : Bytes) :
    wsDecodeFrame cap (f.header ++ rest) = .violation 1009 := by
  have hlen := f.length_wire
  obtain ⟨hrsv, -, -⟩ := f.byte0_spec
  obtain ⟨hmasked, hlen7⟩ := f.byte1_spec
  have hlength := f.wsLength_header rest
  rw [header, cons_append, cons_append] at hlength ⊢
  rw [wsDecodeFrame, if_neg (not_not.mpr hrsv), hlen7, hlength]
  dsimp only
  rw [if_neg hmasked, if_pos (by rw [header] at hlen; omega)]

theorem wsFrameLoop_oversized {f : ClientFrame}
    (hlarge : cap - 1 < f.wire.length) (rest : Bytes) {fs : List ClientFrame}
    (hcap : ∀ g ∈ fs, g.FitsIn cap) (hopen : (answers fs).2 = false) {fuel : ℕ}
    (hfuel : (wires fs ++ (f.header ++ rest)).length ≤ fuel) {bytes : Bytes}
    (hwrite : write.Holds bytes) (hroom : bytes.length + (framesBytes (answers fs).1).length + 4 ≤
      maxResponseSize) :
    ∃ write', wsFrameLoop cap fuel (wires fs ++ (f.header ++ rest)) write =
        ⟨f.header ++ rest, write', true⟩ ∧ write'.Holds (bytes ++ framesBytes (answers fs).1 ++
        (closeFrame 1009).bytes) := by
  induction fs generalizing fuel write bytes with
  | nil =>
    have hpos : 0 < (f.header ++ rest).length := Nat.succ_pos _
    obtain ⟨fuel, rfl⟩ := Nat.exists_eq_add_one_of_ne_zero (Nat.ne_zero_of_lt (hpos.trans_le hfuel))
    have hclose : (wsAppendClose write 1009).Holds
        (bytes ++ (closeFrame 1009).bytes) := wsAppendClose_holds hwrite hroom
    rw [wires, flatMap_nil, nil_append, wsFrameLoop,
      f.wsDecodeFrame_oversized hlarge, answers, framesBytes, flatMap_nil, append_nil]
    exact ⟨_, rfl, hclose⟩
  | cons g fs ih =>
    have hwire := g.length_wire
    have hbytes : wires (g :: fs) ++ (f.header ++ rest) =
        g.wire ++ (wires fs ++ (f.header ++ rest)) := by
      rw [wires, flatMap_cons, append_assoc]
      rfl
    rw [hbytes, length_append] at hfuel
    obtain ⟨fuel, rfl⟩ : ∃ k, fuel = k + 1 := ⟨fuel - 1, by omega⟩
    cases hends : g.answer.2 with
    | true =>
      rw [answers, if_pos hends, hends] at hopen
      cases hopen
    | false =>
      have hmore : ¬g.answer.2 = true := by
        rw [hends]
        exact Bool.false_ne_true
      rw [answers, if_neg hmore] at hopen hroom ⊢
      dsimp only at hopen hroom ⊢
      rw [framesBytes_append, length_append] at hroom
      obtain ⟨write', hholds, hloop⟩ := exists_wsFrameLoop_wire hwrite
        (hcap g mem_cons_self) fuel (wires fs ++ (f.header ++ rest)) (by omega)
      rw [hbytes, hloop, if_neg hmore, framesBytes_append, ← append_assoc bytes]
      exact ih (fun g hg => hcap g (mem_cons_of_mem _ hg)) hopen (by omega) hholds
        (by rw [length_append]; omega)

/-- Reading frames never gets stuck with a full buffer: a call that does not
shut down stops at a frame that is still arriving and has room, all accesses are
to buffered bytes, and a frame too large for the buffer is answered by a Close
with code 1009, if that fits the write buffer. -/
theorem ws_reading_not_wedged (hcap : 16 ≤ cap) (read : Bytes)
    (write : WriteBuffer) :
    let after := wsProcessFrames cap read write
    (after.shouldClose = false → after.read.length < cap - 1 ∧
        wsDecodeFrame cap after.read = .incomplete ∧
        ∀ f : ClientFrame, ¬f.wire <+: after.read) ∧
      InBuffer.wsProcessFrames cap ⟨read, rfl⟩ write = .ok after ∧
      (∀ recvs, websocketLoop cap recvs read write =
        unguardedLoop cap recvs read write) ∧
      ∀ (fs : List ClientFrame) (f : ClientFrame) (rest : Bytes),
        (∀ g ∈ fs, g.FitsIn cap) → (answers fs).2 = false →
        cap - 1 < f.wire.length → read = wires fs ++ (f.header ++ rest) →
        write.allocs = [] →
        write.bytes.length + (framesBytes (answers fs).1).length + 4 ≤
          maxResponseSize →
        after.read = f.header ++ rest ∧ after.shouldClose = true ∧
          after.write.bytes = write.bytes ++ framesBytes (answers fs).1 ++
            (closeFrame 1009).bytes := by
  intro after
  refine ⟨?_, InBuffer.wsProcessFrames_eq cap ⟨read, rfl⟩ write,
    fun recvs => websocketLoop_eq_unguardedLoop hcap recvs read write, ?_⟩
  · intro hopen
    have hincomplete := frameArrives_wsFrameLoop le_rfl hopen
    have hlen := length_lt_of_incomplete hcap hincomplete
    refine ⟨hlen, hincomplete, ?_⟩
    rintro f ⟨rest, hrest⟩
    have hfits : f.FitsIn cap := by
      have htotal := congrArg List.length hrest
      rw [length_append] at htotal
      rw [ClientFrame.FitsIn]
      change after.read.length < cap - 1 at hlen
      omega
    have hdecoded := f.wsDecodeFrame_wire hfits rest
    rw [hrest] at hdecoded
    exact WsDecoded.noConfusion (hincomplete.symm.trans hdecoded)
  · rintro fs f rest hfits hopen hlarge rfl hallocs hroom
    obtain ⟨write', hloop, hholds⟩ := wsFrameLoop_oversized hlarge rest hfits hopen
      le_rfl ⟨rfl, hallocs⟩ hroom
    have hafter : after = ⟨f.header ++ rest, write', true⟩ := hloop
    rw [hafter]
    exact ⟨rfl, rfl, hholds.bytes_eq⟩

end Wedged

/-- A frame of 22 bytes. -/
def bigFrame : ClientFrame where
  fin := true
  opcode := ⟨2, by decide⟩
  form := .short
  mask := hiFrame.mask
  payload := List.replicate 16 0
  fits := by decide

/-- The header is enough for a buffer of 16 bytes to answer. -/
theorem ws_reading_not_wedged_big :
    let after := wsProcessFrames 16 bigFrame.header noWriteBuffer
    after.read = bigFrame.header ∧ after.shouldClose = true ∧
      after.write.bytes = (closeFrame 1009).bytes :=
  (ws_reading_not_wedged (by decide) bigFrame.header noWriteBuffer).2.2.2 []
    bigFrame [] nofun rfl (by decide) rfl rfl (by decide)

/-- Behind a full write buffer the Close is lost. -/
theorem ws_oversized_unanswered : 15 < bigFrame.wire.length ∧
    let full : WriteBuffer :=
      ⟨List.replicate maxResponseSize 0, maxResponseSize, []⟩
    wsProcessFrames 16 bigFrame.header full = ⟨bigFrame.header, full, true⟩ := by
  have hlarge : 16 - 1 < bigFrame.wire.length := by decide
  have hlost : ∀ bytes : Bytes, bytes.length = maxResponseSize →
      wsAppendClose ⟨bytes, maxResponseSize, []⟩ 1009 = ⟨bytes, maxResponseSize, []⟩ := by
    intro bytes hfull
    have hfour : (wsServerFrame 0x8 (beBytes 2 1009)).length = 4 := by decide
    rw [wsAppendClose, wsAppendFrame, hfull, hfour]
    rfl
  have hdecoded := bigFrame.wsDecodeFrame_oversized hlarge []
  rw [append_nil] at hdecoded
  refine ⟨hlarge, ?_⟩
  dsimp only
  rw [wsProcessFrames, show bigFrame.header.length = 2 from rfl, wsFrameLoop, hdecoded]
  dsimp only
  rw [hlost _ length_replicate]

end Codo.Server
