import Codo.Common.SendResponse

/-!
# WebSocket frames

The echo server behind the WebSocket upgrade.  Complete client frames in the
read buffer are unmasked and answered into the write buffer; a frame that is
still arriving stays in the read buffer as it is.

The read buffer is given by the bytes in it and its capacity.
-/

namespace Codo.Server

open Support Common

/-- The write buffer.  `allocs` is what `realloc` answers, for each call of
`conn_reserve_write` that may need it; once used up, it succeeds. -/
structure WriteBuffer where
  bytes : Bytes
  cap : ℕ
  allocs : List Bool
  deriving DecidableEq

/-- The length bytes of a server frame. -/
def wsLengthBytes (len : ℕ) : Bytes :=
  if len < 126 then [UInt8.ofNat len]
  else if len ≤ 0xFFFF then 126 :: beBytes 2 len
  else 127 :: beBytes 8 len

/-- The bytes of a server frame: `FIN` set and no mask. -/
def wsServerFrame (opcode : UInt8) (payload : Bytes) : Bytes :=
  (0x80 ||| opcode) :: (wsLengthBytes payload.length ++ payload)

/-- Append a frame to the write buffer, unless there is no room for it. -/
def wsAppendFrame (write : WriteBuffer) (opcode : UInt8) (payload : Bytes) : Bool × WriteBuffer :=
  let frame := wsServerFrame opcode payload
  match connReserveWrite (write.allocs.headD true) write.cap
      (write.bytes.length + frame.length) with
  | none => (false, { write with allocs := write.allocs.tail })
  | some cap => (true, ⟨write.bytes ++ frame, cap, write.allocs.tail⟩)

/-- Append a Close frame with a status code; one that does not fit is left
out. -/
def wsAppendClose (write : WriteBuffer) (code : ℕ) : WriteBuffer :=
  (wsAppendFrame write 0x8 (beBytes 2 code)).2

/-- A decoded client frame: its payload is still masked. -/
structure WsFrame where
  fin : Bool
  opcode : UInt8
  mask : Bytes
  payload : Bytes
  frameEnd : ℕ
  deriving DecidableEq

inductive WsDecoded
  | incomplete
  | violation (closeCode : ℕ)
  | frame (frame : WsFrame)
  deriving DecidableEq

/-- The payload length and the size of the header in front of the mask, or
`none` while the extended length is still arriving. -/
def wsLength (bs : Bytes) (len7 : ℕ) : Option (ℕ × ℕ) :=
  if len7 = 126 then
    if bs.length < 4 then none else some (beValue (slice bs 2 2), 4)
  else if len7 = 127 then
    if bs.length < 10 then none else some (beValue (slice bs 2 8), 10)
  else
    some (len7, 2)

/-- Decode the frame at the start of `bs`, in a buffer of `cap` bytes. -/
def wsDecodeFrame (cap : ℕ) (bs : Bytes) : WsDecoded :=
  match bs with
  | b0 :: b1 :: _ =>
    if b0 &&& 0x70 ≠ 0 then .violation 1002
    else
      match wsLength bs (b1 &&& 0x7F).toNat with
      | none => .incomplete
      | some (len, header) =>
        if b1 &&& 0x80 = 0 then .violation 1002
        else if cap < header + 4 + 1 ∨ cap - 1 - header - 4 < len then
          .violation 1009
        else if bs.length - header < 4 then .incomplete
        else if bs.length - (header + 4) < len then .incomplete
        else
          .frame
            { fin := b0 &&& 0x80 ≠ 0
              opcode := b0 &&& 0x0F
              mask := slice bs header 4
              payload := slice bs (header + 4) len
              frameEnd := header + 4 + len }
  | _ => .incomplete

/-- Exclusive or with the mask, which masks and unmasks. -/
def applyMask (mask payload : Bytes) : Bytes :=
  payload.mapIdx fun i b => b ^^^ mask.getD (i % 4) 0

/-- Act on a frame with its payload unmasked: the write buffer, and whether the
connection should shut down. -/
def wsHandleFrame (write : WriteBuffer) (frame : WsFrame) (payload : Bytes) : WriteBuffer × Bool :=
  if frame.opcode = 0x1 ∨ frame.opcode = 0x2 then
    if frame.fin = false then (wsAppendClose write 1003, true)
    else
      match wsAppendFrame write frame.opcode payload with
      | (false, write) => (wsAppendClose write 1009, true)
      | (true, write) => (write, false)
  else if frame.opcode = 0x9 then
    if frame.fin = false ∨ 125 < payload.length then
      (wsAppendClose write 1002, true)
    else ((wsAppendFrame write 0xA payload).2, false)
  else if frame.opcode = 0xA then (write, false)
  else if frame.opcode = 0x8 then
    let code := if 2 ≤ payload.length then beValue (payload.take 2) else 1000
    (wsAppendClose write code, true)
  else (wsAppendClose write 1002, true)

/-- The two buffers after a call, and whether to shut down. -/
structure WsBuffers where
  read : Bytes
  write : WriteBuffer
  shouldClose : Bool
  deriving DecidableEq

/-- The loop of `ws_process_frames`; a frame takes at least six bytes, so the
number of bytes is fuel enough. -/
def wsFrameLoop (cap : ℕ) : ℕ → Bytes → WriteBuffer → WsBuffers
  | 0, read, write => ⟨read, write, false⟩
  | fuel + 1, read, write =>
    match wsDecodeFrame cap read with
    | .incomplete => ⟨read, write, false⟩
    | .violation code => ⟨read, wsAppendClose write code, true⟩
    | .frame frame =>
      let payload := applyMask frame.mask frame.payload
      let (write, shouldClose) := wsHandleFrame write frame payload
      let rest := read.drop frame.frameEnd
      if shouldClose then ⟨rest, write, true⟩
      else wsFrameLoop cap fuel rest write

/-- Answer every complete frame in the read buffer. -/
def wsProcessFrames (cap : ℕ) (read : Bytes) (write : WriteBuffer) : WsBuffers :=
  wsFrameLoop cap read.length read write

end Codo.Server
