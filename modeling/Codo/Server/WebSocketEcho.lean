import Codo.Server.WebSocket
import Codo.Support.Lines

/-!
# The WebSocket echo

A client sends frames, and the server answers each of them on its own: data
frames are echoed, pings are answered by pongs, pongs by nothing, and anything
else by a Close that ends the conversation.

What the server stages is this answer however the frames arrive.  A read may end
anywhere in a frame: in its header, its mask or its payload.
-/

namespace Codo.Server

open Support Common List

section Lengths

variable {len : ℕ}

theorem wsLength_short (bs : Bytes) (hlen : len < 126) : wsLength bs len = some (len, 2) := by
  have h127 : len ≠ 127 := by omega
  rw [wsLength, if_neg hlen.ne, if_neg h127]

theorem wsLength_medium (b0 b1 : UInt8) (rest : Bytes) (hlen : len < 256 ^ 2) :
    wsLength (b0 :: b1 :: (beBytes 2 len ++ rest)) 126 = some (len, 4) := by
  have hslice : slice (b0 :: b1 :: (beBytes 2 len ++ rest)) 2 2 = beBytes 2 len :=
    take_left' (length_beBytes 2 len)
  have hlong : ¬(b0 :: b1 :: (beBytes 2 len ++ rest)).length < 4 := by
    simp only [length_cons, length_append, length_beBytes]
    omega
  rw [wsLength, if_pos rfl, if_neg hlong, hslice, beValue_beBytes hlen]

theorem wsLength_long (b0 b1 : UInt8) (rest : Bytes) (hlen : len < 256 ^ 8) :
    wsLength (b0 :: b1 :: (beBytes 8 len ++ rest)) 127 = some (len, 10) := by
  have hslice : slice (b0 :: b1 :: (beBytes 8 len ++ rest)) 2 8 = beBytes 8 len :=
    take_left' (length_beBytes 8 len)
  have hlong : ¬(b0 :: b1 :: (beBytes 8 len ++ rest)).length < 10 := by
    simp only [length_cons, length_append, length_beBytes]
    omega
  have h126 : (127 : ℕ) ≠ 126 := by decide
  rw [wsLength, if_neg h126, if_pos rfl, if_neg hlong, hslice, beValue_beBytes hlen]

end Lengths

/-! ## Client frames -/

/-- How a client writes the length of a payload. -/
inductive LengthForm
  | short
  | medium
  | long
  deriving DecidableEq

/-- The payload lengths that a form can express. -/
def LengthForm.Fits : LengthForm → ℕ → Prop
  | short, len => len < 126
  | medium, len => len < 256 ^ 2
  | long, len => len < 256 ^ 8

instance (form : LengthForm) (len : ℕ) : Decidable (form.Fits len) :=
  match form with
  | .short => inferInstanceAs (Decidable (len < 126))
  | .medium => inferInstanceAs (Decidable (len < 256 ^ 2))
  | .long => inferInstanceAs (Decidable (len < 256 ^ 8))

/-- A masked client frame without reserved bits. -/
structure ClientFrame where
  fin : Bool
  opcode : Fin 16
  form : LengthForm
  mask : Block 4
  payload : Bytes
  fits : form.Fits payload.length

namespace ClientFrame

/-- The length bytes behind the first two bytes. -/
def extended (f : ClientFrame) : Bytes :=
  match f.form with
  | .short => []
  | .medium => beBytes 2 f.payload.length
  | .long => beBytes 8 f.payload.length

/-- The seven length bits of the second byte. -/
def len7 (f : ClientFrame) : ℕ :=
  match f.form with
  | .short => f.payload.length
  | .medium => 126
  | .long => 127

def byte0 (f : ClientFrame) : UInt8 :=
  UInt8.ofNat ((if f.fin then 128 else 0) + f.opcode)

def byte1 (f : ClientFrame) : UInt8 :=
  UInt8.ofNat (128 + f.len7)

/-- The bytes in front of the mask. -/
def header (f : ClientFrame) : Bytes :=
  f.byte0 :: f.byte1 :: f.extended

/-- The frame as it is sent. -/
def wire (f : ClientFrame) : Bytes :=
  f.header ++ (f.mask.bytes ++ applyMask f.mask.bytes f.payload)

theorem len7_lt (f : ClientFrame) : f.len7 < 128 := by
  have hfits := f.fits
  rw [len7]
  split
  case h_1 hform =>
    rw [hform] at hfits
    exact lt_trans hfits (by decide)
  · decide
  · decide

theorem byte0_spec (f : ClientFrame) :
    f.byte0 &&& 0x70 = 0 ∧ decide (f.byte0 &&& 0x80 ≠ 0) = f.fin ∧
      f.byte0 &&& 0x0F = UInt8.ofNat f.opcode := by
  have hall : ∀ (fin : Bool) (opcode : Fin 16),
      UInt8.ofNat ((if fin then 128 else 0) + opcode) &&& 0x70 = 0 ∧
        decide (UInt8.ofNat ((if fin then 128 else 0) + opcode) &&& 0x80 ≠ 0) = fin ∧
        UInt8.ofNat ((if fin then 128 else 0) + opcode) &&& 0x0F = UInt8.ofNat opcode := by decide
  exact hall f.fin f.opcode

theorem byte1_spec (f : ClientFrame) :
    f.byte1 &&& 0x80 ≠ 0 ∧ (f.byte1 &&& 0x7F).toNat = f.len7 := by
  have hall : ∀ len < 128, UInt8.ofNat (128 + len) &&& 0x80 ≠ 0 ∧
      (UInt8.ofNat (128 + len) &&& 0x7F).toNat = len := by decide
  exact hall f.len7 f.len7_lt

@[simp] theorem length_applyMask (mask payload : Bytes) :
    (applyMask mask payload).length = payload.length :=
  length_mapIdx

theorem applyMask_applyMask (mask payload : Bytes) :
    applyMask mask (applyMask mask payload) = payload := by
  refine ext_getElem ?_ fun i _ _ => ?_
  · rw [length_applyMask, length_applyMask]
  · simp only [applyMask, getElem_mapIdx, UInt8.xor_assoc, UInt8.xor_self, UInt8.xor_zero]

theorem length_wire (f : ClientFrame) :
    f.wire.length = f.header.length + (4 + f.payload.length) := by
  simp only [wire, length_append, f.mask.length_eq, length_applyMask]

/-- The length of a frame is read from its header, whatever follows. -/
theorem wsLength_header (f : ClientFrame) (rest : Bytes) :
    wsLength (f.header ++ rest) f.len7 = some (f.payload.length, f.header.length) := by
  have hfits := f.fits
  rw [header, len7, extended]
  cases hform : f.form with
  | short =>
    rw [hform] at hfits
    exact wsLength_short _ hfits
  | medium =>
    rw [hform] at hfits
    simp only [length_cons, length_beBytes]
    exact wsLength_medium _ _ rest hfits
  | long =>
    rw [hform] at hfits
    simp only [length_cons, length_beBytes]
    exact wsLength_long _ _ rest hfits

theorem wsLength_proper (f : ClientFrame) {pfx : Bytes} (hpfx : pfx <+: f.header)
    (hne : pfx ≠ f.header) (htwo : 2 ≤ pfx.length) : wsLength pfx f.len7 = none := by
  have hlt : pfx.length < f.header.length := by
    refine lt_of_le_of_ne hpfx.length_le fun heq => hne ?_
    exact hpfx.eq_of_length heq
  rw [header, length_cons, length_cons, extended] at hlt
  rw [wsLength, len7]
  cases hform : f.form with
  | short =>
    rw [hform] at hlt
    exact absurd hlt (not_lt.mpr htwo)
  | medium =>
    simp only [hform, length_beBytes] at hlt
    simp only [if_true, if_pos hlt]
  | long =>
    simp only [hform, length_beBytes] at hlt
    simp [hlt]

/-- The frame as the decoder returns it. -/
def decoded (f : ClientFrame) : WsFrame where
  fin := f.fin
  opcode := UInt8.ofNat f.opcode
  mask := f.mask.bytes
  payload := applyMask f.mask.bytes f.payload
  frameEnd := f.wire.length

/-- The frame fits a read buffer of `cap` bytes, of which one is not used. -/
def FitsIn (f : ClientFrame) (cap : ℕ) : Prop :=
  f.wire.length + 1 ≤ cap

theorem wsDecodeFrame_wire (f : ClientFrame) {cap : ℕ} (hcap : f.FitsIn cap)
    (rest : Bytes) : wsDecodeFrame cap (f.wire ++ rest) = .frame f.decoded := by
  have hlen := f.length_wire
  rw [FitsIn] at hcap
  obtain ⟨hrsv, hfin, hopcode⟩ := f.byte0_spec
  obtain ⟨hmasked, hlen7⟩ := f.byte1_spec
  have hbytes : f.wire ++ rest = f.byte0 :: f.byte1 :: (f.extended ++
      (f.mask.bytes ++ applyMask f.mask.bytes f.payload) ++ rest) := by
    simp only [wire, header, cons_append]
  have hlength : wsLength (f.wire ++ rest) f.len7 = some (f.payload.length, f.header.length) := by
    rw [wire, append_assoc]
    exact f.wsLength_header _
  have hmask : slice (f.wire ++ rest) f.header.length 4 = f.mask.bytes := by
    rw [slice, wire, append_assoc, drop_left, append_assoc]
    exact take_left' f.mask.length_eq
  have hpayload : slice (f.wire ++ rest) (f.header.length + 4) f.payload.length =
      applyMask f.mask.bytes f.payload := by
    rw [slice, wire, append_assoc, ← drop_drop, drop_left,
      append_assoc, drop_left' f.mask.length_eq]
    exact take_left' (length_applyMask _ _)
  have hroom : ¬(cap < f.header.length + 4 + 1 ∨
      cap - 1 - f.header.length - 4 < f.payload.length) := by omega
  have htotal : (f.wire ++ rest).length = f.wire.length + rest.length := length_append
  have hkey : ¬(f.wire ++ rest).length - f.header.length < 4 := by omega
  have hall : ¬(f.wire ++ rest).length - (f.header.length + 4) <
      f.payload.length := by omega
  have hend : f.header.length + 4 + f.payload.length = f.wire.length := by omega
  rw [hbytes] at hlength hmask hpayload hkey hall ⊢
  simp only [wsDecodeFrame, hrsv, hlen7, hlength, hroom, hkey, hall, hmask,
    hpayload, hfin, hopcode, hend, decoded, ne_eq, not_true_eq_false, if_false]
  rw [if_neg hmasked]

theorem wsDecodeFrame_proper (f : ClientFrame) {cap : ℕ} (hcap : f.FitsIn cap)
    {pfx : Bytes} (hpfx : pfx <+: f.wire) (hne : pfx ≠ f.wire) :
    wsDecodeFrame cap pfx = .incomplete := by
  have hlen := f.length_wire
  rw [FitsIn] at hcap
  have hlt : pfx.length < f.wire.length := by
    refine lt_of_le_of_ne hpfx.length_le fun heq => hne ?_
    exact hpfx.eq_of_length heq
  obtain _ | ⟨b0, _ | ⟨b1, tail⟩⟩ := pfx
  · rfl
  · rfl
  have hfirst : b0 = f.byte0 ∧ b1 = f.byte1 := by
    obtain ⟨rfl, hsecond⟩ := cons_prefix_cons.mp hpfx
    obtain ⟨rfl, -⟩ := cons_prefix_cons.mp hsecond
    exact ⟨rfl, rfl⟩
  obtain ⟨rfl, rfl⟩ := hfirst
  obtain ⟨hrsv, -, -⟩ := f.byte0_spec
  obtain ⟨hmasked, hlen7⟩ := f.byte1_spec
  rw [wsDecodeFrame, if_neg (not_not.mpr hrsv), hlen7]
  by_cases hheader : f.header <+: f.byte0 :: f.byte1 :: tail
  · obtain ⟨q, hq⟩ := hheader
    have hlength := f.wsLength_header q
    rw [hq] at hlength
    have hroom : ¬(cap < f.header.length + 4 + 1 ∨
        cap - 1 - f.header.length - 4 < f.payload.length) := by omega
    simp only [hlength, if_neg hmasked, if_neg hroom]
    split
    · rfl
    case isFalse hkey => exact if_pos (by omega)
  · -- The prefix ends inside the header.
    have hinside : f.byte0 :: f.byte1 :: tail <+: f.header := by
      obtain hshort | ⟨q, hq, -⟩ := prefix_append_cases hpfx
      · exact hshort
      · exact absurd ⟨q, hq.symm⟩ hheader
    have hproper : f.byte0 :: f.byte1 :: tail ≠ f.header := fun heq => hheader (heq ▸ prefix_refl _)
    rw [f.wsLength_proper hinside hproper (Nat.le_add_left 2 tail.length)]

end ClientFrame

/-! ## Answers -/

structure ServerFrame where
  opcode : Fin 16
  payload : Bytes

/-- The bytes that are staged for a frame. -/
def ServerFrame.bytes (f : ServerFrame) : Bytes :=
  wsServerFrame (UInt8.ofNat f.opcode) f.payload

def closeFrame (code : ℕ) : ServerFrame :=
  ⟨8, beBytes 2 code⟩

/-- The answer to a frame, and whether it ends the conversation. -/
def ClientFrame.answer (f : ClientFrame) : List ServerFrame × Bool :=
  if f.opcode = 1 ∨ f.opcode = 2 then
    if f.fin then ([⟨f.opcode, f.payload⟩], false) else ([closeFrame 1003], true)
  else if f.opcode = 9 then
    if f.fin ∧ f.payload.length ≤ 125 then ([⟨10, f.payload⟩], false)
    else ([closeFrame 1002], true)
  else if f.opcode = 10 then ([], false)
  else if f.opcode = 8 then
    let code := if 2 ≤ f.payload.length then beValue (f.payload.take 2) else 1000
    ([closeFrame code], true)
  else ([closeFrame 1002], true)

/-- The answers to a sequence of frames up to the first that ends the
conversation. -/
def answers : List ClientFrame → List ServerFrame × Bool
  | [] => ([], false)
  | f :: fs =>
    if f.answer.2 then f.answer
    else (f.answer.1 ++ (answers fs).1, (answers fs).2)

def wires (fs : List ClientFrame) : Bytes :=
  fs.flatMap ClientFrame.wire

def framesBytes (fs : List ServerFrame) : Bytes :=
  fs.flatMap ServerFrame.bytes

/-- The bytes are a `FIN` frame of the opcode without a mask, its length field
decodes to the length of the payload, and the payload follows. -/
def ServerFrame.Encodes (f : ServerFrame) (bytes : Bytes) : Prop :=
  ∃ b1 tail header, bytes = (0x80 ||| UInt8.ofNat f.opcode) :: b1 :: tail ∧ b1 &&& 0x80 = 0 ∧
      wsLength bytes (b1 &&& 0x7F).toNat = some (f.payload.length, header) ∧
      bytes.drop header = f.payload

theorem framesBytes_append (fs gs : List ServerFrame) :
    framesBytes (fs ++ gs) = framesBytes fs ++ framesBytes gs :=
  flatMap_append

theorem wires_append (fs gs : List ClientFrame) : wires (fs ++ gs) = wires fs ++ wires gs :=
  flatMap_append

theorem answers_append (fs gs : List ClientFrame) :
    answers (fs ++ gs) =
      if (answers fs).2 then answers fs
      else ((answers fs).1 ++ (answers gs).1, (answers gs).2) := by
  induction fs with
  | nil => rfl
  | cons f fs ih =>
    rw [cons_append, answers, answers]
    by_cases hends : f.answer.2
    · simp only [if_pos hends]
    · simp only [if_neg hends, ih]
      split
      · rfl
      · simp only [append_assoc]

variable {f : ServerFrame}

theorem ServerFrame.encodes_bytes (hlen : f.payload.length < 256 ^ 8) : f.Encodes f.bytes := by
  have hdrop : ∀ (b0 b1 : UInt8) (w : ℕ),
      (b0 :: b1 :: (beBytes w f.payload.length ++ f.payload)).drop (2 + w) = f.payload := by
    intro b0 b1 w
    rw [← drop_drop]
    exact drop_left' (length_beBytes w _)
  rw [Encodes, bytes, wsServerFrame, wsLengthBytes]
  split
  case isTrue hshort =>
    have hbyte : ∀ len < 126, UInt8.ofNat len &&& 0x80 = 0 ∧
        (UInt8.ofNat len &&& 0x7F).toNat = len := by decide
    obtain ⟨hmask, hvalue⟩ := hbyte _ hshort
    refine ⟨_, _, 2, rfl, hmask, ?_, rfl⟩
    rw [hvalue]
    exact wsLength_short _ hshort
  case isFalse =>
    split
    case isTrue hmedium =>
      refine ⟨126, _, 4, rfl, rfl, ?_, hdrop _ _ 2⟩
      exact wsLength_medium _ _ _ (Nat.lt_succ_of_le hmedium)
    case isFalse =>
      refine ⟨127, _, 10, rfl, rfl, ?_, hdrop _ _ 8⟩
      exact wsLength_long _ _ _ hlen

/-- The buffer holds the bytes, and nothing keeps it from growing. -/
structure WriteBuffer.Holds (write : WriteBuffer) (bytes : Bytes) : Prop where
  bytes_eq : write.bytes = bytes
  allocs_eq : write.allocs = []

variable {write : WriteBuffer} {bytes : Bytes}

section

variable (hwrite : write.Holds bytes)
include hwrite

theorem exists_wsAppendFrame (hroom : bytes.length + f.bytes.length ≤ maxResponseSize) :
    ∃ write', wsAppendFrame write (UInt8.ofNat f.opcode) f.payload =
      (true, write') ∧ write'.Holds (bytes ++ f.bytes) := by
  rw [← hwrite.bytes_eq] at hroom ⊢
  obtain ⟨cap, hcap⟩ := exists_connReserveWrite write.cap hroom
  rw [ServerFrame.bytes] at hcap
  simp only [wsAppendFrame, hwrite.allocs_eq, headD_nil, hcap]
  exact ⟨_, rfl, rfl, rfl⟩

theorem wsAppendClose_holds {code : ℕ}
    (hroom : bytes.length + (closeFrame code).bytes.length ≤ maxResponseSize) :
    (wsAppendClose write code).Holds (bytes ++ (closeFrame code).bytes) := by
  obtain ⟨write', happend, hholds⟩ := exists_wsAppendFrame hwrite hroom
  have hclose : wsAppendClose write code = write' := congrArg Prod.snd happend
  exact hclose ▸ hholds

end

theorem framesBytes_singleton (f : ServerFrame) : framesBytes [f] = f.bytes :=
  append_nil _

/-- A frame is handled by staging its answer. -/
theorem exists_wsHandleFrame (hwrite : write.Holds bytes) {f : ClientFrame}
    (hroom : bytes.length + (framesBytes f.answer.1).length ≤ maxResponseSize) :
    ∃ write', wsHandleFrame write f.decoded f.payload = (write', f.answer.2) ∧
      write'.Holds (bytes ++ framesBytes f.answer.1) := by
  have hopcode : ∀ k : Fin 16, f.decoded.opcode = UInt8.ofNat k ↔ f.opcode = k := by
    have hall : ∀ i k : Fin 16, UInt8.ofNat i = UInt8.ofNat k ↔ i = k := by decide
    exact fun k => hall f.opcode k
  have h1 : f.decoded.opcode = 0x1 ↔ f.opcode = 1 := hopcode 1
  have h2 : f.decoded.opcode = 0x2 ↔ f.opcode = 2 := hopcode 2
  have h8 : f.decoded.opcode = 0x8 ↔ f.opcode = 8 := hopcode 8
  have h9 : f.decoded.opcode = 0x9 ↔ f.opcode = 9 := hopcode 9
  have h10 : f.decoded.opcode = 0xA ↔ f.opcode = 10 := hopcode 10
  have hclose : ∀ code, f.answer = ([closeFrame code], true) →
      ∃ write', (wsAppendClose write code, true) = (write', f.answer.2) ∧
        write'.Holds (bytes ++ framesBytes f.answer.1) := by
    intro code hanswer
    rw [hanswer, framesBytes_singleton] at hroom ⊢
    exact ⟨_, rfl, wsAppendClose_holds hwrite hroom⟩
  have hframe : ∀ op reply, op = UInt8.ofNat (Fin.val reply.opcode) → f.answer = ([reply], false) →
      ∃ write', wsAppendFrame write op reply.payload = (true, write') ∧
        write'.Holds (bytes ++ framesBytes f.answer.1) := by
    intro op reply hop hanswer
    rw [hanswer, framesBytes_singleton] at hroom ⊢
    rw [hop]
    exact exists_wsAppendFrame hwrite hroom
  simp only [wsHandleFrame, h1, h2, h8, h9, h10]
  by_cases hdata : f.opcode = 1 ∨ f.opcode = 2
  · rw [if_pos hdata]
    cases hfin : f.fin with
    | false =>
      rw [if_pos (show f.decoded.fin = false from hfin)]
      exact hclose 1003 (by simp [ClientFrame.answer, hdata, hfin])
    | true =>
      have hanswer : f.answer = ([⟨f.opcode, f.payload⟩], false) := by
        simp [ClientFrame.answer, hdata, hfin]
      obtain ⟨write', happend, hholds⟩ := hframe f.decoded.opcode ⟨f.opcode, f.payload⟩ rfl hanswer
      have hkeep : f.decoded.fin ≠ false := ne_of_eq_of_ne hfin nofun
      rw [if_neg hkeep, happend]
      exact ⟨write', by rw [hanswer], hholds⟩
  rw [if_neg hdata]
  by_cases hping : f.opcode = 9
  · rw [if_pos hping]
    by_cases hgood : f.fin ∧ f.payload.length ≤ 125
    · have hanswer : f.answer = ([⟨10, f.payload⟩], false) := by
        simp [ClientFrame.answer, hping, hgood]
      obtain ⟨write', happend, hholds⟩ := hframe 0xA ⟨10, f.payload⟩ rfl hanswer
      have hkeep : ¬(f.decoded.fin = false ∨ 125 < f.payload.length) := by
        rw [not_or, not_lt]
        exact ⟨ne_of_eq_of_ne hgood.1 nofun, hgood.2⟩
      rw [if_neg hkeep, happend]
      exact ⟨write', by rw [hanswer], hholds⟩
    · have hbad : f.decoded.fin = false ∨ 125 < f.payload.length := by
        rw [not_and_or, Bool.not_eq_true, not_le] at hgood
        exact hgood
      rw [if_pos hbad]
      exact hclose 1002 (by simp [ClientFrame.answer, hping, hgood])
  rw [if_neg hping]
  by_cases hpong : f.opcode = 10
  · have hanswer : f.answer = ([], false) := by simp [ClientFrame.answer, hpong]
    rw [if_pos hpong, hanswer]
    exact ⟨write, rfl, (append_nil bytes).symm ▸ hwrite⟩
  rw [if_neg hpong]
  by_cases hends : f.opcode = 8
  · rw [if_pos hends]
    exact hclose _ (by simp [ClientFrame.answer, hends])
  · rw [if_neg hends]
    exact hclose 1002 (by
      rw [ClientFrame.answer, if_neg hdata, if_neg hping, if_neg hpong, if_neg hends])

/-! ## One call -/

variable {cap : ℕ}

theorem exists_wsFrameLoop_wire (hwrite : write.Holds bytes) {f : ClientFrame}
    (hcap : f.FitsIn cap) (fuel : ℕ) (tail : Bytes)
    (hroom : bytes.length + (framesBytes f.answer.1).length ≤ maxResponseSize) :
    ∃ write', write'.Holds (bytes ++ framesBytes f.answer.1) ∧
      wsFrameLoop cap (fuel + 1) (f.wire ++ tail) write =
        if f.answer.2 then ⟨tail, write', true⟩
        else wsFrameLoop cap fuel tail write' := by
  have hdecode := f.wsDecodeFrame_wire hcap tail
  have hpayload : applyMask f.decoded.mask f.decoded.payload = f.payload :=
    ClientFrame.applyMask_applyMask f.mask.bytes f.payload
  have hdrop : (f.wire ++ tail).drop f.decoded.frameEnd = tail := drop_left
  obtain ⟨write', hhandle, hholds⟩ := exists_wsHandleFrame hwrite hroom
  refine ⟨write', hholds, ?_⟩
  rw [wsFrameLoop, hdecode]
  dsimp only
  rw [hpayload, hhandle, hdrop]

/-- A call on a front part of the stream answers the frames that are complete
in it, and leaves the bytes of the next one as they came. -/
theorem wsFrameLoop_front {frames : List ClientFrame}
    (hcap : ∀ f ∈ frames, f.FitsIn cap) {bs : Bytes} (hbs : bs <+: wires frames)
    {fuel : ℕ} (hfuel : bs.length ≤ fuel) (hwrite : write.Holds bytes)
    (hroom : bytes.length + (framesBytes (answers frames).1).length ≤ maxResponseSize) :
    let after := wsFrameLoop cap fuel bs write
    ∃ done rest, frames = done ++ rest ∧ after.write.Holds (bytes ++ framesBytes (answers done).1) ∧
      after.shouldClose = (answers done).2 ∧
      ((answers done).2 = false → bs = wires done ++ after.read ∧
        ∀ f ∈ rest.head?, ¬f.wire <+: after.read) := by
  induction frames generalizing bs fuel write bytes with
  | nil =>
    obtain rfl : bs = [] := prefix_nil.mp hbs
    have hloop : wsFrameLoop cap fuel [] write = ⟨[], write, false⟩ := by cases fuel <;> rfl
    rw [hloop]
    exact ⟨[], [], rfl, (append_nil bytes).symm ▸ hwrite, rfl, fun _ => ⟨rfl, nofun⟩⟩
  | cons f frames ih =>
    have hcapf := hcap f mem_cons_self
    by_cases hwhole : f.wire <+: bs
    · obtain ⟨tail, rfl⟩ := hwhole
      have htail : tail <+: wires frames := (prefix_append_right_inj f.wire).mp hbs
      have hwire := f.length_wire
      rw [length_append] at hfuel
      obtain ⟨fuel, rfl⟩ : ∃ k, fuel = k + 1 := ⟨fuel - 1, by omega⟩
      cases hends : f.answer.2 with
      | true =>
        rw [answers, if_pos hends] at hroom
        obtain ⟨write', hholds, hloop⟩ := exists_wsFrameLoop_wire hwrite hcapf fuel tail hroom
        rw [hloop, if_pos hends]
        refine ⟨[f], frames, rfl, ?_⟩
        rw [answers, if_pos hends, hends]
        exact ⟨hholds, rfl, nofun⟩
      | false =>
        have hopen : ¬f.answer.2 = true := by
          rw [hends]
          exact Bool.false_ne_true
        rw [answers, if_neg hopen, framesBytes_append, length_append,
          ← add_assoc, ← length_append] at hroom
        have hroomf : bytes.length + (framesBytes f.answer.1).length ≤ maxResponseSize := by
          rw [← length_append]
          exact le_of_add_le_left hroom
        obtain ⟨write', hholds, hloop⟩ := exists_wsFrameLoop_wire hwrite hcapf fuel tail hroomf
        obtain ⟨done, rest, rfl, hafter, hclose, hread⟩ :=
          ih (fun g hg => hcap g (mem_cons_of_mem f hg)) htail
            (by omega : tail.length ≤ fuel) hholds hroom
        rw [hloop, if_neg hopen]
        refine ⟨f :: done, rest, rfl, ?_⟩
        rw [answers, if_neg hopen]
        refine ⟨?_, hclose, fun hdone => ?_⟩
        · rw [framesBytes_append, ← append_assoc]
          exact hafter
        · obtain ⟨hsplit, hnext⟩ := hread hdone
          refine ⟨?_, hnext⟩
          rw [wires, flatMap_cons, append_assoc]
          exact congrArg (f.wire ++ ·) hsplit
    · -- The first frame is still arriving.
      have hproper : bs <+: f.wire := (List.prefix_or_prefix_of_prefix hbs
          (prefix_append f.wire (wires frames))).resolve_right hwhole
      have hne : bs ≠ f.wire := fun heq => hwhole (heq ▸ prefix_rfl)
      have hloop : wsFrameLoop cap fuel bs write = ⟨bs, write, false⟩ := by
        cases fuel with
        | zero => rfl
        | succ fuel => rw [wsFrameLoop, f.wsDecodeFrame_proper hcapf hproper hne]
      rw [hloop]
      refine ⟨[], f :: frames, rfl, (append_nil bytes).symm ▸ hwrite, rfl, ?_⟩
      intro _
      refine ⟨rfl, fun g hg => ?_⟩
      obtain rfl : f = g := Option.some_injective _ hg
      exact hwhole

/-! ## Successive calls -/

/-- The buffers between calls, all that was staged so far, and whether a call
asked to shut down. -/
structure WsRun where
  read : Bytes
  write : WriteBuffer
  staged : Bytes
  closed : Bool

/-- A read, before which the write buffer may have been flushed, and the call
that follows it. -/
def wsFeed (cap : ℕ) (run : WsRun) (read : Bool × Bytes) : WsRun :=
  if run.closed then run
  else
    let write := if read.1 then { run.write with bytes := [] } else run.write
    let after := wsProcessFrames cap (run.read ++ read.2) write
    { read := after.read
      write := after.write
      staged := run.staged ++ after.write.bytes.drop write.bytes.length
      closed := after.shouldClose }

def noWriteBuffer : WriteBuffer := ⟨[], 0, []⟩

def wsRun (cap : ℕ) (reads : List (Bool × Bytes)) : WsRun :=
  reads.foldl (wsFeed cap) ⟨[], noWriteBuffer, [], false⟩

/-- Some of the frames are answered, and the bytes kept are the front part of
the next one; `later` has not been read yet. -/
structure WsRun.Answers (run : WsRun) (frames : List ClientFrame) (later : Bytes)
    (done rest : List ClientFrame) : Prop where
  frames_eq : frames = done ++ rest
  staged_eq : run.staged = framesBytes (answers done).1
  closed_eq : run.closed = (answers done).2
  write_le : run.write.bytes.length ≤ run.staged.length
  grows : run.write.allocs = []
  stream : run.closed = false → run.read ++ later = wires rest
  next : run.closed = false → ∀ f ∈ rest.head?, ¬f.wire <+: run.read

section Run

variable {frames : List ClientFrame}

theorem answers_append_of_open {fs gs : List ClientFrame} (hopen : (answers fs).2 = false) :
    answers (fs ++ gs) = ((answers fs).1 ++ (answers gs).1, (answers gs).2) := by
  rw [answers_append, hopen]
  rfl

theorem WsRun.Answers.feed (hcap : ∀ f ∈ frames, f.FitsIn cap)
    (hroom : (framesBytes (answers frames).1).length ≤ maxResponseSize)
    {run : WsRun} (read : Bool × Bytes) {later : Bytes} {done rest : List ClientFrame}
    (h : run.Answers frames (read.2 ++ later) done rest) :
    ∃ done' rest', (wsFeed cap run read).Answers frames later done' rest' := by
  cases hclosed : run.closed with
  | true =>
    have hstay : wsFeed cap run read = run := if_pos hclosed
    rw [hstay]
    have hopen : ¬run.closed = false := by
      rw [hclosed]
      exact nofun
    exact ⟨done, rest, h.frames_eq, h.staged_eq, h.closed_eq, h.write_le,
      h.grows, fun h => absurd h hopen, fun h => absurd h hopen⟩
  | false =>
    have hopen : ¬run.closed = true := by
      rw [hclosed]
      exact Bool.false_ne_true
    have hdone : (answers done).2 = false := h.closed_eq ▸ hclosed
    have hstream := h.stream hclosed
    have hfront : run.read ++ read.2 <+: wires rest := ⟨later, by rw [← hstream, append_assoc]⟩
    rw [wsFeed, if_neg hopen]
    generalize hwrite :
      (if read.1 then { run.write with bytes := [] } else run.write) = write
    have hholds : write.Holds write.bytes ∧ write.bytes.length ≤ run.staged.length := by
      rw [← hwrite]
      split
      · exact ⟨⟨rfl, h.grows⟩, Nat.zero_le _⟩
      · exact ⟨⟨rfl, h.grows⟩, h.write_le⟩
    obtain ⟨hholds, hle⟩ := hholds
    have hrest : write.bytes.length + (framesBytes (answers rest).1).length ≤ maxResponseSize := by
      have hall := hroom
      rw [h.frames_eq, answers_append_of_open hdone, framesBytes_append,
        length_append, ← h.staged_eq] at hall
      omega
    have hcaprest : ∀ f ∈ rest, f.FitsIn cap := by
      intro f hf
      apply hcap
      rw [h.frames_eq]
      exact mem_append_right done hf
    have hcall := wsFrameLoop_front hcaprest hfront le_rfl hholds hrest
    rw [← wsProcessFrames] at hcall
    dsimp only at hcall ⊢
    generalize wsProcessFrames cap (run.read ++ read.2) write = after at hcall ⊢
    obtain ⟨more, left, hrestEq, ⟨hafter, hgrows⟩, hclose, hread⟩ := hcall
    have hnew : after.write.bytes.drop write.bytes.length = framesBytes (answers more).1 := by
      rw [hafter, drop_left]
    refine ⟨done ++ more, left, ?_, ?_, ?_, ?_, hgrows, ?_, ?_⟩
    · rw [h.frames_eq, hrestEq, append_assoc]
    · rw [answers_append_of_open hdone, framesBytes_append, ← h.staged_eq]
      exact congrArg (run.staged ++ ·) hnew
    · rw [answers_append_of_open hdone]
      exact hclose
    · rw [hnew, hafter, length_append, length_append]
      exact Nat.add_le_add_right hle _
    · intro hkeep
      have hsplit := (hread (hclose ▸ hkeep)).1
      rw [← append_assoc, hsplit, append_assoc, hrestEq, wires_append]
        at hstream
      exact append_cancel_left hstream
    · intro hkeep
      exact (hread (hclose ▸ hkeep)).2

theorem WsRun.Answers.run (hcap : ∀ f ∈ frames, f.FitsIn cap)
    (hroom : (framesBytes (answers frames).1).length ≤ maxResponseSize)
    (reads : List (Bool × Bytes)) {run : WsRun} {done rest : List ClientFrame}
    (h : run.Answers frames (reads.map Prod.snd).flatten done rest) :
    ∃ done' rest', (reads.foldl (wsFeed cap) run).Answers frames [] done' rest' := by
  induction reads generalizing run done rest with
  | nil => exact ⟨done, rest, h⟩
  | cons read reads ih =>
    obtain ⟨done', rest', hnext⟩ := WsRun.Answers.feed hcap hroom read h
    exact ih hnext

theorem WsRun.Answers.finished {run : WsRun} {done rest : List ClientFrame}
    (h : run.Answers frames [] done rest) :
    run.staged = framesBytes (answers frames).1 ∧ run.closed = (answers frames).2 := by
  cases hclosed : run.closed with
  | true =>
    have hsame : answers frames = answers done := by
      rw [h.frames_eq, answers_append, ← h.closed_eq, if_pos hclosed]
    rw [hsame, ← h.closed_eq, hclosed]
    exact ⟨h.staged_eq, rfl⟩
  | false =>
    have hread := h.stream hclosed
    rw [append_nil] at hread
    have hrest : rest = [] := by
      cases rest with
      | nil => rfl
      | cons f rest =>
        have hwhole : f.wire <+: run.read := by
          rw [hread]
          exact prefix_append f.wire (wires rest)
        exact absurd hwhole (h.next hclosed f rfl)
    have hsame : frames = done := by rw [h.frames_eq, hrest, append_nil]
    rw [hsame, ← h.closed_eq, hclosed]
    exact ⟨h.staged_eq, rfl⟩

theorem wsRun_answers (hcap : ∀ f ∈ frames, f.FitsIn cap)
    (hroom : (framesBytes (answers frames).1).length ≤ maxResponseSize)
    {reads : List (Bool × Bytes)} (hreads : (reads.map Prod.snd).flatten = wires frames) :
    (wsRun cap reads).staged = framesBytes (answers frames).1 ∧
      (wsRun cap reads).closed = (answers frames).2 := by
  have hstart : WsRun.Answers ⟨[], noWriteBuffer, [], false⟩ frames
      (reads.map Prod.snd).flatten [] frames := by
    refine ⟨rfl, rfl, rfl, le_rfl, rfl, fun _ => hreads, fun _ f _ hnil => ?_⟩
    have hwire := f.length_wire
    rw [prefix_nil.mp hnil] at hwire
    exact absurd hwire (by simp; omega)
  obtain ⟨done, rest, hend⟩ := WsRun.Answers.run hcap hroom reads hstart
  exact hend.finished

theorem ServerFrame.length_payload_le (f : ServerFrame) : f.payload.length ≤ f.bytes.length := by
  rw [ServerFrame.bytes, wsServerFrame, length_cons, length_append]
  omega

theorem length_bytes_le_framesBytes {fs : List ServerFrame}
    (hf : f ∈ fs) : f.bytes.length ≤ (framesBytes fs).length :=
  (sublist_flatten_of_mem (mem_map_of_mem hf)).length_le

/-- However the stream of frames is cut into reads, and whenever the write
buffer is flushed in between, the calls stage what one call on the whole stream
stages: the answers, frame by frame and correctly encoded. -/
theorem wsEcho (hcap : ∀ f ∈ frames, f.FitsIn cap)
    (hroom : (framesBytes (answers frames).1).length ≤ maxResponseSize)
    {reads : List (Bool × Bytes)}
    (hreads : (reads.map Prod.snd).flatten = wires frames) :
    (wsRun cap reads).staged =
        (wsProcessFrames cap (wires frames) noWriteBuffer).write.bytes ∧
      (wsRun cap reads).staged = framesBytes (answers frames).1 ∧
      (wsRun cap reads).closed = (answers frames).2 ∧
      ∀ reply ∈ (answers frames).1, reply.Encodes reply.bytes := by
  obtain ⟨hstaged, hclosed⟩ := wsRun_answers hcap hroom hreads
  have hsingle : ([(false, wires frames)].map Prod.snd).flatten = wires frames := append_nil _
  have hone : (wsProcessFrames cap (wires frames) noWriteBuffer).write.bytes =
      framesBytes (answers frames).1 := (wsRun_answers hcap hroom hsingle).1
  refine ⟨hstaged.trans hone.symm, hstaged, hclosed, fun reply hreply => ?_⟩
  apply ServerFrame.encodes_bytes
  calc reply.payload.length ≤ reply.bytes.length := reply.length_payload_le
    _ ≤ (framesBytes (answers frames).1).length := length_bytes_le_framesBytes hreply
    _ ≤ maxResponseSize := hroom
    _ < 256 ^ 8 := by decide

end Run

/-- The text frame "hi", with its length in two bytes. -/
def hiFrame : ClientFrame where
  fin := true
  opcode := 1
  form := .medium
  mask := ⟨[1, 2, 3, 4], rfl⟩
  payload := [104, 105]
  fits := by decide

/-- A frame cut inside its mask. -/
theorem wsEcho_cut :
    (wsRun 8192 [(false, hiFrame.wire.take 5), (true, hiFrame.wire.drop 5)]).staged =
      [0x81, 2, 104, 105] := by
  have hcap : ∀ f ∈ [hiFrame], f.FitsIn 8192 := by
    intro f hf
    rw [mem_singleton.mp hf, ClientFrame.FitsIn, ClientFrame.length_wire]
    decide
  exact (wsEcho hcap (by decide) (by decide)).2.1

end Codo.Server
