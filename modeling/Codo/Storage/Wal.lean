import Codo.Storage.Commands
import Codo.Support.WriteLoop

/-!
# The write-ahead log

`wal.c`: records are framed into a buffer and the buffer is appended to the
log file when it is full or when a caller asks for it.  `buffer` is the used
part of `wal_buffer`, so its length is `wal_buffer_pos`.  The checksum routine
comes from zlib and is a parameter.  The result of `fsync` is ignored by the
source and by the model.

`walk` is the reader the format is meant for: it steps from header to header
by the rounded length.
-/

namespace Codo.Storage

open Codo.Support List

def walBufferSize : ℕ := 1024 * 1024

/-- `sizeof(wal_record_t)`. -/
def walRecordSize : ℕ := 32

/-- `content_size`, computed in a `size_t`. -/
def walContentSize (dataLength : ℕ) : ℕ :=
  (walRecordSize + dataLength) % 2 ^ 64

/-- `record_size`: the content rounded up to eight bytes. -/
def walStride (dataLength : ℕ) : ℕ :=
  (walContentSize dataLength + 7) % 2 ^ 64 / 8 * 8

/-- `wal_record_t`, without the two fields computed from the others. -/
structure WalRecord where
  lsn : UInt64
  txnId : UInt64
  type : WalRecordType
  pageId : UInt32
  data : Bytes
  deriving DecidableEq

namespace WalRecord

/-- Header and payload, with the checksum field set to `checksum`. -/
def content (r : WalRecord) (checksum : UInt32) : Bytes :=
  leBytes 8 r.lsn.toNat ++ leBytes 8 r.txnId.toNat ++
    leBytes 4 r.type.code ++ leBytes 4 r.pageId.toNat ++
    leBytes 4 r.data.length ++ leBytes 4 checksum.toNat ++ r.data

/-- The bytes of the record in the log, its padding included. -/
def frame (crc : Bytes → UInt32) (r : WalRecord) : Bytes :=
  r.content (crc (r.content 0)) ++
    List.replicate (walStride r.data.length - walContentSize r.data.length) 0

end WalRecord

/-- The log file, the used part of the buffer and `next_lsn`. -/
structure Wal where
  file : Bytes
  buffer : Bytes
  nextLsn : UInt64
  deriving DecidableEq

namespace Wal

/-- The log `init_storage_engine` sets up over an empty file. -/
def empty : Wal := ⟨[], [], 1⟩

/-- Frame one record behind the used part of the buffer. -/
def push (crc : Bytes → UInt32) (w : Wal) (txnId : UInt64)
    (type : WalRecordType) (pageId : UInt32) (data : Bytes) : Wal :=
  { w with
    buffer := w.buffer ++ WalRecord.frame crc ⟨w.nextLsn, txnId, type, pageId, data⟩
    nextLsn := w.nextLsn + 1 }

/-- `write_wal_record`.  A flush that fails leaves `wal_buffer_pos` alone and
keeps what it had already appended. -/
def writeWalRecord (crc : Bytes → UInt32) (w : Wal)
    (results : List WriteResult) (txnId : UInt64) (type : WalRecordType)
    (pageId : UInt32) (data : Bytes) : ℤ × Wal × List WriteResult :=
  if walBufferSize < walStride data.length then (-1, w, results)
  else if walBufferSize < w.buffer.length + walStride data.length then
    let e := writeLoop results w.file w.buffer
    if e.ok then
      (0, push crc { w with file := e.file, buffer := [] } txnId type pageId data, e.results)
    else (-1, { w with file := e.file }, e.results)
  else (0, push crc w txnId type pageId data, results)

def flushWalBuffer (w : Wal) (results : List WriteResult) : ℤ × Wal × List WriteResult :=
  if 0 < w.buffer.length then
    let e := writeLoop results w.file w.buffer
    if e.ok then (0, { w with file := e.file, buffer := [] }, e.results)
    else (-1, { w with file := e.file }, e.results)
  else (0, w, results)

end Wal

/-- The record type with a stored value. -/
def WalRecordType.ofCode : ℕ → Option WalRecordType
  | 1 => some .insert
  | 2 => some .update
  | 3 => some .delete
  | 4 => some .commit
  | 5 => some .abort
  | 6 => some .checkout
  | _ => none

theorem WalRecordType.ofCode_code (type : WalRecordType) : ofCode type.code = some type := by
  cases type <;> rfl

/-- Read the record at the front and skip its stride. -/
def readRecord (bs : Bytes) : Option (WalRecord × Bytes) := do
  let dataLength := leValue (slice bs 24 4)
  guard (walRecordSize ≤ bs.length ∧ walStride dataLength ≤ bs.length)
  let type ← WalRecordType.ofCode (leValue (slice bs 16 4))
  let r : WalRecord :=
    { lsn := UInt64.ofNat (leValue (slice bs 0 8))
      txnId := UInt64.ofNat (leValue (slice bs 8 8))
      type := type
      pageId := UInt32.ofNat (leValue (slice bs 20 4))
      data := slice bs 32 dataLength }
  return (r, bs.drop (walStride dataLength))

/-- Read at most `n` records, up to the end of the bytes. -/
def walk : ℕ → Bytes → Option (List WalRecord)
  | _, [] => some []
  | 0, _ :: _ => none
  | n + 1, b :: bs => do
    let (r, rest) ← readRecord (b :: bs)
    let rs ← walk n rest
    return r :: rs

theorem walContentSize_of_lt {n : ℕ} (h : n < 2 ^ 63) : walContentSize n = 32 + n := by
  rw [walContentSize, walRecordSize, Nat.mod_eq_of_lt (by omega)]

theorem walStride_of_lt {n : ℕ} (h : n < 2 ^ 63) : walStride n = (39 + n) / 8 * 8 := by
  rw [walStride, walContentSize_of_lt h, Nat.mod_eq_of_lt (by omega)]
  congr 2
  omega

theorem dvd_walStride (n : ℕ) : 8 ∣ walStride n :=
  Dvd.intro_left _ rfl

/-- A payload whose record the buffer can hold. -/
def Storable (data : Bytes) : Prop :=
  data.length < 2 ^ 63 ∧ walStride data.length ≤ walBufferSize

theorem Storable.length_lt {data : Bytes} (h : Storable data) : data.length < 2 ^ 32 := by
  obtain ⟨hlt, hle⟩ := h
  rw [walStride_of_lt hlt, walBufferSize] at hle
  omega

namespace WalRecord

variable (crc : Bytes → UInt32) {r : WalRecord}

theorem length_content (checksum : UInt32) : (r.content checksum).length = 32 + r.data.length := by
  simp only [content, length_append, length_leBytes]

theorem length_frame (h : Storable r.data) : (r.frame crc).length = walStride r.data.length := by
  rw [frame, length_append, length_content, length_replicate,
    walContentSize_of_lt h.1, walStride_of_lt h.1]
  omega

theorem readRecord_frame (h : Storable r.data) (rest : Bytes) :
    readRecord (r.frame crc ++ rest) = some (r, rest) := by
  have hlen := length_frame crc h
  generalize hsum : crc (r.content 0) = sum at *
  obtain ⟨pad, hpad⟩ : ∃ pad, r.frame crc = r.content sum ++ pad := ⟨_, by rw [frame, hsum]⟩
  have h0 : (r.frame crc ++ rest).drop 0 = leBytes 8 r.lsn.toNat ++
      (leBytes 8 r.txnId.toNat ++ (leBytes 4 r.type.code ++
        (leBytes 4 r.pageId.toNat ++ (leBytes 4 r.data.length ++
          (leBytes 4 sum.toNat ++ (r.data ++ (pad ++ rest))))))) := by
    simp [hpad, content]
  obtain ⟨hlsn, h8⟩ := word_of_drop_eq h0
  obtain ⟨htxn, h16⟩ := word_of_drop_eq h8
  obtain ⟨htype, h20⟩ := word_of_drop_eq h16
  obtain ⟨hpage, h24⟩ := word_of_drop_eq h20
  obtain ⟨hcount, h28⟩ := word_of_drop_eq h24
  obtain ⟨-, h32⟩ := word_of_drop_eq h28
  have hdata := slice_of_drop_eq h32
  simp only [Nat.zero_add, Nat.reduceAdd] at htxn htype hpage hcount hdata
  have hcode : r.type.code < 256 ^ 4 := by cases r.type <;> decide
  have hdataLt : r.data.length < 256 ^ 4 := h.length_lt
  have hlsnLt : r.lsn.toNat < 256 ^ 8 := r.lsn.toNat_lt
  have htxnLt : r.txnId.toNat < 256 ^ 8 := r.txnId.toNat_lt
  have hpageLt : r.pageId.toNat < 256 ^ 4 := r.pageId.toNat_lt
  have hroom : walRecordSize ≤ (r.frame crc ++ rest).length ∧
      walStride r.data.length ≤ (r.frame crc ++ rest).length := by
    rw [length_append, hlen, walStride_of_lt h.1, walRecordSize]
    omega
  have hdrop : (r.frame crc ++ rest).drop (walStride r.data.length) = rest := by
    rw [← hlen, drop_left]
  simp only [readRecord, hlsn, htxn, htype, hpage, hcount,
    leValue_leBytes_of_lt hdataLt, leValue_leBytes_of_lt hcode,
    leValue_leBytes_of_lt hlsnLt, leValue_leBytes_of_lt htxnLt,
    leValue_leBytes_of_lt hpageLt, WalRecordType.ofCode_code, hdata, hdrop,
    guard, if_pos hroom, UInt64.ofNat_toNat, UInt32.ofNat_toNat]
  rfl

theorem frame_ne_nil (h : Storable r.data) : r.frame crc ≠ [] := by
  intro hnil
  have hlen := length_frame crc h
  rw [hnil, walStride_of_lt h.1, length_nil] at hlen
  omega

end WalRecord

theorem walk_frames (crc : Bytes → UInt32) {rs : List WalRecord}
    (h : ∀ r ∈ rs, Storable r.data) {n : ℕ} (hn : rs.length ≤ n) :
    walk n (rs.flatMap (WalRecord.frame crc)) = some rs := by
  induction rs generalizing n with
  | nil => cases n <;> rfl
  | cons r rs ih =>
    obtain ⟨n, rfl⟩ : ∃ k, n = k + 1 := ⟨n - 1, by rw [length_cons] at hn; omega⟩
    have hr : Storable r.data := h r (by simp)
    have hrs := @ih (fun q hq => h q (by simp [hq])) n (Nat.le_of_succ_le_succ hn)
    have hread := WalRecord.readRecord_frame crc hr (rs.flatMap (WalRecord.frame crc))
    rw [flatMap_cons]
    cases hbytes : r.frame crc ++ rs.flatMap (WalRecord.frame crc) with
    | nil => exact absurd (append_eq_nil_iff.mp hbytes).1 (WalRecord.frame_ne_nil crc hr)
    | cons b bs =>
      rw [hbytes] at hread
      simp [walk, hread, hrs]

end Codo.Storage
