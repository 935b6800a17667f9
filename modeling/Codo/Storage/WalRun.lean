import Codo.Storage.Wal

/-!
# Runs of the write-ahead log

Sequences of `write_wal_record` and `flush_wal_buffer` calls under arbitrary
results of `write`.  The invariant compares the log, that is the file followed
by the buffer, with the frames of the accepted records.  A flush that gives up
after a partial transfer leaves bytes in the file that are still in the
buffer; the invariant counts them.
-/

namespace Codo.Storage

open Support List

variable {w : Wal} {results : List WriteResult}

/-- The bytes of a C object, which are fewer than `PTRDIFF_MAX`. -/
structure Payload where
  bytes : Bytes
  length_lt : bytes.length < 2 ^ 63

/-- One call into the log. -/
inductive WalCall
  | write (txnId : UInt64) (type : WalRecordType) (pageId : UInt32) (payload : Payload)
  | flush

namespace Wal

def call (crc : Bytes → UInt32) (w : Wal) (results : List WriteResult) :
    WalCall → ℤ × Wal × List WriteResult
  | .write txnId type pageId payload => w.writeWalRecord crc results txnId type pageId payload.bytes
  | .flush => w.flushWalBuffer results

/-- Make a sequence of calls and collect their return codes. -/
def run (crc : Bytes → UInt32) : List WalCall → Wal → List WriteResult →
    List (WalCall × ℤ) × Wal × List WriteResult
  | [], w, results => ([], w, results)
  | c :: calls, w, results =>
    let o := w.call crc results c
    let rest := run crc calls o.2.1 o.2.2
    ((c, o.1) :: rest.1, rest.2)

/-- The call appends the buffer to the file. -/
def Flushes (w : Wal) : WalCall → Prop
  | .write _ _ _ payload =>
    walStride payload.bytes.length ≤ walBufferSize ∧
      walBufferSize < w.buffer.length + walStride payload.bytes.length
  | .flush => True

instance (w : Wal) : DecidablePred w.Flushes
  | .write _ _ _ _ => inferInstanceAs (Decidable (_ ∧ _))
  | .flush => inferInstanceAs (Decidable True)

/-- The bytes the call's flush transfers before a hard error ends it. -/
def callTorn (w : Wal) (results : List WriteResult) (c : WalCall) : ℕ :=
  if w.Flushes c then tornBytes results 0 w.buffer.length else 0

/-- The bytes all flushes of a run transfer before hard errors end them. -/
def runTorn (crc : Bytes → UInt32) :
    List WalCall → Wal → List WriteResult → ℕ
  | [], _, _ => 0
  | c :: calls, w, results =>
    let o := w.call crc results c
    w.callTorn results c + runTorn crc calls o.2.1 o.2.2

end Wal

/-- The record a call adds to the log, when it returned `0`. -/
def acceptedBy (lsn : UInt64) : WalCall × ℤ → List WalRecord
  | (.write txnId type pageId payload, rc) =>
    if rc = 0 then [⟨lsn, txnId, type, pageId, payload.bytes⟩] else []
  | (.flush, _) => []

/-- The records of the calls that returned `0`, in call order, numbered
consecutively from `lsn`. -/
def acceptedRecords (lsn : UInt64) : List (WalCall × ℤ) → List WalRecord
  | [] => []
  | o :: os => acceptedBy lsn o ++ acceptedRecords (lsn + UInt64.ofNat (acceptedBy lsn o).length) os

def frames (crc : Bytes → UInt32) (rs : List WalRecord) : Bytes :=
  rs.flatMap (WalRecord.frame crc)

@[simp] theorem frames_append (crc : Bytes → UInt32) (rs qs : List WalRecord) :
    frames crc (rs ++ qs) = frames crc rs ++ frames crc qs := by
  simp [frames]

@[simp] theorem frames_nil (crc : Bytes → UInt32) : frames crc [] = [] := rfl

@[simp] theorem frames_singleton (crc : Bytes → UInt32) (r : WalRecord) :
    frames crc [r] = r.frame crc := by
  simp [frames]

section Cases

variable (crc : Bytes → UInt32) (w : Wal) (results : List WriteResult)

/-- Everything a call may do: be refused for its size, give up in a flush,
flush, or add a record with or without a flush before it. -/
theorem Wal.call_cases (c : WalCall) :
    (∃ txnId type pageId payload, c = .write txnId type pageId payload ∧
        walBufferSize < walStride payload.bytes.length ∧
        w.call crc results c = (-1, w, results) ∧ ¬ w.Flushes c) ∨
      ((writeLoop results w.file w.buffer).ok = false ∧ w.Flushes c ∧ w.call crc results c =
          (-1, { w with file := (writeLoop results w.file w.buffer).file },
            (writeLoop results w.file w.buffer).results)) ∨
      ((writeLoop results w.file w.buffer).ok = true ∧ c = .flush ∧ w.call crc results c =
          (0, { w with file := w.file ++ w.buffer, buffer := [] },
            (writeLoop results w.file w.buffer).results)) ∨
      (∃ txnId type pageId payload, c = .write txnId type pageId payload ∧
        Storable payload.bytes ∧ ¬ w.Flushes c ∧
        w.buffer.length + walStride payload.bytes.length ≤ walBufferSize ∧ w.call crc results c =
          (0, w.push crc txnId type pageId payload.bytes, results)) ∨
      (∃ txnId type pageId payload, c = .write txnId type pageId payload ∧ Storable payload.bytes ∧
        (writeLoop results w.file w.buffer).ok = true ∧ w.call crc results c =
          (0, Wal.push crc { w with file := w.file ++ w.buffer, buffer := [] }
              txnId type pageId payload.bytes, (writeLoop results w.file w.buffer).results)) := by
  cases c with
  | flush =>
    cases hok : (writeLoop results w.file w.buffer).ok with
    | false =>
      refine .inr (.inl ⟨rfl, trivial, ?_⟩)
      have hpos : 0 < w.buffer.length := by
        rw [length_pos_iff]
        rintro hnil
        simp [hnil] at hok
      simp [Wal.call, Wal.flushWalBuffer, hpos, hok]
    | true =>
      refine .inr (.inr (.inl ⟨rfl, rfl, ?_⟩))
      have hfile := writeLoop_file_of_ok hok
      by_cases hpos : 0 < w.buffer.length
      · simp [Wal.call, Wal.flushWalBuffer, hpos, hok, hfile]
      · have hnil : w.buffer = [] := by simpa [length_pos_iff] using hpos
        obtain ⟨file, buffer, nextLsn⟩ := w
        subst hnil
        simp [Wal.call, Wal.flushWalBuffer]
  | write txnId type pageId payload =>
    by_cases hbig : walBufferSize < walStride payload.bytes.length
    · refine .inl ⟨txnId, type, pageId, payload, rfl, hbig, ?_, ?_⟩
      · rw [Wal.call, Wal.writeWalRecord, if_pos hbig]
      · exact fun hflush => absurd hflush.1 (not_le.mpr hbig)
    · have hstorable : Storable payload.bytes := ⟨payload.length_lt, not_lt.mp hbig⟩
      by_cases hfull : walBufferSize < w.buffer.length + walStride payload.bytes.length
      · cases hok : (writeLoop results w.file w.buffer).ok with
        | false =>
          refine .inr (.inl ⟨rfl, ⟨not_lt.mp hbig, hfull⟩, ?_⟩)
          simp [Wal.call, Wal.writeWalRecord, hbig, hfull, hok]
        | true =>
          have hfile := writeLoop_file_of_ok hok
          refine .inr (.inr (.inr (.inr ⟨txnId, type, pageId, payload, rfl, hstorable, rfl, ?_⟩)))
          simp [Wal.call, Wal.writeWalRecord, hbig, hfull, hok, hfile]
      · refine .inr (.inr (.inr (.inl ⟨txnId, type, pageId, payload,
          rfl, hstorable, ?_, not_lt.mp hfull, ?_⟩)))
        · exact fun hflush => hfull hflush.2
        · simp [Wal.call, Wal.writeWalRecord, hbig, hfull]

end Cases

/-! ## The invariant -/

/-- The log holds the frames of `records`, apart from `torn` bytes left behind
by flushes that gave up. -/
structure WalInv (crc : Bytes → UInt32) (records : List WalRecord) (torn : ℕ) (w : Wal) : Prop where
  length : w.file.length + w.buffer.length = (frames crc records).length + torn
  bytes : torn = 0 → w.file ++ w.buffer = frames crc records
  storable : ∀ r ∈ records, Storable r.data
  bound : w.buffer.length ≤ walBufferSize
  aligned : 8 ∣ w.buffer.length

namespace WalInv

variable {crc : Bytes → UInt32} {records : List WalRecord} {torn : ℕ}
  {w : Wal} {results : List WriteResult}

theorem empty (crc : Bytes → UInt32) : WalInv crc [] 0 Wal.empty :=
  ⟨rfl, fun _ => rfl, by simp, by simp [Wal.empty], by simp [Wal.empty]⟩

section

variable (h : WalInv crc records torn w)
include h

theorem drain :
    WalInv crc records torn { w with file := w.file ++ w.buffer, buffer := [] } := by
  refine ⟨?_, ?_, h.storable, Nat.zero_le _, dvd_zero 8⟩
  · rw [length_append, length_nil, Nat.add_zero, h.length]
  · intro htorn
    rw [append_nil]
    exact h.bytes htorn

theorem giveUp (hfail : (writeLoop results w.file w.buffer).ok = false) :
    WalInv crc records (torn + tornBytes results 0 w.buffer.length)
      { w with file := (writeLoop results w.file w.buffer).file } := by
  obtain ⟨-, -, ⟨hok, -⟩ | ⟨-, -, front, hfront, hlen⟩⟩ :=
    @writeLoop_cases results w.file w.buffer 0
  · cases hok.symm.trans hfail
  have hlength := h.length
  rw [hfront, ← hlen]
  refine ⟨?_, ?_, h.storable, h.bound, h.aligned⟩
  · show (w.file ++ front).length + w.buffer.length = _
    rw [length_append]
    omega
  · intro htorn
    have hnil : front = [] := length_eq_zero_iff.mp (by omega)
    rw [hnil, append_nil]
    exact h.bytes (by omega)

theorem push (txnId : UInt64) (type : WalRecordType) (pageId : UInt32)
    {data : Bytes} (hdata : Storable data)
    (hroom : w.buffer.length + walStride data.length ≤ walBufferSize) :
    WalInv crc (records ++ [⟨w.nextLsn, txnId, type, pageId, data⟩]) torn
      (w.push crc txnId type pageId data) := by
  have hframe := @WalRecord.length_frame crc ⟨w.nextLsn, txnId, type, pageId, data⟩ hdata
  have hlength := h.length
  refine ⟨?_, ?_, ?_, ?_, ?_⟩
  · simp only [Wal.push, length_append, frames_append, frames_singleton]
    omega
  · intro htorn
    simp only [Wal.push, frames_append, frames_singleton]
    rw [← append_assoc, h.bytes htorn]
  · intro r hr
    rcases mem_append.mp hr with hold | hnew
    · exact h.storable r hold
    · rw [mem_singleton.mp hnew]
      exact hdata
  · simp only [Wal.push, length_append, hframe]
    exact hroom
  · simp only [Wal.push, length_append, hframe]
    exact Nat.dvd_add h.aligned (dvd_walStride _)

theorem call (results : List WriteResult) (c : WalCall) :
    WalInv crc (records ++ acceptedBy w.nextLsn (c, (w.call crc results c).1))
        (torn + w.callTorn results c) (w.call crc results c).2.1 ∧
      (w.call crc results c).2.1.nextLsn = w.nextLsn + UInt64.ofNat
          (acceptedBy w.nextLsn (c, (w.call crc results c).1)).length := by
  rcases Wal.call_cases crc w results c with
    ⟨txnId, type, pageId, payload, rfl, -, heq, hno⟩ | ⟨hfail, hflush, heq⟩ |
    ⟨hok, rfl, heq⟩ |
    ⟨txnId, type, pageId, payload, rfl, hdata, hno, hroom, heq⟩ |
    ⟨txnId, type, pageId, payload, rfl, hdata, hok, heq⟩
  · rw [heq, Wal.callTorn, if_neg hno]
    simpa [acceptedBy] using h
  · have hnone : acceptedBy w.nextLsn (c, -1) = [] := by cases c <;> simp [acceptedBy]
    rw [heq, Wal.callTorn, if_pos hflush, hnone, append_nil]
    exact ⟨h.giveUp hfail, by simp⟩
  · have htorn : w.callTorn results .flush = 0 := by
      have hflush : w.Flushes .flush := trivial
      rw [Wal.callTorn, if_pos hflush]
      exact tornBytes_of_ok hok
    rw [heq, htorn]
    simpa [acceptedBy] using h.drain
  · rw [heq, Wal.callTorn, if_neg hno]
    simpa [acceptedBy, Wal.push] using h.push txnId type pageId hdata hroom
  · have htorn : w.callTorn results (.write txnId type pageId payload) = 0 := by
      rw [Wal.callTorn]
      split
      · exact tornBytes_of_ok hok
      · rfl
    have hroom : ([] : Bytes).length + walStride payload.bytes.length ≤ walBufferSize := by
      rw [length_nil, Nat.zero_add]
      exact hdata.2
    rw [heq, htorn]
    simpa [acceptedBy, Wal.push] using h.drain.push txnId type pageId hdata hroom

theorem run (calls : List WalCall) (results : List WriteResult) :
    WalInv crc (records ++ acceptedRecords w.nextLsn (Wal.run crc calls w results).1)
      (torn + Wal.runTorn crc calls w results) (Wal.run crc calls w results).2.1 := by
  induction calls generalizing w results records torn with
  | nil => simpa [Wal.run, Wal.runTorn, acceptedRecords] using h
  | cons c calls ih =>
    obtain ⟨hstep, hlsn⟩ := h.call results c
    have hrest := ih hstep (w.call crc results c).2.2
    rw [hlsn] at hrest
    simpa [Wal.run, Wal.runTorn, acceptedRecords, Nat.add_assoc] using hrest

end

end WalInv

/-! ## The log without hard errors -/

theorem acceptedRecords_lsn (lsn : UInt64) (os : List (WalCall × ℤ)) :
    (acceptedRecords lsn os).map WalRecord.lsn = (List.range (acceptedRecords lsn os).length).map
        fun i => lsn + UInt64.ofNat i := by
  induction os generalizing lsn with
  | nil => rfl
  | cons o os ih =>
    have hhead : acceptedBy lsn o = [] ∨ ∃ r, acceptedBy lsn o = [r] ∧ r.lsn = lsn := by
      rcases o with ⟨c, rc⟩
      cases c with
      | flush => exact .inl rfl
      | write txnId type pageId payload =>
        by_cases hrc : rc = 0
        · exact .inr ⟨_, by rw [acceptedBy, if_pos hrc], rfl⟩
        · exact .inl (by rw [acceptedBy, if_neg hrc])
    rcases hhead with hnil | ⟨r, hone, hlsn⟩
    · simpa [acceptedRecords, hnil] using ih lsn
    · have hrest := ih (lsn + 1)
      have hshift : ∀ i : ℕ, lsn + 1 + UInt64.ofNat i = lsn + UInt64.ofNat (i + 1) := by
        intro i
        rw [UInt64.ofNat_add, UInt64.add_assoc, UInt64.add_comm (UInt64.ofNat i)]
        rfl
      simp only [acceptedRecords, hone, singleton_append, map_cons, length_cons, range_succ_eq_map,
        map_map, hlsn]
      refine cons_eq_cons.mpr ⟨by simp, ?_⟩
      refine (hrest.trans ?_)
      refine map_congr_left ?_
      intro i _
      exact hshift i

theorem Wal.callTorn_of_soft (h : ∀ r ∈ results, r.Soft) (c : WalCall) :
    w.callTorn results c = 0 := by
  rw [Wal.callTorn]
  split
  · exact tornBytes_of_ok (@writeLoop_ok_of_soft results w.file w.buffer h).1
  · rfl

theorem Wal.call_results_soft (crc : Bytes → UInt32) (h : ∀ r ∈ results, r.Soft) (c : WalCall) :
    ∀ r ∈ (w.call crc results c).2.2, r.Soft := by
  have hloop := (@writeLoop_ok_of_soft results w.file w.buffer h).2
  rcases Wal.call_cases crc w results c with
    ⟨_, _, _, _, -, -, heq, -⟩ | ⟨-, -, heq⟩ | ⟨-, -, heq⟩ |
    ⟨_, _, _, _, -, -, -, -, heq⟩ | ⟨_, _, _, _, -, -, -, heq⟩
  · rw [heq]
    exact h
  · rw [heq]
    exact hloop
  · rw [heq]
    exact hloop
  · rw [heq]
    exact h
  · rw [heq]
    exact hloop

theorem Wal.runTorn_of_soft (crc : Bytes → UInt32) (calls : List WalCall)
    (h : ∀ r ∈ results, r.Soft) : Wal.runTorn crc calls w results = 0 := by
  induction calls generalizing w results with
  | nil => rfl
  | cons c calls ih =>
    have hrest := @ih (w.call crc results c).2.1 (w.call crc results c).2.2
      (Wal.call_results_soft crc h c)
    rw [Wal.runTorn, Wal.callTorn_of_soft h c, hrest]

theorem length_le_length_frames (crc : Bytes → UInt32) {rs : List WalRecord}
    (h : ∀ r ∈ rs, Storable r.data) : rs.length ≤ (frames crc rs).length := by
  induction rs with
  | nil => exact Nat.zero_le _
  | cons r rs ih =>
    have hrest := ih fun q hq => h q (by simp [hq])
    have hpos := length_pos_iff.mpr (WalRecord.frame_ne_nil crc (h r (by simp)))
    simp only [frames, flatMap_cons, length_append, length_cons] at hrest ⊢
    omega

/-- As long as no `write` fails hard, the log is the sequence of frames of the
accepted records, it can be walked back into them, and they are numbered
consecutively; a record too large for the buffer changes nothing. -/
theorem wal_run_lossless (crc : Bytes → UInt32) (calls : List WalCall)
    (results : List WriteResult) (hsoft : ∀ r ∈ results, r.Soft) :
    let out := Wal.run crc calls Wal.empty results
    let w := out.2.1
    let records := acceptedRecords 1 out.1
    w.file ++ w.buffer = frames crc records ∧
      walk (w.file ++ w.buffer).length (w.file ++ w.buffer) = some records ∧
      records.map WalRecord.lsn =
        (List.range records.length).map (fun i => 1 + UInt64.ofNat i) ∧
      w.buffer.length ≤ walBufferSize ∧ 8 ∣ w.buffer.length ∧
      ∀ txnId type pageId payload,
        walBufferSize < walStride payload.bytes.length →
        w.call crc out.2.2 (.write txnId type pageId payload) =
          (-1, w, out.2.2) := by
  intro out w records
  have hinv := (WalInv.empty crc).run calls results
  rw [Wal.runTorn_of_soft crc calls hsoft] at hinv
  have hbytes : w.file ++ w.buffer = frames crc records := hinv.bytes rfl
  refine ⟨hbytes, ?_, acceptedRecords_lsn 1 out.1, hinv.bound, hinv.aligned, ?_⟩
  · rw [hbytes]
    exact walk_frames crc hinv.storable (length_le_length_frames crc hinv.storable)
  · intro txnId type pageId payload hbig
    rw [Wal.call, Wal.writeWalRecord, if_pos hbig]

/-- Two records with an interrupted and partial flush between them. -/
theorem wal_run_lossless_interrupted :
    let calls : List WalCall :=
      [.write 1 .insert 2 ⟨[1, 2, 3], by decide⟩, .flush,
        .write 1 .commit 0 ⟨[], by decide⟩]
    let results : List WriteResult := [.wrote 5, .eintr]
    let out := Wal.run (fun _ => 0) calls Wal.empty results
    (∀ r ∈ results, r.Soft) ∧ (acceptedRecords 1 out.1).length = 2 ∧
      out.2.1.file ++ out.2.1.buffer =
        frames (fun _ => 0) (acceptedRecords 1 out.1) := by
  intro calls results out
  have hsoft : ∀ r ∈ results, r.Soft := by decide
  exact ⟨hsoft, by decide, (wal_run_lossless _ calls results hsoft).1⟩

/-! ## The log after a hard error -/

theorem Wal.call_file_of_flushes (crc : Bytes → UInt32) {c : WalCall}
    (hflush : w.Flushes c) (hrc : (w.call crc results c).1 = 0) :
    (w.call crc results c).2.1.file = w.file ++ w.buffer := by
  rcases Wal.call_cases crc w results c with
    ⟨_, _, _, _, -, -, -, hno⟩ | ⟨-, -, heq⟩ | ⟨-, -, heq⟩ |
    ⟨_, _, _, _, -, -, hno, -, -⟩ | ⟨_, _, _, _, -, -, -, heq⟩
  · exact absurd hflush hno
  · rw [heq] at hrc
    cases hrc
  · rw [heq]
  · exact absurd hflush hno
  · rw [heq]
    rfl

/-- After a successful flush the file is exactly the frames of the records
accepted before it if and only if no earlier flush met a hard error after it
had already transferred a part of the buffer. -/
theorem wal_file_eq_frames_iff (crc : Bytes → UInt32) (calls : List WalCall)
    (results : List WriteResult) (c : WalCall)
    (hflush : (Wal.run crc calls Wal.empty results).2.1.Flushes c)
    (hrc : ((Wal.run crc calls Wal.empty results).2.1.call crc
      (Wal.run crc calls Wal.empty results).2.2 c).1 = 0) :
    ((Wal.run crc calls Wal.empty results).2.1.call crc
        (Wal.run crc calls Wal.empty results).2.2 c).2.1.file =
      frames crc
        (acceptedRecords 1 (Wal.run crc calls Wal.empty results).1) ↔
      Wal.runTorn crc calls Wal.empty results = 0 := by
  have hinv := (WalInv.empty crc).run calls results
  rw [nil_append, Nat.zero_add] at hinv
  rw [Wal.call_file_of_flushes crc hflush hrc]
  constructor
  · intro hfile
    have hlength := hinv.length
    rw [← length_append, hfile] at hlength
    exact Nat.left_eq_add.mp hlength
  · intro htorn
    exact hinv.bytes htorn

/-- A clean run: one record, then a flush. -/
theorem wal_file_eq_frames_iff_clean :
    let calls : List WalCall := [.write 7 .commit 0 ⟨[], by decide⟩]
    let out := Wal.run (fun _ => 0) calls Wal.empty []
    out.2.1.Flushes .flush ∧
      (out.2.1.call (fun _ => 0) out.2.2 .flush).1 = 0 ∧
      (out.2.1.call (fun _ => 0) out.2.2 .flush).2.1.file =
        frames (fun _ => 0) (acceptedRecords 1 out.1) := by
  intro calls out
  have hrc : (out.2.1.call (fun _ => 0) out.2.2 .flush).1 = 0 := by decide
  have htorn : Wal.runTorn (fun _ => 0) calls Wal.empty [] = 0 := by decide
  exact ⟨trivial, hrc, (wal_file_eq_frames_iff _ calls [] .flush trivial hrc).mpr htorn⟩

/-- Eight bytes go out before a hard error; the next flush appends the whole
buffer again behind them. -/
theorem wal_torn_flush_repeats_bytes :
    let out := Wal.run (fun _ => 0)
      [.write 7 .commit 0 ⟨[], by decide⟩, .flush] Wal.empty
      [.wrote 8, .error]
    let record := frames (fun _ => 0) (acceptedRecords 1 out.1)
    (out.2.1.call (fun _ => 0) out.2.2 .flush).1 = 0 ∧
      (out.2.1.call (fun _ => 0) out.2.2 .flush).2.1.file =
        record.take 8 ++ record ∧
      (out.2.1.call (fun _ => 0) out.2.2 .flush).2.1.file ≠ record := by
  decide

end Codo.Storage
