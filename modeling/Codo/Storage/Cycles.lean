import Codo.Storage.Restart

/-!
# The log over several cycles

`init_storage_engine` starts the LSN and the transaction counter at one and
appends to the log file it finds.  As long as that file was empty, the records
in it are numbered in file order.  A cycle that finds the records of an earlier
one numbers its own from one again, so the LSNs of the file repeat, and so do
the transaction ids.

The results hold as long as no `write` on the log fails hard; what such a
failure leaves in the file is the subject of `Codo.Storage.WalRun`.
-/

namespace Codo.Storage

open Codo.Support Engine List

/-! ## The log of one cycle -/

/-- The file is `base` followed by the first records of this cycle, the buffer
holds the others, and all of them are numbered from one. -/
structure Numbered (crc : Bytes → UInt32) (base : Bytes) (e : Engine) : Prop where
  log : ∃ flushed pending, e.history.logged = flushed ++ pending ∧
    e.wal.file = base ++ frames crc flushed ∧ e.wal.buffer = frames crc pending
  lsns : e.history.logged.map WalRecord.lsn =
    (List.range e.history.logged.length).map fun i => 1 + UInt64.ofNat i
  nextLsn : e.wal.nextLsn = 1 + UInt64.ofNat e.history.logged.length
  storable : ∀ r ∈ e.history.logged, Storable r.data

variable {crc : Bytes → UInt32} {txnId : UInt64} {e e' : Engine}

section Calm

variable {e'' : Engine}

/-- Log code uses up the results of `write` from the front. -/
theorem Logs.exists_used (h : Logs crc txnId e e') :
    ∃ used, e.io.walWrites = used ++ e'.io.walWrites := by
  induction h with
  | same _ hresults _ => exact ⟨[], hresults.symm⟩
  | @flushed e e' _ _ hresults _ _ _ =>
    obtain ⟨used, hused, -⟩ := Wal.flushWalBuffer_cases e.wal e.io.walWrites
    exact ⟨used, hused.trans (congrArg (used ++ ·) hresults.symm)⟩
  | @writeWalRecord e type pageId data _ =>
    obtain ⟨used, hused, -⟩ := Wal.writeWalRecord_cases crc e.wal
      e.io.walWrites txnId type pageId data
    exact ⟨used, hused⟩
  | trans _ _ ih ih' =>
    obtain ⟨used, hused⟩ := ih
    obtain ⟨used', hused'⟩ := ih'
    exact ⟨used ++ used', by rw [hused, hused', append_assoc]⟩

theorem Calm.parts (h : Calm e e'') (h₁ : Logs crc txnId e e')
    (h₂ : Logs crc txnId e' e'') : Calm e e' ∧ Calm e' e'' := by
  have hright := h.right h₁.exists_used h₂.exists_used
  obtain ⟨used, hused, hsoft⟩ := h
  obtain ⟨used₁, hused₁⟩ := h₁.exists_used
  obtain ⟨used₂, hused₂⟩ := h₂.exists_used
  refine ⟨⟨used₁, hused₁, ?_⟩, hright⟩
  have hsame : used₁ ++ used₂ = used := by
    have happend : used₁ ++ used₂ ++ e''.io.walWrites = used ++ e''.io.walWrites := by
      rw [append_assoc, ← hused₂, ← hused₁, hused]
    exact append_cancel_right happend
  intro r hr
  exact hsoft r (hsame ▸ mem_append_left used₂ hr)

theorem flushWalBuffer_of_calm (h : Calm e e.flushWalBuffer.2) :
    e.flushWalBuffer.2.wal = { e.wal with file := e.wal.file ++ e.wal.buffer, buffer := [] } := by
  obtain ⟨used, hused, hsoft⟩ := h
  obtain ⟨used', hused', hcases⟩ := Wal.flushWalBuffer_cases e.wal e.io.walWrites
  have hsame : used' = used := append_cancel_right (hused'.symm.trans hused)
  subst hsame
  rcases hcases with hdone | ⟨⟨r, hr, hhard⟩, -⟩
  · exact hdone
  · exact absurd (hsoft r hr) hhard

theorem writeWalRecord_of_calm {type : WalRecordType} {pageId : UInt32}
    {data : Bytes} (hdata : Storable data)
    (h : Calm e (e.writeWalRecord crc txnId type pageId data).2) :
    (e.writeWalRecord crc txnId type pageId data).2.history.logged =
        e.history.logged ++ [⟨e.wal.nextLsn, txnId, type, pageId, data⟩] ∧
      ((e.writeWalRecord crc txnId type pageId data).2.wal = e.wal.push crc txnId type pageId data ∨
        (e.writeWalRecord crc txnId type pageId data).2.wal = Wal.push crc
            { e.wal with file := e.wal.file ++ e.wal.buffer, buffer := [] }
            txnId type pageId data) := by
  obtain ⟨used, hused, hsoft⟩ := h
  obtain ⟨used', hused', hcases⟩ := Wal.writeWalRecord_cases crc e.wal
    e.io.walWrites txnId type pageId data
  have hsame : used' = used := append_cancel_right (hused'.symm.trans hused)
  subst hsame
  rcases hcases with ⟨hrc, hpush⟩ | ⟨-, hbig | ⟨r, hr, hhard⟩, -⟩
  · refine ⟨?_, hpush⟩
    simp [Engine.writeWalRecord, History.logged, hrc]
  · exact absurd hdata.2 (not_le.mpr hbig)
  · exact absurd (hsoft r hr) hhard

end Calm

variable {base : Bytes}

namespace Numbered

theorem opened (crc : Bytes → UInt32) (file walFile : Bytes) (io : Io) :
    Numbered crc walFile (opened file walFile io) :=
  ⟨⟨[], [], rfl, (append_nil _).symm, rfl⟩, rfl, rfl, nofun⟩

theorem same (h : Numbered crc base e) (hwal : e'.wal = e.wal)
    (hattempts : e'.history.attempts = e.history.attempts) : Numbered crc base e' := by
  have hlogged : e'.history.logged = e.history.logged := by
    rw [History.logged, hattempts]
    rfl
  obtain ⟨hlog, hlsns, hnext, hstorable⟩ := h
  exact ⟨by rwa [hlogged, hwal], by rwa [hlogged], by rwa [hlogged, hwal], by rwa [hlogged]⟩

theorem drain (h : Numbered crc base e) (hwal : e'.wal =
      { e.wal with file := e.wal.file ++ e.wal.buffer, buffer := [] })
    (hattempts : e'.history.attempts = e.history.attempts) : Numbered crc base e' := by
  have hlogged : e'.history.logged = e.history.logged := by
    rw [History.logged, hattempts]
    rfl
  obtain ⟨⟨flushed, pending, hparts, hfile, hbuffer⟩, hlsns, hnext, hstorable⟩ := h
  refine ⟨⟨e.history.logged, [], ?_, ?_, ?_⟩, ?_, ?_, ?_⟩
  · rw [hlogged, append_nil]
  · rw [hwal, hparts, frames_append, ← append_assoc, ← hfile, ← hbuffer]
  · rw [hwal, frames_nil]
  · rw [hlogged]
    exact hlsns
  · rw [hwal, hlogged]
    exact hnext
  · rwa [hlogged]

theorem push (h : Numbered crc base e) {type : WalRecordType} {pageId : UInt32}
    {data : Bytes} (hdata : Storable data) (hlogged : e'.history.logged =
      e.history.logged ++ [⟨e.wal.nextLsn, txnId, type, pageId, data⟩])
    (hwal : e'.wal = e.wal.push crc txnId type pageId data) : Numbered crc base e' := by
  obtain ⟨⟨flushed, pending, hparts, hfile, hbuffer⟩, hlsns, hnext, hstorable⟩ := h
  refine ⟨⟨flushed, pending ++ [⟨e.wal.nextLsn, txnId, type, pageId, data⟩],
    ?_, ?_, ?_⟩, ?_, ?_, ?_⟩
  · rw [hlogged, hparts, append_assoc]
  · rw [hwal]
    exact hfile
  · rw [hwal, Wal.push, hbuffer, frames_append, frames_singleton]
  · rw [hlogged, map_append, hlsns, length_append, length_singleton, range_succ, map_append, hnext]
    rfl
  · have hsucc : UInt64.ofNat (e.history.logged.length + 1) =
        UInt64.ofNat e.history.logged.length + 1 := UInt64.ofNat_add _ _
    rw [hwal, hlogged, length_append, length_singleton, Wal.push, hnext, hsucc, UInt64.add_assoc]
  · intro r hr
    rw [hlogged] at hr
    rcases mem_append.mp hr with hold | hnew
    · exact hstorable r hold
    · rw [mem_singleton.mp hnew]
      exact hdata

/-- A calm stretch of engine code keeps the records numbered. -/
theorem of_logs (hlogs : Logs crc txnId e e') (h : Numbered crc base e)
    (hcalm : Calm e e') : Numbered crc base e' := by
  induction hlogs with
  | same hwal _ hhistory => exact h.same hwal (by rw [hhistory])
  | @flushed e e' writes hwal hresults hattempts _ _ =>
    have hflush : Calm e e.flushWalBuffer.2 := by
      obtain ⟨used, hused, hsoft⟩ := hcalm
      exact ⟨used, hused.trans (congrArg (used ++ ·) hresults), hsoft⟩
    exact h.drain (hwal.trans (flushWalBuffer_of_calm hflush)) hattempts
  | writeWalRecord e type pageId hdata =>
    obtain ⟨hlogged, hpush | hpush⟩ := writeWalRecord_of_calm hdata hcalm
    · exact h.push hdata hlogged hpush
    · -- The record goes behind a flush of the buffer.
      have hdrained : Numbered crc base
          { e with wal :=
            { e.wal with
              file := e.wal.file ++ e.wal.buffer
              buffer := [] } } := h.drain rfl rfl
      exact hdrained.push hdata hlogged hpush
  | trans h₁ h₂ ih ih' =>
    obtain ⟨hcalm₁, hcalm₂⟩ := hcalm.parts h₁ h₂
    exact ih' (ih h hcalm₁) hcalm₂

end Numbered

/-! ## Starting up -/

theorem Logs.exists_attempts (h : Logs crc txnId e e') :
    ∃ attempts, e'.history.attempts = e.history.attempts ++ attempts ∧
      ∀ a ∈ attempts, a.1.txnId = txnId := by
  induction h with
  | same _ _ hhistory => exact ⟨[], by rw [hhistory, append_nil], nofun⟩
  | flushed _ _ hattempts _ _ => exact ⟨[], by rw [hattempts, append_nil], nofun⟩
  | writeWalRecord e type pageId _ =>
    refine ⟨_, rfl, ?_⟩
    intro a ha
    rw [mem_singleton.mp ha]
  | trans _ _ ih ih' =>
    obtain ⟨attempts, heq, hids⟩ := ih
    obtain ⟨attempts', heq', hids'⟩ := ih'
    refine ⟨attempts ++ attempts', ?_, ?_⟩
    · rw [heq', heq, append_assoc]
    · intro a ha
      exact (mem_append.mp ha).elim (hids a) (hids' a)

theorem Logs.still (h : Logs crc txnId e e') (hbuffer : e.wal.buffer = [])
    (hattempts : e'.history.attempts = e.history.attempts) :
    e'.wal = e.wal ∧ e'.io.walWrites = e.io.walWrites := by
  induction h with
  | same hwal hresults _ => exact ⟨hwal, hresults⟩
  | @flushed e e' writes hwal hresults _ _ _ =>
    have hidle : e.wal.flushWalBuffer e.io.walWrites = (0, e.wal, e.io.walWrites) := by
      rw [Wal.flushWalBuffer, hbuffer]
      rfl
    refine ⟨hwal.trans ?_, hresults.trans ?_⟩
    · rw [Engine.flushWalBuffer, hidle]
    · rw [Engine.flushWalBuffer, hidle]
  | writeWalRecord e type pageId _ =>
    have hlen := congrArg List.length hattempts
    rw [Engine.writeWalRecord, length_append] at hlen
    exact absurd hlen (by simp)
  | @trans e e' e'' h₁ h₂ ih ih' =>
    obtain ⟨new, hnew, -⟩ := h₁.exists_attempts
    obtain ⟨new', hnew', -⟩ := h₂.exists_attempts
    have hlen := congrArg List.length (hattempts.symm.trans hnew')
    rw [hnew, length_append, length_append] at hlen
    have hnil : new = [] := length_eq_zero_iff.mp (by omega)
    have hnil' : new' = [] := length_eq_zero_iff.mp (by omega)
    rw [hnil, append_nil] at hnew
    rw [hnil', append_nil] at hnew'
    obtain ⟨hwal, hresults⟩ := ih hbuffer hnew
    obtain ⟨hwal', hresults'⟩ := ih' (by rw [hwal, hbuffer]) hnew'
    exact ⟨hwal'.trans hwal, hresults'.trans hresults⟩

theorem attempts_eq_of_logs (h : ∀ txnId, Logs crc txnId e e') :
    e'.history.attempts = e.history.attempts := by
  obtain ⟨attempts, heq, hids⟩ := (h 0).exists_attempts
  obtain ⟨attempts', heq', hids'⟩ := (h 1).exists_attempts
  cases attempts with
  | nil => rw [heq, append_nil]
  | cons a rest =>
    have hsame : attempts' = a :: rest := append_cancel_left (heq'.symm.trans heq)
    have hzero := hids a (by simp)
    rw [hids' a (by simp [hsame])] at hzero
    exact absurd hzero (by decide)

theorem initStorageEngine_log {file walFile : Bytes} {io : Io}
    (h : initStorageEngine crc (some file) (some walFile) io = some e) :
    e.wal = ⟨walFile, [], 1⟩ ∧ e.history.attempts = [] ∧ e.io.walWrites = io.walWrites := by
  have hlogs : ∀ txnId, Logs crc txnId (opened file walFile io) e := fun _ => .initStorageEngine h
  have hattempts := attempts_eq_of_logs hlogs
  obtain ⟨hwal, hresults⟩ := (hlogs 0).still rfl hattempts
  exact ⟨hwal, hattempts, hresults⟩

theorem numbered_of_init {file walFile : Bytes} {io : Io}
    (h : initStorageEngine crc (some file) (some walFile) io = some e) :
    Numbered crc walFile e := by
  obtain ⟨hwal, hattempts, -⟩ := initStorageEngine_log h
  exact (Numbered.opened crc file walFile io).same hwal hattempts

/-! ## Cycles -/

/-- The running engine, and the records the earlier cycles on the same files
have logged, one list for each cycle. -/
structure CycleState where
  client : Client
  earlier : List (List WalRecord)

/-- What the log is good for: the LSNs of the file increase in file order, and
no transaction has the id of one of another cycle.  Id `0` is that of the
checkpoints. -/
def LogIdentifies (s : CycleState) : Prop :=
  (∃ records, walk s.client.engine.wal.file.length s.client.engine.wal.file =
      some records ∧ (records.map WalRecord.lsn).Pairwise (· < ·)) ∧
    (s.earlier ++ [s.client.engine.history.logged]).Pairwise fun rs rs' =>
      ∀ r ∈ rs, ∀ r' ∈ rs', r.txnId ≠ 0 → r.txnId ≠ r'.txnId

/-- A step over the cycles: a call, or a cleanup followed by a new start on the
same files. -/
inductive CycleStep (crc : Bytes → UInt32) (rounds : ℕ) :
    CycleState → CycleState → Prop
  | call (s : CycleState) (call : ApiCall) :
      CycleStep crc rounds s { s with client := s.client.next crc rounds call }
  | restart (s : CycleState) {e : Engine} {io : Io}
      (hrestart : restart crc s.client.engine io = some e) :
      CycleStep crc rounds s ⟨⟨e, []⟩, s.earlier ++
          [(s.client.engine.performCheckpoint crc).2.history.logged]⟩

/-- A call whose writes to the log do not fail hard. -/
def CalmCall (crc : Bytes → UInt32) (rounds : ℕ) (c c' : Client) : Prop :=
  ∃ call : ApiCall, c' = c.next crc rounds call ∧ Calm c.engine c'.engine

section Cycles

variable {rounds : ℕ} {s : CycleState}

/-- A checkpoint is a record behind the page writes, and a flush. -/
theorem exists_performCheckpoint (crc : Bytes → UInt32) (e : Engine) :
    ∃ e₁, (∀ txnId, Logs crc txnId e e₁) ∧ (e.performCheckpoint crc).2 =
      (e₁.writeWalRecord crc 0 .checkout 0 []).2.flushWalBuffer.2 := by
  have hlogs : ∀ txnId, Logs crc txnId e e.flushWalBuffer.2.checkpointPool :=
    fun _ => .checkpointPool e
  generalize hpool : e.flushWalBuffer.2.checkpointPool = e₁ at hlogs
  refine ⟨e₁, hlogs, ?_⟩
  rw [Engine.performCheckpoint, hpool]

/-- After a calm checkpoint every record of the cycle is in the file; the last
one is that of the checkpoint. -/
theorem Numbered.performCheckpoint (h : Numbered crc base e)
    (hcalm : Calm e (e.performCheckpoint crc).2) :
    (e.performCheckpoint crc).2.wal.file =
        base ++ frames crc (e.performCheckpoint crc).2.history.logged ∧
      (e.performCheckpoint crc).2.history.logged = e.history.logged ++
        [⟨1 + UInt64.ofNat e.history.logged.length, 0, .checkout, 0, []⟩] := by
  obtain ⟨e₁, hlogs, heq⟩ := exists_performCheckpoint crc e
  have hlogs₁ : Logs crc 0 e e₁ := hlogs 0
  have hlogs₂ : Logs crc 0 e₁ (e₁.writeWalRecord crc 0 .checkout 0 []).2 :=
    Logs.writeWalRecord e₁ .checkout 0 storable_nil
  rw [heq] at hcalm ⊢
  generalize hrecord : (e₁.writeWalRecord crc 0 .checkout 0 []).2 = e₂
    at hcalm hlogs₂ ⊢
  obtain ⟨hbefore, hflush⟩ := hcalm.parts (hlogs₁.trans hlogs₂) (.flushWalBuffer e₂)
  obtain ⟨hcalm₁, hcalm₂⟩ := hbefore.parts hlogs₁ hlogs₂
  obtain ⟨flushed, pending, hparts, hfile, hbuffer⟩ := (h.of_logs (hlogs₁.trans hlogs₂) hbefore).log
  have hsame : e₂.flushWalBuffer.2.history.logged = e₂.history.logged := rfl
  rw [hsame, flushWalBuffer_of_calm hflush]
  constructor
  · rw [hparts, frames_append, ← append_assoc, ← hfile, ← hbuffer]
  · have hlogged : e₁.history.logged = e.history.logged := by
      rw [History.logged, attempts_eq_of_logs hlogs]
      rfl
    rw [← hrecord] at hcalm₂ ⊢
    rw [(writeWalRecord_of_calm storable_nil hcalm₂).1, (h.of_logs hlogs₁ hcalm₁).nextLsn, hlogged]

theorem Numbered.next {c : Client} (h : Numbered crc base c.engine)
    (call : ApiCall) (hcalm : Calm c.engine (c.next crc rounds call).engine) :
    Numbered crc base (c.next crc rounds call).engine := by
  obtain ⟨txnId, hlogs⟩ := c.exists_next_logs crc rounds call
  exact h.of_logs hlogs hcalm

variable {rs : List WalRecord}

/-- What the log file of a cycle reads back as. -/
theorem Numbered.exists_walk
    (h : Numbered crc (frames crc rs) e) (hrs : ∀ r ∈ rs, Storable r.data) :
    ∃ flushed pending, e.history.logged = flushed ++ pending ∧
      e.wal.file = frames crc (rs ++ flushed) ∧ (rs ++ flushed).length ≤ e.wal.file.length ∧
      walk e.wal.file.length e.wal.file = some (rs ++ flushed) ∧ flushed.map WalRecord.lsn =
        (List.range flushed.length).map fun i => 1 + UInt64.ofNat i := by
  obtain ⟨flushed, pending, hparts, hfile, -⟩ := h.log
  have hstorable : ∀ r ∈ rs ++ flushed, Storable r.data := by
    intro r hr
    rcases mem_append.mp hr with hr | hr
    · exact hrs r hr
    · exact h.storable r (by simp [hparts, hr])
  rw [← frames_append] at hfile
  have hcount := length_le_length_frames crc hstorable
  rw [← hfile] at hcount
  refine ⟨flushed, pending, hparts, hfile, hcount, ?_, ?_⟩
  · have hwalk := walk_frames crc hstorable hcount
    rw [frames] at hfile
    rwa [← hfile] at hwalk
  · have htake := congrArg (List.take flushed.length) h.lsns
    rw [hparts, map_append, take_left' (length_map _), length_append, ← map_take, take_range,
      Nat.min_eq_left (Nat.le_add_right _ _)] at htake
    exact htake

/-- In every run of one cycle that starts on an empty log file and whose writes
to the log do not fail hard, the log identifies its transactions.  No file has
`2 ^ 63` bytes. -/
theorem log_identifies_of_calm {file : Bytes} {io : Io} {e₀ : Engine} {c : Client}
    (hinit : initStorageEngine crc (some file) (some []) io = some e₀)
    (hrun : Relation.ReflTransGen (CalmCall crc rounds) ⟨e₀, []⟩ c)
    (hsize : c.engine.wal.file.length < 2 ^ 63) : LogIdentifies ⟨c, []⟩ := by
  have hnumbered : Numbered crc (frames crc []) c.engine := by
    clear hsize
    induction hrun with
    | refl => exact numbered_of_init hinit
    | tail _ hstep ih =>
      obtain ⟨call, rfl, hcalm⟩ := hstep
      exact ih.next call hcalm
  obtain ⟨flushed, pending, -, -, hcount, hwalk, hlsns⟩ := hnumbered.exists_walk nofun
  rw [nil_append] at hcount hwalk
  refine ⟨⟨flushed, hwalk, ?_⟩, pairwise_singleton _ _⟩
  rw [hlsns, pairwise_map]
  refine pairwise_lt_range.imp_of_mem ?_
  intro i j hi hj hij
  have hj' := mem_range.mp hj
  have hone : (1 : UInt64).toNat = 1 := rfl
  rw [UInt64.lt_iff_toNat_lt, UInt64.toNat_add, UInt64.toNat_add,
    UInt64.toNat_ofNat', UInt64.toNat_ofNat', hone]
  omega

theorem append_frames_ne {r : WalRecord}
    (hr : Storable r.data) : base ++ frames crc (rs ++ [r]) ≠ base := by
  intro heq
  have hnil := append_right_eq_self.mp heq
  rw [frames_append, frames_singleton] at hnil
  exact WalRecord.frame_ne_nil crc hr (append_eq_nil_iff.mp hnil).2

theorem Logs.calm_of_nil (h : Logs crc txnId e e') (hnil : e.io.walWrites = []) :
    Calm e e' ∧ e'.io.walWrites = [] := by
  obtain ⟨used, hused⟩ := h.exists_used
  rw [hnil] at hused
  obtain ⟨hused', hrest⟩ := append_eq_nil_iff.mp hused.symm
  exact ⟨⟨[], by rw [hnil, hrest]; rfl, nofun⟩, hrest⟩

/-- A cycle that finds the records of an earlier one in the log repeats their
LSNs as soon as a record of its own is in the file. -/
theorem not_logIdentifies_of_second_cycle {r : WalRecord}
    (h : Numbered crc (frames crc (r :: rs)) s.client.engine)
    (hstorable : ∀ q ∈ r :: rs, Storable q.data) (hlsn : r.lsn = 1)
    (hgrown : s.client.engine.wal.file ≠ frames crc (r :: rs)) : ¬LogIdentifies s := by
  rintro ⟨⟨records, hwalk, hordered⟩, -⟩
  obtain ⟨flushed, pending, -, hfile, -, hwalk', hlsns⟩ := h.exists_walk hstorable
  obtain rfl : r :: rs ++ flushed = records := Option.some.inj (hwalk'.symm.trans hwalk)
  cases flushed with
  | nil => exact hgrown (by rw [hfile, append_nil])
  | cons q flushed =>
    have hq : q.lsn = 1 := by
      have hhead := congrArg List.head? hlsns
      simpa [range_succ_eq_map] using hhead
    rw [pairwise_map] at hordered
    have hlt := rel_of_pairwise_cons hordered (show q ∈ rs ++ q :: flushed by simp)
    rw [hlsn, hq] at hlt
    exact absurd hlt (by decide)

end Cycles

/-- One cycle with a checkpoint. -/
theorem log_identifies_of_calm_checkpoint :
    ∃ e₀, initStorageEngine (fun _ => 0) (some []) (some []) .quiet = some e₀ ∧
      LogIdentifies
        ⟨(⟨e₀, []⟩ : Client).next (fun _ => 0) 9 .performCheckpoint, []⟩ := by
  obtain ⟨e₀, i, hinit, -⟩ := exists_started (fun _ => 0) []
  obtain ⟨-, hattempts, hnil⟩ := initStorageEngine_log hinit
  have hlogs : Logs (fun _ => 0) 0 e₀ (e₀.performCheckpoint fun _ => 0).2 :=
    Logs.performCheckpoint e₀
  have hcalm := (hlogs.calm_of_nil hnil).1
  obtain ⟨hfile, hlogged⟩ := (numbered_of_init hinit).performCheckpoint hcalm
  have hnone : e₀.history.logged = [] := by
    rw [History.logged, hattempts]
    rfl
  refine ⟨e₀, hinit, log_identifies_of_calm hinit (.single ⟨.performCheckpoint, rfl, hcalm⟩) ?_⟩
  change (e₀.performCheckpoint fun _ => 0).2.wal.file.length < 2 ^ 63
  rw [hfile, hlogged, hnone, nil_append, nil_append, frames_singleton,
    WalRecord.length_frame _ storable_nil]
  decide

/-- Two cycles: both log a checkpoint with LSN 1. -/
theorem log_repeats_lsn_after_restart :
    ∃ e₀ s, initStorageEngine (fun _ => 0) (some []) (some []) .quiet = some e₀ ∧
      Relation.ReflTransGen (CycleStep (fun _ => 0) 9) ⟨⟨e₀, []⟩, []⟩ s ∧
      ¬LogIdentifies s := by
  obtain ⟨e₀, i, hinit, -⟩ := exists_started (fun _ => 0) []
  obtain ⟨-, hattempts, hnil⟩ := initStorageEngine_log hinit
  have hlogs : Logs (fun _ => 0) 0 e₀ (e₀.performCheckpoint fun _ => 0).2 :=
    Logs.performCheckpoint e₀
  obtain ⟨hfile, hlogged⟩ := (numbered_of_init hinit).performCheckpoint (hlogs.calm_of_nil hnil).1
  have hnone : e₀.history.logged = [] := by
    rw [History.logged, hattempts]
    rfl
  obtain ⟨e₁, hrestart⟩ := exists_restart (fun _ => 0) e₀
  have hinit₁ := hrestart
  rw [restart_eq rfl, hfile, hlogged, hnone, nil_append, nil_append] at hinit₁
  obtain ⟨-, hattempts₁, hnil₁⟩ := initStorageEngine_log hinit₁
  have hlogs₁ : Logs (fun _ => 0) 0 e₁ (e₁.performCheckpoint fun _ => 0).2 :=
    Logs.performCheckpoint e₁
  have hnumbered := numbered_of_init hinit₁
  have hcalm₁ := (hlogs₁.calm_of_nil hnil₁).1
  obtain ⟨hfile₁, hlogged₁⟩ := hnumbered.performCheckpoint hcalm₁
  refine ⟨e₀, _, hinit, .tail (.single (.restart _ hrestart)) (.call _ .performCheckpoint), ?_⟩
  refine not_logIdentifies_of_second_cycle (hnumbered.of_logs hlogs₁ hcalm₁) ?_ rfl ?_
  · intro q hq
    rw [mem_singleton.mp hq]
    exact storable_nil
  · change (e₁.performCheckpoint fun _ => 0).2.wal.file ≠ _
    rw [hfile₁, hlogged₁]
    apply append_frames_ne
    exact storable_nil

end Codo.Storage
