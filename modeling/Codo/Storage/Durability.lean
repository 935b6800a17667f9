import Codo.Storage.FreshEngine
import Codo.Storage.LogOrder

/-!
# Durability

Runs of the storage API on a started engine, with `write` on the log file free
to fail.  A commit makes its transaction durable, and page images are written
behind the log, as long as the calls concerned meet no hard failure; the
engine ignores such failures, so both guarantees end with the first one.
-/

namespace Codo.Storage

open Codo.Support Engine List Relation

/-! ## Runs -/

/-- A call of the storage API.  Transactions are named in the order in which
they were begun; the callback of a scan gets the pairs visited before. -/
inductive ApiCall
  | beginTransaction
  | dbInsert (txn : ℕ) (key value : Bytes)
  | dbSearch (txn : ℕ) (key : Bytes) (capacity : ℕ)
  | dbDelete (txn : ℕ) (key : Bytes)
  | dbScanPrefix (txn : ℕ) (pfx : Bytes) (callback : Bytes → Bytes → List (Bytes × Bytes) →
        ℤ × List (Bytes × Bytes))
  | commitTransaction (txn : ℕ)
  | abortTransaction (txn : ℕ)
  | performCheckpoint

/-- The engine and the handles its callers got from `begin_transaction`. -/
structure Client where
  engine : Engine
  handles : List (Option Transaction)

namespace Client

variable (crc : Bytes → UInt32) (rounds : ℕ)

def handle (c : Client) (txn : ℕ) : Option Transaction :=
  c.handles[txn]?.join

/-- Run a program of the tree code. -/
def exec {α : Type} (c : Client) (p : PagerM α) : Client :=
  { c with engine := (Program.run (Engine.step crc) p c.engine).2 }

/-- Make one call.  Descents and scans take at most `rounds` steps. -/
def next (c : Client) : ApiCall → Client
  | .beginTransaction =>
    let b := c.engine.beginTransaction
    ⟨b.2, c.handles ++ [b.1]⟩
  | .dbInsert txn key value => c.exec crc (dbInsert (c.handle txn) key value)
  | .dbSearch txn key capacity => c.exec crc (dbSearch rounds (c.handle txn) key capacity)
  | .dbDelete txn key => c.exec crc (dbDelete rounds (c.handle txn) key)
  | .dbScanPrefix txn pfx callback =>
    c.exec crc (dbScanPrefix rounds (c.handle txn) pfx callback [])
  | .commitTransaction txn =>
    let r := c.engine.commitTransaction crc (c.handle txn)
    ⟨r.2, c.handles.set txn r.1.2⟩
  | .abortTransaction txn =>
    let r := c.engine.abortTransaction crc (c.handle txn)
    ⟨r.2, c.handles.set txn r.1.2⟩
  | .performCheckpoint => { c with engine := (c.engine.performCheckpoint crc).2 }

/-- The transaction id a call logs under. -/
def logsFor (c : Client) : ApiCall → Option UInt64
  | .beginTransaction => none
  | .dbInsert txn _ _ => (c.handle txn).map Transaction.txnId
  | .dbSearch _ _ _ => none
  | .dbDelete txn _ => (c.handle txn).map Transaction.txnId
  | .dbScanPrefix _ _ _ => none
  | .commitTransaction txn => (c.handle txn).map Transaction.txnId
  | .abortTransaction txn => (c.handle txn).map Transaction.txnId
  | .performCheckpoint => some 0

end Client

/-- No `write` on the log file between `e` and `e'` fails hard. -/
def Calm (e e' : Engine) : Prop :=
  ∃ used, e.io.walWrites = used ++ e'.io.walWrites ∧ ∀ r ∈ used, r.Soft

/-- One call of a run in which the calls that log for `txnId` are calm. -/
def SteadyStep (crc : Bytes → UInt32) (rounds : ℕ) (txnId : UInt64) (c c' : Client) : Prop :=
  ∃ call, c' = c.next crc rounds call ∧ (c.logsFor call = some txnId → Calm c.engine c'.engine)

/-- One call of a run. -/
def ApiStep (crc : Bytes → UInt32) (rounds : ℕ) (c c' : Client) : Prop :=
  ∃ call, c' = c.next crc rounds call

/-! ## What every call does to the log -/

variable {txnId : UInt64}

section Log

variable {crc : Bytes → UInt32} {rounds : ℕ}

theorem storable_nil : Storable [] :=
  storable_of_length_le (Nat.zero_le _)

theorem Logs.commitTransaction (e : Engine) (txn : Option Transaction)
    (htxn : ∀ t, txn = some t → t.txnId = txnId) :
    Logs crc txnId e (e.commitTransaction crc txn).2 := by
  rw [Engine.commitTransaction]
  split
  next => exact .refl e
  next t ht =>
    rw [htxn t (eq_of_activeTxn ht)]
    exact (Logs.writeWalRecord e .commit 0 storable_nil).trans (.flushWalBuffer _)

theorem Logs.abortTransaction (e : Engine) (txn : Option Transaction)
    (htxn : ∀ t, txn = some t → t.txnId = txnId) :
    Logs crc txnId e (e.abortTransaction crc txn).2 := by
  rw [Engine.abortTransaction]
  split
  next => exact .refl e
  next t ht =>
    rw [htxn t (eq_of_activeTxn ht)]
    exact .writeWalRecord e .abort 0 storable_nil

theorem Logs.beginTransaction (e : Engine) : Logs crc txnId e e.beginTransaction.2 := by
  simp only [Engine.beginTransaction]
  split <;> exact .same rfl rfl rfl

/-- A call logs under its own transaction id only. -/
theorem Client.next_logs (c : Client) (call : ApiCall)
    (hid : ∀ t, c.logsFor call = some t → t = txnId) :
    Logs crc txnId c.engine (c.next crc rounds call).engine := by
  have hhandle : ∀ txn, (∀ t, (c.handle txn).map Transaction.txnId = some t →
      t = txnId) → ∀ t, c.handle txn = some t → t.txnId = txnId := by
    intro txn hmap t ht
    apply hmap
    rw [ht]
    rfl
  cases call with
  | beginTransaction => exact .beginTransaction c.engine
  | dbInsert txn key value =>
    exact .run (balanced_dbInsert (c.handle txn) key value (hhandle txn hid)) c.engine
  | dbSearch txn key capacity =>
    exact .run (balanced_dbSearch rounds (c.handle txn) key capacity) c.engine
  | dbDelete txn key =>
    exact .run (balanced_dbDelete rounds (c.handle txn) key (hhandle txn hid)) c.engine
  | dbScanPrefix txn pfx callback =>
    exact .run (balanced_scanRange rounds (c.handle txn) pfx callback []) c.engine
  | commitTransaction txn => exact .commitTransaction c.engine _ (hhandle txn hid)
  | abortTransaction txn => exact .abortTransaction c.engine _ (hhandle txn hid)
  | performCheckpoint =>
    have hnext : c.next crc rounds .performCheckpoint =
        { c with engine := (c.engine.performCheckpoint crc).2 } := rfl
    rw [hnext, ← hid 0 rfl]
    exact .performCheckpoint c.engine

theorem Client.exists_next_logs (crc : Bytes → UInt32) (rounds : ℕ) (c : Client) (call : ApiCall) :
    ∃ txnId, Logs crc txnId c.engine (c.next crc rounds call).engine := by
  refine ⟨(c.logsFor call).getD 0, c.next_logs call ?_⟩
  intro t ht
  rw [ht]
  rfl

theorem Logs.createRoot (e : Engine) : Logs crc txnId e (e.createRoot crc) := by
  have hget : Logs crc txnId e (e.getPage crc rootPageId).2 := Logs.getPage e rootPageId
  rw [Engine.createRoot]
  simp only
  split
  next => exact hget
  next => exact ((hget.trans (.editPage _ _ _)).trans (.markPageDirty _ _)).trans (.releasePage _ _)

theorem Logs.initStorageEngine {file walFile : Bytes} {io : Io}
    {e : Engine} (h : initStorageEngine crc (some file) (some walFile) io = some e) :
    Logs crc txnId (opened file walFile io) e := by
  simp only [Engine.initStorageEngine] at h
  split at h
  next =>
    have hrecover : Logs crc txnId (opened file walFile io)
        (opened file walFile io).allocate.2.allocate.2.recoverPageAllocator.2 :=
      Logs.same rfl rfl rfl
    cases h
    split
    next => exact hrecover.trans (.createRoot _)
    next => exact hrecover
  next => cases h

theorem Advances.calm {e e' : Engine} (h : Advances crc txnId e e')
    (hinv : LogInv crc e.history.logged e.wal) (hcalm : Calm e e') :
    ∃ attempts writes, e'.history.attempts = e.history.attempts ++ attempts ∧
      e'.history.pageWrites = e.history.pageWrites ++ writes ∧
      (∀ a ∈ attempts, a.2 = 0) ∧ ∀ p ∈ writes, Covered crc p := by
  obtain ⟨-, used, attempts, writes, hspent, -, hgood⟩ := h hinv
  obtain ⟨used', hused', hsoft⟩ := hcalm
  have hsame : used = used' := append_cancel_right (hspent.used_eq.symm.trans hused')
  subst hsame
  obtain ⟨haccepted, hcovered⟩ := hgood hsoft
  exact ⟨attempts, writes, hspent.attempts_eq, hspent.writes_eq, haccepted, hcovered⟩

/-- The log is in order along every run, whatever fails. -/
theorem logInv_of_run {file walFile : Bytes} {io : Io} {e : Engine} {c : Client}
    (hinit : initStorageEngine crc (some file) (some walFile) io = some e)
    (hrun : ReflTransGen (ApiStep crc rounds) ⟨e, []⟩ c) :
    LogInv crc c.engine.history.logged c.engine.wal := by
  induction hrun with
  | refl =>
    have hadv : Advances crc 0 (opened file walFile io) e := (Logs.initStorageEngine hinit).advances
    exact (hadv (LogInv.nil walFile 1)).1
  | @tail c' _ _ hstep ih =>
    obtain ⟨call, rfl⟩ := hstep
    obtain ⟨txnId, hlogs⟩ := c'.exists_next_logs crc rounds call
    exact (hlogs.advances ih).1

theorem calm_next_of_nil (rounds : ℕ) {c : Client}
    (hinv : LogInv crc c.engine.history.logged c.engine.wal)
    (hnil : c.engine.io.walWrites = []) (call : ApiCall) :
    Calm c.engine (c.next crc rounds call).engine := by
  obtain ⟨txnId, hlogs⟩ := c.exists_next_logs crc rounds call
  have hadv := hlogs.advances
  obtain ⟨-, used, attempts, writes, hspent, -⟩ := hadv hinv
  have hused := hspent.used_eq
  rw [hnil] at hused
  have hnone := (append_eq_nil_iff.mp hused.symm).1
  refine ⟨used, hspent.used_eq, ?_⟩
  rw [hnone]
  exact nofun

end Log

/-! ## The first transaction of a fresh engine -/

variable {e : Engine}

section First

variable {crc : Bytes → UInt32} {rounds : ℕ} {results : List WriteResult} {i : Slot}

/-- The client after the first `begin_transaction`. -/
def Client.begun (e : Engine) : Client :=
  ⟨{ e with nextTxnId := 2 }, [some ⟨1, .active⟩]⟩

/-- The first `begin_transaction` yields an active handle and leaves log and
pool alone. -/
theorem Started.begin (h : Started results e i) :
    (⟨e, []⟩ : Client).next crc rounds .beginTransaction = .begun e := by
  have hbegin : e.beginTransaction = (some ⟨1, .active⟩, { e with nextTxnId := 2 }) := by
    simp only [Engine.beginTransaction, allocate_of_quiet h.allocs, h.nextTxnId]
    rfl
  rw [Client.next, hbegin]
  rfl

end First

/-! ## Commits -/

variable {file walFile : Bytes} {io : Io} {c : Client}

section Commit

variable {crc : Bytes → UInt32} {rounds : ℕ}

/-- The log is in order and no record of `txnId` was refused. -/
structure Accepted (crc : Bytes → UInt32) (txnId : UInt64) (e : Engine) : Prop where
  log : LogInv crc e.history.logged e.wal
  accepted : ∀ a ∈ e.history.attempts, a.1.txnId = txnId → a.2 = 0

theorem Accepted.of_other {e' : Engine} {other : UInt64}
    (h : Accepted crc txnId e) (hadv : Advances crc other e e')
    (hne : other ≠ txnId) : Accepted crc txnId e' := by
  obtain ⟨hlog, used, attempts, writes, hspent, hids, -⟩ := hadv h.log
  refine ⟨hlog, ?_⟩
  intro a ha hid
  rw [hspent.attempts_eq] at ha
  rcases mem_append.mp ha with hold | hnew
  · exact h.accepted a hold hid
  · exact absurd ((hids a hnew).symm.trans hid) hne

theorem Accepted.of_calm {e' : Engine} (h : Accepted crc txnId e)
    (hadv : Advances crc txnId e e') (hcalm : Calm e e') : Accepted crc txnId e' := by
  refine ⟨(hadv h.log).1, ?_⟩
  obtain ⟨attempts, writes, hattempts, -, haccepted, -⟩ := hadv.calm h.log hcalm
  intro a ha hid
  rw [hattempts] at ha
  rcases mem_append.mp ha with hold | hnew
  · exact h.accepted a hold hid
  · exact haccepted a hnew

theorem exists_other (txnId : UInt64) : ∃ other : UInt64, other ≠ txnId := by
  by_cases h : txnId = 0
  · exact ⟨1, by rw [h]; decide⟩
  · exact ⟨0, fun heq => h heq.symm⟩

theorem Accepted.next (h : Accepted crc txnId c.engine) (call : ApiCall)
    (hcalm : c.logsFor call = some txnId → Calm c.engine (c.next crc rounds call).engine) :
    Accepted crc txnId (c.next crc rounds call).engine := by
  cases hlogs : c.logsFor call with
  | none =>
    obtain ⟨other, hne⟩ := exists_other txnId
    refine h.of_other (c.next_logs call ?_).advances hne
    intro t ht
    rw [hlogs] at ht
    cases ht
  | some other =>
    have hadv : Advances crc other c.engine (c.next crc rounds call).engine := by
      refine (c.next_logs call ?_).advances
      intro t ht
      exact Option.some.inj (ht.symm.trans hlogs)
    by_cases hne : other = txnId
    · subst hne
      exact h.of_calm hadv (hcalm hlogs)
    · exact h.of_other hadv hne

theorem Accepted.start (hinit : initStorageEngine crc (some file) (some walFile) io = some e) :
    Accepted crc txnId e := by
  obtain ⟨other, hne⟩ := exists_other txnId
  have hopened : Accepted crc txnId (opened file walFile io) := ⟨LogInv.nil walFile 1, nofun⟩
  exact hopened.of_other (Logs.initStorageEngine hinit).advances hne

theorem Accepted.run (hinit : initStorageEngine crc (some file) (some walFile) io = some e)
    (hrun : ReflTransGen (SteadyStep crc rounds txnId) ⟨e, []⟩ c) :
    Accepted crc txnId c.engine := by
  induction hrun with
  | refl => exact .start hinit
  | tail _ hstep ih =>
    obtain ⟨call, rfl, hcalm⟩ := hstep
    exact ih.next call hcalm

/-- A calm flush leaves every accepted record in the file. -/
theorem infix_of_calm_flush (h : LogInv crc e.history.logged e.wal)
    (hcalm : Calm e e.flushWalBuffer.2) :
    ∀ r ∈ e.history.logged, r.frame crc <:+: e.flushWalBuffer.2.wal.file := by
  obtain ⟨used, hused, hsoft⟩ := hcalm
  obtain ⟨used', hused', hcases⟩ := Wal.flushWalBuffer_cases e.wal e.io.walWrites
  have hsame : used' = used := append_cancel_right (hused'.symm.trans hused)
  subst hsame
  rcases hcases with hdone | ⟨⟨r, hr, hhard⟩, -⟩
  · simp only [Engine.flushWalBuffer, hdone]
    exact h.infix_drained
  · exact absurd (hsoft r hr) hhard

theorem Calm.right {e₁ e₂ : Engine} (h : Calm e e₂)
    (h₁ : ∃ used, e.io.walWrites = used ++ e₁.io.walWrites)
    (h₂ : ∃ used, e₁.io.walWrites = used ++ e₂.io.walWrites) : Calm e₁ e₂ := by
  obtain ⟨used, hused, hsoft⟩ := h
  obtain ⟨used₁, hused₁⟩ := h₁
  obtain ⟨used₂, hused₂⟩ := h₂
  refine ⟨used₂, hused₂, ?_⟩
  have hsame : used₁ ++ used₂ = used := by
    have happend : used₁ ++ used₂ ++ e₂.io.walWrites = used ++ e₂.io.walWrites := by
      rw [append_assoc, ← hused₂, ← hused₁, hused]
    exact append_cancel_right happend
  intro r hr
  exact hsoft r (hsame ▸ mem_append_right used₁ hr)

/-- If the calls of a transaction meet no hard failure of `write`, then once
`commit_transaction` returns `0` every record of the transaction, its commit
record included, is in the log file. -/
theorem commit_durable {txn : ℕ} {t : Transaction}
    (hinit : initStorageEngine crc (some file) (some walFile) io = some e)
    (hrun : ReflTransGen (SteadyStep crc rounds t.txnId) ⟨e, []⟩ c)
    (hhandle : c.handle txn = some t)
    (hcalm : Calm c.engine (c.next crc rounds (.commitTransaction txn)).engine)
    (hcommit : (c.engine.commitTransaction crc (c.handle txn)).1.1 = 0) :
    (∃ lsn, ((⟨lsn, t.txnId, .commit, 0, []⟩ : WalRecord), (0 : ℤ)) ∈
      (c.next crc rounds (.commitTransaction txn)).engine.history.attempts) ∧
    ∀ a ∈ (c.next crc rounds (.commitTransaction txn)).engine.history.attempts,
      a.1.txnId = t.txnId → a.1.frame crc <:+:
        (c.next crc rounds (.commitTransaction txn)).engine.wal.file := by
  have hbefore := Accepted.run hinit hrun
  have hafter := hbefore.next (.commitTransaction txn) fun _ => hcalm
  have hactive : activeTxn (c.handle txn) = some t := by
    cases hact : activeTxn (c.handle txn) with
    | none => simp [Engine.commitTransaction, hact] at hcommit
    | some t' => rw [← hhandle, eq_of_activeTxn hact]
  have hnext : (c.next crc rounds (.commitTransaction txn)).engine =
      (c.engine.writeWalRecord crc t.txnId .commit 0 []).2.flushWalBuffer.2 := by
    simp only [Client.next, Engine.commitTransaction, hactive]
  rw [hnext] at hafter hcalm ⊢
  have hadv : Advances crc t.txnId c.engine (c.engine.writeWalRecord crc t.txnId .commit 0 []).2 :=
    Advances.writeWalRecord c.engine .commit 0 storable_nil
  have hlog := (hadv hbefore.log).1
  obtain ⟨used₁, hused₁, -⟩ := Wal.writeWalRecord_cases crc c.engine.wal
    c.engine.io.walWrites t.txnId .commit 0 []
  obtain ⟨used₂, hused₂, -⟩ := Wal.flushWalBuffer_cases
    (c.engine.writeWalRecord crc t.txnId .commit 0 []).2.wal
    (c.engine.writeWalRecord crc t.txnId .commit 0 []).2.io.walWrites
  have hflush := infix_of_calm_flush hlog (hcalm.right ⟨used₁, hused₁⟩ ⟨used₂, hused₂⟩)
  constructor
  · refine ⟨c.engine.wal.nextLsn, ?_⟩
    have hmem : ((⟨c.engine.wal.nextLsn, t.txnId, .commit, 0, []⟩ : WalRecord),
        (c.engine.wal.writeWalRecord crc c.engine.io.walWrites t.txnId .commit 0
          []).1) ∈ (c.engine.writeWalRecord crc t.txnId .commit 0
            []).2.flushWalBuffer.2.history.attempts := mem_append_right _ (mem_singleton_self _)
    have hrc := hafter.accepted _ hmem rfl
    simp only at hrc
    rwa [hrc] at hmem
  · intro a ha hid
    apply hflush
    refine mem_map.mpr ⟨a, mem_filter.mpr ⟨ha, ?_⟩, rfl⟩
    simpa using hafter.accepted a ha hid

/-- The first transaction of a fresh engine commits at once. -/
theorem commit_durable_first :
    ∃ e, initStorageEngine (fun _ => 0) (some []) (some []) .quiet = some e ∧
      ∀ a ∈ ((Client.begun e).next (fun _ => 0) 9
          (.commitTransaction 0)).engine.history.attempts,
        a.1.txnId = 1 → a.1.frame (fun _ => 0) <:+: ((Client.begun e).next
          (fun _ => 0) 9 (.commitTransaction 0)).engine.wal.file := by
  obtain ⟨e, i, hinit, hstart⟩ := exists_started (fun _ => 0) []
  have hrun : ReflTransGen (SteadyStep (fun _ => 0) 9 1) ⟨e, []⟩
      (.begun e) := .single ⟨.beginTransaction, hstart.begin.symm, nofun⟩
  have hcalm := calm_next_of_nil 9 (Accepted.run hinit hrun).log
    hstart.walWrites (.commitTransaction 0)
  have hhandle : (Client.begun e).handle 0 = some ⟨1, .active⟩ := rfl
  exact ⟨e, hinit, (commit_durable hinit hrun hhandle hcalm rfl).2⟩

/-- A hard failure in the flush of `commit_transaction` goes unnoticed: the
call returns `0` and the log file is still empty. -/
theorem commit_ignores_failed_flush :
    ∃ e, initStorageEngine (fun _ => 0) (some []) (some [])
        { Io.quiet with walWrites := [.error] } = some e ∧
      ReflTransGen (ApiStep (fun _ => 0) 9) ⟨e, []⟩ (.begun e) ∧
      ((Client.begun e).engine.commitTransaction (fun _ => 0)
        ((Client.begun e).handle 0)).1.1 = 0 ∧
      ∃ a ∈ ((Client.begun e).next (fun _ => 0) 9
          (.commitTransaction 0)).engine.history.attempts,
        a.1.txnId = 1 ∧ ¬ a.1.frame (fun _ => 0) <:+: ((Client.begun e).next
          (fun _ => 0) 9 (.commitTransaction 0)).engine.wal.file := by
  obtain ⟨e, i, hinit, hstart⟩ := exists_started (fun _ => 0) [.error]
  have hnext : ((Client.begun e).next (fun _ => 0) 9
      (.commitTransaction 0)).engine = ((Client.begun e).engine.writeWalRecord
        (fun _ => 0) 1 .commit 0 []).2.flushWalBuffer.2 := rfl
  obtain ⟨hwal, hresults, hhistory⟩ := writeWalRecord_first (fun _ => 0)
    (show (Client.begun e).engine.wal = _ from hstart.wal) hstart.history 1 .commit 0 storable_nil
  have hfile := flushWalBuffer_file_of_error (hresults.trans hstart.walWrites)
  rw [hwal] at hfile
  refine ⟨e, hinit, .single ⟨.beginTransaction, hstart.begin.symm⟩, rfl,
    (⟨1, 1, .commit, 0, []⟩, 0), ?_, rfl, ?_⟩
  · rw [hnext]
    have hattempts := congrArg History.attempts hhistory
    exact hattempts ▸ mem_singleton_self _
  · rw [hnext, hfile]
    intro hinfix
    exact WalRecord.frame_ne_nil (fun _ => 0) storable_nil (infix_nil.mp hinfix)

end Commit

section PageWrites

variable {crc : Bytes → UInt32} {rounds : ℕ}

/-- In every run, a call that meets no hard failure of `write` on the log file
writes page images behind the log: every record with an LSN up to that of the
image is in the log file by then. -/
theorem page_write_behind_log
    (hinit : initStorageEngine crc (some file) (some walFile) io = some e)
    (hrun : ReflTransGen (ApiStep crc rounds) ⟨e, []⟩ c) (call : ApiCall)
    (hcalm : Calm c.engine (c.next crc rounds call).engine) :
    ∃ writes, (c.next crc rounds call).engine.history.pageWrites =
        c.engine.history.pageWrites ++ writes ∧
      ∀ p ∈ writes, ∀ r ∈ p.logged, r.lsn ≤ p.image.header.lsn →
        r.frame crc <:+: p.walFile := by
  have hlog := logInv_of_run hinit hrun
  obtain ⟨txnId, hlogs⟩ := c.exists_next_logs crc rounds call
  have hadv := hlogs.advances
  obtain ⟨-, writes, -, hwrites, -, hcovered⟩ := hadv.calm hlog hcalm
  exact ⟨writes, hwrites, fun p hp r hr _ => hcovered p hp r hr⟩

/-- The client after the first insert of its first transaction. -/
def Client.inserted (e : Engine) : Client :=
  (Client.begun e).next (fun _ => 0) 9 (.dbInsert 0 [7] [1])

theorem Started.run_inserted {results : List WriteResult} {i : Slot} (h : Started results e i) :
    ReflTransGen (ApiStep (fun _ => 0) 9) ⟨e, []⟩ (.inserted e) :=
  .tail (.single ⟨.beginTransaction, h.begin.symm⟩) ⟨.dbInsert 0 [7] [1], rfl⟩

theorem Started.inserted {results : List WriteResult} {i : Slot} (h : Started results e i) :
    ∃ page, ((Client.inserted e).engine.pool i).page = some page ∧ page.header.lsn = 1 ∧
      ((Client.inserted e).engine.pool i).dirty = true ∧ (Client.inserted e).engine.wal.file = [] ∧
      (Client.inserted e).engine.io.walWrites = results ∧
      (Client.inserted e).engine.history = ⟨[(firstRecord, 0)], []⟩ := by
  obtain ⟨checksum, hroot⟩ := h.root
  have hroot' : Resident (Client.begun e).engine rootPageId i
      ((freshPage rootPageId).stamp 0 checksum) := ⟨hroot.find, hroot.page⟩
  have hwal : (Client.begun e).engine.wal = Wal.empty := h.wal
  obtain ⟨e', page, hrun, hres, hlsn, hdirty, hfile, hresults, hhistory⟩ :=
    run_first_insert (fun _ => 0) hwal h.history hroot'
  have hengine : (Client.inserted e).engine = e' := hrun
  rw [hengine]
  exact ⟨page, hres.page, hlsn, hdirty, hfile, hresults.trans h.walWrites, hhistory⟩

theorem checkpointSlot_pool_of_ne {i k : Slot} (h : i ≠ k) :
    (e.checkpointSlot k).pool i = e.pool i := by
  rw [checkpointSlot]
  split
  next =>
    split
    next =>
      simp only
      split
      next => exact Function.update_of_ne h _ _
      next => rfl
    next => rfl
  next => rfl

theorem checkpointSlot_pageWrites {i : Slot} {page : BtreePage}
    (hpage : (e.pool i).page = some page) (hdirty : (e.pool i).dirty = true) :
    (e.checkpointSlot i).history.pageWrites = e.history.pageWrites ++
      [⟨page, e.history.logged, e.wal.file⟩] := by
  simp only [checkpointSlot, hpage, hdirty, if_true]
  split <;> rfl

/-- A checkpoint writes every dirty page, and finds the log as the flush
before left it. -/
theorem exists_checkpointPool_write {i : Slot} {page : BtreePage}
    (hpage : (e.pool i).page = some page) (hdirty : (e.pool i).dirty = true) :
    (⟨page, e.history.logged, e.wal.file⟩ : PageWrite) ∈
      e.checkpointPool.history.pageWrites := by
  have hloop : ∀ (slots : List Slot) (e : Engine),
      (e.pool i).page = some page → (e.pool i).dirty = true → i ∈ slots →
      (⟨page, e.history.logged, e.wal.file⟩ : PageWrite) ∈
        (slots.foldl checkpointSlot e).history.pageWrites := by
    intro slots
    induction slots with
    | nil => exact fun e _ _ hmem => absurd hmem not_mem_nil
    | cons k slots ih =>
      intro e hpage hdirty hmem
      rw [foldl_cons]
      by_cases hk : i = k
      · subst hk
        obtain ⟨-, -, -, writes, hwrites, -⟩ := Logs.checkpointSlots_log slots (e.checkpointSlot i)
        rw [hwrites, checkpointSlot_pageWrites hpage hdirty]
        exact mem_append_left _ (mem_append_right _ (mem_singleton_self _))
      · obtain ⟨hwal, -, hattempts, -⟩ := Logs.checkpointSlot_log e k
        have hrest := (mem_cons.mp hmem).resolve_left hk
        have hlater := ih (e.checkpointSlot k) (by rw [checkpointSlot_pool_of_ne hk]; exact hpage)
          (by rw [checkpointSlot_pool_of_ne hk]; exact hdirty) hrest
        rwa [hwal, History.logged, hattempts] at hlater
  unfold checkpointPool
  exact hloop _ e hpage hdirty (mem_finRange i)

/-- Behind its loop a checkpoint writes no more pages. -/
theorem pageWrites_performCheckpoint (crc : Bytes → UInt32) (e : Engine) :
    (e.performCheckpoint crc).2.history.pageWrites =
      e.flushWalBuffer.2.checkpointPool.history.pageWrites := by
  have hrest : ∀ x : Engine, (x.writeWalRecord crc 0 .checkout 0
      []).2.flushWalBuffer.2.history.pageWrites = x.history.pageWrites := fun _ => rfl
  rw [Engine.performCheckpoint]
  simp only
  rw [hrest]

/-- The checkpoint behind a first insert, without failures. -/
theorem page_write_behind_log_checkpoint :
    ∃ e writes, initStorageEngine (fun _ => 0) (some []) (some []) .quiet =
        some e ∧
      ((Client.inserted e).next (fun _ => 0) 9
          .performCheckpoint).engine.history.pageWrites =
        (Client.inserted e).engine.history.pageWrites ++ writes ∧
      ∀ p ∈ writes, ∀ r ∈ p.logged, r.lsn ≤ p.image.header.lsn →
        r.frame (fun _ => 0) <:+: p.walFile := by
  obtain ⟨e, i, hinit, hstart⟩ := exists_started (fun _ => 0) []
  obtain ⟨-, -, -, -, -, hresults, -⟩ := hstart.inserted
  have hrun := hstart.run_inserted
  have hcalm := calm_next_of_nil 9 (logInv_of_run hinit hrun) hresults .performCheckpoint
  obtain ⟨writes, hwrites, hcovered⟩ := page_write_behind_log hinit hrun .performCheckpoint hcalm
  exact ⟨e, writes, hinit, hwrites, hcovered⟩

/-- A checkpoint whose flush fails writes the root although the record of its
last change is not in the log file. -/
theorem checkpoint_ignores_failed_flush :
    ∃ e, initStorageEngine (fun _ => 0) (some []) (some [])
        { Io.quiet with walWrites := [.error] } = some e ∧
      ∃ c, ReflTransGen (ApiStep (fun _ => 0) 9) ⟨e, []⟩ c ∧
        ∃ p ∈ c.engine.history.pageWrites, ∃ r ∈ p.logged,
          r.lsn ≤ p.image.header.lsn ∧
            ¬ r.frame (fun _ => 0) <:+: p.walFile := by
  obtain ⟨e, i, hinit, hstart⟩ := exists_started (fun _ => 0) [.error]
  obtain ⟨page, hpage, hlsn, hdirty, hfile, hresults, hhistory⟩ := hstart.inserted
  have hflush := flushWalBuffer_file_of_error hresults
  have hwrite := exists_checkpointPool_write
    (e := (Client.inserted e).engine.flushWalBuffer.2) hpage hdirty
  rw [hflush, hfile, ← pageWrites_performCheckpoint (fun _ => 0)] at hwrite
  have hnext : (Client.inserted e).next (fun _ => 0) 9 .performCheckpoint =
      { Client.inserted e with engine :=
        ((Client.inserted e).engine.performCheckpoint (fun _ => 0)).2 } := rfl
  refine ⟨e, hinit, _, .tail hstart.run_inserted
    ⟨.performCheckpoint, hnext.symm⟩, _, hwrite, firstRecord, ?_, ?_, ?_⟩
  · have hlogged : (Client.inserted e).engine.history.logged = [firstRecord] := by
      rw [hhistory]
      rfl
    exact hlogged ▸ mem_singleton_self _
  · rw [hlsn]
    decide
  · intro hinfix
    exact WalRecord.frame_ne_nil (fun _ => 0) storable_firstRecord (infix_nil.mp hinfix)

end PageWrites

end Codo.Storage
