import Codo.Storage.DbRun
import Codo.Storage.Pool

/-!
# The first calls on an empty data file

`init_storage_engine` on empty files leaves the root in the pool, dirty and
not yet written.  `Resident` follows one page through calls that find it
there, whatever the rest of the pool looks like.
-/

namespace Codo.Storage

open Support Engine Program

/-- Slot `i` is found for page `id` and holds `page`. -/
structure Resident (e : Engine) (id : UInt32) (i : Slot) (page : BtreePage) : Prop where
  find : e.findBufferEntry id = some i
  page : (e.pool i).page = some page

/-- Slot `i` is found for page `id`, and the other slots are empty. -/
structure Sole (e : Engine) (id : UInt32) (i : Slot) (entry : BufferEntry) : Prop where
  find : e.findBufferEntry id = some i
  entry : e.pool i = entry
  others : ∀ j, j ≠ i → e.pool j = emptyEntry

/-- Between `e` and `e'` nothing was logged, no page was written and no memory
was asked for. -/
structure SameLog (e e' : Engine) : Prop where
  wal : e'.wal = e.wal
  walWrites : e'.io.walWrites = e.io.walWrites
  allocs : e'.io.allocs = e.io.allocs
  nextTxnId : e'.nextTxnId = e.nextTxnId
  history : e'.history = e.history

theorem SameLog.trans {e e' e'' : Engine} (h : SameLog e e')
    (h' : SameLog e' e'') : SameLog e e'' :=
  ⟨h'.wal.trans h.wal, h'.walWrites.trans h.walWrites,
    h'.allocs.trans h.allocs, h'.nextTxnId.trans h.nextTxnId, h'.history.trans h.history⟩

namespace Resident

variable {crc : Bytes → UInt32} {e : Engine} {id : UInt32} {i : Slot} {page page' : BtreePage}

theorem setEntry (h : Resident e id i page) {entry : BufferEntry}
    (hid : entry.pageId = (e.pool i).pageId) (hpage : entry.page = some page') :
    Resident (e.setEntry i entry) id i page' := by
  constructor
  · rw [PoolInv.findBufferEntry_setEntry hid, h.find]
  · simpa [Engine.setEntry] using hpage

theorem getPage (h : Resident e id i page) (crc : Bytes → UInt32) :
    (e.getPage crc id).1 = some page ∧ Resident (e.getPage crc id).2 id i page ∧
      SameLog e (e.getPage crc id).2 := by
  simp only [Engine.getPage, h.find, touch]
  refine ⟨h.page, ?_, rfl, rfl, rfl, rfl, rfl⟩
  have hclock : Resident e.clockGettime.2 id i page := ⟨h.find, h.page⟩
  exact hclock.setEntry rfl h.page

theorem releasePage (h : Resident e id i page) :
    Resident (e.releasePage id) id i page ∧ SameLog e (e.releasePage id) ∧
      ((e.releasePage id).pool i).dirty = (e.pool i).dirty := by
  simp only [Engine.releasePage, h.find]
  refine ⟨h.setEntry rfl h.page, ⟨rfl, rfl, rfl, rfl, rfl⟩, ?_⟩
  simp [Engine.setEntry]

theorem updatePage (h : Resident e id i page) (crc : Bytes → UInt32) (page' : BtreePage) :
    Resident ((e.editPage id page').markPageDirty crc id) id i (e.stamped crc page') ∧
      SameLog e ((e.editPage id page').markPageDirty crc id) ∧
      (((e.editPage id page').markPageDirty crc id).pool i).dirty = true := by
  have hedit : Resident (e.editPage id page') id i page' := by
    simp only [Engine.editPage, h.find]
    exact h.setEntry rfl rfl
  have hlog : SameLog e (e.editPage id page') := by
    simp only [Engine.editPage, h.find]
    exact ⟨rfl, rfl, rfl, rfl, rfl⟩
  have hstamped : (e.editPage id page').stamped crc page' = e.stamped crc page' := by
    rw [stamped, stamped, hlog.wal]
  simp only [markPageDirty, hedit.find]
  refine ⟨hedit.setEntry rfl ?_,
    ⟨hlog.wal, hlog.walWrites, hlog.allocs, hlog.nextTxnId, hlog.history⟩, ?_⟩
  · rw [hedit.page, Option.map_some, hstamped]
  · simp [Engine.setEntry]

end Resident

section Start

variable {crc : Bytes → UInt32} {e : Engine} {i : Slot} {id : UInt32}

theorem allocateBufferEntry_of_empty (hv : e.pickVictim = some i) (hslot : e.pool i = emptyEntry) :
    e.allocateBufferEntry id = (some i, e.relabel i id) := by
  have hclean : e.cleanVictim i = (true, e) := by simp [cleanVictim, hslot, emptyEntry]
  have hunlink : e.unlinkVictim i = e := by simp [unlinkVictim, hslot, emptyEntry]
  simp [allocateBufferEntry, hv, hclean, hunlink]

theorem io_tail_reads (h : e.io.reads = []) :
    { e with io := { e.io with reads := e.io.reads.tail } } = e := by
  rw [h, List.tail_nil, ← h]

theorem allocate_of_quiet (h : e.io.allocs = []) : e.allocate = (true, e) := by
  have hio : { e with io := { e.io with allocs := e.io.allocs.tail } } = e := by
    rw [h, List.tail_nil, ← h]
  rw [allocate, hio, h]
  rfl

theorem loadPageFromDisk_of_empty (hfile : e.file = []) (hreads : e.io.reads = []) :
    e.loadPageFromDisk i id = (true, e.setEntry i
      { e.pool i with page := some (freshPage id), dirty := true }) := by
  have hbeyond : ¬ pageOffset id + pageSize ≤ e.file.length := by
    rw [hfile, pageSize]
    exact Nat.not_succ_le_zero _
  have hend : ¬ pageOffset id < e.file.length := by
    rw [hfile]
    exact Nat.not_lt_zero _
  have hok : e.io.reads.headD true = true := by rw [hreads]; rfl
  rw [loadPageFromDisk]
  simp only [io_tail_reads hreads, hok, hbeyond, hend]
  simp

theorem fill_of_empty (hslot : (e.pool i).page = none) (hfile : e.file = [])
    (hreads : e.io.reads = []) (hallocs : e.io.allocs = []) :
    e.fill crc i id = (some (freshPage id),
      { e.setEntry i { e.pool i with page := some (freshPage id), dirty := true } with
        links := e.links.push (hashPageId id) i }) := by
  have hframe : e.ensureFrame i = (true, e.setEntry i
      { e.pool i with page := some BtreePage.zero }) := by
    simp [ensureFrame, hslot, allocate_of_quiet hallocs]
  have hload : (e.setEntry i
      { e.pool i with page := some BtreePage.zero }).loadPageFromDisk i id = _ :=
    loadPageFromDisk_of_empty hfile hreads
  have hvalid : (freshPage id).ChecksumValid crc := .inl rfl
  simp only [fill, hframe, hload]
  simp [Engine.setEntry, hvalid]

theorem getPage_of_empty (crc : Bytes → UInt32)
    (hfind : e.findBufferEntry id = none) (hpool : ∀ j, e.pool j = emptyEntry)
    (hfile : e.file = []) (hreads : e.io.reads = []) (hallocs : e.io.allocs = []) :
    (e.getPage crc id).1 = some (freshPage id) ∧ (∃ i, Sole (e.getPage crc id).2 id i
        ⟨some (freshPage id), id, true, false, 1, e.clockGettime.1⟩) ∧
      SameLog e (e.getPage crc id).2 := by
  have hevict : (e.pool ⟨0, by decide⟩).Evictable := by
    rw [hpool]
    exact ⟨rfl, rfl⟩
  obtain ⟨i, hv⟩ := exists_pickVictim hevict
  have hslot : ((e.relabel i id).pool i).page = none := by
    simp [relabel, Engine.setEntry, hpool, emptyEntry]
  have hget : e.getPage crc id = (e.relabel i id).fill crc i id := by
    simp only [Engine.getPage, hfind, allocateBufferEntry_of_empty hv (hpool i)]
  have hsize : bufferPoolSize = 9999 + 1 := rfl
  rw [hget, fill_of_empty hslot hfile hreads hallocs]
  refine ⟨rfl, ⟨i, ?_, ?_, ?_⟩, rfl, rfl, rfl, rfl, rfl⟩
  · simp [findBufferEntry, Chains.find, Chains.push, hsize, Chains.findFrom,
      Engine.setEntry, relabel]
  · simp [Engine.setEntry, relabel]
  · intro j hj
    simp [Engine.setEntry, relabel, clockGettime, hj, hpool]

/-- The engine `init_storage_engine` leaves on empty files. -/
structure Started (results : List WriteResult) (e : Engine) (i : Slot) : Prop where
  wal : e.wal = Wal.empty
  walWrites : e.io.walWrites = results
  history : e.history = ⟨[], []⟩
  allocs : e.io.allocs = []
  nextTxnId : e.nextTxnId = 1
  root : ∃ checksum, Resident e rootPageId i ((freshPage rootPageId).stamp 0 checksum)

/-- `g_storage` in front of the root's creation. -/
def rootless (results : List WriteResult) : Engine :=
  (opened [] [] { Io.quiet with walWrites := results }).recoverPageAllocator.2

theorem initStorageEngine_empty (results : List WriteResult) :
    initStorageEngine crc (some []) (some []) { Io.quiet with walWrites := results } =
      some ((rootless results).createRoot crc) := by
  have hmem : (opened [] [] { Io.quiet with walWrites := results }).allocate =
      (true, opened [] [] { Io.quiet with walWrites := results }) := allocate_of_quiet rfl
  have hpages : (opened [] []
      { Io.quiet with walWrites := results }).recoverPageAllocator.1 = 0 := by
    simp only [recoverPageAllocator, opened]
    decide
  rw [initStorageEngine]
  simp only [hmem]
  rw [if_pos ⟨trivial, trivial⟩, if_pos hpages, rootless]

theorem exists_started (crc : Bytes → UInt32) (results : List WriteResult) :
    ∃ e i, initStorageEngine crc (some []) (some [])
        { Io.quiet with walWrites := results } = some e ∧ Started results e i := by
  have hsize : bufferPoolSize = 9999 + 1 := rfl
  have hfind : (rootless results).findBufferEntry rootPageId = none := by
    simp [findBufferEntry, Chains.find, hsize, Chains.findFrom, rootless,
      recoverPageAllocator, opened]
  have hempty : ∀ j, (rootless results).pool j = emptyEntry := fun _ => rfl
  obtain ⟨hreply, ⟨i, hsole⟩, hlog⟩ := getPage_of_empty crc hfind hempty rfl rfl
    rfl
  have hres : Resident _ _ i (freshPage rootPageId) := ⟨hsole.find, by rw [hsole.entry]⟩
  obtain ⟨hupd, hulog, -⟩ := hres.updatePage crc (freshPage rootPageId)
  obtain ⟨hrel, hrlog, -⟩ := hupd.releasePage
  have hroot : (rootless results).createRoot crc =
      ((((rootless results).getPage crc rootPageId).2.editPage rootPageId
        (freshPage rootPageId)).markPageDirty crc rootPageId).releasePage rootPageId := by
    rw [createRoot]
    simp only [hreply]
    rfl
  have hall := (hlog.trans hulog).trans hrlog
  rw [← hroot] at hall hrel
  refine ⟨_, i, initStorageEngine_empty results, hall.wal, hall.walWrites,
    hall.history, hall.allocs, hall.nextTxnId, ((freshPage rootPageId).stamp 0 0).sum crc, ?_⟩
  have hstamp : ((rootless results).getPage crc rootPageId).2.stamped crc
      (freshPage rootPageId) = (freshPage rootPageId).stamp 0
        (((freshPage rootPageId).stamp 0 0).sum crc) := by
    have hlsn : (rootless results).wal.nextLsn - 1 = 0 := by
      change (1 : UInt64) - 1 = 0
      decide
    rw [stamped, hlog.wal, hlsn]
  rw [hstamp] at hrel
  exact hrel

end Start

section Run

variable {β : Type} (crc : Bytes → UInt32) (e : Engine) (id : UInt32) (lock : LockType)

theorem run_getPage (f : Option BtreePage → PagerM β) :
    run (Engine.step crc) (getPage id lock >>= f) e = run (Engine.step crc) (f (e.getPage crc id).1)
        (e.getPage crc id).2 := rfl

theorem run_releasePage (f : Unit → PagerM β) :
    run (Engine.step crc) (releasePage id lock >>= f) e =
      run (Engine.step crc) (f ()) (e.releasePage id) := rfl

theorem run_updatePage (page : BtreePage) (f : Unit → PagerM β) :
    run (Engine.step crc) (updatePage id page >>= f) e = run (Engine.step crc) (f ())
        ((e.editPage id page).markPageDirty crc id) := rfl

theorem run_writeWalRecord (txnId : UInt64) (type : WalRecordType)
    (data : Bytes) (f : ℤ → PagerM β) :
    run (Engine.step crc) (writeWalRecord txnId type id data >>= f) e = run (Engine.step crc)
        (f (e.writeWalRecord crc txnId type id data).1)
        (e.writeWalRecord crc txnId type id data).2 := rfl

end Run

section Insert

variable {crc : Bytes → UInt32} {e : Engine} {i : Slot} {page : BtreePage}

/-- A descent that ends at the root, found in the pool. -/
theorem run_descendPath_root (h : Resident e rootPageId i page)
    (hleaf : page.header.pageType = pageTypeLeaf) (key : Bytes) :
    run (Engine.step crc) (descendPath key) e = (some [rootPageId],
        (e.getPage crc rootPageId).2.releasePage rootPageId) := by
  have htype : page.header.pageType ≠ pageTypeInternal := by
    rw [hleaf]
    decide
  have hdepth : btreeMaxDepth = 31 + 1 := rfl
  rw [descendPath, hdepth, descendPathFrom, run_getPage, (h.getPage crc).1]
  simp only
  rw [if_pos htype, run_releasePage]
  rfl

/-- The record of the first insert. -/
def firstRecord : WalRecord :=
  ⟨1, 1, .insert, rootPageId, insertPayload [7] [1]⟩

theorem storable_firstRecord : Storable (insertPayload [7] [1]) := by
  constructor <;> decide

theorem writeWalRecord_first (crc : Bytes → UInt32) (hwal : e.wal = Wal.empty)
    (hhistory : e.history = ⟨[], []⟩) (txnId : UInt64) (type : WalRecordType)
    (pageId : UInt32) {data : Bytes} (hdata : Storable data) :
    (e.writeWalRecord crc txnId type pageId data).2.wal =
        Wal.empty.push crc txnId type pageId data ∧
      (e.writeWalRecord crc txnId type pageId data).2.io.walWrites = e.io.walWrites ∧
      (e.writeWalRecord crc txnId type pageId data).2.history =
        ⟨[(⟨1, txnId, type, pageId, data⟩, 0)], []⟩ := by
  have hcall : Wal.empty.writeWalRecord crc e.io.walWrites txnId type pageId
      data = (0, Wal.empty.push crc txnId type pageId data, e.io.walWrites) := by
    rw [Wal.writeWalRecord, if_neg (not_lt.mpr hdata.2), if_neg]
    rw [show Wal.empty.buffer.length = 0 from rfl, Nat.zero_add]
    exact not_lt.mpr hdata.2
  simp only [Engine.writeWalRecord, hcall, hhistory, hwal]
  exact ⟨trivial, trivial, rfl⟩

theorem flushWalBuffer_file_of_error (h : e.io.walWrites = [.error]) :
    e.flushWalBuffer.2.wal.file = e.wal.file := by
  simp only [Engine.flushWalBuffer, Wal.flushWalBuffer, h]
  split
  next =>
    cases hbuffer : e.wal.buffer with
    | nil => simp
    | cons b bs => rfl
  next => rfl

/-- `db_insert` of a one-byte pair into the empty root: the record is framed
in the buffer, and the root's image carries its LSN. -/
theorem run_first_insert (crc : Bytes → UInt32) {checksum : UInt32}
    (hwal₀ : e.wal = Wal.empty) (hhistory₀ : e.history = ⟨[], []⟩)
    (hres : Resident e rootPageId i ((freshPage rootPageId).stamp 0 checksum)) :
    ∃ e' page, (run (Engine.step crc) (dbInsert (some ⟨1, .active⟩) [7] [1]) e).2 = e' ∧
      Resident e' rootPageId i page ∧ page.header.lsn = 1 ∧
      (e'.pool i).dirty = true ∧ e'.wal.file = [] ∧ e'.io.walWrites = e.io.walWrites ∧
      e'.history = ⟨[(firstRecord, 0)], []⟩ := by
  have hholds : Holds ((freshPage rootPageId).stamp 0 checksum) ([] ++ []) :=
    holds_freshPage rootPageId 0 checksum
  have hposition : findKeyPosition ((freshPage rootPageId).stamp 0 checksum) [7] = 0 := by
    rw [hholds.findKeyPosition_eq List.Pairwise.nil]
    rfl
  have hentry : matchingEntry ((freshPage rootPageId).stamp 0 checksum) 0 [7] = none := by
    rw [matchingEntry, hholds.getKvPair_eq_none (by simp)]
  have hfree : ((freshPage rootPageId).stamp 0 checksum).freeSpace = 4024 := rfl
  have hroom : ¬ ((freshPage rootPageId).stamp 0 checksum).freeSpace <
      kvPairSize + ([7] : Bytes).length + ([1] : Bytes).length := by
    rw [hfree]
    decide
  obtain ⟨page', hinsert, -⟩ := hholds.exists_insertKvPair (p := ⟨[7], [1], 0⟩)
    (by constructor <;> decide) (by rw [hfree]; decide)
  have hinsert' : insertKvPair ((freshPage rootPageId).stamp 0 checksum)
      (0 : ℤ).toNat [7] [1] 0 = some page' := hinsert
  -- The engine after each call of the program.
  obtain ⟨-, hres₁, hlog₁⟩ := hres.getPage crc
  obtain ⟨hres₂, hlog₂, -⟩ := hres₁.releasePage
  obtain ⟨hreply, hres₃, hlog₃⟩ := hres₂.getPage crc
  have hlog := (hlog₁.trans hlog₂).trans hlog₃
  obtain ⟨hwal, hresults, hhistory⟩ := writeWalRecord_first crc
    (hlog.wal.trans hwal₀) (hlog.history.trans hhistory₀) 1 .insert rootPageId storable_firstRecord
  have hdb : dbInsert (some ⟨1, .active⟩) [7] [1] = dbInsertLoop 1 [7] [1] (31 + 1) := rfl
  rw [hdb, dbInsertLoop, run_bind, run_descendPath_root hres rfl]
  simp only [List.getLast?_singleton]
  rw [run_getPage, hreply]
  simp only [hposition, hentry, Option.isSome_none]
  rw [if_neg Bool.false_ne_true, if_neg hroom, run_writeWalRecord]
  simp only [hinsert']
  rw [run_updatePage, run_releasePage]
  obtain ⟨hres₄, hlog₄, hdirty⟩ := Resident.updatePage (e := ((((
    e.getPage crc rootPageId).2.releasePage rootPageId).getPage crc
      rootPageId).2.writeWalRecord crc 1 .insert rootPageId
        (insertPayload [7] [1])).2) ⟨hres₃.find, hres₃.page⟩ crc page'
  obtain ⟨hres₅, hlog₅, hdirty'⟩ := hres₄.releasePage
  have hlast := hlog₄.trans hlog₅
  refine ⟨_, _, rfl, hres₅, ?_, hdirty'.trans hdirty, ?_,
    (hlast.walWrites.trans hresults).trans hlog.walWrites, hlast.history.trans hhistory⟩
  · have hlsn : (Wal.empty.push crc 1 .insert rootPageId
        (insertPayload [7] [1])).nextLsn - 1 = 1 := by
      change (1 : UInt64) + 1 - 1 = 1
      decide
    rw [stamped, hwal, hlsn]
    rfl
  · have hfile := congrArg Wal.file (hlast.wal.trans hwal)
    exact hfile

end Insert

end Codo.Storage
