import Codo.Storage.Db
import Codo.Storage.Pager

/-!
# Engine and transaction lifecycle

`engine.c` and `txn.c`.  The file names, the statistics and the list of active
transactions are left out: nothing modelled reads them.  `open` either yields
the bytes of the file or fails.
-/

namespace Codo.Storage

open Codo.Support

namespace Engine

variable (crc : Bytes → UInt32)

/-- One round of the loop in `perform_checkpoint`.  A page that could not be
written in one call stays dirty. -/
def checkpointSlot (e : Engine) (i : Slot) : Engine :=
  match (e.pool i).page with
  | some page =>
    if (e.pool i).dirty then
      let e := e.noteWrite page
      let w := pwriteOnce e.io.writes e.file (pageOffset (e.pool i).pageId) page.toBytes
      let e := { e with file := w.file, io := { e.io with writes := w.results } }
      if w.ok then e.setEntry i { e.pool i with dirty := false } else e
    else e
  | none => e

/-- The loop of `perform_checkpoint` over the pool. -/
@[irreducible] def checkpointPool (e : Engine) : Engine :=
  (List.finRange bufferPoolSize).foldl checkpointSlot e

/-- `perform_checkpoint`.  The results of both flushes and of the log record
are ignored, and so is every failed write. -/
def performCheckpoint (e : Engine) : ℤ × Engine :=
  let e := e.flushWalBuffer.2
  let e := e.checkpointPool
  let e := (e.writeWalRecord crc 0 .checkout 0 []).2
  (0, e.flushWalBuffer.2)

/-- A slot behind `memset`. -/
def emptyEntry : BufferEntry where
  page := none
  pageId := 0
  dirty := false
  pinned := false
  refCount := 0
  lastAccess := ⟨0, 0⟩

/-- `g_storage` with both files open, before the page allocator is set up. -/
def opened (file walFile : Bytes) (io : Io) : Engine where
  file := file
  wal := ⟨walFile, [], 1⟩
  pool := fun _ => emptyEntry
  links := ⟨fun _ => none, fun _ => none⟩
  freePages := []
  freePageCapacity := 0
  nextPageId := 0
  nextTxnId := 1
  io := io
  history := ⟨[], []⟩

/-- `recover_page_allocator`: the number of pages in the file, a torn one
included, is the next id unless it does not pass the root. -/
def recoverPageAllocator (e : Engine) : UInt32 × Engine :=
  let pagesInFile := UInt32.ofNat ((e.file.length + pageSize - 1) / pageSize)
  (pagesInFile,
    { e with
      nextPageId :=
        if rootPageId < pagesInFile then pagesInFile else rootPageId + 1 })

/-- The root of an empty data file. -/
def createRoot (e : Engine) : Engine :=
  let g := e.getPage crc rootPageId
  match g.1 with
  | none => g.2
  | some page =>
    let page := { page with header := { page.header with pageType := pageTypeLeaf } }
    ((g.2.editPage rootPageId page).markPageDirty crc rootPageId).releasePage rootPageId

/-- `init_storage_engine`; `none` is `-1`. -/
def initStorageEngine (dataFile walFile : Option Bytes) (io : Io) : Option Engine :=
  match dataFile, walFile with
  | some file, some walFile =>
    let walBuffer := (opened file walFile io).allocate
    let hashTable := walBuffer.2.allocate
    if walBuffer.1 = true ∧ hashTable.1 = true then
      let r := hashTable.2.recoverPageAllocator
      some (if r.1 = 0 then r.2.createRoot crc else r.2)
    else none
  | _, _ => none

/-- `cleanup_storage_engine`: what it leaves of both files. -/
def cleanupStorageEngine (e : Engine) : Bytes × Bytes :=
  let e := (e.performCheckpoint crc).2
  (e.file, e.wal.file)

def beginTransaction (e : Engine) : Option Transaction × Engine :=
  let a := e.allocate
  if a.1 then
    (some ⟨e.nextTxnId, .active⟩, { a.2 with nextTxnId := e.nextTxnId + 1 })
  else (none, a.2)

/-- `commit_transaction`: the return code and the handle left behind.  The
results of the log record and of the flush are ignored. -/
def commitTransaction (e : Engine) (txn : Option Transaction) : (ℤ × Option Transaction) × Engine :=
  match activeTxn txn with
  | none => ((-1, txn), e)
  | some t =>
    let e := (e.writeWalRecord crc t.txnId .commit 0 []).2
    ((0, some { t with state := .commited }), e.flushWalBuffer.2)

def abortTransaction (e : Engine) (txn : Option Transaction) : (ℤ × Option Transaction) × Engine :=
  match activeTxn txn with
  | none => ((-1, txn), e)
  | some t => ((0, some { t with state := .aborted }), (e.writeWalRecord crc t.txnId .abort 0 []).2)

end Engine

end Codo.Storage
