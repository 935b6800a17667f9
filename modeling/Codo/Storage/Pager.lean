import Codo.Storage.PageImage
import Codo.Storage.PageStore
import Codo.Storage.WalRun
import Codo.Support.HashChains

/-!
# The buffer pool

`pager.c` and the state of `storage_engine_t` it works on.  A frame is named
by its slot in `buffer_pool`; `UINT32_MAX` in a bucket or a `hash_next` is
`none`, and the links of all entries are kept together in `links`.  The loops
along a chain take at most `bufferPoolSize` steps; no chain is longer.

What the operating system answers is read from `io`, call by call.  `fstat`
on the open data file does not fail.  The page locks are not modelled: calls
run one after the other.

`history` is read by no function.  It notes every record the engine tried to
log and every page image it wrote back.
-/

namespace Codo.Storage

open Codo.Support

def bufferPoolSize : ℕ := 10000

/-- `g_storage.hash_table_size`. -/
def hashTableSize : ℕ := bufferPoolSize * 2

/-- An index into `buffer_pool`. -/
abbrev Slot := Fin bufferPoolSize

/-- `struct timespec`. -/
structure Timespec where
  sec : ℤ
  nsec : ℤ
  deriving DecidableEq

def Timespec.Older (a b : Timespec) : Prop :=
  a.sec < b.sec ∨ (a.sec = b.sec ∧ a.nsec < b.nsec)

instance (a b : Timespec) : Decidable (a.Older b) :=
  inferInstanceAs (Decidable (_ ∨ _))

/-- `buffer_entry_t`, without its lock and its link. -/
structure BufferEntry where
  page : Option BtreePage
  pageId : UInt32
  dirty : Bool
  pinned : Bool
  refCount : ℤ
  lastAccess : Timespec

/-- The entry may be taken for another page. -/
def BufferEntry.Evictable (entry : BufferEntry) : Prop :=
  entry.pinned = false ∧ entry.refCount = 0

instance (entry : BufferEntry) : Decidable entry.Evictable :=
  inferInstanceAs (Decidable (_ ∧ _))

/-- What the operating system will answer.  A list that is used up answers with
success, and the clock with zero. -/
structure Io where
  clock : List Timespec
  /-- Results of `write` on the log file. -/
  walWrites : List WriteResult
  /-- Whether a `pread` reads all there is. -/
  reads : List Bool
  /-- Results of `pwrite` on the data file. -/
  writes : List WriteResult
  /-- Whether an allocation succeeds. -/
  allocs : List Bool

/-- Every call succeeds. -/
def Io.quiet : Io := ⟨[], [], [], [], []⟩

/-- A page image handed to `pwrite`, with the records logged before it and the
log file at that moment. -/
structure PageWrite where
  image : BtreePage
  logged : List WalRecord
  walFile : Bytes

/-- What has happened so far. -/
structure History where
  /-- The records handed to `write_wal_record`, with its result. -/
  attempts : List (WalRecord × ℤ)
  pageWrites : List PageWrite

/-- The records that were appended to the log. -/
def History.logged (h : History) : List WalRecord :=
  (h.attempts.filter fun a => a.2 = 0).map Prod.fst

/-- `storage_engine_t`.  `file` is the data file. -/
structure Engine where
  file : Bytes
  wal : Wal
  pool : Slot → BufferEntry
  links : Chains (Fin hashTableSize) Slot
  freePages : List UInt32
  freePageCapacity : ℕ
  nextPageId : UInt32
  nextTxnId : UInt64
  io : Io
  history : History

namespace Engine

def setEntry (e : Engine) (i : Slot) (entry : BufferEntry) : Engine :=
  { e with pool := Function.update e.pool i entry }

def clockGettime (e : Engine) : Timespec × Engine :=
  (e.io.clock.headD ⟨0, 0⟩, { e with io := { e.io with clock := e.io.clock.tail } })

/-- Ask for memory. -/
def allocate (e : Engine) : Bool × Engine :=
  (e.io.allocs.headD true, { e with io := { e.io with allocs := e.io.allocs.tail } })

def flushWalBuffer (e : Engine) : ℤ × Engine :=
  let o := e.wal.flushWalBuffer e.io.walWrites
  (o.1, { e with wal := o.2.1, io := { e.io with walWrites := o.2.2 } })

def writeWalRecord (crc : Bytes → UInt32) (e : Engine) (txnId : UInt64)
    (type : WalRecordType) (pageId : UInt32) (data : Bytes) : ℤ × Engine :=
  let o := e.wal.writeWalRecord crc e.io.walWrites txnId type pageId data
  (o.1,
    { e with
      wal := o.2.1
      io := { e.io with walWrites := o.2.2 }
      history :=
        { e.history with
          attempts := e.history.attempts ++ [(⟨e.wal.nextLsn, txnId, type, pageId, data⟩, o.1)] } })

def hashPageId (pageId : UInt32) : Fin hashTableSize :=
  ⟨pageId.toNat % hashTableSize, Nat.mod_lt _ (by decide)⟩

def findBufferEntry (e : Engine) (pageId : UInt32) : Option Slot :=
  e.links.find (fun i => decide ((e.pool i).pageId = pageId)) bufferPoolSize (hashPageId pageId)

/-- One round of the victim loop. -/
def considerVictim (e : Engine) (victim : Option Slot) (i : Slot) : Option Slot :=
  if (e.pool i).Evictable then
    match victim with
    | none => some i
    | some v =>
      if (e.pool i).lastAccess.Older (e.pool v).lastAccess then some i
      else some v
  else victim

/-- The victim loop of `allocate_buffer_entry`. -/
@[irreducible] def pickVictim (e : Engine) : Option Slot :=
  (List.finRange bufferPoolSize).foldl e.considerVictim none

/-- Note that `page` is about to be written back. -/
def noteWrite (e : Engine) (page : BtreePage) : Engine :=
  { e with
    history :=
      { e.history with
        pageWrites := e.history.pageWrites ++ [⟨page, e.history.logged, e.wal.file⟩] } }

/-- The write-back of `allocate_buffer_entry`: flush the log, whatever comes of
it, and write the page. -/
def writeBack (e : Engine) (i : Slot) (page : BtreePage) : Bool × Engine :=
  let e := e.flushWalBuffer.2.noteWrite page
  let w := pwriteLoop e.io.writes e.file (pageOffset (e.pool i).pageId) page.toBytes
  let e := { e with file := w.file, io := { e.io with writes := w.results } }
  if w.ok then (true, e.setEntry i { e.pool i with dirty := false })
  else (false, e)

/-- Make sure the victim's page is on disk. -/
def cleanVictim (e : Engine) (i : Slot) : Bool × Engine :=
  match (e.pool i).page with
  | some page => if (e.pool i).dirty then e.writeBack i page else (true, e)
  | none => (true, e)

/-- Take the victim out of its bucket. -/
def unlinkVictim (e : Engine) (i : Slot) : Engine :=
  if (e.pool i).pageId ≠ 0 then
    { e with
      links := e.links.remove bufferPoolSize (hashPageId (e.pool i).pageId) i }
  else e

/-- Label the victim with `pageId`; it is pinned and not linked. -/
def relabel (e : Engine) (i : Slot) (pageId : UInt32) : Engine :=
  let t := e.clockGettime
  { t.2.setEntry i
      { page := (e.pool i).page
        pageId := pageId
        dirty := false
        pinned := false
        refCount := 1
        lastAccess := t.1 } with
    links := e.links.clear i }

def allocateBufferEntry (e : Engine) (pageId : UInt32) : Option Slot × Engine :=
  match e.pickVictim with
  | none => (none, e)
  | some i =>
    let c := e.cleanVictim i
    if c.1 then (some i, (c.2.unlinkVictim i).relabel i pageId)
    else (none, c.2)

/-- `load_page_from_disk`; `false` is `-1`.  What a failed read leaves in the
frame is never looked at. -/
def loadPageFromDisk (e : Engine) (i : Slot) (pageId : UInt32) : Bool × Engine :=
  let ok := e.io.reads.headD true
  let e := { e with io := { e.io with reads := e.io.reads.tail } }
  if ok = true ∧ pageOffset pageId + pageSize ≤ e.file.length then
    let page := BtreePage.ofBytes (slice e.file (pageOffset pageId) pageSize)
    (true, e.setEntry i { e.pool i with page := some page })
  else if ok = false ∨ pageOffset pageId < e.file.length then (false, e)
  else
    (true, e.setEntry i { e.pool i with page := some (freshPage pageId), dirty := true })

end Engine

/-- `calculate_checksum` of the page with its checksum field cleared. -/
def BtreePage.sum (crc : Bytes → UInt32) (page : BtreePage) : UInt32 :=
  crc { page with header := { page.header with checksum := 0 } }.toBytes

/-- `page_checksum_valid`. -/
def BtreePage.ChecksumValid (crc : Bytes → UInt32) (page : BtreePage) : Prop :=
  page.header.checksum = 0 ∨ page.header.checksum = page.sum crc

instance (crc : Bytes → UInt32) (page : BtreePage) : Decidable (page.ChecksumValid crc) :=
  inferInstanceAs (Decidable (_ ∨ _))

namespace Engine

variable (crc : Bytes → UInt32)

/-- The end of `get_page` on a failed load. -/
def failPinned (e : Engine) (i : Slot) : Option BtreePage × Engine :=
  (none, e.setEntry i { e.pool i with refCount := (e.pool i).refCount - 1 })

/-- Give the slot a frame, unless it has one.  The contents of a new frame are
never looked at. -/
def ensureFrame (e : Engine) (i : Slot) : Bool × Engine :=
  match (e.pool i).page with
  | some _ => (true, e)
  | none =>
    let a := e.allocate
    if a.1 then
      (true, a.2.setEntry i { e.pool i with page := some BtreePage.zero })
    else (false, a.2)

/-- The miss path of `get_page` behind `allocate_buffer_entry`. -/
def fill (e : Engine) (i : Slot) (pageId : UInt32) : Option BtreePage × Engine :=
  let a := e.ensureFrame i
  if a.1 = false then a.2.failPinned i
  else
    let l := a.2.loadPageFromDisk i pageId
    if l.1 = false then l.2.failPinned i
    else
      match (l.2.pool i).page with
      | none => l.2.failPinned i
      | some page =>
        if page.ChecksumValid crc then
          (some page, { l.2 with links := l.2.links.push (hashPageId pageId) i })
        else l.2.failPinned i

/-- The hit path of `get_page`. -/
def touch (e : Engine) (i : Slot) : Option BtreePage × Engine :=
  let t := e.clockGettime
  ((e.pool i).page, t.2.setEntry i
      { e.pool i with
        refCount := (e.pool i).refCount + 1
        lastAccess := t.1 })

def getPage (e : Engine) (pageId : UInt32) : Option BtreePage × Engine :=
  match e.findBufferEntry pageId with
  | some i => e.touch i
  | none =>
    let a := e.allocateBufferEntry pageId
    match a.1 with
    | none => (none, a.2)
    | some i => a.2.fill crc i pageId

def releasePage (e : Engine) (pageId : UInt32) : Engine :=
  match e.findBufferEntry pageId with
  | some i => e.setEntry i { e.pool i with refCount := (e.pool i).refCount - 1 }
  | none => e

/-- An edit through the pointer `get_page` returned. -/
def editPage (e : Engine) (pageId : UInt32) (page : BtreePage) : Engine :=
  match e.findBufferEntry pageId with
  | some i => e.setEntry i { e.pool i with page := some page }
  | none => e

/-- The header fields `mark_page_dirty` writes. -/
def stamped (e : Engine) (page : BtreePage) : BtreePage :=
  let lsn := e.wal.nextLsn - 1
  page.stamp lsn ((page.stamp lsn 0).sum crc)

def markPageDirty (e : Engine) (pageId : UInt32) : Engine :=
  match e.findBufferEntry pageId with
  | some i =>
    e.setEntry i
      { e.pool i with
        dirty := true
        page := (e.pool i).page.map (e.stamped crc) }
  | none => e

def allocatePage (e : Engine) : UInt32 × Engine :=
  match e.freePages with
  | id :: rest => (id, { e with freePages := rest })
  | [] =>
    if e.nextPageId.toNat < maxPages then
      (e.nextPageId, { e with nextPageId := e.nextPageId + 1 })
    else (0, e)

/-- Make room in `free_pages`, if memory allows. -/
def growFreePages (e : Engine) : Engine :=
  if e.freePageCapacity ≤ e.freePages.length then
    let a := e.allocate
    if a.1 then
      { a.2 with
        freePageCapacity :=
          if e.freePageCapacity * 2 = 0 then 1024
          else e.freePageCapacity * 2 }
    else a.2
  else e

/-- `deallocate_page`; the id is lost when the list cannot grow. -/
def deallocatePage (e : Engine) (pageId : UInt32) : Engine :=
  let e := e.growFreePages
  if e.freePages.length < e.freePageCapacity then
    { e with freePages := pageId :: e.freePages }
  else e

/-- The calls `db.c` makes. -/
def step : (c : PagerCmd) → Engine → c.Reply × Engine
  | .getPage id _, e => e.getPage crc id
  | .releasePage id _, e => ((), e.releasePage id)
  | .updatePage id page, e => ((), (e.editPage id page).markPageDirty crc id)
  | .scribblePage id page, e => ((), e.editPage id page)
  | .allocatePage, e => e.allocatePage
  | .deallocatePage id, e => ((), e.deallocatePage id)
  | .writeWalRecord txnId type pageId data, e => e.writeWalRecord crc txnId type pageId data

end Engine

end Codo.Storage
