import Codo.Support.Bytes

/-!
# Pages and page-level key operations

The data model of `storage_internal.h` and the page routines of `btree.c`.
A page is a header followed by a data area of `btreePageCapacity` bytes into
which key-value pairs are packed back to back.  A pair is addressed by its
byte offset in the data area, which stands for the `kv_pair_t *` of the
source; its fields are read out of the bytes and are not trusted.

The routines are total on every page image.  A routine that returns `-1` (or
`NULL`, or `SIZE_MAX`) for a rejected page returns `none` here, and it leaves
the page it was given alone.
-/

namespace Codo.Storage

open Codo.Support

def pageSize : ℕ := 4096

def maxPages : ℕ := 1000000

def btreeMaxDepth : ℕ := 32

def maxKeySize : ℕ := 256

def maxValueSize : ℕ := 1024

/-- `sizeof(page_header_t)`, its tail padding included. -/
def pageHeaderSize : ℕ := 72

/-- `sizeof(kv_pair_t)`: the two lengths and the child page id. -/
def kvPairSize : ℕ := 8

/-- Bytes of a page available to key-value pairs. -/
def btreePageCapacity : ℕ := pageSize - pageHeaderSize

theorem btreePageCapacity_eq : btreePageCapacity = 4024 := rfl

/-- `PAGE_TYPE_LEAF`.  A page type is kept as the stored 32-bit value, since
any value can come off the disk. -/
def pageTypeLeaf : UInt32 := 1

def pageTypeInternal : UInt32 := 2

/-- `page_header_t`.  `reserved` covers the reserved array and the four
padding bytes behind it. -/
structure PageHeader where
  pageId : UInt32
  pageType : UInt32
  keyCount : UInt16
  freeSpace : UInt16
  reserved0 : UInt32
  nextPageId : UInt32
  prevPageId : UInt32
  lsn : UInt64
  checksum : UInt32
  reserved : Block 36
  deriving DecidableEq

structure BtreePage where
  header : PageHeader
  data : Block btreePageCapacity
  deriving DecidableEq

/-- The page image left by `memset(page, 0, PAGE_SIZE)`. -/
def BtreePage.zero : BtreePage where
  header :=
    { pageId := 0, pageType := 0, keyCount := 0, freeSpace := 0,
      reserved0 := 0, nextPageId := 0, prevPageId := 0, lsn := 0,
      checksum := 0, reserved := Block.zero 36 }
  data := Block.zero btreePageCapacity

namespace BtreePage

variable (page : BtreePage)

/-- `header.key_count` as a number. -/
def keyCount : ℕ := page.header.keyCount.toNat

/-- `header.free_space` as a number. -/
def freeSpace : ℕ := page.header.freeSpace.toNat

/-- `kv->key_length`. -/
def kvKeyLength (offset : ℕ) : ℕ :=
  leValue (slice page.data.bytes offset 2)

/-- `kv->value_length`. -/
def kvValueLength (offset : ℕ) : ℕ :=
  leValue (slice page.data.bytes (offset + 2) 2)

/-- `kv->child_page_id`. -/
def kvChildPageId (offset : ℕ) : UInt32 :=
  UInt32.ofNat (leValue (slice page.data.bytes (offset + 4) 4))

/-- The key bytes at `kv->data`. -/
def kvKey (offset : ℕ) : Bytes :=
  slice page.data.bytes (offset + kvPairSize) (page.kvKeyLength offset)

/-- The value bytes behind the key. -/
def kvValue (offset : ℕ) : Bytes :=
  slice page.data.bytes (offset + kvPairSize + page.kvKeyLength offset) (page.kvValueLength offset)

/-- The number of bytes the pair occupies. -/
def pairSize (offset : ℕ) : ℕ :=
  kvPairSize + page.kvKeyLength offset + page.kvValueLength offset

/-- `kv->child_page_id = id`. -/
def setKvChild (offset : ℕ) (id : UInt32) : BtreePage :=
  { page with data := page.data.blit (offset + 4) (leBytes 4 id.toNat) }

end BtreePage

/-- `memcmp` on the common length of two byte strings: the sign of the first
difference, comparing bytes as unsigned numbers. -/
def memcmp : Bytes → Bytes → ℤ
  | a :: as, b :: bs => if a < b then -1 else if b < a then 1 else memcmp as bs
  | _, _ => 0

def compareKeys (key1 key2 : Bytes) : ℤ :=
  let minLen := min key1.length key2.length
  let result := memcmp (key1.take minLen) (key2.take minLen)
  if result = 0 then
    if key1.length < key2.length then -1
    else if key2.length < key1.length then 1
    else 0
  else
    result

/-- `btree_used_bytes`; `none` for a corrupt `free_space`. -/
def btreeUsedBytes (page : BtreePage) : Option ℕ :=
  if btreePageCapacity < page.freeSpace then none
  else some (btreePageCapacity - page.freeSpace)

/-- The loop of `entry_offset`, walking `index` further pairs from `offset`. -/
def entryOffsetFrom (page : BtreePage) (used : ℕ) : ℕ → ℕ → Option ℕ
  | 0, offset => some offset
  | index + 1, offset =>
    if used < offset + kvPairSize then none
    else if used - offset < page.pairSize offset then none
    else entryOffsetFrom page used index (offset + page.pairSize offset)

def entryOffset (page : BtreePage) (index used : ℕ) : Option ℕ :=
  entryOffsetFrom page used index 0

/-- The loop of `get_kv_pair`, skipping `index` further pairs from `offset`. -/
def getKvPairFrom (page : BtreePage) : ℕ → ℕ → Option ℕ
  | 0, offset =>
    if btreePageCapacity < offset + kvPairSize then none
    else if btreePageCapacity < offset + page.pairSize offset then none
    else some offset
  | index + 1, offset =>
    if btreePageCapacity < offset + kvPairSize then none
    else if btreePageCapacity - offset < page.pairSize offset then none
    else getKvPairFrom page index (offset + page.pairSize offset)

/-- `get_kv_pair`: the byte offset of pair `index`. -/
def getKvPair (page : BtreePage) (index : ℤ) : Option ℕ :=
  if index < 0 ∨ (page.keyCount : ℤ) ≤ index then none
  else getKvPairFrom page index.toNat 0

/-- The binary search loop of `find_key_position`.  Each pass shrinks the
interval, so `key_count` passes are enough. -/
def findKeyPositionLoop (page : BtreePage) (key : Bytes) :
    ℕ → ℤ → ℤ → ℤ
  | 0, left, _ => left
  | fuel + 1, left, right =>
    if left ≤ right then
      let mid := (left + right) / 2
      match getKvPair page mid with
      | none => left
      | some kv =>
        let cmp := compareKeys key (page.kvKey kv)
        if cmp = 0 then mid
        else if cmp < 0 then findKeyPositionLoop page key fuel left (mid - 1)
        else findKeyPositionLoop page key fuel (mid + 1) right
    else
      left

/-- `find_key_position`: the first pair whose key is not below `key`. -/
def findKeyPosition (page : BtreePage) (key : Bytes) : ℤ :=
  findKeyPositionLoop page key (page.keyCount + 1) 0 (page.keyCount - 1)

def insertKvPair (page : BtreePage) (position : ℕ) (key value : Bytes)
    (childPageId : UInt32) : Option BtreePage := do
  let pairSize := kvPairSize + key.length + value.length
  guard (pairSize ≤ page.freeSpace)
  let used ← btreeUsedBytes page
  let insertOffset ← entryOffset page position used
  let moveSize := used - insertOffset
  let moved := page.data.blit (insertOffset + pairSize)
    (slice page.data.bytes insertOffset moveSize)
  let data := moved.blit insertOffset (leBytes 2 key.length ++ leBytes 2 value.length ++
      leBytes 4 childPageId.toNat ++ key ++ value)
  let header :=
    { page.header with
      keyCount := page.header.keyCount + 1
      freeSpace := UInt16.ofNat (page.freeSpace - pairSize) }
  return { header := header, data := data }

def deleteKvPair (page : BtreePage) (position : ℤ) : Option BtreePage := do
  guard (0 ≤ position ∧ position < page.keyCount)
  let kv ← getKvPair page position
  let pairSize := page.pairSize kv
  let used ← btreeUsedBytes page
  guard (kv + pairSize ≤ used)
  let moveSize := used - (kv + pairSize)
  let data := page.data.blit kv (slice page.data.bytes (kv + pairSize) moveSize)
  let header :=
    { page.header with
      keyCount := page.header.keyCount - 1
      freeSpace := UInt16.ofNat (page.freeSpace + pairSize) }
  return { header := header, data := data }

/-- The loop of `choose_split_index`, with `n` pairs still to look at. -/
def chooseSplitIndexFrom (page : BtreePage) (used half : ℕ) :
    ℕ → ℕ → ℕ → Option ℕ
  | 0, _, _ => if 1 < page.keyCount then some (page.keyCount - 1) else none
  | n + 1, i, offset =>
    if half ≤ offset ∧ 0 < i then some i
    else if used < offset + kvPairSize then none
    else if used - offset < page.pairSize offset then none
    else chooseSplitIndexFrom page used half n (i + 1) (offset + page.pairSize offset)

def chooseSplitIndex (page : BtreePage) (used : ℕ) : Option ℕ :=
  chooseSplitIndexFrom page used (used / 2) page.keyCount 0 0

/-- `btree_split_page`: the shrunk source page, the filled destination page
and the separator key. -/
def btreeSplitPage (src dst : BtreePage) (dstPageId : UInt32)
    (sepOutSize : ℕ) : Option (BtreePage × BtreePage × Bytes) := do
  let isLeaf := src.header.pageType == pageTypeLeaf
  let used ← btreeUsedBytes src
  guard ((if isLeaf then 2 else 1) ≤ src.keyCount)
  let mid ← chooseSplitIndex src used
  guard (mid < src.keyCount)
  let sepIndex := if isLeaf then mid - 1 else mid
  let sepOffset ← entryOffset src sepIndex used
  guard (sepOffset + kvPairSize ≤ used)
  guard (kvPairSize + src.kvKeyLength sepOffset ≤ used - sepOffset ∧
    src.kvKeyLength sepOffset ≤ sepOutSize)
  let sep := src.kvKey sepOffset
  let splitOffset ← entryOffset src mid used
  guard (splitOffset ≤ used)
  guard (isLeaf ∨ src.pairSize splitOffset ≤ used - splitOffset)
  let promotedChild := if isLeaf then 0 else src.kvChildPageId splitOffset
  let rightOffset :=
    if isLeaf then splitOffset else splitOffset + src.pairSize splitOffset
  let rightCount :=
    if isLeaf then src.keyCount - mid else src.keyCount - mid - 1
  guard (rightOffset ≤ used)
  let rightBytes := used - rightOffset
  guard (rightBytes ≤ btreePageCapacity)
  let dstHeader :=
    { dst.header with
      pageId := dstPageId
      pageType := src.header.pageType
      keyCount := UInt16.ofNat rightCount
      freeSpace := UInt16.ofNat (btreePageCapacity - rightBytes)
      nextPageId := src.header.nextPageId }
  let srcHeader :=
    { src.header with
      nextPageId := if isLeaf then dstPageId else promotedChild
      keyCount := UInt16.ofNat mid
      freeSpace := UInt16.ofNat (btreePageCapacity - splitOffset) }
  return ({ src with header := srcHeader },
    { header := dstHeader
      data := dst.data.blit 0 (slice src.data.bytes rightOffset rightBytes) },
    sep)

end Codo.Storage
