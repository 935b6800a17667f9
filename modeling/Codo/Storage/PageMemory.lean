import Codo.Storage.PageSplit
import Codo.Support.Checked

/-!
# The page routines on raw memory

The routines of `btree.c` once more, this time as they touch memory: every
field of a pair is a read of the data area, every edit is a sequence of writes
into the page, and sizes are subtracted as the source subtracts them.  Each
access is checked, so a run that does not fault reads and writes only inside
the data area of its page, and a page is left as the last write left it also
when `-1` is returned.

On every page image the runs are free of faults and return what the routines of
`Codo.Storage.Page` return; the lengths and counts stored in the page need not
make sense.
-/

namespace Codo.Storage.Memory

open Support List

variable (page : BtreePage)

/-! ## Reading pairs -/

/-- `kv->key_length`. -/
def kvKeyLength (kv : ℕ) : Checked ℕ := do
  return leValue (← page.data.load kv 2)

/-- `kv->value_length`. -/
def kvValueLength (kv : ℕ) : Checked ℕ := do
  return leValue (← page.data.load (kv + 2) 2)

/-- `kv->child_page_id`. -/
def kvChildPageId (kv : ℕ) : Checked UInt32 := do
  return UInt32.ofNat (leValue (← page.data.load (kv + 4) 4))

/-- `sizeof(kv_pair_t) + kv->key_length + kv->value_length`. -/
def pairSize (kv : ℕ) : Checked ℕ := do
  let keyLength ← kvKeyLength page kv
  let valueLength ← kvValueLength page kv
  return kvPairSize + keyLength + valueLength

def btreeUsedBytes : Checked (Option ℕ) :=
  if btreePageCapacity < page.freeSpace then return none
  else do return some (← checkedSub btreePageCapacity page.freeSpace)

/-- The loop of `entry_offset`, which `insert_kv_pair` repeats. -/
def entryOffsetFrom (used : ℕ) : ℕ → ℕ → Checked (Option ℕ)
  | 0, offset => return some offset
  | index + 1, offset =>
    if used < offset + kvPairSize then return none
    else do
      let size ← pairSize page offset
      if (← checkedSub used offset) < size then return none
      else entryOffsetFrom used index (offset + size)

def entryOffset (index used : ℕ) : Checked (Option ℕ) :=
  entryOffsetFrom page used index 0

/-- The loop of `get_kv_pair`. -/
def getKvPairFrom : ℕ → ℕ → Checked (Option ℕ)
  | 0, offset =>
    if btreePageCapacity < offset + kvPairSize then return none
    else do
      let size ← pairSize page offset
      if btreePageCapacity < offset + size then return none
      else return some offset
  | index + 1, offset =>
    if btreePageCapacity < offset + kvPairSize then return none
    else do
      let size ← pairSize page offset
      if (← checkedSub btreePageCapacity offset) < size then return none
      else getKvPairFrom index (offset + size)

def getKvPair (index : ℤ) : Checked (Option ℕ) :=
  if index < 0 ∨ (page.keyCount : ℤ) ≤ index then return none
  else getKvPairFrom page index.toNat 0

/-- `compare_keys` of a key with the key of the pair at `kv`; the pair's key is
read as far as the shorter of the two goes. -/
def compareKeys (key : Bytes) (kv : ℕ) : Checked ℤ := do
  let keyLength ← kvKeyLength page kv
  let minLen := min key.length keyLength
  let result := memcmp (key.take minLen) (← page.data.load (kv + kvPairSize) minLen)
  if result = 0 then
    if key.length < keyLength then return -1
    else if keyLength < key.length then return 1
    else return 0
  else return result

/-- The loop of `find_key_position` with the number of passes it is given. -/
def findKeyPositionLoop (key : Bytes) : ℕ → ℤ → ℤ → Checked ℤ
  | 0, left, right => if left ≤ right then throw .endless else return left
  | passes + 1, left, right =>
    if left ≤ right then do
      let mid := (left + right) / 2
      match ← getKvPair page mid with
      | none => return left
      | some kv => do
        let cmp ← compareKeys page key kv
        if cmp = 0 then return mid
        else if cmp < 0 then
          findKeyPositionLoop key passes left (mid - 1)
        else findKeyPositionLoop key passes (mid + 1) right
    else return left

def findKeyPosition (key : Bytes) : Checked ℤ :=
  findKeyPositionLoop page key (page.keyCount + 1) 0 (page.keyCount - 1)

/-- The loop of `choose_split_index`, with `n` pairs still to look at. -/
def chooseSplitIndexFrom (used half : ℕ) : ℕ → ℕ → ℕ → Checked (Option ℕ)
  | 0, _, _ =>
    if 1 < page.keyCount then return some (page.keyCount - 1)
    else return none
  | n + 1, i, offset =>
    if half ≤ offset ∧ 0 < i then return some i
    else if used < offset + kvPairSize then return none
    else do
      let size ← pairSize page offset
      if (← checkedSub used offset) < size then return none
      else chooseSplitIndexFrom used half n (i + 1) (offset + size)

def chooseSplitIndex (used : ℕ) : Checked (Option ℕ) :=
  chooseSplitIndexFrom page used (used / 2) page.keyCount 0 0

/-! ## Editing one page -/

def storeData (offset : ℕ) (src : Bytes) : InPlace BtreePage Unit :=
  InPlace.edit fun page => do
    return { page with data := ← page.data.store offset src }

/-- `memcpy` into the data area, skipped when there is nothing to copy. -/
def memcpyData (offset : ℕ) (src : Bytes) : InPlace BtreePage Unit :=
  if 0 < src.length then storeData offset src else pure ()

/-- `memmove` inside the data area, skipped when there is nothing to move. -/
def memmoveData (dst src len : ℕ) : InPlace BtreePage Unit :=
  if 0 < len then
    InPlace.edit fun page => do
      return { page with data := ← page.data.memmove dst src len }
  else pure ()

/-- `insert_kv_pair` fills the new pair. -/
def writePair (kv : ℕ) (key value : Bytes) (childPageId : UInt32) :
    InPlace BtreePage Unit := do
  storeData kv (leBytes 2 key.length)
  storeData (kv + 2) (leBytes 2 value.length)
  storeData (kv + 4) (leBytes 4 childPageId.toNat)
  storeData (kv + kvPairSize) key
  memcpyData (kv + kvPairSize + key.length) value

def insertKvPair (position : ℕ) (key value : Bytes) (childPageId : UInt32) :
    InPlace BtreePage ℤ := do
  let page ← get
  let size := kvPairSize + key.length + value.length
  if page.freeSpace < size then return -1
  else if btreePageCapacity < page.freeSpace then return -1
  else do
    let used ← checkedSub btreePageCapacity page.freeSpace
    match ← entryOffset page position used with
    | none => return -1
    | some insertOffset => do
      let moveSize ← checkedSub used insertOffset
      memmoveData (insertOffset + size) insertOffset moveSize
      writePair insertOffset key value childPageId
      let freeSpace ← checkedSub page.freeSpace size
      modify fun page =>
        { page with
          header :=
            { page.header with
              keyCount := page.header.keyCount + 1
              freeSpace := UInt16.ofNat freeSpace } }
      return 0

def deleteKvPair (position : ℤ) : InPlace BtreePage ℤ := do
  let page ← get
  if position < 0 ∨ (page.keyCount : ℤ) ≤ position then return -1
  else
    match ← getKvPair page position with
    | none => return -1
    | some kv => do
      let size ← pairSize page kv
      if btreePageCapacity < page.freeSpace then return -1
      else do
        let used ← checkedSub btreePageCapacity page.freeSpace
        if used < kv + size then return -1
        else do
          let moveSize ← checkedSub used (kv + size)
          memmoveData kv (kv + size) moveSize
          let keyCount ← checkedSub page.keyCount 1
          modify fun page =>
            { page with
              header :=
                { page.header with
                  keyCount := UInt16.ofNat keyCount
                  freeSpace := UInt16.ofNat (page.freeSpace + size) } }
          return 0

/-! ## Splitting one page -/

/-- What `btree_split_page` works on: both pages and the separator buffer of
`n` bytes with its length. -/
structure SplitMemory (n : ℕ) where
  src : BtreePage
  dst : BtreePage
  sepOut : Block n
  sepLen : ℕ

/-- The part of `btree_split_page` that moves the pairs from `rightOffset` on. -/
def carve {n : ℕ} (dstPageId promotedChild : UInt32) (isLeaf : Bool)
    (used mid splitOffset rightOffset rightCount : ℕ) :
    InPlace (SplitMemory n) ℤ := do
  if used < rightOffset then return -1
  else do
    let rightBytes ← checkedSub used rightOffset
    if btreePageCapacity < rightBytes then return -1
    else do
      let dstFree ← checkedSub btreePageCapacity rightBytes
      let srcFree ← checkedSub btreePageCapacity splitOffset
      InPlace.edit fun m => do
        let moved ← m.src.data.load rightOffset rightBytes
        return { m with dst := { m.dst with data := ← m.dst.data.store 0 moved } }
      modify fun m =>
        { m with
          dst :=
            { m.dst with
              header :=
                { m.dst.header with
                  pageId := dstPageId
                  pageType := m.src.header.pageType
                  keyCount := UInt16.ofNat rightCount
                  freeSpace := UInt16.ofNat dstFree
                  nextPageId := m.src.header.nextPageId } }
          src :=
            { m.src with
              header :=
                { m.src.header with
                  nextPageId := if isLeaf then dstPageId else promotedChild
                  keyCount := UInt16.ofNat mid
                  freeSpace := UInt16.ofNat srcFree } } }
      return 0

/-- The part of `btree_split_page` behind the choice of the cut. -/
def splitAt {n : ℕ} (dstPageId : UInt32) (isLeaf : Bool) (used mid : ℕ) :
    InPlace (SplitMemory n) ℤ := do
  let src := (← get).src
  match ← entryOffset src (if isLeaf then mid - 1 else mid) used with
  | none => return -1
  | some sepOffset =>
    if used < sepOffset + kvPairSize then return -1
    else do
      let keyLength ← kvKeyLength src sepOffset
      if (← checkedSub used sepOffset) < kvPairSize + keyLength ∨ n < keyLength then return -1
      else do
        InPlace.edit fun m => do
          let key ← src.data.load (sepOffset + kvPairSize) keyLength
          return { m with sepOut := ← m.sepOut.store 0 key, sepLen := keyLength }
        match ← entryOffset src mid used with
        | none => return -1
        | some splitOffset =>
          if used < splitOffset then return -1
          else if isLeaf then do
            let rightCount ← checkedSub src.keyCount mid
            carve dstPageId 0 true used mid splitOffset splitOffset rightCount
          else do
            let size ← pairSize src splitOffset
            if (← checkedSub used splitOffset) < size then return -1
            else do
              let promotedChild ← kvChildPageId src splitOffset
              let rightCount ← checkedSub src.keyCount (mid + 1)
              carve dstPageId promotedChild false used mid splitOffset
                (splitOffset + size) rightCount

/-- `btree_split_page` with a separator buffer of `n` bytes. -/
def btreeSplitPage {n : ℕ} (dstPageId : UInt32) :
    InPlace (SplitMemory n) ℤ := do
  let src := (← get).src
  let isLeaf := src.header.pageType == pageTypeLeaf
  match ← btreeUsedBytes src with
  | none => return -1
  | some used =>
    if src.keyCount < (if isLeaf then 2 else 1) then return -1
    else
      match ← chooseSplitIndex src used with
      | none => return -1
      | some mid =>
        if src.keyCount ≤ mid then return -1
        else splitAt dstPageId isLeaf used mid

/-! ## Reads do not fault -/

variable {page : BtreePage} {kv offset used : ℕ}

section

variable (h : kv + kvPairSize ≤ btreePageCapacity)
include h

theorem kvKeyLength_eq : kvKeyLength page kv = .ok (page.kvKeyLength kv) := by
  rw [kvKeyLength, Block.load_of_le (by simp only [kvPairSize] at h; omega)]
  rfl

theorem kvChildPageId_eq : kvChildPageId page kv = .ok (page.kvChildPageId kv) := by
  rw [kvChildPageId, Block.load_of_le (by simp only [kvPairSize] at h; omega)]
  rfl

theorem pairSize_eq : pairSize page kv = .ok (page.pairSize kv) := by
  have hvalue : kvValueLength page kv = .ok (page.kvValueLength kv) := by
    rw [kvValueLength, Block.load_of_le (by simp only [kvPairSize] at h; omega)]
    rfl
  rw [pairSize, kvKeyLength_eq h, hvalue]
  rfl

end

theorem btreeUsedBytes_eq : btreeUsedBytes page = .ok (Storage.btreeUsedBytes page) := by
  rw [btreeUsedBytes, Storage.btreeUsedBytes]
  split
  · rfl
  case isFalse h =>
    rw [checkedSub_of_le (not_lt.mp h)]
    rfl

theorem entryOffsetFrom_eq (hused : used ≤ btreePageCapacity) (index : ℕ) :
    entryOffsetFrom page used index offset =
      .ok (Storage.entryOffsetFrom page used index offset) := by
  induction index generalizing offset with
  | zero => rfl
  | succ index ih =>
    rw [entryOffsetFrom, Storage.entryOffsetFrom]
    by_cases hroom : used < offset + kvPairSize
    · rw [if_pos hroom, if_pos hroom]
      rfl
    · rw [if_neg hroom, if_neg hroom, pairSize_eq (by omega),
        Checked.ok_bind, checkedSub_of_le (by omega), Checked.ok_bind]
      split
      · rfl
      · exact ih

theorem entryOffset_eq (hused : used ≤ btreePageCapacity) (index : ℕ) :
    entryOffset page index used = .ok (Storage.entryOffset page index used) :=
  entryOffsetFrom_eq hused index

theorem getKvPairFrom_eq (index : ℕ) :
    getKvPairFrom page index offset = .ok (Storage.getKvPairFrom page index offset) := by
  induction index generalizing offset with
  | zero =>
    rw [getKvPairFrom, Storage.getKvPairFrom]
    by_cases hroom : btreePageCapacity < offset + kvPairSize
    · rw [if_pos hroom, if_pos hroom]
      rfl
    · rw [if_neg hroom, if_neg hroom, pairSize_eq (by omega), Checked.ok_bind]
      split <;> rfl
  | succ index ih =>
    rw [getKvPairFrom, Storage.getKvPairFrom]
    by_cases hroom : btreePageCapacity < offset + kvPairSize
    · rw [if_pos hroom, if_pos hroom]
      rfl
    · rw [if_neg hroom, if_neg hroom, pairSize_eq (by omega),
        Checked.ok_bind, checkedSub_of_le (by omega), Checked.ok_bind]
      split
      · rfl
      · exact ih

theorem getKvPair_eq (index : ℤ) : getKvPair page index = .ok (Storage.getKvPair page index) := by
  rw [getKvPair, Storage.getKvPair]
  split
  · rfl
  · exact getKvPairFrom_eq _

theorem getKvPairFrom_bound {index : ℕ} (h : Storage.getKvPairFrom page index offset = some kv) :
    kv + page.pairSize kv ≤ btreePageCapacity := by
  induction index generalizing offset with
  | zero =>
    rw [Storage.getKvPairFrom] at h
    split at h
    · cases h
    · split at h
      · cases h
      case isFalse hfit =>
        cases h
        exact not_lt.mp hfit
  | succ index ih =>
    rw [Storage.getKvPairFrom] at h
    split at h
    · cases h
    · split at h
      · cases h
      · exact ih h

theorem getKvPair_bound {index : ℤ} (h : Storage.getKvPair page index = some kv) :
    kv + page.pairSize kv ≤ btreePageCapacity := by
  rw [Storage.getKvPair] at h
  split at h
  · cases h
  · exact getKvPairFrom_bound h

section

variable (h : kv + page.pairSize kv ≤ btreePageCapacity)
include h

theorem length_kvKey : (page.kvKey kv).length = page.kvKeyLength kv := by
  rw [BtreePage.pairSize] at h
  apply length_slice_of_le
  rw [page.data.length_eq]
  omega

theorem length_kvValue : (page.kvValue kv).length = page.kvValueLength kv := by
  rw [BtreePage.pairSize] at h
  apply length_slice_of_le
  rw [page.data.length_eq]
  omega

theorem compareKeys_eq (key : Bytes) :
    compareKeys page key kv = .ok (Storage.compareKeys key (page.kvKey kv)) := by
  have hsize : page.pairSize kv = kvPairSize + page.kvKeyLength kv + page.kvValueLength kv := rfl
  have hlen := length_kvKey h
  have htake : (page.kvKey kv).take (min key.length (page.kvKeyLength kv)) =
      slice page.data.bytes (kv + kvPairSize) (min key.length (page.kvKeyLength kv)) := by
    rw [BtreePage.kvKey, slice, slice, take_take, Nat.min_eq_left (Nat.min_le_right _ _)]
  rw [compareKeys, kvKeyLength_eq (by omega), Checked.ok_bind]
  dsimp only
  rw [Block.load_of_le (by omega), Checked.ok_bind, Storage.compareKeys, hlen]
  simp only [htake]
  split
  · split
    · rfl
    · split <;> rfl
  · rfl

end

/-- Each pass of the search shrinks the interval, so the passes suffice. -/
theorem findKeyPositionLoop_eq (key : Bytes) {passes : ℕ} {left right : ℤ}
    (hpasses : right - left + 1 ≤ passes) :
    findKeyPositionLoop page key passes left right =
      .ok (Storage.findKeyPositionLoop page key passes left right) := by
  induction passes generalizing left right with
  | zero =>
    have hdone : ¬left ≤ right := by omega
    rw [findKeyPositionLoop, if_neg hdone]
    rfl
  | succ passes ih =>
    rw [findKeyPositionLoop, Storage.findKeyPositionLoop]
    split
    case isFalse => rfl
    case isTrue hle =>
      dsimp only
      rw [getKvPair_eq, Checked.ok_bind]
      cases hget : Storage.getKvPair page ((left + right) / 2) with
      | none => rfl
      | some kv =>
        dsimp only
        rw [compareKeys_eq (getKvPair_bound hget) key, Checked.ok_bind]
        split
        · rfl
        · split <;> exact ih (by omega)

theorem findKeyPosition_eq (key : Bytes) :
    findKeyPosition page key = .ok (Storage.findKeyPosition page key) :=
  findKeyPositionLoop_eq key (by push_cast; omega)

theorem chooseSplitIndexFrom_eq (hused : used ≤ btreePageCapacity) (half n i : ℕ) :
    chooseSplitIndexFrom page used half n i offset =
      .ok (Storage.chooseSplitIndexFrom page used half n i offset) := by
  induction n generalizing i offset with
  | zero =>
    rw [chooseSplitIndexFrom, Storage.chooseSplitIndexFrom]
    split <;> rfl
  | succ n ih =>
    rw [chooseSplitIndexFrom, Storage.chooseSplitIndexFrom]
    split
    · rfl
    · by_cases hroom : used < offset + kvPairSize
      · rw [if_pos hroom, if_pos hroom]
        rfl
      · rw [if_neg hroom, if_neg hroom, pairSize_eq (by omega),
          Checked.ok_bind, checkedSub_of_le (by omega), Checked.ok_bind]
        split
        · rfl
        · exact ih _

theorem chooseSplitIndex_eq (hused : used ≤ btreePageCapacity) :
    chooseSplitIndex page used = .ok (Storage.chooseSplitIndex page used) :=
  chooseSplitIndexFrom_eq hused _ _ _

/-! ## Edits do not fault -/

theorem storeData_eq {src : Bytes} (h : offset + src.length ≤ btreePageCapacity) :
    storeData offset src page = .ok ((), { page with data := page.data.blit offset src }) := by
  apply InPlace.edit_apply_of_eq
  rw [Block.store_of_le h]
  rfl

theorem memcpyData_eq {src : Bytes} (h : offset + src.length ≤ btreePageCapacity) :
    memcpyData offset src page = .ok ((), { page with data := page.data.blit offset src }) := by
  rw [memcpyData]
  split
  · exact storeData_eq h
  case isFalse hempty =>
    have hnil : src = [] := length_eq_zero_iff.mp (by omega)
    rw [hnil, Block.blit_nil]
    rfl

theorem memmoveData_eq {dst src len : ℕ} (hsrc : src + len ≤ btreePageCapacity)
    (hdst : dst + len ≤ btreePageCapacity) :
    memmoveData dst src len page =
      .ok ((), { page with
        data := page.data.blit dst (slice page.data.bytes src len) }) := by
  rw [memmoveData]
  split
  · apply InPlace.edit_apply_of_eq
    rw [Block.memmove_of_le hsrc hdst]
    rfl
  case isFalse hempty =>
    have hnil : slice page.data.bytes src len = [] := by
      rw [slice, Nat.eq_zero_of_not_pos hempty, take_zero]
    rw [hnil, Block.blit_nil]
    rfl

theorem entryOffsetFrom_le {index offset' : ℕ} (hoffset : offset ≤ used)
    (h : Storage.entryOffsetFrom page used index offset = some offset') : offset' ≤ used := by
  induction index generalizing offset with
  | zero =>
    cases h
    exact hoffset
  | succ index ih =>
    rw [Storage.entryOffsetFrom] at h
    split at h
    · cases h
    · split at h
      · cases h
      · exact ih (by omega) h

theorem entryOffset_le {index offset' : ℕ}
    (h : Storage.entryOffset page index used = some offset') : offset' ≤ used :=
  entryOffsetFrom_le (Nat.zero_le _) h

/-- The return code and the page a routine leaves: `-1` and the page it was
given, or `0` and the edited page. -/
def verdict (page : BtreePage) : Option BtreePage → ℤ × BtreePage
  | none => (-1, page)
  | some page' => (0, page')

theorem writePair_eq {key value : Bytes} (childPageId : UInt32)
    (h : kv + (kvPairSize + key.length + value.length) ≤ btreePageCapacity) :
    writePair kv key value childPageId page =
      .ok ((), { page with
        data := page.data.blit kv (leBytes 2 key.length ++
          leBytes 2 value.length ++ leBytes 4 childPageId.toNat ++ key ++ value) }) := by
  simp only [kvPairSize] at h
  rw [writePair, InPlace.bind_of_eq (storeData_eq (by rw [length_leBytes]; omega)),
    InPlace.bind_of_eq (storeData_eq (by rw [length_leBytes]; omega)),
    InPlace.bind_of_eq (storeData_eq (by rw [length_leBytes]; omega)),
    InPlace.bind_of_eq (storeData_eq (by simp only [kvPairSize]; omega)),
    memcpyData_eq (by simp only [kvPairSize]; omega)]
  -- Each write starts where the one before it ended.
  dsimp only [kvPairSize]
  rw [Block.blit_blit (by simp) (by omega),
    Block.blit_blit (by simp) (by rw [length_append]; omega), Block.blit_blit (by simp)
      (by simp only [length_append, length_leBytes]; omega), Block.blit_blit (by simp)
      (by simp only [length_append, length_leBytes]; omega)]
  simp only [append_assoc]

theorem insertKvPair_eq (page : BtreePage) (position : ℕ) (key value : Bytes)
    (childPageId : UInt32) :
    insertKvPair position key value childPageId page = .ok (verdict page
        (Storage.insertKvPair page position key value childPageId)) := by
  rw [insertKvPair, InPlace.get_bind, Storage.insertKvPair]
  by_cases hroom : page.freeSpace < kvPairSize + key.length + value.length
  · rw [if_pos hroom, guard, if_neg (not_le.mpr hroom)]
    rfl
  by_cases hfree : btreePageCapacity < page.freeSpace
  · rw [if_neg hroom, if_pos hfree, Storage.btreeUsedBytes, if_pos hfree,
      guard, if_pos (not_lt.mp hroom)]
    rfl
  rw [if_neg hroom, if_neg hfree, Storage.btreeUsedBytes, if_neg hfree,
    guard, if_pos (not_lt.mp hroom), InPlace.lift_bind_of_eq (checkedSub_of_le (not_lt.mp hfree)),
    InPlace.lift_bind_of_eq (entryOffset_eq (Nat.sub_le _ _) _)]
  cases hoffset : Storage.entryOffset page position (btreePageCapacity - page.freeSpace) with
  | none =>
    simp only [Option.bind_eq_bind, Option.pure_def, Option.bind_some, hoffset, Option.bind_none]
    rfl
  | some insertOffset =>
    have hle := entryOffset_le hoffset
    simp only [Option.bind_eq_bind, Option.pure_def, Option.bind_some, hoffset]
    rw [InPlace.lift_bind_of_eq (checkedSub_of_le hle),
      InPlace.bind_of_eq (memmoveData_eq (by omega) (by omega)),
      InPlace.bind_of_eq (writePair_eq childPageId (by omega)),
      InPlace.lift_bind_of_eq (checkedSub_of_le (not_lt.mp hroom)), InPlace.modify_bind]
    rfl

theorem deleteKvPair_eq (page : BtreePage) (position : ℤ) :
    deleteKvPair position page = .ok (verdict page (Storage.deleteKvPair page position)) := by
  rw [deleteKvPair, InPlace.get_bind, Storage.deleteKvPair]
  by_cases hpos : position < 0 ∨ (page.keyCount : ℤ) ≤ position
  · rw [if_pos hpos, guard, if_neg (by omega)]
    rfl
  rw [if_neg hpos, guard, if_pos (by omega), InPlace.lift_bind_of_eq (getKvPair_eq _)]
  cases hget : Storage.getKvPair page position with
  | none => rfl
  | some kv =>
    have hbound := getKvPair_bound hget
    have hsize : kvPairSize ≤ page.pairSize kv := by
      rw [BtreePage.pairSize]
      omega
    dsimp only
    rw [InPlace.lift_bind_of_eq (pairSize_eq (by omega))]
    by_cases hfree : btreePageCapacity < page.freeSpace
    · rw [if_pos hfree, Storage.btreeUsedBytes, if_pos hfree]
      rfl
    rw [if_neg hfree, Storage.btreeUsedBytes, if_neg hfree,
      InPlace.lift_bind_of_eq (checkedSub_of_le (not_lt.mp hfree))]
    simp only [Option.bind_eq_bind, Option.pure_def, Option.bind_some]
    by_cases hused : btreePageCapacity - page.freeSpace < kv + page.pairSize kv
    · rw [if_pos hused, guard, if_neg (not_le.mpr hused)]
      rfl
    rw [if_neg hused, guard, if_pos (not_lt.mp hused),
      InPlace.lift_bind_of_eq (checkedSub_of_le (not_lt.mp hused)),
      InPlace.bind_of_eq (memmoveData_eq (by omega) (by omega)),
      InPlace.lift_bind_of_eq (checkedSub_of_le (by omega)), InPlace.modify_bind]
    have hcount : UInt16.ofNat (page.keyCount - 1) = page.header.keyCount - 1 := by
      have hpos : 1 ≤ page.header.keyCount.toNat := by
        change 1 ≤ page.keyCount
        omega
      have hone : (1 : UInt16).toNat = 1 := rfl
      apply UInt16.toNat_inj.mp
      rw [UInt16.toNat_ofNat', UInt16.toNat_sub, BtreePage.keyCount, hone]
      omega
    rw [hcount]
    rfl

section Split

variable {n : ℕ} {m : SplitMemory n} {mid : ℕ} {dstPageId : UInt32}

/-- What a split leaves behind: nothing but the separator buffer is written
when it fails. -/
def SplitVerdict (m : SplitMemory n) (rc : ℤ) (m' : SplitMemory n) :
    Option (BtreePage × BtreePage × Bytes) → Prop
  | none => rc = -1 ∧ m'.src = m.src ∧ m'.dst = m.dst
  | some (src', dst', sep) =>
    rc = 0 ∧ m'.src = src' ∧ m'.dst = dst' ∧
      m'.sepOut = m.sepOut.blit 0 sep ∧ m'.sepLen = sep.length

theorem carve_eq {promotedChild : UInt32} {isLeaf : Bool}
    {splitOffset rightOffset rightCount : ℕ} (hused : used ≤ btreePageCapacity)
    (hsplit : splitOffset ≤ used) (hright : rightOffset ≤ used) :
    carve dstPageId promotedChild isLeaf used mid splitOffset rightOffset
        rightCount m =
      .ok (0, { m with
        dst :=
          { header :=
              { m.dst.header with
                pageId := dstPageId
                pageType := m.src.header.pageType
                keyCount := UInt16.ofNat rightCount
                freeSpace := UInt16.ofNat (btreePageCapacity - (used - rightOffset))
                nextPageId := m.src.header.nextPageId }
            data := m.dst.data.blit 0 (slice m.src.data.bytes rightOffset (used - rightOffset)) }
        src :=
          { m.src with
            header :=
              { m.src.header with
                nextPageId := if isLeaf then dstPageId else promotedChild
                keyCount := UInt16.ofNat mid
                freeSpace := UInt16.ofNat (btreePageCapacity - splitOffset) } } }) := by
  have hload := @Block.load_of_le _ m.src.data rightOffset (used - rightOffset) (by omega)
  have hlen : (slice m.src.data.bytes rightOffset (used - rightOffset)).length =
      used - rightOffset := by
    apply length_slice_of_le
    rw [m.src.data.length_eq]
    omega
  have hstore := @Block.store_of_le _ m.dst.data 0
    (slice m.src.data.bytes rightOffset (used - rightOffset)) (by omega)
  rw [carve, if_neg (not_lt.mpr hright),
    InPlace.lift_bind_of_eq (checkedSub_of_le hright), if_neg (by omega),
    InPlace.lift_bind_of_eq (checkedSub_of_le (by omega)),
    InPlace.lift_bind_of_eq (checkedSub_of_le (by omega)),
    InPlace.bind_of_eq (InPlace.edit_apply_of_eq (by
      rw [hload, Checked.ok_bind, hstore, Checked.ok_bind]
      rfl)),
    InPlace.modify_bind]
  rfl

theorem guard_bind_of_neg {α : Type} {P : Prop} [Decidable P] (h : ¬P)
    (f : Unit → Option α) : (guard P : Option Unit).bind f = none := by
  simp [guard, h]

/-- The pages and the separator `btree_split_page` makes of a cut at `mid`. -/
def cutAt (src dst : BtreePage) (dstPageId : UInt32) (sepOutSize : ℕ)
    (isLeaf : Bool) (used mid : ℕ) : Option (BtreePage × BtreePage × Bytes) := do
  let sepOffset ← Storage.entryOffset src (if isLeaf then mid - 1 else mid) used
  guard (sepOffset + kvPairSize ≤ used)
  guard (kvPairSize + src.kvKeyLength sepOffset ≤ used - sepOffset ∧
    src.kvKeyLength sepOffset ≤ sepOutSize)
  let splitOffset ← Storage.entryOffset src mid used
  guard (splitOffset ≤ used)
  guard (isLeaf ∨ src.pairSize splitOffset ≤ used - splitOffset)
  let rightOffset :=
    if isLeaf then splitOffset else splitOffset + src.pairSize splitOffset
  guard (rightOffset ≤ used)
  guard (used - rightOffset ≤ btreePageCapacity)
  return (
    { src with
      header :=
        { src.header with
          nextPageId :=
            if isLeaf then dstPageId else src.kvChildPageId splitOffset
          keyCount := UInt16.ofNat mid
          freeSpace := UInt16.ofNat (btreePageCapacity - splitOffset) } },
    { header :=
        { dst.header with
          pageId := dstPageId
          pageType := src.header.pageType
          keyCount := UInt16.ofNat (if isLeaf then src.keyCount - mid else src.keyCount - mid - 1)
          freeSpace := UInt16.ofNat (btreePageCapacity - (used - rightOffset))
          nextPageId := src.header.nextPageId }
      data := dst.data.blit 0 (slice src.data.bytes rightOffset (used - rightOffset)) },
    src.kvKey sepOffset)

theorem btreeSplitPage_eq_cutAt (src dst : BtreePage) (dstPageId : UInt32) (sepOutSize : ℕ) :
    Storage.btreeSplitPage src dst dstPageId sepOutSize = (do
      let isLeaf := src.header.pageType == pageTypeLeaf
      let used ← Storage.btreeUsedBytes src
      guard ((if isLeaf then 2 else 1) ≤ src.keyCount)
      let mid ← Storage.chooseSplitIndex src used
      guard (mid < src.keyCount)
      cutAt src dst dstPageId sepOutSize isLeaf used mid) := by
  rw [Storage.btreeSplitPage]
  cases hleaf : src.header.pageType == pageTypeLeaf with
  | false => rfl
  | true => rfl

theorem splitAt_eq {isLeaf : Bool} (hused : used ≤ btreePageCapacity)
    (hmid : mid < m.src.keyCount) :
    ∃ rc m', splitAt dstPageId isLeaf used mid m = .ok (rc, m') ∧ SplitVerdict m rc m'
        (cutAt m.src m.dst dstPageId n isLeaf used mid) := by
  have hfail : ∃ rc m', (.ok (-1, m) : Checked (ℤ × SplitMemory n)) =
      .ok (rc, m') ∧ SplitVerdict m rc m' none := ⟨-1, m, rfl, rfl, rfl, rfl⟩
  rw [splitAt, InPlace.get_bind, cutAt, InPlace.lift_bind_of_eq (entryOffset_eq hused _)]
  simp only [Option.bind_eq_bind]
  cases hsep : Storage.entryOffset m.src (if isLeaf = true then mid - 1 else mid) used with
  | none => exact hfail
  | some sepOffset =>
  rw [Option.bind_some]
  dsimp only
  by_cases hroom : used < sepOffset + kvPairSize
  · rw [if_pos hroom, guard_bind_of_neg (not_le.mpr hroom)]
    exact hfail
  rw [if_neg hroom, guard_bind_of_pos (not_lt.mp hroom),
    InPlace.lift_bind_of_eq (kvKeyLength_eq (by omega)),
    InPlace.lift_bind_of_eq (checkedSub_of_le (by omega))]
  by_cases hkey : used - sepOffset <
      kvPairSize + m.src.kvKeyLength sepOffset ∨ n < m.src.kvKeyLength sepOffset
  · rw [if_pos hkey, guard_bind_of_neg (by omega)]
    exact hfail
  rw [if_neg hkey, guard_bind_of_pos (by omega)]
  have hload : m.src.data.load (sepOffset + kvPairSize)
      (m.src.kvKeyLength sepOffset) = .ok (m.src.kvKey sepOffset) := Block.load_of_le (by omega)
  have hlen : (m.src.kvKey sepOffset).length = m.src.kvKeyLength sepOffset := by
    apply length_slice_of_le
    rw [m.src.data.length_eq]
    omega
  have hstore := @Block.store_of_le _ m.sepOut 0 (m.src.kvKey sepOffset) (by omega)
  rw [InPlace.bind_of_eq (InPlace.edit_apply_of_eq (by
      rw [hload, Checked.ok_bind, hstore, Checked.ok_bind]
      rfl)),
    InPlace.lift_bind_of_eq (entryOffset_eq hused _)]
  cases hsplit : Storage.entryOffset m.src mid used with
  | none => exact ⟨-1, _, rfl, rfl, rfl, rfl⟩
  | some splitOffset =>
  have hsplitLe := entryOffset_le hsplit
  rw [Option.bind_some, guard_bind_of_pos hsplitLe]
  dsimp only
  rw [if_neg (not_lt.mpr hsplitLe)]
  cases isLeaf with
  | true =>
    rw [if_pos rfl, InPlace.lift_bind_of_eq (checkedSub_of_le hmid.le),
      carve_eq hused hsplitLe hsplitLe, guard_bind_of_pos (.inl rfl)]
    simp only [if_true]
    rw [guard_bind_of_pos hsplitLe, guard_bind_of_pos (by omega)]
    exact ⟨0, _, rfl, rfl, rfl, rfl, rfl, hlen.symm⟩
  | false =>
    -- The separator of an internal page is the pair at the cut itself.
    have hsame : splitOffset = sepOffset := by
      rw [if_neg Bool.false_ne_true, hsplit] at hsep
      exact Option.some.inj hsep
    rw [if_neg Bool.false_ne_true, InPlace.lift_bind_of_eq (pairSize_eq (by omega)),
      InPlace.lift_bind_of_eq (checkedSub_of_le hsplitLe)]
    by_cases hpair : used - splitOffset < m.src.pairSize splitOffset
    · rw [if_pos hpair, guard_bind_of_neg (by
        simp only [Bool.false_eq_true, false_or]
        omega)]
      exact ⟨-1, _, rfl, rfl, rfl, rfl⟩
    rw [if_neg hpair, guard_bind_of_pos (.inr (not_lt.mp hpair)),
      InPlace.lift_bind_of_eq (kvChildPageId_eq (by omega)),
      InPlace.lift_bind_of_eq (checkedSub_of_le hmid), carve_eq hused hsplitLe (by omega)]
    simp only [Bool.false_eq_true, if_false]
    rw [guard_bind_of_pos (by omega), guard_bind_of_pos (by omega)]
    exact ⟨0, _, rfl, rfl, rfl, by rw [Nat.sub_sub], rfl, hlen.symm⟩

theorem btreeSplitPage_eq (m : SplitMemory n) (dstPageId : UInt32) :
    ∃ rc m', btreeSplitPage dstPageId m = .ok (rc, m') ∧ SplitVerdict m rc m'
        (Storage.btreeSplitPage m.src m.dst dstPageId n) := by
  have hfail : ∃ rc m', (.ok (-1, m) : Checked (ℤ × SplitMemory n)) =
      .ok (rc, m') ∧ SplitVerdict m rc m' none := ⟨-1, m, rfl, rfl, rfl, rfl⟩
  rw [btreeSplitPage, InPlace.get_bind, btreeSplitPage_eq_cutAt,
    InPlace.lift_bind_of_eq btreeUsedBytes_eq]
  simp only [Option.bind_eq_bind]
  cases hused : Storage.btreeUsedBytes m.src with
  | none => exact hfail
  | some used =>
  have hle : used ≤ btreePageCapacity := by
    rw [Storage.btreeUsedBytes] at hused
    split at hused
    · cases hused
    · cases hused
      exact Nat.sub_le _ _
  rw [Option.bind_some]
  dsimp only
  by_cases hcount : m.src.keyCount <
      if (m.src.header.pageType == pageTypeLeaf) = true then 2 else 1
  · rw [if_pos hcount, guard_bind_of_neg (not_le.mpr hcount)]
    exact hfail
  rw [if_neg hcount, guard_bind_of_pos (not_lt.mp hcount),
    InPlace.lift_bind_of_eq (chooseSplitIndex_eq hle)]
  cases hmid : Storage.chooseSplitIndex m.src used with
  | none => exact hfail
  | some mid =>
  rw [Option.bind_some]
  dsimp only
  by_cases hlast : m.src.keyCount ≤ mid
  · rw [if_pos hlast, guard_bind_of_neg (not_lt.mpr hlast)]
    exact hfail
  rw [if_neg hlast, guard_bind_of_pos (not_le.mp hlast)]
  exact splitAt_eq hle (not_le.mp hlast)

end Split

/-! ## Arbitrary page images -/

/-- Whatever the counts and lengths of a page say, the page routines stay
inside the data area and the separator buffer, no size wraps around, every loop
ends, and a routine that returns `-1` leaves its page as it was. -/
theorem page_routines_never_fault (page dst : BtreePage) (dstPageId : UInt32)
    (sepOut : Block maxKeySize) (sepLen : ℕ) :
    (∀ index, ∃ kv, getKvPair page index = .ok kv) ∧
    (∀ key, ∃ position, findKeyPosition page key = .ok position) ∧
    (∀ position key value childPageId, ∃ rc page',
      insertKvPair position key value childPageId page = .ok (rc, page') ∧
        (rc = 0 ∨ rc = -1 ∧ page' = page)) ∧
    (∀ position, ∃ rc page', deleteKvPair position page = .ok (rc, page') ∧
      (rc = 0 ∨ rc = -1 ∧ page' = page)) ∧
    ∃ rc m', btreeSplitPage dstPageId ⟨page, dst, sepOut, sepLen⟩ =
        .ok (rc, m') ∧ (rc = 0 ∨ rc = -1 ∧ m'.src = page) := by
  have hverdict : ∀ result, (verdict page result).1 = 0 ∨
      (verdict page result).1 = -1 ∧ (verdict page result).2 = page := by
    intro result
    cases result with
    | none => exact .inr ⟨rfl, rfl⟩
    | some page' => exact .inl rfl
  refine ⟨fun index => ⟨_, getKvPair_eq index⟩, fun key => ⟨_, findKeyPosition_eq key⟩, ?_, ?_, ?_⟩
  · intro position key value childPageId
    exact ⟨_, _, insertKvPair_eq page position key value childPageId, hverdict _⟩
  · intro position
    exact ⟨_, _, deleteKvPair_eq page position, hverdict _⟩
  · obtain ⟨rc, m', hrun, hsplit⟩ := btreeSplitPage_eq ⟨page, dst, sepOut, sepLen⟩ dstPageId
    refine ⟨rc, m', hrun, ?_⟩
    cases hresult : Storage.btreeSplitPage page dst dstPageId maxKeySize with
    | none =>
      rw [hresult] at hsplit
      exact .inr ⟨hsplit.1, hsplit.2.1⟩
    | some result =>
      rw [hresult] at hsplit
      exact .inl hsplit.1

/-! ## Well-formed pages -/

theorem exists_verdict {run : Checked (ℤ × BtreePage)}
    {result : Option BtreePage} {Good : Prop} {Q : BtreePage → Prop}
    (hrun : run = .ok (verdict page result)) (hgood : Good → ∃ page', result = some page' ∧ Q page')
    (hbad : ¬Good → result = none) :
    ∃ rc page', run = .ok (rc, page') ∧ (rc = 0 ↔ Good) ∧
      (rc = 0 → Q page') ∧ (rc ≠ 0 → rc = -1 ∧ page' = page) := by
  by_cases h : Good
  · obtain ⟨page', rfl, hQ⟩ := hgood h
    exact ⟨0, page', hrun, iff_of_true rfl h, fun _ => hQ, fun hne => absurd rfl hne⟩
  · have hcode : (-1 : ℤ) ≠ 0 := by decide
    rw [hbad h] at hrun
    exact ⟨-1, page, hrun, iff_of_false hcode h,
      fun hzero => absurd hzero hcode, fun _ => ⟨rfl, rfl⟩⟩

/-- On the bytes of a page that holds `ps`, an insert puts the pair at its
position exactly when it fits, a delete takes out the pair at its position
exactly when there is one, and pair `i` is read where it stands. -/
theorem page_edits_are_list_edits {page : BtreePage} {ps : List KvPair}
    (h : Holds page ps) :
    (∀ position p, position ≤ page.keyCount → ∃ rc page',
      insertKvPair position p.key p.value p.child page = .ok (rc, page') ∧
        (rc = 0 ↔ p.size ≤ page.freeSpace) ∧
        (rc = 0 → Holds page' (ps.take position ++ p :: ps.drop position)) ∧
        (rc ≠ 0 → rc = -1 ∧ page' = page)) ∧
    (∀ position : ℤ, ∃ rc page',
      deleteKvPair position page = .ok (rc, page') ∧
        (rc = 0 ↔ 0 ≤ position ∧ position < page.keyCount) ∧
        (rc = 0 → Holds page'
          (ps.take position.toNat ++ ps.drop (position.toNat + 1))) ∧
        (rc ≠ 0 → rc = -1 ∧ page' = page)) ∧
    ∀ (i : ℕ) p, ps[i]? = some p →
      ∃ kv, getKvPair page i = .ok (some kv) ∧ page.readPair kv = p := by
  have hcount := h.keyCount
  refine ⟨?_, ?_, ?_⟩
  · intro position p hposition
    refine exists_verdict (insertKvPair_eq page position p.key p.value p.child) ?_ ?_
    · intro hroom
      have hsize : p.size = 8 + p.key.length + p.value.length := rfl
      have hfree := h.freeSpace
      rw [btreePageCapacity_eq] at hfree
      have hsplit : Holds page (ps.take position ++ ps.drop position) := by rwa [take_append_drop]
      obtain ⟨page', hrun, hholds, -⟩ := hsplit.exists_insertKvPair ⟨by omega, by omega⟩ hroom
      rw [length_take, Nat.min_eq_left (by omega)] at hrun
      exact ⟨page', hrun, hholds⟩
    · intro hfull
      exact insertKvPair_eq_none position (not_le.mp hfull)
  · intro position
    refine exists_verdict (deleteKvPair_eq page position) ?_ ?_
    · rintro ⟨hnonneg, hlt⟩
      have hindex : position.toNat < ps.length := by omega
      have hsplit : Holds page (ps.take position.toNat ++ ps[position.toNat] ::
            ps.drop (position.toNat + 1)) := by
        rwa [← drop_eq_getElem_cons hindex, take_append_drop]
      obtain ⟨page', hrun, hholds, -⟩ := hsplit.exists_deleteKvPair
      rw [length_take, Nat.min_eq_left hindex.le, Int.toNat_of_nonneg hnonneg] at hrun
      exact ⟨page', hrun, hholds⟩
    · intro hout
      rw [Storage.deleteKvPair, Option.bind_eq_bind, guard_bind_of_neg hout]
  · intro i p hp
    obtain ⟨hi, rfl⟩ := List.getElem?_eq_some_iff.mp hp
    obtain ⟨xs, q, ys, hps, hlen, hget, hat⟩ := h.exists_getKvPair hi
    refine ⟨_, (getKvPair_eq _).trans (congrArg _ hget), ?_⟩
    rw [hat.readPair]
    subst hps hlen
    simp

theorem page_edits_are_list_edits_one_pair :
    let ps : List KvPair := [⟨[98], [2, 3], 0⟩]
    ∃ page', insertKvPair 0 [97] [1] 5 (pageOf pageTypeLeaf ps) =
        .ok (0, page') ∧ Holds page' (⟨[97], [1], 5⟩ :: ps) := by
  intro ps
  have hholds : Holds (pageOf pageTypeLeaf ps) ps :=
    holds_pageOf pageTypeLeaf (by decide) (by decide)
  obtain ⟨rc, page', hrun, hzero, hpage, -⟩ :=
    (page_edits_are_list_edits hholds).1 0 ⟨[97], [1], 5⟩ (Nat.zero_le _)
  obtain rfl := hzero.mpr (by decide)
  exact ⟨page', hrun, hpage rfl⟩

end Codo.Storage.Memory
