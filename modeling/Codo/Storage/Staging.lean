import Codo.Storage.Db
import Codo.Storage.PageMemory
import Codo.Storage.Pager

/-!
# Staging log payloads

`db_insert` and `db_delete_locked` put the payload of their log record together
in an array on the stack.  Both arrays are sized for a full key and a full
value.  `db_insert` checks the lengths it was given; `db_delete_locked` takes
the length of the old value from the page, which may hold a longer one.
-/

namespace Codo.Storage

open Support List

/-- The size of `wal_data` in `db_insert`. -/
def insertWalCapacity : ℕ := maxKeySize + maxValueSize + 8 * 2

/-- The size of `wal_data` in `db_delete_locked`. -/
def deleteWalCapacity : ℕ := maxKeySize + maxValueSize + 8 + 2

/-- `db_insert` fills `wal_data`. -/
def stageInsert (walData : Block insertWalCapacity) (key value : Bytes) :
    Checked (Block insertWalCapacity × ℕ) :=
  Block.stage [leBytes 8 key.length, leBytes 8 value.length, key, value] walData 0

/-- `db_delete_locked` fills `wal_data` for the record at `kv`. -/
def stageDelete (walData : Block deleteWalCapacity) (page : BtreePage)
    (key : Bytes) (kv : ℕ) : Checked (Block deleteWalCapacity × ℕ) := do
  let oldValueLength ← Memory.kvValueLength page kv
  let keyLength ← Memory.kvKeyLength page kv
  let oldValue ← page.data.load (kv + kvPairSize + keyLength) oldValueLength
  Block.stage [leBytes 8 key.length, leBytes 2 oldValueLength, key, oldValue] walData 0

/-- Deleting `key` from `page` keeps the payload inside `wal_data`. -/
def DeleteStagingFits (page : BtreePage) (key : Bytes) : Prop :=
  ∀ kv walData, matchingEntry page (findKeyPosition page key) key = some kv →
    ∃ walData' walSize, stageDelete walData page key kv =
      .ok (walData', walSize) ∧ walSize ≤ deleteWalCapacity

section

variable {page : BtreePage} {key : Bytes} {pos : ℤ} {kv : ℕ}

/-- The record a key names lies inside the data area and has that key. -/
theorem matchingEntry_bound (h : matchingEntry page pos key = some kv) :
    kv + page.pairSize kv ≤ btreePageCapacity ∧ key = page.kvKey kv := by
  rw [matchingEntry] at h
  cases hget : getKvPair page pos with
  | none =>
    rw [hget] at h
    cases h
  | some kv' =>
    rw [hget] at h
    dsimp only at h
    split at h
    case isTrue hsame =>
      cases h
      exact ⟨Memory.getKvPair_bound hget, (compareKeys_eq_zero_iff _ _).mp hsame⟩
    case isFalse => cases h

theorem stageDelete_eq (walData : Block deleteWalCapacity)
    (h : kv + page.pairSize kv ≤ btreePageCapacity) :
    stageDelete walData page key kv =
      Block.stage [leBytes 8 key.length, leBytes 2 (page.kvValueLength kv), key,
        page.kvValue kv] walData 0 := by
  have hsize : page.pairSize kv = kvPairSize + page.kvKeyLength kv + page.kvValueLength kv := rfl
  have hvalue : Memory.kvValueLength page kv = .ok (page.kvValueLength kv) := by
    rw [Memory.kvValueLength, Block.load_of_le (by
      simp only [kvPairSize] at hsize
      omega)]
    rfl
  rw [stageDelete, hvalue, Checked.ok_bind, Memory.kvKeyLength_eq (by omega),
    Checked.ok_bind, Block.load_of_le (by omega), Checked.ok_bind]
  rfl

theorem length_staged (h : kv + page.pairSize kv ≤ btreePageCapacity) (hkey : key = page.kvKey kv) :
    [leBytes 8 key.length, leBytes 2 (page.kvValueLength kv), key, page.kvValue kv].flatten.length =
      10 + (page.kvKeyLength kv + page.kvValueLength kv) := by
  have hkeyLength := Memory.length_kvKey h
  have hvalueLength := Memory.length_kvValue h
  rw [← hkey] at hkeyLength
  simp only [flatten_cons, flatten_nil, length_append,
    length_leBytes, length_nil, hkeyLength, hvalueLength]
  omega

/-- A payload that is too long is written past the end of `wal_data`. -/
theorem stageDelete_outside (walData : Block deleteWalCapacity)
    (h : matchingEntry page pos key = some kv) (hlong : maxKeySize + maxValueSize <
      page.kvKeyLength kv + page.kvValueLength kv) :
    stageDelete walData page key kv = .error .outside := by
  obtain ⟨hbound, hkey⟩ := matchingEntry_bound h
  rw [stageDelete_eq walData hbound]
  apply Block.stage_of_lt (Nat.zero_le _)
  rw [length_staged hbound hkey, deleteWalCapacity]
  omega

end

/-- The payload of a delete stays inside its array exactly when the record
stored under the key is no longer than a full key and a full value.  The
payload of an insert always does. -/
theorem wal_staging_fits_iff (page : BtreePage) (key : Bytes) :
    (DeleteStagingFits page key ↔
      ∀ kv, matchingEntry page (findKeyPosition page key) key = some kv →
        page.kvKeyLength kv + page.kvValueLength kv ≤
          maxKeySize + maxValueSize) ∧
    ∀ value walData, key.length ≤ maxKeySize → value.length ≤ maxValueSize →
      ∃ walData' walSize, stageInsert walData key value =
        .ok (walData', walSize) ∧ walSize ≤ insertWalCapacity := by
  refine ⟨⟨?_, ?_⟩, ?_⟩
  · intro hfits kv hentry
    by_contra hlong
    obtain ⟨_, _, hrun, -⟩ := hfits kv (Block.zero _) hentry
    rw [stageDelete_outside _ hentry (not_le.mp hlong)] at hrun
    cases hrun
  · intro hshort kv walData hentry
    have hle := hshort kv hentry
    obtain ⟨hbound, hkey⟩ := matchingEntry_bound hentry
    have hlength := length_staged hbound hkey
    have hroom : 0 + [leBytes 8 key.length, leBytes 2 (page.kvValueLength kv),
        key, page.kvValue kv].flatten.length ≤ deleteWalCapacity := by
      rw [hlength, deleteWalCapacity]
      omega
    exact ⟨_, _, (stageDelete_eq walData hbound).trans (Block.stage_of_le hroom), hroom⟩
  · intro value walData hkey hvalue
    have hroom : 0 + [leBytes 8 key.length, leBytes 8 value.length, key,
        value].flatten.length ≤ insertWalCapacity := by
      simp only [flatten_cons, flatten_nil, length_append,
        length_leBytes, length_nil, insertWalCapacity]
      omega
    exact ⟨_, _, Block.stage_of_le hroom, hroom⟩

theorem wal_staging_fits_iff_pair : ∃ walData' walSize,
    stageInsert (Block.zero _) [107] [118] = .ok (walData', walSize) ∧
      walSize ≤ insertWalCapacity :=
  (wal_staging_fits_iff (pageOf pageTypeLeaf []) [107]).2 [118] (Block.zero _)
    (by decide) (by decide)

theorem Holds.matchingEntry_self {page : BtreePage} {xs ys : List KvPair}
    {p : KvPair} (h : Holds page (xs ++ p :: ys)) (hsorted : SortedPairs (xs ++ p :: ys)) :
    matchingEntry page (findKeyPosition page p.key) p.key = some (totalSize xs) := by
  have hparts := pairwise_append.mp hsorted
  have hbound : lowerBound (xs ++ p :: ys) p.key = xs.length := by
    apply lowerBound_append
    · intro q hq
      exact hparts.2.2 q hq p (by simp)
    · intro q hq
      rcases mem_cons.mp hq with rfl | hq
      · exact le_rfl
      · exact ((pairwise_cons.mp hparts.2.1).1 q hq).le
  rw [h.findKeyPosition_eq hsorted, hbound, matchingEntry, h.getKvPair]
  dsimp only
  rw [h.pairAt.kvKey, if_pos ((compareKeys_eq_zero_iff _ _).mpr rfl)]

/-- A leaf with one record of 1281 bytes: every check of `get_page` and of the
page routines accepts it, and deleting the record writes past the end of
`wal_data`. -/
theorem wal_staging_overflows_on_long_value :
    let page := pageOf pageTypeLeaf [⟨[107], List.replicate 1280 0, 0⟩]
    page.header.pageType = pageTypeLeaf ∧
      (∀ crc, page.ChecksumValid crc) ∧
      matchingEntry page (findKeyPosition page [107]) [107] = some 0 ∧
      ∀ walData, stageDelete walData page [107] 0 = .error .outside := by
  intro page
  have hholds : Holds page ([] ++ ⟨[107], List.replicate 1280 0, 0⟩ :: []) := by
    apply holds_pageOf
    · intro p hp
      rw [mem_singleton.mp hp]
      simp only [KvPair.Fits, length_replicate, length_singleton]
      decide
    · simp only [totalSize_cons, totalSize_nil, KvPair.size, length_replicate, length_singleton]
      decide
  have hentry := hholds.matchingEntry_self (pairwise_singleton _ _)
  refine ⟨rfl, fun crc => .inl rfl, hentry, ?_⟩
  intro walData
  apply stageDelete_outside walData hentry
  have hat := hholds.pairAt
  rw [hat.kvKeyLength, hat.kvValueLength, length_replicate]
  decide

end Codo.Storage
