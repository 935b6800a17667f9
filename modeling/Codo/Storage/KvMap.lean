import Codo.Storage.Scan
import Codo.Support.SortedMap

/-!
# The store as a sorted map

For its callers the engine is a map from keys to values, in the order of the
keys, whose pairs have the sizes `db_insert` accepts.  `KvMap` is that map with
its calls.  A tree holds a `KvMap`, and each call on the tree either does what
the call on the map does, or is refused.
-/

namespace Codo.Storage

open Support List

/-- The pairs stored, in the order of their keys. -/
structure KvMap where
  map : SortedMap Bytes Bytes
  legal : ∀ e ∈ map.entries, LegalSizes e.1 e.2

namespace KvMap

def empty : KvMap where
  map := SortedMap.empty
  legal := by simp [SortedMap.empty]

def get? (db : KvMap) (key : Bytes) : Option Bytes :=
  db.map.get? key

/-- `db_insert`: the return code and the store. -/
def insert (db : KvMap) (key value : Bytes) : ℤ × KvMap :=
  if h : LegalSizes key value ∧ db.get? key = none then
    (0, { map := db.map.insert key value
          legal := by
            intro e he
            rcases SortedMap.mem_insert_entries.mp he with rfl | ⟨-, hmem⟩
            · exact h.1
            · exact db.legal e hmem })
  else (-1, db)

/-- `db_delete`: the return code and the store. -/
def delete (db : KvMap) (key : Bytes) : ℤ × KvMap :=
  if db.get? key = none then (-1, db)
  else
    (0, { map := db.map.erase key
          legal := fun e he => db.legal e (SortedMap.mem_erase_entries.mp he).2 })

/-- The pairs `db_scan_prefix` shows to its callback, in order. -/
def scan (db : KvMap) (pfx : Bytes) : List (Bytes × Bytes) :=
  db.map.entries.filter fun e => startsWith pfx e.1

/-- `db'` is `db` with `entry` in the place of what was stored for `key`. -/
def Sets (db : KvMap) (key : Bytes) (entry : Option Bytes) (db' : KvMap) : Prop :=
  ∀ key', db'.get? key' = if key' = key then entry else db.get? key'

variable {db db' : KvMap} {key key' value : Bytes}

theorem Sets.get?_self {entry : Option Bytes} (h : db.Sets key entry db') :
    db'.get? key = entry := by
  rw [h, if_pos rfl]

theorem Sets.get?_of_ne {entry : Option Bytes} (h : db.Sets key entry db')
    (hne : key' ≠ key) : db'.get? key' = db.get? key' := by
  rw [h, if_neg hne]

theorem ext_get? (h : ∀ key, db.get? key = db'.get? key) : db = db' := by
  cases db
  cases db'
  congr 1
  exact SortedMap.ext_get? h

theorem get?_eq_some_iff : db.get? key = some value ↔ (key, value) ∈ db.map.entries :=
  SortedMap.get?_eq_some_iff

theorem length_le_of_get? (h : db.get? key = some value) : value.length ≤ maxValueSize :=
  (db.legal _ (get?_eq_some_iff.mp h)).2.2

theorem Sets.trans {db'' : KvMap} {entry entry' : Option Bytes}
    (h : db.Sets key entry db') (h' : db'.Sets key entry' db'') : db.Sets key entry' db'' := by
  intro key'
  rw [h']
  split
  next => rfl
  next hne => exact h.get?_of_ne hne

theorem Sets.eq_self (h : db.Sets key (db.get? key) db') : db' = db := by
  apply ext_get?
  intro key'
  rw [h]
  split
  next heq => rw [heq]
  next => rfl

theorem take_get? (db : KvMap) (key : Bytes) :
    (db.get? key).map (fun value => value.take maxValueSize) = db.get? key := by
  cases hget : db.get? key with
  | none => rfl
  | some value => rw [Option.map_some, take_of_length_le (length_le_of_get? hget)]

theorem insert_of_absent (hlegal : LegalSizes key value)
    (hnone : db.get? key = none) : (db.insert key value).1 = 0 ∧
      db.Sets key (some value) (db.insert key value).2 := by
  rw [insert, dif_pos ⟨hlegal, hnone⟩]
  refine ⟨rfl, fun key' => (SortedMap.get?_insert _ _ _ _).trans ?_⟩
  congr

theorem insert_of_stored (h : db.get? key ≠ none) : db.insert key value = (-1, db) := by
  rw [insert, dif_neg fun hok => h hok.2]

theorem insert_eq_zero (h : (db.insert key value).1 = 0) :
    LegalSizes key value ∧ db.get? key = none ∧
      db.Sets key (some value) (db.insert key value).2 := by
  by_cases hok : LegalSizes key value ∧ db.get? key = none
  · exact ⟨hok.1, hok.2, (insert_of_absent hok.1 hok.2).2⟩
  · rw [insert, dif_neg hok] at h
    cases h

theorem delete_of_stored (h : db.get? key ≠ none) :
    (db.delete key).1 = 0 ∧ db.Sets key none (db.delete key).2 := by
  rw [delete, if_neg h]
  refine ⟨rfl, fun key' => (SortedMap.get?_erase _ _ _).trans ?_⟩
  congr

theorem delete_of_absent (h : db.get? key = none) : db.delete key = (-1, db) := by
  rw [delete, if_pos h]

theorem delete_eq_zero (h : (db.delete key).1 = 0) :
    db.get? key ≠ none ∧ db.Sets key none (db.delete key).2 := by
  by_cases hnone : db.get? key = none
  · rw [delete_of_absent hnone] at h
    cases h
  · exact ⟨hnone, (delete_of_stored hnone).2⟩

theorem mem_scan {pfx : Bytes} {e : Bytes × Bytes} : e ∈ db.scan pfx ↔
    db.get? e.1 = some e.2 ∧ startsWith pfx e.1 = true := by
  rw [scan, mem_filter, get?_eq_some_iff]

theorem scan_sorted (db : KvMap) (pfx : Bytes) : (db.scan pfx).Pairwise fun a b => a.1 < b.1 :=
  db.map.sorted.filter _

theorem startsWith_nil (key : Bytes) : startsWith [] key = true :=
  startsWith_iff.mpr ⟨key, rfl⟩

/-- One call on the map. -/
def step (db : KvMap) : DbOp → DbReply × KvMap
  | .insert _ key value => (.code (db.insert key value).1, (db.insert key value).2)
  | .search _ key capacity =>
    (.found ((db.get? key).map fun value => (value.length, value.take capacity)), db)
  | .delete _ key => (.code (db.delete key).1, (db.delete key).2)

theorem mapStep_get? (db : KvMap) (op : DbOp) :
    mapStep db.get? op = ((db.step op).1, (db.step op).2.get?) := by
  cases op with
  | insert txnId key value =>
    rw [mapStep, step]
    split
    next hok =>
      obtain ⟨hrc, hget⟩ := insert_of_absent hok.1 hok.2
      rw [hrc]
      congr 1
      funext key'
      rw [hget, Function.update_apply]
    next hbad => rw [insert, dif_neg hbad]
  | search txnId key capacity => rfl
  | delete txnId key =>
    rw [mapStep, step]
    split
    next hnone => rw [delete_of_absent hnone]
    next hsome =>
      obtain ⟨hrc, hget⟩ := delete_of_stored hsome
      rw [hrc]
      congr 1
      funext key'
      rw [hget, Function.update_apply]

end KvMap

namespace Tree

variable {s : Store} {h : ℕ} {L : Slots}

theorem legal_of_mem (ht : Tree s h L) {p : KvPair} (hp : p ∈ s.pairsOf L) :
    LegalSizes p.key p.value := by
  obtain ⟨slot, hslot, hmem⟩ := mem_flatMap.mp hp
  obtain ⟨page, hpage, hleaf⟩ := ht.leaves.leaf slot hslot
  rw [Store.leafPairs_eq hpage] at hmem
  exact hleaf.legal p hmem

/-- The map a tree holds. -/
def kvMap (ht : Tree s h L) : KvMap where
  map :=
    { entries := (s.pairsOf L).map fun p => (p.key, p.value)
      sorted := by
        rw [pairwise_map]
        exact ht.sorted }
  legal := by
    intro e he
    obtain ⟨p, hp, rfl⟩ := mem_map.mp he
    exact ht.legal_of_mem hp

theorem get?_kvMap (ht : Tree s h L) : ht.kvMap.get? = lookup (s.pairsOf L) := by
  funext key
  apply Option.ext
  intro value
  rw [KvMap.get?_eq_some_iff, ht.sorted.lookup_eq_some_iff]
  constructor
  · intro hmem
    obtain ⟨p, hp, hpair⟩ := mem_map.mp hmem
    obtain ⟨hkey, hvalue⟩ := Prod.mk.inj hpair
    exact ⟨p, hp, hkey, hvalue⟩
  · rintro ⟨p, hp, rfl, rfl⟩
    exact mem_map.mpr ⟨p, hp, rfl⟩

/-- A call on the tree answers and does what it does on the map, or it is
refused for want of a page. -/
theorem always_program_kvMap {F : Faults} {T : StoreRel} [StoreLike F T]
    (ht : Tree s h L) {rounds : ℕ} (hrounds : 9 ≤ rounds) (op : DbOp) :
    Program.Always T (op.program rounds) s fun reply s' =>
      (reply = some (ht.kvMap.step op).1 ∧
        ∃ h' L', ∃ ht' : Tree s' h' L', ht'.kvMap = (ht.kvMap.step op).2 ∧
          (Linked s L → Linked s' L')) ∨
      Refused F s h L s' op reply := by
  refine (ht.always_program hrounds op).mono ?_
  rintro reply s' (⟨hreply, -, -, h', L', ht', hlink, -, hmap⟩ | hrefused)
  · left
    rw [← ht.get?_kvMap, KvMap.mapStep_get?] at hreply hmap
    refine ⟨hreply, h', L', ht', ?_, hlink⟩
    apply KvMap.ext_get?
    intro key
    rw [ht'.get?_kvMap, hmap]
  · exact .inr hrefused

theorem always_program_kvMap_fresh :
    Program.Always (pageStep .none) (DbOp.program 9 (.insert 1 [7] [2]))
      (.fresh 0 0) fun r s' => r = some (.code 0) ∨
        Refused .none (.fresh 0 0) 0 rootSlots s' (.insert 1 [7] [2]) r :=
  ((tree_fresh 0 0).always_program_kvMap le_rfl _).mono fun _ _ h => h.imp_left And.left

/-- A scan of the tree shows its callback what the scan of the map lists. -/
theorem always_dbScanPrefix_kvMap {F : Faults} (ht : Tree s h L)
    (hlink : Linked s L) {pfx : Bytes} (hpfx : pfx.length ≤ maxKeySize)
    {rounds : ℕ} (hrounds : maxPages ≤ rounds) (txnId : UInt64) :
    Program.Always (pageStep F) (dbScanPrefix rounds (activeHandle txnId) pfx collectPairs []) s
      fun r s' => s' = s ∧ (F.pages = true ∨ r = some (0, ht.kvMap.scan pfx)) := by
  refine (ht.always_scanRange hlink (isSome_activeHandle txnId) hpfx
    (fun _ _ _ => rfl) hrounds []).mono ?_
  rintro r s' ⟨rfl, hF | rfl⟩
  · exact ⟨rfl, .inl hF⟩
  · refine ⟨rfl, .inr ?_⟩
    have hfeed : ∀ ps : List KvPair, feed collectPairs [] ps =
        ps.map fun p => (p.key, p.value) := by
      intro ps
      have hfold := foldl_collectPairs (ps.map fun p => (p.key, p.value)) []
      rw [foldl_map, nil_append] at hfold
      exact hfold
    rw [hfeed, matching, KvMap.scan, kvMap, filter_map]
    rfl

end Tree

end Codo.Storage
