import Codo.Api.TodoStore
import Codo.Support.SortedDiff
import Mathlib.Data.List.Sort
import Mathlib.Data.Prod.Lex

/-!
# Reconciling the owner index

`todo_index_reconcile`: one scan of the store collects the pairs of owner and id
that the rows call for and the pairs the index holds.  Both lists are sorted and
walked in lockstep; an entry is written for a pair only on the first list and
dropped for a pair only on the second.  The index may be used only if every
write succeeded.
-/

namespace Codo.Api

open Support Common Storage Program List Option KvMap

/-! ## Pairs of an owner and a todo -/

@[ext] structure OwnerPair where
  userId : UInt64
  todoId : UInt64
  deriving DecidableEq

def pairCompare (a b : OwnerPair) : ℤ :=
  if a.userId ≠ b.userId then
    if a.userId < b.userId then -1 else 1
  else if a.todoId ≠ b.todoId then
    if a.todoId < b.todoId then -1 else 1
  else 0

/-- Pairs by owner, then by id. -/
instance : LinearOrder OwnerPair :=
  LinearOrder.lift' (fun p => toLex (p.userId.toNat, p.todoId.toNat)) (by
    intro a b h
    obtain ⟨huser, htodo⟩ := Prod.mk.inj (toLex.injective h)
    exact OwnerPair.ext (UInt64.toNat_inj.mp huser) (UInt64.toNat_inj.mp htodo))

theorem OwnerPair.lt_iff {a b : OwnerPair} : a < b ↔ a.userId < b.userId ∨
    a.userId = b.userId ∧ a.todoId < b.todoId := by
  rw [UInt64.lt_iff_toNat_lt, UInt64.lt_iff_toNat_lt, ← UInt64.toNat_inj]
  exact Prod.Lex.toLex_lt_toLex

theorem pairCompare_eq_zero_iff (a b : OwnerPair) : pairCompare a b = 0 ↔ a = b := by
  rw [pairCompare, OwnerPair.ext_iff]
  split_ifs <;> simp_all

theorem pairCompare_neg_iff (a b : OwnerPair) : pairCompare a b < 0 ↔ a < b := by
  rw [pairCompare, OwnerPair.lt_iff]
  split_ifs <;> simp_all

/-- `qsort` by `pair_compare`.  Equal pairs are the same pair, so the order is
the only one possible. -/
def sortPairs (items : List OwnerPair) : List OwnerPair :=
  items.mergeSort fun a b => decide (pairCompare a b ≤ 0)

structure PairList where
  items : List OwnerPair
  capacity : ℕ

/-- `pair_list_push`.  The `n`-th `realloc` succeeds if `heap n`. -/
def PairList.push (heap : ℕ → Bool) (list : PairList) (reallocs : ℕ)
    (pair : OwnerPair) : Option (PairList × ℕ) :=
  if list.items.length = list.capacity then
    if heap reallocs then
      some (⟨list.items ++ [pair],
        if list.capacity ≠ 0 then list.capacity * 2 else 64⟩, reallocs + 1)
    else none
  else some (⟨list.items ++ [pair], list.capacity⟩, reallocs)

/-! ## The scan -/

/-- `reconcile_ctx_t`.  `indexed` is the list `have` of the source. -/
structure ReconcileCtx where
  wanted : PairList
  indexed : PairList
  maxTodoId : UInt64
  error : Bool
  reallocs : ℕ

def ReconcileCtx.zero : ReconcileCtx :=
  ⟨⟨[], 0⟩, ⟨[], 0⟩, 0, false, 0⟩

def reconcileScanCb (heap : ℕ → Bool) (key value : Bytes) (r : ReconcileCtx) : ℤ × ReconcileCtx :=
  match todoRowKeyParse key with
  | some todoId =>
    let maxTodoId := if r.maxTodoId < todoId then todoId else r.maxTodoId
    match todoOwner value with
    | none => (0, { r with maxTodoId := maxTodoId })
    | some userId =>
      match r.wanted.push heap r.reallocs ⟨userId, todoId⟩ with
      | none => (1, { r with maxTodoId := maxTodoId, error := true })
      | some (wanted, reallocs) =>
        (0, { r with
          maxTodoId := maxTodoId, wanted := wanted, reallocs := reallocs })
  | none =>
    match todoIndexKeyParse key with
    | none => (0, r)
    | some (userId, todoId) =>
      match r.indexed.push heap r.reallocs ⟨userId, todoId⟩ with
      | none => (1, { r with error := true })
      | some (indexed, reallocs) => (0, { r with indexed := indexed, reallocs := reallocs })

/-! ## The repair -/

structure RepairStats where
  inserted : ℕ
  deleted : ℕ
  failed : ℕ

/-- One write of the repair. -/
def applyEdit : Edit OwnerPair → TodoM ℤ
  | .add pair => todoIndexInsert pair.userId pair.todoId
  | .drop pair => todoIndexDelete pair.userId pair.todoId

/-- The tally after a write that returned `rc`. -/
def RepairStats.record (stats : RepairStats) (rc : ℤ) :
    Edit OwnerPair → RepairStats
  | .add _ =>
    if rc = 0 then { stats with inserted := stats.inserted + 1 }
    else { stats with failed := stats.failed + 1 }
  | .drop _ =>
    if rc = 0 then { stats with deleted := stats.deleted + 1 }
    else { stats with failed := stats.failed + 1 }

/-- The transaction of the repair, opened before the first write. -/
def openRepair (opened : Bool) : TodoM Bool :=
  if opened then pure true else beginTransaction

/-- The loop of `apply_index_repairs` over the pairs it does not skip. -/
def repairLoop : List (Edit OwnerPair) → Bool → RepairStats → TodoM (Bool × RepairStats)
  | [], opened, stats => pure (opened, stats)
  | edit :: edits, opened, stats => do
    let opened ← openRepair opened
    if opened then do
      let rc ← applyEdit edit
      repairLoop edits true (stats.record rc edit)
    else pure (false, { stats with failed := stats.failed + 1 })

/-- `apply_index_repairs` on the sorted lists. -/
def applyIndexRepairs (wanted indexed : List OwnerPair) : TodoM RepairStats := do
  let result ← repairLoop (sortedDiff pairCompare wanted indexed) false ⟨0, 0, 0⟩
  if result.1 then do
    commitTransaction
    pure result.2
  else pure result.2

/-- `todo_index_reconcile`: the return code and `*max_todo_id_out`. -/
def todoIndexReconcile (heap : ℕ → Bool) (maxTodoId : UInt64) :
    TodoM (ℤ × UInt64) := do
  setIndexReady false
  let txn ← beginTransaction
  if txn = false then pure (-1, maxTodoId)
  else do
    let shown ← dbScanPrefix []
    let scanned := scanWith (reconcileScanCb heap) shown.1 shown.2 .zero
    commitTransaction
    if scanned.1 ≠ 0 ∨ scanned.2.error = true then pure (-1, scanned.2.maxTodoId)
    else do
      let stats ← applyIndexRepairs (sortPairs scanned.2.wanted.items)
        (sortPairs scanned.2.indexed.items)
      if stats.failed ≠ 0 then pure (-1, scanned.2.maxTodoId)
      else do
        setIndexReady true
        pure (0, scanned.2.maxTodoId)

/-! ## What the scan collects -/

/-- The pair a row calls for. -/
def rowPair (e : Bytes × Bytes) : Option OwnerPair :=
  match todoRowKeyParse e.1 with
  | none => none
  | some todoId => (todoOwner e.2).map fun userId => ⟨userId, todoId⟩

/-- The pair of an index entry. -/
def entryPair (e : Bytes × Bytes) : Option OwnerPair :=
  (todoIndexKeyParse e.1).map fun p => ⟨p.1, p.2⟩

/-- The running maximum of the ids of row keys. -/
def raiseMax (maxTodoId : UInt64) (e : Bytes × Bytes) : UInt64 :=
  match todoRowKeyParse e.1 with
  | none => maxTodoId
  | some todoId => if maxTodoId < todoId then todoId else maxTodoId

theorem PairList.push_eq_some {heap : ℕ → Bool} {list list' : PairList}
    {reallocs reallocs' : ℕ} {pair : OwnerPair}
    (h : list.push heap reallocs pair = some (list', reallocs')) :
    list'.items = list.items ++ [pair] := by
  rw [PairList.push] at h
  split at h
  · split at h
    · obtain ⟨rfl, -⟩ := Prod.mk.inj (some.inj h)
      rfl
    · cases h
  · obtain ⟨rfl, -⟩ := Prod.mk.inj (some.inj h)
    rfl

/-- One call of the callback: it stops on an error, or it has recorded what the
pair calls for. -/
theorem reconcileScanCb_cases (heap : ℕ → Bool) (e : Bytes × Bytes) (r : ReconcileCtx) :
    ((reconcileScanCb heap e.1 e.2 r).1 = 1 ∧ (reconcileScanCb heap e.1 e.2 r).2.error = true) ∨
    ∃ r', reconcileScanCb heap e.1 e.2 r = (0, r') ∧ r'.error = r.error ∧
      r'.wanted.items = r.wanted.items ++ (rowPair e).toList ∧
      r'.indexed.items = r.indexed.items ++ (entryPair e).toList ∧
      r'.maxTodoId = raiseMax r.maxTodoId e := by
  rw [reconcileScanCb, rowPair, entryPair, raiseMax]
  cases hrow : todoRowKeyParse e.1 with
  | some todoId =>
    have hindex : todoIndexKeyParse e.1 = none := by
      cases hparse : todoIndexKeyParse e.1 with
      | none => rfl
      | some p =>
        rw [todoIndexKeyParse_eq_some_iff.mp hparse, todoRowKeyParse_todoIndexKey] at hrow
        cases hrow
    rw [hindex]
    cases howner : todoOwner e.2 with
    | none => exact .inr ⟨_, rfl, rfl, by simp, by simp, rfl⟩
    | some userId =>
      dsimp only
      cases hpush : r.wanted.push heap r.reallocs ⟨userId, todoId⟩ with
      | none => exact .inl ⟨rfl, rfl⟩
      | some pushed => exact .inr ⟨_, rfl, rfl, PairList.push_eq_some hpush, by simp, rfl⟩
  | none =>
    cases hindex : todoIndexKeyParse e.1 with
    | none => exact .inr ⟨_, rfl, rfl, by simp, by simp, rfl⟩
    | some p =>
      dsimp only
      cases hpush : r.indexed.push heap r.reallocs ⟨p.1, p.2⟩ with
      | none => exact .inl ⟨rfl, rfl⟩
      | some pushed => exact .inr ⟨_, rfl, rfl, by simp, PairList.push_eq_some hpush, rfl⟩

/-- A scan without an error has recorded what its pairs call for. -/
theorem scanWith_reconcile {heap : ℕ → Bool} {rc : ℤ} (es : List (Bytes × Bytes)) (r : ReconcileCtx)
    (herror : (scanWith (reconcileScanCb heap) rc es r).2.error = false) :
    (scanWith (reconcileScanCb heap) rc es r).1 = rc ∧
      (scanWith (reconcileScanCb heap) rc es r).2.wanted.items =
        r.wanted.items ++ es.filterMap rowPair ∧
      (scanWith (reconcileScanCb heap) rc es r).2.indexed.items =
        r.indexed.items ++ es.filterMap entryPair ∧
      (scanWith (reconcileScanCb heap) rc es r).2.maxTodoId = es.foldl raiseMax r.maxTodoId := by
  induction es generalizing r with
  | nil => simp [scanWith]
  | cons e es ih =>
    rw [scanWith] at herror ⊢
    rcases reconcileScanCb_cases heap e r with
      ⟨hstop, hfailed⟩ | ⟨r', hcb, -, hwanted, hindexed, hmax⟩
    · rw [hstop, if_pos (by decide), hfailed] at herror
      exact absurd herror (by decide)
    · rw [hcb] at herror ⊢
      rw [if_neg (by simp)] at herror ⊢
      obtain ⟨hrc, hw, hi, hm⟩ := ih r' herror
      refine ⟨hrc, ?_, ?_, ?_⟩
      · rw [hw, hwanted, append_assoc, filterMap_cons]
        cases rowPair e <;> simp
      · rw [hi, hindexed, append_assoc, filterMap_cons]
        cases entryPair e <;> simp
      · rw [hm, hmax]
        rfl

/-! ## Rows and entries of a store -/

/-- A row calls for the pair. -/
def HasRow (db : KvMap) (pair : OwnerPair) : Prop :=
  ∃ key value, db.get? key = some value ∧ rowPair (key, value) = some pair

/-- The index has an entry for the pair. -/
def HasEntry (db : KvMap) (pair : OwnerPair) : Prop :=
  db.get? (todoIndexKey pair.userId pair.todoId) ≠ none

/-- The pairs the index has entries for. -/
def entrySet (db : KvMap) : Set OwnerPair :=
  {pair | HasEntry db pair}

/-- The stores differ in index entries only. -/
def SameRows (db db' : KvMap) : Prop :=
  ∀ key, todoIndexKeyParse key = none → db'.get? key = db.get? key

section Stores

variable {db db' : KvMap} {pair : OwnerPair}

theorem rowPair_eq_some_iff {e : Bytes × Bytes} : rowPair e = some pair ↔
    todoRowKeyParse e.1 = some pair.todoId ∧ todoOwner e.2 = some pair.userId := by
  rw [rowPair]
  cases hrow : todoRowKeyParse e.1 with
  | none => simp
  | some todoId =>
    cases howner : todoOwner e.2 with
    | none => simp
    | some userId =>
      simp only [map_some, some_inj, OwnerPair.ext_iff]
      exact and_comm

theorem entryPair_eq_some_iff {e : Bytes × Bytes} : entryPair e = some pair ↔
    e.1 = todoIndexKey pair.userId pair.todoId := by
  rw [entryPair, map_eq_some_iff, ← todoIndexKeyParse_eq_some_iff]
  constructor
  · rintro ⟨p, hp, rfl⟩
    exact hp
  · intro h
    exact ⟨_, h, rfl⟩

theorem mem_entrySet : pair ∈ entrySet db ↔ HasEntry db pair := Iff.rfl

theorem entryKey_inj {pair pair' : OwnerPair} :
    todoIndexKey pair.userId pair.todoId =
      todoIndexKey pair'.userId pair'.todoId ↔ pair = pair' := by
  rw [todoIndexKey_inj, OwnerPair.ext_iff]

theorem mem_wanted_iff : pair ∈ (db.scan []).filterMap rowPair ↔ HasRow db pair := by
  rw [mem_filterMap]
  constructor
  · rintro ⟨e, he, hpair⟩
    exact ⟨e.1, e.2, (mem_scan.mp he).1, hpair⟩
  · rintro ⟨key, value, hget, hpair⟩
    exact ⟨(key, value), mem_scan.mpr ⟨hget, startsWith_nil key⟩, hpair⟩

theorem mem_indexed_iff : pair ∈ (db.scan []).filterMap entryPair ↔ HasEntry db pair := by
  rw [mem_filterMap, HasEntry, ne_none_iff_exists']
  constructor
  · rintro ⟨e, he, hpair⟩
    refine ⟨e.2, ?_⟩
    rw [← entryPair_eq_some_iff.mp hpair]
    exact (mem_scan.mp he).1
  · rintro ⟨value, hget⟩
    exact ⟨(_, value), mem_scan.mpr ⟨hget, startsWith_nil _⟩, entryPair_eq_some_iff.mpr rfl⟩

/-- A pair is indexed once, because its key is stored once. -/
theorem nodup_indexed (db : KvMap) : ((db.scan []).filterMap entryPair).Nodup := by
  rw [List.Nodup, pairwise_filterMap]
  refine (db.scan_sorted []).imp ?_
  rintro e e' hlt pair hpair pair' hpair' rfl
  rw [entryPair_eq_some_iff.mp hpair, entryPair_eq_some_iff.mp hpair'] at hlt
  exact lt_irrefl _ hlt

theorem SameRows.refl (db : KvMap) : SameRows db db :=
  fun _ _ => rfl

theorem SameRows.trans {db'' : KvMap} (h : SameRows db db')
    (h' : SameRows db' db'') : SameRows db db'' :=
  fun key hkey => (h' key hkey).trans (h key hkey)

/-- Row keys are not index keys. -/
theorem SameRows.get?_row (h : SameRows db db') {key : Bytes} {id : UInt64}
    (hkey : todoRowKeyParse key = some id) : db'.get? key = db.get? key := by
  apply h
  cases hparse : todoIndexKeyParse key with
  | none => rfl
  | some p =>
    rw [todoIndexKeyParse_eq_some_iff.mp hparse, todoRowKeyParse_todoIndexKey] at hkey
    cases hkey

theorem SameRows.hasRow_iff (h : SameRows db db') : HasRow db' pair ↔ HasRow db pair := by
  constructor
  · rintro ⟨key, value, hget, hpair⟩
    rw [h.get?_row (rowPair_eq_some_iff.mp hpair).1] at hget
    exact ⟨key, value, hget, hpair⟩
  · rintro ⟨key, value, hget, hpair⟩
    rw [← h.get?_row (rowPair_eq_some_iff.mp hpair).1] at hget
    exact ⟨key, value, hget, hpair⟩

theorem filterMap_rowPair_filter (es : List (Bytes × Bytes)) :
    (es.filter fun e => (todoRowKeyParse e.1).isSome).filterMap rowPair = es.filterMap rowPair := by
  rw [filterMap_filter]
  apply filterMap_congr
  intro e _
  split
  next => rfl
  next hnone =>
    rw [Bool.not_eq_true, isSome_eq_false_iff, isNone_iff_eq_none] at hnone
    rw [rowPair, hnone]

/-- Stores with the same rows call for the same pairs in the same order. -/
theorem SameRows.wanted_eq (h : SameRows db db') :
    (db'.scan []).filterMap rowPair = (db.scan []).filterMap rowPair := by
  have hrestrict : db'.map.restrict (fun key => (todoRowKeyParse key).isSome) =
      db.map.restrict fun key => (todoRowKeyParse key).isSome := by
    apply SortedMap.restrict_congr
    intro key hkey
    obtain ⟨id, hid⟩ := isSome_iff_exists.mp hkey
    exact h.get?_row hid
  have hall : ∀ db : KvMap, db.scan [] = db.map.entries := by
    intro db
    exact filter_eq_self.mpr fun e _ => startsWith_nil e.1
  rw [hall, hall, ← filterMap_rowPair_filter, ← filterMap_rowPair_filter db.map.entries]
  exact congrArg (fun m : SortedMap Bytes Bytes => m.entries.filterMap rowPair) hrestrict

end Stores

/-! ## The sorted lists -/

theorem sortPairs_perm (items : List OwnerPair) : (sortPairs items).Perm items :=
  mergeSort_perm _ _

theorem pairCompare_le_iff (a b : OwnerPair) : pairCompare a b ≤ 0 ↔ a ≤ b := by
  rw [le_iff_lt_or_eq, le_iff_lt_or_eq, pairCompare_neg_iff, pairCompare_eq_zero_iff]

theorem sortPairs_sorted (items : List OwnerPair) : (sortPairs items).Pairwise (· ≤ ·) := by
  have hsorted : (sortPairs items).Pairwise fun a b => decide (pairCompare a b ≤ 0) = true := by
    apply pairwise_mergeSort
    · intro a b c hab hbc
      rw [decide_eq_true_iff, pairCompare_le_iff] at hab hbc ⊢
      exact hab.trans hbc
    · intro a b
      rw [Bool.or_eq_true, decide_eq_true_iff, decide_eq_true_iff,
        pairCompare_le_iff, pairCompare_le_iff]
      exact le_total a b
  refine hsorted.imp ?_
  intro a b hab
  rw [decide_eq_true_iff, pairCompare_le_iff] at hab
  exact hab

theorem sortPairs_strict {items : List OwnerPair} (hnodup : items.Nodup) :
    (sortPairs items).Pairwise (· < ·) := by
  have hboth := (sortPairs_sorted items).and ((sortPairs_perm items).nodup_iff.mpr hnodup)
  exact hboth.imp fun h => lt_of_le_of_ne h.1 h.2

theorem sortPairs_congr {items items' : List OwnerPair} (hnodup : items.Nodup)
    (hnodup' : items'.Nodup) (hmem : ∀ pair, pair ∈ items ↔ pair ∈ items') :
    sortPairs items = sortPairs items' := by
  have hperm : (sortPairs items).Perm (sortPairs items') := (sortPairs_perm items).trans
      (((perm_ext_iff_of_nodup hnodup hnodup').mpr hmem).trans (sortPairs_perm items').symm)
  refine hperm.eq_of_pairwise ?_ (sortPairs_strict hnodup) (sortPairs_strict hnodup')
  intro a b _ _ hab hba
  exact absurd hab (lt_asymm hba)

/-! ## The repair writes -/

/-- A write of the repair that succeeds is an edit of the index. -/
theorem always_applyEdit (edit : Edit OwnerPair) (s : TodoState) :
    Always TodoStep (applyEdit edit) s fun rc s' =>
      s'.indexReady = s.indexReady ∧ (rc = 0 → SameRows s.db s'.db ∧
        Edits [edit] (entrySet s.db) (entrySet s'.db)) := by
  cases edit with
  | add pair =>
    refine always_issue.mpr ?_
    rintro rc s' (hstep | ⟨rfl, db, rfl⟩)
    · obtain ⟨rfl, rfl⟩ := Prod.mk.inj hstep
      refine ⟨rfl, fun hrc => ?_⟩
      obtain ⟨-, hnone, hget⟩ := insert_eq_zero hrc
      refine ⟨fun key hkey => ?_, ?_⟩
      · refine (hget key).trans (if_neg ?_)
        rintro rfl
        rw [todoIndexKeyParse_todoIndexKey] at hkey
        cases hkey
      · have hset : entrySet (s.db.insert (todoIndexKey pair.userId pair.todoId) []).2 =
            insert pair (entrySet s.db) := by
          ext p
          rw [Set.mem_insert_iff, mem_entrySet, mem_entrySet, HasEntry, hget]
          simp only [entryKey_inj, HasEntry]
          by_cases heq : p = pair <;> simp [heq]
        refine .add (fun hentry => hentry hnone) ?_
        rw [← hset]
        exact .nil _
    · exact ⟨rfl, fun hrc => absurd hrc (by decide)⟩
  | drop pair =>
    refine always_issue.mpr ?_
    rintro rc s' (hstep | ⟨rfl, db, rfl⟩)
    · obtain ⟨rfl, rfl⟩ := Prod.mk.inj hstep
      refine ⟨rfl, fun hrc => ?_⟩
      obtain ⟨hsome, hget⟩ := delete_eq_zero hrc
      refine ⟨fun key hkey => ?_, ?_⟩
      · refine (hget key).trans (if_neg ?_)
        rintro rfl
        rw [todoIndexKeyParse_todoIndexKey] at hkey
        cases hkey
      · have hset : entrySet (s.db.delete (todoIndexKey pair.userId pair.todoId)).2 =
            entrySet s.db \ {pair} := by
          ext p
          rw [Set.mem_sdiff, Set.mem_singleton_iff, mem_entrySet, mem_entrySet, HasEntry, hget]
          simp only [entryKey_inj, HasEntry]
          by_cases heq : p = pair <;> simp [heq]
        refine .drop hsome ?_
        rw [← hset]
        exact .nil _
    · exact ⟨rfl, fun hrc => absurd hrc (by decide)⟩

theorem RepairStats.failed_record {stats : RepairStats} {rc : ℤ}
    {edit : Edit OwnerPair} (h : (stats.record rc edit).failed = 0) :
    stats.failed = 0 ∧ rc = 0 := by
  cases edit with
  | add pair =>
    rw [RepairStats.record] at h
    split at h
    next hrc => exact ⟨h, hrc⟩
    next => exact absurd h (Nat.succ_ne_zero _)
  | drop pair =>
    rw [RepairStats.record] at h
    split at h
    next hrc => exact ⟨h, hrc⟩
    next => exact absurd h (Nat.succ_ne_zero _)

theorem always_openRepair (opened : Bool) (s : TodoState) :
    Always TodoStep (openRepair opened) s fun _ s' => s' = s := by
  cases opened with
  | true => exact always_pure.mpr rfl
  | false =>
    refine always_issue.mpr ?_
    rintro ok s' (hstep | ⟨-, rfl⟩)
    · exact (Prod.mk.inj hstep).2
    · rfl

/-- A repair in which nothing failed has made all its edits. -/
theorem always_repairLoop (edits : List (Edit OwnerPair)) :
    ∀ (opened : Bool) (stats : RepairStats) (s : TodoState),
      Always TodoStep (repairLoop edits opened stats) s fun r s' =>
        s'.indexReady = s.indexReady ∧ (r.2.failed = 0 → stats.failed = 0 ∧ SameRows s.db s'.db ∧
          Edits edits (entrySet s.db) (entrySet s'.db)) := by
  induction edits with
  | nil =>
    intro opened stats s
    refine always_pure.mpr ⟨rfl, fun hfailed => ?_⟩
    exact ⟨hfailed, SameRows.refl _, Edits.nil _⟩
  | cons edit edits ih =>
    intro opened stats s
    rw [repairLoop]
    refine (always_openRepair opened s).bind ?_
    rintro ok s' rfl
    cases ok with
    | false =>
      refine always_pure.mpr ⟨rfl, fun hfailed => ?_⟩
      exact absurd hfailed (Nat.succ_ne_zero _)
    | true =>
      refine (always_applyEdit edit s').bind ?_
      rintro rc s₁ ⟨hready, hedit⟩
      refine (ih true (stats.record rc edit) s₁).mono ?_
      rintro r s₂ ⟨hready', hrest⟩
      refine ⟨hready'.trans hready, fun hfailed => ?_⟩
      obtain ⟨hrecord, hrows', hedits⟩ := hrest hfailed
      obtain ⟨hstats, hrc⟩ := RepairStats.failed_record hrecord
      obtain ⟨hrows, hone⟩ := hedit hrc
      exact ⟨hstats, hrows.trans hrows', hone.append hedits⟩

/-! ## The whole pass -/

/-- The pairs the rows call for and the pairs the index holds, sorted. -/
def wantedPairs (db : KvMap) : List OwnerPair :=
  sortPairs ((db.scan []).filterMap rowPair)

def indexedPairs (db : KvMap) : List OwnerPair :=
  sortPairs ((db.scan []).filterMap entryPair)

/-- A pass that returned `0` has made every repair; any other has left the index
unavailable. -/
def ReconcileEnd (s : TodoState) (r : ℤ × UInt64) (s' : TodoState) : Prop :=
  (r.1 = -1 ∧ s'.indexReady = false) ∨
    (r.1 = 0 ∧ s'.indexReady = true ∧ SameRows s.db s'.db ∧ r.2 = (s.db.scan []).foldl raiseMax 0 ∧
      Edits (sortedDiff pairCompare (wantedPairs s.db) (indexedPairs s.db))
        (entrySet s.db) (entrySet s'.db))

theorem always_todoIndexReconcile (heap : ℕ → Bool) (maxTodoId : UInt64) (s : TodoState) :
    Always TodoStep (todoIndexReconcile heap maxTodoId) s (ReconcileEnd s) := by
  rw [todoIndexReconcile]
  refine always_issue_bind.mpr ?_
  rintro _ s₁ (hstep | hfail)
  swap
  · exact hfail.elim
  obtain ⟨-, rfl⟩ := Prod.mk.inj hstep
  refine always_issue_bind.mpr ?_
  rintro txn s₂ (hstep | ⟨rfl, rfl⟩)
  swap
  · exact always_pure.mpr (.inl ⟨rfl, rfl⟩)
  obtain ⟨rfl, rfl⟩ := Prod.mk.inj hstep
  refine always_issue_bind.mpr ?_
  intro shown s₃ hscan
  have hs₃ : s₃ = { s with indexReady := false } := by
    rcases hscan with hstep | ⟨-, -, rfl⟩
    · exact (Prod.mk.inj hstep).2
    · rfl
  have hshown : shown.1 = 0 → shown.2 = s.db.scan [] := by
    rcases hscan with hstep | ⟨hrc, -, -⟩
    · intro _
      rw [(Prod.mk.inj hstep).1]
    · intro hzero
      rw [hrc] at hzero
      exact absurd hzero (by decide)
  subst hs₃
  dsimp only
  refine always_issue_bind.mpr ?_
  rintro _ s₄ (hstep | hfail)
  swap
  · exact hfail.elim
  obtain ⟨-, rfl⟩ := Prod.mk.inj hstep
  split
  next => exact always_pure.mpr (.inl ⟨rfl, rfl⟩)
  next hok =>
    rw [not_or, not_not, Bool.not_eq_true] at hok
    obtain ⟨hrc, hwanted, hindexed, hmax⟩ := scanWith_reconcile shown.2 ReconcileCtx.zero hok.2
    have hall := hshown (hrc.symm.trans hok.1)
    rw [hall, ReconcileCtx.zero, nil_append] at hwanted hindexed
    rw [hall, ReconcileCtx.zero] at hmax
    rw [hall, ReconcileCtx.zero, hwanted, hindexed, hmax]
    refine always_bind.mpr ?_
    rw [applyIndexRepairs]
    refine (always_repairLoop _ _ _ _).bind ?_
    rintro ⟨opened, stats⟩ s₅ ⟨hready, hedits⟩
    have hend : Always TodoStep (if stats.failed ≠ 0 then pure (-1, (s.db.scan []).foldl raiseMax 0)
        else do
          setIndexReady true
          pure (0, (s.db.scan []).foldl raiseMax 0)) s₅ (ReconcileEnd s) := by
      split
      next => exact always_pure.mpr (.inl ⟨rfl, hready⟩)
      next hzero =>
        obtain ⟨-, hrows, hall⟩ := hedits (not_not.mp hzero)
        refine always_issue_bind.mpr ?_
        rintro _ s₆ (hstep | hfail)
        · obtain ⟨-, rfl⟩ := Prod.mk.inj hstep
          exact always_pure.mpr (.inr ⟨rfl, rfl, hrows, rfl, hall⟩)
        · exact hfail.elim
    cases opened with
    | false => exact always_pure.mpr hend
    | true =>
      refine always_issue_bind.mpr ?_
      rintro _ s₆ (hstep | hfail)
      · obtain ⟨-, rfl⟩ := Prod.mk.inj hstep
        exact always_pure.mpr hend
      · exact hfail.elim

section Passed

variable {db db' : KvMap}
    (hedits : Edits (sortedDiff pairCompare (wantedPairs db) (indexedPairs db))
      (entrySet db) (entrySet db'))

theorem mem_wantedPairs {pair : OwnerPair} : pair ∈ wantedPairs db ↔ HasRow db pair :=
  (sortPairs_perm _).mem_iff.trans mem_wanted_iff

theorem mem_indexedPairs {pair : OwnerPair} : pair ∈ indexedPairs db ↔ HasEntry db pair :=
  (sortPairs_perm _).mem_iff.trans mem_indexed_iff

theorem indexedPairs_subset (db : KvMap) : ∀ pair ∈ indexedPairs db, pair ∈ entrySet db :=
  fun _ hpair => mem_indexedPairs.mp hpair

theorem indexedPairs_strict (db : KvMap) : (indexedPairs db).Pairwise (· < ·) :=
  sortPairs_strict (nodup_indexed db)

include hedits

theorem hasEntry_iff_of_edits (pair : OwnerPair) : HasEntry db' pair ↔ HasRow db pair := by
  rw [← mem_entrySet, eq_of_edits pairCompare_eq_zero_iff pairCompare_neg_iff
    (indexedPairs_strict db) (indexedPairs_subset db) hedits, mem_wantedPairs,
    mem_indexedPairs, mem_entrySet]
  exact or_iff_left fun h => h.2 h.1

theorem nodup_wanted_of_edits : ((db.scan []).filterMap rowPair).Nodup :=
  (sortPairs_perm _).nodup_iff.mp (nodup_of_edits pairCompare_eq_zero_iff
    pairCompare_neg_iff (indexedPairs_strict db) (indexedPairs_subset db) hedits).1

theorem wantedPairs_eq_of_edits (hrows : SameRows db db') : wantedPairs db' = indexedPairs db' := by
  rw [wantedPairs, indexedPairs]
  apply sortPairs_congr
  · rw [hrows.wanted_eq]
    exact nodup_wanted_of_edits hedits
  · exact nodup_indexed db'
  · intro pair
    rw [mem_wanted_iff, mem_indexed_iff, hasEntry_iff_of_edits hedits, hrows.hasRow_iff]

end Passed

/-- The running maximum is an upper bound, and it is attained. -/
theorem foldl_raiseMax (es : List (Bytes × Bytes)) : ∀ start : UInt64,
    start ≤ es.foldl raiseMax start ∧ (∀ e ∈ es, ∀ id, todoRowKeyParse e.1 = some id →
        id ≤ es.foldl raiseMax start) ∧ (es.foldl raiseMax start = start ∨
        ∃ e ∈ es, todoRowKeyParse e.1 = some (es.foldl raiseMax start)) := by
  induction es with
  | nil =>
    intro start
    exact ⟨UInt64.le_refl _, by simp, .inl rfl⟩
  | cons e es ih =>
    intro start
    obtain ⟨hle, hall, hattained⟩ := ih (raiseMax start e)
    have hraise : start ≤ raiseMax start e ∧
        (∀ id, todoRowKeyParse e.1 = some id → id ≤ raiseMax start e) ∧ (raiseMax start e = start ∨
          todoRowKeyParse e.1 = some (raiseMax start e)) := by
      rw [raiseMax]
      cases hkey : todoRowKeyParse e.1 with
      | none => exact ⟨UInt64.le_refl _, nofun, .inl rfl⟩
      | some id =>
        dsimp only
        split
        next hlt =>
          refine ⟨UInt64.le_of_lt hlt, ?_, .inr rfl⟩
          rintro id' ⟨⟩
          exact UInt64.le_refl _
        next hge =>
          refine ⟨UInt64.le_refl _, ?_, .inl rfl⟩
          rintro id' ⟨⟩
          exact UInt64.not_lt.mp hge
    rw [foldl_cons]
    refine ⟨UInt64.le_trans hraise.1 hle, ?_, ?_⟩
    · intro e' he' id hid
      rcases mem_cons.mp he' with rfl | he'
      · exact UInt64.le_trans (hraise.2.1 id hid) hle
      · exact hall e' he' id hid
    · rcases hattained with heq | ⟨e', he', hid⟩
      · rw [heq]
        rcases hraise.2.2 with hstart | hid
        · exact .inl hstart
        · exact .inr ⟨e, mem_cons_self, hid⟩
      · exact .inr ⟨e', mem_cons_of_mem _ he', hid⟩

theorem issues_todoIndexReconcile {s : TodoState}
    (hagree : wantedPairs s.db = indexedPairs s.db) (heap : ℕ → Bool) (maxTodoId : UInt64) :
    Issues TodoStep (fun c => c.isWrite = false) (todoIndexReconcile heap maxTodoId) s := by
  refine issues_issue_bind.mpr ⟨rfl, ?_⟩
  rintro _ s₁ (hstep | hfail)
  swap
  · exact hfail.elim
  obtain ⟨-, rfl⟩ := Prod.mk.inj hstep
  refine issues_issue_bind.mpr ⟨rfl, ?_⟩
  rintro txn s₂ (hstep | ⟨rfl, rfl⟩)
  swap
  · exact trivial
  obtain ⟨rfl, rfl⟩ := Prod.mk.inj hstep
  refine issues_issue_bind.mpr ⟨rfl, ?_⟩
  intro shown s₃ hscan
  have hshown : shown.1 = 0 → shown.2 = s.db.scan [] := by
    rcases hscan with hstep | ⟨hrc, -, -⟩
    · intro _
      rw [(Prod.mk.inj hstep).1]
    · intro hzero
      rw [hrc] at hzero
      exact absurd hzero (by decide)
  refine issues_issue_bind.mpr ⟨rfl, ?_⟩
  rintro _ s₄ -
  split
  next => exact trivial
  next hok =>
    rw [not_or, not_not, Bool.not_eq_true] at hok
    obtain ⟨hrc, hwanted, hindexed, -⟩ := scanWith_reconcile shown.2 ReconcileCtx.zero hok.2
    have hall := hshown (hrc.symm.trans hok.1)
    rw [hall, ReconcileCtx.zero, nil_append] at hwanted hindexed
    have hnone : sortedDiff pairCompare (sortPairs ((s.db.scan []).filterMap rowPair))
        (sortPairs ((s.db.scan []).filterMap entryPair)) = [] := by
      rw [← wantedPairs, ← indexedPairs, hagree]
      exact sortedDiff_self (fun a => (pairCompare_eq_zero_iff a a).mpr rfl) _
    rw [hall, ReconcileCtx.zero, hwanted, hindexed, applyIndexRepairs, hnone]
    exact ⟨rfl, fun _ _ _ => trivial⟩

/-- For every store, every answer of the engine and every shortage of memory: a
reconcile that returns `0` leaves exactly the entries that the rows call for,
every other key as it was, and the largest id of a row key in the counter's
seed; repeated at once it writes nothing.  Any other leaves the index
unavailable. -/
theorem todo_index_reconcile_exact (heap : ℕ → Bool) (maxTodoId : UInt64)
    (s : TodoState) :
    Always TodoStep (todoIndexReconcile heap maxTodoId) s fun r s' =>
      (r.1 = 0 →
        (∀ key, (todoIndexKeyParse key).isSome = true ∧ s'.db.get? key ≠ none ↔
          ∃ userId todoId, key = todoIndexKey userId todoId ∧
            ∃ row value, s.db.get? row = some value ∧
              todoRowKeyParse row = some todoId ∧
              jsonGetUint64 value (ascii "user_id") = some userId) ∧
        (∀ key, todoIndexKeyParse key = none → s'.db.get? key = s.db.get? key) ∧
        (∀ row value id, s.db.get? row = some value →
          todoRowKeyParse row = some id → id ≤ r.2) ∧
        (r.2 = 0 ∨ ∃ row value, s.db.get? row = some value ∧
          todoRowKeyParse row = some r.2) ∧
        ∀ heap' maxTodoId', Issues TodoStep (fun c => c.isWrite = false)
          (todoIndexReconcile heap' maxTodoId') s') ∧
      (r.1 ≠ 0 → s'.indexReady = false) := by
  refine (always_todoIndexReconcile heap maxTodoId s).mono ?_
  rintro r s' (⟨hrc, hready⟩ | ⟨hrc, -, hrows, hmax, hedits⟩)
  · exact ⟨fun hzero => absurd (hrc.symm.trans hzero) (by decide), fun _ => hready⟩
  refine ⟨fun _ => ⟨?_, hrows, ?_, ?_, ?_⟩, fun hne => absurd hrc hne⟩
  · intro key
    constructor
    · rintro ⟨hparse, hstored⟩
      obtain ⟨⟨userId, todoId⟩, hpair⟩ := isSome_iff_exists.mp hparse
      have hkey := todoIndexKeyParse_eq_some_iff.mp hpair
      have hentry : HasEntry s'.db ⟨userId, todoId⟩ := by
        rw [HasEntry, ← hkey]
        exact hstored
      obtain ⟨row, value, hget, hrow⟩ := (hasEntry_iff_of_edits hedits _).mp hentry
      obtain ⟨hid, howner⟩ := rowPair_eq_some_iff.mp hrow
      exact ⟨userId, todoId, hkey, row, value, hget, hid, howner⟩
    · rintro ⟨userId, todoId, rfl, row, value, hget, hid, howner⟩
      rw [todoIndexKeyParse_todoIndexKey]
      refine ⟨rfl, (hasEntry_iff_of_edits hedits ⟨userId, todoId⟩).mpr ?_⟩
      exact ⟨row, value, hget, rowPair_eq_some_iff.mpr ⟨hid, howner⟩⟩
  · intro row value id hget hid
    rw [hmax]
    exact (foldl_raiseMax _ 0).2.1 (row, value) (mem_scan.mpr ⟨hget, startsWith_nil row⟩) id hid
  · rw [hmax]
    rcases (foldl_raiseMax (s.db.scan []) 0).2.2 with hzero | ⟨e, he, hid⟩
    · exact .inl hzero
    · exact .inr ⟨e.1, e.2, (mem_scan.mp he).1, hid⟩
  · intro heap' maxTodoId'
    exact issues_todoIndexReconcile (wantedPairs_eq_of_edits hedits hrows) heap' maxTodoId'

/-- A store with one row and an entry for a row that is gone. -/
def staleStore : TodoState where
  db := ((KvMap.empty.insert (ascii "7") (ascii "\x7b\"user_id\":5\x7d")).2.insert
    (todoIndexKey 9 9) []).2
  cache := none
  nextTodoId := 1
  indexReady := false
  locked := false

theorem todo_index_reconcile_exact_stale : ∃ r s',
    Outcome TodoStep (todoIndexReconcile (fun _ => true) 0) staleStore
      r s' ∧ r = (0, 7) ∧ s'.db.get? (todoIndexKey 5 7) ≠ none ∧
      s'.db.get? (todoIndexKey 9 9) = none := by
  have hrun : (run TodoState.handle (todoIndexReconcile (fun _ => true) 0)
      staleStore).1 = (0, 7) := by
    decide +kernel
  have hrow : staleStore.db.get? (ascii "7") = some (ascii "\x7b\"user_id\":5\x7d") := by
    decide +kernel
  have hparse : todoRowKeyParse (ascii "7") = some 7 := by decide +kernel
  have howner : jsonGetUint64 (ascii "\x7b\"user_id\":5\x7d") (ascii "user_id") = some 5 := by
    decide +kernel
  have hout := outcome_run todoStep_handle (todoIndexReconcile (fun _ => true) 0) staleStore
  obtain ⟨hkeys, -⟩ := (todo_index_reconcile_exact (fun _ => true) 0 staleStore
    _ _ hout).1 (by rw [hrun])
  refine ⟨_, _, hout, hrun, ?_, ?_⟩
  · exact ((hkeys _).mpr ⟨5, 7, rfl, _, _, hrow, hparse, howner⟩).2
  · by_contra hstored
    obtain ⟨userId, todoId, hkey, row, value, hget, hid, hown⟩ := (hkeys _).mp
      ⟨by rw [todoIndexKeyParse_todoIndexKey]; rfl, hstored⟩
    obtain ⟨rfl, rfl⟩ := todoIndexKey_inj.mp hkey
    have hall : ∀ e ∈ staleStore.db.scan [], todoRowKeyParse e.1 ≠ some 9 := by decide +kernel
    exact hall (row, value) (mem_scan.mpr ⟨hget, startsWith_nil row⟩) hid

end Codo.Api
