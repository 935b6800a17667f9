import Codo.Api.InStep

/-!
# Two ways to list

A listing goes by way of the owner index while that is in use, and over all rows
otherwise.  Both are folds over rows of the user: the scan takes them in the
order of their keys, the index in the order of the ids.  The keys are bare
decimals, so the two orders differ as soon as ids have different lengths.
-/

namespace Codo.Api

open Support Common Storage Program List KvMap

/-! ## What a user has -/

/-- The row under a key, if it is the user's. -/
def ownRow (userId : UInt64) (db : KvMap) (key : Bytes) : Option Bytes :=
  (db.get? key).filter fun value => todoOwnedBy value userId

def isOwnRow (userId : UInt64) (e : Bytes × Bytes) : Bool :=
  (todoRowKeyParse e.1).isSome && todoOwnedBy e.2 userId

/-- The user's rows with their keys, in the order of the keys. -/
def ownPairs (userId : UInt64) (db : KvMap) : List (Bytes × Bytes) :=
  (db.scan []).filter (isOwnRow userId)

/-- The user's rows in the order of their keys. -/
def ownRows (userId : UInt64) (db : KvMap) : List Bytes :=
  (ownPairs userId db).map Prod.snd

/-- The id in an index key of the user. -/
def ownId (userId : UInt64) (key : Bytes) : Option UInt64 :=
  ((todoIndexKeyParse key).filter fun p => p.1 = userId).map Prod.snd

/-- The ids of the user's index entries in the order of the index. -/
def ownIds (userId : UInt64) (db : KvMap) : List UInt64 :=
  (db.scan (todoIndexPrefix userId)).filterMap fun e => ownId userId e.1

/-- The index leads to the user's rows, all of them, in the order of their
keys. -/
def IndexFollowsKeys (userId : UInt64) (db : KvMap) : Prop :=
  (ownIds userId db).map (fun id => ownRow userId db (todoRowKey id)) = (ownRows userId db).map some

/-- The keys of the user's rows are bare decimals, and sort as the ids do. -/
structure KeysSortAsIds (userId : UInt64) (db : KvMap) : Prop where
  bare : ∀ {row value}, db.get? row = some value →
    isOwnRow userId (row, value) = true → ∃ id, row = todoRowKey id
  sorted : ∀ {id id'}, (ownRow userId db (todoRowKey id)).isSome →
    (ownRow userId db (todoRowKey id')).isSome → id < id' → todoRowKey id < todoRowKey id'

/-! ## The scan -/

variable {f : TodoFilter} {userId : UInt64}

theorem scanWith_eq_foldl {κ : Type} {callback : Bytes → Bytes → κ → ℤ × κ}
    (h : ∀ key value ctx, (callback key value ctx).1 = 0) (rc : ℤ)
    (es : List (Bytes × Bytes)) (ctx : κ) :
    scanWith callback rc es ctx = (rc, es.foldl (fun ctx e => (callback e.1 e.2 ctx).2) ctx) := by
  induction es generalizing ctx with
  | nil => rfl
  | cons e es ih => rw [scanWith, if_neg (not_not.mpr (h e.1 e.2 ctx)), ih, foldl_cons]

theorem listScanCb_fst (key value : Bytes) (list : ListCtx) :
    (listScanCb f userId key value list).1 = 0 := by
  rw [listScanCb]
  split <;> rfl

theorem listScanCb_snd (e : Bytes × Bytes) (list : ListCtx) :
    (listScanCb f userId e.1 e.2 list).2 =
      if isOwnRow userId e = true then listConsiderRow f list e.2 else list := by
  rw [listScanCb, isOwnRow]
  cases (todoRowKeyParse e.1) with
  | none => rfl
  | some id =>
    cases todoOwnedBy e.2 userId with
    | false => rfl
    | true => rfl

theorem lookupScanCb_fst (key value : Bytes) (ids : List UInt64) :
    (lookupScanCb userId key value ids).1 = 0 := by
  rw [lookupScanCb]
  split
  · rfl
  · split <;> rfl

theorem lookupScanCb_snd (e : Bytes × Bytes) (ids : List UInt64) :
    (lookupScanCb userId e.1 e.2 ids).2 = ids ++ (ownId userId e.1).toList := by
  rw [lookupScanCb, ownId]
  cases todoIndexKeyParse e.1 with
  | none => simp
  | some p =>
    by_cases howner : p.1 = userId <;> simp [howner, Option.filter_some]

theorem foldl_listScanCb (es : List (Bytes × Bytes)) (list : ListCtx) :
    es.foldl (fun list e => (listScanCb f userId e.1 e.2 list).2) list =
      ((es.filter (isOwnRow userId)).map Prod.snd).foldl (listConsiderRow f) list := by
  induction es generalizing list with
  | nil => rfl
  | cons e es ih =>
    rw [foldl_cons, ih, listScanCb_snd]
    by_cases hown : isOwnRow userId e = true
    · rw [if_pos hown, filter_cons_of_pos hown, map_cons, foldl_cons]
    · rw [if_neg hown, filter_cons_of_neg hown]

theorem foldl_lookupScanCb (es : List (Bytes × Bytes)) (ids : List UInt64) :
    es.foldl (fun ids e => (lookupScanCb userId e.1 e.2 ids).2) ids =
      ids ++ es.filterMap fun e => ownId userId e.1 := by
  induction es generalizing ids with
  | nil => simp
  | cons e es ih =>
    rw [foldl_cons, ih, lookupScanCb_snd, append_assoc]
    cases hid : ownId userId e.1 with
    | none => simp [hid]
    | some id => simp [hid]

theorem run_listByScan (f : TodoFilter) (userId : UInt64) (s : TodoState) :
    run TodoState.handle (listByScan f userId) s =
      (some ((ownRows userId s.db).foldl (listConsiderRow f) .start), s) := by
  change run TodoState.handle
    (if (scanWith (listScanCb f userId) 0 (s.db.scan []) .start).1 ≠ 0 then pure none
      else pure (some (scanWith (listScanCb f userId) 0 (s.db.scan []) .start).2)) s
      = _
  rw [scanWith_eq_foldl listScanCb_fst, if_neg (not_not.mpr rfl), foldl_listScanCb]
  rfl

theorem run_todoIndexLookup (userId : UInt64) (s : TodoState) :
    run TodoState.handle (todoIndexLookup userId) s = (some (ownIds userId s.db), s) := by
  change run TodoState.handle
    (if (scanWith (lookupScanCb userId) 0 (s.db.scan (todoIndexPrefix userId))
        []).1 ≠ 0 then pure none
      else pure (some (scanWith (lookupScanCb userId) 0
        (s.db.scan (todoIndexPrefix userId)) []).2)) s = _
  rw [scanWith_eq_foldl lookupScanCb_fst, if_neg (not_not.mpr rfl), foldl_lookupScanCb]
  rfl

/-! ## The index -/

/-- What a row that was found adds to the list. -/
def listShow (f : TodoFilter) (list : ListCtx) (value : Bytes) : ListCtx :=
  if f.needsEveryRow = true then listConsiderRow f list value
  else listEmit list value

/-- The loop of `list_from_index` with `row` for what the ids lead to. -/
def listOwn (f : TodoFilter) (row : UInt64 → Option Bytes) :
    List UInt64 → ℕ → ListCtx → ListCtx
  | [], _, list => list
  | id :: ids, i, list =>
    if f.needsEveryRow = false ∧ (i : ℤ) < f.offset then
      listOwn f row ids (i + 1) list
    else if f.needsEveryRow = false ∧ f.pageFull list.count = true then list
    else listOwn f row ids (i + 1) ((row id).elim list (listShow f list))

/-- The list by way of the index. -/
def indexList (f : TodoFilter) (row : UInt64 → Option Bytes) (ids : List UInt64) : ListCtx :=
  if f.needsEveryRow = true then listOwn f row ids 0 .start
  else { listOwn f row ids 0 .start with matched := ids.length }

variable {row : UInt64 → Option Bytes}

theorem listFound_get? (db : KvMap) (key : Bytes) (list : ListCtx) :
    listFound f userId list ((db.get? key).map fun value =>
      value.take maxValueSize) =
      (ownRow userId db key).elim list (listShow f list) := by
  rw [take_get?, ownRow]
  cases db.get? key with
  | none => rfl
  | some value =>
    rw [listFound, Option.filter_some]
    cases todoOwnedBy value userId with
    | false => rfl
    | true => rfl

theorem run_listFromIndexLoop (ids : List UInt64) (i : ℕ) (list : ListCtx) (s : TodoState) :
    run TodoState.handle (listFromIndexLoop f userId ids i list) s =
      (listOwn f (fun id => ownRow userId s.db (todoRowKey id)) ids i list, s) := by
  induction ids generalizing i list with
  | nil => rfl
  | cons id ids ih =>
    rw [listFromIndexLoop, listOwn]
    split
    · exact ih (i + 1) list
    · split
      · rfl
      · rw [← listFound_get?]
        exact ih (i + 1) _

theorem run_listByIndex (f : TodoFilter) (userId : UInt64) (s : TodoState) :
    run TodoState.handle (listByIndex f userId) s =
      (some (indexList f (fun id => ownRow userId s.db (todoRowKey id))
        (ownIds userId s.db)), s) := by
  rw [listByIndex, run_bind, run_todoIndexLookup]
  rw [listIds, run_bind, listFromIndex, run_bind, run_listFromIndexLoop, indexList]
  split <;> rfl

namespace ListCtx

/-- The list with another count of matches. -/
def withMatched (list : ListCtx) (n : ℕ) : ListCtx :=
  { list with matched := n }

@[simp] theorem withMatched_matched (list : ListCtx) (n : ℕ) :
    (list.withMatched n).matched = n := rfl

@[simp] theorem withMatched_count (list : ListCtx) (n : ℕ) :
    (list.withMatched n).count = list.count := rfl

@[simp] theorem withMatched_withMatched (list : ListCtx) (n m : ℕ) :
    (list.withMatched n).withMatched m = list.withMatched m := rfl

theorem withMatched_self {list : ListCtx} {n : ℕ} (h : list.matched = n) :
    list.withMatched n = list := by
  subst h
  rfl

end ListCtx

section Folds

variable {list : ListCtx}

/-- With a filter on the rows, the index leads to a fold as well. -/
theorem listOwn_of_needsEveryRow (hneeds : f.needsEveryRow = true)
    (ids : List UInt64) (i : ℕ) (list : ListCtx) :
    listOwn f row ids i list = (ids.filterMap row).foldl (listConsiderRow f) list := by
  have hnot : ∀ P : Prop, ¬(f.needsEveryRow = false ∧ P) := by
    rintro P ⟨hfalse, -⟩
    rw [hneeds] at hfalse
    exact absurd hfalse (by decide)
  induction ids generalizing i list with
  | nil => rfl
  | cons id ids ih =>
    rw [listOwn, if_neg (hnot _), if_neg (hnot _), ih]
    cases hrow : row id with
    | none => rw [filterMap_cons_none hrow, Option.elim_none]
    | some value =>
      rw [filterMap_cons_some hrow, foldl_cons, Option.elim_some, listShow, if_pos hneeds]

section

variable (hneeds : f.needsEveryRow = false)
include hneeds

/-- Without one, every row is counted, and shown if it is on the page. -/
theorem listConsiderRow_of_unfiltered (list : ListCtx) (value : Bytes) :
    listConsiderRow f list value =
      if (list.matched : ℤ) < f.offset ∨ f.pageFull list.count = true then
        list.withMatched (list.matched + 1)
      else (listEmit list value).withMatched (list.matched + 1) := by
  rw [listConsiderRow, if_neg (by
    rw [listRowMatches_of_needsEveryRow hneeds]
    decide)]
  by_cases hbefore : (list.matched : ℤ) < f.offset
  · rw [if_pos (Or.inl hbefore)]
    exact if_pos hbefore
  · refine (if_neg hbefore).trans ?_
    by_cases hfull : f.pageFull list.count = true
    · rw [if_pos (Or.inr hfull)]
      exact if_pos hfull
    · rw [if_neg (not_or.mpr ⟨hbefore, hfull⟩)]
      exact if_neg hfull

theorem foldl_matched (rows : List Bytes) (list : ListCtx) :
    (rows.foldl (listConsiderRow f) list).matched = list.matched + rows.length := by
  induction rows generalizing list with
  | nil => rfl
  | cons value rows ih =>
    have hone : (listConsiderRow f list value).matched = list.matched + 1 := by
      rw [listConsiderRow_of_unfiltered hneeds]
      split <;> rfl
    rw [foldl_cons, ih, hone, length_cons, Nat.add_assoc, Nat.add_comm 1]

theorem foldl_of_full (rows : List Bytes) (list : ListCtx) (hfull : f.pageFull list.count = true) :
    rows.foldl (listConsiderRow f) list = list.withMatched (list.matched + rows.length) := by
  induction rows generalizing list with
  | nil => rfl
  | cons value rows ih =>
    rw [foldl_cons, listConsiderRow_of_unfiltered hneeds,
      if_pos (.inr hfull), ih (list.withMatched (list.matched + 1)) hfull,
      ListCtx.withMatched_withMatched, ListCtx.withMatched_matched, length_cons, Nat.add_assoc,
      Nat.add_comm 1]

theorem foldl_of_before (rows : List Bytes) (list : ListCtx)
    (hbefore : (list.matched + rows.length : ℤ) ≤ f.offset) :
    rows.foldl (listConsiderRow f) list = list.withMatched (list.matched + rows.length) := by
  induction rows generalizing list with
  | nil => rfl
  | cons value rows ih =>
    rw [length_cons] at hbefore
    rw [foldl_cons, listConsiderRow_of_unfiltered hneeds,
      if_pos (.inl (by omega)), ih, ListCtx.withMatched_withMatched,
      ListCtx.withMatched_matched, length_cons, Nat.add_assoc, Nat.add_comm 1]
    rw [ListCtx.withMatched_matched]
    omega

/-- If each id leads to the next row, the page of the ids is that of the rows. -/
theorem listOwn_of_unfiltered {ids : List UInt64} {rows : List Bytes}
    (h : ids.map row = rows.map some) (i : ℕ) (list : ListCtx) (n : ℕ) :
    (listOwn f row ids i list).withMatched n =
      (rows.foldl (listConsiderRow f) (list.withMatched i)).withMatched n := by
  induction ids generalizing rows i list with
  | nil =>
    obtain rfl : rows = [] := map_eq_nil_iff.mp h.symm
    rfl
  | cons id ids ih =>
    cases rows with
    | nil => cases h
    | cons value rows =>
      obtain ⟨hrow, hrest⟩ := List.cons.inj h
      rw [listOwn, foldl_cons, listConsiderRow_of_unfiltered hneeds,
        ListCtx.withMatched_matched, ListCtx.withMatched_count]
      by_cases hbefore : (i : ℤ) < f.offset
      · rw [if_pos ⟨hneeds, hbefore⟩, if_pos (.inl hbefore), ListCtx.withMatched_withMatched]
        exact ih hrest (i + 1) list
      · rw [if_neg fun hand => hbefore hand.2]
        by_cases hfull : f.pageFull list.count = true
        · rw [if_pos ⟨hneeds, hfull⟩, if_pos (.inr hfull), ListCtx.withMatched_withMatched,
            foldl_of_full hneeds _ (list.withMatched (i + 1)) hfull]
          rfl
        · rw [if_neg fun hand => hfull hand.2, hrow, Option.elim_some,
            listShow, if_neg (by rw [hneeds]; decide), if_neg (not_or.mpr ⟨hbefore, hfull⟩)]
          exact ih hrest (i + 1) (listEmit list value)

end

theorem indexList_eq_foldl (f : TodoFilter) {ids : List UInt64}
    {rows : List Bytes} (h : ids.map row = rows.map some) :
    indexList f row ids = rows.foldl (listConsiderRow f) .start := by
  by_cases hneeds : f.needsEveryRow = true
  · have hrows : ids.filterMap row = rows := by
      have hall := congrArg (List.filterMap fun x => x) h
      simpa [filterMap_map, Function.comp_def] using hall
    rw [indexList, if_pos hneeds, listOwn_of_needsEveryRow hneeds, hrows]
  · have hfalse : f.needsEveryRow = false := by simpa using hneeds
    have hlength : ids.length = rows.length := by simpa using congrArg List.length h
    have hpage := listOwn_of_unfiltered hfalse h 0 .start ids.length
    rw [indexList, if_neg hneeds]
    refine hpage.trans ?_
    have hmatched := foldl_matched hfalse rows .start
    rw [hlength]
    exact ListCtx.withMatched_self (by rw [← Nat.zero_add rows.length]; exact hmatched)

theorem count_listOwn_all (row : UInt64 → Option Bytes) (ids : List UInt64)
    (i : ℕ) (list : ListCtx) :
    (listOwn .all row ids i list).count = list.count + (ids.filterMap row).length := by
  induction ids generalizing i list with
  | nil => rfl
  | cons id ids ih =>
    have hoffset : ¬(TodoFilter.all.needsEveryRow = false ∧ (i : ℤ) < TodoFilter.all.offset) := by
      rintro ⟨-, hlt⟩
      exact absurd hlt (not_lt.mpr (Int.natCast_nonneg i))
    have hlimit : ¬(TodoFilter.all.needsEveryRow = false ∧
        TodoFilter.all.pageFull list.count = true) := by
      rintro ⟨-, hfull⟩
      cases hfull
    rw [listOwn, if_neg hoffset, if_neg hlimit, ih]
    cases hrow : row id with
    | none => rw [filterMap_cons_none hrow, Option.elim_none]
    | some value =>
      rw [filterMap_cons_some hrow, Option.elim_some, length_cons,
        Nat.add_comm _ 1, ← Nat.add_assoc]
      rfl

theorem count_foldl_all (rows : List Bytes) (list : ListCtx) :
    (rows.foldl (listConsiderRow .all) list).count = list.count + rows.length := by
  induction rows generalizing list with
  | nil => rfl
  | cons value rows ih =>
    have hshown : ¬((list.matched : ℤ) < TodoFilter.all.offset ∨
        TodoFilter.all.pageFull list.count = true) := by
      rintro (hlt | hfull)
      · exact absurd hlt (not_lt.mpr (Int.natCast_nonneg list.matched))
      · cases hfull
    rw [foldl_cons, ih, listConsiderRow_of_unfiltered rfl,
      if_neg hshown, length_cons, Nat.add_comm rows.length, ← Nat.add_assoc]
    rfl

/-- The page with the row at `i` only. -/
def pageAt (i : ℕ) : TodoFilter :=
  { TodoFilter.all with offset := i, limit := 1 }

theorem buf_foldl_pageAt (xs : List Bytes) (value : Bytes) (ys : List Bytes) :
    ((xs ++ value :: ys).foldl (listConsiderRow (pageAt xs.length)) .start).buf =
      ascii "[" ++ value := by
  have hbefore : ((ListCtx.start.matched : ℤ) + xs.length) ≤ (pageAt xs.length).offset :=
    (zero_add (xs.length : ℤ)).le
  have hshown : ¬(((ListCtx.start.matched + xs.length : ℕ) : ℤ) < (pageAt xs.length).offset ∨
      (pageAt xs.length).pageFull ListCtx.start.count = true) := by
    rintro (hlt | hfull)
    · rw [Nat.cast_add] at hlt
      exact absurd hlt (not_lt.mpr (zero_add (xs.length : ℤ)).ge)
    · cases hfull
  rw [foldl_append, foldl_of_before rfl xs _ hbefore, foldl_cons,
    listConsiderRow_of_unfiltered rfl, ListCtx.withMatched_matched,
    ListCtx.withMatched_count, if_neg hshown, foldl_of_full rfl]
  · simp [ListCtx.withMatched, listEmit, ListCtx.start]
  · rfl

/-- Pages of one row tell lists of rows apart. -/
theorem eq_of_foldl_eq {xs ys : List Bytes} (hlength : xs.length = ys.length)
    (h : ∀ f, xs.foldl (listConsiderRow f) .start =
      ys.foldl (listConsiderRow f) .start) : xs = ys := by
  have hbuf : ∀ (zs : List Bytes) (i : ℕ) (hi : i < zs.length),
      (zs.foldl (listConsiderRow (pageAt i)) .start).buf = ascii "[" ++ zs[i] := by
    intro zs i hi
    have hpage := buf_foldl_pageAt (zs.take i) zs[i] (zs.drop (i + 1))
    rw [length_take_of_le hi.le, ← drop_eq_getElem_cons, take_append_drop] at hpage
    exact hpage
  refine ext_getElem hlength ?_
  intro i hx hy
  have hsame : ascii "[" ++ xs[i] = ascii "[" ++ ys[i] := by rw [← hbuf xs i hx, ← hbuf ys i hy, h]
  exact append_cancel_left hsame

theorem map_eq_of_length_filterMap {ids : List UInt64}
    (h : (ids.filterMap row).length = ids.length) : ids.map row = (ids.filterMap row).map some := by
  induction ids with
  | nil => rfl
  | cons id ids ih =>
    cases hrow : row id with
    | none =>
      rw [filterMap_cons_none hrow, length_cons] at h
      have hle := length_filterMap_le row ids
      omega
    | some value =>
      rw [filterMap_cons_some hrow, length_cons, length_cons] at h
      rw [map_cons, hrow, filterMap_cons_some hrow, map_cons, ih (Nat.succ.inj h)]

end Folds

section Order

variable {id : UInt64} {db : KvMap} {key : Bytes}

theorem ownId_eq_some_iff : ownId userId key = some id ↔ key = todoIndexKey userId id := by
  rw [← todoIndexKeyParse_eq_some_iff, ownId, Option.map_eq_some_iff]
  constructor
  · rintro ⟨⟨owner, todoId⟩, hparse, rfl⟩
    rw [Option.filter_eq_some_iff, decide_eq_true_eq] at hparse
    obtain ⟨hparse, rfl⟩ := hparse
    exact hparse
  · intro hparse
    exact ⟨(userId, id), Option.filter_eq_some_iff.mpr ⟨hparse, decide_eq_true rfl⟩, rfl⟩

theorem mem_ownIds : id ∈ ownIds userId db ↔ HasEntry db ⟨userId, id⟩ := by
  rw [ownIds, mem_filterMap, HasEntry, Option.ne_none_iff_exists']
  constructor
  · rintro ⟨e, he, hid⟩
    rw [← ownId_eq_some_iff.mp hid]
    exact ⟨e.2, (mem_scan.mp he).1⟩
  · rintro ⟨value, hget⟩
    refine ⟨(todoIndexKey userId id, value), mem_scan.mpr ⟨hget, ?_⟩, ownId_eq_some_iff.mpr rfl⟩
    exact startsWith_iff.mpr ⟨_, rfl⟩

theorem ownIds_sorted (userId : UInt64) (db : KvMap) : (ownIds userId db).Pairwise (· < ·) := by
  rw [ownIds, pairwise_filterMap]
  refine (db.scan_sorted _).imp ?_
  intro e e' hlt id hid id' hid'
  rw [ownId_eq_some_iff.mp hid, ownId_eq_some_iff.mp hid', todoIndexKey_lt_iff] at hlt
  exact hlt

theorem mem_ownPairs {e : Bytes × Bytes} : e ∈ ownPairs userId db ↔
    db.get? e.1 = some e.2 ∧ isOwnRow userId e = true := by
  rw [ownPairs, mem_filter, mem_scan, startsWith_nil]
  exact and_congr_left fun _ => and_iff_left rfl

theorem ownRow_eq_some_iff {key value : Bytes} :
    ownRow userId db key = some value ↔
      db.get? key = some value ∧ todoOwnedBy value userId = true := by
  rw [ownRow, Option.filter_eq_some_iff]

theorem mem_ownPairs_iff_ownRow {e : Bytes × Bytes} : e ∈ ownPairs userId db ↔
    (todoRowKeyParse e.1).isSome = true ∧ ownRow userId db e.1 = some e.2 := by
  rw [mem_ownPairs, isOwnRow, Bool.and_eq_true_iff, ownRow_eq_some_iff, and_left_comm]

theorem ownRow_todoRowKey_iff {value : Bytes} :
    ownRow userId db (todoRowKey id) = some value ↔
      (todoRowKey id, value) ∈ ownPairs userId db := by
  rw [mem_ownPairs_iff_ownRow, todoRowKeyParse_todoRowKey]
  exact (and_iff_right rfl).symm

theorem todoRowKey_injective : Function.Injective todoRowKey := by
  intro id id' h
  have hparse := congrArg todoRowKeyParse h
  rw [todoRowKeyParse_todoRowKey, todoRowKeyParse_todoRowKey] at hparse
  exact Option.some.inj hparse

/-- Keys that sort as the ids are led to in their order. -/
theorem KeysSortAsIds.indexFollowsKeys (h : KeysSortAsIds userId db)
    (hstep : InStep db) : IndexFollowsKeys userId db := by
  have hrow : ∀ e ∈ ownPairs userId db, ∃ id, e.1 = todoRowKey id ∧
      ownRow userId db (todoRowKey id) = some e.2 := by
    intro e he
    obtain ⟨hget, hown⟩ := mem_ownPairs.mp he
    obtain ⟨id, hid⟩ := h.bare hget hown
    exact ⟨id, hid, ownRow_todoRowKey_iff.mpr (hid ▸ he)⟩
  have hsorted : ((ownPairs userId db).filterMap fun e =>
      todoRowKeyParse e.1).Pairwise (· < ·) := by
    rw [pairwise_filterMap]
    refine .imp_of_mem ?_ ((db.scan_sorted []).filter _)
    intro e e' he he' hlt i hi j hj
    obtain ⟨id, hkey, hown⟩ := hrow e he
    obtain ⟨id', hkey', hown'⟩ := hrow e' he'
    rw [hkey, todoRowKeyParse_todoRowKey] at hi
    rw [hkey', todoRowKeyParse_todoRowKey] at hj
    rw [← Option.some.inj hi, ← Option.some.inj hj]
    rw [hkey, hkey'] at hlt
    by_contra hnot
    have hne : id' ≠ id := fun heq => List.lt_irrefl _ (heq ▸ hlt)
    have hmore := UInt64.lt_of_le_of_ne (UInt64.not_lt.mp hnot) hne
    exact List.lt_asymm hlt (h.sorted (hown' ▸ rfl) (hown ▸ rfl) hmore)
  have hids : ownIds userId db = (ownPairs userId db).filterMap fun e => todoRowKeyParse e.1 := by
    refine (ownIds_sorted userId db).eq_of_mem_iff hsorted ?_
    intro id
    rw [mem_ownIds, hstep.entry_iff, mem_filterMap]
    constructor
    · rintro ⟨row, value, hget, hpair⟩
      obtain ⟨hkey, howner⟩ := rowPair_eq_some_iff.mp hpair
      refine ⟨(row, value), mem_ownPairs.mpr ⟨hget, ?_⟩, hkey⟩
      rw [isOwnRow, hkey, todoOwnedBy_iff.mpr howner]
      rfl
    · rintro ⟨e, he, hkey⟩
      obtain ⟨hget, hown⟩ := mem_ownPairs.mp he
      exact ⟨e.1, e.2, hget, rowPair_eq_some_iff.mpr
        ⟨hkey, todoOwnedBy_iff.mp (Bool.and_eq_true_iff.mp hown).2⟩⟩
  rw [IndexFollowsKeys, ownRows, hids, map_map, map_filterMap]
  have hread : ∀ e ∈ ownPairs userId db,
      (todoRowKeyParse e.1).map (fun id => ownRow userId db (todoRowKey id)) = some (some e.2) := by
    intro e he
    obtain ⟨id, hid, hown⟩ := hrow e he
    rw [hid, todoRowKeyParse_todoRowKey, Option.map_some, hown]
  rw [filterMap_congr hread, filterMap_eq_map']
  rfl

/-- Rows that differ in their texts tell which key an id leads to. -/
theorem IndexFollowsKeys.keys_eq (h : IndexFollowsKeys userId db)
    (hdiffer : (ownRows userId db).Nodup) :
    (ownPairs userId db).map Prod.fst = (ownIds userId db).map todoRowKey := by
  rw [IndexFollowsKeys, ownRows] at h
  have hlength := congrArg List.length h
  simp only [length_map] at hlength
  refine ext_getElem (by rw [length_map, length_map, hlength]) ?_
  intro i hi hi'
  rw [length_map] at hi hi'
  rw [getElem_map, getElem_map]
  have hrow : ownRow userId db (todoRowKey (ownIds userId db)[i]) =
      some (ownPairs userId db)[i].2 := by
    have hat := getElem_of_eq h (by rwa [length_map] :
      i < ((ownIds userId db).map _).length)
    rwa [getElem_map, getElem_map, getElem_map] at hat
  have hsame := inj_on_of_nodup_map hdiffer (ownRow_todoRowKey_iff.mp hrow) (getElem_mem hi) rfl
  exact (congrArg Prod.fst hsame).symm

theorem IndexFollowsKeys.keysSortAsIds (h : IndexFollowsKeys userId db)
    (hdiffer : (ownRows userId db).Nodup) : KeysSortAsIds userId db := by
  have hkeys := h.keys_eq hdiffer
  have hmem : ∀ {id}, (ownRow userId db (todoRowKey id)).isSome → id ∈ ownIds userId db := by
    intro id hsome
    obtain ⟨value, hvalue⟩ := Option.isSome_iff_exists.mp hsome
    have hkey := mem_map_of_mem (f := Prod.fst) (ownRow_todoRowKey_iff.mp hvalue)
    rw [hkeys] at hkey
    exact (mem_map_of_injective todoRowKey_injective).mp hkey
  constructor
  · intro row value hget hown
    have hkey := mem_map_of_mem (f := Prod.fst)
      (mem_ownPairs.mpr ⟨hget, hown⟩ : (row, value) ∈ ownPairs userId db)
    rw [hkeys] at hkey
    obtain ⟨id, -, hid⟩ := mem_map.mp hkey
    exact ⟨id, hid.symm⟩
  · intro id id' hid hid' hlt
    have hsorted : ((ownIds userId db).map todoRowKey).Pairwise (· < ·) := by
      rw [← hkeys, pairwise_map]
      exact (db.scan_sorted []).filter _
    rw [pairwise_map, pairwise_iff_getElem] at hsorted
    have hids := pairwise_iff_getElem.mp (ownIds_sorted userId db)
    obtain ⟨i, hi, rfl⟩ := mem_iff_getElem.mp (hmem hid)
    obtain ⟨j, hj, rfl⟩ := mem_iff_getElem.mp (hmem hid')
    rcases lt_trichotomy i j with hij | rfl | hji
    · exact hsorted i j hi hj hij
    · exact absurd hlt (UInt64.lt_irrefl _)
    · exact absurd hlt (UInt64.lt_asymm (hids j i hj hi hji))

end Order

/-! ## When both agree -/

/-- For every filter both ways build the same list and count the same matches. -/
def PathsAgree (userId : UInt64) (s : TodoState) : Prop :=
  ∀ f, (run TodoState.handle (listByIndex f userId) s).1 =
    (run TodoState.handle (listByScan f userId) s).1

theorem pathsAgree_iff {s : TodoState} : PathsAgree userId s ↔ IndexFollowsKeys userId s.db := by
  unfold PathsAgree
  simp only [run_listByIndex, run_listByScan, Option.some.injEq]
  constructor
  · intro hall
    have hcount : ((ownIds userId s.db).filterMap fun id =>
        ownRow userId s.db (todoRowKey id)).length =
        (ownRows userId s.db).length := by
      have hcounts := congrArg ListCtx.count (hall .all)
      rw [count_foldl_all] at hcounts
      have hindex := count_listOwn_all
        (fun id => ownRow userId s.db (todoRowKey id)) (ownIds userId s.db) 0 .start
      exact Nat.add_left_cancel (hindex.symm.trans hcounts)
    have hmatched : (ownIds userId s.db).length = (ownRows userId s.db).length := by
      have hmatches := congrArg ListCtx.matched (hall .all)
      rw [foldl_matched rfl] at hmatches
      exact hmatches.trans (Nat.zero_add _)
    have hread := map_eq_of_length_filterMap (hcount.trans hmatched.symm)
    have hrows := eq_of_foldl_eq hcount fun f => by
      rw [← indexList_eq_foldl f hread]
      exact hall f
    rw [IndexFollowsKeys, hread, hrows]
  · intro hfollows f
    exact indexList_eq_foldl f hfollows

/-- Both ways agree exactly when the index leads to the user's rows in the order
of their keys.  With the index in step, and no two rows of one text, that is when
the keys are bare decimals that sort as the ids do. -/
theorem listing_paths_agree_iff (userId : UInt64) (s : TodoState) :
    (PathsAgree userId s ↔ IndexFollowsKeys userId s.db) ∧
      (InStep s.db → (ownRows userId s.db).Nodup →
        (PathsAgree userId s ↔ KeysSortAsIds userId s.db)) := by
  refine ⟨pathsAgree_iff, fun hstep hdiffer => pathsAgree_iff.trans ⟨?_, ?_⟩⟩
  · exact fun h => h.keysSortAsIds hdiffer
  · exact fun h => h.indexFollowsKeys hstep

def todoTwo : Bytes :=
  renderObject (todoMembers 2 1 (ascii "milk") false)

def todoTen : Bytes :=
  renderObject (todoMembers 10 1 (ascii "dog") false)

def storeTwo : KvMap :=
  storeWith .empty 1 2 todoTwo

/-- A user has the todo 2 and another one. -/
def twoTodos (id : UInt64) (value : Bytes) : TodoState where
  db := storeWith storeTwo 1 id value
  cache := none
  nextTodoId := id + 1
  indexReady := true
  locked := false

theorem inStep_twoTodos {id : UInt64} {value : Bytes}
    (hlen : value.length ≤ maxValueSize) (howner : todoOwner value = some 1)
    (hnone : storeTwo.get? (todoRowKey id) = none)
    (hfree : storeTwo.get? (todoIndexKey 1 id) = none) : InStep (twoTodos id value).db := by
  have hone : InStep storeTwo := InStep.empty.storeWith (by decide +kernel) (by decide +kernel) rfl
      fun h => h rfl
  dsimp only [twoTodos]
  exact hone.storeWith hlen howner hnone fun h => h hfree

def todoTwentyThree : Bytes :=
  renderObject (todoMembers 23 1 (ascii "cat") false)

/-- The keys "2" and "23" sort as the ids do, so both ways agree. -/
theorem listing_paths_agree_iff_sorted :
    InStep (twoTodos 23 todoTwentyThree).db ∧
      (ownRows 1 (twoTodos 23 todoTwentyThree).db).Nodup ∧
      KeysSortAsIds 1 (twoTodos 23 todoTwentyThree).db ∧
      PathsAgree 1 (twoTodos 23 todoTwentyThree) := by
  have hstep : InStep (twoTodos 23 todoTwentyThree).db :=
    inStep_twoTodos (by decide +kernel) (by decide +kernel) (by decide +kernel) (by decide +kernel)
  have hdiffer : (ownRows 1 (twoTodos 23 todoTwentyThree).db).Nodup := by decide +kernel
  have hpairs : ∀ e ∈ ownPairs 1 (twoTodos 23 todoTwentyThree).db,
      e.1 = todoRowKey 2 ∨ e.1 = todoRowKey 23 := by decide +kernel
  have hid : ∀ {id}, (ownRow 1 (twoTodos 23 todoTwentyThree).db
      (todoRowKey id)).isSome → id = 2 ∨ id = 23 := by
    intro id hsome
    obtain ⟨value, hvalue⟩ := Option.isSome_iff_exists.mp hsome
    refine (hpairs _ (ownRow_todoRowKey_iff.mp hvalue)).imp ?_ ?_
    · exact fun h => todoRowKey_injective h
    · exact fun h => todoRowKey_injective h
  have hkeys : KeysSortAsIds 1 (twoTodos 23 todoTwentyThree).db := by
    constructor
    · intro row value hget hown
      rcases hpairs (row, value) (mem_ownPairs.mpr ⟨hget, hown⟩) with hrow | hrow
      · exact ⟨2, hrow⟩
      · exact ⟨23, hrow⟩
    · intro id id' hsome hsome' hlt
      rcases hid hsome with rfl | rfl
      · rcases hid hsome' with rfl | rfl
        · exact absurd hlt (UInt64.lt_irrefl _)
        · decide
      · rcases hid hsome' with rfl | rfl
        · exact absurd hlt (by decide)
        · exact absurd hlt (UInt64.lt_irrefl _)
  exact ⟨hstep, hdiffer, hkeys, ((listing_paths_agree_iff 1 _).2 hstep hdiffer).mpr hkeys⟩

/-- The index shows 2 before 10, the scan 10 before 2. -/
theorem listing_paths_differ :
    InStep (twoTodos 10 todoTen).db ∧
      (run TodoState.handle (listByIndex .all 1) (twoTodos 10 todoTen)).1 =
        some ⟨ascii "[" ++ todoTwo ++ ascii "," ++ todoTen, 2, 2⟩ ∧
      (run TodoState.handle (listByScan .all 1) (twoTodos 10 todoTen)).1 =
        some ⟨ascii "[" ++ todoTen ++ ascii "," ++ todoTwo, 2, 2⟩ ∧ todoTwo ≠ todoTen := by
  refine ⟨inStep_twoTodos (by decide +kernel) (by decide +kernel)
    (by decide +kernel) (by decide +kernel), ?_, ?_, ?_⟩
  · decide +kernel
  · decide +kernel
  · decide +kernel

end Codo.Api
