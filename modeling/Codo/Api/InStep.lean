import Codo.Api.TodoHandlers

/-!
# The index in step with the rows

The owner index is in step with the rows when it has an entry exactly for each
pair of an owner and an id that a row calls for, and no two rows call for one
pair.  This is what a successful reconcile leaves behind.  The writes of the
handlers each set one key, so this module says what setting a row key or an
index key does to rows and entries, and what the values are that the handlers
write.
-/

namespace Codo.Api

open Support Common Storage Option KvMap List

/-- The index is in step with the rows. -/
structure InStep (db : KvMap) : Prop where
  entry_iff : ∀ pair, HasEntry db pair ↔ HasRow db pair
  unique : ∀ {row row' value value' : Bytes} {pair : OwnerPair},
    db.get? row = some value → db.get? row' = some value' →
    rowPair (row, value) = some pair → rowPair (row', value') = some pair → row = row'

theorem eq_of_nodup_filterMap {α β : Type} {f : α → Option β} {xs : List α}
    (hnodup : (xs.filterMap f).Nodup) {a a' : α} {b : β} (ha : a ∈ xs)
    (ha' : a' ∈ xs) (hb : f a = some b) (hb' : f a' = some b) : a = a' := by
  induction xs with
  | nil => exact absurd ha (by simp)
  | cons x xs ih =>
    rw [List.Nodup, pairwise_filterMap, pairwise_cons] at hnodup
    rcases mem_cons.mp ha with rfl | hmem
    · rcases mem_cons.mp ha' with rfl | hmem'
      · rfl
      · exact absurd rfl (hnodup.1 a' hmem' b hb b hb')
    · rcases mem_cons.mp ha' with rfl | hmem'
      · exact absurd rfl (hnodup.1 a hmem b hb' b hb)
      · apply ih _ hmem hmem'
        rw [List.Nodup, pairwise_filterMap]
        exact hnodup.2

theorem always_reconcile_inStep (heap : ℕ → Bool) (maxTodoId : UInt64) (s : TodoState) :
    Program.Always TodoStep (todoIndexReconcile heap maxTodoId) s fun r s' =>
      r.1 = 0 → InStep s'.db := by
  refine (always_todoIndexReconcile heap maxTodoId s).mono ?_
  rintro r s' (⟨hrc, -⟩ | ⟨-, -, hrows, -, hedits⟩) hzero
  · exact absurd (hrc.symm.trans hzero) (by decide)
  · constructor
    · intro pair
      rw [hasEntry_iff_of_edits hedits, hrows.hasRow_iff]
    · intro row row' value value' pair hget hget' hpair hpair'
      have hnodup := nodup_wanted_of_edits hedits
      rw [← hrows.wanted_eq] at hnodup
      exact congrArg Prod.fst (eq_of_nodup_filterMap hnodup
        (mem_scan.mpr ⟨hget, startsWith_nil row⟩)
        (mem_scan.mpr ⟨hget', startsWith_nil row'⟩) hpair hpair')

section Sets

variable {db db' : KvMap} {key : Bytes} {entry : Option Bytes} {pair pair' : OwnerPair}

theorem ne_todoIndexKey {id userId todoId : UInt64}
    (hkey : todoRowKeyParse key = some id) : key ≠ todoIndexKey userId todoId := by
  rintro rfl
  rw [todoRowKeyParse_todoIndexKey] at hkey
  cases hkey

theorem hasEntry_of_sets_row (h : db.Sets key entry db') {id : UInt64}
    (hkey : todoRowKeyParse key = some id) : HasEntry db' pair ↔ HasEntry db pair := by
  rw [HasEntry, HasEntry, h.get?_of_ne (ne_todoIndexKey hkey).symm]

theorem hasRow_of_sets_row (h : db.Sets key entry db') :
    HasRow db' pair ↔ (∃ value, entry = some value ∧ rowPair (key, value) = some pair) ∨
      ∃ row value, row ≠ key ∧ db.get? row = some value ∧ rowPair (row, value) = some pair := by
  constructor
  · rintro ⟨row, value, hget, hpair⟩
    by_cases hrow : row = key
    · subst hrow
      rw [h.get?_self] at hget
      exact .inl ⟨value, hget, hpair⟩
    · rw [h.get?_of_ne hrow] at hget
      exact .inr ⟨row, value, hrow, hget, hpair⟩
  · rintro (⟨value, rfl, hpair⟩ | ⟨row, value, hrow, hget, hpair⟩)
    · exact ⟨key, value, h.get?_self, hpair⟩
    · rw [← h.get?_of_ne hrow] at hget
      exact ⟨row, value, hget, hpair⟩

theorem hasRow_of_insert {value : Bytes} (h : db.Sets key (some value) db')
    (hnone : db.get? key = none) (hrow : rowPair (key, value) = some pair') :
    HasRow db' pair ↔ pair = pair' ∨ HasRow db pair := by
  rw [hasRow_of_sets_row h]
  constructor
  · rintro (⟨value', hvalue, hpair⟩ | ⟨row, value', -, hget, hpair⟩)
    · obtain rfl := some.inj hvalue
      exact .inl (some.inj (hpair.symm.trans hrow))
    · exact .inr ⟨row, value', hget, hpair⟩
  · rintro (rfl | ⟨row, value', hget, hpair⟩)
    · exact .inl ⟨value, rfl, hrow⟩
    · refine .inr ⟨row, value', ?_, hget, hpair⟩
      rintro rfl
      rw [hnone] at hget
      cases hget

theorem hasRow_of_replace {value existing : Bytes}
    (h : db.Sets key (some value) db') (hget : db.get? key = some existing)
    (hrow : rowPair (key, value) = rowPair (key, existing)) : HasRow db' pair ↔ HasRow db pair := by
  rw [hasRow_of_sets_row h]
  constructor
  · rintro (⟨value', hvalue, hpair⟩ | ⟨row, value', -, hget', hpair⟩)
    · obtain rfl := some.inj hvalue
      exact ⟨key, existing, hget, hrow.symm.trans hpair⟩
    · exact ⟨row, value', hget', hpair⟩
  · rintro ⟨row, value', hget', hpair⟩
    by_cases heq : row = key
    · subst heq
      obtain rfl := some.inj (hget.symm.trans hget')
      exact .inl ⟨value, rfl, hrow.trans hpair⟩
    · exact .inr ⟨row, value', heq, hget', hpair⟩

/-- A row that is gone no longer calls for its pair, whatever happened to the
entries before. -/
theorem InStep.hasRow_of_delete {db₁ : KvMap} {value : Bytes}
    (hstep : InStep db) (hsame : SameRows db db₁) (h : db₁.Sets key none db')
    (hget : db.get? key = some value) (hrow : rowPair (key, value) = some pair') :
    HasRow db' pair ↔ pair ≠ pair' ∧ HasRow db pair := by
  rw [hasRow_of_sets_row h]
  constructor
  · rintro (⟨value', hvalue, -⟩ | ⟨row, value', hne, hget', hpair⟩)
    · cases hvalue
    · rw [hsame.get?_row (rowPair_eq_some_iff.mp hpair).1] at hget'
      refine ⟨?_, row, value', hget', hpair⟩
      rintro rfl
      exact hne (hstep.unique hget' hget hpair hrow)
  · rintro ⟨hne, row, value', hget', hpair⟩
    refine .inr ⟨row, value', ?_, ?_, hpair⟩
    · rintro rfl
      obtain rfl := some.inj (hget.symm.trans hget')
      exact hne (some.inj (hpair.symm.trans hrow))
    · rw [hsame.get?_row (rowPair_eq_some_iff.mp hpair).1]
      exact hget'

theorem sameRows_of_sets_index (h : db.Sets (todoIndexKey pair'.userId pair'.todoId) entry db') :
    SameRows db db' := by
  intro key hkey
  apply h.get?_of_ne
  rintro rfl
  rw [todoIndexKeyParse_todoIndexKey] at hkey
  cases hkey

theorem hasEntry_of_sets_index (h : db.Sets (todoIndexKey pair'.userId pair'.todoId) entry db') :
    HasEntry db' pair ↔ (pair = pair' ∧ entry ≠ none) ∨ (pair ≠ pair' ∧ HasEntry db pair) := by
  rw [HasEntry, h]
  simp only [entryKey_inj, HasEntry]
  by_cases heq : pair = pair' <;> simp [heq]

end Sets

section Keep

variable {db db₁ db' : KvMap} {row value existing : Bytes} {pair : OwnerPair}

theorem InStep.empty : InStep KvMap.empty := by
  constructor
  · intro pair
    constructor
    · intro hentry
      exact absurd rfl hentry
    · rintro ⟨row, value, hget, -⟩
      cases hget
  · intro row row' value value' pair hget
    cases hget

theorem InStep.create (hstep : InStep db)
    (hpair : rowPair (row, value) = some pair) (hnone : db.get? row = none)
    (hfree : ¬HasEntry db pair) (hrow : db.Sets row (some value) db₁)
    (hentry : db₁.Sets (todoIndexKey pair.userId pair.todoId) (some []) db') : InStep db' := by
  have hkey := (rowPair_eq_some_iff.mp hpair).1
  have hsame := sameRows_of_sets_index hentry
  constructor
  · intro other
    rw [hasEntry_of_sets_index hentry, hasEntry_of_sets_row hrow hkey,
      hsame.hasRow_iff, hasRow_of_insert hrow hnone hpair, hstep.entry_iff]
    by_cases heq : other = pair <;> simp [heq]
  · -- No row called for the pair before, since it had no entry.
    have hnew : ∀ {row' value' : Bytes}, db.get? row' = some value' →
        rowPair (row', value') ≠ some pair := by
      intro row' value' hget hpair'
      exact hfree ((hstep.entry_iff pair).mpr ⟨row', value', hget, hpair'⟩)
    have hcases : ∀ {row' value' : Bytes} {other : OwnerPair},
        db'.get? row' = some value' → rowPair (row', value') = some other →
        row' = row ∧ other = pair ∨ db.get? row' = some value' := by
      intro row' value' other hget hpair'
      rw [hsame.get?_row (rowPair_eq_some_iff.mp hpair').1] at hget
      by_cases heq : row' = row
      · subst heq
        rw [hrow.get?_self] at hget
        obtain rfl := some.inj hget
        exact .inl ⟨rfl, some.inj (hpair'.symm.trans hpair)⟩
      · rw [hrow.get?_of_ne heq] at hget
        exact .inr hget
    intro row₁ row₂ value₁ value₂ other hget₁ hget₂ hpair₁ hpair₂
    rcases hcases hget₁ hpair₁ with ⟨rfl, rfl⟩ | hold₁
    · rcases hcases hget₂ hpair₂ with ⟨rfl, -⟩ | hold₂
      · rfl
      · exact absurd hpair₂ (hnew hold₂)
    · rcases hcases hget₂ hpair₂ with ⟨rfl, rfl⟩ | hold₂
      · exact absurd hpair₁ (hnew hold₁)
      · exact hstep.unique hold₁ hold₂ hpair₁ hpair₂

theorem InStep.replace {id : UInt64} (hstep : InStep db)
    (hkey : todoRowKeyParse row = some id) (hget : db.get? row = some existing)
    (howner : todoOwner value = todoOwner existing)
    (hsets : db.Sets row (some value) db') : InStep db' := by
  have hpair : rowPair (row, value) = rowPair (row, existing) := by rw [rowPair, rowPair, howner]
  constructor
  · intro other
    rw [hasEntry_of_sets_row hsets hkey, hasRow_of_replace hsets hget hpair, hstep.entry_iff]
  · have hold : ∀ {row' value' : Bytes} {other : OwnerPair},
        db'.get? row' = some value' → rowPair (row', value') = some other →
        ∃ value'', db.get? row' = some value'' ∧ rowPair (row', value'') = some other := by
      intro row' value' other hget' hpair'
      by_cases heq : row' = row
      · subst heq
        rw [hsets.get?_self] at hget'
        obtain rfl := some.inj hget'
        exact ⟨existing, hget, hpair.symm.trans hpair'⟩
      · rw [hsets.get?_of_ne heq] at hget'
        exact ⟨value', hget', hpair'⟩
    intro row₁ row₂ value₁ value₂ other hget₁ hget₂ hpair₁ hpair₂
    obtain ⟨_, hold₁, hsame₁⟩ := hold hget₁ hpair₁
    obtain ⟨_, hold₂, hsame₂⟩ := hold hget₂ hpair₂
    exact hstep.unique hold₁ hold₂ hsame₁ hsame₂

/-- The store with one more todo and its entry. -/
def storeWith (db : KvMap) (userId id : UInt64) (value : Bytes) : KvMap :=
  ((db.insert (todoRowKey id) value).2.insert (todoIndexKey userId id) []).2

end Keep

/-! ## What the handlers write -/

/-- The members of a stored todo. -/
def todoMembers (id userId : UInt64) (title : Bytes) (completed : Bool) :
    List (Bytes × JsonValue) :=
  [(ascii "id", .number id.toNat), (ascii "user_id", .number userId.toNat),
    (ascii "title", .text title), (ascii "completed", .bool completed)]

section Values

variable {id userId : UInt64} {title value key : Bytes} {completed : Bool}

theorem buildTodoJson_eq (h : buildTodoJson id userId title completed = some value) :
    value = renderObject (todoMembers id userId title completed) ∧ value.length < maxValueSize := by
  rw [buildTodoJson, jsonEscape] at h
  split at h
  · cases h
  next escaped hescaped =>
    obtain ⟨-, hsome⟩ := ite_none_right_eq_some.mp hescaped
    obtain rfl := some.inj hsome
    obtain ⟨hlen, hvalue⟩ := ite_none_right_eq_some.mp h
    refine ⟨?_, some.inj hvalue ▸ hlen⟩
    rw [← some.inj hvalue]
    simp [renderObject, renderMembers, todoMembers, JsonValue.render, ascii]

variable (id userId title completed) in
theorem plainKey_todoMembers : ∀ m ∈ todoMembers id userId title completed, PlainKey m.1 := by
  simp only [todoMembers, forall_mem_cons]
  exact ⟨by decide, by decide, by decide, by decide, by simp⟩

/-- A stored todo names the user who wrote it as its owner. -/
theorem todoOwner_buildTodoJson (h : buildTodoJson id userId title completed = some value) :
    todoOwner value = some userId := by
  have hkeys := plainKey_todoMembers id userId title completed
  rw [todoOwner, (buildTodoJson_eq h).1, jsonGetUint64_renderObject hkeys rfl, UInt64.ofNat_toNat]

theorem length_title_lt (h : buildTodoJson id userId title completed = some value) :
    title.length < maxValueSize := by
  rw [buildTodoJson, jsonEscape] at h
  split at h
  · cases h
  next escaped hescaped =>
    obtain ⟨hlen, -⟩ := ite_none_right_eq_some.mp hescaped
    exact (length_le_escapeText title).trans_lt hlen

/-- A title cannot forge the other members of a todo, and is read back but for
the control characters that JSON has no short escape for. -/
theorem todo_json_reads_back
    (h : buildTodoJson id userId title completed = some value) :
    jsonGetUint64 value (ascii "id") = some id ∧
      jsonGetUint64 value (ascii "user_id") = some userId ∧
      jsonGetBool value (ascii "completed") = some completed ∧
      jsonGetString value (ascii "title") 1024 =
        some (title.map fun c =>
          if c < 32 ∧ c ≠ 10 ∧ c ≠ 13 ∧ c ≠ 9 then 63 else c) := by
  have hshown : ∀ c : UInt8, shownByte c =
      if c < 32 ∧ c ≠ 10 ∧ c ≠ 13 ∧ c ≠ 9 then 63 else c := by
    intro c
    have hiff : (c < 32 ∧ c ≠ 10 ∧ c ≠ 13 ∧ c ≠ 9) ↔ ¬ReadsBack c := by
      rw [ReadsBack, not_or, not_or, not_or, UInt8.not_le]
    rw [shownByte, if_congr hiff rfl rfl, ite_not]
  have hlen := length_title_lt h
  obtain ⟨rfl, -⟩ := buildTodoJson_eq h
  have hkeys := plainKey_todoMembers id userId title completed
  refine ⟨?_, ?_, ?_, ?_⟩
  · rw [jsonGetUint64_renderObject hkeys rfl, UInt64.ofNat_toNat]
  · rw [jsonGetUint64_renderObject hkeys rfl, UInt64.ofNat_toNat]
  · exact jsonGetBool_renderObject hkeys rfl
  · have hread : jsonGetString (renderObject (todoMembers id userId title
        completed)) (ascii "title") maxValueSize = some (title.map shownByte) :=
      jsonGetString_shown hkeys rfl hlen
    refine hread.trans (congrArg some ?_)
    exact map_congr_left fun c _ => hshown c

/-- A title that looks like the end of a string and another owner. -/
def forgingTitle : Bytes :=
  ascii "\",\"user_id\":9,\"\\\x01"

theorem todo_json_reads_back_forging :
    ∃ value, buildTodoJson 7 3 forgingTitle true = some value ∧
      jsonGetUint64 value (ascii "user_id") = some 3 := by
  have hbuilt : (buildTodoJson 7 3 forgingTitle true).isSome := by decide
  obtain ⟨value, hvalue⟩ := isSome_iff_exists.mp hbuilt
  exact ⟨value, hvalue, (todo_json_reads_back hvalue).2.1⟩

theorem legalSizes_row (hkey : todoRowKeyParse key = some id)
    (hlen : value.length ≤ maxValueSize) : LegalSizes key value := by
  obtain ⟨hne, hle, -⟩ := todoRowKeyParse_eq_some_iff.mp hkey
  exact ⟨length_pos_iff.mpr hne, hle.trans (by decide), hlen⟩

theorem legalSizes_index (userId todoId : UInt64) : LegalSizes (todoIndexKey userId todoId) [] := by
  rw [LegalSizes, length_todoIndexKey]
  decide

theorem InStep.storeWith {db : KvMap} (hstep : InStep db)
    (hlen : value.length ≤ maxValueSize) (howner : todoOwner value = some userId)
    (hnone : db.get? (todoRowKey id) = none) (hfree : ¬HasEntry db ⟨userId, id⟩) :
    InStep (storeWith db userId id value) := by
  have hkey : todoRowKeyParse (todoRowKey id) = some id := todoRowKeyParse_todoRowKey id
  have hpair : rowPair (todoRowKey id, value) = some ⟨userId, id⟩ :=
    rowPair_eq_some_iff.mpr ⟨hkey, howner⟩
  have hrow := (insert_of_absent (legalSizes_row hkey hlen) hnone).2
  have hentry : (db.insert (todoRowKey id) value).2.get? (todoIndexKey userId id) = none := by
    rw [hrow.get?_of_ne (ne_todoIndexKey hkey).symm]
    exact not_not.mp hfree
  exact hstep.create hpair hnone hfree hrow (insert_of_absent (legalSizes_index userId id) hentry).2

theorem todoRowKeyParse_extractId {uri : Bytes}
    (h : extractId uri = some (key, id)) : todoRowKeyParse key = some id := by
  rw [extractId] at h
  split at h
  · cases h
  · split at h
    · cases h
    · split at h
      · cases h
      · obtain ⟨id', hid, heq⟩ := map_eq_some_iff.mp h
        obtain ⟨rfl, rfl⟩ := Prod.mk.inj heq
        exact hid

end Values

/-! ## The cache -/

/-- A cache entry for the key is the row that is stored. -/
def CoherentAt (s : TodoState) (key : Bytes) : Prop :=
  ∀ value, s.cached key = some value → s.db.get? key = some value

/-- Every cache entry is the row that is stored. -/
def CacheCoherent (s : TodoState) : Prop :=
  ∀ key, CoherentAt s key

section Cache

variable {s : TodoState} {key key' value value' : Bytes}

theorem cached_lruPut (h : (s.handle (.lruPut key value)).2.cached key' = some value') :
    key' = key ∧ value' = value ∨ key' ≠ key ∧ s.cached key' = some value' := by
  cases hcache : s.cache with
  | none => simp [TodoState.handle, TodoState.cached, hcache] at h
  | some cache =>
    simp only [TodoState.handle, TodoState.cached, hcache, map_some, bind_some] at h ⊢
    exact LruCache.find_put h

theorem cached_lruInvalidate (h : (s.handle (.lruInvalidate key)).2.cached key' = some value') :
    key' ≠ key ∧ s.cached key' = some value' := by
  cases hcache : s.cache with
  | none => simp [TodoState.handle, TodoState.cached, hcache] at h
  | some cache =>
    simp only [TodoState.handle, TodoState.cached, hcache, map_some, bind_some] at h ⊢
    exact LruCache.find_invalidate.mp h

end Cache

end Codo.Api
