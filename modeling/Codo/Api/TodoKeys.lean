import Codo.Common.Json

/-!
# Keys of the todo namespace

`todo_index.c`: a todo row is stored under its decimal id, an entry of the owner
index under the owner and the id, both padded to the width of the largest id.
Buffers for keys have `TODO_KEY_MAX` bytes, which hold every key, so the
truncation branches of the printers are never taken.
-/

namespace Codo.Api

open Support Common List Option

def todoKeyMax : ℕ := 64

def indexIdWidth : ℕ := 20

def indexPrefix : Bytes := ascii "idx:user:"

def todoRowKey (id : UInt64) : Bytes :=
  decimal id.toNat

/-- The loop of `todo_row_key_parse`. -/
def parseRowDigits : Bytes → UInt64 → Option UInt64
  | [], id => some id
  | c :: key, id =>
    if c < 48 ∨ 57 < c then none
    else
      let digit := (c - 48).toUInt64
      if (18446744073709551615 - digit) / 10 < id then none
      else parseRowDigits key (id * 10 + digit)

def todoRowKeyParse (key : Bytes) : Option UInt64 :=
  if key.length = 0 ∨ indexIdWidth < key.length then none
  else parseRowDigits key 0

def todoIndexPrefix (userId : UInt64) : Bytes :=
  indexPrefix ++ padded indexIdWidth userId.toNat ++ ascii ":"

def todoIndexKey (userId todoId : UInt64) : Bytes :=
  indexPrefix ++ padded indexIdWidth userId.toNat ++ ascii ":" ++ padded indexIdWidth todoId.toNat

/-- `todo_index_key_parse`: the owner and the id. -/
def todoIndexKeyParse (key : Bytes) : Option (UInt64 × UInt64) :=
  if key.length ≠ 50 ∨ key.take 9 ≠ indexPrefix ∨ key[29]? ≠ some 58 then none
  else
    match todoRowKeyParse (slice key 9 indexIdWidth) with
    | none => none
    | some userId => (todoRowKeyParse (slice key 30 indexIdWidth)).map (userId, ·)

def todoOwner (value : Bytes) : Option UInt64 :=
  jsonGetUint64 value (ascii "user_id")

def todoOwnedBy (value : Bytes) (userId : UInt64) : Bool :=
  todoOwner value == some userId

theorem todoOwnedBy_iff {value : Bytes} {userId : UInt64} :
    todoOwnedBy value userId = true ↔ todoOwner value = some userId := by
  rw [todoOwnedBy, beq_iff_eq]

theorem toNat_lt_indexIdWidth (id : UInt64) : id.toNat < 10 ^ indexIdWidth :=
  id.toNat_lt.trans (by decide)

theorem isDigit_iff_not {c : UInt8} : isDigit c = true ↔ ¬(c < 48 ∨ 57 < c) := by
  rw [isDigit, Bool.and_eq_true, decide_eq_true_iff, decide_eq_true_iff, not_or, not_lt, not_lt]

theorem le_foldl_digits (key : Bytes) (n : ℕ) :
    n ≤ key.foldl (fun n b => n * 10 + (b.toNat - 48)) n := by
  rw [foldl_digits]
  exact (Nat.le_mul_of_pos_right n (by positivity)).trans (Nat.le_add_right _ _)

theorem toNat_sub_of_isDigit {c : UInt8} (hc : isDigit c = true) :
    (c - 48).toUInt64.toNat = c.toNat - 48 := by
  rw [UInt8.toNat_toUInt64, UInt8.toNat_sub_of_le]
  · rfl
  · rw [UInt8.le_iff_toNat_le]
    exact (toNat_of_isDigit hc).1

/-- The overflow test of `todo_row_key_parse` is exact. -/
theorem overflow_iff {c : UInt8} (hc : isDigit c = true) (id : UInt64) :
    (18446744073709551615 - (c - 48).toUInt64) / 10 < id ↔
      2 ^ 64 ≤ id.toNat * 10 + (c.toNat - 48) := by
  have hsub := toNat_sub_of_isDigit hc
  have hdigit := toNat_of_isDigit hc
  have hmax : (18446744073709551615 - (c - 48).toUInt64).toNat =
      18446744073709551615 - (c.toNat - 48) := by
    rw [UInt64.toNat_sub_of_le]
    · rw [hsub]
      rfl
    · rw [UInt64.le_iff_toNat_le, hsub]
      have hlit : (18446744073709551615 : UInt64).toNat = 18446744073709551615 := rfl
      omega
  rw [UInt64.lt_iff_toNat_lt, UInt64.toNat_div, hmax]
  have hten : (10 : UInt64).toNat = 10 := rfl
  rw [hten]
  omega

variable {id : UInt64}

theorem toNat_push_digit {c : UInt8} (hc : isDigit c = true)
    (hlt : id.toNat * 10 + (c.toNat - 48) < 2 ^ 64) :
    (id * 10 + (c - 48).toUInt64).toNat = id.toNat * 10 + (c.toNat - 48) := by
  have hsub := toNat_sub_of_isDigit hc
  rw [UInt64.toNat_add, UInt64.toNat_mul, hsub]
  have hten : (10 : UInt64).toNat = 10 := rfl
  rw [hten]
  omega

theorem parseRowDigits_eq_some_iff {key : Bytes} {start : UInt64} :
    parseRowDigits key start = some id ↔ (∀ b ∈ key, isDigit b = true) ∧
      key.foldl (fun n b => n * 10 + (b.toNat - 48)) start.toNat = id.toNat := by
  induction key generalizing start with
  | nil => simp [parseRowDigits, UInt64.toNat_inj]
  | cons c key ih =>
    rw [parseRowDigits, forall_mem_cons, foldl_cons]
    by_cases hc : isDigit c = true
    · rw [if_neg (isDigit_iff_not.mp hc)]
      dsimp only
      by_cases hover : 2 ^ 64 ≤ start.toNat * 10 + (c.toNat - 48)
      · rw [if_pos ((overflow_iff hc start).mpr hover)]
        refine iff_of_false nofun ?_
        rintro ⟨-, hvalue⟩
        have hle := le_foldl_digits key (start.toNat * 10 + (c.toNat - 48))
        have hlt := id.toNat_lt
        omega
      · rw [if_neg fun h => hover ((overflow_iff hc start).mp h), ih,
          toNat_push_digit hc (not_le.mp hover)]
        simp [hc]
    · rw [if_pos (not_not.mp fun h => hc (isDigit_iff_not.mpr h))]
      exact iff_of_false nofun fun h => hc h.1.1

/-- A row key is a string of at most twenty digits for a 64-bit number. -/
theorem todoRowKeyParse_eq_some_iff {key : Bytes} :
    todoRowKeyParse key = some id ↔ key ≠ [] ∧ key.length ≤ indexIdWidth ∧
      (∀ b ∈ key, isDigit b = true) ∧ digitsValue key = id.toNat := by
  rw [todoRowKeyParse]
  split
  case isTrue h =>
    refine iff_of_false nofun ?_
    rintro ⟨hne, hle, -⟩
    rcases h with hzero | hlong
    · exact hne (length_eq_zero_iff.mp hzero)
    · exact absurd hle (not_le.mpr hlong)
  case isFalse h =>
    rw [not_or, length_eq_zero_iff, not_lt] at h
    rw [parseRowDigits_eq_some_iff]
    exact ⟨fun hboth => ⟨h.1, h.2, hboth⟩, fun hall => hall.2.2⟩

theorem length_todoRowKey_le (id : UInt64) : (todoRowKey id).length ≤ indexIdWidth :=
  length_decimal_le (by decide) (toNat_lt_indexIdWidth id)

theorem todoRowKeyParse_todoRowKey (id : UInt64) : todoRowKeyParse (todoRowKey id) = some id :=
  todoRowKeyParse_eq_some_iff.mpr ⟨decimal_ne_nil _, length_todoRowKey_le id,
    fun _ hb => isDigit_of_mem_decimal hb, digitsValue_decimal _⟩

section IndexKeys

variable {userId todoId userId' todoId' : UInt64} {key : Bytes}

theorem length_paddedId (id : UInt64) : (padded indexIdWidth id.toNat).length = 20 :=
  length_padded (by decide) (toNat_lt_indexIdWidth id)

theorem todoRowKeyParse_padded (id : UInt64) :
    todoRowKeyParse (padded indexIdWidth id.toNat) = some id := by
  have hlen := length_paddedId id
  refine todoRowKeyParse_eq_some_iff.mpr ⟨?_, hlen.le, ?_, digitsValue_padded _ _⟩
  · intro hnil
    rw [hnil] at hlen
    exact absurd hlen (by decide)
  · intro b hb
    exact isDigit_of_mem_padded hb

/-- A half of an index key is the padded numeral of its number. -/
theorem todoRowKeyParse_iff_padded {digits : Bytes} (hlen : digits.length = 20) :
    todoRowKeyParse digits = some id ↔ digits = padded indexIdWidth id.toNat := by
  constructor
  · intro h
    obtain ⟨-, -, hdigits, hvalue⟩ := todoRowKeyParse_eq_some_iff.mp h
    have hpadded := eq_padded (by rw [hlen]; decide) hdigits
    rw [hlen, hvalue] at hpadded
    exact hpadded
  · rintro rfl
    exact todoRowKeyParse_padded id

theorem length_todoIndexKey (userId todoId : UInt64) :
    (todoIndexKey userId todoId).length = 50 := by
  rw [todoIndexKey, length_append, length_append, length_append, length_paddedId, length_paddedId]
  rfl

theorem todoIndexKey_eq (userId todoId : UInt64) :
    todoIndexKey userId todoId = indexPrefix ++ (padded indexIdWidth userId.toNat ++
        (58 :: padded indexIdWidth todoId.toNat)) := by
  rw [todoIndexKey, append_assoc, append_assoc]
  rfl

/-- The tests of `todo_index_key_parse` cut a key of 50 bytes into its parts. -/
theorem eq_parts_iff {pfx owner todo : Bytes} (hpfx : pfx.length = 9)
    (howner : owner.length = 20) (htodo : todo.length = 20) :
    key = pfx ++ (owner ++ (58 :: todo)) ↔ key.length = 50 ∧ key.take 9 = pfx ∧
      key[29]? = some 58 ∧ slice key 9 indexIdWidth = owner ∧
        slice key 30 indexIdWidth = todo := by
  constructor
  · rintro rfl
    simp [slice, drop_append, hpfx, howner, htodo, take_of_length_le, drop_of_length_le,
      indexIdWidth]
  · rintro ⟨hlen, rfl, hcolon, rfl, rfl⟩
    obtain ⟨hlt, hget⟩ := List.getElem?_eq_some_iff.mp hcolon
    have hend : slice key 30 indexIdWidth = key.drop 30 :=
      take_of_length_le (by rw [length_drop, hlen]; decide)
    have hrest : key.drop 9 = slice key 9 indexIdWidth ++ key.drop 29 := by
      rw [slice, ← @drop_drop _ 20 9 key]
      exact (take_append_drop indexIdWidth _).symm
    rw [hend, ← hget, ← drop_eq_getElem_cons hlt, ← hrest, take_append_drop]

/-- An index key is read back, and nothing else is read as one. -/
theorem todoIndexKeyParse_eq_some_iff :
    todoIndexKeyParse key = some (userId, todoId) ↔ key = todoIndexKey userId todoId := by
  rw [todoIndexKey_eq, eq_parts_iff rfl (length_paddedId userId) (length_paddedId todoId),
    todoIndexKeyParse]
  split
  next hshape =>
    refine iff_of_false nofun fun hparts => ?_
    rcases hshape with hlen | hpfx | hcolon
    · exact hlen hparts.1
    · exact hpfx hparts.2.1
    · exact hcolon hparts.2.2.1
  next hshape =>
    rw [not_or, not_or, not_not, not_not, not_not] at hshape
    obtain ⟨hlen, hpfx, hcolon⟩ := hshape
    have hfirst : (slice key 9 indexIdWidth).length = 20 :=
      length_slice_of_le (by rw [hlen]; decide)
    have hsecond : (slice key 30 indexIdWidth).length = 20 :=
      length_slice_of_le (by rw [hlen]; decide)
    rw [and_iff_right hlen, and_iff_right hpfx, and_iff_right hcolon,
      ← todoRowKeyParse_iff_padded hfirst, ← todoRowKeyParse_iff_padded hsecond]
    cases todoRowKeyParse (slice key 9 indexIdWidth) with
    | none => simp
    | some owner => simp [and_comm]

theorem todoIndexKeyParse_todoIndexKey (userId todoId : UInt64) :
    todoIndexKeyParse (todoIndexKey userId todoId) = some (userId, todoId) :=
  todoIndexKeyParse_eq_some_iff.mpr rfl

theorem todoIndexKey_inj : todoIndexKey userId todoId =
    todoIndexKey userId' todoId' ↔ userId = userId' ∧ todoId = todoId' := by
  rw [← todoIndexKeyParse_eq_some_iff, todoIndexKeyParse_todoIndexKey, some_inj, Prod.mk_inj]

/-- Texts with heads of one length are ordered by the heads, then by the rest. -/
theorem append_lt_append_iff {xs xs' ys ys' : Bytes} (hlen : xs.length = xs'.length) :
    xs ++ ys < xs' ++ ys' ↔ xs < xs' ∨ xs = xs' ∧ ys < ys' := by
  induction xs generalizing xs' with
  | nil =>
    rw [length_eq_zero_iff.mp hlen.symm]
    simp
  | cons b xs ih =>
    cases xs' with
    | nil => simp at hlen
    | cons b' xs' =>
      rw [cons_append, cons_append, cons_lt_cons_iff,
        cons_lt_cons_iff, ih (Nat.succ.inj hlen), List.cons.injEq]
      tauto

/-- Index keys are in the order of the owners, then of the ids. -/
theorem todoIndexKey_lt_todoIndexKey_iff :
    todoIndexKey userId todoId < todoIndexKey userId' todoId' ↔
      userId < userId' ∨ userId = userId' ∧ todoId < todoId' := by
  have hfits := toNat_lt_indexIdWidth
  have howner : padded indexIdWidth userId.toNat =
      padded indexIdWidth userId'.toNat ↔ userId = userId' := by
    constructor
    · intro heq
      have hparse := todoRowKeyParse_padded userId
      rw [heq, todoRowKeyParse_padded] at hparse
      exact (some.inj hparse).symm
    · rintro rfl
      rfl
  rw [todoIndexKey_eq, todoIndexKey_eq, append_lt_append_iff rfl,
    append_lt_append_iff (by rw [length_paddedId, length_paddedId]), howner,
    cons_lt_cons_iff, padded_lt_padded_iff (by decide) (hfits _) (hfits _),
    padded_lt_padded_iff (by decide) (hfits _) (hfits _)]
  simp [UInt64.lt_iff_toNat_lt]

theorem todoIndexKey_lt_iff :
    todoIndexKey userId todoId < todoIndexKey userId todoId' ↔ todoId < todoId' := by
  rw [todoIndexKey_lt_todoIndexKey_iff]
  simp

theorem todoIndexPrefix_isPrefix_iff :
    todoIndexPrefix userId <+: todoIndexKey userId' todoId ↔ userId = userId' := by
  constructor
  · rintro ⟨rest, hrest⟩
    have hlen : (todoIndexPrefix userId).length = (todoIndexPrefix userId').length := by
      simp [todoIndexPrefix, length_paddedId]
    have hkey : todoIndexKey userId todoId = todoIndexKey userId' todoId :=
      congrArg (· ++ padded indexIdWidth todoId.toNat) (append_inj_left hrest hlen)
    exact (todoIndexKey_inj.mp hkey).1
  · rintro rfl
    exact ⟨_, rfl⟩

theorem todoRowKeyParse_todoIndexKey (userId todoId : UInt64) :
    todoRowKeyParse (todoIndexKey userId todoId) = none := by
  rw [todoRowKeyParse, if_pos]
  right
  rw [length_todoIndexKey]
  decide

end IndexKeys

end Codo.Api
