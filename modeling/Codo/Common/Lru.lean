import Codo.Support.Bytes
import Mathlib.Data.List.Nodup

/-!
# The read cache

`lru.c`: a cache of bounded size with a generation counter.  The recency list is
given from its head, the least recently used entry; the hash table over the same
nodes answers which of them has a key.  Each call holds the cache lock, so it is
one step.  Memory for entries is always there.

`lru_put` and `lru_invalidate` bump the generation.  A fill that brings back a
value read earlier is dropped unless the generation is still the one its reader
took before it read.
-/

namespace Codo.Common

open Support List Option

structure LruCache where
  capacity : ℕ
  entries : List (Bytes × Bytes)
  generation : UInt64
  bounded : entries.length ≤ capacity
  nodup : (entries.map Prod.fst).Nodup
  positive : 0 < capacity

variable {cache : LruCache} {key : Bytes}

namespace LruCache

/-- The list without the node of `key`. -/
def unlink (entries : List (Bytes × Bytes)) (key : Bytes) : List (Bytes × Bytes) :=
  entries.filter fun e => decide (e.1 ≠ key)

/-- The node `hash_find` returns, by its value. -/
def find (cache : LruCache) (key : Bytes) : Option Bytes :=
  (cache.entries.find? fun e => decide (e.1 = key)).map Prod.snd

theorem find_eq_some_iff {value : Bytes} :
    cache.find key = some value ↔ (key, value) ∈ cache.entries := by
  rw [find, map_eq_some_iff]
  constructor
  · rintro ⟨e, hfind, rfl⟩
    have hkey : e.1 = key := by simpa using List.find?_some hfind
    rw [← hkey]
    exact mem_of_find?_eq_some hfind
  · intro hmem
    cases hfind : cache.entries.find? fun e => decide (e.1 = key) with
    | none =>
      rw [List.find?_eq_none] at hfind
      exact absurd (decide_eq_true rfl) (hfind (key, value) hmem)
    | some e =>
      have hkey : e.1 = key := by simpa using List.find?_some hfind
      refine ⟨e, rfl, ?_⟩
      rw [inj_on_of_nodup_map cache.nodup (mem_of_find?_eq_some hfind) hmem hkey]

theorem find_eq_none_iff : cache.find key = none ↔ key ∉ cache.entries.map Prod.fst := by
  rw [eq_none_iff_forall_not_mem]
  constructor
  · intro h hmem
    obtain ⟨e, he, rfl⟩ := mem_map.mp hmem
    exact h e.2 (find_eq_some_iff.mpr he)
  · intro h value hvalue
    exact h (mem_map.mpr ⟨_, find_eq_some_iff.mp hvalue, rfl⟩)

theorem unlink_sublist (entries : List (Bytes × Bytes)) (key : Bytes) :
    (unlink entries key).Sublist entries :=
  filter_sublist

theorem mem_unlink {entries : List (Bytes × Bytes)} {e : Bytes × Bytes} :
    e ∈ unlink entries key ↔ e.1 ≠ key ∧ e ∈ entries := by
  rw [unlink, mem_filter, decide_eq_true_eq, and_comm]

/-- `lru_cache_create`. -/
def create (capacity : ℕ) : Option LruCache :=
  if h : 0 < capacity then
    some ⟨capacity, [], 0, Nat.zero_le _, nodup_nil, h⟩
  else none

/-- The nodes `kept` with a node for `key` behind them. -/
def push (cache : LruCache) (kept : List (Bytes × Bytes)) (key value : Bytes)
    (hkept : kept.Sublist cache.entries) (hroom : kept.length < cache.capacity)
    (hkey : key ∉ kept.map Prod.fst) : LruCache :=
  { cache with
    entries := kept ++ [(key, value)]
    bounded := by
      rw [length_append]
      exact hroom
    nodup := by
      rw [map_append]
      refine nodup_append.mpr ⟨cache.nodup.sublist (hkept.map _), nodup_singleton _, ?_⟩
      rintro a ha b hb rfl
      have heq : a = key := mem_singleton.mp hb
      exact hkey (heq ▸ ha) }

theorem key_notMem_unlink (entries : List (Bytes × Bytes)) (key : Bytes) :
    key ∉ (unlink entries key).map Prod.fst := by
  intro hmem
  obtain ⟨e, he, hkey⟩ := mem_map.mp hmem
  exact (mem_unlink.mp he).1 hkey

theorem length_unlink_lt (h : cache.find key ≠ none) :
    (unlink cache.entries key).length < cache.capacity := by
  obtain ⟨value, hvalue⟩ := ne_none_iff_exists'.mp h
  refine lt_of_lt_of_le ?_ cache.bounded
  exact length_filter_lt_length_iff_exists.mpr ⟨(key, value), find_eq_some_iff.mp hvalue, by simp⟩

/-- `touch`, with the value the node has afterwards. -/
def touch (cache : LruCache) (key value : Bytes) (h : cache.find key ≠ none) : LruCache :=
  cache.push (unlink cache.entries key) key value (unlink_sublist _ _)
    (length_unlink_lt h) (key_notMem_unlink _ _)

/-- `lru_get`: the value of the node and the cache with the node touched. -/
def get (cache : LruCache) (key : Bytes) : Option Bytes × LruCache :=
  match h : cache.find key with
  | none => (none, cache)
  | some value => (some value, cache.touch key value (by rw [h]; exact some_ne_none _))

/-- `store`: the node of `key` gets the value and is touched; a new node takes
the place of the least recently used one when the cache is full. -/
def store (cache : LruCache) (key value : Bytes) : LruCache :=
  if h : cache.find key = none then
    if hfull : cache.capacity ≤ cache.entries.length then
      cache.push cache.entries.tail key value (tail_sublist _) (by
          have hpos := cache.positive
          have hlen := cache.bounded
          rw [length_tail]
          omega)
        (fun hmem => find_eq_none_iff.mp h (((tail_sublist _).map _).subset hmem))
    else cache.push cache.entries key value (.refl _) (not_le.mp hfull) (find_eq_none_iff.mp h)
  else cache.touch key value h

def bump (cache : LruCache) : LruCache :=
  { cache with generation := cache.generation + 1 }

def put (cache : LruCache) (key value : Bytes) : LruCache :=
  cache.bump.store key value

def fill (cache : LruCache) (key value : Bytes) (generation : UInt64) : LruCache :=
  if cache.generation ≠ generation then cache else cache.store key value

def invalidate (cache : LruCache) (key : Bytes) : LruCache :=
  { cache.bump with
    entries := unlink cache.entries key
    bounded := (length_filter_le _ _).trans cache.bounded
    nodup := cache.nodup.sublist ((unlink_sublist _ _).map _) }

section Lookup

variable {key' value value' : Bytes}

theorem find_push {kept : List (Bytes × Bytes)}
    {hkept : kept.Sublist cache.entries} {hroom : kept.length < cache.capacity}
    {hkey : key ∉ kept.map Prod.fst} :
    (cache.push kept key value hkept hroom hkey).find key' = some value' ↔
      (key', value') ∈ kept ∨ key' = key ∧ value' = value := by
  rw [find_eq_some_iff, push, mem_append, mem_singleton, Prod.mk.injEq]

theorem find_touch {h : cache.find key ≠ none} :
    (cache.touch key value h).find key' = some value' ↔ key' = key ∧ value' = value ∨
        key' ≠ key ∧ cache.find key' = some value' := by
  rw [touch, find_push, mem_unlink, find_eq_some_iff, or_comm]

/-- What is cached after a store is the new value, or was cached before. -/
theorem find_store (h : (cache.store key value).find key' = some value') :
    key' = key ∧ value' = value ∨ key' ≠ key ∧ cache.find key' = some value' := by
  rw [store] at h
  split at h
  case isTrue hnone =>
    have hold : ∀ {kept : List (Bytes × Bytes)}, kept.Sublist cache.entries →
        (key', value') ∈ kept ∨ key' = key ∧ value' = value → key' = key ∧ value' = value ∨
          key' ≠ key ∧ cache.find key' = some value' := by
      rintro kept hkept (hmem | hnew)
      · have hmem := hkept.subset hmem
        refine .inr ⟨?_, find_eq_some_iff.mpr hmem⟩
        rintro rfl
        exact find_eq_none_iff.mp hnone (mem_map.mpr ⟨_, hmem, rfl⟩)
      · exact .inl hnew
    split at h
    · exact hold (tail_sublist _) (find_push.mp h)
    · exact hold (.refl _) (find_push.mp h)
  case isFalse => exact find_touch.mp h

theorem find_put (h : (cache.put key value).find key' = some value') :
    key' = key ∧ value' = value ∨ key' ≠ key ∧ cache.find key' = some value' := by
  have hstore : (cache.bump.store key value).find key' = some value' := h
  have hfound := find_store hstore
  exact hfound

@[simp] theorem generation_get (cache : LruCache) (key : Bytes) :
    (cache.get key).2.generation = cache.generation := by
  rw [get]
  split <;> rfl

@[simp] theorem generation_store (cache : LruCache) (key value : Bytes) :
    (cache.store key value).generation = cache.generation := by
  rw [store]
  split
  · split <;> rfl
  · rfl

theorem find_invalidate :
    (cache.invalidate key).find key' = some value' ↔
      key' ≠ key ∧ cache.find key' = some value' := by
  rw [find_eq_some_iff, invalidate, mem_unlink, find_eq_some_iff]

end Lookup

end LruCache

end Codo.Common
