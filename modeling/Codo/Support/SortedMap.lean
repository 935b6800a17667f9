import Mathlib.Data.List.Nodup
import Mathlib.Data.List.Pairwise
import Mathlib.Order.Lattice
import Mathlib.Tactic.Common

/-!
# Sorted maps

A finite map given by its entries in increasing order of their keys.  Two maps
are equal when they have the same entries, and a lookup is membership of an
entry, so every fact about an operation is a fact about its entries.
-/

namespace Codo.Support

open List

/-- Entries in strictly increasing order of their keys. -/
@[ext] structure SortedMap (K V : Type*) [LinearOrder K] where
  entries : List (K × V)
  sorted : entries.Pairwise fun a b => a.1 < b.1

namespace SortedMap

variable {K V : Type*} [LinearOrder K]

def empty : SortedMap K V :=
  ⟨[], .nil⟩

def get? (m : SortedMap K V) (k : K) : Option V :=
  (m.entries.find? fun e => decide (e.1 = k)).map Prod.snd

def erase (m : SortedMap K V) (k : K) : SortedMap K V where
  entries := m.entries.filter fun e => decide (e.1 ≠ k)
  sorted := m.sorted.filter _

/-- The entries whose keys satisfy `P`. -/
def restrict (m : SortedMap K V) (P : K → Bool) : SortedMap K V where
  entries := m.entries.filter fun e => P e.1
  sorted := m.sorted.filter _

def insert (m : SortedMap K V) (k : K) (v : V) : SortedMap K V where
  entries := m.entries.filter (fun e => decide (e.1 < k)) ++
    (k, v) :: m.entries.filter fun e => decide (k < e.1)
  sorted := by
    have hlow : ∀ e ∈ m.entries.filter (fun e => decide (e.1 < k)), e.1 < k :=
      fun e he => of_decide_eq_true (mem_filter.mp he).2
    have hhigh : ∀ e ∈ m.entries.filter (fun e => decide (k < e.1)), k < e.1 :=
      fun e he => of_decide_eq_true (mem_filter.mp he).2
    refine pairwise_append.mpr ⟨m.sorted.filter _, pairwise_cons.mpr ⟨hhigh, m.sorted.filter _⟩, ?_⟩
    intro a ha b hb
    rcases mem_cons.mp hb with rfl | hb
    · exact hlow a ha
    · exact lt_trans (hlow a ha) (hhigh b hb)

variable {m m' : SortedMap K V} {k k' : K} {v v' : V}

theorem nodup_keys (m : SortedMap K V) : (m.entries.map Prod.fst).Nodup :=
  pairwise_map.mpr (m.sorted.imp fun hlt => ne_of_lt hlt)

theorem get?_eq_some_iff : m.get? k = some v ↔ (k, v) ∈ m.entries := by
  rw [get?, Option.map_eq_some_iff]
  constructor
  · rintro ⟨⟨k', v'⟩, hfind, rfl⟩
    have hkey : k' = k := by simpa using List.find?_some hfind
    rw [← hkey]
    exact mem_of_find?_eq_some hfind
  · intro hmem
    cases hfind : m.entries.find? fun e => decide (e.1 = k) with
    | none =>
      rw [List.find?_eq_none] at hfind
      exact absurd (decide_eq_true rfl) (hfind (k, v) hmem)
    | some e =>
      have hkey : e.1 = k := by simpa using List.find?_some hfind
      refine ⟨e, rfl, ?_⟩
      rw [inj_on_of_nodup_map m.nodup_keys (mem_of_find?_eq_some hfind) hmem hkey]

theorem ext_get? (h : ∀ k, m.get? k = m'.get? k) : m = m' := by
  have hmem : ∀ e, e ∈ m.entries ↔ e ∈ m'.entries := by
    rintro ⟨k, v⟩
    rw [← get?_eq_some_iff, ← get?_eq_some_iff, h]
  have hperm : m.entries.Perm m'.entries := (perm_ext_iff_of_nodup (m.nodup_keys.of_map _)
      (m'.nodup_keys.of_map _)).mpr hmem
  apply SortedMap.ext
  refine hperm.eq_of_pairwise ?_ m.sorted m'.sorted
  intro a b _ _ hab hba
  exact absurd hab (lt_asymm hba)

theorem get?_restrict (m : SortedMap K V) (P : K → Bool) (k : K) :
    (m.restrict P).get? k = if P k = true then m.get? k else none := by
  apply Option.ext
  intro v
  rw [get?_eq_some_iff, restrict, mem_filter, ← get?_eq_some_iff]
  by_cases hk : P k = true <;> simp [hk]

/-- Maps with the same lookups in a set of keys list the same entries there. -/
theorem restrict_congr {P : K → Bool} (h : ∀ k, P k = true → m.get? k = m'.get? k) :
    m.restrict P = m'.restrict P := by
  apply ext_get?
  intro k
  rw [get?_restrict, get?_restrict]
  split
  next hk => exact h k hk
  next => rfl

theorem mem_insert_entries {e : K × V} :
    e ∈ (m.insert k v).entries ↔ e = (k, v) ∨ e.1 ≠ k ∧ e ∈ m.entries := by
  simp only [insert, mem_append, mem_cons, mem_filter, decide_eq_true_eq]
  constructor
  · rintro (⟨hmem, hlt⟩ | rfl | ⟨hmem, hlt⟩)
    · exact .inr ⟨ne_of_lt hlt, hmem⟩
    · exact .inl rfl
    · exact .inr ⟨ne_of_gt hlt, hmem⟩
  · rintro (rfl | ⟨hne, hmem⟩)
    · exact .inr (.inl rfl)
    · rcases lt_or_gt_of_ne hne with hlt | hlt
      · exact .inl ⟨hmem, hlt⟩
      · exact .inr (.inr ⟨hmem, hlt⟩)

theorem mem_erase_entries {e : K × V} : e ∈ (m.erase k).entries ↔ e.1 ≠ k ∧ e ∈ m.entries := by
  rw [erase, mem_filter, decide_eq_true_eq, and_comm]

theorem get?_insert (m : SortedMap K V) (k : K) (v : V) (k' : K) :
    (m.insert k v).get? k' = if k' = k then some v else m.get? k' := by
  apply Option.ext
  intro w
  rw [get?_eq_some_iff, mem_insert_entries]
  split
  case isTrue heq =>
    rw [heq]
    simp [eq_comm]
  case isFalse hne => simp [get?_eq_some_iff, hne]

theorem get?_erase (m : SortedMap K V) (k k' : K) :
    (m.erase k).get? k' = if k' = k then none else m.get? k' := by
  apply Option.ext
  intro w
  rw [get?_eq_some_iff, mem_erase_entries]
  split
  case isTrue heq => simp [heq]
  case isFalse hne => simp [get?_eq_some_iff, hne]

end SortedMap

end Codo.Support
