import Codo.Support.HashChains

/-!
# Doubly linked lists

A list threaded through its nodes by two links.  `LinkedList.Holds d l` says
that the links of `d` lead through the nodes `l` in both directions.
-/

namespace Codo.Support

open List Function

/-- The links of a list with nodes `ν`. -/
structure LinkedList (ν : Type) where
  head : Option ν
  tail : Option ν
  prev : ν → Option ν
  next : ν → Option ν

namespace LinkedList

variable {ν : Type}

def empty : LinkedList ν :=
  ⟨none, none, fun _ => none, fun _ => none⟩

section Operations

variable [DecidableEq ν]

/-- The link that leads to `v` from the front is redirected past it. -/
def skipForward (d : LinkedList ν) (v : ν) : LinkedList ν :=
  match d.prev v with
  | some u => { d with next := update d.next u (d.next v) }
  | none => { d with head := d.next v }

/-- The link that leads to `v` from the back is redirected past it. -/
def skipBackward (d : LinkedList ν) (v : ν) : LinkedList ν :=
  match d.next v with
  | some w => { d with prev := update d.prev w (d.prev v) }
  | none => { d with tail := d.prev v }

def clear (d : LinkedList ν) (v : ν) : LinkedList ν :=
  { d with
    prev := update d.prev v none
    next := update d.next v none }

def unlink (d : LinkedList ν) (v : ν) : LinkedList ν :=
  ((d.skipForward v).skipBackward v).clear v

/-- Put `v` behind the last node. -/
def pushBack (d : LinkedList ν) (v : ν) : LinkedList ν :=
  let d := { d with
    prev := update d.prev v d.tail
    next := update d.next v none }
  match d.tail with
  | some u => { d with
      next := update d.next u (some v)
      tail := some v }
  | none => { d with
      head := some v
      tail := some v }

end Operations

/-- The links lead through `l` from the head and back through it from the
tail. -/
structure Holds (d : LinkedList ν) (l : List ν) : Prop where
  forward : Visits d.next d.head l
  backward : Visits d.prev d.tail l.reverse
  nodup : l.Nodup

theorem holds_empty : (empty : LinkedList ν).Holds [] :=
  ⟨rfl, rfl, nodup_nil⟩

end LinkedList

section Visits

variable {ν : Type} {next : ν → Option ν} {start : Option ν} {l xs ys : List ν} {v : ν}

theorem Visits.start_eq (h : Visits next start l) : start = l.head? := by
  cases l with
  | nil => exact h
  | cons u l => exact h.1

theorem Visits.next_eq (h : Visits next start (xs ++ v :: ys)) : next v = ys.head? :=
  h.suffix.start_eq

variable [DecidableEq ν]

theorem Visits.concat {u : ν} (h : Visits next start (xs ++ [u]))
    (hnodup : (xs ++ [u]).Nodup) (hv : v ∉ xs ++ [u]) :
    Visits (update (update next v none) u (some v)) start (xs ++ [u] ++ [v]) := by
  induction xs generalizing start with
  | nil =>
    have hne : v ≠ u := fun heq => hv (by simp [heq])
    refine ⟨h.1, update_self _ _ _, ?_⟩
    change update (update next v none) u (some v) v = none
    rw [update_of_ne hne, update_self]
  | cons w xs ih =>
    rw [cons_append, nodup_cons] at hnodup
    rw [cons_append, mem_cons, not_or] at hv
    have hw : w ≠ u := fun heq => hnodup.1 (by simp [heq])
    refine ⟨h.1, ?_⟩
    rw [update_of_ne hw, update_of_ne (Ne.symm hv.1)]
    exact ih h.2 hnodup.2 hv.2

/-- The links when the one that leads to `v` is redirected past it. -/
def skipLinks (before : Option ν) (v : ν) (next : ν → Option ν) : ν → Option ν :=
  match before with
  | some u => update next u (next v)
  | none => next

/-- Where the walk starts when the link that leads to `v` is redirected past
it. -/
def skipStart (before : Option ν) (v : ν) (next : ν → Option ν) (start : Option ν) : Option ν :=
  match before with
  | some _ => start
  | none => next v

theorem Visits.unlink (h : Visits next start (xs ++ v :: ys)) (hnodup : (xs ++ v :: ys).Nodup) :
    Visits (update (skipLinks xs.getLast? v next) v none)
      (skipStart xs.getLast? v next start) (xs ++ ys) := by
  have hv : v ∉ xs ++ ys := (nodup_cons.mp (nodup_middle.mp hnodup)).1
  have hskip : Visits (skipLinks xs.getLast? v next)
      (skipStart xs.getLast? v next start) (xs ++ ys) := by
    rcases eq_nil_or_concat xs with rfl | ⟨front, u, rfl⟩
    · exact h.2
    · rw [concat_eq_append] at h hnodup ⊢
      rw [List.getLast?_concat, append_assoc, singleton_append]
      rw [append_assoc, singleton_append] at h hnodup
      exact h.skip hnodup
  refine hskip.congr fun w hw => update_of_ne ?_ _ _
  rintro rfl
  exact hv hw

end Visits

namespace LinkedList

variable {ν : Type} {d : LinkedList ν} {l xs ys : List ν} {v : ν}

theorem Holds.next_eq (h : d.Holds (xs ++ v :: ys)) : d.next v = ys.head? :=
  h.forward.next_eq

theorem Holds.prev_eq (h : d.Holds (xs ++ v :: ys)) : d.prev v = xs.getLast? := by
  have hback := h.backward
  rw [reverse_append, reverse_cons, append_assoc, singleton_append] at hback
  rw [hback.next_eq, List.head?_reverse]

theorem Holds.tail_eq (h : d.Holds l) : d.tail = l.getLast? := by
  rw [h.backward.start_eq, List.head?_reverse]

/-- The two links out of each node are inverse to each other. -/
theorem Holds.next_eq_some_iff (h : d.Holds l) {u w : ν} (hu : u ∈ l)
    (hw : w ∈ l) : d.next u = some w ↔ d.prev w = some u := by
  constructor
  · intro hnext
    obtain ⟨xs, ys, rfl⟩ := append_of_mem hu
    rw [h.next_eq] at hnext
    obtain ⟨ys, rfl⟩ := List.head?_eq_some_iff.mp hnext
    have hsplit : xs ++ u :: w :: ys = (xs ++ [u]) ++ w :: ys := by simp
    rw [hsplit] at h
    rw [h.prev_eq, List.getLast?_concat]
  · intro hprev
    obtain ⟨xs, ys, rfl⟩ := append_of_mem hw
    rw [h.prev_eq] at hprev
    obtain ⟨xs, rfl⟩ := List.getLast?_eq_some_iff.mp hprev
    rw [append_assoc, singleton_append] at h
    rw [h.next_eq, List.head?_cons]

variable [DecidableEq ν]

theorem unlink_eq (hself : d.prev v ≠ some v) :
    d.unlink v = ⟨skipStart (d.prev v) v d.next d.head, skipStart (d.next v) v d.prev d.tail,
        update (skipLinks (d.next v) v d.prev) v none,
        update (skipLinks (d.prev v) v d.next) v none⟩ := by
  cases hprev : d.prev v with
  | none =>
    cases hnext : d.next v with
    | none => simp [unlink, skipForward, skipBackward, clear, skipStart, skipLinks, hprev, hnext]
    | some w => simp [unlink, skipForward, skipBackward, clear, skipStart, skipLinks, hprev, hnext]
  | some u =>
    have hne : v ≠ u := fun heq => hself (heq ▸ hprev)
    cases hnext : d.next v with
    | none => simp [unlink, skipForward, skipBackward, clear, skipStart,
        skipLinks, hprev, hnext, update_of_ne hne]
    | some w => simp [unlink, skipForward, skipBackward, clear, skipStart,
        skipLinks, hprev, hnext, update_of_ne hne]

theorem Holds.unlink (h : d.Holds (xs ++ v :: ys)) : (d.unlink v).Holds (xs ++ ys) := by
  have hself : d.prev v ≠ some v := by
    rw [h.prev_eq]
    intro hlast
    have hmem := mem_of_getLast? hlast
    have hv := (nodup_cons.mp (nodup_middle.mp h.nodup)).1
    exact hv (mem_append_left ys hmem)
  have hback : Visits d.prev d.tail (ys.reverse ++ v :: xs.reverse) := by
    have hreverse := h.backward
    rwa [reverse_append, reverse_cons, append_assoc, singleton_append] at hreverse
  have hnodup : (ys.reverse ++ v :: xs.reverse).Nodup := by
    have hreverse := nodup_reverse.mpr h.nodup
    rwa [reverse_append, reverse_cons, append_assoc, singleton_append] at hreverse
  rw [unlink_eq hself, h.prev_eq, h.next_eq]
  refine ⟨h.forward.unlink h.nodup, ?_, ?_⟩
  · rw [reverse_append, ← List.getLast?_reverse]
    exact hback.unlink hnodup
  · exact (nodup_cons.mp (nodup_middle.mp h.nodup)).2

theorem Holds.pushBack (h : d.Holds l) (hv : v ∉ l) : (d.pushBack v).Holds (l ++ [v]) := by
  have hback : Visits (update d.prev v d.tail) d.tail l.reverse := by
    refine h.backward.congr fun u hu => update_of_ne ?_ _ _
    rintro rfl
    exact hv (mem_reverse.mp hu)
  have hnodup : (l ++ [v]).Nodup := by
    rw [nodup_append]
    refine ⟨h.nodup, nodup_singleton v, ?_⟩
    rintro a ha b hb rfl
    exact hv (mem_singleton.mp hb ▸ ha)
  rw [LinkedList.pushBack]
  dsimp only
  rcases eq_nil_or_concat l with rfl | ⟨front, u, rfl⟩
  · have htail : d.tail = none := h.tail_eq
    rw [htail]
    refine ⟨⟨rfl, update_self _ _ _⟩, ⟨rfl, update_self _ _ _⟩, hnodup⟩
  · rw [concat_eq_append] at h hv hback hnodup ⊢
    have htail : d.tail = some u := by rw [h.tail_eq, List.getLast?_concat]
    rw [htail] at hback ⊢
    dsimp only
    refine ⟨h.forward.concat h.nodup hv, ?_, hnodup⟩
    rw [reverse_append]
    refine ⟨rfl, ?_⟩
    change Visits _ (update d.prev v (some u) v) _
    rw [update_self]
    exact hback

end LinkedList

end Codo.Support
