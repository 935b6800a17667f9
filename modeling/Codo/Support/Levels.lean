import Mathlib.Data.List.Basic
import Mathlib.Data.List.Nodup
import Mathlib.Data.List.Pairwise
import Mathlib.Order.WithBot
import Mathlib.Tactic.Ring

/-!
# Search trees read level by level

A multiway search tree is given by a map `V` from node ids to branches.  A
branch lists separator keys with the child below each, and one last child for
everything above.  A level of the tree is the list of its nodes from left to
right, each with the upper bound its ancestors assign to it; the next level is
obtained by expanding every node into its children.

Routing a key through the tree is then a search in a list: on each level it
visits the first node whose bound is not below the key.  Splitting a node or
growing the root is an equation between levels.
-/

namespace Codo.Support.Levels

open List Option

variable {K ι : Type}

/-- Separators with the child below each, and the child above them all. -/
structure Branch (K ι : Type) where
  seps : List (K × ι)
  last : ι

/-- The children of a branch whose own upper bound is `hi`. -/
def Branch.slots (b : Branch K ι) (hi : WithTop K) : List (ι × WithTop K) :=
  b.seps.map (fun s => (s.2, (s.1 : WithTop K))) ++ [(b.last, hi)]

/-- The level below `L`. -/
def expand (V : ι → Branch K ι) (L : List (ι × WithTop K)) : List (ι × WithTop K) :=
  L.flatMap fun s => (V s.1).slots s.2

/-- The level `n` steps below the nodes `L`. -/
def below (V : ι → Branch K ι) (L : List (ι × WithTop K)) :
    ℕ → List (ι × WithTop K)
  | 0 => L
  | n + 1 => expand V (below V L n)

/-- Level `n` of the tree at `root`. -/
def level (V : ι → Branch K ι) (root : ι) (n : ℕ) : List (ι × WithTop K) :=
  below V [(root, ⊤)] n

/-! ## Expanding a level -/

variable {V : ι → Branch K ι} {L L' : List (ι × WithTop K)} {s : ι × WithTop K}
  {A B : List (ι × WithTop K)}

section Expand

variable {V' : ι → Branch K ι}

@[simp] theorem expand_nil : expand V [] = [] := rfl

@[simp] theorem expand_cons (s : ι × WithTop K) :
    expand V (s :: L) = (V s.1).slots s.2 ++ expand V L := by
  simp [expand]

@[simp] theorem expand_append : expand V (L ++ L') = expand V L ++ expand V L' := by
  simp [expand]

theorem expand_congr (h : ∀ s ∈ L, V s.1 = V' s.1) : expand V L = expand V' L := by
  induction L with
  | nil => rfl
  | cons s L ih =>
    have hs := h s (by simp)
    have hL := ih fun t ht => h t (by simp [ht])
    rw [expand_cons, expand_cons, hs, hL]

theorem below_congr {n : ℕ} (h : ∀ i, i < n → ∀ s ∈ below V L i, V s.1 = V' s.1) :
    below V L n = below V' L n := by
  induction n with
  | zero => rfl
  | succ n ih =>
    have habove := ih fun i hi => h i (Nat.lt_succ_of_lt hi)
    rw [below, below, expand_congr (h n (Nat.lt_succ_self n)), habove]

theorem below_add (a b : ℕ) : below V L (a + b) = below V (below V L a) b := by
  induction b with
  | zero => rfl
  | succ b ih => rw [← Nat.add_assoc, below, ih, below]

@[simp] theorem below_append (n : ℕ) : below V (L ++ L') n = below V L n ++ below V L' n := by
  induction n with
  | zero => rfl
  | succ n ih => rw [below, ih, expand_append, below, below]

theorem last_mem_slots (b : Branch K ι) (hi : WithTop K) : (b.last, hi) ∈ b.slots hi := by
  simp [Branch.slots]

theorem last_mem_expand (hs : s ∈ L) : ((V s.1).last, s.2) ∈ expand V L :=
  mem_flatMap.mpr ⟨s, hs, last_mem_slots _ _⟩

/-- Distinct nodes have distinct last children, so a level without repeated
nodes sits below a level without repeated nodes. -/
theorem nodup_of_nodup_expand (h : ((expand V L).map Prod.fst).Nodup) : (L.map Prod.fst).Nodup := by
  induction L with
  | nil => exact nodup_nil
  | cons s L ih =>
    rw [expand_cons, map_append, nodup_append] at h
    obtain ⟨-, hrest, hdisj⟩ := h
    rw [map_cons, nodup_cons]
    refine ⟨?_, ih hrest⟩
    intro hmem
    obtain ⟨t, ht, hid⟩ := mem_map.mp hmem
    have hleft : (V s.1).last ∈ ((V s.1).slots s.2).map Prod.fst :=
      mem_map.mpr ⟨_, last_mem_slots _ _, rfl⟩
    have hright : (V t.1).last ∈ (expand V L).map Prod.fst :=
      mem_map.mpr ⟨_, last_mem_expand ht, rfl⟩
    exact hdisj _ hleft _ hright (by rw [hid])

theorem nodup_below {h i : ℕ} (hi : i ≤ h) (hnodup : ((below V L h).map Prod.fst).Nodup) :
    ((below V L i).map Prod.fst).Nodup := by
  induction hi with
  | refl => exact hnodup
  | step _ ih => exact ih (nodup_of_nodup_expand hnodup)

theorem below_cons (s : ι × WithTop K) (n : ℕ) :
    below V (s :: L) n = below V [s] n ++ below V L n := by
  rw [← below_append, singleton_append]

/-- The bound of a node only reaches the last node of each level below it. -/
theorem exists_below_singleton (V : ι → Branch K ι) (id : ι) (n : ℕ) :
    ∃ front last, ∀ hi, below V [(id, hi)] n = front ++ [(last, hi)] := by
  induction n with
  | zero => exact ⟨[], id, fun _ => rfl⟩
  | succ n ih =>
    obtain ⟨front, last, hbelow⟩ := ih
    refine ⟨expand V front ++ (V last).seps.map (fun s => (s.2, (s.1 : WithTop K))),
      (V last).last, ?_⟩
    intro hi
    rw [below, hbelow hi, expand_append, expand_cons, expand_nil,
      append_nil, Branch.slots, append_assoc]

/-- Changing the branch of one node changes its own children only. -/
theorem expand_replace {p : ι} {hi : WithTop K} (hother : ∀ s ∈ A ++ B, V' s.1 = V s.1) :
    expand V' (A ++ (p, hi) :: B) = expand V A ++ (V' p).slots hi ++ expand V B := by
  have hA : expand V' A = expand V A := expand_congr fun s hs => hother s (mem_append_left _ hs)
  have hB : expand V' B = expand V B := expand_congr fun s hs => hother s (mem_append_right _ hs)
  rw [expand_append, expand_cons, hA, hB, append_assoc]

theorem length_slots (b : Branch K ι) (hi : WithTop K) :
    (b.slots hi).length = b.seps.length + 1 := by
  simp [Branch.slots]

/-- Nodes with at least `c` separators have a level at least `c + 1` times as
long below them. -/
theorem length_expand_ge {c : ℕ} (h : ∀ s ∈ L, c ≤ (V s.1).seps.length) :
    (c + 1) * L.length ≤ (expand V L).length := by
  induction L with
  | nil => simp
  | cons s L ih =>
    have hs := h s (by simp)
    have hL := ih fun t ht => h t (by simp [ht])
    rw [expand_cons, length_append, length_slots, length_cons, Nat.mul_succ]
    omega

/-- The length of the level `n` steps below, by induction on the steps. -/
theorem length_below_ge {c n : ℕ} (h : ∀ i, i < n → ∀ s ∈ below V L i, c ≤ (V s.1).seps.length) :
    (c + 1) ^ n * L.length ≤ (below V L n).length := by
  induction n with
  | zero => simp [below]
  | succ n ih =>
    have habove := ih fun i hi => h i (Nat.lt_succ_of_lt hi)
    have hstep := length_expand_ge (h n (Nat.lt_succ_self n))
    calc
      (c + 1) ^ (n + 1) * L.length = (c + 1) * ((c + 1) ^ n * L.length) := by
        rw [Nat.pow_succ, Nat.mul_comm ((c + 1) ^ n), Nat.mul_assoc]
      _ ≤ (c + 1) * (below V L n).length := Nat.mul_le_mul_left _ habove
      _ ≤ (below V L (n + 1)).length := hstep

theorem eq_of_nodup {t : ι × WithTop K} (h : (L.map Prod.fst).Nodup)
    (hs : s ∈ L) (ht : t ∈ L) (hid : s.1 = t.1) : s = t :=
  inj_on_of_nodup_map h hs ht hid

/-- The nodes around `x` on a level without repeated ids. -/
theorem sibling_of_nodup {x : ι × WithTop K}
    (h : ((A ++ x :: B).map Prod.fst).Nodup) (hs : s ∈ A ++ B) : s ∈ A ++ x :: B ∧ s.1 ≠ x.1 := by
  constructor
  · rw [mem_append, mem_cons]
    rcases mem_append.mp hs with hA | hB
    · exact .inl hA
    · exact .inr (.inr hB)
  · intro heq
    rw [map_append, map_cons, nodup_middle, nodup_cons, ← map_append] at h
    exact h.1 (mem_map.mpr ⟨s, hs, heq⟩)

/-- A list without repeated ids is cut at a given node in one way only. -/
theorem append_cons_inj_of_nodup {C D : List (ι × WithTop K)} (h : A ++ s :: B = C ++ s :: D)
    (hnodup : ((C ++ s :: D).map Prod.fst).Nodup) : A = C ∧ B = D := by
  induction A generalizing C with
  | nil =>
    cases C with
    | nil => exact ⟨rfl, (List.cons.inj h).2⟩
    | cons c C =>
      obtain ⟨rfl, -⟩ := List.cons.inj h
      rw [cons_append, map_cons, nodup_cons] at hnodup
      exact absurd (by simp) hnodup.1
  | cons a A ih =>
    cases C with
    | nil =>
      obtain ⟨rfl, rfl⟩ := List.cons.inj h
      rw [nil_append, map_cons, nodup_cons] at hnodup
      exact absurd (by simp) hnodup.1
    | cons c C =>
      obtain ⟨rfl, hrest⟩ := List.cons.inj h
      rw [cons_append, map_cons, nodup_cons] at hnodup
      obtain ⟨rfl, rfl⟩ := ih hrest hnodup.2
      exact ⟨rfl, rfl⟩

/-- The ids on the level `n` steps below `L`. -/
def ids (V : ι → Branch K ι) (L : List (ι × WithTop K)) (n : ℕ) : List ι :=
  (below V L n).map Prod.fst

/-- Following last children from level `i` for `m` steps ends on level
`i + m`. -/
theorem iterate_last_mem_ids {i : ℕ} {id : ι} (h : id ∈ ids V L i)
    (m : ℕ) : (fun id => (V id).last)^[m] id ∈ ids V L (i + m) := by
  induction m with
  | zero => exact h
  | succ m ih =>
    obtain ⟨s, hs, hid⟩ := mem_map.mp ih
    rw [Function.iterate_succ_apply', ← hid]
    exact mem_map.mpr ⟨_, last_mem_expand hs, rfl⟩

end Expand

section Coarser

variable {L'' : List (ι × WithTop K)}

/-- `L'` covers the same bounds as `L` with fewer nodes: the bound of a node
is handed to one on its left, and the nodes after that one are dropped. -/
inductive Coarser (L : List (ι × WithTop K)) : List (ι × WithTop K) → Prop
  | refl : Coarser L L
  | merge {A M C : List (ι × WithTop K)} {a b : ι} {sep hi : WithTop K}
      (h : Coarser L (A ++ (a, sep) :: (M ++ (b, hi) :: C))) :
      Coarser L (A ++ (a, hi) :: C)

namespace Coarser

theorem trans (h : Coarser L L') (h' : Coarser L' L'') : Coarser L L'' := by
  induction h' with
  | refl => exact h
  | merge _ ih => exact ih.merge

/-- The nodes of the coarser level stand in the same order in the finer. -/
theorem sublist (h : Coarser L L') : (L'.map Prod.fst).Sublist (L.map Prod.fst) := by
  induction h with
  | refl => exact .refl _
  | merge _ ih =>
    refine .trans ?_ ih
    simp only [map_append, map_cons]
    refine .append_left (.cons_cons _ ?_) _
    refine .trans ?_ (sublist_append_right _ _)
    exact sublist_cons_self _ _

theorem exists_mem (h : Coarser L L') (hs : s ∈ L') : ∃ t ∈ L, t.1 = s.1 :=
  mem_map.mp (h.sublist.subset (mem_map.mpr ⟨s, hs, rfl⟩))

theorem levels (h : Coarser L L') (n : ℕ) : Coarser (Levels.below V L n) (Levels.below V L' n) := by
  induction h with
  | refl => exact .refl
  | @merge A M C a b sep hi _ ih =>
    obtain ⟨front, last, ha⟩ := exists_below_singleton V a n
    obtain ⟨front', last', hb⟩ := exists_below_singleton V b n
    rw [below_append, below_cons (a, hi), ha]
    rw [below_append, below_cons (a, sep), ha, below_append, below_cons (b, hi), hb] at ih
    have hmerged := @merge _ _ _ (Levels.below V A n ++ front)
      (Levels.below V M n ++ front') (Levels.below V C n) last last' sep hi (by simpa using ih)
    simpa using hmerged

end Coarser

end Coarser

section Order

variable [LinearOrder K]
variable {hi : WithTop K} {k : K}

/-- The bounds of a level increase strictly from left to right. -/
def Ascending (L : List (ι × WithTop K)) : Prop :=
  L.Pairwise fun s t => s.2 < t.2

theorem ascending_of_expand (h : Ascending (expand V L)) : Ascending L := by
  induction L with
  | nil => exact .nil
  | cons s L ih =>
    rw [Ascending, expand_cons, pairwise_append] at h
    obtain ⟨-, hrest, hcross⟩ := h
    refine pairwise_cons.mpr ⟨?_, ih hrest⟩
    intro t ht
    exact hcross ((V s.1).last, s.2) (last_mem_slots _ _) ((V t.1).last, t.2) (last_mem_expand ht)

/-- Dropping the nodes after `a` up to one with bound `hi`, and handing that
bound to `a`, keeps a level ascending. -/
theorem ascending_merge {C : List (ι × WithTop K)} {a b : ι} {sep : WithTop K}
    (h : Ascending (A ++ (a, sep) :: (B ++ (b, hi) :: C))) : Ascending (A ++ (a, hi) :: C) := by
  rw [Ascending, pairwise_append, pairwise_cons, pairwise_append, pairwise_cons] at h
  obtain ⟨hA, ⟨-, -, ⟨hC, hCC⟩, -⟩, hcross⟩ := h
  refine pairwise_append.mpr ⟨hA, pairwise_cons.mpr ⟨hC, hCC⟩, ?_⟩
  intro s hs t ht
  rcases mem_cons.mp ht with rfl | ht
  · exact hcross s hs (b, hi) (by simp)
  · exact hcross s hs t (by simp [ht])

/-- The node of a level that a search for `k` visits. -/
def routeAt (L : List (ι × WithTop K)) (k : K) : Option (ι × WithTop K) :=
  L.find? fun s => decide ((k : WithTop K) ≤ s.2)

theorem Branch.le_of_mem_slots {b : Branch K ι} (h : Ascending (b.slots hi))
    (hs : s ∈ b.slots hi) : s.2 ≤ hi := by
  rw [Ascending, Branch.slots, pairwise_append] at h
  obtain ⟨-, -, hcross⟩ := h
  rcases mem_append.mp hs with hsep | hlast
  · exact (hcross s hsep (b.last, hi) (by simp)).le
  · rw [mem_singleton.mp hlast]

/-- A search stops at a node when every node before it is bounded below the
key. -/
theorem routeAt_append (hA : ∀ t ∈ A, t.2 < (k : WithTop K))
    (hs : (k : WithTop K) ≤ s.2) : routeAt (A ++ s :: B) k = some s := by
  rw [routeAt, List.find?_eq_some_iff_append]
  refine ⟨by simpa using hs, A, B, rfl, ?_⟩
  intro t ht
  simpa using hA t ht

/-- The nodes before the visited one are bounded below the key. -/
theorem exists_split_of_routeAt (h : routeAt L k = some s) :
    ∃ A B, L = A ++ s :: B ∧ ∀ t ∈ A, t.2 < (k : WithTop K) := by
  rw [routeAt, List.find?_eq_some_iff_append] at h
  obtain ⟨-, A, B, hL, hA⟩ := h
  refine ⟨A, B, hL, ?_⟩
  intro t ht
  simpa using hA t ht

/-- Routing goes through the parent: the node visited one level down is the
child the visited node's own branch selects. -/
theorem routeAt_expand (h : Ascending (expand V L)) (hs : routeAt L k = some s) :
    routeAt (expand V L) k = routeAt ((V s.1).slots s.2) k := by
  induction L with
  | nil => simp [routeAt] at hs
  | cons t L ih =>
    have hparts := h
    rw [Ascending, expand_cons, pairwise_append] at hparts
    obtain ⟨hhead, hrest, -⟩ := hparts
    rw [expand_cons, routeAt, List.find?_append]
    by_cases hk : (k : WithTop K) ≤ t.2
    · have hst : t = s := by simpa [routeAt, hk] using hs
      subst hst
      have hfound : (((V t.1).slots t.2).find? fun u =>
          decide ((k : WithTop K) ≤ u.2)).isSome := by
        rw [List.find?_isSome]
        exact ⟨_, last_mem_slots _ _, by simpa using hk⟩
      rw [or_of_isSome hfound, routeAt]
    · have hs' : routeAt L k = some s := by simpa [routeAt, hk] using hs
      have hnone : (((V t.1).slots t.2).find? fun u =>
          decide ((k : WithTop K) ≤ u.2)) = none := by
        rw [List.find?_eq_none]
        intro u hu hku
        have hle := Branch.le_of_mem_slots hhead hu
        exact hk ((by simpa using hku : (k : WithTop K) ≤ u.2).trans hle)
      rw [hnone, none_or]
      exact ih hrest hs'

theorem ascending_below {h i : ℕ} (hi : i ≤ h)
    (hasc : Ascending (below V L h)) : Ascending (below V L i) := by
  induction hi with
  | refl => exact hasc
  | step _ ih => exact ih (ascending_of_expand hasc)

theorem exists_routeAt_slots (b : Branch K ι) (hk : (k : WithTop K) ≤ hi) :
    ∃ s, routeAt (b.slots hi) k = some s := by
  rw [← isSome_iff_exists, routeAt, List.find?_isSome]
  exact ⟨_, last_mem_slots b hi, by simpa using hk⟩

theorem le_of_routeAt (h : routeAt L k = some s) : (k : WithTop K) ≤ s.2 := by
  simpa using List.find?_some h

theorem mem_of_routeAt (h : routeAt L k = some s) : s ∈ L :=
  mem_of_find?_eq_some h

/-- The visited node has the least bound among those not below the key. -/
theorem bound_le_of_routeAt (hasc : Ascending L) {t : ι × WithTop K}
    (h : routeAt L k = some t) (hs : s ∈ L) (hk : (k : WithTop K) ≤ s.2) : t.2 ≤ s.2 := by
  obtain ⟨A, B, rfl, hA⟩ := exists_split_of_routeAt h
  rw [Ascending, pairwise_append, pairwise_cons] at hasc
  rcases mem_append.mp hs with hsA | hsB
  · exact absurd (hA s hsA) (not_lt.mpr hk)
  · rcases mem_cons.mp hsB with rfl | hsB
    · exact le_rfl
    · exact (hasc.2.1.1 s hsB).le

/-- Where a key routes after the node `n` has been cut at `sep`. -/
theorem routeAt_cut {n r : ι} {sep : WithTop K}
    (hasc : Ascending (A ++ (n, sep) :: (r, hi) :: B)) {t : ι × WithTop K}
    (h : routeAt (A ++ (n, hi) :: B) k = some t) :
    (t ∈ A ++ B ∧ routeAt (A ++ (n, sep) :: (r, hi) :: B) k = some t) ∨
      (t = (n, hi) ∧ ((k : WithTop K) ≤ sep ∧
          routeAt (A ++ (n, sep) :: (r, hi) :: B) k = some (n, sep) ∨ sep < (k : WithTop K) ∧
          routeAt (A ++ (n, sep) :: (r, hi) :: B) k = some (r, hi))) := by
  rw [Ascending, pairwise_append, pairwise_cons] at hasc
  have hlt : sep < hi := hasc.2.1.1 (r, hi) (by simp)
  rw [routeAt, List.find?_append, or_eq_some_iff] at h
  simp only [routeAt, List.find?_append]
  rcases h with hA | ⟨hA, hrest⟩
  · refine .inl ⟨?_, by rw [hA, some_or]⟩
    exact mem_append_left _ (mem_of_find?_eq_some hA)
  · rw [hA, none_or]
    by_cases hk : (k : WithTop K) ≤ hi
    · have ht : t = (n, hi) := by simpa [hk, eq_comm] using hrest
      refine .inr ⟨ht, ?_⟩
      by_cases hks : (k : WithTop K) ≤ sep
      · exact .inl ⟨hks, by simp [hks]⟩
      · exact .inr ⟨not_le.mp hks, by simp [hks, hk]⟩
    · have hks : ¬ (k : WithTop K) ≤ sep := fun hle => hk (hle.trans hlt.le)
      have hB : B.find? (fun s => decide ((k : WithTop K) ≤ s.2)) = some t := by
        simpa [hk] using hrest
      refine .inl ⟨?_, by simp [hk, hks, hB]⟩
      exact mem_append_right _ (mem_of_find?_eq_some hB)

/-- A key with a route on the first level has one on every level. -/
theorem exists_routeAt_below {n : ℕ} (hasc : Ascending (below V L n))
    (hk : ∃ s, routeAt L k = some s) : ∃ s, routeAt (below V L n) k = some s := by
  induction n with
  | zero => exact hk
  | succ n ih =>
    obtain ⟨s, hs⟩ := ih (ascending_of_expand hasc)
    obtain ⟨t, ht⟩ := exists_routeAt_slots (V s.1) (le_of_routeAt hs)
    exact ⟨t, (routeAt_expand hasc hs).trans ht⟩

namespace Coarser

theorem ascending (h : Coarser L L') (hasc : Ascending L) : Ascending L' := by
  induction h with
  | refl => exact hasc
  | merge _ ih => exact ascending_merge ih

/-- A key keeps its node as long as the node is there. -/
theorem routeAt (h : Coarser L L') (hasc : Ascending L) (hnodup : (L.map Prod.fst).Nodup)
    (hs : routeAt L k = some s) (hmem : s.1 ∈ L'.map Prod.fst) :
    ∃ hi, Levels.routeAt L' k = some (s.1, hi) := by
  induction h with
  | refl => exact ⟨s.2, hs⟩
  | @merge A M C a b sep hi hfine ih =>
    have hfineAsc := hfine.ascending hasc
    have hfineNodup := hnodup.sublist hfine.sublist
    have hin : s.1 ∈ (A ++ (a, sep) :: (M ++ (b, hi) :: C)).map Prod.fst := by
      simp only [map_append, map_cons, mem_append, mem_cons] at hmem ⊢
      rcases hmem with hA | ha | hC
      · exact .inl hA
      · exact .inr (.inl ha)
      · exact .inr (.inr (.inr (.inr hC)))
    obtain ⟨top, hroute⟩ := ih hin
    rw [map_append, map_cons, map_append, map_cons, nodup_append, nodup_cons, nodup_append,
      nodup_cons] at hfineNodup
    obtain ⟨-, ⟨ha, -, ⟨hb, -⟩, hMC⟩, hcross⟩ := hfineNodup
    rw [Ascending, pairwise_append, pairwise_cons] at hfineAsc
    obtain ⟨-, ⟨hsep, -⟩, -⟩ := hfineAsc
    have hlt : sep < hi := hsep (b, hi) (by simp)
    -- The nodes that disappear cannot be the one the key routes to.
    have hgone : ∀ t ∈ M ++ [(b, hi)], t.1 ≠ s.1 := by
      intro t ht heq
      have htM : t.1 ∈ M.map Prod.fst ∨ t.1 = b := by
        rcases mem_append.mp ht with hM | hone
        · exact .inl (mem_map.mpr ⟨t, hM, rfl⟩)
        · exact .inr (by rw [mem_singleton.mp hone])
      rw [← heq, map_append, map_cons, mem_append, mem_cons] at hmem
      rcases hmem with hA | rfl | hC
      · refine hcross t.1 hA t.1 ?_ rfl
        rcases htM with hM | rfl
        · simp [hM]
        · simp
      · refine ha ?_
        rcases htM with hM | heqb
        · simp [hM]
        · simp [heqb]
      · rcases htM with hM | rfl
        · exact hMC t.1 hM t.1 (by simp [hC]) rfl
        · exact hb hC
    rw [Levels.routeAt, List.find?_append, or_eq_some_iff] at hroute
    rw [Levels.routeAt, List.find?_append]
    rcases hroute with hA | ⟨hA, hrest⟩
    · exact ⟨top, by rw [hA, some_or]⟩
    · rw [hA, none_or]
      by_cases hk : (k : WithTop K) ≤ sep
      · have hid : s.1 = a := by
          simp only [List.find?_cons, hk, decide_true, some.injEq, Prod.mk.injEq] at hrest
          exact hrest.1.symm
        exact ⟨hi, by simp [hk.trans hlt.le, hid]⟩
      · simp only [List.find?_cons, hk, decide_false, List.find?_append, or_eq_some_iff] at hrest
        rcases hrest with hM | ⟨-, hC⟩
        · have hmemM := mem_of_find?_eq_some hM
          exact absurd rfl (hgone (s.1, top) (mem_append_left _ hmemM))
        · by_cases hkb : (k : WithTop K) ≤ hi
          · have hid : b = s.1 := by
              simp only [hkb, decide_true, some.injEq, Prod.mk.injEq] at hC
              exact hC.1
            exact absurd hid (hgone (b, hi) (by simp))
          · simp only [hkb, decide_false] at hC
            exact ⟨top, by simpa [hkb] using hC⟩

end Coarser

end Order

end Codo.Support.Levels
