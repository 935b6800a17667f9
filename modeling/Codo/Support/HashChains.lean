import Mathlib.Data.List.Basic
import Mathlib.Data.List.Nodup
import Mathlib.Data.Option.Basic
import Mathlib.Logic.Function.Basic

/-!
# Hash chains

A hash table whose buckets are singly linked lists threaded through the nodes
themselves: `head` is the first node of each bucket and `next` the link out
of each node.  Every node carries one link, so it can stand in one chain.

The loops that follow links are bounded by a number of steps.
`Chains.Holds c L` says that the chain of bucket `b` is the list `L b`; a loop
with at least that many steps is the unbounded one.
-/

namespace Codo.Support

open Function List

/-- The chains of a hash table with buckets `β` and nodes `ν`. -/
structure Chains (β ν : Type) where
  head : β → Option ν
  next : ν → Option ν

/-- Following `next` from `start` visits the nodes `l` and ends. -/
def Visits {ν : Type} (next : ν → Option ν) : Option ν → List ν → Prop
  | start, [] => start = none
  | start, v :: l => start = some v ∧ Visits next (next v) l

namespace Chains

variable {β ν : Type}

/-- The first node satisfying `p` within `n` steps from `start`. -/
def findFrom (c : Chains β ν) (p : ν → Bool) : ℕ → Option ν → Option ν
  | 0, _ => none
  | _ + 1, none => none
  | n + 1, some v => if p v then some v else c.findFrom p n (c.next v)

/-- The first node of bucket `b` satisfying `p`. -/
def find (c : Chains β ν) (p : ν → Bool) (n : ℕ) (b : β) : Option ν :=
  c.findFrom p n (c.head b)

/-- Put `v` at the head of bucket `b`. -/
def push [DecidableEq β] [DecidableEq ν] (c : Chains β ν) (b : β) (v : ν) : Chains β ν where
  head := update c.head b (some v)
  next := update c.next v (c.head b)

/-- Within `n` steps, the node whose link leads to `v`, starting behind the
link out of `before`. -/
def predFrom [DecidableEq ν] (c : Chains β ν) (v : ν) :
    ℕ → ν → Option ν
  | 0, _ => none
  | n + 1, before =>
    match c.next before with
    | none => none
    | some u => if u = v then some before else c.predFrom v n u

/-- Take `v` out of bucket `b`: the link that leads to it is redirected to
its successor.  Nothing happens when no link in the bucket leads to it. -/
def remove [DecidableEq β] [DecidableEq ν] (c : Chains β ν) (n : ℕ) (b : β) (v : ν) : Chains β ν :=
  match c.head b with
  | none => c
  | some u =>
    if u = v then { c with head := update c.head b (c.next v) }
    else
      match c.predFrom v n u with
      | none => c
      | some before => { c with next := update c.next before (c.next v) }

/-- Clear the link out of `v`. -/
def clear [DecidableEq ν] (c : Chains β ν) (v : ν) : Chains β ν :=
  { c with next := update c.next v none }

/-- The chain of every bucket `b` is `L b`, and no node occurs twice. -/
structure Holds (c : Chains β ν) (L : β → List ν) : Prop where
  visits : ∀ b, Visits c.next (c.head b) (L b)
  nodup : ∀ b, (L b).Nodup
  apart : ∀ b b' v, v ∈ L b → v ∈ L b' → b = b'

end Chains

section Visits

variable {ν : Type} {next next' : ν → Option ν} {start : Option ν} {l xs ys : List ν} {v : ν}

theorem Visits.congr (h : Visits next start l)
    (hsame : ∀ u ∈ l, next' u = next u) : Visits next' start l := by
  induction l generalizing start with
  | nil => exact h
  | cons u l ih =>
    obtain ⟨hstart, hrest⟩ := h
    refine ⟨hstart, ?_⟩
    rw [hsame u mem_cons_self]
    exact ih hrest fun w hw => hsame w (mem_cons_of_mem u hw)

theorem Visits.suffix (h : Visits next start (xs ++ v :: ys)) : Visits next (next v) ys := by
  induction xs generalizing start with
  | nil => exact h.2
  | cons u xs ih => exact ih h.2

/-- Redirecting the link out of `u` past its successor. -/
theorem Visits.skip [DecidableEq ν] {u : ν} (h : Visits next start (xs ++ u :: v :: ys))
    (hnodup : (xs ++ u :: v :: ys).Nodup) :
    Visits (update next u (next v)) start (xs ++ u :: ys) := by
  induction xs generalizing start with
  | nil =>
    obtain ⟨hstart, -, hrest⟩ := h
    refine ⟨hstart, ?_⟩
    rw [update_self]
    refine hrest.congr fun w hw => update_of_ne ?_ _ _
    rintro rfl
    simp [hw] at hnodup
  | cons w xs ih =>
    obtain ⟨hstart, hrest⟩ := h
    refine ⟨hstart, ?_⟩
    have hne : w ≠ u := by
      rintro rfl
      simp at hnodup
    rw [update_of_ne hne]
    exact ih hrest (List.Nodup.of_cons hnodup)

end Visits

namespace Chains

variable {β ν : Type} {c : Chains β ν} {L : β → List ν} {n : ℕ} {b : β} {v : ν}

theorem findFrom_eq {p : ν → Bool} {start : Option ν} {l : List ν}
    (h : Visits c.next start l) (hn : l.length ≤ n) : c.findFrom p n start = l.find? p := by
  induction l generalizing n start with
  | nil =>
    rw [show start = none from h]
    cases n <;> rfl
  | cons u l ih =>
    obtain ⟨rfl, hrest⟩ := h
    obtain ⟨n, rfl⟩ : ∃ k, n = k + 1 := ⟨n - 1, by rw [length_cons] at hn; omega⟩
    have hle : l.length ≤ n := Nat.le_of_succ_le_succ hn
    rw [findFrom, List.find?_cons, ih hrest hle]
    cases p u <;> rfl

theorem Holds.find_eq (h : c.Holds L) {p : ν → Bool}
    (hn : (L b).length ≤ n) : c.find p n b = (L b).find? p :=
  findFrom_eq (h.visits b) hn

theorem Holds.clear [DecidableEq ν] (h : c.Holds L) (hv : ∀ b, v ∉ L b) : (c.clear v).Holds L := by
  refine ⟨?_, h.nodup, h.apart⟩
  intro b
  refine (h.visits b).congr fun u hu => update_of_ne ?_ _ _
  rintro rfl
  exact hv b hu

theorem Holds.push [DecidableEq β] [DecidableEq ν] (h : c.Holds L) (hv : ∀ b, v ∉ L b) (b : β) :
    (c.push b v).Holds (update L b (v :: L b)) := by
  have hold : ∀ b', Visits (c.push b v).next (c.head b') (L b') := by
    intro b'
    refine (h.visits b').congr fun u hu => update_of_ne ?_ _ _
    rintro rfl
    exact hv b' hu
  constructor
  · intro b'
    by_cases hb : b' = b
    · subst hb
      simp only [Chains.push, update_self]
      refine ⟨rfl, ?_⟩
      rw [update_self]
      exact hold b'
    · simp only [Chains.push, update_of_ne hb]
      exact hold b'
  · intro b'
    by_cases hb : b' = b
    · subst hb
      rw [update_self]
      exact nodup_cons.mpr ⟨hv b', h.nodup b'⟩
    · rw [update_of_ne hb]
      exact h.nodup b'
  · intro b₁ b₂ u h₁ h₂
    by_cases hu : u = v
    · subst hu
      have honly : ∀ b', u ∈ update L b (u :: L b) b' → b' = b := by
        intro b' hmem
        by_contra hb
        rw [update_of_ne hb] at hmem
        exact hv b' hmem
      rw [honly b₁ h₁, honly b₂ h₂]
    · have hback : ∀ b', u ∈ update L b (v :: L b) b' → u ∈ L b' := by
        intro b' hmem
        by_cases hb : b' = b
        · subst hb
          rw [update_self] at hmem
          exact (mem_cons.mp hmem).resolve_left hu
        · rwa [update_of_ne hb] at hmem
      exact h.apart b₁ b₂ u (hback b₁ h₁) (hback b₂ h₂)

theorem predFrom_eq_none [DecidableEq ν] {u : ν} {l : List ν}
    (h : Visits c.next (c.next u) l) (hv : v ∉ l) : c.predFrom v n u = none := by
  induction n generalizing u l with
  | zero => rfl
  | succ n ih =>
    cases l with
    | nil =>
      have hnone : c.next u = none := h
      simp [predFrom, hnone]
    | cons w l =>
      obtain ⟨hnext, hrest⟩ := h
      have hw : w ≠ v := by
        rintro rfl
        exact hv mem_cons_self
      have hlater := ih hrest fun hmem => hv (mem_cons_of_mem w hmem)
      simp [predFrom, hnext, hw, hlater]

/-- With enough steps the walk stops at the node before `v`. -/
theorem predFrom_eq_some [DecidableEq ν] {u : ν} {l : List ν}
    (h : Visits c.next (c.next u) l) (hv : v ∈ l) (hn : l.length ≤ n) :
    ∃ xs w ys, u :: l = xs ++ w :: v :: ys ∧ c.predFrom v n u = some w := by
  induction l generalizing n u with
  | nil => cases hv
  | cons w l ih =>
    obtain ⟨hnext, hrest⟩ := h
    obtain ⟨n, rfl⟩ : ∃ k, n = k + 1 := ⟨n - 1, by rw [length_cons] at hn; omega⟩
    by_cases hw : w = v
    · subst hw
      exact ⟨[], u, l, rfl, by simp [predFrom, hnext]⟩
    · have hmem : v ∈ l := (mem_cons.mp hv).resolve_left (Ne.symm hw)
      obtain ⟨xs, w', ys, hl, hpred⟩ := ih hrest hmem (Nat.le_of_succ_le_succ hn)
      exact ⟨u :: xs, w', ys, by rw [hl]; rfl, by simp [predFrom, hnext, hw, hpred]⟩

/-- Replacing the chain of one bucket by a part of it. -/
theorem Holds.shrink [DecidableEq β] {c' : Chains β ν} {l : List ν}
    (h : c.Holds L) (hsub : l.Sublist (L b))
    (hvisits : ∀ b', Visits c'.next (c'.head b') (update L b l b')) : c'.Holds (update L b l) := by
  have hback : ∀ b' u, u ∈ update L b l b' → u ∈ L b' := by
    intro b' u hu
    by_cases hb : b' = b
    · subst hb
      rw [update_self] at hu
      exact hsub.subset hu
    · rwa [update_of_ne hb] at hu
  refine ⟨hvisits, ?_, ?_⟩
  · intro b'
    by_cases hb : b' = b
    · subst hb
      rw [update_self]
      exact (h.nodup b').sublist hsub
    · rw [update_of_ne hb]
      exact h.nodup b'
  · intro b₁ b₂ u h₁ h₂
    exact h.apart b₁ b₂ u (hback b₁ u h₁) (hback b₂ u h₂)

/-- Removing a node with enough steps takes it out of its bucket's chain. -/
theorem Holds.remove [DecidableEq β] [DecidableEq ν] (h : c.Holds L) (hn : (L b).length ≤ n) :
    (c.remove n b v).Holds (update L b ((L b).erase v)) := by
  refine h.shrink erase_sublist ?_
  have hvisits := h.visits b
  have hother : ∀ b', b' ≠ b → Visits c.next (c.head b') (update L b ((L b).erase v) b') := by
    intro b' hb
    rw [update_of_ne hb]
    exact h.visits b'
  cases hlist : L b with
  | nil =>
    have hhead : c.head b = none := by
      rw [hlist] at hvisits
      exact hvisits
    intro b'
    rw [Chains.remove, hhead]
    by_cases hb : b' = b
    · subst hb
      rw [update_self]
      exact hhead
    · rw [← hlist]
      exact hother b' hb
  | cons u l =>
    rw [hlist] at hvisits hn
    obtain ⟨hhead, hrest⟩ := hvisits
    have hnodup := h.nodup b
    rw [hlist] at hnodup
    by_cases hu : u = v
    · subst hu
      intro b'
      rw [Chains.remove, hhead]
      simp only [if_true]
      by_cases hb : b' = b
      · subst hb
        rw [update_self, update_self, erase_cons_head]
        exact hrest
      · rw [update_of_ne hb, ← hlist]
        exact hother b' hb
    · by_cases hv : v ∈ l
      · obtain ⟨xs, w, ys, hl, hpred⟩ := predFrom_eq_some hrest hv (Nat.le_of_succ_le hn)
        have hw : w ∈ L b := by
          rw [hlist, hl]
          simp
        have herase : (u :: l).erase v = xs ++ w :: ys := by
          rw [hl] at hnodup ⊢
          have hsplit : xs ++ w :: v :: ys = (xs ++ [w]) ++ v :: ys := by simp
          rw [hsplit] at hnodup ⊢
          have hnot : v ∉ xs ++ [w] := by
            intro hmem
            exact (nodup_append.mp hnodup).2.2 v hmem v mem_cons_self rfl
          rw [erase_append_right _ hnot, erase_cons_head]
          simp
        intro b'
        rw [Chains.remove, hhead]
        simp only [if_neg hu, hpred]
        by_cases hb : b' = b
        · subst hb
          rw [update_self, herase]
          refine Visits.skip ?_ (hl ▸ hnodup)
          rw [← hl]
          exact ⟨hhead, hrest⟩
        · rw [← hlist]
          refine (hother b' hb).congr fun t ht => update_of_ne ?_ _ _
          rintro rfl
          rw [update_of_ne hb] at ht
          exact hb (h.apart b' b t ht hw)
      · have hpred : c.predFrom v n u = none := predFrom_eq_none hrest hv
        have hnot : v ∉ u :: l := by simp [Ne.symm hu, hv]
        intro b'
        rw [Chains.remove, hhead]
        simp only [if_neg hu, hpred]
        by_cases hb : b' = b
        · subst hb
          rw [update_self, erase_of_not_mem hnot]
          exact ⟨hhead, hrest⟩
        · rw [← hlist]
          exact hother b' hb

end Chains

end Codo.Support
