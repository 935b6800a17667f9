import Mathlib.Data.Set.Insert
import Mathlib.Order.Defs.LinearOrder
import Mathlib.Tactic.Common

/-!
# The difference of two sorted lists

To bring a set in step with a list of wanted elements, both are sorted and
walked in lockstep: an element only on the wanted side is added, one only on the
other side is dropped.  `Edits` says that a list of such edits goes through on a
set, each adding what is not there or dropping what is.  If the edits of the
walk go through, nothing was wanted twice and the set holds what was wanted.
-/

namespace Codo.Support

open List

/-- One change to a set. -/
inductive Edit (α : Type*)
  | add (a : α)
  | drop (a : α)

/-- The edits go through one after the other and lead from `E` to `E'`. -/
inductive Edits {α : Type*} : List (Edit α) → Set α → Set α → Prop
  | nil (E : Set α) : Edits [] E E
  | add {a : α} {edits : List (Edit α)} {E E' : Set α} : a ∉ E →
      Edits edits (insert a E) E' → Edits (.add a :: edits) E E'
  | drop {a : α} {edits : List (Edit α)} {E E' : Set α} : a ∈ E →
      Edits edits (E \ {a}) E' → Edits (.drop a :: edits) E E'

theorem Edits.append {α : Type*} {edits edits' : List (Edit α)}
    {E E₁ E' : Set α} (h : Edits edits E E₁) (h' : Edits edits' E₁ E') :
    Edits (edits ++ edits') E E' := by
  induction h with
  | nil => exact h'
  | add hnew _ ih => exact .add hnew (ih h')
  | drop hmem _ ih => exact .drop hmem (ih h')

/-- The walk over the sorted lists of what is wanted and what is there. -/
def sortedDiff {α : Type*} (cmp : α → α → ℤ) : List α → List α → List (Edit α)
  | [], [] => []
  | [], h :: hs => .drop h :: sortedDiff cmp [] hs
  | w :: ws, [] => .add w :: sortedDiff cmp ws []
  | w :: ws, h :: hs =>
    if cmp w h = 0 then sortedDiff cmp ws hs
    else if cmp w h < 0 then .add w :: sortedDiff cmp ws (h :: hs)
    else .drop h :: sortedDiff cmp (w :: ws) hs
termination_by ws hs => ws.length + hs.length

theorem sortedDiff_self {α : Type*} {cmp : α → α → ℤ} (hcmp : ∀ a, cmp a a = 0)
    (ws : List α) : sortedDiff cmp ws ws = [] := by
  induction ws with
  | nil => rw [sortedDiff]
  | cons w ws ih => rw [sortedDiff, if_pos (hcmp w), ih]

section Walk

variable {α : Type*} [LinearOrder α] {cmp : α → α → ℤ} {ws hs : List α}
  {E E' : Set α} (hzero : ∀ a b, cmp a b = 0 ↔ a = b)
  (hneg : ∀ a b, cmp a b < 0 ↔ a < b) (hhs : hs.Pairwise (· < ·))
  (hthere : ∀ a ∈ hs, a ∈ E) (hedits : Edits (sortedDiff cmp ws hs) E E')

include hzero hneg hhs hthere hedits

/-- The walk when its edits go through: an element is on both sides, is added
ahead of the other side, or is dropped. -/
theorem edits_induction {motive : List α → List α → Set α → Prop} (nil : motive [] [] E')
    (both : ∀ a ws hs E, (∀ b ∈ hs, a < b) → a ∈ E → motive ws hs E → motive (a :: ws) (a :: hs) E)
    (add : ∀ a ws hs E, (∀ b ∈ hs, a < b) → a ∉ E →
      motive ws hs (insert a E) → motive (a :: ws) hs E)
    (drop : ∀ a ws hs E, motive ws hs (E \ {a}) → motive ws (a :: hs) E) : motive ws hs E := by
  have hdrop : ∀ {h : α} {hs : List α} {E : Set α},
      (h :: hs).Pairwise (· < ·) → (∀ a ∈ h :: hs, a ∈ E) →
        ∀ a ∈ hs, a ∈ E \ {h} := fun hhs hthere a ha =>
    ⟨hthere a (mem_cons_of_mem _ ha), ne_of_gt ((pairwise_cons.mp hhs).1 a ha)⟩
  induction ws, hs using sortedDiff.induct cmp generalizing E with
  | case1 =>
    rw [sortedDiff] at hedits
    cases hedits
    exact nil
  | case2 h hs ih =>
    rw [sortedDiff] at hedits
    obtain _ | _ | ⟨-, hrest⟩ := hedits
    exact drop h [] hs E (ih hhs.of_cons (hdrop hhs hthere) hrest)
  | case3 w ws ih =>
    rw [sortedDiff] at hedits
    obtain _ | ⟨hnew, hrest⟩ := hedits
    exact add w ws [] E (by simp) hnew (ih .nil (by simp) hrest)
  | case4 w ws h hs heq ih =>
    rw [sortedDiff, if_pos heq] at hedits
    have habove := (pairwise_cons.mp hhs).1
    obtain rfl := (hzero w h).mp heq
    exact both w ws hs E habove (hthere w mem_cons_self)
      (ih hhs.of_cons (fun a ha => hthere a (mem_cons_of_mem _ ha)) hedits)
  | case5 w ws h hs hne hlt ih =>
    rw [sortedDiff, if_neg hne, if_pos hlt] at hedits
    obtain _ | ⟨hnew, hrest⟩ := hedits
    have hwh := (hneg w h).mp hlt
    refine add w ws (h :: hs) E ?_ hnew
      (ih hhs (fun a ha => Set.mem_insert_of_mem _ (hthere a ha)) hrest)
    intro b hb
    rcases mem_cons.mp hb with rfl | hb
    · exact hwh
    · exact hwh.trans ((pairwise_cons.mp hhs).1 b hb)
  | case6 w ws h hs hne hge ih =>
    rw [sortedDiff, if_neg hne, if_neg hge] at hedits
    obtain _ | _ | ⟨-, hrest⟩ := hedits
    exact drop h (w :: ws) hs E (ih hhs.of_cons (hdrop hhs hthere) hrest)

/-- If the edits of the walk go through, nothing was wanted twice, and what was
wanted and already there was found there. -/
theorem nodup_of_edits : ws.Nodup ∧ ∀ a ∈ ws, a ∈ E → a ∈ hs := by
  refine edits_induction hzero hneg hhs hthere hedits
    (motive := fun ws hs E => ws.Nodup ∧ ∀ a ∈ ws, a ∈ E → a ∈ hs) ⟨nodup_nil, by simp⟩ ?_ ?_ ?_
  · rintro a ws hs E habove haE ⟨hnodup, hfound⟩
    refine ⟨nodup_cons.mpr ⟨fun ha => ?_, hnodup⟩, fun b hb hbE => ?_⟩
    · exact lt_irrefl _ (habove a (hfound a ha haE))
    · rcases mem_cons.mp hb with rfl | hb
      · exact mem_cons_self
      · exact mem_cons_of_mem _ (hfound b hb hbE)
  · rintro a ws hs E habove hnew ⟨hnodup, hfound⟩
    refine ⟨nodup_cons.mpr ⟨fun ha => ?_, hnodup⟩, fun b hb hbE => ?_⟩
    · exact lt_irrefl _ (habove a (hfound a ha (Set.mem_insert _ _)))
    · rcases mem_cons.mp hb with rfl | hb
      · exact absurd hbE hnew
      · exact hfound b hb (Set.mem_insert_of_mem _ hbE)
  · rintro a ws hs E ⟨hnodup, hfound⟩
    refine ⟨hnodup, fun b hb hbE => ?_⟩
    by_cases hba : b = a
    · rw [hba]
      exact mem_cons_self
    · exact mem_cons_of_mem _ (hfound b hb ⟨hbE, hba⟩)

/-- If the edits of the walk go through, what was on the other side is gone
unless it was wanted, and what was wanted is there. -/
theorem eq_of_edits (a : α) : a ∈ E' ↔ a ∈ ws ∨ a ∈ E ∧ a ∉ hs := by
  refine edits_induction hzero hneg hhs hthere hedits
    (motive := fun ws hs E => a ∈ E' ↔ a ∈ ws ∨ a ∈ E ∧ a ∉ hs) (by simp) ?_ ?_ ?_
  · intro b ws hs E habove hbE ih
    rw [ih]
    by_cases hab : a = b
    · have hnot : b ∉ hs := fun hmem => lt_irrefl _ (habove b hmem)
      simp [hab, hnot, hbE]
    · simp [hab]
  · intro b ws hs E habove _ ih
    rw [ih]
    by_cases hab : a = b
    · have hnot : b ∉ hs := fun hmem => lt_irrefl _ (habove b hmem)
      simp [hab, hnot]
    · simp [hab]
  · intro b ws hs E ih
    rw [ih]
    simp only [Set.mem_sdiff, Set.mem_singleton_iff, mem_cons, not_or, and_assoc]

end Walk

end Codo.Support
