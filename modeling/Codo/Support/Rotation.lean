import Mathlib.Algebra.BigOperators.Group.Finset.Basic
import Mathlib.Algebra.Order.BigOperators.Group.Finset
import Mathlib.Algebra.BigOperators.Ring.Finset
import Mathlib.Data.Fintype.BigOperators
import Mathlib.Data.List.FinRange
import Mathlib.Tactic.Linarith
import Mathlib.Tactic.Ring

/-!
# Taking turns by largest balance

Every member has a balance and a share.  In a turn the members present are
credited with their shares, and one of those with the largest balance pays the
sum of the shares.  Who is present may change from turn to turn.

Balances do not drift apart: with shares summing to at most `W`, any `k` of `n`
members have at most `W * k * (n - k)` together.  When all members are present
in every turn, each pays in proportion to its share.
-/

namespace Codo.Support

open Finset Function

/-- What a scan of distinct members establishes, one member at a time. -/
theorem foldl_induction {ι β : Type*} [DecidableEq ι] {f : β → ι → β}
    {P : Finset ι → β → Prop} {b : β} (hstart : P ∅ b)
    (hstep : ∀ A b i, i ∉ A → P A b → P (insert i A) (f b i)) {l : List ι}
    (hl : l.Nodup) : P l.toFinset (l.foldl f b) := by
  induction l using List.reverseRecOn with
  | nil => exact hstart
  | append_singleton l i ih =>
    obtain ⟨hinit, -, hi⟩ := List.nodup_append.mp hl
    have hnew : i ∉ l.toFinset := by
      intro hmem
      exact hi i (List.mem_toFinset.mp hmem) i (List.mem_singleton_self i) rfl
    have hset : (l ++ [i]).toFinset = insert i l.toFinset := by
      ext j
      simp
    rw [hset, List.foldl_concat]
    exact hstep _ _ i hnew (ih hinit)

theorem foldl_finRange {n : ℕ} {β : Type*} {f : β → Fin n → β}
    {P : Finset (Fin n) → β → Prop} {b : β} (hstart : P ∅ b)
    (hstep : ∀ A b i, i ∉ A → P A b → P (insert i A) (f b i)) :
    P univ ((List.finRange n).foldl f b) := by
  have hall := foldl_induction hstart hstep (List.nodup_finRange n)
  rwa [List.toFinset_finRange] at hall

section Turns

variable {ι : Type*} [DecidableEq ι]

/-- The balances with the shares of the members present added. -/
def credit (share : ι → ℤ) (present : Finset ι) (x : ι → ℤ) : ι → ℤ :=
  fun i => if i ∈ present then x i + share i else x i

/-- The balances `x` become `x'` in a turn that `payer` pays for. -/
structure Turn (share : ι → ℤ) (present : Finset ι) (payer : ι) (x x' : ι → ℤ) : Prop where
  mem : payer ∈ present
  largest : ∀ i ∈ present, credit share present x i ≤ credit share present x payer
  pays : x' = update (credit share present x) payer
    (credit share present x payer - ∑ i ∈ present, share i)

variable {share x x' : ι → ℤ} {present : Finset ι} {payer : ι}

theorem sum_credit (A : Finset ι) :
    ∑ i ∈ A, credit share present x i = ∑ i ∈ A, x i + ∑ i ∈ A ∩ present, share i := by
  have hsplit : ∀ i, credit share present x i = x i + if i ∈ present then share i else 0 := by
    intro i
    rw [credit]
    split
    · rfl
    · rw [add_zero]
  simp only [hsplit, sum_add_distrib, sum_ite_mem]

theorem Turn.sum_of_mem (h : Turn share present payer x x') {A : Finset ι} (hA : payer ∈ A) :
    ∑ i ∈ A, x' i = ∑ i ∈ A, x i + ∑ i ∈ A ∩ present, share i - ∑ i ∈ present, share i := by
  have hrest : ∑ i ∈ A.erase payer, x' i = ∑ i ∈ A.erase payer, credit share present x i := by
    refine sum_congr rfl fun i hi => ?_
    rw [h.pays, update_of_ne (ne_of_mem_erase hi)]
  have hpayer : x' payer = credit share present x payer - ∑ i ∈ present, share i := by
    rw [h.pays, update_self]
  rw [← sum_credit, ← add_sum_erase A x' hA,
    ← add_sum_erase A (credit share present x) hA, hrest, hpayer]
  ring

theorem Turn.sum_of_notMem (h : Turn share present payer x x') {A : Finset ι}
    (hA : payer ∉ A) : ∑ i ∈ A, x' i = ∑ i ∈ A, credit share present x i := by
  refine sum_congr rfl fun i hi => ?_
  rw [h.pays, update_of_ne]
  rintro rfl
  exact hA hi

theorem Turn.sum_univ [Fintype ι] (h : Turn share present payer x x') : ∑ i, x' i = ∑ i, x i := by
  rw [h.sum_of_mem (mem_univ payer), univ_inter]
  ring

end Turns

section Spread

variable {ι : Type*} [Fintype ι]

/-- No set of members has more than its size allows. -/
def Spread (W : ℤ) (x : ι → ℤ) : Prop :=
  ∀ A : Finset ι, ∑ i ∈ A, x i ≤ W * (A.card * (Fintype.card ι - A.card))

variable {share x x' : ι → ℤ} {present : Finset ι} {payer : ι} {W : ℤ}

theorem spread_zero (hW : 0 ≤ W) : Spread W (0 : ι → ℤ) := by
  intro A
  have hcard : (A.card : ℤ) ≤ Fintype.card ι := by exact_mod_cast card_le_univ A
  simp only [Pi.zero_apply, sum_const_zero]
  have hrest : (0 : ℤ) ≤ Fintype.card ι - A.card := sub_nonneg.mpr hcard
  positivity

theorem sum_share_le (hshare : ∀ i, 0 ≤ share i) (hW : ∑ i, share i ≤ W)
    (A : Finset ι) : ∑ i ∈ A, share i ≤ W :=
  (sum_le_sum_of_subset_of_nonneg (subset_univ A) fun i _ _ => hshare i).trans hW

variable [DecidableEq ι]

theorem Turn.spread (h : Turn share present payer x x')
    (hshare : ∀ i, 0 ≤ share i) (hW : ∑ i, share i ≤ W) (hx : Spread W x) : Spread W x' := by
  intro A
  by_cases hpayer : payer ∈ A
  · have hpart : ∑ i ∈ A ∩ present, share i ≤ ∑ i ∈ present, share i :=
      sum_le_sum_of_subset_of_nonneg inter_subset_right fun i _ _ => hshare i
    rw [h.sum_of_mem hpayer]
    linarith only [hx A, hpart]
  rw [h.sum_of_notMem hpayer]
  by_cases hnone : A ∩ present = ∅
  · rw [sum_credit, hnone, sum_empty, add_zero]
    exact hx A
  -- A member of `A` has at most the payer's balance, so `A` is compared with
  -- the set without that member and with the set that has the payer as well.
  obtain ⟨i, hi⟩ := nonempty_iff_ne_empty.mpr hnone
  obtain ⟨hiA, hiP⟩ := mem_inter.mp hi
  have hcredit : ∀ B : Finset ι, ∑ i ∈ B, credit share present x i ≤
      W * (B.card * (Fintype.card ι - B.card)) + W := by
    intro B
    rw [sum_credit]
    exact add_le_add (hx B) (sum_share_le hshare hW _)
  have hpos : 1 ≤ A.card := card_pos.mpr ⟨i, hiA⟩
  have hsmaller := hcredit (A.erase i)
  have hlarger := hcredit (insert payer A)
  rw [card_erase_of_mem hiA, Nat.cast_sub hpos, Nat.cast_one] at hsmaller
  rw [card_insert_of_notMem hpayer, Nat.cast_add, Nat.cast_one, sum_insert hpayer] at hlarger
  have herase := add_sum_erase A (credit share present x) hiA
  have hle := h.largest i hiP
  have hconcave : W * (((A.card : ℤ) - 1) * (Fintype.card ι - (A.card - 1))) +
      W * ((A.card + 1) * (Fintype.card ι - (A.card + 1))) =
      2 * (W * (A.card * (Fintype.card ι - A.card))) - 2 * W := by ring
  linarith only [hsmaller, hlarger, herase, hle, hconcave]

/-- Each balance stays near zero when their sum is zero. -/
theorem Spread.bounds (h : Spread W x) (hsum : ∑ i, x i = 0) (i : ι) :
    -(W * (Fintype.card ι - 1)) ≤ x i ∧ x i ≤ W * (Fintype.card ι - 1) := by
  have hone := h {i}
  have hothers := h (univ.erase i)
  have hpos : 1 ≤ Fintype.card ι := Fintype.card_pos_iff.mpr ⟨i⟩
  rw [sum_singleton, card_singleton, Nat.cast_one, one_mul] at hone
  rw [card_erase_of_mem (mem_univ i), card_univ, Nat.cast_sub hpos, Nat.cast_one] at hothers
  have hsplit := add_sum_erase univ x (mem_univ i)
  rw [hsum] at hsplit
  constructor
  · have hlast : W * (((Fintype.card ι : ℤ) - 1) * (Fintype.card ι - (Fintype.card ι - 1))) =
        W * (Fintype.card ι - 1) := by ring
    linarith only [hothers, hsplit, hlast]
  · exact hone

end Spread

section Full

variable {ι : Type*} [DecidableEq ι] [Fintype ι] {share x x' : ι → ℤ} {payer : ι}

/-- In full company no balance falls by the whole sum. -/
theorem Turn.above (h : Turn share univ payer x x')
    (hshare : ∀ i, 0 < share i) (hsum : ∑ i, x i = 0)
    (hx : ∀ i, -∑ i, share i < x i) : ∀ i, -∑ i, share i < x' i := by
  have hpay : 0 < credit share univ x payer := by
    by_contra hneg
    have hall : ∑ i, credit share univ x i ≤ 0 :=
      sum_nonpos fun i hi => (h.largest i hi).trans (not_lt.mp hneg)
    have htotal : 0 < ∑ i, share i := sum_pos (fun i _ => hshare i) ⟨payer, mem_univ payer⟩
    rw [sum_credit, univ_inter, hsum, zero_add] at hall
    exact absurd htotal (not_lt.mpr hall)
  intro i
  rw [h.pays]
  by_cases hi : i = payer
  · rw [hi, update_self]
    linarith only [hpay]
  · rw [update_of_ne hi, credit, if_pos (mem_univ i)]
    linarith only [hx i, hshare i]

/-- How often a member has paid in the first `k` turns. -/
def timesPaid (payers : ℕ → ι) (k : ℕ) (i : ι) : ℕ :=
  ((range k).filter fun t => payers t = i).card

variable {payers : ℕ → ι} {xs : ℕ → ι → ℤ}

omit [Fintype ι] in
theorem timesPaid_succ (k : ℕ) (i : ι) :
    timesPaid payers (k + 1) i = timesPaid payers k i + if payers k = i then 1 else 0 := by
  rw [timesPaid, timesPaid, range_add_one, filter_insert]
  split
  · rw [card_insert_of_notMem (by simp)]
  · rw [add_zero]

theorem sum_timesPaid (k : ℕ) : ∑ i, timesPaid payers k i = k := by
  have hfibers := card_eq_sum_card_fiberwise
    (s := range k) (t := univ) (f := payers) fun _ _ => mem_univ _
  rw [card_range] at hfibers
  exact hfibers.symm

section

variable (hturns : ∀ k, Turn share univ (payers k) (xs k) (xs (k + 1)))
include hturns

/-- A balance is what the member was credited less what it paid. -/
theorem balance_eq (hstart : xs 0 = 0) (k : ℕ) (i : ι) :
    xs k i = k * share i - (∑ i, share i) * timesPaid payers k i := by
  induction k with
  | zero =>
    rw [hstart]
    simp [timesPaid]
  | succ k ih =>
    rw [(hturns k).pays, timesPaid_succ]
    by_cases hi : i = payers k
    · subst hi
      rw [update_self, credit, if_pos (mem_univ _), ih, if_pos rfl]
      push_cast
      ring
    · rw [update_of_ne hi, credit, if_pos (mem_univ i), ih, if_neg (Ne.symm hi)]
      push_cast
      ring

section

variable (hshare : ∀ i, 0 < share i)
include hshare

/-- In full company from zero, the balances sum to zero and stay above the
negated sum of the shares. -/
theorem above_run (hstart : xs 0 = 0) (k : ℕ) : ∑ i, xs k i = 0 ∧ ∀ i, -∑ i, share i < xs k i := by
  induction k with
  | zero =>
    rw [hstart]
    constructor
    · exact sum_const_zero
    · intro i
      exact neg_lt_zero.mpr (sum_pos (fun i _ => hshare i) ⟨i, mem_univ i⟩)
  | succ k ih =>
    constructor
    · rw [(hturns k).sum_univ]
      exact ih.1
    · exact (hturns k).above hshare ih.1 ih.2

/-- In as many turns as the shares sum to, every member pays as often as its
share says. -/
theorem timesPaid_eq_share (hstart : xs 0 = 0) {W : ℕ} (hW : (W : ℤ) = ∑ i, share i) (i : ι) :
    (timesPaid payers W i : ℤ) = share i := by
  have hatMost : ∀ i ∈ univ, (timesPaid payers W i : ℤ) ≤ share i := by
    intro i _
    have habove := (above_run hturns hshare hstart W).2 i
    rw [balance_eq hturns hstart, ← hW] at habove
    have hscaled : (W : ℤ) * timesPaid payers W i < W * (share i + 1) := by linarith only [habove]
    exact Int.lt_add_one_iff.mp (lt_of_mul_lt_mul_left hscaled (Int.natCast_nonneg W))
  -- No member pays more than its share, and all payments are made.
  have hsum : ∑ i, (timesPaid payers W i : ℤ) = ∑ i, share i := by
    rw [← hW, ← Nat.cast_sum, sum_timesPaid]
  exact (sum_eq_sum_iff_of_le hatMost).mp hsum i (mem_univ i)

/-- After every block of as many turns as the shares sum to, all balances are
zero again. -/
theorem balance_block (hstart : xs 0 = 0) {W : ℕ} (hW : (W : ℤ) = ∑ i, share i)
    (m : ℕ) : xs (m * W) = 0 := by
  induction m with
  | zero => rw [Nat.zero_mul, hstart]
  | succ m ih =>
    have hshift : ∀ k, Turn share univ (payers (m * W + k)) (xs (m * W + k))
        (xs (m * W + (k + 1))) := fun k => hturns (m * W + k)
    funext i
    rw [Nat.succ_mul, balance_eq hshift ih W i, timesPaid_eq_share hshift hshare ih hW,
      ← hW, sub_self, Pi.zero_apply]

/-- Every member pays its share of times in every block. -/
theorem timesPaid_block (hstart : xs 0 = 0) {W : ℕ} (hW : (W : ℤ) = ∑ i, share i) (m : ℕ) (i : ι) :
    (timesPaid (fun k => payers (m * W + k)) W i : ℤ) = share i :=
  timesPaid_eq_share (fun k => hturns (m * W + k)) hshare
    (balance_block hturns hshare hstart hW m) hW i

end

end

end Full

end Codo.Support
