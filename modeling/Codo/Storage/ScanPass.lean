import Codo.Storage.PageMemory
import Codo.Storage.Scan

/-!
# The pass of a scan over one leaf

What the inner loop of `scan_range` makes of an arbitrary page.  It hands the
callback the pairs from its start on and ends at a pair past the range, at the
end of the leaf, or at a pair that cannot be decoded; the last two look alike
from outside.
-/

namespace Codo.Storage

open Support Option List

/-- The pairs that the pass over `n` entries from entry `i` on has for the
callback. -/
def passed (page : BtreePage) (pfx : Bytes) : ℕ → ℤ → List (Bytes × Bytes)
  | 0, _ => []
  | n + 1, i =>
    match getKvPair page i with
    | none => []
    | some kv =>
      if startsWith pfx (page.kvKey kv) = false then []
      else (page.kvKey kv, page.kvValue kv) :: passed page pfx n (i + 1)

/-- From entry `i` on, the pass over a leaf meets a pair past the range before
one that cannot be decoded. -/
def meetsEnd (page : BtreePage) (pfx : Bytes) : ℕ → ℤ → Bool
  | 0, _ => false
  | n + 1, i =>
    match getKvPair page i with
    | none => false
    | some kv =>
      if startsWith pfx (page.kvKey kv) = false then true
      else meetsEnd page pfx n (i + 1)

/-- The callback's context after it was given the pairs, or `none` if it asked
to stop on the way. -/
def offer {κ : Type} (callback : Bytes → Bytes → κ → ℤ × κ) :
    κ → List (Bytes × Bytes) → Option κ
  | ctx, [] => some ctx
  | ctx, (key, value) :: pairs =>
    if (callback key value ctx).1 ≠ 0 then none
    else offer callback (callback key value ctx).2 pairs

section Offer

variable {κ : Type} {callback : Bytes → Bytes → κ → ℤ × κ}

theorem offer_append (xs ys : List (Bytes × Bytes)) (ctx : κ) :
    offer callback ctx (xs ++ ys) =
      (offer callback ctx xs).bind fun ctx => offer callback ctx ys := by
  induction xs generalizing ctx with
  | nil => rfl
  | cons p xs ih =>
    rw [cons_append, offer, offer]
    split
    · rfl
    · exact ih _

theorem exists_offer (hgo : ∀ k v ctx, (callback k v ctx).1 = 0)
    (pairs : List (Bytes × Bytes)) (ctx : κ) : ∃ ctx', offer callback ctx pairs = some ctx' := by
  induction pairs generalizing ctx with
  | nil => exact ⟨ctx, rfl⟩
  | cons p pairs ih =>
    rw [offer, if_neg (not_not.mpr (hgo _ _ _))]
    exact ih _

/-- With a callback that goes on, only a pair past the range ends the scan on a
leaf. -/
theorem scanPage_of_offer (page : BtreePage) (pfx : Bytes) (n : ℕ) (i : ℤ)
    {ctx ctx' : κ} (h : offer callback ctx (passed page pfx n i) = some ctx') :
    scanPage page pfx callback n i ctx =
      if meetsEnd page pfx n i = true then .stop ctx' else .next ctx' := by
  induction n generalizing i ctx with
  | zero =>
    cases h
    rfl
  | succ n ih =>
    rw [passed] at h
    rw [scanPage, meetsEnd]
    cases hget : getKvPair page i with
    | none =>
      rw [hget] at h
      cases h
      rfl
    | some kv =>
      have hguard := scan_guard_iff pfx (page.kvKey kv)
      rw [Memory.length_kvKey (Memory.getKvPair_bound hget)] at hguard
      simp only [hget] at h ⊢
      by_cases hout : startsWith pfx (page.kvKey kv) = false
      · rw [if_pos hout] at h
        cases h
        simp only [if_pos (hguard.mpr hout), if_pos hout, if_true]
      · rw [if_neg hout, offer] at h
        simp only [if_neg (mt hguard.mp hout), if_neg hout]
        by_cases hstop : (callback (page.kvKey kv) (page.kvValue kv) ctx).1 ≠ 0
        · rw [if_pos hstop] at h
          cases h
        · rw [if_neg hstop] at h ⊢
          exact ih _ h

end Offer

section Leaf

variable {page : BtreePage} {pfx : Bytes} {i : ℤ}

/-- Pair `i` of the page is decoded as `p` and lies in the range. -/
def InRange (page : BtreePage) (pfx : Bytes) (i : ℤ) (p : Bytes × Bytes) : Prop :=
  ∃ kv, getKvPair page i = some kv ∧ startsWith pfx (page.kvKey kv) = true ∧
    p = (page.kvKey kv, page.kvValue kv)

/-- Pair `i` of the page can be decoded and lies past the range. -/
def PastRange (page : BtreePage) (pfx : Bytes) (i : ℤ) : Prop :=
  ∃ kv, getKvPair page i = some kv ∧ startsWith pfx (page.kvKey kv) = false

/-- The pairs are all those of the page from `start` on, up to the last of its
`key_count` or to one past the range. -/
def Covers (page : BtreePage) (pfx : Bytes) (start : ℤ) (pairs : List (Bytes × Bytes)) : Prop :=
  (∀ (j : ℕ) p, pairs[j]? = some p → InRange page pfx (start + j) p) ∧
    (pairs.length = (page.keyCount - start).toNat ∨ PastRange page pfx (start + pairs.length))

/-- From `start` on, every pair of the page can be decoded, up to the last of
its `key_count` or to the first past the range. -/
def Readable (page : BtreePage) (pfx : Bytes) (start : ℤ) : Prop :=
  ∀ k, start ≤ k → k < page.keyCount → getKvPair page k = none →
    ∃ e, start ≤ e ∧ e < k ∧ PastRange page pfx e

theorem InRange.not_pastRange {p : Bytes × Bytes} (h : InRange page pfx i p) :
    ¬PastRange page pfx i := by
  obtain ⟨kv, hget, hin, -⟩ := h
  rintro ⟨kv', hget', hout⟩
  rw [hget, some_inj] at hget'
  rw [← hget', hin] at hout
  cases hout

theorem inRange_passed (n : ℕ) (i : ℤ) (j : ℕ) {p : Bytes × Bytes}
    (h : (passed page pfx n i)[j]? = some p) : InRange page pfx (i + j) p := by
  induction n generalizing i j with
  | zero => cases h
  | succ n ih =>
    rw [passed] at h
    split at h
    next => cases h
    next kv hget =>
      split at h
      next => cases h
      next hin =>
        cases j with
        | zero =>
          cases h
          exact ⟨kv, by simpa using hget, (Bool.not_eq_false _).mp hin, rfl⟩
        | succ j =>
          rw [show i + ((j + 1 : ℕ) : ℤ) = i + 1 + j by push_cast; ring]
          exact ih _ _ h

theorem passed_end (page : BtreePage) (pfx : Bytes) (n : ℕ) (i : ℤ) :
    (passed page pfx n i).length = n ∨ PastRange page pfx (i + (passed page pfx n i).length) ∨
      (passed page pfx n i).length < n ∧
        getKvPair page (i + (passed page pfx n i).length) = none := by
  induction n generalizing i with
  | zero => exact .inl rfl
  | succ n ih =>
    rw [passed]
    split
    next hget => exact .inr (.inr ⟨Nat.succ_pos n, by simpa using hget⟩)
    next kv hget =>
      split
      next hout => exact .inr (.inl ⟨kv, by simpa using hget, hout⟩)
      next =>
        rw [length_cons, Nat.cast_succ, ← add_assoc, add_right_comm]
        rcases ih (i + 1) with hall | hpast | ⟨hlt, hnone⟩
        · exact .inl (congrArg Nat.succ hall)
        · exact .inr (.inl hpast)
        · exact .inr (.inr ⟨Nat.succ_lt_succ hlt, hnone⟩)

theorem Covers.readable {pairs : List (Bytes × Bytes)}
    (h : Covers page pfx i pairs) : Readable page pfx i := by
  intro k hlow hhigh hnone
  have hlen : i + pairs.length ≤ k := by
    by_contra hlt
    obtain ⟨j, rfl⟩ : ∃ j : ℕ, k = i + j := ⟨(k - i).toNat, by omega⟩
    have hj : j < pairs.length := by omega
    obtain ⟨kv, hget, -⟩ := h.1 j _ (getElem?_eq_getElem hj)
    rw [hnone] at hget
    cases hget
  rcases h.2 with hall | hpast
  · omega
  · refine ⟨_, by omega, lt_of_le_of_ne hlen ?_, hpast⟩
    rintro rfl
    obtain ⟨kv, hget, -⟩ := hpast
    rw [hnone] at hget
    cases hget

/-- On a readable leaf the pass hands over all there is. -/
theorem Readable.covers (h : Readable page pfx i) :
    Covers page pfx i (passed page pfx (page.keyCount - i).toNat i) := by
  refine ⟨fun j p hp => inRange_passed _ _ j hp, ?_⟩
  rcases passed_end page pfx (page.keyCount - i).toNat i with
    hall | hpast | ⟨hlt, hnone⟩
  · exact .inl hall
  · exact .inr hpast
  · -- a pair past the range ahead of this one was handed over
    obtain ⟨e, hlow, hhigh, hpast⟩ := h _ (by omega) (by omega) hnone
    obtain ⟨j, rfl⟩ : ∃ j : ℕ, e = i + j := ⟨(e - i).toNat, by omega⟩
    have hj : j < (passed page pfx (page.keyCount - i).toNat i).length := by omega
    exact absurd hpast (inRange_passed _ _ j (getElem?_eq_getElem hj)).not_pastRange

end Leaf

end Codo.Storage
