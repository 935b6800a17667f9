import Codo.Support.WriteLoop

/-!
# Files with positioned reads and writes

A file is its bytes.  `overwrite` is a positioned write, which fills a gap
behind the old end with zeros, and `slice` is a positioned read, which is
short at the end of the file.  `pwriteLoop` writes a buffer at an offset and
retries interrupted and partial calls; `pwriteOnce` makes one call.
-/

namespace Codo.Support

open List

/-- Write `src` at `offset`. -/
def overwrite (file : Bytes) (offset : ℕ) (src : Bytes) : Bytes :=
  file.take offset ++ List.replicate (offset - file.length) 0 ++ src ++
    file.drop (offset + src.length)

/-- The bytes of the file from `offset` on start with `bs`. -/
def HoldsAt (file : Bytes) (offset : ℕ) (bs : Bytes) : Prop :=
  slice file offset bs.length = bs

variable {file src bs : Bytes} {offset offset' : ℕ}

theorem length_overwrite (file : Bytes) (offset : ℕ) (src : Bytes) :
    (overwrite file offset src).length = max file.length (offset + src.length) := by
  simp only [overwrite, length_append, length_take, length_replicate, length_drop]
  omega

theorem take_overwrite (file : Bytes) (offset : ℕ) (src : Bytes) :
    (overwrite file offset src).take offset =
      file.take offset ++ List.replicate (offset - file.length) 0 := by
  rw [overwrite, append_assoc (_ ++ _)]
  apply take_left'
  rw [length_append, length_take, length_replicate]
  omega

theorem drop_overwrite (file : Bytes) (offset : ℕ) (src : Bytes) :
    (overwrite file offset src).drop offset = src ++ file.drop (offset + src.length) := by
  rw [overwrite, append_assoc (_ ++ _)]
  apply drop_left'
  rw [length_append, length_take, length_replicate]
  omega

theorem holdsAt_overwrite (file : Bytes) (offset : ℕ) (src : Bytes) :
    HoldsAt (overwrite file offset src) offset src := by
  rw [HoldsAt, slice, drop_overwrite, take_left]

theorem HoldsAt.length_le (h : HoldsAt file offset bs) (hbs : bs ≠ []) :
    offset + bs.length ≤ file.length := by
  have hlen := congrArg List.length h
  have hpos := length_pos_iff.mpr hbs
  rw [slice, length_take, length_drop] at hlen
  omega

theorem HoldsAt.append {as : Bytes} (ha : HoldsAt file offset as)
    (hb : HoldsAt file (offset + as.length) bs) : HoldsAt file offset (as ++ bs) := by
  have hdrop := drop_drop (l := file) (i := as.length) (j := offset)
  rw [HoldsAt, slice] at ha hb ⊢
  rw [length_append, take_add, ha, hdrop, hb]

theorem HoldsAt.overwrite (h : HoldsAt file offset' bs)
    (hapart : offset' + bs.length ≤ offset ∨ offset + src.length ≤ offset') :
    HoldsAt (overwrite file offset src) offset' bs := by
  rcases eq_nil_or_concat bs with rfl | ⟨front, b, hb⟩
  · simp [HoldsAt, slice]
  have hne : bs ≠ [] := by
    rw [hb]
    simp
  have hle := h.length_le hne
  rw [HoldsAt] at h ⊢
  rcases hapart with hbefore | hbehind
  · have htake : slice (Support.overwrite file offset src) offset' bs.length =
        slice ((Support.overwrite file offset src).take offset) offset' bs.length := by
      rw [slice, slice, drop_take, take_take, Nat.min_eq_left (by omega)]
    rw [htake, take_overwrite, slice, drop_append_of_le_length,
      take_append_of_le_length, drop_take, take_take, Nat.min_eq_left (by omega)]
    · exact h
    · rw [length_drop, length_take]
      omega
    · rw [length_take]
      omega
  · have hsplit : offset' = offset + (src.length + (offset' - (offset + src.length))) := by omega
    have hdrop : (Support.overwrite file offset src).drop offset' = file.drop offset' := by
      rw [hsplit, ← drop_drop, drop_overwrite, ← drop_drop, drop_left, drop_drop]
      congr 1
      omega
    rw [slice, hdrop]
    exact h

/-- Write `rest` at `offset`, retrying interrupted and partial calls. -/
def pwriteLoop : List WriteResult → Bytes → ℕ → Bytes → WriteEnd
  | results, file, _, [] => ⟨true, file, results⟩
  | [], file, offset, rest => ⟨true, overwrite file offset rest, []⟩
  | .eintr :: results, file, offset, rest => pwriteLoop results file offset rest
  | .error :: results, file, _, _ => ⟨false, file, results⟩
  | .wrote n :: results, file, offset, rest =>
    if n = 0 then ⟨false, file, results⟩
    else pwriteLoop results (overwrite file offset (rest.take n)) (offset + n) (rest.drop n)

variable {results : List WriteResult}

section PwriteLoop

variable {rest : Bytes}

theorem pwriteLoop_nil_rest : pwriteLoop results file offset [] = ⟨true, file, results⟩ := by
  cases results with
  | nil => rfl
  | cons r results => cases r <;> rfl

/-- Bytes outside the range of the loop survive it, however it ends. -/
theorem HoldsAt.pwriteLoop (h : HoldsAt file offset' bs)
    (hapart : offset' + bs.length ≤ offset ∨ offset + rest.length ≤ offset') :
    HoldsAt (pwriteLoop results file offset rest).file offset' bs := by
  fun_induction Support.pwriteLoop results file offset rest with
  | case1 => exact h
  | case2 => exact h.overwrite hapart
  | case3 _ _ _ _ _ ih => exact ih h hapart
  | case4 => exact h
  | case5 => exact h
  | case6 n results file offset rest _ _ ih =>
    have hfirst : HoldsAt (Support.overwrite file offset (rest.take n)) offset' bs := by
      refine h.overwrite ?_
      rw [length_take]
      omega
    by_cases hall : rest.length ≤ n
    · rw [drop_eq_nil_of_le hall, pwriteLoop_nil_rest]
      exact hfirst
    · refine ih hfirst ?_
      rw [length_drop]
      omega

theorem holdsAt_pwriteLoop_of_ok (h : (pwriteLoop results file offset rest).ok = true) :
    HoldsAt (pwriteLoop results file offset rest).file offset rest := by
  fun_induction pwriteLoop results file offset rest with
  | case1 => simp [HoldsAt, slice]
  | case2 file offset rest => exact holdsAt_overwrite file offset rest
  | case3 _ _ _ _ _ ih => exact ih h
  | case4 => cases h
  | case5 => cases h
  | case6 n results file offset rest _ _ ih =>
    have htail := ih h
    by_cases hall : rest.length ≤ n
    · rw [drop_eq_nil_of_le hall, pwriteLoop_nil_rest, take_of_length_le hall]
      exact holdsAt_overwrite file offset rest
    · have hlen : (rest.take n).length = n := by
        rw [length_take]
        omega
      have hfront : HoldsAt (pwriteLoop results (overwrite file offset (rest.take n))
          (offset + n) (rest.drop n)).file offset (rest.take n) :=
        (holdsAt_overwrite _ _ _).pwriteLoop (.inl (by rw [hlen]))
      have hboth := hfront.append (by rwa [hlen])
      rwa [take_append_drop] at hboth

/-- The file ends where it ended, or within the range of the loop. -/
theorem length_pwriteLoop_le {bound : ℕ} (hfile : file.length ≤ bound)
    (hrest : offset + rest.length ≤ bound) :
    (pwriteLoop results file offset rest).file.length ≤ bound := by
  fun_induction pwriteLoop results file offset rest with
  | case1 => exact hfile
  | case2 => exact (length_overwrite _ _ _).trans_le (max_le hfile hrest)
  | case3 _ _ _ _ _ ih => exact ih hfile hrest
  | case4 => exact hfile
  | case5 => exact hfile
  | case6 n results file offset rest _ _ ih =>
    have hfirst : (overwrite file offset (rest.take n)).length ≤ bound := by
      rw [length_overwrite, length_take]
      omega
    by_cases hall : rest.length ≤ n
    · rw [drop_eq_nil_of_le hall, pwriteLoop_nil_rest]
      exact hfirst
    · refine ih hfirst ?_
      rw [length_drop]
      omega

end PwriteLoop

/-- One call of `pwrite`; `ok` says that it transferred all of `src`. -/
def pwriteOnce : List WriteResult → Bytes → ℕ → Bytes → WriteEnd
  | [], file, offset, src => ⟨true, overwrite file offset src, []⟩
  | .eintr :: results, file, _, _ => ⟨false, file, results⟩
  | .error :: results, file, _, _ => ⟨false, file, results⟩
  | .wrote n :: results, file, offset, src =>
    if n = 0 then ⟨false, file, results⟩
    else ⟨decide (src.length ≤ n), overwrite file offset (src.take n), results⟩

theorem HoldsAt.pwriteOnce (h : HoldsAt file offset' bs)
    (hapart : offset' + bs.length ≤ offset ∨ offset + src.length ≤ offset') :
    HoldsAt (pwriteOnce results file offset src).file offset' bs := by
  cases results with
  | nil => exact h.overwrite hapart
  | cons r results =>
    cases r with
    | eintr => exact h
    | error => exact h
    | wrote n =>
      by_cases hn : n = 0
      · simpa [Support.pwriteOnce, hn] using h
      · simp only [Support.pwriteOnce, if_neg hn]
        apply h.overwrite
        rw [length_take]
        omega

theorem holdsAt_pwriteOnce_of_ok (h : (pwriteOnce results file offset src).ok = true) :
    HoldsAt (pwriteOnce results file offset src).file offset src := by
  cases results with
  | nil => exact holdsAt_overwrite file offset src
  | cons r results =>
    cases r with
    | eintr => cases h
    | error => cases h
    | wrote n =>
      by_cases hn : n = 0
      · simp [pwriteOnce, hn] at h
      · simp only [pwriteOnce, if_neg hn, decide_eq_true_eq] at h ⊢
        rw [take_of_length_le h]
        exact holdsAt_overwrite file offset src

theorem length_pwriteOnce_le {bound : ℕ} (hfile : file.length ≤ bound)
    (hsrc : offset + src.length ≤ bound) :
    (pwriteOnce results file offset src).file.length ≤ bound := by
  cases results with
  | nil => exact (length_overwrite _ _ _).trans_le (max_le hfile hsrc)
  | cons r results =>
    cases r with
    | eintr => exact hfile
    | error => exact hfile
    | wrote n =>
      by_cases hn : n = 0
      · simpa [pwriteOnce, hn] using hfile
      · simp only [pwriteOnce, if_neg hn, length_overwrite, length_take]
        omega

end Codo.Support
