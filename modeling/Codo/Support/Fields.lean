import Codo.Support.Decimal

/-!
# Fields of a scanned text

The conversions `%Ns` and `%u` of `sscanf`, described on the text: the spaces a
conversion skips, the field it takes and the rest it leaves.  A text has one such
reading at most.
-/

namespace Codo.Support

open List

/-- The input is a gap of spaces, a word and a rest.  The word ends at its width
or at a space. -/
structure NextWord (width : ℕ) (input gap word rest : Bytes) : Prop where
  input_eq : input = gap ++ (word ++ rest)
  spaces : ∀ b ∈ gap, isSpace b = true
  ne_nil : word ≠ []
  bare : ∀ b ∈ word, isSpace b = false
  length_le : word.length ≤ width
  ends : word.length = width ∨ ∀ b ∈ rest.head?, isSpace b = true

/-- Digits with a sign in front or none. -/
structure Numeral where
  sign : Bytes
  digits : Bytes
  isSign : sign = [] ∨ sign = [43] ∨ sign = [45]
  ne_nil : digits ≠ []
  isDigit : ∀ b ∈ digits, isDigit b = true

def Numeral.text (n : Numeral) : Bytes :=
  n.sign ++ n.digits

/-- The `unsigned int` that `%u` makes of the numeral. -/
def Numeral.value (n : Numeral) : ℕ :=
  (if 2 ^ 64 ≤ digitsValue n.digits then 2 ^ 64 - 1
    else if n.sign = [45] then (2 ^ 64 - digitsValue n.digits) % 2 ^ 64
    else digitsValue n.digits) % 2 ^ 32

/-- The input is a gap of spaces, a numeral and a rest that starts with no
digit. -/
structure NextNumeral (input gap : Bytes) (n : Numeral) (rest : Bytes) : Prop where
  input_eq : input = gap ++ (n.text ++ rest)
  spaces : ∀ b ∈ gap, isSpace b = true
  ends : ∀ b ∈ rest.head?, Support.isDigit b = false

section Gaps

variable {gap gap' x y : Bytes}

theorem dropWhile_gap (hgap : ∀ b ∈ gap, isSpace b = true)
    (hx : ∀ b ∈ x.head?, isSpace b = false) : (gap ++ x).dropWhile isSpace = x := by
  rw [dropWhile_append_of_pos hgap]
  cases x with
  | nil => rfl
  | cons b x => exact dropWhile_cons_of_neg (by rw [hx b rfl]; exact Bool.false_ne_true)

theorem gap_unique (hgap : ∀ b ∈ gap, isSpace b = true)
    (hgap' : ∀ b ∈ gap', isSpace b = true) (hx : ∀ b ∈ x.head?, isSpace b = false)
    (hy : ∀ b ∈ y.head?, isSpace b = false) (h : gap ++ x = gap' ++ y) : gap = gap' ∧ x = y := by
  obtain rfl : x = y := by rw [← dropWhile_gap hgap hx, h, dropWhile_gap hgap' hy]
  exact ⟨append_cancel_right h, rfl⟩

end Gaps

section Words

variable {width : ℕ} {input gap gap' word word' rest rest' : Bytes}

theorem NextWord.scanWord (h : NextWord width input gap word rest) :
    scanWord width input = some (word, rest) := by
  rw [h.input_eq, scanWord_spaces h.spaces]
  exact scanWord_append h.bare h.ne_nil h.length_le rest h.ends

theorem exists_nextWord (hwidth : 0 < width)
    (h : Support.scanWord width input = some (word, rest)) :
    ∃ gap, NextWord width input gap word rest := by
  rcases exists_word input with hblank | ⟨gap, run, tail, rfl, hgap, hrun, hne, hend⟩
  · rw [scanWord_eq_none hblank] at h
    cases h
  · have hnext : NextWord width (gap ++ (run ++ tail)) gap (run.take width)
        (run.drop width ++ tail) := by
      refine ⟨?_, hgap, ?_, fun b hb => hrun b (mem_of_mem_take hb), length_take_le width run, ?_⟩
      · rw [← append_assoc (run.take width), take_append_drop]
      · rw [Ne, take_eq_nil_iff]
        exact not_or.mpr ⟨hwidth.ne', hne⟩
      · by_cases hfull : width ≤ run.length
        · exact .inl (length_take_of_le hfull)
        · rw [drop_eq_nil_of_le (not_le.mp hfull).le]
          exact .inr hend
    obtain ⟨rfl, rfl⟩ := Prod.mk.inj (Option.some.inj (hnext.scanWord.symm.trans h))
    exact ⟨gap, hnext⟩

theorem NextWord.unique (h : NextWord width input gap word rest)
    (h' : NextWord width input gap' word' rest') : gap = gap' ∧ word = word' ∧ rest = rest' := by
  obtain ⟨rfl, rfl⟩ := Prod.mk.inj (Option.some.inj (h.scanWord.symm.trans h'.scanWord))
  exact ⟨append_cancel_right (h.input_eq.symm.trans h'.input_eq), rfl, rfl⟩

end Words

section Numerals

variable {input gap gap' rest rest' : Bytes} {n n' : Numeral}

theorem Numeral.head_text (n : Numeral) (rest : Bytes) :
    ∀ b ∈ (n.text ++ rest).head?, isSpace b = false := by
  obtain ⟨sign, digits, hsign, hne, hdigits⟩ := n
  obtain ⟨first, others, rfl⟩ := exists_cons_of_ne_nil hne
  rcases hsign with rfl | rfl | rfl
  · rintro b ⟨⟩
    exact isSpace_of_isDigit (hdigits _ mem_cons_self)
  · rintro b ⟨⟩
    rfl
  · rintro b ⟨⟩
    rfl

theorem NextNumeral.scanUnsigned (h : NextNumeral input gap n rest) :
    scanUnsigned input = some (n.value, rest) := by
  rw [h.input_eq, Support.scanUnsigned, dropWhile_gap h.spaces (n.head_text rest)]
  obtain ⟨sign, digits, hsign, hne, hdigits⟩ := n
  have hstart := (digits_start hne hdigits rest).2
  have htake : (digits ++ rest).takeWhile Support.isDigit = digits := by
    rw [takeWhile_append_of_stop h.ends, takeWhile_eq_self_iff.mpr hdigits]
  have hdrop : (digits ++ rest).dropWhile Support.isDigit = rest := by
    rw [dropWhile_append_of_stop h.ends, dropWhile_eq_nil_iff.mpr hdigits, nil_append]
  rcases hsign with rfl | rfl | rfl
  · simp only [Numeral.text, Numeral.value, nil_append, hstart 45 rfl, hstart 43 rfl,
      Bool.or_self, Bool.false_eq_true, if_false, htake, hdrop, hne]
    rfl
  · simp [Numeral.text, Numeral.value, htake, hdrop, hne]
  · simp [Numeral.text, Numeral.value, htake, hdrop, hne]

theorem exists_sign (text : Bytes) :
    ∃ sign, (sign = [] ∨ sign = [43] ∨ sign = [45]) ∧
      text = sign ++ if text.head? == some 45 || text.head? == some 43
        then text.tail else text := by
  cases text with
  | nil => exact ⟨[], .inl rfl, rfl⟩
  | cons b text =>
    by_cases hminus : b = 45
    · exact ⟨[45], .inr (.inr rfl), by simp [hminus]⟩
    · by_cases hplus : b = 43
      · exact ⟨[43], .inr (.inl rfl), by simp [hplus]⟩
      · exact ⟨[], .inl rfl, by simp [hminus, hplus]⟩

theorem exists_nextNumeral {v : ℕ} (h : Support.scanUnsigned input = some (v, rest)) :
    ∃ gap n, NextNumeral input gap n rest ∧ n.value = v := by
  obtain ⟨sign, hsign, htext⟩ := exists_sign (input.dropWhile isSpace)
  have hscan := h
  rw [Support.scanUnsigned] at h
  generalize (if (input.dropWhile isSpace).head? == some 45 ||
    (input.dropWhile isSpace).head? == some 43 then (input.dropWhile isSpace).tail
    else input.dropWhile isSpace) = body at h htext
  split at h
  next => cases h
  next hne =>
    let n : Numeral := ⟨sign, body.takeWhile Support.isDigit, hsign, hne,
      fun b => mem_takeWhile_imp⟩
    have hnext : NextNumeral input (input.takeWhile isSpace) n
        (body.dropWhile Support.isDigit) := by
      refine ⟨?_, fun b => mem_takeWhile_imp, fun b hb => ?_⟩
      · rw [Numeral.text, append_assoc, takeWhile_append_dropWhile, ← htext,
          takeWhile_append_dropWhile]
      · have hstop := List.head?_dropWhile_not Support.isDigit body
        rw [Option.mem_def.mp hb] at hstop
        simpa using hstop
    obtain ⟨hvalue, rfl⟩ := Prod.mk.inj (Option.some.inj (hnext.scanUnsigned.symm.trans hscan))
    exact ⟨_, n, hnext, hvalue⟩

theorem NextNumeral.unique (h : NextNumeral input gap n rest)
    (h' : NextNumeral input gap' n' rest') : gap = gap' ∧ n.text = n'.text ∧ rest = rest' := by
  obtain ⟨-, rfl⟩ := Prod.mk.inj (Option.some.inj (h.scanUnsigned.symm.trans h'.scanUnsigned))
  obtain ⟨hgap, htext⟩ := gap_unique h.spaces h'.spaces (n.head_text rest)
    (n'.head_text rest) (h.input_eq.symm.trans h'.input_eq)
  exact ⟨hgap, append_cancel_right htext, rfl⟩

end Numerals

end Codo.Support
