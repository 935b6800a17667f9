import Codo.Support.CString
import Mathlib.Data.Nat.Digits.Lemmas

/-!
# Decimal numerals

`decimal n` is what `%llu` prints and `padded w n` what `%0*llu` prints.
`digitsValue` is the number a string of digits denotes.
-/

namespace Codo.Support

open List Bool

/-- The digit `0` to `9`. -/
def digitByte (d : ℕ) : UInt8 :=
  UInt8.ofNat (48 + d)

def decimal (n : ℕ) : Bytes :=
  if n = 0 then [48] else (Nat.digits 10 n).reverse.map digitByte

/-- What `%lld` prints. -/
def signedDecimal : ℤ → Bytes
  | .ofNat n => decimal n
  | .negSucc n => 45 :: decimal (n + 1)

/-- The decimal numeral with zeros in front up to `width` digits. -/
def padded (width n : ℕ) : Bytes :=
  List.replicate (width - (decimal n).length) 48 ++ decimal n

def isDigit (b : UInt8) : Bool :=
  48 ≤ b && b ≤ 57

/-- The number a string of digits denotes. -/
def digitsValue (digits : Bytes) : ℕ :=
  digits.foldl (fun n b => n * 10 + (b.toNat - 48)) 0

/-- `strtoll` in base ten: the number and the rest of the text, or `none` where
the source sees no digits or `ERANGE`. -/
def strtoll (text : Bytes) : Option (ℤ × Bytes) :=
  let text := text.dropWhile isSpace
  let negative := text.head? == some 45
  let text := if negative || text.head? == some 43 then text.tail else text
  let digits := text.takeWhile isDigit
  let value : ℤ := if negative then -digitsValue digits else digitsValue digits
  if digits = [] ∨ value < -2 ^ 63 ∨ 2 ^ 63 ≤ value then none
  else some (value, text.dropWhile isDigit)

/-- `strtol` in base ten: the number, held to the range of a `long`, or `none`
where there are no digits. -/
def strtol (text : Bytes) : Option ℤ :=
  let text := text.dropWhile isSpace
  let negative := text.head? == some 45
  let text := if negative || text.head? == some 43 then text.tail else text
  let digits := text.takeWhile isDigit
  let value : ℤ := if negative then -digitsValue digits else digitsValue digits
  if digits = [] then none
  else some (max (-2 ^ 63) (min value (2 ^ 63 - 1)))

/-- The conversion `%u` of `sscanf`: the value as an `unsigned int` and the rest
of the text.  A numeral beyond 64 bits is read as the largest 64-bit number. -/
def scanUnsigned (text : Bytes) : Option (ℕ × Bytes) :=
  let text := text.dropWhile isSpace
  let negative := text.head? == some 45
  let text := if negative || text.head? == some 43 then text.tail else text
  let digits := text.takeWhile isDigit
  let value := digitsValue digits
  let value :=
    if 2 ^ 64 ≤ value then 2 ^ 64 - 1
    else if negative then (2 ^ 64 - value) % 2 ^ 64
    else value
  if digits = [] then none else some (value % 2 ^ 32, text.dropWhile isDigit)

variable {b : UInt8}

theorem isSpace_of_isDigit (h : isDigit b = true) : isSpace b = false := by
  rw [isDigit, and_eq_true, decide_eq_true_iff, decide_eq_true_iff] at h
  rw [isSpace, or_eq_false_iff, beq_eq_false_iff_ne]
  constructor
  · rintro rfl
    exact absurd h.1 (by decide)
  · rw [and_eq_false_iff, decide_eq_false_iff_not, decide_eq_false_iff_not]
    right
    intro hle
    exact absurd (h.1.trans hle) (by decide)

theorem isDigit_of_isBlank (h : isBlank b = true) : isDigit b = false := by
  rw [isBlank, or_eq_true, beq_iff_eq, beq_iff_eq] at h
  rcases h with rfl | rfl <;> rfl

theorem isDigit_digitByte {d : ℕ} (hd : d < 10) : isDigit (digitByte d) = true := by
  have hall : ∀ d < 10, isDigit (digitByte d) = true := by decide
  exact hall d hd

theorem toNat_digitByte {d : ℕ} (hd : d < 10) : (digitByte d).toNat - 48 = d := by
  have hall : ∀ d < 10, (digitByte d).toNat - 48 = d := by decide
  exact hall d hd

theorem digitsValue_concat (digits : Bytes) (b : UInt8) :
    digitsValue (digits ++ [b]) = digitsValue digits * 10 + (b.toNat - 48) := by
  rw [digitsValue, foldl_concat]
  rfl

theorem digitsValue_reverse {digits : List ℕ} (hdigits : ∀ d ∈ digits, d < 10) :
    digitsValue (digits.reverse.map digitByte) = Nat.ofDigits 10 digits := by
  induction digits with
  | nil => rfl
  | cons d digits ih =>
    have htail : ∀ d ∈ digits, d < 10 := fun d hd => hdigits d (mem_cons_of_mem _ hd)
    rw [reverse_cons, map_append, map_singleton,
      digitsValue_concat, ih htail, toNat_digitByte (hdigits d mem_cons_self),
      Nat.ofDigits_cons, Nat.mul_comm, Nat.add_comm]

theorem digitsValue_decimal (n : ℕ) : digitsValue (decimal n) = n := by
  rw [decimal]
  split
  case isTrue hn =>
    rw [hn]
    rfl
  case isFalse =>
    rw [digitsValue_reverse fun d => Nat.digits_lt_base (by decide), Nat.ofDigits_digits]

theorem isDigit_of_mem_decimal {n : ℕ} (hb : b ∈ decimal n) : isDigit b = true := by
  rw [decimal] at hb
  split at hb
  · rw [mem_singleton.mp hb]
    rfl
  · obtain ⟨d, hd, rfl⟩ := mem_map.mp hb
    exact isDigit_digitByte (Nat.digits_lt_base (by decide) (mem_reverse.mp hd))

theorem decimal_ne_nil (n : ℕ) : decimal n ≠ [] := by
  rw [decimal]
  split
  · exact cons_ne_nil _ _
  case isFalse hn =>
    intro hnil
    rw [map_eq_nil_iff, reverse_eq_nil_iff, Nat.digits_eq_nil_iff_eq_zero] at hnil
    exact hn hnil

theorem length_decimal_le {n k : ℕ} (hk : 1 ≤ k) (hn : n < 10 ^ k) : (decimal n).length ≤ k := by
  rw [decimal]
  split
  · exact hk
  · rw [length_map, length_reverse]
    exact (Nat.digits_length_le_iff (by decide) n).mpr hn

section Reading

variable {digits rest : Bytes} (hne : digits ≠ []) (hdigits : ∀ b ∈ digits, isDigit b = true)

include hne hdigits

theorem digits_start (rest : Bytes) :
    (digits ++ rest).dropWhile isSpace = digits ++ rest ∧ ∀ b : UInt8, isDigit b = false →
        ((digits ++ rest).head? == some b) = false := by
  obtain ⟨first, others, rfl⟩ := exists_cons_of_ne_nil hne
  have hfirst : isDigit first = true := hdigits first mem_cons_self
  constructor
  · rw [cons_append, dropWhile_cons_of_neg]
    rw [isSpace_of_isDigit hfirst]
    exact false_ne_true
  · intro b hb
    rw [cons_append, List.head?_cons, beq_eq_false_iff_ne]
    rintro heq
    rw [Option.some.inj heq, hb] at hfirst
    exact false_ne_true hfirst

/-- Digits that denote a number of 32 bits and end at something other than a
digit are read as it. -/
theorem scanUnsigned_digits (hlt : digitsValue digits < 2 ^ 32)
    (hrest : ∀ b ∈ rest.head?, isDigit b = false) :
    scanUnsigned (digits ++ rest) = some (digitsValue digits, rest) := by
  obtain ⟨hstart, hsign⟩ := digits_start hne hdigits rest
  have hsmall : ¬2 ^ 64 ≤ digitsValue digits := by omega
  rw [scanUnsigned]
  simp only [hstart, hsign 45 rfl, hsign 43 rfl, Bool.or_self,
    Bool.false_eq_true, if_false, takeWhile_append_of_stop hrest,
    dropWhile_append_of_stop hrest, takeWhile_eq_self_iff.mpr hdigits,
    dropWhile_eq_nil_iff.mpr hdigits, nil_append, hne, hsmall, Nat.mod_eq_of_lt hlt]

end Reading

theorem foldl_digits (digits : Bytes) (n : ℕ) :
    digits.foldl (fun n b => n * 10 + (b.toNat - 48)) n =
      n * 10 ^ digits.length + digitsValue digits := by
  induction digits generalizing n with
  | nil => simp [digitsValue]
  | cons b digits ih =>
    rw [digitsValue, foldl_cons, foldl_cons, ih, ih (0 * 10 + _), length_cons, pow_succ]
    ring

theorem digitsValue_cons (b : UInt8) (digits : Bytes) :
    digitsValue (b :: digits) = (b.toNat - 48) * 10 ^ digits.length + digitsValue digits := by
  rw [digitsValue, foldl_cons, foldl_digits, Nat.zero_mul, Nat.zero_add]

theorem toNat_of_isDigit (h : isDigit b = true) : 48 ≤ b.toNat ∧ b.toNat ≤ 57 := by
  rw [isDigit, and_eq_true, decide_eq_true_iff, decide_eq_true_iff,
    UInt8.le_iff_toNat_le, UInt8.le_iff_toNat_le] at h
  exact h

theorem digitsValue_lt {digits : Bytes} (h : ∀ b ∈ digits, isDigit b = true) :
    digitsValue digits < 10 ^ digits.length := by
  induction digits with
  | nil => exact Nat.one_pos
  | cons b digits ih =>
    have hb := toNat_of_isDigit (h b mem_cons_self)
    have htail := ih fun c hc => h c (mem_cons_of_mem _ hc)
    have hle : (b.toNat - 48) * 10 ^ digits.length ≤ 9 * 10 ^ digits.length :=
      Nat.mul_le_mul_right _ (by omega)
    rw [digitsValue_cons, length_cons, pow_succ]
    omega

/-- Strings of digits of one length are ordered like their numbers. -/
theorem lt_iff_digitsValue_lt {xs ys : Bytes} (hlen : xs.length = ys.length)
    (hxs : ∀ b ∈ xs, isDigit b = true) (hys : ∀ b ∈ ys, isDigit b = true) :
    xs < ys ↔ digitsValue xs < digitsValue ys := by
  induction xs generalizing ys with
  | nil =>
    cases ys with
    | nil => simp
    | cons => simp at hlen
  | cons a xs ih =>
    cases ys with
    | nil => simp at hlen
    | cons b ys =>
      have hlen' : xs.length = ys.length := Nat.succ.inj hlen
      have hxs' : ∀ c ∈ xs, isDigit c = true := fun c hc => hxs c (mem_cons_of_mem _ hc)
      have hys' : ∀ c ∈ ys, isDigit c = true := fun c hc => hys c (mem_cons_of_mem _ hc)
      have ha := toNat_of_isDigit (hxs a mem_cons_self)
      have hb := toNat_of_isDigit (hys b mem_cons_self)
      have hlow := digitsValue_lt hxs'
      have hlow' := digitsValue_lt hys'
      rw [hlen'] at hlow
      rw [cons_lt_cons_iff, ih hlen' hxs' hys', digitsValue_cons,
        digitsValue_cons, hlen', UInt8.lt_iff_toNat_lt, ← UInt8.toNat_inj]
      rcases Nat.lt_trichotomy a.toNat b.toNat with hlt | heq | hgt
      · have hstep : (a.toNat - 48) * 10 ^ ys.length + 10 ^ ys.length ≤
            (b.toNat - 48) * 10 ^ ys.length := by
          rw [← Nat.succ_mul]
          exact Nat.mul_le_mul_right _ (by omega)
        constructor
        · intro _
          omega
        · intro _
          exact Or.inl hlt
      · rw [heq]
        simp
      · have hstep : (b.toNat - 48) * 10 ^ ys.length + 10 ^ ys.length ≤
            (a.toNat - 48) * 10 ^ ys.length := by
          rw [← Nat.succ_mul]
          exact Nat.mul_le_mul_right _ (by omega)
        constructor
        · intro h
          omega
        · intro h
          omega

theorem eq_of_digitsValue_eq {xs ys : Bytes} (hlen : xs.length = ys.length)
    (hxs : ∀ b ∈ xs, isDigit b = true) (hys : ∀ b ∈ ys, isDigit b = true)
    (h : digitsValue xs = digitsValue ys) : xs = ys := by
  apply le_antisymm
  · rw [← not_lt, lt_iff_digitsValue_lt hlen.symm hys hxs, h]
    exact lt_irrefl _
  · rw [← not_lt, lt_iff_digitsValue_lt hlen hxs hys, h]
    exact lt_irrefl _

section Padded

variable {width n : ℕ}

theorem length_padded (hwidth : 1 ≤ width) (hn : n < 10 ^ width) :
    (padded width n).length = width := by
  rw [padded, length_append, length_replicate]
  exact Nat.sub_add_cancel (length_decimal_le hwidth hn)

theorem isDigit_of_mem_padded (hb : b ∈ padded width n) : isDigit b = true := by
  rcases mem_append.mp hb with hzero | hdigit
  · rw [eq_of_mem_replicate hzero]
    rfl
  · exact isDigit_of_mem_decimal hdigit

theorem digitsValue_padded (width n : ℕ) : digitsValue (padded width n) = n := by
  have hzeros : ∀ k, digitsValue (List.replicate k 48) = 0 := by
    intro k
    induction k with
    | zero => rfl
    | succ k ih => simp [replicate_succ, digitsValue_cons, ih]
  rw [padded, digitsValue, foldl_append, foldl_digits, digitsValue_decimal]
  have hfold := hzeros (width - (decimal n).length)
  rw [digitsValue] at hfold
  rw [hfold, Nat.zero_mul, Nat.zero_add]

theorem eq_padded {digits : Bytes} (hwidth : 1 ≤ digits.length)
    (hdigits : ∀ b ∈ digits, isDigit b = true) :
    digits = padded digits.length (digitsValue digits) := by
  apply eq_of_digitsValue_eq
  · exact (length_padded hwidth (digitsValue_lt hdigits)).symm
  · exact hdigits
  · intro b hb
    exact isDigit_of_mem_padded hb
  · exact (digitsValue_padded _ _).symm

theorem padded_lt_padded_iff {m : ℕ} (hwidth : 1 ≤ width)
    (hm : m < 10 ^ width) (hn : n < 10 ^ width) : padded width m < padded width n ↔ m < n := by
  rw [lt_iff_digitsValue_lt, digitsValue_padded, digitsValue_padded]
  · rw [length_padded hwidth hm, length_padded hwidth hn]
  · intro b hb
    exact isDigit_of_mem_padded hb
  · intro b hb
    exact isDigit_of_mem_padded hb

end Padded

end Codo.Support
