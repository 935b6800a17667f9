import Codo.Support.CString
import Mathlib.Data.List.Infix

/-!
# Texts in lines

A text is cut at the first occurrence of a separator byte.  A line block is a
sequence of lines closed by a blank line, where a line may end in a carriage
return before its line feed.  Reading is compared on a whole block followed by
anything and on a proper start of a block.
-/

namespace Codo.Support

open List Option

/-- The text up to the first `c`, and what follows it. -/
def splitByte (c : UInt8) : Bytes → Option (Bytes × Bytes)
  | [] => none
  | b :: bs =>
    if b = c then some ([], bs)
    else (splitByte c bs).map fun r => (b :: r.1, r.2)

/-- Drop one carriage return at the end of a line. -/
def stripCr (line : Bytes) : Bytes :=
  if line.getLast? = some 13 then line.dropLast else line

section Cut

variable {c : UInt8} {line rest bs p : Bytes}

theorem splitByte_append (hline : c ∉ line) (rest : Bytes) :
    splitByte c (line ++ c :: rest) = some (line, rest) := by
  induction line with
  | nil => rw [nil_append, splitByte, if_pos rfl]
  | cons b line ih =>
    have hb : b ≠ c := fun h => hline (h ▸ mem_cons_self)
    have htail : c ∉ line := fun h => hline (mem_cons_of_mem _ h)
    rw [cons_append, splitByte, if_neg hb, ih htail]
    rfl

theorem splitByte_eq_none_iff : splitByte c bs = none ↔ c ∉ bs := by
  induction bs with
  | nil => simp [splitByte]
  | cons b bs ih =>
    rw [splitByte]
    split
    next hb => simp [hb]
    next hb =>
      rw [map_eq_none_iff, ih, mem_cons, not_or]
      exact ⟨fun h => ⟨Ne.symm hb, h⟩, fun h => h.2⟩

theorem eq_of_splitByte (h : splitByte c bs = some (line, rest)) :
    bs = line ++ c :: rest ∧ c ∉ line := by
  induction bs generalizing line with
  | nil => cases h
  | cons b bs ih =>
    rw [splitByte] at h
    split at h
    next hb =>
      obtain ⟨rfl, rfl⟩ := Prod.mk.inj (some.inj h)
      exact ⟨by rw [hb, nil_append], not_mem_nil⟩
    next hb =>
      obtain ⟨⟨line', rest'⟩, hsplit, heq⟩ := map_eq_some_iff.mp h
      obtain ⟨rfl, rfl⟩ := Prod.mk.inj heq
      obtain ⟨rfl, hline⟩ := ih hsplit
      refine ⟨rfl, ?_⟩
      rw [mem_cons, not_or]
      exact ⟨Ne.symm hb, hline⟩

theorem prefix_append_cases {xs ys : Bytes} (hp : p <+: xs ++ ys) :
    p <+: xs ∨ ∃ q, p = xs ++ q ∧ q <+: ys := by
  rcases List.prefix_or_prefix_of_prefix hp (prefix_append xs ys) with
    hshort | ⟨q, rfl⟩
  · exact .inl hshort
  · exact .inr ⟨q, rfl, (prefix_append_right_inj xs).mp hp⟩

/-- A proper start that is not shorter than the first part covers it. -/
theorem properPrefix_of_length_le {xs ys : Bytes} (hp : p <+: xs ++ ys)
    (hne : p ≠ xs ++ ys) (hlong : xs.length ≤ p.length) : ∃ q, p = xs ++ q ∧ q <+: ys ∧ q ≠ ys := by
  obtain ⟨q, rfl⟩ := prefix_of_prefix_length_le (prefix_append xs ys) hp hlong
  refine ⟨q, rfl, (prefix_append_right_inj xs).mp hp, ?_⟩
  rintro rfl
  exact hne rfl

/-- A proper start of a text ends in its first line or goes beyond it. -/
theorem properPrefix_line (hline : c ∉ line) (hp : p <+: line ++ c :: rest)
    (hne : p ≠ line ++ c :: rest) : c ∉ p ∨ ∃ q, p = line ++ c :: q ∧ q <+: rest ∧ q ≠ rest := by
  rcases prefix_append_cases hp with hshort | ⟨q, rfl, hq⟩
  · exact .inl fun h => hline (hshort.subset h)
  · cases q with
    | nil =>
      rw [append_nil]
      exact .inl hline
    | cons b q =>
      obtain ⟨rfl, hq'⟩ := cons_prefix_cons.mp hq
      refine .inr ⟨q, rfl, hq', ?_⟩
      rintro rfl
      exact hne rfl

end Cut

/-- The lines of a text that are closed by a line feed. -/
def completeLines (text : Bytes) : List Bytes :=
  (text.splitOn 10).dropLast

section Lines

variable {line text : Bytes}

theorem completeLines_append (hline : 10 ∉ line) (rest : Bytes) :
    completeLines (line ++ 10 :: rest) = line :: completeLines rest := by
  have hfirst : ∀ b ∈ line, (b == 10) = false := by
    intro b hb
    rw [beq_eq_false_iff_ne]
    rintro rfl
    exact hline hb
  rw [completeLines, completeLines, List.splitOn, List.splitOn,
    splitOnP_append_cons_of_forall_mem hfirst 10 rfl,
    dropLast_cons_of_ne_nil (splitOnP_ne_nil _ _)]

theorem completeLines_of_notMem (htext : 10 ∉ text) : completeLines text = [] := by
  have hopen : ∀ b ∈ text, (b == 10) = false := by
    intro b hb
    rw [beq_eq_false_iff_ne]
    rintro rfl
    exact htext hb
  rw [completeLines, List.splitOn, splitOnP_eq_singleton hopen]
  rfl

end Lines

theorem stripCr_concat (line : Bytes) : stripCr (line ++ [13]) = line := by
  rw [stripCr, List.getLast?_concat, if_pos rfl, dropLast_concat]

theorem eq_stripCr (line : Bytes) : line = stripCr line ∨ line = stripCr line ++ [13] := by
  rw [stripCr]
  split
  next hcr =>
    obtain ⟨init, rfl⟩ := List.getLast?_eq_some_iff.mp hcr
    exact .inr (by rw [dropLast_concat])
  next => exact .inl rfl

theorem stripCr_eq_nil_iff {line : Bytes} : stripCr line = [] ↔ line = [] ∨ line = [13] := by
  constructor
  · intro h
    rw [stripCr] at h
    split at h
    next hcr =>
      obtain ⟨init, rfl⟩ := List.getLast?_eq_some_iff.mp hcr
      rw [dropLast_concat] at h
      exact .inr (by rw [h, nil_append])
    next => exact .inl h
  · rintro (rfl | rfl) <;> rfl

/-- The lines of a block and its bytes. -/
inductive LineBlock : List Bytes → Bytes → Prop
  | blank {line : Bytes} : 10 ∉ line → stripCr line = [] → LineBlock [] (line ++ [10])
  | line {line rest : Bytes} {lines : List Bytes} : 10 ∉ line →
      stripCr line ≠ [] → LineBlock lines rest → LineBlock (line :: lines) (line ++ 10 :: rest)

end Codo.Support
