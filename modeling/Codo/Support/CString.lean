import Codo.Support.Bytes
import Mathlib.Data.List.DropRight

/-!
# C strings

A C string is given by its bytes before the terminating NUL.  The comparisons
of `string.h` and `strings.h` are used for equality only, so each is a Boolean
test here.
-/

namespace Codo.Support

open List

variable {a b : Bytes}

/-- The bytes of a string literal. -/
def ascii (s : String) : Bytes :=
  s.toList.map fun c => UInt8.ofNat c.toNat

/-- The C string at the start of a buffer. -/
def cString (bs : Bytes) : Bytes :=
  bs.takeWhile fun b => b ≠ 0

/-- `tolower` in the C locale. -/
def toLower (b : UInt8) : UInt8 :=
  if 65 ≤ b ∧ b ≤ 90 then b + 32 else b

/-- `strncmp(a, b, n) == 0`. -/
def strneq (a b : Bytes) (n : ℕ) : Bool :=
  a.take n == b.take n

/-- `strcasecmp(a, b) == 0`. -/
def strcaseeq (a b : Bytes) : Bool :=
  a.map toLower == b.map toLower

/-- `strncasecmp(a, b, n) == 0`. -/
def strncaseeq (a b : Bytes) (n : ℕ) : Bool :=
  (a.take n).map toLower == (b.take n).map toLower

/-- A space or a tab. -/
def isBlank (b : UInt8) : Bool :=
  b == 32 || b == 9

def skipBlanks (bs : Bytes) : Bytes :=
  bs.dropWhile isBlank

def trimBlanks (bs : Bytes) : Bytes :=
  bs.rdropWhile isBlank

/-- `isspace` in the C locale. -/
def isSpace (b : UInt8) : Bool :=
  b == 32 || (9 ≤ b && b ≤ 13)

/-- The conversion `%Ns` of `sscanf`: the word and the rest of the input. -/
def scanWord (width : ℕ) (bs : Bytes) : Option (Bytes × Bytes) :=
  let input := bs.dropWhile isSpace
  let word := (input.takeWhile fun b => !isSpace b).take width
  if word = [] then none else some (word, input.drop word.length)

/-- `strcasestr(haystack, needle) != NULL`. -/
def strcasestr (haystack needle : Bytes) : Bool :=
  haystack.tails.any fun t => (needle.map toLower).isPrefixOf (t.map toLower)

/-- Comparing as many bytes as `b` has tests for a common start. -/
theorem strneq_iff {n : ℕ} (hn : b.length = n) : strneq a b n = true ↔ b <+: a := by
  subst hn
  rw [strneq, beq_iff_eq, take_length, prefix_iff_eq_take]
  exact eq_comm

theorem strcaseeq_iff : strcaseeq a b = true ↔ a.map toLower = b.map toLower := by
  rw [strcaseeq, beq_iff_eq]

theorem strcaseeq_congr (h : strcaseeq a b = true) (c : Bytes) : strcaseeq a c = strcaseeq b c := by
  rw [strcaseeq, strcaseeq, strcaseeq_iff.mp h]

theorem length_of_strcaseeq (h : strcaseeq a b = true) : a.length = b.length := by
  have hmap := congrArg List.length (strcaseeq_iff.mp h)
  simpa using hmap

theorem strncaseeq_append {n : ℕ} (hb : b.length = n) (rest : Bytes)
    (ha : a.length = n) : strncaseeq (a ++ rest) b n = strcaseeq a b := by
  rw [strncaseeq, strcaseeq, take_left' ha, take_of_length_le hb.le]

section Blanks

variable {w blanks : Bytes}

theorem exists_trimBlanks (s : Bytes) :
    ∃ blanks, s = trimBlanks s ++ blanks ∧ ∀ b ∈ blanks, isBlank b = true :=
  ⟨s.rtakeWhile isBlank, rdropWhile_append_rtakeWhile.symm, fun _ => mem_rtakeWhile_imp⟩

theorem takeWhile_append_of_stop {test : UInt8 → Bool}
    (hstop : ∀ b ∈ blanks.head?, test b = false) :
    (w ++ blanks).takeWhile test = w.takeWhile test := by
  induction w with
  | nil =>
    cases blanks with
    | nil => rfl
    | cons b _ => simp [hstop b rfl]
  | cons b w ih => rw [cons_append, takeWhile_cons, takeWhile_cons, ih]

theorem dropWhile_append_of_stop {test : UInt8 → Bool}
    (hstop : ∀ b ∈ blanks.head?, test b = false) :
    (w ++ blanks).dropWhile test = w.dropWhile test ++ blanks := by
  induction w with
  | nil =>
    cases blanks with
    | nil => rfl
    | cons b _ => simp [hstop b rfl]
  | cons b w ih =>
    rw [cons_append, dropWhile_cons, dropWhile_cons, ih]
    split <;> rfl

theorem skipBlanks_eq_nil_iff : skipBlanks w = [] ↔ ∀ b ∈ w, isBlank b = true := by
  rw [skipBlanks, dropWhile_eq_nil_iff]

theorem skipBlanks_append_blanks (hblanks : ∀ b ∈ blanks, isBlank b = true) :
    skipBlanks (w ++ blanks) =
      if skipBlanks w = [] then [] else skipBlanks w ++ blanks := by
  split
  next hw =>
    rw [skipBlanks_eq_nil_iff] at hw ⊢
    intro b hb
    rcases mem_append.mp hb with hb | hb
    · exact hw b hb
    · exact hblanks b hb
  next hw =>
    induction w with
    | nil => exact absurd rfl hw
    | cons b w ih =>
      simp only [skipBlanks, cons_append, dropWhile_cons] at hw ih ⊢
      split
      next hb =>
        rw [if_pos hb] at hw
        exact ih hw
      next => rfl

end Blanks

section Words

variable {word spaces : Bytes}

theorem isSpace_of_isBlank {b : UInt8} (h : isBlank b = true) : isSpace b = true := by
  rw [isBlank, Bool.or_eq_true, beq_iff_eq, beq_iff_eq] at h
  rcases h with rfl | rfl <;> rfl

theorem scanWord_spaces (hspaces : ∀ b ∈ spaces, isSpace b = true) (width : ℕ)
    (rest : Bytes) : scanWord width (spaces ++ rest) = scanWord width rest := by
  rw [scanWord, scanWord, dropWhile_append_of_pos hspaces]

theorem scanWord_eq_none (hspaces : ∀ b ∈ spaces, isSpace b = true)
    (width : ℕ) : scanWord width spaces = none := by
  have hempty : scanWord width [] = none := by simp [scanWord]
  rw [← append_nil spaces, scanWord_spaces hspaces, hempty]

theorem scanWord_append {width : ℕ} (hword : ∀ b ∈ word, isSpace b = false)
    (hne : word ≠ []) (hle : word.length ≤ width) (rest : Bytes)
    (hend : word.length = width ∨ ∀ b ∈ rest.head?, isSpace b = true) :
    scanWord width (word ++ rest) = some (word, rest) := by
  have hstart : (word ++ rest).dropWhile isSpace = word ++ rest := by
    cases word with
    | nil => exact absurd rfl hne
    | cons b word =>
      rw [cons_append, dropWhile_cons_of_neg]
      rw [hword b mem_cons_self]
      exact Bool.false_ne_true
  have hnot : ∀ b ∈ word, (!isSpace b) = true := by
    intro b hb
    rw [hword b hb]
    rfl
  have hcut : ((word ++ rest).takeWhile fun b => !isSpace b).take width = word := by
    rw [takeWhile_append_of_pos hnot]
    rcases hend with hfull | hspaces
    · exact take_left' hfull
    · have hstop : rest.takeWhile (fun b => !isSpace b) = [] := by
        cases rest with
        | nil => rfl
        | cons b rest => simp [hspaces b rfl]
      rw [hstop, append_nil, take_of_length_le hle]
  rw [scanWord, hstart]
  simp only [hcut]
  rw [if_neg hne, drop_left]

/-- The words of a text: its longest pieces without a space. -/
def textWords (bs : Bytes) : List Bytes :=
  (bs.splitOnP isSpace).filter fun piece => piece ≠ []

theorem textWords_spaces (hspaces : ∀ b ∈ spaces, isSpace b = true)
    (rest : Bytes) : textWords (spaces ++ rest) = textWords rest := by
  induction spaces with
  | nil => rfl
  | cons b spaces ih =>
    obtain ⟨hb, htail⟩ := forall_mem_cons.mp hspaces
    rw [cons_append, textWords,
      splitOnP_cons_eq_if_modifyHead, if_pos hb,
      filter_cons_of_neg (by simp)]
    exact ih htail

theorem textWords_word (hword : ∀ b ∈ word, isSpace b = false) (hne : word ≠ []) {rest : Bytes}
    (hend : ∀ b ∈ rest.head?, isSpace b = true) :
    textWords (word ++ rest) = word :: textWords rest := by
  cases rest with
  | nil =>
    rw [append_nil, textWords, splitOnP_eq_singleton hword, filter_cons_of_pos (by simpa using hne)]
    rfl
  | cons b rest =>
    have hb : isSpace b = true := hend b rfl
    have hspace : ∀ c ∈ [b], isSpace c = true := forall_mem_singleton.mpr hb
    rw [← singleton_append, textWords_spaces hspace, singleton_append, textWords,
      splitOnP_append_cons_of_forall_mem hword b hb,
      filter_cons_of_pos (by simpa using hne)]
    rfl

/-- A text is blank, or it starts with spaces and a word. -/
theorem exists_word (bs : Bytes) :
    (∀ b ∈ bs, isSpace b = true) ∨ ∃ spaces word rest, bs = spaces ++ (word ++ rest) ∧
        (∀ b ∈ spaces, isSpace b = true) ∧ (∀ b ∈ word, isSpace b = false) ∧
        word ≠ [] ∧ ∀ b ∈ rest.head?, isSpace b = true := by
  by_cases hblank : bs.dropWhile isSpace = []
  · exact .inl (dropWhile_eq_nil_iff.mp hblank)
  · right
    let text := bs.dropWhile isSpace
    refine ⟨bs.takeWhile isSpace, text.takeWhile fun b => !isSpace b,
      text.dropWhile fun b => !isSpace b, ?_, ?_, ?_, ?_, ?_⟩
    · rw [takeWhile_append_dropWhile, takeWhile_append_dropWhile]
    · intro b hb
      exact mem_takeWhile_imp hb
    · intro b hb
      simpa using mem_takeWhile_imp hb
    · have hhead := head_dropWhile_not isSpace hblank
      obtain ⟨b, text', htext⟩ := exists_cons_of_ne_nil hblank
      simp only [htext, head_cons] at hhead
      simp [text, htext, hhead]
    · intro b hb
      have hstop := List.head?_dropWhile_not (fun b => !isSpace b) text
      rw [Option.mem_def.mp hb] at hstop
      simpa using hstop

/-- The words behind a conversion that stops inside an overlong word. -/
def wordsBehind (width : ℕ) (word : Bytes) (words : List Bytes) : List Bytes :=
  if word.length ≤ width then words else word.drop width :: words

/-- A conversion takes the first word, up to its width. -/
theorem scanWord_textWords {width : ℕ} (hwidth : 0 < width) (bs : Bytes) :
    match textWords bs with
    | [] => scanWord width bs = none
    | word :: words => ∃ rest, scanWord width bs = some (word.take width, rest) ∧
        textWords rest = wordsBehind width word words := by
  rcases exists_word bs with hblank | ⟨spaces, word, rest, rfl, hspaces, hword, hne, hend⟩
  · have hnil := textWords_spaces hblank []
    rw [append_nil] at hnil
    rw [hnil]
    exact scanWord_eq_none hblank width
  · rw [textWords_spaces hspaces, textWords_word hword hne hend, scanWord_spaces hspaces]
    simp only
    have htake : ∀ b ∈ word.take width, isSpace b = false :=
      fun b hb => hword b (mem_of_mem_take hb)
    by_cases hlong : word.length ≤ width
    · refine ⟨rest, ?_, ?_⟩
      · rw [take_of_length_le hlong]
        exact scanWord_append hword hne hlong rest (.inr hend)
      · rw [wordsBehind, if_pos hlong]
    · refine ⟨word.drop width ++ rest, ?_, ?_⟩
      · have hlen : (word.take width).length = width := length_take_of_le (not_le.mp hlong).le
        have hnonempty : word.take width ≠ [] := by
          intro hnil
          rw [hnil, length_nil] at hlen
          exact hwidth.ne hlen
        have hscan := scanWord_append htake hnonempty hlen.le (word.drop width ++ rest) (.inl hlen)
        rwa [← append_assoc, take_append_drop] at hscan
      · rw [wordsBehind, if_neg hlong]
        refine textWords_word (fun b hb => hword b (mem_of_mem_drop hb)) ?_ hend
        rw [Ne, drop_eq_nil_iff]
        exact hlong

end Words

theorem set_middle (xs ys : Bytes) (b c : UInt8) :
    (xs ++ b :: ys).set xs.length c = xs ++ c :: ys := by
  rw [set_append_right xs.length c le_rfl, Nat.sub_self]
  rfl

section Terminated

variable {s : Bytes}

theorem cString_append_zero (hs : 0 ∉ s) (rest : Bytes) : cString (s ++ 0 :: rest) = s := by
  rw [cString, takeWhile_append_of_pos]
  · simp
  · intro b hb
    rw [decide_eq_true_iff]
    rintro rfl
    exact hs hb

theorem zero_notMem_cString (bs : Bytes) : 0 ∉ cString bs := fun h => by
  simpa using mem_takeWhile_imp h

theorem cString_of_notMem (hs : 0 ∉ s) : cString s = s := by
  rw [cString, takeWhile_eq_self_iff]
  intro b hb
  rw [decide_eq_true_iff]
  rintro rfl
  exact hs hb

theorem cString_cons (b : UInt8) (bs : Bytes) :
    cString (b :: bs) = if b = 0 then [] else b :: cString bs := by
  rw [cString, takeWhile_cons]
  by_cases hb : b = 0
  · simp [hb]
  · simp [hb, cString]

/-- What a reader sees of a terminated text. -/
theorem exists_append_zero (bs rest : Bytes) :
    ∃ junk, bs ++ 0 :: rest = cString bs ++ 0 :: junk := by
  induction bs with
  | nil => exact ⟨rest, rfl⟩
  | cons b bs ih =>
    by_cases hb : b = 0
    · subst hb
      exact ⟨bs ++ 0 :: rest, by rw [cString_cons, if_pos rfl]; rfl⟩
    · obtain ⟨junk, hjunk⟩ := ih
      refine ⟨junk, ?_⟩
      rw [cString_cons, if_neg hb, cons_append, hjunk, cons_append]

theorem skipBlanks_append_zero (rest : Bytes) :
    skipBlanks (s ++ 0 :: rest) = skipBlanks s ++ 0 :: rest := by
  induction s with
  | nil => rfl
  | cons b s ih =>
    rw [cons_append, skipBlanks, skipBlanks, dropWhile_cons, dropWhile_cons]
    split
    · exact ih
    · rfl

end Terminated

end Codo.Support
