import Codo.Common.RequestParser

/-!
# The request line

`parse_request_line` reads three words with the widths of its fields.  A
conversion that reaches its width stops inside the word, and the next one goes on
with what is left of it.  A line is therefore kept as it is only if its words fit
the fields.
-/

namespace Codo.Common

open Support

/-- The words of a request line fit `method_str`, `uri` and `version`. -/
structure FieldsFit (line : Bytes) : Prop where
  method : ∀ word ∈ (textWords line)[0]?, word.length ≤ 15
  target : ∀ word ∈ (textWords line)[1]?, word.length ≤ 2047
  version : ∀ word ∈ (textWords line)[2]?, word.length ≤ 15

/-- The target a request holds: its path, or path and query. -/
def Request.HasTarget (request : Request) (target : Bytes) : Prop :=
  target = request.uri ∨ target = request.uri ++ 63 :: request.queryString

/-- An accepted line fits the fields, and target and version are kept. -/
def KeepsTarget (line : Bytes) (request : Request) : Prop :=
  (parseRequestLine line request).1 = 0 → FieldsFit line ∧ (∃ target ∈ (textWords line)[1]?,
        (parseRequestLine line request).2.HasTarget target) ∧
      (textWords line)[2]? = some (parseRequestLine line request).2.version

section Words

variable {line method target version : Bytes}

theorem requestWords_eq (line : Bytes) :
    requestWords line =
      match textWords line with
      | [] => none
      | method :: words =>
        match wordsBehind 15 method words with
        | [] => none
        | target :: words =>
          match wordsBehind 2047 target words with
          | [] => none
          | version :: _ =>
            some (method.take 15, target.take 2047, version.take 15) := by
  have hfirst := scanWord_textWords (by decide : 0 < 15) line
  rw [requestWords]
  cases hwords : textWords line with
  | nil =>
    rw [hwords] at hfirst
    rw [hfirst]
  | cons method words =>
    rw [hwords] at hfirst
    obtain ⟨rest, hscan, hrest⟩ := hfirst
    have hsecond := scanWord_textWords (by decide : 0 < 2047) rest
    rw [hscan]
    simp only
    rw [← hrest]
    cases hwords : textWords rest with
    | nil =>
      rw [hwords] at hsecond
      rw [hsecond]
    | cons target words =>
      rw [hwords] at hsecond
      obtain ⟨rest, hscan, hrest⟩ := hsecond
      have hthird := scanWord_textWords (by decide : 0 < 15) rest
      rw [hscan]
      simp only
      rw [← hrest]
      cases hwords : textWords rest with
      | nil =>
        rw [hwords] at hthird
        rw [hthird]
      | cons version words =>
        rw [hwords] at hthird
        obtain ⟨rest, hscan, -⟩ := hthird
        rw [hscan]

theorem parseRequestLine_fields (h : requestWords line = some (method, target, version))
    (request : Request) :
    (parseRequestLine line request).2.HasTarget target ∧
      (parseRequestLine line request).2.version = version := by
  rw [requestWords] at h
  rw [parseRequestLine]
  cases hfirst : scanWord 15 line with
  | none => simp [hfirst] at h
  | some first =>
    simp only [hfirst] at h ⊢
    cases hsecond : scanWord 2047 first.2 with
    | none => simp [hsecond] at h
    | some second =>
      simp only [hsecond] at h ⊢
      cases hthird : scanWord 15 second.2 with
      | none => simp [hthird] at h
      | some third =>
        simp only [hthird, Option.some.injEq, Prod.mk.injEq] at h ⊢
        obtain ⟨-, rfl, rfl⟩ := h
        cases hquery : splitByte 63 second.1 with
        | none => exact ⟨.inl rfl, rfl⟩
        | some cut =>
          obtain ⟨hcut, -⟩ := eq_of_splitByte hquery
          exact ⟨.inr hcut, rfl⟩

theorem wordsBehind_eq_nil_iff {width : ℕ} {word : Bytes} {words : List Bytes} :
    wordsBehind width word words = [] ↔ word.length ≤ width ∧ words = [] := by
  rw [wordsBehind]
  split
  next h => simp [h]
  next h => simp [h]

/-- A line that is refused has no overlong word, or one word that fills no more
than two fields. -/
theorem fieldsFit_of_requestWords_eq_none (h : requestWords line = none) :
    FieldsFit line ∨ ∃ word, textWords line = [word] ∧ word.length ≤ 2062 := by
  rw [requestWords_eq] at h
  cases hwords : textWords line with
  | nil => exact .inl ⟨by simp [hwords], by simp [hwords], by simp [hwords]⟩
  | cons method words =>
    simp only [hwords] at h
    cases hbehind : wordsBehind 15 method words with
    | nil =>
      obtain ⟨hmethod, rfl⟩ := wordsBehind_eq_nil_iff.mp hbehind
      exact .inl ⟨by simpa [hwords] using hmethod, by simp [hwords], by simp [hwords]⟩
    | cons target words' =>
      simp only [hbehind] at h
      have hlast : wordsBehind 2047 target words' = [] := by
        cases hlast : wordsBehind 2047 target words' with
        | nil => rfl
        | cons version _ => simp [hlast] at h
      obtain ⟨htarget, rfl⟩ := wordsBehind_eq_nil_iff.mp hlast
      rw [wordsBehind] at hbehind
      split at hbehind
      next hmethod =>
        subst hbehind
        exact .inl ⟨by simpa [hwords] using hmethod,
          by simpa [hwords] using htarget, by simp [hwords]⟩
      next hmethod =>
        obtain ⟨rfl, rfl⟩ := List.cons.inj hbehind
        refine .inr ⟨method, rfl, ?_⟩
        rw [List.length_drop] at htarget
        omega

theorem requestWords_of_fieldsFit (hfit : FieldsFit line) (h : (requestWords line).isSome) :
    ∃ method target version words, textWords line = method :: target :: version :: words ∧
        requestWords line = some (method, target, version) := by
  rw [requestWords_eq] at h ⊢
  obtain ⟨hmethod, htarget, hversion⟩ := hfit
  match hwords : textWords line with
  | [] => simp [hwords] at h
  | [method] =>
    rw [hwords] at hmethod h
    have hshort : method.length ≤ 15 := hmethod method rfl
    simp [wordsBehind, hshort] at h
  | [method, target] =>
    rw [hwords] at hmethod htarget h
    have hshort : method.length ≤ 15 := hmethod method rfl
    have hfits : target.length ≤ 2047 := htarget target rfl
    simp [wordsBehind, hshort, hfits] at h
  | method :: target :: version :: words =>
    rw [hwords] at hmethod htarget hversion
    have hshort : method.length ≤ 15 := hmethod method rfl
    have hfits : target.length ≤ 2047 := htarget target rfl
    have hclose : version.length ≤ 15 := hversion version rfl
    refine ⟨method, target, version, words, rfl, ?_⟩
    simp [wordsBehind, hshort, hfits, hclose]

/-- Target and version are kept exactly for the lines whose words fit the
fields, and for those of one word that is too short to fill three. -/
theorem parsed_target_iff (line : Bytes) (request : Request) :
    KeepsTarget line request ↔
      FieldsFit line ∨
        ∃ word, textWords line = [word] ∧ word.length ≤ 2062 := by
  rw [KeepsTarget, parseRequestLine_eq_zero_iff]
  constructor
  · intro h
    cases hwords : requestWords line with
    | none => exact fieldsFit_of_requestWords_eq_none hwords
    | some words => exact .inl (h (by rw [hwords]; rfl)).1
  · rintro (hfit | ⟨word, hword, hle⟩) hsome
    · obtain ⟨method, target, version, words, hwords, hscan⟩ := requestWords_of_fieldsFit hfit hsome
      obtain ⟨htarget, hversion⟩ := parseRequestLine_fields hscan request
      refine ⟨hfit, ⟨target, by rw [hwords]; rfl, htarget⟩, ?_⟩
      rw [hwords, hversion]
      rfl
    · -- One word never yields three.
      have hrest : (word.drop 15).length ≤ 2047 := by
        rw [List.length_drop]
        omega
      rw [requestWords_eq, hword] at hsome
      by_cases hshort : word.length ≤ 15
      · simp [wordsBehind, hshort] at hsome
      · simp only [wordsBehind, if_neg hshort, if_pos hrest] at hsome
        simp at hsome

end Words

/-- A method of 16 bytes. -/
def overlongMethod : Bytes :=
  ascii "GETGETGETGETGETG /admin HTTP/1.1"

/-- The line is accepted with the last byte of the method as its target and the
target as its version. -/
theorem parsed_target_resplit :
    textWords overlongMethod =
        [ascii "GETGETGETGETGETG", ascii "/admin", ascii "HTTP/1.1"] ∧
      (parseRequestLine overlongMethod .zero).1 = 0 ∧
      (parseRequestLine overlongMethod .zero).2.uri = ascii "G" ∧
      (parseRequestLine overlongMethod .zero).2.version = ascii "/admin" := by
  decide +kernel

end Codo.Common
