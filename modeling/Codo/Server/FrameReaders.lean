import Codo.Server.FrameAgreement

/-!
# Readers of the framing fields

What `check_request_frame` promises to other readers of a request it accepts: a
length never stands beside a transfer coding, every length is a number, and the
last one decides where the request ends.  Whether the others are equal to it is
not checked.
-/

namespace Codo.Server

open Support Common Option List

/-! ## Framing fields -/

/-- The line is a field with this name and value. -/
def IsField (text line value : Bytes) : Prop :=
  ∃ name, splitByte 58 (stripCr line) = some (name, value) ∧ strcaseeq name text = true

/-- The line is a `Content-Length` field that denotes `n`. -/
def Declares (line : Bytes) (n : ℕ) : Prop :=
  ∃ value, IsField (ascii "Content-Length") line value ∧ httpParseContentLength value = some n

/-- No line is a `Content-Length` field. -/
def NoLength (lines : List Bytes) : Prop :=
  ∀ line ∈ lines, ∀ value, ¬IsField (ascii "Content-Length") line value

/-- What is certain about the framing of a buffer that starts with the block
`head` and is not refused. -/
structure FramedByLast (maxBody : ℕ) (lines : List Bytes) (head more : Bytes) : Prop where
  /-- Every length is a number. -/
  declares : ∀ line ∈ lines, ∀ value,
    IsField (ascii "Content-Length") line value → ∃ n, Declares line n
  /-- There is a length or a transfer coding, not both. -/
  exclusive : ∀ line ∈ lines, ∀ line' ∈ lines, ∀ value value',
    IsField (ascii "Content-Length") line value → ¬IsField (ascii "Transfer-Encoding") line' value'
  /-- The last length is in bounds, and the request is complete exactly if its
  bytes have arrived. -/
  last : ∀ before line after n, lines = before ++ line :: after → NoLength after → Declares line n →
    n ≤ maxBody ∧ ((checkRequestFrame maxBody (head ++ more)).rc = 1 ↔
        (head.length + n) % 2 ^ 64 ≤ (head ++ more).length) ∧
      ((checkRequestFrame maxBody (head ++ more)).rc = 1 →
        (checkRequestFrame maxBody (head ++ more)).requestLen = (head.length + n) % 2 ^ 64)

section Lines

variable {line value : Bytes} {lines : List Bytes} {kind : LineKind} {st st' : Framing} {n : ℕ}

theorem httpParseContentLength_skipBlanks (value : Bytes) :
    httpParseContentLength (skipBlanks value) = httpParseContentLength value := by
  have hskip : skipBlanks (skipBlanks value) = skipBlanks value := dropWhile_idempotent _ value
  simp only [httpParseContentLength, hskip]

/-- A length field the framer accepts denotes the number it notes. -/
theorem kind_of_contentLength (hkind : lineKind line = .ok kind)
    (hfield : IsField (ascii "Content-Length") line value) :
    ∃ n, httpParseContentLength value = some n ∧ kind = .contentLength n := by
  obtain ⟨name, hcolon, hname⟩ := hfield
  rcases lineKind_cases hkind with ⟨hnone, -⟩ | ⟨name', value', hcolon', hcases⟩
  · rw [hcolon] at hnone
    cases hnone
  · rw [hcolon] at hcolon'
    obtain ⟨rfl, rfl⟩ := Prod.mk.inj (some.inj hcolon')
    rcases hcases with ⟨-, tmp, n, hcopy, hparse, hnote⟩ | ⟨hcoding, -⟩ | ⟨hlength, -⟩
    · refine ⟨n, ?_, hnote⟩
      rw [← httpParseContentLength_skipBlanks, httpParseContentLength_copy hcopy, hparse]
    · rw [strcaseeq_congr hname] at hcoding
      exact absurd hcoding (by decide)
    · rw [hname] at hlength
      cases hlength

theorem kind_of_transferEncoding (hkind : lineKind line = .ok kind)
    (hfield : IsField (ascii "Transfer-Encoding") line value) : kind = .chunked := by
  obtain ⟨name, hcolon, hname⟩ := hfield
  rcases lineKind_cases hkind with ⟨hnone, -⟩ | ⟨name', value', hcolon', hcases⟩
  · rw [hcolon] at hnone
    cases hnone
  · rw [hcolon] at hcolon'
    obtain ⟨rfl, rfl⟩ := Prod.mk.inj (some.inj hcolon')
    rcases hcases with ⟨hlength, -⟩ | ⟨-, tmp, -, -, hnote⟩ | ⟨-, hcoding, -⟩
    · rw [strcaseeq_congr hname] at hlength
      exact absurd hlength (by decide)
    · exact hnote
    · rw [hname] at hcoding
      cases hcoding

/-- A number the framer notes is denoted by the line. -/
theorem declares_of_lineKind (hkind : lineKind line = .ok (.contentLength n)) :
    Declares line n := by
  rcases lineKind_cases hkind with ⟨-, hnote⟩ | ⟨name, value, hcolon, hcases⟩
  · cases hnote
  · rcases hcases with ⟨hname, tmp, m, hcopy, hparse, hnote⟩ |
      ⟨-, tmp, -, -, hnote⟩ | ⟨-, -, hnote | hnote⟩
    · cases hnote
      refine ⟨value, ⟨name, hcolon, hname⟩, ?_⟩
      rw [← httpParseContentLength_skipBlanks, httpParseContentLength_copy hcopy, hparse]
    · cases hnote
    · cases hnote
    · cases hnote

theorem Declares.lineKind (h : Declares line n)
    (hkind : lineKind line = .ok kind) : kind = .contentLength n := by
  obtain ⟨value, hfield, hparse⟩ := h
  obtain ⟨m, hm, hnote⟩ := kind_of_contentLength hkind hfield
  rw [hparse] at hm
  rw [hnote, some.inj hm]

section

variable (h : lines.foldlM frameLine st = .ok st')
include h

theorem exists_lineKind (hline : line ∈ lines) : ∃ kind, lineKind line = .ok kind := by
  induction lines generalizing st with
  | nil => exact absurd hline not_mem_nil
  | cons first lines ih =>
    obtain ⟨kind, hkind, hrest⟩ := foldlM_frameLine_cons.mp h
    rcases mem_cons.mp hline with rfl | hmem
    · exact ⟨kind, hkind⟩
    · exact ih hrest hmem

/-- The walk has seen a length exactly if a line notes one. -/
theorem foldlM_frameLine_saw :
    st'.sawContentLength = true ↔ st.sawContentLength = true ∨
      ∃ line ∈ lines, ∃ n, lineKind line = .ok (.contentLength n) := by
  induction lines generalizing st with
  | nil =>
    cases h
    simp
  | cons first lines ih =>
    obtain ⟨kind, hkind, hrest⟩ := foldlM_frameLine_cons.mp h
    rw [ih hrest]
    simp only [exists_mem_cons_iff, hkind]
    cases kind with
    | contentLength n => simp [Framing.note]
    | chunked => simp [Framing.note]
    | expect100 => simp [Framing.note]
    | other => simp [Framing.note]

theorem foldlM_frameLine_noLength (hnone : NoLength lines) :
    st'.contentLength = st.contentLength := by
  induction lines generalizing st with
  | nil =>
    cases h
    rfl
  | cons first lines ih =>
    obtain ⟨kind, hkind, hrest⟩ := foldlM_frameLine_cons.mp h
    obtain ⟨hfirst, htail⟩ := forall_mem_cons.mp hnone
    rw [ih hrest htail]
    cases kind with
    | contentLength n =>
      obtain ⟨value, hfield, -⟩ := declares_of_lineKind hkind
      exact absurd hfield (hfirst value)
    | chunked => rfl
    | expect100 => rfl
    | other => rfl

theorem chunked_of_lineKind (hline : line ∈ lines)
    (hkind : lineKind line = .ok .chunked) : st'.chunked = true := by
  rw [foldlM_frameLine_chunked h, Bool.or_eq_true, anyChunked, List.any_eq_true]
  exact .inr ⟨line, hline, saysChunked_of_lineKind hkind⟩

end

/-- The walk ends with the number of the last length field. -/
theorem foldlM_frameLine_last {before after : List Bytes}
    (h : (before ++ line :: after).foldlM frameLine st = .ok st')
    (hnone : NoLength after) (hn : Declares line n) : st'.contentLength = n := by
  rw [foldlM_append] at h
  cases hbefore : before.foldlM frameLine st with
  | error e =>
    rw [hbefore] at h
    cases h
  | ok mid =>
    rw [hbefore] at h
    obtain ⟨kind, hkind, hrest⟩ := foldlM_frameLine_cons.mp h
    obtain rfl := hn.lineKind hkind
    exact foldlM_frameLine_noLength hrest hnone

end Lines

section Blocks

variable {maxBody : ℕ} {first head more : Bytes} {fields : List Bytes}

/-- A buffer that is not refused starts with an accepted block, which has at
most one kind of framing. -/
theorem exists_headOk_of_not_refused (hhead : IsHead first fields head)
    (hrc : 0 ≤ (checkRequestFrame maxBody (head ++ more)).rc) :
    ∃ st, HeadOk first fields head st ∧ ¬(st.chunked = true ∧ st.sawContentLength = true) := by
  rw [checkRequestFrame] at hrc
  cases hframe : frameHead (head ++ more) with
  | none =>
    rw [hhead.frameHead] at hframe
    cases hframe
  | some verdict =>
    simp only [hframe] at hrc
    cases verdict with
    | error e =>
      obtain ⟨refusal, st⟩ := e
      cases refusal with
      | malformed => simp [Refusal.code] at hrc
      | unsupported => simp [Refusal.code] at hrc
    | ok found =>
      obtain ⟨hok, -⟩ := hhead.headOk hframe
      refine ⟨found.2, hok, ?_⟩
      rintro ⟨hchunked, hsaw⟩
      simp only [frameBody, hchunked, hsaw, if_true] at hrc
      exact absurd hrc (by decide)

theorem HeadOk.frame_of_unchunked {st : Framing}
    (hok : HeadOk first fields head st) (hplain : st.chunked = false)
    (hrc : 0 ≤ (checkRequestFrame maxBody (head ++ more)).rc) :
    st.contentLength ≤ maxBody ∧ ((checkRequestFrame maxBody (head ++ more)).rc = 1 ↔
        (head.length + st.contentLength) % 2 ^ 64 ≤ (head ++ more).length) := by
  rw [checkRequestFrame, hok.frameHead] at hrc ⊢
  simp only [frameBody, hplain, Bool.false_eq_true, if_false] at hrc ⊢
  split at hrc
  next => exact absurd hrc (show ¬(0 : ℤ) ≤ -3 by decide)
  next hfits =>
    rw [if_neg hfits]
    refine ⟨not_lt.mp hfits, ?_⟩
    split
    next hshort => exact iff_of_false Int.zero_ne_one (not_le.mpr hshort)
    next hlong => exact iff_of_true rfl (not_lt.mp hlong)

/-- The framing fields of a block that is not refused are numbers or a coding,
and the last length ends the request. -/
theorem accepted_framed_by_last (maxBody : ℕ)
    (hhead : IsHead first fields head)
    (hrc : (checkRequestFrame maxBody (head ++ more)).rc = 0 ∨
      (checkRequestFrame maxBody (head ++ more)).rc = 1) :
    FramedByLast maxBody (first :: fields) head more := by
  have hnonneg : 0 ≤ (checkRequestFrame maxBody (head ++ more)).rc := by omega
  obtain ⟨st, hok, hone⟩ := exists_headOk_of_not_refused hhead hnonneg
  have hseen : ∀ line ∈ first :: fields, ∀ n, Declares line n → st.sawContentLength = true := by
    intro line hline n hn
    obtain ⟨kind, hkind⟩ := exists_lineKind hok.walk hline
    obtain rfl := hn.lineKind hkind
    exact (foldlM_frameLine_saw hok.walk).mpr (.inr ⟨line, hline, n, hkind⟩)
  have hdeclares : ∀ line ∈ first :: fields, ∀ value,
      IsField (ascii "Content-Length") line value → ∃ n, Declares line n := by
    intro line hline value hfield
    obtain ⟨kind, hkind⟩ := exists_lineKind hok.walk hline
    obtain ⟨n, hparse, -⟩ := kind_of_contentLength hkind hfield
    exact ⟨n, value, hfield, hparse⟩
  refine ⟨hdeclares, ?_, ?_⟩
  · intro line hline line' hline' value value' hlength hcoding
    obtain ⟨n, hn⟩ := hdeclares line hline value hlength
    obtain ⟨kind, hkind⟩ := exists_lineKind hok.walk hline'
    obtain rfl := kind_of_transferEncoding hkind hcoding
    exact hone ⟨chunked_of_lineKind hok.walk hline' hkind, hseen line hline n hn⟩
  · intro before line after n hlines hnone hn
    have hline : line ∈ first :: fields := by
      rw [hlines]
      exact mem_append_right _ mem_cons_self
    have hplain : st.chunked = false := by
      rw [← Bool.not_eq_true]
      exact fun hchunked => hone ⟨hchunked, hseen line hline n hn⟩
    obtain rfl : st.contentLength = n := foldlM_frameLine_last (hlines ▸ hok.walk) hnone hn
    obtain ⟨hfits, hwhole⟩ := hok.frame_of_unchunked hplain hnonneg
    refine ⟨hfits, hwhole, fun hone => ?_⟩
    rcases hok.frame_cases hone with ⟨-, -, -, hchunked, -⟩ | ⟨-, -, -, hlen⟩
    · rw [hplain] at hchunked
      cases hchunked
    · exact hlen

/-- A request line, and a head of it and two field lines. -/
def postLine : Bytes := ascii "POST / HTTP/1.1\r"

def postHead (field field' : Bytes) : Bytes :=
  postLine ++ 10 :: (field ++ 10 :: (field' ++ 10 :: [13, 10]))

theorem isHead_postHead {field field' : Bytes} (hfield : 10 ∉ field)
    (hfull : stripCr field ≠ []) (hfield' : 10 ∉ field') (hfull' : stripCr field' ≠ []) :
    IsHead postLine [field, field'] (postHead field field') :=
  ⟨by decide, _, .line hfield hfull (.line hfield' hfull'
    (@LineBlock.blank [13] (by decide) rfl)), rfl⟩

/-- The number of the last field ends the request. -/
theorem accepted_framed_by_last_two :
    let field := ascii "Content-Length: 1\r"
    let field' := ascii "Content-Length: 2\r"
    let head := postHead field field'
    (checkRequestFrame 16 (head ++ ascii "ab")).rc = 1 ∧
      FramedByLast 16 [postLine, field, field'] head (ascii "ab") ∧
      (checkRequestFrame 16 (head ++ ascii "ab")).requestLen = head.length + 2 :=
  ⟨by decide, accepted_framed_by_last 16
    (isHead_postHead (by decide) (by decide) (by decide) (by decide)) (.inr (by decide)), by decide⟩

/-- A request with two different lengths is accepted, and a reader that honours
the first ends it earlier. -/
theorem framing_ambiguous :
    let field := ascii "Content-Length: 1\r"
    let field' := ascii "Content-Length: 2\r"
    let head := postHead field field'
    IsHead postLine [field, field'] head ∧ Declares field 1 ∧ Declares field' 2 ∧
      (checkRequestFrame 16 (head ++ ascii "ab")).rc = 1 ∧
      (checkRequestFrame 16 (head ++ ascii "ab")).requestLen ≠ head.length + 1 :=
  ⟨isHead_postHead (by decide) (by decide) (by decide) (by decide),
    ⟨ascii " 1", ⟨ascii "Content-Length", by decide, by decide⟩, by decide⟩,
    ⟨ascii " 2", ⟨ascii "Content-Length", by decide, by decide⟩, by decide⟩, by decide, by decide⟩

end Blocks

end Codo.Server
