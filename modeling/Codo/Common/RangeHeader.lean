import Codo.Common.RequestParser

/-!
# The range of a request

`parse_range_header` is called for every `Range` field of a request head, on one
record.  A value states the last bytes of the entity or a span of it, or it is
ignored.  What the record holds behind the head is a fold over the stated
ranges.

A span does not reset the mark that a suffix has set, so the range of the record
is that of the last stated range unless a span follows a suffix.
-/

namespace Codo.Common

open Support List Option Bool

/-! ## What one value states -/

/-- A stated range; the end of an open span is `-1`. -/
inductive RangeSpec
  | suffix (n : ℤ)
  | span (first last : ℤ)
  deriving DecidableEq

/-- The range that `-N` states. -/
def suffixSpec (spec : Bytes) : Option RangeSpec :=
  match strtoll spec with
  | none => none
  | some (n, rest) => if n < 0 ∨ skipBlanks rest ≠ [] then none else some (.suffix n)

/-- The range a value of a `Range` field states, if it is acceptable. -/
def rangeSpec (value : Bytes) : Option RangeSpec :=
  if !strncaseeq value (ascii "bytes=") 6 then none
  else if 44 ∈ value.drop 6 then none
  else
    let spec := skipBlanks (value.drop 6)
    if spec.head? = some 45 then suffixSpec spec.tail
    else
      match strtoll spec with
      | none => none
      | some (first, rest) =>
        if first < 0 ∨ rest.head? ≠ some 45 then none
        else
          match parseRangeEnd first (skipBlanks rest.tail) with
          | none => none
          | some last => some (.span first last)

/-- The range fields of `http_request_t`. -/
structure RangeFields where
  hasRange : Bool
  rangeSuffix : Bool
  rangeStart : ℤ
  rangeEnd : ℤ
  deriving DecidableEq

def Request.range (request : Request) : RangeFields :=
  ⟨request.hasRange, request.rangeSuffix, request.rangeStart, request.rangeEnd⟩

/-- What the parser does with a stated range. -/
def RangeSpec.store : RangeSpec → RangeFields → RangeFields
  | .suffix n, _ => ⟨true, true, n, -1⟩
  | .span first last, fields => ⟨true, fields.rangeSuffix, first, last⟩

/-- What the parser does with the value of a `Range` field. -/
def RangeFields.read (fields : RangeFields) (value : Bytes) : RangeFields :=
  match rangeSpec value with
  | none => fields
  | some spec => spec.store fields

section Values

variable (value : Bytes) (request : Request)

theorem range_parseSuffixRange :
    (parseSuffixRange value request).range =
      match suffixSpec value with
      | none => request.range
      | some spec => spec.store request.range := by
  rw [parseSuffixRange, suffixSpec]
  cases strtoll value with
  | none => rfl
  | some cut =>
    simp only
    split <;> rfl

theorem range_parseRangeHeader :
    (parseRangeHeader value request).range = request.range.read value := by
  rw [parseRangeHeader, RangeFields.read, rangeSpec]
  split
  · rfl
  · split
    · rfl
    · simp only
      split
      · exact range_parseSuffixRange _ _
      · cases strtoll (skipBlanks (value.drop 6)) with
        | none => rfl
        | some cut =>
          simp only
          split
          · rfl
          · cases parseRangeEnd cut.1 (skipBlanks cut.2.tail) with
            | none => rfl
            | some last => rfl

theorem hasRange_parseRangeHeader_zero :
    (parseRangeHeader value .zero).hasRange = (rangeSpec value).isSome := by
  have hread := congrArg RangeFields.hasRange (range_parseRangeHeader value .zero)
  rw [RangeFields.read] at hread
  cases hspec : rangeSpec value with
  | none =>
    rw [hspec] at hread
    exact hread
  | some spec =>
    rw [hspec] at hread
    cases spec with
    | suffix n => exact hread
    | span first last => exact hread

end Values

/-! ## Several values -/

/-- The range of the last acceptable value, read into a fresh request. -/
def lastRange (values : List Bytes) : RangeFields :=
  match (values.filter fun v => (parseRangeHeader v .zero).hasRange).getLast? with
  | none => Request.zero.range
  | some value => (parseRangeHeader value .zero).range

/-- The value states the last bytes of the entity. -/
def IsSuffixValue (value : Bytes) : Prop :=
  ∃ n, rangeSpec value = some (.suffix n)

/-- The value states a span of the entity. -/
def IsSpanValue (value : Bytes) : Prop :=
  ∃ first last, rangeSpec value = some (.span first last)

/-- The last acceptable value states a span, and an earlier one a suffix. -/
def SpanAfterSuffix (values : List Bytes) : Prop :=
  (∃ value ∈ (values.filter fun v => (rangeSpec v).isSome).getLast?, IsSpanValue value) ∧
  ∃ value ∈ values, IsSuffixValue value

theorem store_span_eq_iff (first last : ℤ) (a b : RangeFields) :
    (RangeSpec.span first last).store a = (RangeSpec.span first last).store b ↔
      a.rangeSuffix = b.rangeSuffix := by
  simp [RangeSpec.store]

theorem rangeSuffix_foldl_store (specs : List RangeSpec) (fields : RangeFields) :
    (specs.foldl (fun fields spec => spec.store fields) fields).rangeSuffix = true ↔
      fields.rangeSuffix = true ∨ ∃ n, .suffix n ∈ specs := by
  induction specs using List.reverseRecOn with
  | nil => simp
  | append_singleton specs spec ih =>
    rw [foldl_append, foldl_cons, foldl_nil]
    cases spec with
    | suffix n =>
      refine iff_of_true rfl (.inr ⟨n, ?_⟩)
      exact mem_append_right _ mem_cons_self
    | span first last =>
      refine ih.trans (or_congr Iff.rfl (exists_congr fun n => ?_))
      simp

theorem foldl_read (values : List Bytes) (fields : RangeFields) :
    values.foldl RangeFields.read fields = (values.filterMap rangeSpec).foldl
        (fun fields spec => spec.store fields) fields := by
  induction values generalizing fields with
  | nil => rfl
  | cons value values ih =>
    rw [foldl_cons, ih, RangeFields.read, filterMap_cons]
    cases rangeSpec value with
    | none => rfl
    | some spec => rfl

theorem getLast?_filterMap_rangeSpec (values : List Bytes) :
    (values.filterMap rangeSpec).getLast? =
      (values.filter fun v => (rangeSpec v).isSome).getLast?.bind rangeSpec := by
  induction values using List.reverseRecOn with
  | nil => rfl
  | append_singleton values value ih =>
    rw [filterMap_append, filter_append]
    cases hspec : rangeSpec value with
    | none => simpa [hspec] using ih
    | some spec => simp [hspec]

theorem lastRange_eq (values : List Bytes) :
    lastRange values =
      match (values.filterMap rangeSpec).getLast? with
      | none => Request.zero.range
      | some spec => spec.store Request.zero.range := by
  rw [getLast?_filterMap_rangeSpec, lastRange]
  simp only [hasRange_parseRangeHeader_zero]
  cases hlast : (values.filter fun v => (rangeSpec v).isSome).getLast? with
  | none => rfl
  | some value =>
    have hvalue := of_mem_filter (mem_of_getLast? hlast)
    obtain ⟨spec, hspec⟩ := isSome_iff_exists.mp hvalue
    simp only [range_parseRangeHeader, RangeFields.read, bind_some, hspec]

theorem spanAfterSuffix_iff (values : List Bytes) :
    SpanAfterSuffix values ↔ (∃ first last, (values.filterMap rangeSpec).getLast? =
        some (.span first last)) ∧ ∃ n, .suffix n ∈ values.filterMap rangeSpec := by
  refine and_congr ?_ ?_
  · rw [getLast?_filterMap_rangeSpec]
    simp only [IsSpanValue, bind_eq_some_iff, mem_def]
    constructor
    · rintro ⟨value, hlast, first, last, hspec⟩
      exact ⟨first, last, value, hlast, hspec⟩
    · rintro ⟨first, last, value, hlast, hspec⟩
      exact ⟨value, hlast, first, last, hspec⟩
  · simp only [IsSuffixValue, mem_filterMap]
    constructor
    · rintro ⟨value, hvalue, n, hspec⟩
      exact ⟨n, value, hvalue, hspec⟩
    · rintro ⟨n, value, hvalue, hspec⟩
      exact ⟨value, hvalue, n, hspec⟩

/-- The values leave the range of the last acceptable one, unless that is a span
behind a suffix. -/
theorem foldl_read_eq_lastRange_iff (values : List Bytes) :
    values.foldl RangeFields.read Request.zero.range = lastRange values ↔
      ¬SpanAfterSuffix values := by
  rw [foldl_read, lastRange_eq, spanAfterSuffix_iff]
  generalize values.filterMap rangeSpec = specs
  rcases eq_nil_or_concat' specs with rfl | ⟨front, spec, rfl⟩
  · simp
  · rw [foldl_append, foldl_cons, foldl_nil, List.getLast?_concat]
    cases spec with
    | suffix n => simp [RangeSpec.store]
    | span first last =>
      have hzero : Request.zero.range.rangeSuffix = false := rfl
      rw [store_span_eq_iff, hzero, ← not_eq_true, rangeSuffix_foldl_store]
      simp [hzero]

/-! ## The fields of a head -/

/-- The header fields at the start of a text: the complete lines before an empty
one, those with a colon. -/
def headFields (text : Bytes) : List (Bytes × Bytes) :=
  let lines := (completeLines text).map fun line => cString (stripCr line)
  (lines.takeWhile fun line => line ≠ []).filterMap fun line =>
    (splitByte 58 line).map fun cut => (cut.1, skipBlanks cut.2)

/-- The parser goes on behind the field. -/
def acceptsField (date : Bytes → ℤ) (field : Bytes × Bytes) : Bool :=
  (storeHeaderField date .zero field.1 field.2 false).1 == 0

/-- The fields the parser stores: those of the head, up to one that makes it
give up. -/
def storedFields (date : Bytes → ℤ) (text : Bytes) : List (Bytes × Bytes) :=
  match splitByte 10 text with
  | none => []
  | some (line, rest) =>
    if (parseRequestLine (cString (stripCr line)) .zero).1 ≠ 0 then []
    else (headFields rest).takeWhile (acceptsField date)

/-- The values of the `Range` fields. -/
def rangeValues (fields : List (Bytes × Bytes)) : List Bytes :=
  (fields.filter fun field => strcaseeq field.1 (ascii "Range")).map Prod.snd

theorem rangeValues_cons (field : Bytes × Bytes) (fields : List (Bytes × Bytes)) :
    rangeValues (field :: fields) =
      if strcaseeq field.1 (ascii "Range") then field.2 :: rangeValues fields
      else rangeValues fields := by
  rw [rangeValues, filter_cons]
  split <;> rfl

section Lines

variable {line rest : Bytes}

theorem headFields_blank (hline : 10 ∉ line) (hblank : cString (stripCr line) = []) (rest : Bytes) :
    headFields (line ++ 10 :: rest) = [] := by
  simp [headFields, completeLines_append hline, hblank]

theorem headFields_line (hline : 10 ∉ line) (hfull : cString (stripCr line) ≠ []) (rest : Bytes) :
    headFields (line ++ 10 :: rest) =
      match splitByte 58 (cString (stripCr line)) with
      | none => headFields rest
      | some cut => (cut.1, skipBlanks cut.2) :: headFields rest := by
  simp only [headFields, completeLines_append hline, map_cons]
  rw [takeWhile_cons_of_pos (by simpa using hfull), filterMap_cons]
  cases splitByte 58 (cString (stripCr line)) with
  | none => rfl
  | some cut => rfl

end Lines

section Stored

variable {date : Bytes → ℤ} {mallocOk : Bool}

/-- Whether the parser goes on depends on the field alone. -/
theorem storeHeaderField_eq_zero_iff (date : Bytes → ℤ) (request : Request)
    (name value : Bytes) (saw : Bool) :
    (storeHeaderField date request name value saw).1 = 0 ↔
      acceptsField date (name, value) = true := by
  rw [acceptsField, beq_iff_eq]
  cases hlength : strcaseeq name (ascii "Content-Length") with
  | true =>
    have hconnection : strcaseeq name (ascii "Connection") = false := by
      rw [strcaseeq_congr hlength]
      decide
    simp only [storeHeaderField, hconnection, hlength]
    cases httpParseContentLength value with
    | none => simp
    | some n => simp
  | false =>
    cases hcoding : strcaseeq name (ascii "Transfer-Encoding") with
    | true =>
      have hconnection : strcaseeq name (ascii "Connection") = false := by
        rw [strcaseeq_congr hcoding]
        decide
      simp only [storeHeaderField, hconnection, hlength, hcoding]
      cases isChunkedCoding value with
      | true => simp
      | false => simp
    | false =>
      refine iff_of_true ?_ ?_
      · exact (storeHeaderField_other hlength hcoding date request value saw).1
      · exact (storeHeaderField_other hlength hcoding date .zero value false).1

theorem range_addHeader (request : Request) (name value : Bytes) :
    (addHeader request name value).range = request.range := by
  rw [addHeader]
  split <;> rfl

variable {name : Bytes}

theorem range_storeHeaderField_range
    (hname : strcaseeq name (ascii "Range") = true) (date : Bytes → ℤ)
    (request : Request) (value : Bytes) (saw : Bool) :
    (storeHeaderField date request name value saw).2.1.range = request.range.read value := by
  have hother : ∀ text, strcaseeq (ascii "Range") text = false → strcaseeq name text = false :=
    fun text h => (strcaseeq_congr hname text).trans h
  simp only [storeHeaderField, hname, hother (ascii "Connection") (by decide),
    hother (ascii "Content-Length") (by decide), hother (ascii "Transfer-Encoding") (by decide),
    hother (ascii "If-None-Match") (by decide), hother (ascii "If-Modified-Since") (by decide),
    hother (ascii "If-Range") (by decide), false_eq_true, if_false, if_true]
  rw [range_parseRangeHeader, range_addHeader]

/-- A header field that leaves the range alone. -/
def KeepsRange (request : Request) (r : ℤ × Request × Bool) : Prop :=
  r.2.1.range = request.range

theorem keepsRange_storeHeaderField
    (hname : strcaseeq name (ascii "Range") = false) (date : Bytes → ℤ)
    (request : Request) (value : Bytes) (saw : Bool) :
    KeepsRange request (storeHeaderField date request name value saw) := by
  have hkeep : ∀ (rc : ℤ) (request' : Request) (saw' : Bool), request'.range = request.range →
      KeepsRange request (rc, request', saw') := fun _ _ _ h => h
  have hadd := range_addHeader request name value
  rw [storeHeaderField, hname]
  refine iteInduction (fun _ => ?_) fun _ => iteInduction (fun _ => ?_) fun _ =>
    iteInduction (fun _ => ?_) fun _ => ?_
  · exact iteInduction (fun _ => hkeep _ _ _ hadd) fun _ =>
      iteInduction (fun _ => hkeep _ _ _ hadd) fun _ => hkeep _ _ _ hadd
  · cases httpParseContentLength value with
    | none => exact hadd
    | some n => exact hadd
  · exact iteInduction (fun _ => hkeep _ _ _ hadd) fun _ => hkeep _ _ _ hadd
  · refine iteInduction (fun _ => hkeep _ _ _ hadd) fun _ =>
      iteInduction (fun _ => hkeep _ _ _ hadd) fun _ =>
      iteInduction (fun _ => hkeep _ _ _ hadd) fun _ => ?_
    rw [if_neg Bool.false_ne_true]
    exact iteInduction (fun _ => hkeep _ _ _ hadd) fun _ =>
      iteInduction (fun _ => hkeep _ _ _ hadd) fun _ =>
      iteInduction (fun _ => hkeep _ _ _ hadd) fun _ =>
      iteInduction (fun _ => hkeep _ _ _ hadd) fun _ => hkeep _ _ _ hadd

theorem acceptsField_range (hname : strcaseeq name (ascii "Range") = true) (value : Bytes) :
    acceptsField date (name, value) = true := by
  have hlength : strcaseeq name (ascii "Content-Length") = false := by
    rw [strcaseeq_congr hname]
    decide
  have hcoding : strcaseeq name (ascii "Transfer-Encoding") = false := by
    rw [strcaseeq_congr hname]
    decide
  rw [← storeHeaderField_eq_zero_iff date .zero name value false]
  exact (storeHeaderField_other hlength hcoding date .zero value false).1

theorem range_parseRequestLine (line : Bytes) (request : Request) :
    (parseRequestLine line request).2.range = request.range := by
  rw [parseRequestLine]
  split
  · rfl
  · split
    · rfl
    · split
      · rfl
      · simp only
        split <;> rfl

theorem range_parseRequestBody (request : Request) (body : Bytes) :
    (parseRequestBody mallocOk request body).2.range = request.range := by
  rw [parseRequestBody]
  split
  · split
    · rfl
    · simp only
      split <;> rfl
  · simp only
    split
    · rfl
    · split <;> rfl

theorem range_readBody (request : Request) (saw : Bool) (rest : Bytes) :
    (readBody mallocOk request saw rest).request.range = request.range := by
  rw [readBody]
  split
  · rfl
  · split
    · exact range_parseRequestBody request rest
    · rfl

theorem range_storeHeaderField (date : Bytes → ℤ) (request : Request)
    (field : Bytes × Bytes) (fields : List (Bytes × Bytes)) (saw : Bool) :
    (rangeValues (field :: fields)).foldl RangeFields.read request.range =
      (rangeValues fields).foldl RangeFields.read
        (storeHeaderField date request field.1 field.2 saw).2.1.range := by
  rw [rangeValues_cons]
  cases hname : strcaseeq field.1 (ascii "Range") with
  | true => rw [if_pos rfl, foldl_cons, range_storeHeaderField_range hname]
  | false =>
    rw [if_neg Bool.false_ne_true, keepsRange_storeHeaderField hname date request field.2 saw]

/-- The fields of a head leave the fold of their values in the record. -/
theorem range_readFields (text : Bytes) (request : Request) (saw : Bool)
    {fuel : ℕ} (hfuel : text.length < fuel) :
    (readFields date mallocOk fuel request saw text).request.range =
      (rangeValues ((headFields text).takeWhile (acceptsField date))).foldl
        RangeFields.read request.range := by
  induction fuel generalizing text request saw with
  | zero => exact absurd hfuel (Nat.not_lt_zero _)
  | succ fuel ih =>
    rw [readFields]
    cases hsplit : splitByte 10 text with
    | none =>
      have hopen := splitByte_eq_none_iff.mp hsplit
      rw [headFields, completeLines_of_notMem hopen]
      rfl
    | some cut =>
      obtain ⟨line, rest⟩ := cut
      obtain ⟨rfl, hline⟩ := eq_of_splitByte hsplit
      rw [length_append, length_cons] at hfuel
      have hrest : rest.length < fuel := by omega
      simp only
      by_cases hblank : cString (stripCr line) = []
      · rw [if_pos hblank, range_readBody, headFields_blank hline hblank]
        rfl
      · rw [if_neg hblank, headFields_line hline hblank, readField]
        cases hcolon : splitByte 58 (cString (stripCr line)) with
        | none => exact ih rest request saw hrest
        | some parts =>
          obtain ⟨name, value⟩ := parts
          simp only
          have hzero := storeHeaderField_eq_zero_iff date request name (skipBlanks value) saw
          by_cases haccept :
              acceptsField date (name, skipBlanks value) = true
          · rw [if_neg (not_not.mpr (hzero.mpr haccept)),
              ih rest _ _ hrest, takeWhile_cons_of_pos haccept,
              range_storeHeaderField date request _ _ saw]
          · have hname : strcaseeq name (ascii "Range") = false := eq_false_iff.mpr fun h =>
                haccept (acceptsField_range h (skipBlanks value))
            rw [if_pos (fun h => haccept (hzero.mp h)), takeWhile_cons_of_neg haccept]
            exact keepsRange_storeHeaderField hname date request _ saw

/-- The range of a request is that of its last acceptable `Range` field, read
alone, unless that is a span and an earlier one a suffix. -/
theorem effective_range_iff (date : Bytes → ℤ) (mallocOk : Bool)
    (request : Request) (window tail : Bytes) :
    (parseHttpRequest date mallocOk request (window ++ tail)
        window.length).request.range =
        lastRange (rangeValues (storedFields date window)) ↔
      ¬SpanAfterSuffix (rangeValues (storedFields date window)) := by
  obtain ⟨mid, -, hparse⟩ := exists_parseHttpRequest_eq date mallocOk request window tail
  rw [hparse, ← foldl_read_eq_lastRange_iff]
  have hrange : (readRequest date mallocOk window).request.range =
      (rangeValues (storedFields date window)).foldl RangeFields.read
        Request.zero.range := by
    rw [readRequest, storedFields]
    cases hsplit : splitByte 10 window with
    | none => rfl
    | some cut =>
      obtain ⟨line, rest⟩ := cut
      obtain ⟨rfl, -⟩ := eq_of_splitByte hsplit
      simp only
      split
      · exact range_parseRequestLine _ _
      · rw [range_readFields _ _ _ (by simp; omega), range_parseRequestLine]
  rw [hrange]

/-- A head with a suffix range and then a span. -/
def twoRanges : Bytes :=
  ascii "GET / HTTP/1.1\r\nRange: bytes=-5\r\nRange: bytes=0-3\r\n\r\n"

/-- The span 0 to 3 is kept with the mark of a suffix, so it is read as the last
zero bytes. -/
theorem effective_range_mixed :
    let parsed := parseHttpRequest (fun _ => -1) true .zero twoRanges
      twoRanges.length
    let values := rangeValues (storedFields (fun _ => -1) twoRanges)
    parsed.rc = 0 ∧ values = [ascii "bytes=-5", ascii "bytes=0-3"] ∧
      parsed.request.range = ⟨true, true, 0, 3⟩ ∧
      lastRange values = ⟨true, false, 0, 3⟩ := by
  decide +kernel

end Stored

end Codo.Common
