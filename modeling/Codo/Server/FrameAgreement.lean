import Codo.Server.Framing

/-!
# The framer and the parser

`check_request_frame` and `parse_http_request` walk the same header block with
different code.  On the field lines they agree.  They differ in two ways.

* The framer walks the request line as if it were a field line.  A request line
  that reads `Transfer-Encoding: chunked` makes it take the body as chunked,
  while the parser splits that line into a method, a path and a version.
* The framer adds the length of the body to that of the header block in
  `size_t`.  When the sum wraps, the parser is given an end inside the header
  block and accepts without having seen the blank line.
-/

namespace Codo.Server

open Support Common List Option

/-! ## One line -/

/-- The line announces a chunked body. -/
def saysChunked (line : Bytes) : Bool :=
  match lineKind line with
  | .ok .chunked => true
  | _ => false

/-- The parser has read what the framer has noted, the coding apart. -/
structure Tracks (st : Framing) (request : Request) (saw : Bool) : Prop where
  contentLength : request.contentLength = st.contentLength
  saw : saw = st.sawContentLength
  body : request.body = none

variable {date : Bytes → ℤ} {st : Framing} {request : Request} {saw : Bool}

section Lines

variable {line tmp value : Bytes} {kind : LineKind}

section

variable (h : copyHeaderValue value = some tmp)
include h

theorem copyHeaderValue_eq_some : tmp = trimBlanks (skipBlanks value) := by
  rw [copyHeaderValue] at h
  split at h
  next => cases h
  next => exact (some.inj h).symm

theorem length_copyHeaderValue : tmp.length < 32 := by
  rw [copyHeaderValue] at h
  split at h
  next => cases h
  next hshort =>
    rw [← some.inj h]
    exact not_le.mp hshort

theorem httpParseContentLength_copy :
    httpParseContentLength (skipBlanks value) = httpParseContentLength tmp := by
  obtain ⟨blanks, hsplit, hblanks⟩ := exists_trimBlanks (skipBlanks value)
  rw [copyHeaderValue_eq_some h]
  nth_rewrite 1 [hsplit]
  exact httpParseContentLength_append hblanks

theorem isChunkedCoding_copy (hchunked : strcaseeq tmp (ascii "chunked") = true) :
    isChunkedCoding (skipBlanks value) = true := by
  obtain ⟨blanks, hsplit, -⟩ := exists_trimBlanks (skipBlanks value)
  rw [copyHeaderValue_eq_some h] at hchunked
  have hlen : (trimBlanks (skipBlanks value)).length = 7 := length_of_strcaseeq hchunked
  rw [isChunkedCoding, Bool.and_eq_true, beq_iff_eq]
  refine ⟨hlen, ?_⟩
  have hword : (ascii "chunked").length = 7 := rfl
  rw [hsplit, strncaseeq_append hword _ hlen]
  exact hchunked

end

theorem saysChunked_of_lineKind (h : lineKind line = .ok kind) :
    saysChunked line = (kind == .chunked) := by
  rw [saysChunked, h]
  cases kind with
  | contentLength n => rfl
  | chunked => rfl
  | expect100 => rfl
  | other => rfl

variable (date) in
/-- The parser stores a line the framer accepts, to the same effect. -/
theorem Tracks.readField (h : Tracks st request saw) (hkind : lineKind line = .ok kind) :
    let r := readField date request saw (stripCr line)
    r.1 = 0 ∧ Tracks (st.note kind) r.2.1 r.2.2 ∧
      r.2.1.chunked = (request.chunked || saysChunked line) := by
  rw [saysChunked_of_lineKind hkind]
  rcases lineKind_cases hkind with ⟨hcolon, rfl⟩ | ⟨name, value, hcolon, hfield⟩
  · simp only [Common.readField, hcolon]
    exact ⟨trivial, h, (Bool.or_false _).symm⟩
  · simp only [Common.readField, hcolon]
    have hadd := bodyFields_addHeader request name (skipBlanks value)
    simp only [bodyFields, Prod.mk.injEq] at hadd
    rcases hfield with ⟨hname, tmp, n, hcopy, hparse, rfl⟩ |
      ⟨hname, tmp, hcopy, hcoding, rfl⟩ | ⟨hlength, hcoding, hother⟩
    · rw [← httpParseContentLength_copy hcopy] at hparse
      rw [storeHeaderField_contentLength hname hparse]
      refine ⟨rfl, ⟨rfl, rfl, hadd.2.2.trans h.body⟩, ?_⟩
      exact hadd.2.1.trans (Bool.or_false _).symm
    · rw [storeHeaderField_chunked hname (isChunkedCoding_copy hcopy hcoding)]
      refine ⟨rfl, ⟨hadd.1.trans h.contentLength, h.saw, hadd.2.2.trans h.body⟩, ?_⟩
      exact (Bool.or_true _).symm
    · obtain ⟨hrc, hkeep, hsaw⟩ := storeHeaderField_other hlength hcoding
        date request (skipBlanks value) saw
      simp only [bodyFields, Prod.mk.injEq] at hkeep
      rcases hother with rfl | rfl
      all_goals exact ⟨hrc, ⟨hkeep.1.trans h.contentLength, hsaw.trans h.saw,
          hkeep.2.2.trans h.body⟩, hkeep.2.1.trans (Bool.or_false _).symm⟩

end Lines

/-! ## The field lines -/

/-- The lines announce a chunked body. -/
def anyChunked (lines : List Bytes) : Bool :=
  lines.any saysChunked

/-- The length the lines give, which is that of the last one. -/
def declaredLength (lines : List Bytes) : ℕ :=
  lines.foldl (fun n line =>
    match lineKind line with
    | .ok (.contentLength m) => m
    | _ => n) 0

variable {mallocOk : Bool} {fields : List Bytes}

section Fields

variable {lines : List Bytes} {block : Bytes} {st' : Framing}

theorem note_chunked (st : Framing) (kind : LineKind) :
    (st.note kind).chunked = (st.chunked || kind == .chunked) := by
  cases kind with
  | contentLength n => exact (Bool.or_false _).symm
  | chunked => exact (Bool.or_true _).symm
  | expect100 => exact (Bool.or_false _).symm
  | other => exact (Bool.or_false _).symm

theorem foldlM_frameLine_chunked (h : lines.foldlM frameLine st = .ok st') :
    st'.chunked = (st.chunked || anyChunked lines) := by
  induction lines generalizing st with
  | nil =>
    cases h
    exact (Bool.or_false _).symm
  | cons line lines ih =>
    obtain ⟨kind, hkind, hrest⟩ := foldlM_frameLine_cons.mp h
    rw [ih hrest, anyChunked, anyChunked, any_cons,
      saysChunked_of_lineKind hkind, ← Bool.or_assoc, note_chunked]

theorem foldlM_frameLine_contentLength (h : lines.foldlM frameLine st = .ok st') :
    st'.contentLength = lines.foldl (fun n line =>
      match lineKind line with
      | .ok (.contentLength m) => m
      | _ => n) st.contentLength := by
  induction lines generalizing st with
  | nil =>
    cases h
    rfl
  | cons line lines ih =>
    obtain ⟨kind, hkind, hrest⟩ := foldlM_frameLine_cons.mp h
    rw [ih hrest, foldl_cons, hkind]
    cases kind with
    | contentLength n => rfl
    | chunked => rfl
    | expect100 => rfl
    | other => rfl

theorem foldlM_frameLine_length_unseen (hst : st.sawContentLength = false → st.contentLength = 0)
    (h : lines.foldlM frameLine st = .ok st')
    (hunseen : st'.sawContentLength = false) : st'.contentLength = 0 := by
  induction lines generalizing st with
  | nil =>
    cases h
    exact hst hunseen
  | cons line lines ih =>
    obtain ⟨kind, -, hrest⟩ := foldlM_frameLine_cons.mp h
    refine ih ?_ hrest
    cases kind with
    | contentLength n =>
      intro hsaw
      cases hsaw
    | chunked => exact hst
    | expect100 => exact hst
    | other => exact hst

theorem notMem_of_block_line {line rest : Bytes} (h : 0 ∉ line ++ 10 :: rest) :
    0 ∉ stripCr line ∧ 0 ∉ rest := by
  simp only [mem_append, mem_cons, not_or] at h
  refine ⟨fun hmem => h.1 ?_, h.2.2⟩
  rw [stripCr] at hmem
  split at hmem
  · exact mem_of_mem_dropLast hmem
  · exact hmem

variable (date mallocOk) in
/-- The parser reads the field lines the framer has walked, up to the blank
line. -/
theorem Tracks.readFields_append (hblock : LineBlock fields block)
    (hnul : 0 ∉ block) (h : Tracks st request saw)
    (hwalk : fields.foldlM frameLine st = .ok st') (body : Bytes) {fuel : ℕ}
    (hfuel : block.length < fuel) :
    ∃ request', Tracks st' request' st'.sawContentLength ∧
      request'.chunked = (request.chunked || anyChunked fields) ∧
      readFields date mallocOk fuel request saw (block ++ body) =
        readBody mallocOk request' st'.sawContentLength body := by
  induction hblock generalizing st request saw fuel with
  | @blank line hline hblank =>
    cases hwalk
    obtain ⟨fuel, rfl⟩ := Nat.exists_eq_add_one_of_ne_zero (Nat.ne_zero_of_lt hfuel)
    refine ⟨request, ⟨h.contentLength, rfl, h.body⟩, (Bool.or_false _).symm, ?_⟩
    rw [append_assoc, singleton_append, readFields, splitByte_append hline]
    have hempty : cString (stripCr line) = [] := by rw [hblank]; rfl
    simp only [hempty, if_true]
    rw [h.saw]
  | @line line rest lines hline hfull _ ih =>
    obtain ⟨fuel, rfl⟩ := Nat.exists_eq_add_one_of_ne_zero (Nat.ne_zero_of_lt hfuel)
    obtain ⟨hline0, hrest0⟩ := notMem_of_block_line hnul
    obtain ⟨kind, hkind, hrest⟩ := foldlM_frameLine_cons.mp hwalk
    obtain ⟨hrc, htracks, hchunked⟩ := h.readField date hkind
    have hrestFuel : rest.length < fuel := by
      rw [length_append, length_cons] at hfuel
      omega
    obtain ⟨request', htracks', hchunked', hread⟩ := ih hrest0 htracks hrest hrestFuel
    refine ⟨request', htracks', ?_, ?_⟩
    · rw [hchunked', hchunked, anyChunked, anyChunked, any_cons, Bool.or_assoc]
    · rw [append_assoc, cons_append, readFields, splitByte_append hline]
      simp only [cString_of_notMem hline0]
      rw [if_neg hfull, if_neg (not_not.mpr hrc)]
      exact hread

variable (date mallocOk) in
/-- Before the blank line it accepts what it has. -/
theorem Tracks.readFields_proper (hblock : LineBlock fields block)
    (hnul : 0 ∉ block) (h : Tracks st request saw)
    (hwalk : fields.foldlM frameLine st = .ok st') {p : Bytes}
    (hp : p <+: block) (hne : p ≠ block) (fuel : ℕ) :
    (readFields date mallocOk fuel request saw p).rc = 0 ∧
      (readFields date mallocOk fuel request saw p).rest = none := by
  induction hblock generalizing st request saw fuel p with
  | @blank line hline hblank =>
    cases fuel with
    | zero => exact ⟨rfl, rfl⟩
    | succ fuel =>
      rcases properPrefix_line hline hp hne with hopen | ⟨q, -, hq, hnil⟩
      · rw [readFields, splitByte_eq_none_iff.mpr hopen]
        exact ⟨rfl, rfl⟩
      · exact absurd (prefix_nil.mp hq) hnil
  | @line line rest lines hline hfull _ ih =>
    cases fuel with
    | zero => exact ⟨rfl, rfl⟩
    | succ fuel =>
      obtain ⟨hline0, hrest0⟩ := notMem_of_block_line hnul
      obtain ⟨kind, hkind, hrest⟩ := foldlM_frameLine_cons.mp hwalk
      obtain ⟨hrc, htracks, -⟩ := h.readField date hkind
      rcases properPrefix_line hline hp hne with hopen | ⟨q, rfl, hq, hneq⟩
      · rw [readFields, splitByte_eq_none_iff.mpr hopen]
        exact ⟨rfl, rfl⟩
      · rw [readFields, splitByte_append hline]
        simp only [cString_of_notMem hline0]
        rw [if_neg hfull, if_neg (not_not.mpr hrc)]
        exact ih hrest0 htracks hrest hq hneq fuel

end Fields

/-! ## The request line -/

variable {first : Bytes}

theorem notSpace_of_strcaseeq {name text : Bytes} (h : strcaseeq name text = true)
    (htext : ∀ b ∈ text.map toLower, isSpace b = false) : ∀ b ∈ name, isSpace b = false := by
  intro b hb
  have hlower := htext (toLower b) (by
    rw [← strcaseeq_iff.mp h]
    exact mem_map_of_mem hb)
  by_contra hspace
  rw [Bool.not_eq_false] at hspace
  have hsame : toLower b = b := by
    rw [toLower, if_neg]
    rintro ⟨hlow, hhigh⟩
    rw [isSpace, Bool.or_eq_true, beq_iff_eq, Bool.and_eq_true,
      decide_eq_true_iff, decide_eq_true_iff] at hspace
    rcases hspace with rfl | hle
    · exact absurd hlow (by decide)
    · exact absurd (hlow.trans hle.2) (by decide)
  rw [hsame, hspace] at hlower
  cases hlower

/-- A request line that reads as a `Content-Length` field has two words. -/
theorem requestWords_of_contentLength {n : ℕ} (h : lineKind first = .ok (.contentLength n)) :
    requestWords (stripCr first) = none := by
  rcases lineKind_cases h with ⟨-, hkind⟩ | ⟨name, value, hcolon, hfield⟩
  · cases hkind
  rcases hfield with ⟨hname, tmp, m, hcopy, hparse, -⟩ | ⟨-, _, -, -, hkind⟩ | ⟨-, -, hkind | hkind⟩
  · have hfirst : scanWord 15 (stripCr first) = some (name ++ [58], value) := by
      have hline : stripCr first = (name ++ [58]) ++ value := by
        rw [(eq_of_splitByte hcolon).1, append_assoc, singleton_append]
      have hword : ∀ b ∈ name ++ [58], isSpace b = false := by
        intro b hb
        rcases mem_append.mp hb with hb | hb
        · exact notSpace_of_strcaseeq hname (forall_mem_of_all (by decide)) b hb
        · rw [mem_singleton.mp hb]
          rfl
      have hlen : (name ++ [58]).length = 15 := by
        rw [length_append, length_of_strcaseeq hname]
        rfl
      rw [hline]
      exact scanWord_append hword (by simp) hlen.le value (.inl hlen)
    have hsecond : ∃ digits trail, scanWord 2047 value = some (digits, trail) ∧
        ∀ b ∈ trail, isSpace b = true := by
      obtain ⟨blanks, hsplit, hblanks⟩ := exists_trimBlanks (skipBlanks value)
      obtain ⟨lead, digits, trail, hshape, hlead, hdigits, hne, htrail⟩ :=
        httpParseContentLength_shape hparse
      have hall : ∀ b ∈ trail ++ blanks, isSpace b = true := by
        intro b hb
        rcases mem_append.mp hb with hb | hb
        · exact isSpace_of_isBlank (htrail b hb)
        · exact isSpace_of_isBlank (hblanks b hb)
      have hvalue : value = (value.takeWhile isBlank ++ lead) ++ (digits ++ (trail ++ blanks)) := by
        rw [← copyHeaderValue_eq_some hcopy, hshape] at hsplit
        have hskip := takeWhile_append_dropWhile (p := isBlank) (l := value)
        rw [skipBlanks] at hsplit
        rw [hsplit] at hskip
        simpa using hskip.symm
      have hfront : ∀ b ∈ value.takeWhile isBlank ++ lead, isSpace b = true := by
        intro b hb
        rcases mem_append.mp hb with hb | hb
        · exact isSpace_of_isBlank (mem_takeWhile_imp hb)
        · exact isSpace_of_isBlank (hlead b hb)
      have hlen : digits.length ≤ 2047 := by
        have hshort := length_copyHeaderValue hcopy
        rw [hshape, length_append, length_append] at hshort
        omega
      refine ⟨digits, trail ++ blanks, ?_, hall⟩
      rw [hvalue, scanWord_spaces hfront]
      exact scanWord_append (fun b hb => isSpace_of_isDigit (hdigits b hb)) hne
        hlen _ (.inr fun b hb => hall b (mem_of_mem_head? hb))
    obtain ⟨digits, trail, hscan, htrail⟩ := hsecond
    rw [requestWords, hfirst]
    simp only [hscan]
    rw [scanWord_eq_none htrail]
  · cases hkind
  · cases hkind
  · cases hkind

/-! ## The reader on a header block -/

variable {head : Bytes}

section Heads

variable {window : Bytes}

variable (date mallocOk) in
theorem readRequest_rc_of_no_words (hfirst : 10 ∉ first) {rest : Bytes}
    (hwindow : window <+: first ++ 10 :: rest) (hnul : 0 ∉ stripCr first)
    (hwords : requestWords (stripCr first) = none) : (readRequest date mallocOk window).rc ≠ 0 := by
  rw [readRequest]
  cases hsplit : splitByte 10 window with
  | none => exact (by decide : (-1 : ℤ) ≠ 0)
  | some cut =>
    obtain ⟨line, tail⟩ := cut
    obtain ⟨rfl, hline⟩ := eq_of_splitByte hsplit
    obtain ⟨more, hmore⟩ := hwindow
    have hsame : line = first := by
      have hcut := splitByte_append hfirst rest
      rw [← hmore, append_assoc, cons_append, splitByte_append hline] at hcut
      exact (Prod.mk.inj (some.inj hcut)).1
    have hrc : (parseRequestLine (stripCr first) .zero).1 ≠ 0 := by
      rw [Ne, parseRequestLine_eq_zero_iff, hwords]
      exact Bool.false_ne_true
    simp only [hsame, cString_of_notMem hnul, if_pos hrc]
    decide

theorem HeadOk.tracks (h : HeadOk first fields head st)
    (hwords : (requestWords (stripCr first)).isSome) :
    ∃ kind, fields.foldlM frameLine (Framing.start.note kind) = .ok st ∧
      (Framing.start.note kind).chunked = saysChunked first ∧
      (Framing.start.note kind).contentLength = 0 ∧ Tracks (Framing.start.note kind)
        (parseRequestLine (stripCr first) .zero).2 false ∧
      (parseRequestLine (stripCr first) .zero).2.chunked = false := by
  obtain ⟨kind, hkind, hrest⟩ := foldlM_frameLine_cons.mp h.walk
  have hline := bodyFields_parseRequestLine (stripCr first) .zero
  simp only [bodyFields, Prod.mk.injEq] at hline
  obtain ⟨hlength, hchunked, hbody⟩ := hline
  have hsays : (Framing.start.note kind).chunked = saysChunked first := by
    rw [note_chunked, saysChunked_of_lineKind hkind]
    rfl
  refine ⟨kind, hrest, hsays, ?_⟩
  cases kind with
  | contentLength n =>
    rw [requestWords_of_contentLength hkind] at hwords
    cases hwords
  | chunked => exact ⟨rfl, ⟨hlength, rfl, hbody⟩, hchunked⟩
  | expect100 => exact ⟨rfl, ⟨hlength, rfl, hbody⟩, hchunked⟩
  | other => exact ⟨rfl, ⟨hlength, rfl, hbody⟩, hchunked⟩

theorem IsHead.notMem_first (h : IsHead first fields head) (hnul : 0 ∉ head) :
    0 ∉ stripCr first := by
  obtain ⟨-, block, -, rfl⟩ := h
  exact (notMem_of_block_line hnul).1

variable (date mallocOk) in
/-- Beyond the header block the parser is left with the body. -/
theorem HeadOk.readRequest_append (h : HeadOk first fields head st)
    (hwords : (requestWords (stripCr first)).isSome) (body : Bytes) :
    ∃ request, request.contentLength = st.contentLength ∧
      request.body = none ∧ request.chunked = anyChunked fields ∧
      readRequest date mallocOk (head ++ body) =
        readBody mallocOk request st.sawContentLength body := by
  obtain ⟨kind, hwalk, -, -, htracks, hchunked⟩ := h.tracks hwords
  obtain ⟨⟨hfirst, block, hblock, rfl⟩, hnul, -⟩ := h
  obtain ⟨hfirst0, hblock0⟩ := notMem_of_block_line hnul
  have hfuel : block.length < ((first ++ 10 :: block) ++ body).length + 1 := by
    simp only [length_append, length_cons]
    omega
  obtain ⟨request, htracks', hchunked', hread⟩ := htracks.readFields_append
    date mallocOk hblock hblock0 hwalk body hfuel
  refine ⟨request, htracks'.contentLength, htracks'.body, ?_, ?_⟩
  · rw [hchunked', hchunked, Bool.false_or]
  · have hrc := (parseRequestLine_eq_zero_iff (stripCr first) .zero).mpr hwords
    rw [readRequest, append_assoc, cons_append, splitByte_append hfirst]
    simp only [cString_of_notMem hfirst0, hrc, ne_eq, not_true_eq_false, if_false]
    rw [← cons_append, ← append_assoc]
    exact hread

variable (date mallocOk) in
/-- Inside the header block it accepts once it has seen the request line. -/
theorem HeadOk.readRequest_proper (h : HeadOk first fields head st)
    (hwords : (requestWords (stripCr first)).isSome)
    (hwindow : window <+: head) (hne : window ≠ head) :
    ((readRequest date mallocOk window).rc = 0 ↔
      first.length + 1 ≤ window.length) ∧
    (readRequest date mallocOk window).rest = none := by
  obtain ⟨kind, hwalk, -, -, htracks, -⟩ := h.tracks hwords
  obtain ⟨⟨hfirst, block, hblock, rfl⟩, hnul, -⟩ := h
  obtain ⟨hfirst0, hblock0⟩ := notMem_of_block_line hnul
  rcases properPrefix_line hfirst hwindow hne with hopen | ⟨q, rfl, hq, hneq⟩
  · have hshort : ¬first.length + 1 ≤ window.length := by
      intro hlong
      have hcover := prefix_of_prefix_length_le
        (⟨block, by simp⟩ : first ++ [10] <+: first ++ 10 :: block) hwindow (by simpa using hlong)
      exact hopen (hcover.subset (by simp))
    rw [readRequest, splitByte_eq_none_iff.mpr hopen]
    exact ⟨⟨fun hrc => absurd hrc (by decide : (-1 : ℤ) ≠ 0),
      fun hlong => absurd hlong hshort⟩, rfl⟩
  · have hrc := (parseRequestLine_eq_zero_iff (stripCr first) .zero).mpr hwords
    have hfields := htracks.readFields_proper date mallocOk hblock hblock0 hwalk hq hneq
      ((first ++ 10 :: q).length + 1)
    rw [readRequest, splitByte_append hfirst]
    simp only [cString_of_notMem hfirst0, hrc, ne_eq, not_true_eq_false, if_false]
    refine ⟨⟨fun _ => ?_, fun _ => hfields.1⟩, hfields.2⟩
    simp only [length_append, length_cons]
    omega

end Heads

/-! ## Agreement -/

/-- The parser has found the framer's header block and has taken its decision
about the body. -/
def AcceptsAs (buf : Bytes) (requestLen : ℕ) (p : Parsed) : Prop :=
  ∃ headerLen st, frameHead buf = some (.ok (headerLen, st)) ∧
    p.bodyAt = some headerLen ∧ p.request.chunked = st.chunked ∧
    (st.chunked = true → ∃ body, p.request.body = some body ∧
      httpChunkedDecode ((buf.take requestLen).drop headerLen) =
        ⟨1, body, body.length, requestLen - headerLen⟩) ∧
    (st.chunked = false → p.request.contentLength = st.contentLength ∧
      p.request.body.getD [] = (buf.drop headerLen).take st.contentLength ∧
      (p.request.body.getD []).length = st.contentLength)

/-- The parser rejects the request or accepts it as framed, changes no byte at
or beyond `requestLen`, and does not depend on one. -/
structure Agrees (date : Bytes → ℤ) (mallocOk : Bool) (request : Request)
    (buf : Bytes) (requestLen : ℕ) : Prop where
  verdict : (parseHttpRequest date mallocOk request buf requestLen).rc ≠ 0 ∨
    AcceptsAs buf requestLen (parseHttpRequest date mallocOk request buf requestLen)
  keeps : (parseHttpRequest date mallocOk request buf requestLen).buffer.length = buf.length ∧
    (parseHttpRequest date mallocOk request buf requestLen).buffer.drop
      requestLen = buf.drop requestLen
  reads : ∀ buf', buf'.take requestLen = buf.take requestLen →
    (parseHttpRequest date mallocOk request buf' requestLen).rc =
      (parseHttpRequest date mallocOk request buf requestLen).rc ∧
    (parseHttpRequest date mallocOk request buf' requestLen).request =
      (parseHttpRequest date mallocOk request buf requestLen).request ∧
    (parseHttpRequest date mallocOk request buf' requestLen).bodyAt =
      (parseHttpRequest date mallocOk request buf requestLen).bodyAt

/-- The request line reads as a chunked coding, and no field line does. -/
def CodingInRequestLine (first : Bytes) (fields : List Bytes) : Prop :=
  saysChunked first = true ∧ anyChunked fields = false

/-- The declared length wraps to an end behind the request line. -/
def LengthWraps (first : Bytes) (fields : List Bytes) (head : Bytes) : Prop :=
  anyChunked (first :: fields) = false ∧ 2 ^ 64 ≤ head.length + declaredLength fields ∧
    first.length + 1 ≤ (head.length + declaredLength fields) % 2 ^ 64

/-- The request line has three words, and carries a coding or stands before a
length that wraps. -/
def Diverges (buf : Bytes) : Prop :=
  ∃ first fields head more, IsHead first fields head ∧ buf = head ++ more ∧
    (requestWords (stripCr first)).isSome ∧
    (CodingInRequestLine first fields ∨ LengthWraps first fields head)

section Agreement

variable {buf : Bytes} {requestLen maxBody : ℕ}

/-- What the parser does is what the reader does below the end. -/
theorem agrees_iff (hlen : requestLen ≤ buf.length) :
    Agrees date mallocOk request buf requestLen ↔
      let r := readRequest date mallocOk (buf.take requestLen)
      r.rc ≠ 0 ∨ AcceptsAs buf requestLen
        ⟨r.rc, r.request, [], r.rest.map fun rest => requestLen - rest.length⟩ := by
  have htake : (buf.take requestLen).length = requestLen := length_take_of_le hlen
  obtain ⟨mid, hmid, heq⟩ := exists_parseHttpRequest_eq date mallocOk request
    (buf.take requestLen) (buf.drop requestLen)
  rw [take_append_drop, htake] at heq
  rw [htake] at hmid
  constructor
  · intro h
    have hverdict := h.verdict
    rw [heq] at hverdict
    exact hverdict
  · intro h
    refine ⟨?_, ?_, ?_⟩
    · rw [heq]
      exact h
    · rw [heq]
      constructor
      · rw [length_append, hmid, length_drop]
        omega
      · exact drop_left' hmid
    · intro buf' hsame
      obtain ⟨mid', -, heq'⟩ := exists_parseHttpRequest_eq date mallocOk request
        (buf.take requestLen) (buf'.drop requestLen)
      rw [← hsame, take_append_drop, hsame, htake] at heq'
      rw [heq, heq']
      exact ⟨rfl, rfl, rfl⟩

variable {more : Bytes}

section

variable (h : HeadOk first fields head st)
include h

theorem HeadOk.chunked_eq : st.chunked = anyChunked (first :: fields) := by
  have hchunked := foldlM_frameLine_chunked h.walk
  rwa [show Framing.start.chunked = false from rfl, Bool.false_or] at hchunked

theorem HeadOk.contentLength_eq (hwords : (requestWords (stripCr first)).isSome) :
    st.contentLength = declaredLength fields := by
  obtain ⟨kind, hwalk, -, hzero, -⟩ := h.tracks hwords
  rw [foldlM_frameLine_contentLength hwalk, hzero]
  rfl

theorem HeadOk.agrees_of_no_words (hlen : requestLen ≤ (head ++ more).length)
    (hwords : requestWords (stripCr first) = none) :
    Agrees date mallocOk request (head ++ more) requestLen := by
  rw [Server.agrees_iff hlen]
  left
  have hnul := h.isHead.notMem_first h.noNul
  obtain ⟨hfirst, block, -, rfl⟩ := h.isHead
  have htake : ((first ++ 10 :: block) ++ more).take requestLen <+:
      first ++ 10 :: (block ++ more) := by
    rw [append_assoc, cons_append]
    exact List.take_prefix _ _
  exact readRequest_rc_of_no_words date mallocOk hfirst htake hnul hwords

/-- A chunked request is parsed as framed unless the coding stands in the
request line only. -/
theorem HeadOk.agrees_chunked_iff {body out rest : Bytes}
    (hwords : (requestWords (stripCr first)).isSome)
    (hchunked : st.chunked = true) (hsaw : st.sawContentLength = false) (hbody : Chunks body out) :
    Agrees date mallocOk request (head ++ (body ++ rest))
        (head.length + body.length) ↔ ¬CodingInRequestLine first fields := by
  have htake : (head ++ (body ++ rest)).take (head.length + body.length) = head ++ body := by
    rw [← append_assoc]
    exact take_left' length_append
  have hany := h.chunked_eq
  rw [hchunked, anyChunked, any_cons] at hany
  obtain ⟨found, hlength, hnone, hcoding, hread⟩ := h.readRequest_append date mallocOk hwords body
  rw [Server.agrees_iff (by simp only [length_append]; omega), htake, hread, hsaw, readBody,
    if_neg (by simp), if_pos hbody.ne_nil]
  have hdecode := hbody.decode_append []
  rw [append_nil] at hdecode
  cases hfields : anyChunked fields with
  | true =>
    have hnot : ¬CodingInRequestLine first fields := by
      rintro ⟨-, hno⟩
      rw [hfields] at hno
      cases hno
    refine iff_of_true ?_ hnot
    rw [hfields] at hcoding
    rw [parseRequestBody_chunked hcoding hdecode]
    cases mallocOk with
    | false => exact .inl (by decide : (-2 : ℤ) ≠ 0)
    | true =>
      right
      refine ⟨head.length, st, h.frameHead _, ?_, ?_, ?_, ?_⟩
      · simp
      · exact hcoding.trans hchunked.symm
      · intro _
        refine ⟨out, rfl, ?_⟩
        rw [htake, drop_left, hdecode, Nat.add_sub_cancel_left]
      · intro hnot
        rw [hchunked] at hnot
        cases hnot
  | false =>
    have hline : CodingInRequestLine first fields := by
      refine ⟨?_, hfields⟩
      rw [anyChunked] at hfields
      rw [hfields, Bool.or_false] at hany
      exact hany.symm
    refine iff_of_false ?_ (not_not.mpr hline)
    have hzero : st.contentLength = 0 := foldlM_frameLine_length_unseen (fun _ => rfl) h.walk hsaw
    rw [hfields] at hcoding
    rw [hzero] at hlength
    simp only [parseRequestBody, hcoding, hlength, take_zero, Bool.false_eq_true, if_false, if_true]
    rintro (hrc | ⟨headerLen, st', hframe, -, hsame, -⟩)
    · exact hrc rfl
    · rw [h.frameHead] at hframe
      cases hframe
      rw [hcoding, hchunked] at hsame
      cases hsame

/-- A request with a length is parsed as framed unless the length wraps. -/
theorem HeadOk.agrees_sized_iff (hwords : (requestWords (stripCr first)).isSome)
    (hchunked : st.chunked = false) (hlen : requestLen ≤ (head ++ more).length)
    (hwrap : requestLen = (head.length + st.contentLength) % 2 ^ 64) :
    Agrees date mallocOk request (head ++ more) requestLen ↔ ¬LengthWraps first fields head := by
  have hany := h.chunked_eq
  rw [hchunked] at hany
  have hdeclared := h.contentLength_eq hwords
  have hle : st.contentLength ≤ sizeMax := contentLength_le_of_foldlM (Nat.zero_le _) h.walk
  rcases lt_or_ge (head.length + st.contentLength) (2 ^ 64) with hfits | hover
  · have hnot : ¬LengthWraps first fields head := by
      rintro ⟨-, hover, -⟩
      rw [← hdeclared] at hover
      exact absurd hfits (not_lt.mpr hover)
    refine iff_of_true ?_ hnot
    rw [Nat.mod_eq_of_lt hfits] at hwrap
    subst hwrap
    rw [length_append] at hlen
    have hmore : (more.take st.contentLength).length = st.contentLength :=
      length_take_of_le (by omega)
    have htake : (head ++ more).take (head.length + st.contentLength) =
        head ++ more.take st.contentLength := take_length_add_append _
    obtain ⟨found, hlength, hnone, hcoding, hread⟩ :=
      h.readRequest_append date mallocOk hwords (more.take st.contentLength)
    have hfields : anyChunked fields = false := by
      rw [anyChunked, any_cons] at hany
      exact (Bool.or_eq_false_iff.mp hany.symm).2
    rw [hfields] at hcoding
    rw [Server.agrees_iff (by rw [length_append]; omega), htake, hread,
      readBody, if_neg (by rw [hcoding]; simp)]
    -- The parser has the header block and a request without its body.
    have haccept : ∀ body : Option Bytes, body.getD [] = more.take st.contentLength →
        AcceptsAs (head ++ more) (head.length + st.contentLength)
          ⟨0, { found with body := body }, [], some head.length⟩ := by
      intro body hbody
      refine ⟨head.length, st, h.frameHead _, rfl, hcoding.trans hchunked.symm, ?_, ?_⟩
      · intro hyes
        rw [hchunked] at hyes
        cases hyes
      · intro _
        refine ⟨hlength, ?_, ?_⟩
        · rw [drop_left]
          exact hbody
        · rw [hbody]
          exact hmore
    have hbodyAt : head.length + st.contentLength -
        (more.take st.contentLength).length = head.length := by
      rw [hmore, Nat.add_sub_cancel]
    by_cases hnil : more.take st.contentLength = []
    · right
      rw [if_neg (not_not.mpr hnil)]
      simp only [map_some, hbodyAt]
      exact haccept found.body (by rw [hnone, hnil]; rfl)
    · rw [if_pos hnil, parseRequestBody_sized hcoding (hmore.trans hlength.symm), if_neg hnil]
      simp only [map_some, hbodyAt]
      cases mallocOk with
      | false => exact .inl (by decide : (-2 : ℤ) ≠ 0)
      | true => exact .inr (haccept _ rfl)
  · have hinside : requestLen < head.length := by
      rw [sizeMax] at hle
      omega
    have htake : (head ++ more).take requestLen = head.take requestLen :=
      take_append_of_le_length hinside.le
    have hshort : (head.take requestLen).length = requestLen := length_take_of_le hinside.le
    have hne : head.take requestLen ≠ head := by
      intro hsame
      rw [hsame] at hshort
      exact absurd hinside (by rw [hshort]; exact lt_irrefl _)
    obtain ⟨hrc, hrest⟩ := h.readRequest_proper date mallocOk hwords
      (List.take_prefix requestLen head) hne
    rw [hshort] at hrc
    have hwraps : LengthWraps first fields head ↔
        first.length + 1 ≤ requestLen := by
      rw [LengthWraps, ← hdeclared, ← hwrap]
      exact ⟨fun hall => hall.2.2, fun hlong => ⟨hany.symm, hover, hlong⟩⟩
    rw [Server.agrees_iff hlen, htake, hwraps, ← hrc]
    constructor
    · rintro (hreject | ⟨headerLen, st', -, hat, -⟩)
      · exact hreject
      · rw [hrest] at hat
        cases hat
    · exact .inl

end

/-- The framer and the parser agree on an accepted buffer exactly when it is not
one of the two. -/
theorem framing_agrees_iff (date : Bytes → ℤ) (mallocOk : Bool)
    (request : Request) (maxBody : ℕ) (buf : Bytes)
    (hframe : (checkRequestFrame maxBody buf).rc = 1) :
    Agrees date mallocOk request buf
        (checkRequestFrame maxBody buf).requestLen ↔ ¬Diverges buf := by
  have hcases : ∀ first fields head more st, HeadOk first fields head st →
      buf = head ++ more → (Agrees date mallocOk request buf
        (checkRequestFrame maxBody buf).requestLen ↔ ¬((requestWords (stripCr first)).isSome ∧
          (CodingInRequestLine first fields ∨ LengthWraps first fields head))) := by
    intro first fields head more st hhead hbuf
    subst hbuf
    by_cases hwords : (requestWords (stripCr first)).isSome
    · rcases hhead.frame_cases hframe with
        ⟨body, out, rest, hchunked, hsaw, hbody, rfl, -, hlen⟩ |
        ⟨hchunked, -, hlen, hwrap⟩
      · rw [hlen, hhead.agrees_chunked_iff hwords hchunked hsaw hbody]
        have hnowrap : ¬LengthWraps first fields head := by
          rintro ⟨hno, -⟩
          rw [← hhead.chunked_eq, hchunked] at hno
          cases hno
        simp only [hwords, true_and, or_iff_left hnowrap]
      · rw [hhead.agrees_sized_iff hwords hchunked hlen hwrap]
        have hnocoding : ¬CodingInRequestLine first fields := by
          rintro ⟨hyes, -⟩
          have hany := hhead.chunked_eq
          rw [hchunked, anyChunked, any_cons, hyes, Bool.true_or] at hany
          cases hany
        simp only [hwords, true_and, or_iff_right hnocoding]
    · refine iff_of_true ?_ fun hboth => hwords hboth.1
      exact hhead.agrees_of_no_words (hhead.requestLen_le hframe) (not_isSome_iff_eq_none.mp hwords)
  constructor
  · rintro hagree ⟨first, fields, head, more, hhead, rfl, hboth⟩
    obtain ⟨headerLen, st, hok⟩ := exists_frameHead hframe
    exact (hcases first fields head more st (hhead.headOk hok).1 rfl).mp hagree hboth
  · intro hnot
    obtain ⟨first, fields, head, more, st, hhead, rfl⟩ := exists_headOk hframe
    refine (hcases first fields head more st hhead rfl).mpr fun hboth => ?_
    exact hnot ⟨first, fields, head, more, hhead.isHead, rfl, hboth⟩

/-- A request with a body of five bytes. -/
def sizedRequest : Bytes :=
  ascii "POST /a HTTP/1.1\r\nContent-Length: 5\r\n\r\nhello"

theorem framing_agrees_iff_sized :
    (checkRequestFrame 16 sizedRequest).rc = 1 ∧
      Agrees (fun _ => 0) true .zero sizedRequest
        (checkRequestFrame 16 sizedRequest).requestLen ∧
      ¬Diverges sizedRequest := by
  have hframe : (checkRequestFrame 16 sizedRequest).rc = 1 := by decide
  have hhead : frameHead sizedRequest = some (.ok (39, ⟨5, true, false, false⟩)) := by rfl
  have hagrees : Agrees (fun _ => 0) true .zero sizedRequest
      (checkRequestFrame 16 sizedRequest).requestLen := by
    rw [agrees_iff (by decide)]
    exact .inr ⟨39, _, hhead, by decide, by decide,
      fun hchunked => absurd hchunked (by decide), fun _ => by decide⟩
  exact ⟨hframe, hagrees, (framing_agrees_iff _ _ _ _ _ hframe).mp hagrees⟩

/-- A request whose request line reads as a field. -/
def codingRequest : Bytes :=
  ascii "Transfer-Encoding: chunked\r\n\r\n0\r\n\r\n"

/-- The framer takes the body as chunked; the parser accepts a request without
a body. -/
theorem framing_disagrees_on_request_line :
    (checkRequestFrame 16 codingRequest).rc = 1 ∧
      ¬Agrees (fun _ => 0) true .zero codingRequest
        (checkRequestFrame 16 codingRequest).requestLen := by
  refine ⟨by decide, fun h => ?_⟩
  have hrc : (parseHttpRequest (fun _ => 0) true .zero codingRequest
      (checkRequestFrame 16 codingRequest).requestLen).rc = 0 := by decide
  have hcoding : (parseHttpRequest (fun _ => 0) true .zero codingRequest
      (checkRequestFrame 16 codingRequest).requestLen).request.chunked =
      false := by decide
  have hframed : frameHead codingRequest = some (.ok (30, ⟨0, false, true, false⟩)) := by rfl
  rcases h.verdict with hreject | ⟨headerLen, st, hframe, -, hsame, -⟩
  · exact hreject hrc
  · rw [hframed] at hframe
    cases hframe
    rw [hcoding] at hsame
    cases hsame

end Agreement

end Codo.Server
