import Codo.Common.RequestParser

/-!
# The framer

`check_request_frame`: has a whole request arrived in the read buffer, and how
long is it?  The framer finds the blank line, walks the lines before it for the
fields that frame the body, and measures the body.

A header block is described by `IsHead`: its first line, its other lines and its
bytes.  The framer's walk on a block is the sequence of what its lines say
(`lineKind`), the first line included.
-/

namespace Codo.Server

open Support Common List Option

/-! ## The source -/

/-- The blank line `text` starts with, by its length. -/
def blankLine : Bytes → Option ℕ
  | 10 :: _ => some 1
  | 13 :: 10 :: _ => some 2
  | _ => none

/-- The search for the blank line: the offset of the line feed that ends the
last header line, and the length of the header block.  `p` is the offset of
`text`. -/
def findHeaderEnd : ℕ → Bytes → Option (ℕ × ℕ)
  | _, [] => none
  | p, b :: text =>
    if b = 10 then
      match blankLine text with
      | some n => some (p, p + 1 + n)
      | none => findHeaderEnd (p + 1) text
    else findHeaderEnd (p + 1) text

/-- `copy_header_value` into the 32 bytes of `tmp`. -/
def copyHeaderValue (value : Bytes) : Option Bytes :=
  let value := trimBlanks (skipBlanks value)
  if 32 ≤ value.length then none else some value

/-- What a header line says about the framing. -/
inductive LineKind
  | contentLength (n : ℕ)
  | chunked
  | expect100
  | other
  deriving DecidableEq

/-- Why the framer refuses a header block. -/
inductive Refusal
  | malformed
  | unsupported
  deriving DecidableEq

/-- The return value for a refusal. -/
def Refusal.code : Refusal → ℤ
  | .malformed => -1
  | .unsupported => -2

/-- The body of the walk over the header lines: what the line says. -/
def lineKind (line : Bytes) : Except Refusal LineKind :=
  let line := stripCr line
  match splitByte 58 line with
  | none => .ok .other
  | some (name, value) =>
    if name.length = 14 ∧ strncaseeq line (ascii "Content-Length") 14 then
      match copyHeaderValue value with
      | none => .error .malformed
      | some tmp =>
        match httpParseContentLength tmp with
        | none => .error .malformed
        | some n => .ok (.contentLength n)
    else if name.length = 17 ∧ strncaseeq line (ascii "Transfer-Encoding") 17 then
      match copyHeaderValue value with
      | none => .error .unsupported
      | some tmp =>
        if strcaseeq tmp (ascii "chunked") then .ok .chunked
        else .error .unsupported
    else if name.length = 6 ∧ strncaseeq line (ascii "Expect") 6 then
      match copyHeaderValue value with
      | none => .ok .other
      | some tmp =>
        if strcaseeq tmp (ascii "100-continue") then .ok .expect100
        else .ok .other
    else .ok .other

/-- The variables of the walk. -/
structure Framing where
  contentLength : ℕ
  sawContentLength : Bool
  chunked : Bool
  expect100 : Bool
  deriving DecidableEq

def Framing.start : Framing := ⟨0, false, false, false⟩

def Framing.note (st : Framing) : LineKind → Framing
  | .contentLength n => { st with contentLength := n, sawContentLength := true }
  | .chunked => { st with chunked := true }
  | .expect100 => { st with expect100 := true }
  | .other => st

/-- One turn of the walk. -/
def frameLine (st : Framing) (line : Bytes) : Except (Refusal × Framing) Framing :=
  match lineKind line with
  | .error refusal => .error (refusal, st)
  | .ok kind => .ok (st.note kind)

/-- The walk over the lines of `text`, the bytes before `hdr_end`. -/
def frameLines : ℕ → Framing → Bytes → Except (Refusal × Framing) Framing
  | 0, st, _ => .ok st
  | fuel + 1, st, text =>
    if text = [] then .ok st
    else
      match splitByte 10 text with
      | none => frameLine st text
      | some (line, rest) =>
        match frameLine st line with
        | .error e => .error e
        | .ok st => frameLines fuel st rest

/-- The part of `check_request_frame` before the body is looked at: nothing
while the header block is incomplete, else a refusal or the length of the block
and the variables of the walk. -/
def frameHead (buf : Bytes) : Option (Except (Refusal × Framing) (ℕ × Framing)) :=
  match findHeaderEnd 0 buf with
  | none => none
  | some (hdrEnd, headerLen) =>
    if 0 ∈ buf.take headerLen then some (.error (.malformed, .start))
    else
      match frameLines (hdrEnd + 1) .start (buf.take hdrEnd) with
      | .error e => some (.error e)
      | .ok st => some (.ok (headerLen, st))

/-- What `check_request_frame` returns and writes to its outputs. -/
structure Frame where
  rc : ℤ
  expect100 : Bool
  requestLen : ℕ
  deriving DecidableEq

/-- The part of `check_request_frame` behind the header block.  The length of a
body is added to that of the headers in `size_t`; a chunked body lies in the
buffer, so there the sum does not wrap. -/
def frameBody (maxBody : ℕ) (buf : Bytes) (headerLen : ℕ) (st : Framing) : Frame :=
  if st.chunked then
    if st.sawContentLength then ⟨-1, st.expect100, 0⟩
    else
      let d := httpChunkedDecode (buf.drop headerLen)
      if d.rc < 0 then ⟨-1, st.expect100, 0⟩
      else if maxBody < d.outLen then ⟨-3, st.expect100, 0⟩
      else ⟨d.rc, st.expect100, if d.rc = 1 then headerLen + d.consumed else 0⟩
  else if maxBody < st.contentLength then ⟨-3, st.expect100, 0⟩
  else
    let requestLen := (headerLen + st.contentLength) % 2 ^ 64
    if buf.length < requestLen then ⟨0, st.expect100, 0⟩
    else ⟨1, st.expect100, requestLen⟩

def checkRequestFrame (maxBody : ℕ) (buf : Bytes) : Frame :=
  match frameHead buf with
  | none => ⟨0, false, 0⟩
  | some (.error (refusal, st)) => ⟨refusal.code, st.expect100, 0⟩
  | some (.ok (headerLen, st)) => frameBody maxBody buf headerLen st

def connConsumeRead (buf : Bytes) (len : ℕ) : Bytes :=
  buf.drop len

/-! ## Header blocks -/

/-- A header block: its first line, its other lines, and its bytes up to the
end of the blank line. -/
def IsHead (first : Bytes) (fields : List Bytes) (head : Bytes) : Prop :=
  10 ∉ first ∧ ∃ block, LineBlock fields block ∧ head = first ++ 10 :: block

/-- The lines of a block without the last line end. -/
def joinLines (first : Bytes) : List Bytes → Bytes
  | [] => first
  | field :: fields => first ++ 10 :: joinLines field fields

section Blocks

variable {first block head p : Bytes} {fields : List Bytes}

theorem blankLine_eq_some {text : Bytes} {n : ℕ} (h : blankLine text = some n) :
    ∃ line more, text = line ++ 10 :: more ∧ 10 ∉ line ∧ stripCr line = [] ∧
      n = line.length + 1 := by
  unfold blankLine at h
  split at h
  next => exact ⟨[], _, rfl, by decide, rfl, (some.inj h).symm⟩
  next => exact ⟨[13], _, rfl, by decide, rfl, (some.inj h).symm⟩
  next => cases h

theorem blankLine_of_blank {line : Bytes} (hblank : stripCr line = [])
    (more : Bytes) : blankLine (line ++ 10 :: more) = some (line.length + 1) := by
  rcases stripCr_eq_nil_iff.mp hblank with rfl | rfl <;> rfl

theorem blankLine_of_full {line : Bytes} (hline : 10 ∉ line)
    (hfull : stripCr line ≠ []) (more : Bytes) : blankLine (line ++ 10 :: more) = none := by
  cases hresult : blankLine (line ++ 10 :: more) with
  | none => rfl
  | some n =>
    obtain ⟨line', more', heq, hline', hblank, -⟩ := blankLine_eq_some hresult
    have hcut := splitByte_append hline more
    rw [heq, splitByte_append hline'] at hcut
    rw [(Prod.mk.inj (some.inj hcut)).1] at hblank
    exact absurd hblank hfull

theorem findHeaderEnd_line (hfirst : 10 ∉ first) (pos : ℕ) (text : Bytes) :
    findHeaderEnd pos (first ++ 10 :: text) =
      match blankLine text with
      | some n => some (pos + first.length, pos + first.length + 1 + n)
      | none => findHeaderEnd (pos + first.length + 1) text := by
  induction first generalizing pos with
  | nil => simp [findHeaderEnd]
  | cons b first ih =>
    have hb : b ≠ 10 := fun h => hfirst (h ▸ mem_cons_self)
    have htail : 10 ∉ first := fun h => hfirst (mem_cons_of_mem _ h)
    rw [cons_append, findHeaderEnd, if_neg hb, ih htail, length_cons]
    have hpos : pos + 1 + first.length = pos + (first.length + 1) := by omega
    rw [hpos]

theorem findHeaderEnd_append (hfirst : 10 ∉ first)
    (hblock : LineBlock fields block) (pos : ℕ) (more : Bytes) :
    findHeaderEnd pos (first ++ 10 :: (block ++ more)) =
      some (pos + (joinLines first fields).length, pos + (first ++ 10 :: block).length) := by
  induction hblock generalizing first pos with
  | @blank line hline hblank =>
    rw [findHeaderEnd_line hfirst, append_assoc, singleton_append, blankLine_of_blank hblank]
    simp only [joinLines, length_append, length_cons,
      length_nil, some.injEq, Prod.mk.injEq, true_and]
    omega
  | @line line rest lines hline hfull _ ih =>
    rw [findHeaderEnd_line hfirst, append_assoc, cons_append,
      blankLine_of_full hline hfull, ih hline]
    simp only [joinLines, length_append, length_cons, some.injEq, Prod.mk.injEq]
    omega

theorem joinLines_append (hblock : LineBlock fields block) (first : Bytes) :
    ∃ blank, first ++ 10 :: block = joinLines first fields ++ blank := by
  induction hblock generalizing first with
  | @blank line _ _ => exact ⟨10 :: (line ++ [10]), rfl⟩
  | @line line rest lines _ _ _ ih =>
    obtain ⟨blank, hblank⟩ := ih line
    exact ⟨blank, by rw [hblank, joinLines]; simp⟩

theorem isHead_of_findHeaderEnd {pos hdrEnd headerLen : ℕ} {buf : Bytes}
    (h : findHeaderEnd pos buf = some (hdrEnd, headerLen)) :
    ∃ first fields head more, IsHead first fields head ∧ buf = head ++ more := by
  induction buf generalizing pos with
  | nil => cases h
  | cons b text ih =>
    rw [findHeaderEnd] at h
    split at h
    next hb =>
      subst hb
      split at h
      next n hblank =>
        obtain ⟨line, more, rfl, hline, hempty, -⟩ := blankLine_eq_some hblank
        exact ⟨[], [], 10 :: (line ++ [10]), more,
          ⟨not_mem_nil, _, .blank hline hempty, rfl⟩, by simp⟩
      next hblank =>
        obtain ⟨first, fields, _, more, ⟨hfirst, block, hblock, rfl⟩, rfl⟩ := ih h
        refine ⟨[], first :: fields, 10 :: (first ++ 10 :: block), more,
          ⟨not_mem_nil, _, .line hfirst ?_ hblock, rfl⟩, by simp⟩
        intro hempty
        rw [append_assoc, cons_append, blankLine_of_blank hempty] at hblank
        cases hblank
    next hb =>
      obtain ⟨first, fields, _, more, ⟨hfirst, block, hblock, rfl⟩, rfl⟩ := ih h
      refine ⟨b :: first, fields, b :: (first ++ 10 :: block), more, ⟨?_, block, hblock, rfl⟩, rfl⟩
      rw [mem_cons, not_or]
      exact ⟨Ne.symm hb, hfirst⟩

theorem IsHead.findHeaderEnd (h : IsHead first fields head) (more : Bytes) :
    findHeaderEnd 0 (head ++ more) = some ((joinLines first fields).length, head.length) := by
  obtain ⟨hfirst, block, hblock, rfl⟩ := h
  rw [append_assoc, cons_append, findHeaderEnd_append hfirst hblock]
  simp

theorem IsHead.take_joinLines (h : IsHead first fields head) (more : Bytes) :
    (head ++ more).take (joinLines first fields).length = joinLines first fields := by
  obtain ⟨-, block, hblock, rfl⟩ := h
  obtain ⟨blank, hblank⟩ := joinLines_append hblock first
  rw [hblank, append_assoc, take_left]

theorem IsHead.findHeaderEnd_proper (h : IsHead first fields head)
    (hp : p <+: head) (hne : p ≠ head) : Server.findHeaderEnd 0 p = none := by
  cases hresult : Server.findHeaderEnd 0 p with
  | none => rfl
  | some found =>
    obtain ⟨first', fields', head', more', hhead', rfl⟩ := isHead_of_findHeaderEnd hresult
    obtain ⟨rest, rfl⟩ := hp
    -- Both blocks end where the search stops.
    have hsame := h.findHeaderEnd []
    rw [append_nil, append_assoc, hhead'.findHeaderEnd] at hsame
    have hlen := (Prod.mk.inj (some.inj hsame)).2
    simp only [length_append] at hlen
    have hnil : more' ++ rest = [] := by
      rw [← length_eq_zero_iff, length_append]
      omega
    rw [append_assoc, hnil] at hne
    obtain ⟨rfl, -⟩ := append_eq_nil_iff.mp hnil
    exact absurd rfl hne

theorem frameLines_nil (fuel : ℕ) (st : Framing) : frameLines fuel st [] = .ok st := by
  cases fuel with
  | zero => rfl
  | succ fuel => rfl

theorem frameLine_nil (st : Framing) : frameLine st [] = .ok st := rfl

theorem frameLines_joinLines (hfirst : 10 ∉ first)
    (hblock : LineBlock fields block) (st : Framing) {fuel : ℕ}
    (hfuel : (joinLines first fields).length < fuel) :
    frameLines fuel st (joinLines first fields) = (first :: fields).foldlM frameLine st := by
  induction hblock generalizing first st fuel with
  | blank _ _ =>
    rw [joinLines, foldlM_cons]
    by_cases hnil : first = []
    · rw [hnil, frameLines_nil, frameLine_nil]
      rfl
    · obtain ⟨fuel, rfl⟩ := Nat.exists_eq_add_one_of_ne_zero (Nat.ne_zero_of_lt hfuel)
      rw [frameLines, if_neg hnil, splitByte_eq_none_iff.mpr hfirst]
      cases frameLine st first with
      | error e => rfl
      | ok st' => rfl
  | @line line rest lines hline hfull _ ih =>
    obtain ⟨fuel, rfl⟩ := Nat.exists_eq_add_one_of_ne_zero (Nat.ne_zero_of_lt hfuel)
    rw [joinLines, length_append, length_cons] at hfuel
    rw [joinLines, frameLines, if_neg (by simp), splitByte_append hfirst, foldlM_cons]
    cases hnote : frameLine st first with
    | error e =>
      simp only [hnote]
      rfl
    | ok st' =>
      simp only [hnote]
      exact ih hline st' (by omega)

/-- The verdict on a header block does not depend on what follows it. -/
theorem IsHead.frameHead (h : IsHead first fields head) (more : Bytes) :
    frameHead (head ++ more) = some (
      if 0 ∈ head then .error (.malformed, .start)
      else ((first :: fields).foldlM frameLine .start).map fun st => (head.length, st)) := by
  rw [Server.frameHead, h.findHeaderEnd]
  simp only [take_left]
  split
  · rfl
  · obtain ⟨hfirst, block, hblock, -⟩ := id h
    rw [h.take_joinLines, frameLines_joinLines hfirst hblock .start (Nat.lt_succ_self _)]
    cases (first :: fields).foldlM frameLine .start with
    | error e => rfl
    | ok st => rfl

theorem IsHead.frameHead_proper (h : IsHead first fields head)
    (hp : p <+: head) (hne : p ≠ head) : Server.frameHead p = none := by
  rw [Server.frameHead, h.findHeaderEnd_proper hp hne]

/-- A header block the framer accepts, with what its lines say. -/
structure HeadOk (first : Bytes) (fields : List Bytes) (head : Bytes) (st : Framing) : Prop where
  isHead : IsHead first fields head
  noNul : 0 ∉ head
  walk : (first :: fields).foldlM frameLine .start = .ok st

theorem HeadOk.frameHead {st : Framing} (h : HeadOk first fields head st) (more : Bytes) :
    frameHead (head ++ more) = some (.ok (head.length, st)) := by
  rw [h.isHead.frameHead, if_neg h.noNul, h.walk]
  rfl

theorem IsHead.headOk {headerLen : ℕ} {st : Framing} {more : Bytes} (h : IsHead first fields head)
    (hframe : Server.frameHead (head ++ more) = some (.ok (headerLen, st))) :
    HeadOk first fields head st ∧ headerLen = head.length := by
  rw [h.frameHead] at hframe
  split at hframe
  next => cases hframe
  next hzero =>
    cases hwalk : (first :: fields).foldlM frameLine .start with
    | error e =>
      rw [hwalk] at hframe
      cases hframe
    | ok st' =>
      rw [hwalk] at hframe
      cases hframe
      exact ⟨⟨h, hzero, hwalk⟩, rfl⟩

end Blocks

section Walk

variable {line : Bytes} {lines : List Bytes} {st st' : Framing}

theorem foldlM_frameLine_cons :
    (line :: lines).foldlM frameLine st = .ok st' ↔ ∃ kind, lineKind line = .ok kind ∧
        lines.foldlM frameLine (st.note kind) = .ok st' := by
  rw [foldlM_cons, frameLine]
  cases lineKind line with
  | error rc => simp [bind, Except.bind]
  | ok kind => simp [bind, Except.bind]

/-- The framer's comparison of a field name. -/
theorem name_matches_iff {name value text : Bytes} {n : ℕ} (htext : text.length = n) :
    (name.length = n ∧ strncaseeq (name ++ 58 :: value) text n = true) ↔
      strcaseeq name text = true := by
  constructor
  · rintro ⟨hname, hsame⟩
    rwa [strncaseeq_append htext _ hname] at hsame
  · intro hsame
    have hname : name.length = n := (length_of_strcaseeq hsame).trans htext
    exact ⟨hname, by rwa [strncaseeq_append htext _ hname]⟩

/-- What a line without a colon, a framing field or another field says. -/
theorem lineKind_cases {kind : LineKind} (h : lineKind line = .ok kind) :
    (splitByte 58 (stripCr line) = none ∧ kind = .other) ∨
      ∃ name value, splitByte 58 (stripCr line) = some (name, value) ∧
        ((strcaseeq name (ascii "Content-Length") = true ∧
            ∃ tmp n, copyHeaderValue value = some tmp ∧
              httpParseContentLength tmp = some n ∧ kind = .contentLength n) ∨
          (strcaseeq name (ascii "Transfer-Encoding") = true ∧
            ∃ tmp, copyHeaderValue value = some tmp ∧
              strcaseeq tmp (ascii "chunked") = true ∧ kind = .chunked) ∨
          (strcaseeq name (ascii "Content-Length") = false ∧
            strcaseeq name (ascii "Transfer-Encoding") = false ∧
            (kind = .expect100 ∨ kind = .other))) := by
  rw [lineKind] at h
  cases hcolon : splitByte 58 (stripCr line) with
  | none =>
    simp only [hcolon] at h
    exact .inl ⟨rfl, (Except.ok.inj h).symm⟩
  | some parts =>
    obtain ⟨name, value⟩ := parts
    refine .inr ⟨name, value, rfl, ?_⟩
    simp only [hcolon] at h
    rw [(eq_of_splitByte hcolon).1] at h
    have hlength : (name.length = 14 ∧ strncaseeq (name ++ 58 :: value)
        (ascii "Content-Length") 14 = true) ↔ _ := name_matches_iff rfl
    have hcoding : (name.length = 17 ∧ strncaseeq (name ++ 58 :: value)
        (ascii "Transfer-Encoding") 17 = true) ↔ _ := name_matches_iff rfl
    simp only [hlength, hcoding] at h
    split at h
    next hname =>
      left
      refine ⟨hname, ?_⟩
      cases hcopy : copyHeaderValue value with
      | none =>
        rw [hcopy] at h
        cases h
      | some tmp =>
        simp only [hcopy] at h
        cases hparse : httpParseContentLength tmp with
        | none =>
          rw [hparse] at h
          cases h
        | some n =>
          rw [hparse] at h
          exact ⟨tmp, n, rfl, hparse, (Except.ok.inj h).symm⟩
    next hname =>
      right
      split at h
      next hname' =>
        left
        refine ⟨hname', ?_⟩
        cases hcopy : copyHeaderValue value with
        | none =>
          rw [hcopy] at h
          cases h
        | some tmp =>
          simp only [hcopy] at h
          split at h
          next hchunked => exact ⟨tmp, rfl, hchunked, (Except.ok.inj h).symm⟩
          next => cases h
      next hname' =>
        right
        refine ⟨Bool.eq_false_iff.mpr hname, Bool.eq_false_iff.mpr hname', ?_⟩
        split at h
        next =>
          cases hcopy : copyHeaderValue value with
          | none =>
            rw [hcopy] at h
            exact .inr (Except.ok.inj h).symm
          | some tmp =>
            simp only [hcopy] at h
            split at h
            · exact .inl (Except.ok.inj h).symm
            · exact .inr (Except.ok.inj h).symm
        next => exact .inr (Except.ok.inj h).symm

theorem lineKind_contentLength_le {n : ℕ}
    (h : lineKind line = .ok (.contentLength n)) : n ≤ sizeMax := by
  rcases lineKind_cases h with ⟨-, hkind⟩ | ⟨name, value, -, hfield⟩
  · cases hkind
  · rcases hfield with ⟨-, tmp, m, -, hparse, hkind⟩ | ⟨-, _, -, -, hkind⟩ | ⟨-, -, hkind | hkind⟩
    · cases hkind
      exact (httpParseContentLength_eq_some hparse).2.1
    · cases hkind
    · cases hkind
    · cases hkind

theorem contentLength_le_of_foldlM (hst : st.contentLength ≤ sizeMax)
    (h : lines.foldlM frameLine st = .ok st') : st'.contentLength ≤ sizeMax := by
  induction lines generalizing st with
  | nil =>
    cases h
    exact hst
  | cons line lines ih =>
    obtain ⟨kind, hkind, hrest⟩ := foldlM_frameLine_cons.mp h
    refine ih ?_ hrest
    cases kind with
    | contentLength n => exact lineKind_contentLength_le hkind
    | chunked => exact hst
    | expect100 => exact hst
    | other => exact hst

end Walk

section Requests

variable {maxBody : ℕ} {buf p r : Bytes}
variable {head more : Bytes} {st : Framing}

theorem exists_frameHead (h : (checkRequestFrame maxBody buf).rc = 1) :
    ∃ headerLen st, frameHead buf = some (.ok (headerLen, st)) := by
  rw [checkRequestFrame] at h
  split at h
  next => cases h
  next refusal st _ =>
    cases refusal with
    | malformed => cases h
    | unsupported => cases h
  next headerLen st hhead => exact ⟨headerLen, st, hhead⟩

theorem exists_headOk (h : (checkRequestFrame maxBody buf).rc = 1) :
    ∃ first fields head more st, HeadOk first fields head st ∧ buf = head ++ more := by
  obtain ⟨headerLen, st, hframe⟩ := exists_frameHead h
  cases hfind : findHeaderEnd 0 buf with
  | none =>
    rw [frameHead, hfind] at hframe
    cases hframe
  | some found =>
    obtain ⟨first, fields, head, more, hhead, rfl⟩ := isHead_of_findHeaderEnd hfind
    exact ⟨first, fields, head, more, st, (hhead.headOk hframe).1, rfl⟩

/-- The body of an accepted request is chunked, or has the length the header
block gives. -/
theorem HeadOk.frame_cases {first : Bytes} {fields : List Bytes}
    (hhead : HeadOk first fields head st) (h : (checkRequestFrame maxBody (head ++ more)).rc = 1) :
    (∃ body out rest, st.chunked = true ∧ st.sawContentLength = false ∧
        Chunks body out ∧ more = body ++ rest ∧ out.length ≤ maxBody ∧
        (checkRequestFrame maxBody (head ++ more)).requestLen = head.length + body.length) ∨
      (st.chunked = false ∧ st.contentLength ≤ maxBody ∧
        (checkRequestFrame maxBody (head ++ more)).requestLen ≤ (head ++ more).length ∧
        (checkRequestFrame maxBody (head ++ more)).requestLen =
          (head.length + st.contentLength) % 2 ^ 64) := by
  rw [checkRequestFrame, hhead.frameHead] at h ⊢
  simp only [frameBody, drop_left] at h ⊢
  cases hchunked : st.chunked with
  | true =>
    left
    simp only [hchunked, if_true] at h ⊢
    split at h
    next => cases h
    next hsaw =>
      split at h
      next => cases h
      next hrc =>
        split at h
        next => cases h
        next hfits =>
          obtain ⟨body, out, rest, hchunks, rfl⟩ := chunks_of_httpChunkedDecode h
          rw [hchunks.decode_append] at hrc hfits ⊢
          refine ⟨body, out, rest, trivial, Bool.eq_false_iff.mpr hsaw,
            hchunks, rfl, not_lt.mp hfits, ?_⟩
          rw [if_neg hsaw, if_neg hrc, if_neg hfits, if_pos rfl]
  | false =>
    right
    simp only [hchunked, Bool.false_eq_true, if_false] at h ⊢
    split at h
    next => cases h
    next hfits =>
      split at h
      next => cases h
      next havail =>
        rw [if_neg hfits, if_neg havail]
        exact ⟨trivial, not_lt.mp hfits, not_lt.mp havail, rfl⟩

theorem HeadOk.requestLen_le {first : Bytes} {fields : List Bytes}
    (hhead : HeadOk first fields head st) (h : (checkRequestFrame maxBody (head ++ more)).rc = 1) :
    (checkRequestFrame maxBody (head ++ more)).requestLen ≤ (head ++ more).length := by
  rcases hhead.frame_cases h with ⟨body, out, rest, -, -, -, rfl, -, hlen⟩ | ⟨-, -, hlen, -⟩
  · rw [hlen, length_append, length_append]
    omega
  · exact hlen

/-- A request that is framed by its own bytes. -/
inductive Message (maxBody : ℕ) : Bytes → Prop
  | chunked {first head body out : Bytes} {fields : List Bytes} {st : Framing} :
      HeadOk first fields head st → st.chunked = true → st.sawContentLength = false →
      Chunks body out → out.length ≤ maxBody → Message maxBody (head ++ body)
  | sized {first head body : Bytes} {fields : List Bytes} {st : Framing} :
      HeadOk first fields head st → st.chunked = false → st.contentLength = body.length →
      body.length ≤ maxBody → Message maxBody (head ++ body)

theorem frameBody_chunked (hchunked : st.chunked = true)
    (hsaw : st.sawContentLength = false) (hrc : 0 ≤ (httpChunkedDecode more).rc)
    (hfits : (httpChunkedDecode more).outLen ≤ maxBody) :
    frameBody maxBody (head ++ more) head.length st = ⟨(httpChunkedDecode more).rc, st.expect100,
        if (httpChunkedDecode more).rc = 1 then
          head.length + (httpChunkedDecode more).consumed else 0⟩ := by
  simp only [frameBody, drop_left, if_pos hchunked]
  rw [if_neg (by rw [hsaw]; exact Bool.false_ne_true), if_neg (not_lt.mpr hrc),
    if_neg (not_lt.mpr hfits)]

theorem frameBody_sized {headerLen : ℕ} (hchunked : st.chunked = false)
    (hfits : st.contentLength ≤ maxBody) :
    frameBody maxBody buf headerLen st =
      let requestLen := (headerLen + st.contentLength) % 2 ^ 64
      if buf.length < requestLen then ⟨0, st.expect100, 0⟩
      else ⟨1, st.expect100, requestLen⟩ := by
  rw [frameBody, if_neg (by rw [hchunked]; exact Bool.false_ne_true), if_neg (not_lt.mpr hfits)]

/-- The framer accepts exactly the bytes of a request, whatever follows. -/
theorem Message.frame_append (h : Message maxBody r) (hr : r.length < 2 ^ 64) (more : Bytes) :
    (checkRequestFrame maxBody (r ++ more)).rc = 1 ∧
      (checkRequestFrame maxBody (r ++ more)).requestLen = r.length := by
  cases h with
  | @chunked first head body out fields st hhead hchunked hsaw hbody hfits =>
    rw [append_assoc, checkRequestFrame, hhead.frameHead]
    have hdecode := hbody.decode_append more
    simp only
    rw [frameBody_chunked hchunked hsaw (by rw [hdecode]; exact zero_le_one)
      (by rw [hdecode]; exact hfits), hdecode, length_append]
    exact ⟨rfl, rfl⟩
  | @sized first head body fields st hhead hchunked hlen hfits =>
    rw [length_append] at hr
    rw [append_assoc, checkRequestFrame, hhead.frameHead]
    simp only
    rw [frameBody_sized hchunked (hlen ▸ hfits), hlen, Nat.mod_eq_of_lt hr,
      ← append_assoc, ← length_append]
    simp only
    rw [if_neg (by rw [length_append]; omega)]
    exact ⟨rfl, rfl⟩

theorem Message.frame_proper (h : Message maxBody r) (hr : r.length < 2 ^ 64)
    (hp : p <+: r) (hne : p ≠ r) : (checkRequestFrame maxBody p).rc = 0 := by
  cases h with
  | @chunked first head body out fields st hhead hchunked hsaw hbody hfits =>
    rcases lt_or_ge p.length head.length with hshort | hlong
    · have hp' := prefix_of_prefix_length_le hp (prefix_append head body) hshort.le
      rw [checkRequestFrame, hhead.isHead.frameHead_proper hp'
        (fun heq => absurd hshort (by rw [heq]; exact lt_irrefl _))]
    · obtain ⟨q, rfl, hq, hneq⟩ := properPrefix_of_length_le hp hne hlong
      obtain ⟨hrc, hlen⟩ := hbody.decode_proper hq hneq
      rw [checkRequestFrame, hhead.frameHead]
      simp only
      rw [frameBody_chunked hchunked hsaw hrc.ge (hlen.trans hfits)]
      exact hrc
  | @sized first head body fields st hhead hchunked hlen hfits =>
    rcases lt_or_ge p.length head.length with hshort | hlong
    · have hp' := prefix_of_prefix_length_le hp (prefix_append head body) hshort.le
      rw [checkRequestFrame, hhead.isHead.frameHead_proper hp'
        (fun heq => absurd hshort (by rw [heq]; exact lt_irrefl _))]
    · obtain ⟨q, rfl, hq, hneq⟩ := properPrefix_of_length_le hp hne hlong
      have hlt : q.length < body.length :=
        lt_of_le_of_ne hq.length_le fun heq => hneq (hq.eq_of_length heq)
      rw [length_append] at hr
      rw [checkRequestFrame, hhead.frameHead]
      simp only
      rw [frameBody_sized hchunked (hlen ▸ hfits), hlen, Nat.mod_eq_of_lt hr]
      simp only
      rw [if_pos (by rw [length_append]; omega)]

/-- What the framer accepts as a whole is a request. -/
theorem message_of_frame (hr : r.length < 2 ^ 64) (hrc : (checkRequestFrame maxBody r).rc = 1)
    (hlen : (checkRequestFrame maxBody r).requestLen = r.length) : Message maxBody r := by
  obtain ⟨first, fields, head, more, st, hhead, rfl⟩ := exists_headOk hrc
  have hbody := hhead.frame_cases hrc
  rw [length_append] at hr hlen
  rcases hbody with ⟨body, out, rest, hchunked, hsaw, hchunks, rfl, hfits, heq⟩ |
    ⟨hchunked, hfits, -, heq⟩
  · have hnil : rest = [] := by
      rw [← length_eq_zero_iff]
      rw [hlen, length_append] at heq
      omega
    rw [hnil, append_nil]
    exact .chunked hhead hchunked hsaw hchunks hfits
  · have hle : st.contentLength ≤ sizeMax := contentLength_le_of_foldlM (Nat.zero_le _) hhead.walk
    have hsize : st.contentLength = more.length := by
      rw [hlen, sizeMax] at *
      omega
    exact .sized hhead hchunked hsize (hsize ▸ hfits)

end Requests

end Codo.Server
