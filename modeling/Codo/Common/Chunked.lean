import Codo.Support.Lines

/-!
# Chunked bodies

`http_chunked_decode`.  The input is consumed line by line and chunk by chunk;
`pos` counts the bytes consumed so far.  The grammar of complete messages is
`Chunks`, and the decoder is determined by it: it finds the message at the
start of its input whatever follows, and asks for more on every proper start of
a message.
-/

namespace Codo.Common

open Support List

/-! ## The decoder -/

def sizeMax : ℕ := 2 ^ 64 - 1

def hexDigit (b : UInt8) : Option ℕ :=
  if 48 ≤ b ∧ b ≤ 57 then some (b.toNat - 48)
  else if 97 ≤ b ∧ b ≤ 102 then some (b.toNat - 97 + 10)
  else if 65 ≤ b ∧ b ≤ 70 then some (b.toNat - 65 + 10)
  else none

/-- The loop over the digits of a chunk size: the size and the rest of the
line, or `none` when the size overflows `size_t`. -/
def hexRun : ℕ → Bytes → Option (ℕ × Bytes)
  | chunk, [] => some (chunk, [])
  | chunk, b :: bs =>
    match hexDigit b with
    | none => some (chunk, b :: bs)
    | some h => if sizeMax / 16 < chunk then none else hexRun (chunk * 16 + h) bs

/-- The size a chunk-size line denotes, without its line end. -/
def chunkSize (line : Bytes) : Option ℕ :=
  match hexRun 0 line with
  | none => none
  | some (chunk, rest) =>
    if rest.length = line.length then none
    else
      match rest with
      | [] => some chunk
      | b :: _ => if b = 59 ∨ b = 32 ∨ b = 9 then some chunk else none

/-- What `http_chunked_decode` returns and writes to its outputs. -/
structure Decoded where
  rc : ℤ
  out : Bytes
  outLen : ℕ
  consumed : ℕ
  deriving DecidableEq

/-- A malformed message: the outputs keep their first values. -/
def Decoded.malformed (decoded : Bytes) : Decoded := ⟨-1, decoded, 0, 0⟩

def Decoded.incomplete (decoded : Bytes) (consumed : ℕ) : Decoded :=
  ⟨0, decoded, decoded.length, consumed⟩

def skipTrailers (decoded : Bytes) : ℕ → ℕ → Bytes → Decoded
  | 0, _, _ => .incomplete decoded 0
  | fuel + 1, pos, rest =>
    match splitByte 10 rest with
    | none => .incomplete decoded 0
    | some (line, rest) =>
      let pos := pos + (line.length + 1)
      if stripCr line = [] then ⟨1, decoded, decoded.length, pos⟩
      else skipTrailers decoded fuel pos rest

/-- The line end behind the data of a chunk. -/
def chunkEnd : Bytes → Option (Except Unit (ℕ × Bytes))
  | [] => none
  | 10 :: rest => some (.ok (1, rest))
  | 13 :: [] => none
  | 13 :: 10 :: rest => some (.ok (2, rest))
  | _ => some (.error ())

def decodeChunks : ℕ → ℕ → Bytes → Bytes → Decoded
  | 0, _, decoded, _ => .incomplete decoded 0
  | fuel + 1, pos, decoded, rest =>
    match splitByte 10 rest with
    | none => .incomplete decoded pos
    | some (line, rest) =>
      match chunkSize (stripCr line) with
      | none => .malformed decoded
      | some chunk =>
        let pos := pos + (line.length + 1)
        if chunk = 0 then skipTrailers decoded fuel pos rest
        else if rest.length < chunk then .incomplete decoded 0
        else
          let decoded := decoded ++ rest.take chunk
          match chunkEnd (rest.drop chunk) with
          | none => .incomplete decoded 0
          | some (.error _) => .malformed decoded
          | some (.ok (n, rest)) => decodeChunks fuel (pos + chunk + n) decoded rest

def httpChunkedDecode (input : Bytes) : Decoded :=
  decodeChunks (input.length + 1) 0 [] input

/-! ## The grammar of complete messages -/

/-- The two line ends behind the data of a chunk. -/
def IsEol (eol : Bytes) : Prop := eol = [10] ∨ eol = [13, 10]

/-- A chunked message and what it encodes. -/
inductive Chunks : Bytes → Bytes → Prop
  | last {line rest : Bytes} {trailers : List Bytes} : 10 ∉ line →
      chunkSize (stripCr line) = some 0 → LineBlock trailers rest → Chunks (line ++ 10 :: rest) []
  | chunk {line data eol rest out : Bytes} : 10 ∉ line →
      chunkSize (stripCr line) = some data.length → data ≠ [] → IsEol eol → Chunks rest out →
      Chunks (line ++ 10 :: (data ++ (eol ++ rest))) (data ++ out)

section Decoder

variable {d message out p : Bytes} {trailers : List Bytes} {fuel pos : ℕ}

theorem Chunks.ne_nil (h : Chunks message out) : message ≠ [] := by
  cases h with
  | last => simp
  | chunk => simp

theorem chunkEnd_append {eol : Bytes} (heol : IsEol eol) (rest : Bytes) :
    chunkEnd (eol ++ rest) = some (.ok (eol.length, rest)) := by
  rcases heol with rfl | rfl <;> rfl

theorem chunkEnd_proper {eol rest : Bytes} (heol : IsEol eol)
    (hp : p <+: eol ++ rest) (hne : p ≠ eol ++ rest) :
    chunkEnd p = none ∨ ∃ q, p = eol ++ q ∧ q <+: rest ∧ q ≠ rest := by
  rcases le_or_gt eol.length p.length with hlong | hshort
  · exact .inr (properPrefix_of_length_le hp hne hlong)
  · left
    rw [prefix_iff_eq_take.mp hp]
    rcases heol with rfl | rfl
    · have hlen : p.length = 0 := by simpa using hshort
      rw [hlen]
      rfl
    · have hlen : p.length = 0 ∨ p.length = 1 := by
        simp only [length_cons, length_nil] at hshort
        omega
      rcases hlen with hlen | hlen
      · rw [hlen]
        rfl
      · rw [hlen]
        rfl

theorem skipTrailers_append (h : LineBlock trailers message) (d more : Bytes)
    (pos : ℕ) (hfuel : message.length < fuel) :
    skipTrailers d fuel pos (message ++ more) = ⟨1, d, d.length, pos + message.length⟩ := by
  induction h generalizing fuel pos with
  | @blank line hline hblank =>
    obtain ⟨fuel, rfl⟩ := Nat.exists_eq_add_one_of_ne_zero (Nat.ne_zero_of_lt hfuel)
    rw [append_assoc, singleton_append, skipTrailers, splitByte_append hline]
    simp [hblank]
  | @line line rest _ hline hfull _ ih =>
    obtain ⟨fuel, rfl⟩ := Nat.exists_eq_add_one_of_ne_zero (Nat.ne_zero_of_lt hfuel)
    rw [length_append, length_cons] at hfuel
    rw [append_assoc, cons_append, skipTrailers, splitByte_append hline]
    simp only [if_neg hfull]
    rw [ih (pos + (line.length + 1)) (by omega), length_append, length_cons]
    congr 1
    omega

theorem skipTrailers_proper (h : LineBlock trailers message) (d : Bytes)
    (fuel pos : ℕ) (hp : p <+: message) (hne : p ≠ message) :
    skipTrailers d fuel pos p = .incomplete d 0 := by
  induction h generalizing fuel pos p with
  | @blank line hline hblank =>
    cases fuel with
    | zero => rfl
    | succ fuel =>
      rcases properPrefix_line hline hp hne with hopen | ⟨q, -, hq, hnil⟩
      · rw [skipTrailers, splitByte_eq_none_iff.mpr hopen]
      · exact absurd (prefix_nil.mp hq) hnil
  | @line line rest _ hline hfull _ ih =>
    cases fuel with
    | zero => rfl
    | succ fuel =>
      rcases properPrefix_line hline hp hne with hopen | ⟨q, rfl, hq, hne'⟩
      · rw [skipTrailers, splitByte_eq_none_iff.mpr hopen]
      · rw [skipTrailers, splitByte_append hline]
        simp only [if_neg hfull]
        exact ih fuel _ hq hne'

theorem block_of_skipTrailers {rest : Bytes} (h : (skipTrailers d fuel pos rest).rc = 1) :
    ∃ trailers message more, LineBlock trailers message ∧ rest = message ++ more := by
  induction fuel generalizing pos rest with
  | zero => cases h
  | succ fuel ih =>
    rw [skipTrailers] at h
    split at h
    next => cases h
    next line rest' hsplit =>
      obtain ⟨rfl, hline⟩ := eq_of_splitByte hsplit
      simp only at h
      split at h
      next hblank => exact ⟨[], line ++ [10], rest', .blank hline hblank, by simp⟩
      next hfull =>
        obtain ⟨trailers, message, more, htrail, rfl⟩ := ih h
        exact ⟨line :: trailers, line ++ 10 :: message, more, .line hline hfull htrail, by simp⟩

theorem eol_of_chunkEnd {bs rest : Bytes} {n : ℕ} (h : chunkEnd bs = some (.ok (n, rest))) :
    ∃ eol, IsEol eol ∧ bs = eol ++ rest := by
  unfold chunkEnd at h
  split at h
  next => cases h
  next =>
    cases h
    exact ⟨[10], .inl rfl, rfl⟩
  next => cases h
  next =>
    cases h
    exact ⟨[13, 10], .inr rfl, rfl⟩
  next => cases h

theorem chunks_of_decodeChunks {rest : Bytes} (h : (decodeChunks fuel pos d rest).rc = 1) :
    ∃ message out more, Chunks message out ∧ rest = message ++ more := by
  fun_induction decodeChunks fuel pos d rest with
  | case1 | case2 | case3 | case5 | case6 | case7 => cases h
  | case4 fuel pos d rest line rest' hsplit pos' hzero =>
    obtain ⟨rfl, hline⟩ := eq_of_splitByte hsplit
    obtain ⟨trailers, message, more, htrail, rfl⟩ := block_of_skipTrailers h
    exact ⟨line ++ 10 :: message, [], more, .last hline hzero htrail, by simp⟩
  | case8 fuel pos d rest line rest' hsplit chunk hsize pos' hpos hlong d' n rest'' hend ih =>
    obtain ⟨rfl, hline⟩ := eq_of_splitByte hsplit
    obtain ⟨message, out, more, hchunks, rfl⟩ := ih h
    obtain ⟨eol, heol, hdrop⟩ := eol_of_chunkEnd hend
    have hlen : (rest'.take chunk).length = chunk := length_take_of_le (not_lt.mp hlong)
    refine ⟨line ++ 10 :: (rest'.take chunk ++ (eol ++ message)),
      rest'.take chunk ++ out, more, ?_, ?_⟩
    · refine .chunk hline (hlen.symm ▸ hsize) ?_ heol hchunks
      intro hnil
      rw [hnil, length_nil] at hlen
      exact hpos hlen.symm
    · have hcut := take_append_drop chunk rest'
      rw [hdrop] at hcut
      simp [hcut]

theorem Chunks.decodeChunks_append (h : Chunks message out) (d more : Bytes)
    (pos : ℕ) (hfuel : message.length < fuel) :
    decodeChunks fuel pos d (message ++ more) =
      ⟨1, d ++ out, (d ++ out).length, pos + message.length⟩ := by
  induction h generalizing fuel pos d with
  | @last line rest _ hline hzero htrail =>
    obtain ⟨fuel, rfl⟩ := Nat.exists_eq_add_one_of_ne_zero (Nat.ne_zero_of_lt hfuel)
    rw [length_append, length_cons] at hfuel
    rw [append_assoc, cons_append, decodeChunks, splitByte_append hline]
    simp only [hzero, if_true]
    rw [skipTrailers_append htrail d more _ (by omega), append_nil, length_append, length_cons]
    congr 1
    omega
  | @chunk line data eol rest out hline hsize hdata heol _ ih =>
    obtain ⟨fuel, rfl⟩ := Nat.exists_eq_add_one_of_ne_zero (Nat.ne_zero_of_lt hfuel)
    have hpos : data.length ≠ 0 := fun h => hdata (length_eq_zero_iff.mp h)
    simp only [length_append, length_cons] at hfuel
    simp only [append_assoc, cons_append]
    rw [decodeChunks, splitByte_append hline]
    simp only [hsize, if_neg hpos, length_append]
    rw [if_neg (by omega), take_left, drop_left]
    simp only [chunkEnd_append heol]
    rw [ih _ _ (by omega)]
    simp only [append_assoc, length_append, length_cons]
    congr 1
    omega

theorem Chunks.decodeChunks_proper (h : Chunks message out) (d : Bytes)
    (fuel pos : ℕ) (hp : p <+: message) (hne : p ≠ message) :
    ∃ d' consumed, decodeChunks fuel pos d p = .incomplete d' consumed ∧
      d'.length ≤ d.length + out.length := by
  induction h generalizing fuel pos d p with
  | @last line rest _ hline hzero htrail =>
    cases fuel with
    | zero => exact ⟨d, 0, rfl, Nat.le_add_right _ _⟩
    | succ fuel =>
      rcases properPrefix_line hline hp hne with hopen | ⟨q, rfl, hq, hne'⟩
      · rw [decodeChunks, splitByte_eq_none_iff.mpr hopen]
        exact ⟨d, pos, rfl, Nat.le_add_right _ _⟩
      · rw [decodeChunks, splitByte_append hline]
        simp only [hzero, if_true]
        rw [skipTrailers_proper htrail d fuel _ hq hne']
        exact ⟨d, 0, rfl, Nat.le_add_right _ _⟩
  | @chunk line data eol rest out hline hsize hdata heol _ ih =>
    have hpos : data.length ≠ 0 := fun h => hdata (length_eq_zero_iff.mp h)
    cases fuel with
    | zero => exact ⟨d, 0, rfl, Nat.le_add_right _ _⟩
    | succ fuel =>
      rcases properPrefix_line hline hp hne with hopen | ⟨q, rfl, hq, hne'⟩
      · rw [decodeChunks, splitByte_eq_none_iff.mpr hopen]
        exact ⟨d, pos, rfl, Nat.le_add_right _ _⟩
      · rw [decodeChunks, splitByte_append hline]
        simp only [hsize, if_neg hpos]
        split
        next => exact ⟨d, 0, rfl, Nat.le_add_right _ _⟩
        next hlong =>
          obtain ⟨r, rfl, hr, hner⟩ := properPrefix_of_length_le hq hne' (not_lt.mp hlong)
          rw [take_left, drop_left]
          rcases chunkEnd_proper heol hr hner with hcut | ⟨s, rfl, hs, hnes⟩
          · rw [hcut]
            refine ⟨d ++ data, 0, rfl, ?_⟩
            simp only [length_append]
            omega
          · rw [chunkEnd_append heol]
            obtain ⟨d', consumed, hresult, hlen⟩ := ih (d ++ data) fuel _ hs hnes
            refine ⟨d', consumed, hresult, ?_⟩
            simp only [length_append] at hlen ⊢
            omega

theorem Chunks.decode_append (h : Chunks message out) (more : Bytes) :
    httpChunkedDecode (message ++ more) = ⟨1, out, out.length, message.length⟩ := by
  rw [httpChunkedDecode, h.decodeChunks_append [] more 0 (by rw [length_append]; omega)]
  simp

/-- A proper start of a message is incomplete, and decodes to no more than the
message does. -/
theorem Chunks.decode_proper (h : Chunks message out) (hp : p <+: message) (hne : p ≠ message) :
    (httpChunkedDecode p).rc = 0 ∧ (httpChunkedDecode p).outLen ≤ out.length := by
  obtain ⟨d', consumed, hresult, hlen⟩ := h.decodeChunks_proper [] (p.length + 1) 0 hp hne
  rw [httpChunkedDecode, hresult]
  rw [length_nil, Nat.zero_add] at hlen
  exact ⟨rfl, hlen⟩

theorem chunks_of_httpChunkedDecode {input : Bytes} (h : (httpChunkedDecode input).rc = 1) :
    ∃ message out more, Chunks message out ∧ input = message ++ more :=
  chunks_of_decodeChunks h

end Decoder

end Codo.Common
