import Codo.Common.Chunked

/-!
# The grammar of chunked messages

A message is a sequence of chunks, each a size line, its data and a line end,
then a size line of zero and trailer lines up to a blank one.  A size line starts
with hexadecimal digits; anything may follow them behind a semicolon, a space or
a tab.

`http_chunked_decode` writes to the buffer it is given, or only measures.  Both
ways it recognises the grammar exactly.
-/

namespace Codo.Common

open Support List Option

/-! ## The decoder with its buffer -/

/-- What a call of `http_chunked_decode` returns and leaves in its outputs. -/
structure DecodedInto where
  rc : ℤ
  outLen : ℕ
  consumed : ℕ
  out : Option Bytes
  deriving DecidableEq

/-- `memcpy(out + decoded, data, n)`, when a buffer is given. -/
def copyOut (out : Option Bytes) (decoded : ℕ) (data : Bytes) : Option Bytes :=
  out.map fun buf => buf.take decoded ++ data ++ buf.drop (decoded + data.length)

def skipTrailersInto (out : Option Bytes) (decoded : ℕ) :
    ℕ → ℕ → Bytes → DecodedInto
  | 0, _, _ => ⟨0, decoded, 0, out⟩
  | fuel + 1, pos, rest =>
    match splitByte 10 rest with
    | none => ⟨0, decoded, 0, out⟩
    | some (line, rest) =>
      let pos := pos + (line.length + 1)
      if stripCr line = [] then ⟨1, decoded, pos, out⟩
      else skipTrailersInto out decoded fuel pos rest

def decodeChunksInto : ℕ → ℕ → ℕ → Option Bytes → Bytes → DecodedInto
  | 0, _, decoded, out, _ => ⟨0, decoded, 0, out⟩
  | fuel + 1, pos, decoded, out, rest =>
    match splitByte 10 rest with
    | none => ⟨0, decoded, pos, out⟩
    | some (line, rest) =>
      match chunkSize (stripCr line) with
      | none => ⟨-1, 0, 0, out⟩
      | some chunk =>
        let pos := pos + (line.length + 1)
        if chunk = 0 then skipTrailersInto out decoded fuel pos rest
        else if rest.length < chunk then ⟨0, decoded, 0, out⟩
        else
          let out := copyOut out decoded (rest.take chunk)
          let decoded := decoded + chunk
          match chunkEnd (rest.drop chunk) with
          | none => ⟨0, decoded, 0, out⟩
          | some (.error _) => ⟨-1, 0, 0, out⟩
          | some (.ok (n, rest)) => decodeChunksInto fuel (pos + chunk + n) decoded out rest

/-- `http_chunked_decode`; `out` is the buffer, or `none` for `NULL`. -/
def httpChunkedDecodeInto (input : Bytes) (out : Option Bytes) : DecodedInto :=
  decodeChunksInto (input.length + 1) 0 0 out input

/-- What a decoding leaves in the outputs: its data stand at the start of the
buffer. -/
def Decoded.into (r : Decoded) (out : Option Bytes) : DecodedInto :=
  ⟨r.rc, r.outLen, r.consumed, out.map fun buf => r.out ++ buf.drop r.out.length⟩

section Buffer

variable {d rest : Bytes} {out : Option Bytes} {fuel pos : ℕ}

theorem map_overwrite (hout : ∀ buf ∈ out, d <+: buf) :
    (out.map fun buf => d ++ buf.drop d.length) = out := by
  cases out with
  | none => rfl
  | some buf =>
    obtain ⟨tail, rfl⟩ := hout buf rfl
    rw [map_some, drop_left]

theorem out_skipTrailers (d rest : Bytes) (fuel pos : ℕ) :
    (skipTrailers d fuel pos rest).out = d ∧ (skipTrailers d fuel pos rest).outLen = d.length := by
  induction fuel generalizing pos rest with
  | zero => exact ⟨rfl, rfl⟩
  | succ fuel ih =>
    rw [skipTrailers]
    split
    · exact ⟨rfl, rfl⟩
    · simp only
      split
      · exact ⟨rfl, rfl⟩
      · exact ih _ _

/-- A run keeps what was decoded, adds no more than the input holds, and reports
no more than it wrote. -/
theorem out_decodeChunks (d rest : Bytes) (fuel pos : ℕ) :
    d <+: (decodeChunks fuel pos d rest).out ∧
      (decodeChunks fuel pos d rest).out.length ≤ d.length + rest.length ∧
      (decodeChunks fuel pos d rest).outLen ≤ (decodeChunks fuel pos d rest).out.length := by
  induction fuel generalizing pos d rest with
  | zero => exact ⟨prefix_rfl, Nat.le_add_right _ _, le_rfl⟩
  | succ fuel ih =>
    rw [decodeChunks]
    split
    next => exact ⟨prefix_rfl, Nat.le_add_right _ _, le_rfl⟩
    next line rest' hsplit =>
    obtain ⟨rfl, -⟩ := eq_of_splitByte hsplit
    split
    next => exact ⟨prefix_rfl, Nat.le_add_right _ _, Nat.zero_le _⟩
    next chunk hsize =>
    simp only
    split
    next =>
      obtain ⟨hout, hlen⟩ := out_skipTrailers d rest' fuel (pos + (line.length + 1))
      rw [hout, hlen]
      exact ⟨prefix_rfl, Nat.le_add_right _ _, le_rfl⟩
    split
    next => exact ⟨prefix_rfl, Nat.le_add_right _ _, le_rfl⟩
    next hlong =>
    have htake : (rest'.take chunk).length = chunk := length_take_of_le (not_lt.mp hlong)
    have hroom : (d ++ rest'.take chunk).length ≤
        d.length + (line ++ 10 :: rest').length := by
      simp only [length_append, length_cons, htake]
      omega
    split
    next => exact ⟨prefix_append _ _, hroom, le_rfl⟩
    next => exact ⟨prefix_append _ _, hroom, Nat.zero_le _⟩
    next n rest'' hend =>
    obtain ⟨hpfx, hlen, hle⟩ := ih (d ++ rest'.take chunk) rest''
      (pos + (line.length + 1) + chunk + n)
    obtain ⟨eol, -, hdrop⟩ := eol_of_chunkEnd hend
    have htotal := congrArg List.length hdrop
    simp only [length_drop, length_append] at htotal
    refine ⟨(prefix_append _ _).trans hpfx, hlen.trans ?_, hle⟩
    simp only [length_append, length_cons, htake]
    omega

theorem skipTrailersInto_eq (hout : ∀ buf ∈ out, d <+: buf) (rest : Bytes) (fuel pos : ℕ) :
    skipTrailersInto out d.length fuel pos rest = (skipTrailers d fuel pos rest).into out := by
  induction fuel generalizing pos rest with
  | zero =>
    rw [skipTrailersInto, skipTrailers, Decoded.into, Decoded.incomplete, map_overwrite hout]
  | succ fuel ih =>
    rw [skipTrailersInto, skipTrailers]
    cases splitByte 10 rest with
    | none => simp only [Decoded.into, Decoded.incomplete, map_overwrite hout]
    | some cut =>
      simp only
      split
      · rw [Decoded.into, map_overwrite hout]
      · exact ih _ _

theorem copyOut_eq (hout : ∀ buf ∈ out, d <+: buf) (data : Bytes) :
    copyOut out d.length data = out.map fun buf => (d ++ data) ++ buf.drop (d ++ data).length := by
  cases out with
  | none => rfl
  | some buf =>
    obtain ⟨tail, rfl⟩ := hout buf rfl
    rw [copyOut, map_some, map_some, take_left, length_append]

/-- What is written later covers what was written before. -/
theorem into_overwrite {r : Decoded} (hpfx : d <+: r.out) :
    r.into (out.map fun buf => d ++ buf.drop d.length) = r.into out := by
  cases out with
  | none => rfl
  | some buf =>
    have hle := hpfx.length_le
    simp only [Decoded.into, map_some]
    rw [drop_append, drop_eq_nil_of_le hle, nil_append, drop_drop, Nat.add_sub_cancel' hle]

/-- With a buffer that has room for the input, the decoder computes what it
computes without one, and the data stand at the start of the buffer. -/
theorem decodeChunksInto_eq (rest : Bytes) (fuel pos : ℕ)
    (hout : ∀ buf ∈ out, d <+: buf ∧ d.length + rest.length ≤ buf.length) :
    decodeChunksInto fuel pos d.length out rest = (decodeChunks fuel pos d rest).into out := by
  induction fuel generalizing pos d out rest with
  | zero =>
    rw [decodeChunksInto, decodeChunks, Decoded.into, Decoded.incomplete,
      map_overwrite fun buf hbuf => (hout buf hbuf).1]
  | succ fuel ih =>
    have hpfx : ∀ buf ∈ out, d <+: buf := fun buf hbuf => (hout buf hbuf).1
    rw [decodeChunksInto, decodeChunks]
    cases hsplit : splitByte 10 rest with
    | none => simp only [Decoded.into, Decoded.incomplete, map_overwrite hpfx]
    | some cut =>
    obtain ⟨line, rest'⟩ := cut
    obtain ⟨rfl, -⟩ := eq_of_splitByte hsplit
    simp only
    cases chunkSize (stripCr line) with
    | none => simp only [Decoded.into, Decoded.malformed, map_overwrite hpfx]
    | some chunk =>
    simp only
    split
    next => exact skipTrailersInto_eq hpfx _ _ _
    split
    next => simp only [Decoded.into, Decoded.incomplete, map_overwrite hpfx]
    next hlong =>
    have htake : (rest'.take chunk).length = chunk := length_take_of_le (not_lt.mp hlong)
    have hlen : d.length + chunk = (d ++ rest'.take chunk).length := by
      rw [length_append, htake]
    rw [copyOut_eq hpfx, hlen]
    cases hend : chunkEnd (rest'.drop chunk) with
    | none => rfl
    | some verdict =>
    cases verdict with
    | error e => rfl
    | ok found =>
    obtain ⟨n, rest''⟩ := found
    simp only
    obtain ⟨eol, -, hdrop⟩ := eol_of_chunkEnd hend
    have htotal := congrArg List.length hdrop
    simp only [length_drop, length_append] at htotal
    have hroom : ∀ buf ∈ out, (d ++ rest'.take chunk).length + rest''.length ≤ buf.length := by
      intro buf hbuf
      have hle := (hout buf hbuf).2
      simp only [length_append, length_cons] at hle
      omega
    rw [ih rest'' (pos + (line.length + 1) + chunk + n) ?_,
      into_overwrite (out_decodeChunks _ _ _ _).1]
    intro buf hbuf
    obtain ⟨buf', hbuf', rfl⟩ := map_eq_some_iff.mp hbuf
    refine ⟨prefix_append _ _, ?_⟩
    have hle := hroom buf' hbuf'
    simp only [length_append, length_drop] at hle ⊢
    omega

theorem httpChunkedDecodeInto_eq (input : Bytes) (out : Option Bytes)
    (hout : ∀ buf ∈ out, input.length ≤ buf.length) :
    httpChunkedDecodeInto input out = (httpChunkedDecode input).into out := by
  refine decodeChunksInto_eq input _ 0 fun buf hbuf => ⟨List.nil_prefix, ?_⟩
  rw [length_nil, Nat.zero_add]
  exact hout buf hbuf

end Buffer

/-! ## Size lines -/

/-- The number that digits denote behind a number. -/
def hexFold (n : ℕ) (digits : Bytes) : ℕ :=
  digits.foldl (fun n b => n * 16 + (hexDigit b).getD 0) n

/-- The number that hexadecimal digits denote. -/
def sizeValue (digits : Bytes) : ℕ :=
  hexFold 0 digits

/-- What may follow the digits of a size line: nothing, or a semicolon, space or
tab and any bytes but a line feed. -/
def IsExtension (ext : Bytes) : Prop :=
  10 ∉ ext ∧ ∀ b ∈ ext.head?, b = 59 ∨ b = 32 ∨ b = 9

/-- A size line that denotes `n`, with its line end. -/
def IsSizeLine (n : ℕ) (line : Bytes) : Prop :=
  ∃ digits ext eol, line = digits ++ (ext ++ eol) ∧ digits ≠ [] ∧
    (∀ b ∈ digits, (hexDigit b).isSome) ∧ sizeValue digits = n ∧ n ≤ sizeMax ∧
    IsExtension ext ∧ IsEol eol

/-- A chunked message and the data it carries. -/
inductive ChunkedBody : Bytes → Bytes → Prop
  | last {line rest : Bytes} {trailers : List Bytes} : IsSizeLine 0 line →
      LineBlock trailers rest → ChunkedBody (line ++ rest) []
  | chunk {line data eol rest out : Bytes} : IsSizeLine data.length line →
      data ≠ [] → IsEol eol → ChunkedBody rest out →
      ChunkedBody (line ++ (data ++ (eol ++ rest))) (data ++ out)

section Sizes

variable {digits ext text line : Bytes} {n : ℕ}

theorem le_hexFold (n : ℕ) (digits : Bytes) : n ≤ hexFold n digits := by
  induction digits generalizing n with
  | nil => exact le_rfl
  | cons b digits ih =>
    refine le_trans ?_ (ih (n * 16 + (hexDigit b).getD 0))
    omega

theorem hexDigit_lt {b : UInt8} {h : ℕ} (hb : hexDigit b = some h) : h < 16 := by
  simp only [hexDigit, UInt8.le_iff_toNat_le] at hb
  split_ifs at hb with hdecimal hlower hupper
  · obtain rfl := some.inj hb
    exact Nat.lt_of_le_of_lt (Nat.sub_le_sub_right hdecimal.2 48) (by decide)
  · obtain rfl := some.inj hb
    exact Nat.lt_of_le_of_lt (Nat.add_le_add_right (Nat.sub_le_sub_right hlower.2 97) 10)
      (by decide)
  · obtain rfl := some.inj hb
    exact Nat.lt_of_le_of_lt (Nat.add_le_add_right (Nat.sub_le_sub_right hupper.2 65) 10)
      (by decide)

/-- The loop over the digits gives up exactly if the number does not fit. -/
theorem hexRun_append (hdigits : ∀ b ∈ digits, (hexDigit b).isSome)
    (hext : ∀ b ∈ ext.head?, hexDigit b = none) (hn : n ≤ sizeMax) :
    hexRun n (digits ++ ext) =
      if hexFold n digits ≤ sizeMax then some (hexFold n digits, ext)
      else none := by
  induction digits generalizing n with
  | nil =>
    rw [nil_append, hexFold, foldl_nil, if_pos hn]
    cases ext with
    | nil => rfl
    | cons b ext => rw [hexRun, hext b rfl]
  | cons b digits ih =>
    obtain ⟨hb, htail⟩ := forall_mem_cons.mp hdigits
    obtain ⟨h, hh⟩ := isSome_iff_exists.mp hb
    have hlt := hexDigit_lt hh
    have hfold : hexFold n (b :: digits) = hexFold (n * 16 + h) digits := by
      rw [hexFold, foldl_cons, hh]
      rfl
    have hmax : sizeMax = 2 ^ 64 - 1 := rfl
    rw [cons_append, hexRun, hh, hfold]
    simp only
    split
    next hover =>
      have hle := le_hexFold (n * 16 + h) digits
      rw [if_neg]
      omega
    next hfits => exact ih htail (by omega)

/-- The size a line denotes, in terms of its digits. -/
theorem chunkSize_eq_some_iff :
    chunkSize text = some n ↔ ∃ digits ext, text = digits ++ ext ∧ digits ≠ [] ∧
        (∀ b ∈ digits, (hexDigit b).isSome) ∧ sizeValue digits = n ∧
        n ≤ sizeMax ∧ ∀ b ∈ ext.head?, b = 59 ∨ b = 32 ∨ b = 9 := by
  have hzero : 0 ≤ sizeMax := Nat.zero_le _
  constructor
  · intro h
    have htext := takeWhile_append_dropWhile (p := fun b => (hexDigit b).isSome) (l := text)
    have hdigits : ∀ b ∈ text.takeWhile fun b => (hexDigit b).isSome,
        (hexDigit b).isSome := fun b hb =>
      mem_takeWhile_imp (p := fun b => (hexDigit b).isSome) hb
    have hstop : ∀ b ∈ (text.dropWhile fun b => (hexDigit b).isSome).head?, hexDigit b = none := by
      intro b hb
      have hnot := List.head?_dropWhile_not (fun b => (hexDigit b).isSome) text
      rw [mem_def.mp hb] at hnot
      simpa using hnot
    generalize text.takeWhile (fun b => (hexDigit b).isSome) = digits at *
    generalize text.dropWhile (fun b => (hexDigit b).isSome) = ext at *
    subst htext
    rw [chunkSize, hexRun_append hdigits hstop hzero] at h
    split at h
    next => cases h
    next chunk rest hrun =>
      split at hrun
      next hfits =>
        obtain ⟨rfl, rfl⟩ := Prod.mk.inj (some.inj hrun)
        split at h
        next => cases h
        next hlen =>
          have hne : digits ≠ [] := by
            rintro rfl
            exact hlen rfl
          split at h
          next =>
            obtain rfl := some.inj h
            exact ⟨digits, [], rfl, hne, hdigits, rfl, hfits, nofun⟩
          next b tail =>
            split at h
            next hb =>
              obtain rfl := some.inj h
              refine ⟨digits, b :: tail, rfl, hne, hdigits, rfl, hfits, ?_⟩
              rintro c hc
              obtain rfl := some.inj hc
              exact hb
            next => cases h
      next => cases hrun
  · rintro ⟨digits, ext, rfl, hne, hdigits, rfl, hfits, hhead⟩
    have hstop : ∀ b ∈ ext.head?, hexDigit b = none := by
      intro b hb
      rcases hhead b hb with rfl | rfl | rfl <;> rfl
    have hpos := length_pos_iff.mpr hne
    have hvalue : hexFold 0 digits ≤ sizeMax := hfits
    rw [chunkSize, hexRun_append hdigits hstop hzero, if_pos hvalue]
    simp only
    rw [if_neg (by rw [length_append]; omega)]
    cases ext with
    | nil => rfl
    | cons b tail => exact if_pos (hhead b rfl)

theorem notMem_of_hexDigit {b : UInt8} (hb : hexDigit b = none)
    (hdigits : ∀ b ∈ digits, (hexDigit b).isSome) : b ∉ digits := by
  intro hmem
  have hsome := hdigits b hmem
  rw [hb] at hsome
  cases hsome

/-- Dropping a carriage return leaves the digits of a size line alone. -/
theorem stripCr_digits (hdigits : ∀ b ∈ digits, (hexDigit b).isSome) (ext : Bytes) :
    ∃ ext', stripCr (digits ++ ext) = digits ++ ext' ∧ ext' <+: ext := by
  rcases eq_nil_or_concat' ext with rfl | ⟨init, b, rfl⟩
  · refine ⟨[], ?_, prefix_rfl⟩
    rw [append_nil, stripCr, if_neg]
    intro hlast
    exact notMem_of_hexDigit rfl hdigits (mem_of_getLast? hlast)
  · rcases eq_stripCr (digits ++ (init ++ [b])) with hkeep | hcut
    · exact ⟨init ++ [b], hkeep.symm, prefix_rfl⟩
    · refine ⟨init, ?_, prefix_append _ _⟩
      rw [← append_assoc] at hcut ⊢
      exact (append_inj' hcut rfl).1.symm

theorem isSizeLine_iff :
    IsSizeLine n line ↔ ∃ front, line = front ++ [10] ∧ 10 ∉ front ∧
        chunkSize (stripCr front) = some n := by
  constructor
  · rintro ⟨digits, ext, eol, rfl, hne, hdigits, hvalue, hfits, ⟨hext, hhead⟩, heol⟩
    have hfeed : (10 : UInt8) ∉ digits := notMem_of_hexDigit rfl hdigits
    have hsize : ∀ ext', ext' <+: ext → chunkSize (digits ++ ext') = some n := by
      rintro ext' ⟨more, rfl⟩
      refine chunkSize_eq_some_iff.mpr ⟨digits, ext', rfl, hne, hdigits, hvalue,
        hfits, fun b hb => hhead b ?_⟩
      rw [List.head?_append, mem_def.mp hb]
      rfl
    rcases heol with rfl | rfl
    · obtain ⟨ext', hstrip, hpfx⟩ := stripCr_digits hdigits ext
      refine ⟨digits ++ ext, by rw [append_assoc], ?_, ?_⟩
      · rw [mem_append, not_or]
        exact ⟨hfeed, hext⟩
      · rw [hstrip]
        exact hsize ext' hpfx
    · refine ⟨digits ++ ext ++ [13], by simp, ?_, ?_⟩
      · simp only [mem_append, not_or]
        exact ⟨⟨hfeed, hext⟩, by decide⟩
      · rw [stripCr_concat]
        exact hsize ext prefix_rfl
  · rintro ⟨front, rfl, hfeed, hsize⟩
    obtain ⟨digits, ext, hstrip, hne, hdigits, hvalue, hfits, hhead⟩ :=
      chunkSize_eq_some_iff.mp hsize
    have hext : (10 : UInt8) ∉ ext := by
      intro hmem
      have hmem' : 10 ∈ stripCr front := hstrip ▸ mem_append_right _ hmem
      rcases eq_stripCr front with heq | heq
      · exact hfeed (heq ▸ hmem')
      · exact hfeed (heq ▸ mem_append_left _ hmem')
    rcases eq_stripCr front with heq | heq
    · refine ⟨digits, ext, [10], ?_, hne, hdigits, hvalue, hfits, ⟨hext, hhead⟩, .inl rfl⟩
      rw [heq, hstrip, append_assoc]
    · refine ⟨digits, ext, [13, 10], ?_, hne, hdigits, hvalue, hfits, ⟨hext, hhead⟩, .inr rfl⟩
      rw [heq, hstrip]
      simp

end Sizes

section Grammar

variable {input message data : Bytes} {out : Option Bytes}

theorem ChunkedBody.chunks (h : ChunkedBody message data) : Chunks message data := by
  induction h with
  | last hline hblock =>
    obtain ⟨front, rfl, hfeed, hsize⟩ := isSizeLine_iff.mp hline
    rw [append_assoc, singleton_append]
    exact .last hfeed hsize hblock
  | chunk hline hdata heol _ ih =>
    obtain ⟨front, rfl, hfeed, hsize⟩ := isSizeLine_iff.mp hline
    rw [append_assoc, singleton_append]
    exact .chunk hfeed hsize hdata heol ih

theorem Chunks.chunkedBody (h : Chunks message data) : ChunkedBody message data := by
  induction h with
  | @last line rest _ hfeed hsize hblock =>
    have hline : IsSizeLine 0 (line ++ [10]) := isSizeLine_iff.mpr ⟨line, rfl, hfeed, hsize⟩
    rw [← singleton_append, ← append_assoc]
    exact .last hline hblock
  | @chunk line data eol rest out hfeed hsize hdata heol _ ih =>
    have hline : IsSizeLine data.length (line ++ [10]) :=
      isSizeLine_iff.mpr ⟨line, rfl, hfeed, hsize⟩
    rw [← singleton_append, ← append_assoc]
    exact .chunk hline hdata heol ih

theorem ChunkedBody.decode (h : ChunkedBody message data) (hpfx : message <+: input) :
    httpChunkedDecode input = ⟨1, data, data.length, message.length⟩ := by
  obtain ⟨more, rfl⟩ := hpfx
  exact h.chunks.decode_append more

theorem rc_eq_one_iff (input : Bytes) :
    (httpChunkedDecode input).rc = 1 ↔
      ∃ message data, ChunkedBody message data ∧ message <+: input := by
  constructor
  · intro h
    obtain ⟨message, data, more, hchunks, rfl⟩ := chunks_of_httpChunkedDecode h
    exact ⟨message, data, hchunks.chunkedBody, prefix_append _ _⟩
  · rintro ⟨message, data, hbody, hpfx⟩
    rw [hbody.decode hpfx]

/-- The decoder recognises the grammar, with a buffer that has room for the
input or without one. -/
theorem chunked_decoder_exact (input : Bytes) (out : Option Bytes)
    (hout : ∀ buf ∈ out, input.length ≤ buf.length) :
    let r := httpChunkedDecodeInto input out
    (r.rc = 1 ↔
      ∃ message data, ChunkedBody message data ∧ message <+: input) ∧
    (r.rc = 1 → ∃ message data, ChunkedBody message data ∧ message <+: input ∧
      (∀ message' data', ChunkedBody message' data' → message' <+: input →
        message.length ≤ message'.length) ∧
      r.consumed = message.length ∧ r.outLen = data.length ∧
      r.out = out.map fun buf => data ++ buf.drop data.length) ∧
    (∀ message data, ChunkedBody message data → input <+: message →
      input ≠ message → r.rc = 0) ∧
    (r.rc, r.outLen, r.consumed) =
      ((httpChunkedDecodeInto input none).rc,
        (httpChunkedDecodeInto input none).outLen,
        (httpChunkedDecodeInto input none).consumed) ∧
    r.outLen ≤ input.length := by
  simp only [httpChunkedDecodeInto_eq input out hout,
    httpChunkedDecodeInto_eq input none nofun, Decoded.into]
  refine ⟨rc_eq_one_iff input, ?_, ?_, trivial, ?_⟩
  · intro h
    obtain ⟨message, data, hbody, hpfx⟩ := (rc_eq_one_iff input).mp h
    rw [hbody.decode hpfx]
    refine ⟨message, data, hbody, hpfx, ?_, rfl, rfl, rfl⟩
    intro message' data' hbody' hpfx'
    have hsame := hbody'.decode hpfx'
    rw [hbody.decode hpfx] at hsame
    exact (congrArg Decoded.consumed hsame).le
  · intro message data hbody hpfx hne
    exact (hbody.chunks.decode_proper hpfx hne).1
  · obtain ⟨-, hlen, hle⟩ := out_decodeChunks [] input (input.length + 1) 0
    rw [length_nil, Nat.zero_add] at hlen
    exact hle.trans hlen

/-- One chunk of five bytes with an extension, and a trailer line. -/
def helloMessage : Bytes :=
  ascii "5;a=b\r\nhello\r\n0\r\nX: y\r\n\r\n"

theorem chunked_decoder_exact_hello :
    (httpChunkedDecodeInto helloMessage
        (some (List.replicate 40 0))).rc = 1 ∧
      ∃ message data, ChunkedBody message data ∧ message <+: helloMessage :=
  ⟨by decide, (chunked_decoder_exact helloMessage (some (List.replicate 40 0))
    (by decide)).1.mp (by decide)⟩

end Grammar

end Codo.Common
