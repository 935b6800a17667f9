import Codo.Support.CString

/-!
# Unpadded base64url

The encoder and the decoder of `jwt.c`.  Both write into a buffer of `outSize`
bytes and fail where it is too small; `o` is the number of bytes written so far.
`b64urlText` is what the encoder writes when there is room, and the decoder
reads it back.
-/

namespace Codo.Server

open Codo.Support List

variable {outSize : ℕ} {bytes : Bytes}

def b64url : Bytes :=
  ascii "ABCDEFGHIJKLMNOPQRSTUVWXYZabcdefghijklmnopqrstuvwxyz0123456789-_"

/-- The character for the low six bits of a word. -/
def b64urlChar (v : ℕ) : UInt8 :=
  b64url.getD (v % 64) 0

/-- Three bytes side by side.  At the end of the input the missing ones are
zero. -/
def word (a b c : UInt8) : ℕ :=
  a.toNat * 2 ^ 16 + b.toNat * 2 ^ 8 + c.toNat

/-- The loop of `b64url_encode`. -/
def encodeFrom (outSize : ℕ) : ℕ → Bytes → Option Bytes
  | o, a :: b :: c :: rest =>
    if outSize ≤ o + 4 then none
    else (encodeFrom outSize (o + 4) rest).map fun out =>
      b64urlChar (word a b c / 2 ^ 18) :: b64urlChar (word a b c / 2 ^ 12) ::
        b64urlChar (word a b c / 2 ^ 6) :: b64urlChar (word a b c) :: out
  | o, [a, b] =>
    if outSize ≤ o + 3 then none
    else some [b64urlChar (word a b 0 / 2 ^ 18),
      b64urlChar (word a b 0 / 2 ^ 12), b64urlChar (word a b 0 / 2 ^ 6)]
  | o, [a] =>
    if outSize ≤ o + 2 then none
    else some [b64urlChar (word a 0 0 / 2 ^ 18), b64urlChar (word a 0 0 / 2 ^ 12)]
  | o, [] => if outSize ≤ o then none else some []

/-- `b64url_encode` into a buffer of `outSize` bytes. -/
def b64urlEncode (outSize : ℕ) (bytes : Bytes) : Option Bytes :=
  encodeFrom outSize 0 bytes

def b64urlValue (c : UInt8) : Option ℕ :=
  if 65 ≤ c ∧ c ≤ 90 then some (c.toNat - 65)
  else if 97 ≤ c ∧ c ≤ 122 then some (c.toNat - 97 + 26)
  else if 48 ≤ c ∧ c ≤ 57 then some (c.toNat - 48 + 52)
  else if c = 45 then some 62
  else if c = 95 then some 63
  else none

/-- The loop of `b64url_decode`.  The accumulator is a 32-bit word; of what is
shifted into it only the last `bits` bits are still to be written. -/
def decodeFrom (outSize : ℕ) : ℕ → ℕ → ℕ → Bytes → Option Bytes
  | _, _, _, [] => some []
  | o, acc, bits, c :: rest =>
    match b64urlValue c with
    | none => none
    | some v =>
      let acc := (acc * 2 ^ 6 + v) % 2 ^ 32
      let bits := bits + 6
      if 8 ≤ bits then
        if outSize ≤ o then none
        else (decodeFrom outSize (o + 1) acc (bits - 8) rest).map
          (UInt8.ofNat (acc / 2 ^ (bits - 8)) :: ·)
      else decodeFrom outSize o acc bits rest

/-- `b64url_decode` into a buffer of `outSize` bytes. -/
def b64urlDecode (outSize : ℕ) (text : Bytes) : Option Bytes :=
  if text.length % 4 = 1 then none else decodeFrom outSize 0 0 0 text

/-! ## The text of a byte string -/

/-- The unpadded base64url text of a byte string. -/
def b64urlText : Bytes → Bytes
  | a :: b :: c :: rest =>
    b64urlChar (word a b c / 2 ^ 18) :: b64urlChar (word a b c / 2 ^ 12) ::
      b64urlChar (word a b c / 2 ^ 6) :: b64urlChar (word a b c) :: b64urlText rest
  | [a, b] => [b64urlChar (word a b 0 / 2 ^ 18),
      b64urlChar (word a b 0 / 2 ^ 12), b64urlChar (word a b 0 / 2 ^ 6)]
  | [a] => [b64urlChar (word a 0 0 / 2 ^ 18), b64urlChar (word a 0 0 / 2 ^ 12)]
  | [] => []

theorem length_b64urlText (bytes : Bytes) :
    (b64urlText bytes).length = (4 * bytes.length + 2) / 3 := by
  fun_induction b64urlText bytes with
  | case1 a b c rest ih =>
    simp only [length_cons, ih]
    omega
  | case2 a b => simp
  | case3 a => simp
  | case4 => rfl

/-- The encoder writes the text, and the closing zero byte must fit as well. -/
theorem encodeFrom_eq (outSize : ℕ) (bytes : Bytes) : ∀ o, encodeFrom outSize o bytes =
      if o + (b64urlText bytes).length < outSize then some (b64urlText bytes)
      else none := by
  fun_induction b64urlText bytes with
  | case1 a b c rest ih =>
    intro o
    rw [encodeFrom, ih]
    simp only [length_cons]
    split_ifs with h4 hlong hshort
    · omega
    · rfl
    · rfl
    · omega
    · omega
    · rfl
  | case2 a b =>
    intro o
    simp only [encodeFrom, length_cons, length_nil, ← not_lt, ite_not]
  | case3 a =>
    intro o
    simp only [encodeFrom, length_cons, length_nil, ← not_lt, ite_not]
  | case4 =>
    intro o
    simp only [encodeFrom, length_nil, Nat.add_zero, ← not_lt, ite_not]

theorem b64urlEncode_eq_some (h : (4 * bytes.length + 2) / 3 < outSize) :
    b64urlEncode outSize bytes = some (b64urlText bytes) := by
  rw [b64urlEncode, encodeFrom_eq, length_b64urlText, Nat.zero_add, if_pos h]

/-! ## Reading it back -/

theorem b64urlValue_char (v : ℕ) : b64urlValue (b64urlChar v) = some (v % 64) := by
  have hall : ∀ w < 64, b64urlValue (b64url.getD w 0) = some w := by decide +kernel
  exact hall (v % 64) (Nat.mod_lt v (by decide))

theorem b64urlChar_ne (v : ℕ) : b64urlChar v ≠ 46 ∧ b64urlChar v ≠ 0 := by
  have hvalue := b64urlValue_char v
  constructor
  · intro h
    rw [h] at hvalue
    exact nomatch hvalue
  · intro h
    rw [h] at hvalue
    exact nomatch hvalue

theorem ne_of_mem_b64urlText : ∀ c ∈ b64urlText bytes, c ≠ 46 ∧ c ≠ 0 := by
  fun_induction b64urlText bytes with
  | case1 a b c rest ih =>
    simp only [forall_mem_cons]
    exact ⟨b64urlChar_ne _, b64urlChar_ne _, b64urlChar_ne _, b64urlChar_ne _, ih⟩
  | case2 a b =>
    simp only [forall_mem_cons]
    exact ⟨b64urlChar_ne _, b64urlChar_ne _, b64urlChar_ne _, nofun⟩
  | case3 a =>
    simp only [forall_mem_cons]
    exact ⟨b64urlChar_ne _, b64urlChar_ne _, nofun⟩
  | case4 => exact nofun

section Decode

variable {outSize o acc bits : ℕ}

theorem decodeFrom_keep (hbits : bits < 2) (v : ℕ) (rest : Bytes) :
    decodeFrom outSize o acc bits (b64urlChar v :: rest) =
      decodeFrom outSize o ((acc * 2 ^ 6 + v % 64) % 2 ^ 32) (bits + 6) rest := by
  rw [decodeFrom, b64urlValue_char]
  exact if_neg (by omega)

theorem decodeFrom_emit (hbits : 2 ≤ bits) (ho : o < outSize) (v : ℕ) {b : UInt8} (rest : Bytes)
    (hb : (acc * 2 ^ 6 + v % 64) % 2 ^ 32 / 2 ^ (bits + 6 - 8) % 256 = b.toNat) :
    decodeFrom outSize o acc bits (b64urlChar v :: rest) =
      (decodeFrom outSize (o + 1) ((acc * 2 ^ 6 + v % 64) % 2 ^ 32)
        (bits + 6 - 8) rest).map (b :: ·) := by
  have hbyte : UInt8.ofNat ((acc * 2 ^ 6 + v % 64) % 2 ^ 32 / 2 ^ (bits + 6 - 8)) = b := by
    rw [← UInt8.toNat_inj, UInt8.toNat_ofNat']
    exact hb
  rw [decodeFrom, b64urlValue_char]
  dsimp only
  rw [if_pos (by omega), if_neg (by omega), hbyte]

theorem decodeFrom_first (ho : o < outSize) (a b c : UInt8) (rest : Bytes) :
    ∃ acc', acc' % 16 = b.toNat / 16 ∧
      decodeFrom outSize o acc 0 (b64urlChar (word a b c / 2 ^ 18) ::
          b64urlChar (word a b c / 2 ^ 12) :: rest) =
        (decodeFrom outSize (o + 1) acc' 4 rest).map (a :: ·) := by
  have ha := a.toNat_lt
  have hb := b.toNat_lt
  have hc := c.toNat_lt
  refine ⟨_, ?_, (decodeFrom_keep (by decide) _ _).trans (decodeFrom_emit (by decide) ho _ _ ?_)⟩
  · rw [word]
    omega
  · rw [word]
    omega

theorem decodeFrom_second (ho : o < outSize) (a b c : UInt8) (rest : Bytes)
    (hacc : acc % 16 = b.toNat / 16) :
    ∃ acc', acc' % 4 = c.toNat / 64 ∧
      decodeFrom outSize o acc 4 (b64urlChar (word a b c / 2 ^ 6) :: rest) =
        (decodeFrom outSize (o + 1) acc' 2 rest).map (b :: ·) := by
  have hb := b.toNat_lt
  have hc := c.toNat_lt
  refine ⟨_, ?_, decodeFrom_emit (by decide) ho _ _ ?_⟩
  · rw [word]
    omega
  · rw [word]
    omega

theorem decodeFrom_third (ho : o < outSize) (a b c : UInt8) (rest : Bytes)
    (hacc : acc % 4 = c.toNat / 64) :
    ∃ acc', decodeFrom outSize o acc 2 (b64urlChar (word a b c) :: rest) =
      (decodeFrom outSize (o + 1) acc' 0 rest).map (c :: ·) := by
  have hc := c.toNat_lt
  refine ⟨_, decodeFrom_emit (by decide) ho _ _ ?_⟩
  rw [word]
  omega

end Decode

/-- The decoder reads the text of a byte string back, whatever bits it has
shifted through before. -/
theorem decodeFrom_b64urlText (bytes : Bytes) : ∀ o acc, o + bytes.length ≤ outSize →
      decodeFrom outSize o acc 0 (b64urlText bytes) = some bytes := by
  fun_induction b64urlText bytes with
  | case1 a b c rest ih =>
    intro o acc hle
    simp only [length_cons] at hle
    obtain ⟨acc₁, h₁, hfirst⟩ := decodeFrom_first (show o < outSize by omega) a b c _
    obtain ⟨acc₂, h₂, hsecond⟩ := decodeFrom_second (show o + 1 < outSize by omega) a b c _ h₁
    obtain ⟨acc₃, hthird⟩ := decodeFrom_third (show o + 1 + 1 < outSize by omega) a b c _ h₂
    rw [hfirst, hsecond, hthird, ih _ _ (by omega)]
    rfl
  | case2 a b =>
    intro o acc hle
    simp only [length_cons, length_nil] at hle
    obtain ⟨acc₁, h₁, hfirst⟩ := decodeFrom_first (show o < outSize by omega) a b 0 _
    obtain ⟨acc₂, -, hsecond⟩ := decodeFrom_second (show o + 1 < outSize by omega) a b 0 _ h₁
    rw [hfirst, hsecond]
    rfl
  | case3 a =>
    intro o acc hle
    obtain ⟨acc₁, -, hfirst⟩ := decodeFrom_first hle a 0 0 _
    rw [hfirst]
    rfl
  | case4 => exact fun _ _ _ => rfl

theorem b64urlDecode_b64urlText (h : bytes.length ≤ outSize) :
    b64urlDecode outSize (b64urlText bytes) = some bytes := by
  have hlen : (b64urlText bytes).length % 4 ≠ 1 := by
    rw [length_b64urlText]
    omega
  rw [b64urlDecode, if_neg hlen]
  exact decodeFrom_b64urlText bytes 0 0 (by omega)

/-! ## Every text that decodes -/

/-- A character with the low `k` of its six bits cleared. -/
def clearBits (k : ℕ) (c : UInt8) : UInt8 :=
  b64urlChar ((b64urlValue c).getD 0 / 2 ^ k * 2 ^ k)

/-- A text without the bits of its last character that belong to no byte. -/
def clearUnused : Bytes → Bytes
  | a :: b :: c :: d :: rest => a :: b :: c :: d :: clearUnused rest
  | [a, b, c] => [a, b, clearBits 2 c]
  | [a, b] => [a, clearBits 4 b]
  | text => text

theorem length_clearUnused (text : Bytes) : (clearUnused text).length = text.length := by
  fun_induction clearUnused text <;> simp_all

theorem b64urlChar_congr {v w : ℕ} (h : v % 64 = w % 64) : b64urlChar v = b64urlChar w := by
  rw [b64urlChar, b64urlChar, h]

theorem clearBits_char (k v : ℕ) :
    clearBits k (b64urlChar v) = b64urlChar (v % 64 / 2 ^ k * 2 ^ k) := by
  rw [clearBits, b64urlValue_char, Option.getD_some]

theorem exists_b64urlChar {c : UInt8} (h : c ∈ b64url) : ∃ v, c = b64urlChar v := by
  have hall : ∀ c ∈ b64url, ∃ v < 64, c = b64urlChar v := by decide +kernel
  obtain ⟨v, -, hv⟩ := hall c h
  exact ⟨v, hv⟩

theorem mem_b64url {c : UInt8} (h : b64urlValue c ≠ none) : c ∈ b64url := by
  have hall : ∀ n < 256, b64urlValue (UInt8.ofNat n) ≠ none → UInt8.ofNat n ∈ b64url := by
    decide +kernel
  have hc := hall c.toNat c.toNat_lt
  rw [UInt8.ofNat_toNat] at hc
  exact hc h

/-- What a successful run has read and written, and that any buffer will do in
which the bytes fit. -/
theorem decodeFrom_eq_some {text out : Bytes} {o acc bits : ℕ}
    (h : decodeFrom outSize o acc bits text = some out) :
    text ⊆ b64url ∧ (o ≤ outSize → o + out.length ≤ outSize) ∧ ∀ size, o + out.length ≤ size →
        decodeFrom size o acc bits text = some out := by
  induction text generalizing out o acc bits with
  | nil =>
    cases h
    exact ⟨nil_subset _, id, fun _ _ => rfl⟩
  | cons c rest ih =>
    rw [cons_subset]
    simp only [decodeFrom] at h ⊢
    cases hv : b64urlValue c with
    | none =>
      rw [hv] at h
      cases h
    | some v =>
      have hc : c ∈ b64url := mem_b64url (by rw [hv]; exact nofun)
      rw [hv] at h
      dsimp only at h ⊢
      split_ifs at h ⊢ with h8 hfull
      · obtain ⟨tail, htail, rfl⟩ := Option.map_eq_some_iff.mp h
        obtain ⟨hrest, hroom, hsize⟩ := ih htail
        rw [length_cons]
        refine ⟨⟨hc, hrest⟩, fun _ => by have := hroom (by omega); omega, ?_⟩
        intro size hle
        rw [if_neg (by omega), hsize size (by omega), Option.map_some]
      · obtain ⟨hrest, hroom, hsize⟩ := ih h
        exact ⟨⟨hc, hrest⟩, hroom, hsize⟩

/-- Four characters of the alphabet are those of three bytes. -/
theorem exists_word (x y z w : ℕ) : ∃ a b c : UInt8,
    b64urlChar x = b64urlChar (word a b c / 2 ^ 18) ∧
      b64urlChar y = b64urlChar (word a b c / 2 ^ 12) ∧
      b64urlChar z = b64urlChar (word a b c / 2 ^ 6) ∧ b64urlChar w = b64urlChar (word a b c) := by
  refine ⟨UInt8.ofNat (x * 4 + y % 64 / 16), UInt8.ofNat (y * 16 + z % 64 / 4),
    UInt8.ofNat (z * 64 + w % 64), b64urlChar_congr ?_, b64urlChar_congr ?_,
    b64urlChar_congr ?_, b64urlChar_congr ?_⟩
  all_goals
    simp only [word, UInt8.toNat_ofNat']
    omega

/-- The words of one and of two bytes, and the unused bits behind them. -/
theorem word_zero (a b c : UInt8) :
    (word a b 0 / 2 ^ 18 = word a b c / 2 ^ 18 ∧ word a b 0 / 2 ^ 12 = word a b c / 2 ^ 12 ∧
      word a b 0 / 2 ^ 6 % 64 = word a b c / 2 ^ 6 % 64 / 2 ^ 2 * 2 ^ 2 % 64) ∧
    word a 0 0 / 2 ^ 18 = word a b c / 2 ^ 18 ∧
      word a 0 0 / 2 ^ 12 % 64 = word a b c / 2 ^ 12 % 64 / 2 ^ 4 * 2 ^ 4 % 64 := by
  have hb := b.toNat_lt
  have hc := c.toNat_lt
  simp only [word, UInt8.toNat_zero]
  omega

/-- A text over the alphabet decodes, to the bytes whose text it is up to the
bits that belong to no byte. -/
theorem exists_decodeFrom (text : Bytes) : ∀ o acc, text ⊆ b64url →
    text.length % 4 ≠ 1 → o + text.length ≤ outSize →
      ∃ bytes, decodeFrom outSize o acc 0 text = some bytes ∧
        b64urlText bytes = clearUnused text := by
  fun_induction clearUnused text with
  | case1 p q r s rest ih =>
    intro o acc hchars hlen hroom
    simp only [cons_subset, length_cons] at hchars hlen hroom
    obtain ⟨hp, hq, hr, hs, hrest⟩ := hchars
    obtain ⟨x, rfl⟩ := exists_b64urlChar hp
    obtain ⟨y, rfl⟩ := exists_b64urlChar hq
    obtain ⟨z, rfl⟩ := exists_b64urlChar hr
    obtain ⟨w, rfl⟩ := exists_b64urlChar hs
    obtain ⟨a, b, c, hp, hq, hr, hs⟩ := exists_word x y z w
    obtain ⟨acc₁, h₁, hfirst⟩ := decodeFrom_first (show o < outSize by omega) a b c _
    obtain ⟨acc₂, h₂, hsecond⟩ := decodeFrom_second (show o + 1 < outSize by omega) a b c _ h₁
    obtain ⟨acc₃, hthird⟩ := decodeFrom_third (show o + 1 + 1 < outSize by omega) a b c _ h₂
    obtain ⟨bytes, hdecode, htext⟩ := ih (o + 1 + 1 + 1) acc₃ hrest (by omega) (by omega)
    rw [hp, hq, hr, hs, hfirst, hsecond, hthird, hdecode]
    exact ⟨_, rfl, by rw [b64urlText, htext]⟩
  | case2 p q r =>
    intro o acc hchars _ hroom
    simp only [cons_subset, length_cons] at hchars hroom
    obtain ⟨hp, hq, hr, -⟩ := hchars
    obtain ⟨x, rfl⟩ := exists_b64urlChar hp
    obtain ⟨y, rfl⟩ := exists_b64urlChar hq
    obtain ⟨z, rfl⟩ := exists_b64urlChar hr
    obtain ⟨a, b, c, hp, hq, hr, -⟩ := exists_word x y z 0
    obtain ⟨⟨h18, h12, h6⟩, -⟩ := word_zero a b c
    obtain ⟨acc₁, h₁, hfirst⟩ := decodeFrom_first (show o < outSize by omega) a b c _
    obtain ⟨acc₂, -, hsecond⟩ := decodeFrom_second (show o + 1 < outSize by omega) a b c _ h₁
    rw [hp, hq, hr, hfirst, hsecond, clearBits_char]
    exact ⟨[a, b], rfl, by rw [b64urlText, h18, h12, b64urlChar_congr h6]⟩
  | case3 p q =>
    intro o acc hchars _ hroom
    simp only [cons_subset, length_cons] at hchars hroom
    obtain ⟨x, rfl⟩ := exists_b64urlChar hchars.1
    obtain ⟨y, rfl⟩ := exists_b64urlChar hchars.2.1
    obtain ⟨a, b, c, hp, hq, -⟩ := exists_word x y 0 0
    obtain ⟨-, h18, h12⟩ := word_zero a b c
    obtain ⟨acc₁, -, hfirst⟩ := decodeFrom_first (show o < outSize by omega) a b c _
    rw [hp, hq, hfirst, clearBits_char]
    exact ⟨[a], rfl, by rw [b64urlText, h18, b64urlChar_congr h12]⟩
  | case4 text h4 h3 h2 =>
    intro o acc _ hlen _
    match text with
    | [] => exact ⟨[], rfl, rfl⟩
    | [_] => exact absurd rfl hlen
    | [a, b] => exact absurd rfl (h2 a b)
    | [a, b, c] => exact absurd rfl (h3 a b c)
    | a :: b :: c :: d :: rest => exact absurd rfl (h4 a b c d rest)

/-- What `b64url_decode` accepts, and what it makes of it. -/
theorem b64urlDecode_eq_some_iff {text : Bytes} :
    b64urlDecode outSize text = some bytes ↔ text ⊆ b64url ∧ clearUnused text = b64urlText bytes ∧
        bytes.length ≤ outSize := by
  rw [b64urlDecode]
  constructor
  · intro h
    split_ifs at h with hlen
    obtain ⟨hchars, hroom, hsize⟩ := decodeFrom_eq_some h
    obtain ⟨bytes', hdecode, htext⟩ :=
      @exists_decodeFrom (text.length + bytes.length) text 0 0 hchars hlen (by omega)
    rw [hsize _ (by omega)] at hdecode
    cases hdecode
    exact ⟨hchars, htext.symm, by simpa using hroom⟩
  · rintro ⟨hchars, htext, hle⟩
    have hlen : text.length % 4 ≠ 1 := by
      rw [← length_clearUnused, htext, length_b64urlText]
      omega
    obtain ⟨bytes', hdecode, htext'⟩ :=
      @exists_decodeFrom text.length text 0 0 hchars hlen (by omega)
    have hbytes := b64urlDecode_b64urlText (le_max_left bytes'.length bytes.length)
    rw [htext', htext, b64urlDecode_b64urlText (le_max_right _ _)] at hbytes
    cases hbytes
    rw [if_neg hlen]
    exact (decodeFrom_eq_some hdecode).2.2 outSize (by omega)

end Codo.Server
