import Codo.Common.NetAddress
import Codo.Common.HttpTypes

/-!
# Flat JSON objects

`json_util.c`: the reader and the escaper for the one-level objects the server
stores and accepts.  A pointer into a body is the list of the bytes from there
to the end of the body.

The reader walks an object one string at a time, so a text inside a string
value is never taken for a key.  The lemmas say what it finds in an object that
was written with `json_escape`.
-/

namespace Codo.Common

open Support List

/-! ## The reader -/

/-- A space, tab, line feed or carriage return. -/
def isWs (b : UInt8) : Bool :=
  b == 32 || b == 9 || b == 10 || b == 13

def skipWs (p : Bytes) : Bytes :=
  p.dropWhile isWs

/-- From behind an opening quote to the unescaped closing quote: the raw text
and what follows the closing quote. -/
def scanString : Bytes → Option (Bytes × Bytes)
  | [] => none
  | b :: rest =>
    if b = 34 then some ([], rest)
    else if b = 92 then
      match rest with
      | [] => none
      | c :: rest => (scanString rest).map fun r => (b :: c :: r.1, r.2)
    else (scanString rest).map fun r => (b :: r.1, r.2)

/-- The walk of `json_find_field` from `p`, with fuel for each byte. -/
def findFieldFrom (field : Bytes) : ℕ → Bytes → Option Bytes
  | 0, _ => none
  | _ + 1, [] => none
  | fuel + 1, b :: rest =>
    if b ≠ 34 then findFieldFrom field fuel rest
    else
      match scanString rest with
      | none => none
      | some (str, next) =>
        -- a key is a string followed by a colon
        if (skipWs next).head? = some 58 ∧ str = field then
          some (skipWs (skipWs next).tail)
        else findFieldFrom field fuel next

def jsonFindField (body field : Bytes) : Option Bytes :=
  findFieldFrom field body.length body

/-- The character a one-letter escape stands for. -/
def unescapeByte (c : UInt8) : UInt8 :=
  if c = 110 then 10
  else if c = 114 then 13
  else if c = 116 then 9
  else if c = 98 then 8
  else if c = 102 then 12
  else c

/-- The copy loop of `json_get_string` from behind the opening quote.  The four
digits of a `\u` escape are skipped when they are all there. -/
def readString : Bytes → Option Bytes
  | [] => none
  | b :: rest =>
    if b = 34 then some []
    else if b = 92 then
      match rest with
      | [] => none
      | 117 :: _ :: _ :: _ :: _ :: rest => (readString rest).map (63 :: ·)
      | 117 :: rest => (readString rest).map (63 :: ·)
      | c :: rest => (readString rest).map (unescapeByte c :: ·)
    else (readString rest).map (b :: ·)

/-- `json_get_string` into a buffer of `outSize` bytes. -/
def jsonGetString (body field : Bytes) (outSize : ℕ) : Option Bytes :=
  match jsonFindField body field with
  | some (34 :: rest) =>
    match readString rest with
    | some out => if out.length < outSize then some out else none
    | none => none
  | _ => none

def jsonGetBool (body field : Bytes) : Option Bool :=
  match jsonFindField body field with
  | none => none
  | some p =>
    if p.take 4 = ascii "true" then some true
    else if p.take 5 = ascii "false" then some false
    else none

/-- `json_get_uint64`: a numeral that is too large wraps around. -/
def jsonGetUint64 (body field : Bytes) : Option UInt64 :=
  match jsonFindField body field with
  | none => none
  | some p =>
    if p.takeWhile isDigit = [] then none
    else some (UInt64.ofNat (digitsValue (p.takeWhile isDigit)))

/-! ## The escaper -/

/-- What `json_escape` writes for a character. -/
def escapeByte (c : UInt8) : Bytes :=
  if c = 34 then [92, 34]
  else if c = 92 then [92, 92]
  else if c = 10 then [92, 110]
  else if c = 13 then [92, 114]
  else if c = 9 then [92, 116]
  else if c < 32 then
    [92, 117, 48, 48, hexByte (c.toNat / 16), hexByte (c.toNat % 16)]
  else [c]

/-- The text between the quotes. -/
def escapeText (src : Bytes) : Bytes :=
  src.flatMap escapeByte

/-- `json_escape` into a buffer of `dstSize` bytes. -/
def jsonEscape (dstSize : ℕ) (src : Bytes) : Option Bytes :=
  if (escapeText src).length < dstSize then some (escapeText src) else none

/-! ## The walk -/

variable {field : Bytes}

section Walk

variable {str next : Bytes} {b : UInt8}

theorem length_scanString {p : Bytes} (h : scanString p = some (str, next)) :
    next.length < p.length := by
  fun_induction scanString p generalizing str next with
  | case1 => cases h
  | case2 rest =>
    obtain ⟨-, rfl⟩ := Prod.mk.inj (Option.some.inj h)
    exact Nat.lt_succ_self _
  | case3 => cases h
  | case4 c rest _ ih =>
    obtain ⟨⟨str', next'⟩, hscan, heq⟩ := Option.map_eq_some_iff.mp h
    obtain ⟨-, rfl⟩ := Prod.mk.inj heq
    exact (ih hscan).trans (by simp)
  | case5 b rest _ _ ih =>
    obtain ⟨⟨str', next'⟩, hscan, heq⟩ := Option.map_eq_some_iff.mp h
    obtain ⟨-, rfl⟩ := Prod.mk.inj heq
    exact (ih hscan).trans (by simp)

theorem findFieldFrom_congr (fuel : ℕ) :
    ∀ (fuel' : ℕ) (p : Bytes), p.length ≤ fuel → p.length ≤ fuel' →
      findFieldFrom field fuel p = findFieldFrom field fuel' p := by
  induction fuel with
  | zero =>
    intro fuel' p hp _
    obtain rfl : p = [] := eq_nil_of_length_eq_zero (Nat.le_zero.mp hp)
    cases fuel' with
    | zero => rfl
    | succ fuel' => rfl
  | succ fuel ih =>
    intro fuel' p hp hp'
    cases p with
    | nil =>
      cases fuel' with
      | zero => rfl
      | succ fuel' => rfl
    | cons b rest =>
      obtain ⟨fuel', rfl⟩ := Nat.exists_eq_succ_of_ne_zero (show fuel' ≠ 0 by simp at hp'; omega)
      rw [length_cons, Nat.add_le_add_iff_right] at hp hp'
      rw [findFieldFrom, findFieldFrom, ih fuel' rest hp hp']
      cases hscan : scanString rest with
      | none => rfl
      | some r =>
        have hlt := (length_scanString hscan).le
        simp only [ih fuel' r.2 (hlt.trans hp) (hlt.trans hp')]

theorem jsonFindField_cons (hb : b ≠ 34) (rest : Bytes) :
    jsonFindField (b :: rest) field = jsonFindField rest field := by
  rw [jsonFindField, length_cons, findFieldFrom, if_pos hb, jsonFindField]

theorem jsonFindField_append {text : Bytes} (htext : 34 ∉ text) (rest : Bytes) :
    jsonFindField (text ++ rest) field = jsonFindField rest field := by
  induction text with
  | nil => rfl
  | cons b text ih =>
    rw [mem_cons, not_or] at htext
    rw [cons_append, jsonFindField_cons (Ne.symm htext.1), ih htext.2]

theorem jsonFindField_quote {rest : Bytes} (hscan : scanString rest = some (str, next)) :
    jsonFindField (34 :: rest) field =
      if (skipWs next).head? = some 58 ∧ str = field then
        some (skipWs (skipWs next).tail)
      else jsonFindField next field := by
  have hlt := length_scanString hscan
  rw [jsonFindField, length_cons, findFieldFrom, if_neg (by decide), hscan, jsonFindField]
  simp only [findFieldFrom_congr _ next.length next hlt.le le_rfl]

theorem scanString_quote (rest : Bytes) : scanString (34 :: rest) = some ([], rest) := by
  rw [scanString.eq_def]
  rfl

theorem scanString_escape (c : UInt8) (rest : Bytes) :
    scanString (92 :: c :: rest) = (scanString rest).map fun r => (92 :: c :: r.1, r.2) := by
  rw [scanString.eq_def]
  rfl

theorem scanString_char (hquote : b ≠ 34) (hslash : b ≠ 92) (rest : Bytes) :
    scanString (b :: rest) = (scanString rest).map fun r => (b :: r.1, r.2) := by
  rw [scanString.eq_def]
  simp only [if_neg hquote, if_neg hslash]

theorem scanString_plain (hquote : 34 ∉ str) (hslash : 92 ∉ str) (rest : Bytes) :
    scanString (str ++ 34 :: rest) = some (str, rest) := by
  induction str with
  | nil => exact scanString_quote rest
  | cons b str ih =>
    rw [mem_cons, not_or] at hquote hslash
    rw [cons_append, scanString_char (Ne.symm hquote.1)
      (Ne.symm hslash.1), ih hquote.2 hslash.2, Option.map_some]

theorem scanString_escapeByte (c : UInt8) {rest : Bytes} (h : scanString rest = some (str, next)) :
    scanString (escapeByte c ++ rest) = some (escapeByte c ++ str, next) := by
  have hhex : ∀ d < 16, hexByte d ≠ 34 ∧ hexByte d ≠ 92 := by decide
  have hhigh := hhex (c.toNat / 16) (by have := c.toNat_lt; omega)
  have hlow := hhex (c.toNat % 16) (Nat.mod_lt _ (by decide))
  have hzero : (48 : UInt8) ≠ 34 ∧ (48 : UInt8) ≠ 92 := by decide
  rw [escapeByte]
  split_ifs with hquote hslash
  · simp [scanString_escape, h]
  · simp [scanString_escape, h]
  · simp [scanString_escape, h]
  · simp [scanString_escape, h]
  · simp [scanString_escape, h]
  · simp [scanString_escape, scanString_char, h, hhigh, hlow]
  · simp [scanString_char hquote hslash, h]

theorem scanString_escapeText (src rest : Bytes) :
    scanString (escapeText src ++ 34 :: rest) = some (escapeText src, rest) := by
  induction src with
  | nil => exact scanString_quote rest
  | cons c src ih =>
    rw [escapeText, flatMap_cons, append_assoc]
    exact scanString_escapeByte c ih

theorem readString_quote (rest : Bytes) : readString (34 :: rest) = some [] := by
  rw [readString.eq_def]
  rfl

theorem readString_char (hquote : b ≠ 34) (hslash : b ≠ 92) (rest : Bytes) :
    readString (b :: rest) = (readString rest).map (b :: ·) := by
  rw [readString.eq_def]
  simp only [if_neg hquote, if_neg hslash]

theorem readString_escape {c : UInt8} (hc : c ≠ 117) (rest : Bytes) :
    readString (92 :: c :: rest) = (readString rest).map (unescapeByte c :: ·) := by
  rw [readString.eq_def]
  simp [hc]

/-- The characters that the reader gets back from what the escaper wrote.  The
other control characters are written as `\u` escapes, and it collapses those. -/
def ReadsBack (c : UInt8) : Prop :=
  32 ≤ c ∨ c = 10 ∨ c = 13 ∨ c = 9

instance (c : UInt8) : Decidable (ReadsBack c) :=
  inferInstanceAs (Decidable (_ ∨ _))

/-- What the reader gets back for a character. -/
def shownByte (c : UInt8) : UInt8 :=
  if ReadsBack c then c else 63

theorem map_shownByte {src : Bytes} (hsrc : ∀ c ∈ src, ReadsBack c) : src.map shownByte = src := by
  have hsame : ∀ c ∈ src, shownByte c = id c := fun c hc => if_pos (hsrc c hc)
  rw [map_congr_left hsame, map_id]

theorem readString_unicode (a b c d : UInt8) (rest : Bytes) :
    readString (92 :: 117 :: a :: b :: c :: d :: rest) = (readString rest).map (63 :: ·) := by
  rw [readString.eq_def]
  rfl

theorem readString_escapeByte (c : UInt8) (rest : Bytes) :
    readString (escapeByte c ++ rest) = (readString rest).map (shownByte c :: ·) := by
  rw [escapeByte]
  split_ifs with hquote hslash hlf hcr htab hlow
  · subst hquote
    exact readString_escape (by decide) rest
  · subst hslash
    exact readString_escape (by decide) rest
  · subst hlf
    exact readString_escape (by decide) rest
  · subst hcr
    exact readString_escape (by decide) rest
  · subst htab
    exact readString_escape (by decide) rest
  · have hlost : ¬ReadsBack c := by
      rintro (hc | hc | hc | hc)
      · exact absurd hlow (UInt8.not_lt.mpr hc)
      · exact hlf hc
      · exact hcr hc
      · exact htab hc
    rw [shownByte, if_neg hlost]
    exact readString_unicode _ _ _ _ rest
  · have hback : ReadsBack c := .inl (UInt8.not_lt.mp hlow)
    rw [shownByte, if_pos hback]
    exact readString_char hquote hslash rest

/-- The reader gets back the text that was escaped, as far as it can. -/
theorem readString_escapeText (src rest : Bytes) :
    readString (escapeText src ++ 34 :: rest) = some (src.map shownByte) := by
  induction src with
  | nil => exact readString_quote rest
  | cons c src ih =>
    rw [escapeText, flatMap_cons, append_assoc,
      readString_escapeByte, ← escapeText, ih, Option.map_some, map_cons]

theorem length_le_escapeText (src : Bytes) : src.length ≤ (escapeText src).length := by
  induction src with
  | nil => exact le_rfl
  | cons c src ih =>
    have hone : 1 ≤ (escapeByte c).length := by
      rw [escapeByte]
      split_ifs
      all_goals simp
    rw [escapeText, flatMap_cons, ← escapeText, length_append, length_cons]
    omega

theorem escapeText_of_plain {src : Bytes}
    (hsrc : ∀ c ∈ src, c ≠ 34 ∧ c ≠ 92 ∧ 32 ≤ c) : escapeText src = src := by
  induction src with
  | nil => rfl
  | cons c src ih =>
    obtain ⟨hquote, hslash, hlow⟩ := hsrc c mem_cons_self
    have hne : ∀ d : UInt8, d < 32 → c ≠ d := fun d hd h => absurd hd (UInt8.not_lt.mpr (h ▸ hlow))
    have hbyte : escapeByte c = [c] := by
      rw [escapeByte, if_neg hquote, if_neg hslash, if_neg (hne 10 (by decide)),
        if_neg (hne 13 (by decide)), if_neg (hne 9 (by decide)), if_neg (UInt8.not_lt.mpr hlow)]
    rw [escapeText, flatMap_cons, hbyte, ← escapeText,
      ih fun d hd => hsrc d (mem_cons_of_mem c hd), singleton_append]

end Walk

/-! ## Flat objects -/

/-- A value of a flat object. -/
inductive JsonValue
  | number (n : ℕ)
  | text (src : Bytes)
  | bool (b : Bool)
  deriving DecidableEq

def JsonValue.render : JsonValue → Bytes
  | .number n => decimal n
  | .text src => 34 :: (escapeText src ++ [34])
  | .bool b => if b then ascii "true" else ascii "false"

/-- The members of an object with its closing brace. -/
def renderMembers : List (Bytes × JsonValue) → Bytes
  | [] => [125]
  | [(key, v)] => 34 :: (key ++ 34 :: 58 :: (v.render ++ [125]))
  | (key, v) :: more => 34 :: (key ++ 34 :: 58 :: (v.render ++ 44 :: renderMembers more))

/-- An object as it is written, without blanks. -/
def renderObject (members : List (Bytes × JsonValue)) : Bytes :=
  123 :: renderMembers members

/-- A member name that needs no escapes. -/
def PlainKey (key : Bytes) : Prop :=
  34 ∉ key ∧ 92 ∉ key

instance (key : Bytes) : Decidable (PlainKey key) :=
  inferInstanceAs (Decidable (_ ∧ _))

/-- What may follow a value in an object. -/
def EndsValue (rest : Bytes) : Prop :=
  rest.head? = some 44 ∨ rest.head? = some 125

section Objects

variable {rest : Bytes} {members : List (Bytes × JsonValue)}

theorem skipWs_of_head {b : UInt8} (hb : isWs b = false) (rest : Bytes) :
    skipWs (b :: rest) = b :: rest := by
  rw [skipWs, dropWhile_cons_of_neg (by rw [hb]; exact Bool.false_ne_true)]

theorem isWs_of_isDigit {b : UInt8} (h : isDigit b = true) : isWs b = false := by
  rw [isDigit, Bool.and_eq_true, decide_eq_true_iff] at h
  rw [← Bool.not_eq_true, isWs]
  simp only [Bool.or_eq_true, beq_iff_eq]
  rintro (((rfl | rfl) | rfl) | rfl) <;> exact absurd h.1 (by decide)

theorem EndsValue.head?_skipWs (h : EndsValue rest) : (skipWs rest).head? ≠ some 58 := by
  cases rest with
  | nil => exact nofun
  | cons b rest =>
    rcases h with hb | hb
    all_goals
      obtain rfl := Option.some.inj hb
      rw [skipWs_of_head rfl, List.head?_cons]
      decide

theorem EndsValue.isDigit_head? (h : EndsValue rest) : ∀ b ∈ rest.head?, isDigit b = false := by
  intro b hb
  rcases h with h | h
  all_goals
    rw [h] at hb
    obtain rfl := Option.some.inj hb
    rfl

theorem JsonValue.skipWs_render (v : JsonValue) (rest : Bytes) :
    skipWs (v.render ++ rest) = v.render ++ rest := by
  cases v with
  | number n =>
    obtain ⟨d, ds, hdecimal⟩ := exists_cons_of_ne_nil (decimal_ne_nil n)
    have hd : isDigit d = true := isDigit_of_mem_decimal (hdecimal ▸ mem_cons_self)
    rw [render, hdecimal, cons_append]
    exact skipWs_of_head (isWs_of_isDigit hd) _
  | text src => exact skipWs_of_head rfl _
  | bool b =>
    cases b with
    | false => exact skipWs_of_head rfl _
    | true => exact skipWs_of_head rfl _

theorem JsonValue.jsonFindField_render (v : JsonValue) (hrest : EndsValue rest) :
    jsonFindField (v.render ++ rest) field = jsonFindField rest field := by
  cases v with
  | number n =>
    apply jsonFindField_append
    intro hquote
    exact absurd (isDigit_of_mem_decimal hquote) (by decide)
  | text src =>
    have hscan := scanString_escapeText src rest
    rw [render, cons_append, append_assoc, singleton_append,
      jsonFindField_quote hscan, if_neg fun h => hrest.head?_skipWs h.1]
  | bool b =>
    cases b with
    | false => exact jsonFindField_append (by decide) rest
    | true => exact jsonFindField_append (by decide) rest

theorem jsonFindField_key {key : Bytes} (hkey : PlainKey key) (rest : Bytes) :
    jsonFindField (34 :: (key ++ 34 :: 58 :: rest)) field =
      if key = field then some (skipWs rest) else jsonFindField rest field := by
  have hscan := scanString_plain hkey.1 hkey.2 (58 :: rest)
  rw [jsonFindField_quote hscan, skipWs_of_head (by decide)]
  simp only [List.head?_cons, tail_cons, true_and]
  by_cases heq : key = field
  · rw [if_pos heq, if_pos heq]
  · rw [if_neg heq, if_neg heq, jsonFindField_cons (by decide)]

variable (field) in
theorem renderMembers_cons (key : Bytes) (v : JsonValue) (more : List (Bytes × JsonValue)) :
    ∃ rest, EndsValue rest ∧ renderMembers ((key, v) :: more) =
        34 :: (key ++ 34 :: 58 :: (v.render ++ rest)) ∧
      jsonFindField rest field = jsonFindField (renderMembers more) field := by
  cases more with
  | nil => exact ⟨[125], .inr rfl, rfl, rfl⟩
  | cons m more =>
    exact ⟨44 :: renderMembers (m :: more), .inl rfl, rfl, jsonFindField_cons (by decide) _⟩

/-- The reader finds the first member with the name it looks for. -/
theorem jsonFindField_renderObject (hkeys : ∀ m ∈ members, PlainKey m.1)
    {v : JsonValue} (hv : members.lookup field = some v) :
    ∃ rest, EndsValue rest ∧
      jsonFindField (renderObject members) field = some (v.render ++ rest) := by
  rw [renderObject, jsonFindField_cons (by decide)]
  induction members with
  | nil => cases hv
  | cons m more ih =>
    obtain ⟨key, w⟩ := m
    obtain ⟨rest, hends, hrender, hskip⟩ := renderMembers_cons field key w more
    rw [hrender, jsonFindField_key (hkeys _ mem_cons_self)]
    by_cases heq : key = field
    · subst heq
      rw [lookup_cons_self] at hv
      obtain rfl := Option.some.inj hv
      exact ⟨rest, hends, by rw [if_pos rfl, w.skipWs_render]⟩
    · have hother : (field == key) = false := beq_eq_false_iff_ne.mpr (Ne.symm heq)
      rw [lookup_cons, hother] at hv
      rw [if_neg heq, w.jsonFindField_render hends, hskip]
      exact ih (fun m hm => hkeys m (mem_cons_of_mem _ hm)) hv

theorem jsonGetUint64_of_find {body : Bytes} {n : ℕ}
    (hfind : jsonFindField body field = some (decimal n ++ rest)) (hrest : EndsValue rest) :
    jsonGetUint64 body field = some (UInt64.ofNat n) := by
  have hdigits : (decimal n ++ rest).takeWhile isDigit = decimal n := by
    rw [takeWhile_append_of_stop hrest.isDigit_head?]
    exact takeWhile_eq_self_iff.mpr fun b hb => isDigit_of_mem_decimal hb
  rw [jsonGetUint64, hfind]
  simp only [hdigits, if_neg (decimal_ne_nil n), digitsValue_decimal]

section

variable (hkeys : ∀ m ∈ members, PlainKey m.1)
include hkeys

theorem jsonGetUint64_renderObject {n : ℕ} (hv : members.lookup field = some (.number n)) :
    jsonGetUint64 (renderObject members) field = some (UInt64.ofNat n) := by
  obtain ⟨rest, hends, hfind⟩ := jsonFindField_renderObject hkeys hv
  exact jsonGetUint64_of_find hfind hends

theorem jsonGetString_shown {src : Bytes}
    (hv : members.lookup field = some (.text src)) {outSize : ℕ} (hlen : src.length < outSize) :
    jsonGetString (renderObject members) field outSize = some (src.map shownByte) := by
  obtain ⟨rest, -, hfind⟩ := jsonFindField_renderObject hkeys hv
  rw [JsonValue.render, cons_append, append_assoc, singleton_append] at hfind
  have hshown : (src.map shownByte).length < outSize := by rwa [length_map]
  simp only [jsonGetString, hfind, readString_escapeText, if_pos hshown]

theorem jsonGetString_renderObject {src : Bytes} (hv : members.lookup field = some (.text src))
    (hsrc : ∀ c ∈ src, ReadsBack c) {outSize : ℕ} (hlen : src.length < outSize) :
    jsonGetString (renderObject members) field outSize = some src := by
  rw [jsonGetString_shown hkeys hv hlen, map_shownByte hsrc]

theorem jsonGetBool_renderObject {b : Bool} (hv : members.lookup field = some (.bool b)) :
    jsonGetBool (renderObject members) field = some b := by
  obtain ⟨rest, -, hfind⟩ := jsonFindField_renderObject hkeys hv
  rw [jsonGetBool, hfind]
  cases b with
  | false => rfl
  | true => rfl

end

end Objects

end Codo.Common
