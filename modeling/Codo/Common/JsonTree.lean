import Codo.Common.Chunked
import Codo.Common.Json

/-!
# The field finder on nested objects

Objects with values nested to any depth, blanks anywhere between the tokens and
any escapes in the strings.  `json_find_field` walks string by string and never
counts braces, so it finds the first key in the order of the text, at whatever
depth.  That is the first top-level member with the name exactly when no value
in front of it has such a key inside.

What a string denotes is said independently of `json_get_string`, which reads the
same unless the string has a `\u` escape.
-/

namespace Codo.Common

open Support List Option

/-! ## Texts -/

/-- Blanks between two tokens. -/
structure Blanks where
  text : Bytes
  blank : ∀ b ∈ text, isWs b = true

theorem Blanks.quote_notMem (ws : Blanks) : 34 ∉ ws.text := fun h =>
  absurd (ws.blank 34 h) (by decide)

theorem Blanks.skipWs_append (ws : Blanks) (rest : Bytes) :
    skipWs (ws.text ++ rest) = skipWs rest := by
  rw [skipWs, dropWhile_append_of_pos ws.blank, skipWs]

/-- A byte of a string between its quotes, or a backslash and the byte behind
it. -/
inductive StringUnit
  | plain (b : UInt8) (plain : b ≠ 34 ∧ b ≠ 92)
  | escaped (b : UInt8)
  deriving DecidableEq

def StringUnit.render : StringUnit → Bytes
  | plain b _ => [b]
  | escaped b => [92, b]

def renderUnits (units : List StringUnit) : Bytes :=
  units.flatMap StringUnit.render

/-- A number, a truth value or `null`. -/
structure JsonAtom where
  first : UInt8
  others : Bytes
  start : isWs first = false
  bare : 34 ∉ first :: others

/-- The character a one-letter escape stands for. -/
def escapedValue (c : UInt8) : Option UInt8 :=
  if c = 34 ∨ c = 92 ∨ c = 47 then some c
  else if c = 98 then some 8
  else if c = 102 then some 12
  else if c = 110 then some 10
  else if c = 114 then some 13
  else if c = 116 then some 9
  else none

/-- The code unit that four hexadecimal digits denote. -/
def codeUnit (a b c d : UInt8) : Option ℕ := do
  let a ← hexDigit a
  let b ← hexDigit b
  let c ← hexDigit c
  let d ← hexDigit d
  return ((a * 16 + b) * 16 + c) * 16 + d

/-- The characters of a string: bytes, and code units written as `\u` escapes. -/
def characters : List StringUnit → Option (List (UInt8 ⊕ ℕ))
  | [] => some []
  | .plain b _ :: units => if b < 32 then none else (characters units).map (.inl b :: ·)
  | .escaped c :: units =>
    if c = 117 then
      match units with
      | .plain h _ :: .plain i _ :: .plain j _ :: .plain k _ :: units => do
        return .inr (← codeUnit h i j k) :: (← characters units)
      | _ => none
    else do return .inl (← escapedValue c) :: (← characters units)

/-- The UTF-8 encoding of a code point. -/
def utf8 (n : ℕ) : Bytes :=
  if n < 0x80 then [UInt8.ofNat n]
  else if n < 0x800 then [UInt8.ofNat (0xc0 + n / 64), UInt8.ofNat (0x80 + n % 64)]
  else if n < 0x10000 then
    [UInt8.ofNat (0xe0 + n / 4096), UInt8.ofNat (0x80 + n / 64 % 64), UInt8.ofNat (0x80 + n % 64)]
  else
    [UInt8.ofNat (0xf0 + n / 262144), UInt8.ofNat (0x80 + n / 4096 % 64),
      UInt8.ofNat (0x80 + n / 64 % 64), UInt8.ofNat (0x80 + n % 64)]

/-- The characters in UTF-8.  Two units that form a surrogate pair are one code
point. -/
def encode : List (UInt8 ⊕ ℕ) → Bytes
  | [] => []
  | .inl b :: rest => b :: encode rest
  | .inr high :: .inr low :: rest =>
    if 0xd800 ≤ high ∧ high < 0xdc00 ∧ 0xdc00 ≤ low ∧ low < 0xe000 then
      utf8 (0x10000 + (high - 0xd800) * 1024 + (low - 0xdc00)) ++ encode rest
    else utf8 high ++ encode (.inr low :: rest)
  | .inr unit :: rest => utf8 unit ++ encode rest

/-- The text a string denotes, or `none` where it is malformed. -/
def denote (units : List StringUnit) : Option Bytes :=
  (characters units).map encode

/-- The key of a member and the blanks around its colon. -/
structure JsonKey where
  name : List StringUnit
  colon : Blanks
  gap : Blanks

/-- A value, or the elements of an array or, with keys, of an object. -/
inductive JsonKind
  | value
  | list (keyed : Bool)

/-- A part of a JSON text: a value, or what is left of an array or an object up
to its closing bracket. -/
inductive JsonPart : JsonKind → Type
  | text (units : List StringUnit) : JsonPart .value
  | atom (a : JsonAtom) : JsonPart .value
  | group {keyed : Bool} (elements : JsonPart (.list keyed)) : JsonPart .value
  | close {keyed : Bool} (ws : Blanks) : JsonPart (.list keyed)
  | element {keyed : Bool} (lead : Blanks) (key : Option JsonKey)
      (hkey : key.isSome = keyed) (v : JsonPart .value) (trail : Blanks)
      (more : JsonPart (.list keyed)) : JsonPart (.list keyed)

namespace JsonPart

def keyText : Option JsonKey → Bytes → Bytes
  | none, rest => rest
  | some key, rest => 34 :: (renderUnits key.name ++ 34 ::
      (key.colon.text ++ 58 :: (key.gap.text ++ rest)))

def keyName (key : Option JsonKey) : Option Bytes :=
  key.map fun key => renderUnits key.name

/-- A comma stands in front of every further element. -/
def comma {k : JsonKind} : JsonPart k → Bytes → Bytes
  | element .., rest => 44 :: rest
  | _, rest => rest

/-- The part in front of the text `rest`. -/
def render {k : JsonKind} : JsonPart k → Bytes → Bytes
  | text units, rest => 34 :: (renderUnits units ++ 34 :: rest)
  | atom a, rest => (a.first :: a.others) ++ rest
  | @group keyed elements, rest => (if keyed then 123 else 91) :: elements.render rest
  | @close keyed ws, rest => ws.text ++ (if keyed then 125 else 93) :: rest
  | element lead key _ v trail more, rest =>
    lead.text ++ keyText key (v.render (trail.text ++ more.comma (more.render rest)))

/-- What follows a value in front of `more`. -/
def follow {k : JsonKind} (trail : Blanks) (more : JsonPart k) (rest : Bytes) : Bytes :=
  trail.text ++ more.comma (more.render rest)

/-- The keys of the part and of everything nested in it. -/
def keys {k : JsonKind} : JsonPart k → List Bytes
  | group elements => elements.keys
  | element _ key _ v _ more => (keyName key).toList ++ (v.keys ++ more.keys)
  | _ => []

/-- The text from the value of the first of the members called `field`. -/
def firstMember {k : JsonKind} (field : Bytes) :
    JsonPart k → Bytes → Option Bytes
  | element _ key _ v trail more, rest =>
    if keyName key = some field then some (v.render (follow trail more rest))
    else more.firstMember field rest
  | _, _ => none

/-- The names and the values of the members. -/
def entries {k : JsonKind} : JsonPart k → List (List StringUnit × JsonPart .value)
  | element _ key _ v _ more => (key.toList.map fun key => (key.name, v)) ++ more.entries
  | _ => []

/-- No value of a member ahead of the first one called `field` has `field` as a
key inside. -/
def Unshadowed {k : JsonKind} (field : Bytes) : JsonPart k → Prop
  | element _ key _ v _ more => keyName key = some field ∨ field ∉ v.keys ∧ more.Unshadowed field
  | _ => True

/-- The text from the value of the first key `field` at any depth. -/
def firstKey {k : JsonKind} (field : Bytes) :
    JsonPart k → Bytes → Option Bytes
  | group elements, rest => elements.firstKey field rest
  | element _ key _ v trail more, rest =>
    if keyName key = some field then some (v.render (follow trail more rest))
    else (v.firstKey field (follow trail more rest)).or (more.firstKey field rest)
  | _, _ => none

section Walk

variable {k : JsonKind} {keyed : Bool} {field : Bytes}

theorem scanString_renderUnits (units : List StringUnit) (rest : Bytes) :
    scanString (renderUnits units ++ 34 :: rest) = some (renderUnits units, rest) := by
  induction units with
  | nil => exact scanString_quote rest
  | cons unit units ih =>
    rw [renderUnits, flatMap_cons, append_assoc]
    cases unit with
    | plain b hb =>
      rw [StringUnit.render, singleton_append, scanString_char hb.1 hb.2]
      exact congrArg (Option.map _) ih
    | escaped b =>
      rw [StringUnit.render, cons_append, singleton_append, scanString_escape]
      exact congrArg (Option.map _) ih

theorem skipWs_render (v : JsonPart .value) (rest : Bytes) :
    skipWs (v.render rest) = v.render rest := by
  cases v with
  | text units => exact skipWs_of_head rfl _
  | atom a => exact skipWs_of_head a.start _
  | @group keyed elements => cases keyed <;> exact skipWs_of_head rfl _

theorem head?_skipWs_follow (trail : Blanks) (more : JsonPart (.list keyed))
    (rest : Bytes) : (skipWs (follow trail more rest)).head? ≠ some 58 := by
  rw [follow, trail.skipWs_append]
  cases more with
  | close ws =>
    rw [comma, render, ws.skipWs_append]
    · cases keyed <;> exact nofun
    · exact nofun
  | element => exact nofun

theorem jsonFindField_follow (trail : Blanks) (more : JsonPart k)
    (rest : Bytes) : jsonFindField (follow trail more rest) field =
      jsonFindField (more.render rest) field := by
  rw [follow, jsonFindField_append trail.quote_notMem]
  cases more with
  | element => exact jsonFindField_cons (by decide) _
  | _ => rfl

theorem jsonFindField_bracket (b b' : UInt8) (h : b ≠ 34 ∧ b' ≠ 34)
    (rest : Bytes) : jsonFindField ((if keyed then b else b') :: rest) field =
      jsonFindField rest field := by
  cases keyed with
  | true => exact jsonFindField_cons h.1 rest
  | false => exact jsonFindField_cons h.2 rest

theorem jsonFindField_keyText (key : Option JsonKey) (v : JsonPart .value)
    (rest : Bytes) : jsonFindField (keyText key (v.render rest)) field =
      if keyName key = some field then some (v.render rest)
      else jsonFindField (v.render rest) field := by
  cases key with
  | none => rfl
  | some key =>
    have hscan := scanString_renderUnits key.name
      (key.colon.text ++ 58 :: (key.gap.text ++ v.render rest))
    rw [keyText, jsonFindField_quote hscan, key.colon.skipWs_append,
      skipWs_of_head rfl, head?_cons, tail_cons, key.gap.skipWs_append,
      skipWs_render, jsonFindField_append key.colon.quote_notMem,
      jsonFindField_cons (by decide), jsonFindField_append key.gap.quote_notMem]
    simp only [keyName, map_some, some_inj, true_and]

/-- The finder takes the first key in the order of the text. -/
theorem jsonFindField_render (t : JsonPart k) (rest : Bytes)
    (hrest : k = .value → (skipWs rest).head? ≠ some 58) :
    jsonFindField (t.render rest) field =
      (t.firstKey field rest).or (jsonFindField rest field) := by
  induction t generalizing rest with
  | text units =>
    rw [render, jsonFindField_quote (scanString_renderUnits units rest),
      if_neg fun h => hrest rfl h.1]
    rfl
  | atom a =>
    rw [render, jsonFindField_append a.bare]
    rfl
  | group elements ih =>
    rw [render, jsonFindField_bracket _ _ (by decide), ih rest (by intro h; cases h)]
    rfl
  | close ws =>
    rw [render, jsonFindField_append ws.quote_notMem, jsonFindField_bracket _ _ (by decide)]
    rfl
  | element lead key hkey v trail more ih ih' =>
    rw [render, jsonFindField_append lead.quote_notMem]
    change jsonFindField (keyText key (v.render (follow trail more rest))) field = _
    rw [jsonFindField_keyText, firstKey]
    split
    · rfl
    · rw [ih _ fun _ => head?_skipWs_follow trail more rest,
        jsonFindField_follow, ih' rest (by intro h; cases h), Option.or_assoc]

/-! ## The first key and the first member -/

theorem length_le_keyText (key : Option JsonKey) (rest : Bytes) :
    rest.length ≤ (keyText key rest).length := by
  cases key with
  | none => exact le_rfl
  | some key =>
    simp only [keyText, length_append, length_cons]
    omega

theorem length_render_le_follow (trail : Blanks) (more : JsonPart k) (rest : Bytes) :
    (more.render rest).length ≤ (follow trail more rest).length := by
  rw [follow, length_append]
  cases more with
  | element =>
    rw [comma, length_cons]
    omega
  | _ => exact Nat.le_add_left _ _

theorem length_value_le (lead : Blanks) (key : Option JsonKey)
    (hkey : key.isSome = keyed) (v : JsonPart .value) (trail : Blanks)
    (more : JsonPart (.list keyed)) (rest : Bytes) :
    (v.render (follow trail more rest)).length ≤
      ((element lead key hkey v trail more).render rest).length := by
  rw [render, length_append]
  exact (length_le_keyText key _).trans (Nat.le_add_left _ _)

theorem length_lt_render (t : JsonPart k) (rest : Bytes) :
    rest.length < (t.render rest).length := by
  induction t generalizing rest with
  | group elements ih => exact (ih rest).trans (Nat.lt_succ_self _)
  | element lead key hkey v trail more ih ih' =>
    calc rest.length < (more.render rest).length := ih' rest
      _ ≤ (follow trail more rest).length := length_render_le_follow ..
      _ ≤ (v.render (follow trail more rest)).length := (ih _).le
      _ ≤ _ := length_value_le ..
  | _ =>
    simp only [render, length_append, length_cons]
    omega

theorem length_lt_follow (trail : Blanks) (more : JsonPart k) (rest : Bytes) :
    rest.length < (follow trail more rest).length :=
  (length_lt_render more rest).trans_le (length_render_le_follow ..)

/-- The walk finds nothing just where the name is no key. -/
theorem firstKey_eq_none_iff (t : JsonPart k) (rest : Bytes) :
    t.firstKey field rest = none ↔ field ∉ t.keys := by
  induction t generalizing rest with
  | group elements ih => exact ih rest
  | element lead key hkey v trail more ih ih' =>
    rw [firstKey, keys, mem_append, mem_append, mem_toList, not_or, not_or]
    split
    next hname => exact iff_of_false nofun fun h => h.1 hname
    next hname =>
      rw [or_eq_none_iff, ih, ih']
      exact ⟨fun h => ⟨hname, h⟩, fun h => h.2⟩
  | _ => simp [firstKey, keys]

theorem length_lt_of_firstKey (t : JsonPart k) {rest found : Bytes}
    (h : t.firstKey field rest = some found) : rest.length < found.length := by
  induction t generalizing rest with
  | group elements ih => exact ih h
  | element lead key hkey v trail more ih ih' =>
    have hlt := length_lt_follow trail more rest
    rw [firstKey] at h
    split at h
    · rw [← some.inj h]
      exact hlt.trans (length_lt_render v _)
    · rcases or_eq_some_iff.mp h with h | ⟨-, h⟩
      · exact hlt.trans (ih h)
      · exact ih' h
  | _ => cases h

theorem length_firstMember_le (t : JsonPart k) {rest found : Bytes}
    (h : t.firstMember field rest = some found) : found.length ≤ (t.render rest).length := by
  induction t with
  | element lead key hkey v trail more _ ih =>
    have hvalue := length_value_le lead key hkey v trail more rest
    rw [firstMember] at h
    split at h
    · rw [← some.inj h]
      exact hvalue
    · have hnext := length_render_le_follow trail more rest
      exact ((ih h).trans hnext).trans ((length_lt_render v _).le.trans hvalue)
  | _ => cases h

theorem firstKey_eq_firstMember_iff (t : JsonPart k) (hk : k = .list keyed)
    (rest : Bytes) : t.firstKey field rest = t.firstMember field rest ↔ t.Unshadowed field := by
  induction t with
  | close ws => exact iff_of_true rfl trivial
  | element lead key hkey v trail more _ ih =>
    rw [firstKey, firstMember, Unshadowed]
    by_cases hname : keyName key = some field
    · rw [if_pos hname, if_pos hname]
      exact iff_of_true rfl (.inl hname)
    rw [if_neg hname, if_neg hname, or_iff_right hname]
    cases hkey : v.firstKey field (follow trail more rest) with
    | none =>
      rw [none_or, ih hk]
      exact (and_iff_right ((firstKey_eq_none_iff v _).mp hkey)).symm
    | some found =>
      -- the key inside the value stands ahead of every later member
      refine iff_of_false ?_ fun h => ?_
      · intro heq
        have hle := length_firstMember_le more heq.symm
        have hlt := length_lt_of_firstKey v hkey
        have hnext := length_render_le_follow trail more rest
        omega
      · have hnone := (firstKey_eq_none_iff v (follow trail more rest)).mpr h.1
        rw [hkey] at hnone
        cases hnone
  | _ => cases hk

end Walk

/-- The finder on a whole object. -/
theorem jsonFindField_object (head tail : Blanks)
    (members : JsonPart (.list true)) (field : Bytes) :
    jsonFindField (head.text ++ (group members).render tail.text) field =
      members.firstKey field tail.text := by
  have htail : jsonFindField (tail.text ++ []) field = none :=
    jsonFindField_append tail.quote_notMem []
  rw [append_nil] at htail
  rw [jsonFindField_append head.quote_notMem, render, jsonFindField_bracket _ _ (by decide),
    jsonFindField_render members _ (by intro h; cases h), htail, or_none]

/-- On every object, the finder returns the value of the first top-level member
with the name, or nothing where there is none, exactly when no value ahead of
that member has the name as a key inside. -/
theorem jsonFindField_top_level_iff (head tail : Blanks)
    (members : JsonPart (.list true)) (field : Bytes) :
    jsonFindField (head.text ++ (group members).render tail.text) field =
        members.firstMember field tail.text ↔
      members.Unshadowed field := by
  rw [← firstKey_eq_firstMember_iff members rfl, jsonFindField_object]

/-- An object whose only member `a` is an object with the member `title`. -/
def nestedTitle : JsonPart (.list true) :=
  let ws : Blanks := ⟨[], by simp⟩
  let title : List StringUnit := [.plain 116 (by decide),
    .plain 105 (by decide), .plain 116 (by decide), .plain 108 (by decide), .plain 101 (by decide)]
  let inner : JsonPart (.list true) := element ws (some ⟨title, ws, ws⟩) rfl
    (atom ⟨49, [], rfl, by decide⟩) ws (close ws)
  element ws (some ⟨[.plain 97 (by decide)], ws, ws⟩) rfl (group inner) ws (close ws)

/-- The object has no title, and the finder returns the nested one. -/
theorem jsonFindField_nested_key :
    (group nestedTitle).render [] =
        ascii "\x7b\"a\":\x7b\"title\":1\x7d\x7d" ∧
      nestedTitle.firstMember (ascii "title") [] = none ∧
      jsonFindField ((group nestedTitle).render []) (ascii "title") =
        some (ascii "1\x7d\x7d") := by
  refine ⟨by decide, by decide, by decide⟩

end JsonPart

section Strings

variable {units : List StringUnit} {text : Bytes}

theorem denote_plain {b : UInt8} (hb : b ≠ 34 ∧ b ≠ 92)
    (units : List StringUnit) : denote (.plain b hb :: units) =
      if b < 32 then none else (denote units).map (b :: ·) := by
  rw [denote, characters]
  split
  · rfl
  · rw [Option.map_map, denote, Option.map_map]
    rfl

theorem denote_escaped {c : UInt8} (hc : c ≠ 117) (units : List StringUnit) :
    denote (.escaped c :: units) = (escapedValue c).bind fun v => (denote units).map (v :: ·) := by
  rw [denote, characters.eq_def, denote]
  simp only [if_neg hc]
  cases escapedValue c with
  | none => rfl
  | some v => cases characters units <;> rfl

theorem escapedValue_eq_some {c v : UInt8} (h : escapedValue c = some v) :
    unescapeByte c = v ∧ v ≠ 0 := by
  rw [escapedValue] at h
  split_ifs at h with hsame
  · obtain rfl := some.inj h
    rcases hsame with rfl | rfl | rfl <;> decide
  all_goals
    subst c
    obtain rfl := some.inj h
    decide

/-- A string without `\u` escapes is read as what it denotes, which has no zero
byte. -/
theorem readString_of_denote (hplain : .escaped 117 ∉ units)
    (h : denote units = some text) (rest : Bytes) :
    readString (renderUnits units ++ 34 :: rest) = some text ∧ 0 ∉ text := by
  induction units generalizing text with
  | nil =>
    obtain rfl := some.inj h
    exact ⟨readString_quote rest, not_mem_nil⟩
  | cons unit units ih =>
    rw [mem_cons, not_or] at hplain
    rw [renderUnits, flatMap_cons, append_assoc, ← renderUnits]
    cases unit with
    | plain b hb =>
      rw [denote_plain] at h
      split at h
      · cases h
      next hlow =>
        obtain ⟨more, hmore, rfl⟩ := map_eq_some_iff.mp h
        obtain ⟨hread, hzero⟩ := ih hplain.2 hmore
        rw [StringUnit.render, singleton_append, readString_char hb.1 hb.2, hread]
        refine ⟨rfl, fun hmem => ?_⟩
        rcases mem_cons.mp hmem with rfl | hmem
        · exact hlow (by decide)
        · exact hzero hmem
    | escaped c =>
      have hc : c ≠ 117 := fun hc => hplain.1 (by rw [hc])
      rw [denote_escaped hc] at h
      obtain ⟨v, hv, h⟩ := bind_eq_some_iff.mp h
      obtain ⟨more, hmore, rfl⟩ := map_eq_some_iff.mp h
      obtain ⟨hread, hzero⟩ := ih hplain.2 hmore
      obtain ⟨hvalue, hne⟩ := escapedValue_eq_some hv
      rw [StringUnit.render, cons_append, singleton_append, readString_escape hc, hread, hvalue]
      exact ⟨rfl, not_mem_cons_of_ne_of_not_mem hne.symm hzero⟩

theorem denote_of_plain (h : ∀ b ∈ renderUnits units, b ≠ 92 ∧ 32 ≤ b) :
    denote units = some (renderUnits units) := by
  induction units with
  | nil => rfl
  | cons unit units ih =>
    rw [renderUnits, flatMap_cons, ← renderUnits, forall_mem_append] at h
    cases unit with
    | plain b hb =>
      have hlow : ¬b < 32 := not_lt.mpr (h.1 b (mem_singleton_self b)).2
      rw [denote_plain, if_neg hlow, ih h.2]
      rfl
    | escaped c => exact absurd rfl (h.1 92 mem_cons_self).1

end Strings

/-! ## Objects -/

/-- A text that is an object, with the blanks around it. -/
structure JsonObject where
  head : Blanks
  members : JsonPart (.list true)
  tail : Blanks

namespace JsonObject

variable {o : JsonObject} {field text out : Bytes} {outSize : ℕ}

def render (o : JsonObject) : Bytes :=
  o.head.text ++ (JsonPart.group o.members).render o.tail.text

/-- The member called `field` is the string, however its name is written. -/
def HasText (o : JsonObject) (field : Bytes) (units : List StringUnit) : Prop :=
  (∃ entry ∈ o.members.entries, denote entry.1 = some field) ∧
    ∀ entry ∈ o.members.entries, denote entry.1 = some field → entry.2 = .text units

/-- The member called `field` is a string that denotes the text. -/
def Denotes (o : JsonObject) (field text : Bytes) : Prop :=
  ∃ units, o.HasText field units ∧ denote units = some text

/-- No value ahead of the member called `field` has `field` as a key inside, and
the string it is has no `\u` escape. -/
def Plain (o : JsonObject) (field : Bytes) : Prop :=
  o.members.Unshadowed field ∧ ∀ units, o.HasText field units → .escaped 117 ∉ units

theorem HasText.eq {units units' : List StringUnit} (h : o.HasText field units)
    (h' : o.HasText field units') : units = units' := by
  obtain ⟨entry, hentry, hname⟩ := h.1
  exact JsonPart.text.inj ((h.2 entry hentry hname).symm.trans (h'.2 entry hentry hname))

/-- The first member written as `field` is an entry with that name. -/
theorem exists_entry {k : JsonKind} (t : JsonPart k) {rest found : Bytes}
    (h : t.firstMember field rest = some found) :
    ∃ entry ∈ t.entries, renderUnits entry.1 = field ∧ ∃ more, found = entry.2.render more := by
  induction t with
  | element lead key hkey v trail more _ ih =>
    rw [JsonPart.firstMember] at h
    rw [JsonPart.entries]
    split at h
    next hname =>
      obtain ⟨key, rfl, hrender⟩ := map_eq_some_iff.mp hname
      exact ⟨_, mem_append_left _ (mem_singleton_self (key.name, v)), hrender, _, (some.inj h).symm⟩
    next =>
      obtain ⟨entry, hentry, hfound⟩ := ih h
      exact ⟨entry, mem_append_right _ hentry, hfound⟩
  | _ => cases h

/-- Where the reader returns a string, it is what the object denotes. -/
theorem cString_jsonGetString (hfield : ∀ b ∈ field, b ≠ 92 ∧ 32 ≤ b)
    (hplain : o.Plain field) (h : o.Denotes field text)
    (hget : jsonGetString o.render field outSize = some out) : cString out = text := by
  obtain ⟨units, htext, hdenote⟩ := h
  have hfind : jsonFindField o.render field = o.members.firstMember field o.tail.text := by
    rw [render, JsonPart.jsonFindField_object,
      (JsonPart.firstKey_eq_firstMember_iff o.members rfl _).mpr hplain.1]
  rw [jsonGetString, hfind] at hget
  cases hfirst : o.members.firstMember field o.tail.text with
  | none =>
    rw [hfirst] at hget
    cases hget
  | some found =>
    obtain ⟨entry, hentry, rfl, more, rfl⟩ := exists_entry o.members hfirst
    obtain ⟨hread, hzero⟩ := readString_of_denote (hplain.2 units htext) hdenote more
    simp only [hfirst, htext.2 entry hentry (denote_of_plain hfield),
      JsonPart.render, hread] at hget
    obtain ⟨-, hout⟩ := ite_none_right_eq_some.mp hget
    rw [← some.inj hout, cString_of_notMem hzero]

end JsonObject

end Codo.Common
