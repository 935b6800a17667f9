import Codo.Support.Decimal
import Mathlib.Tactic.Common

/-!
# Socket addresses

Addresses are IPv4 or IPv6.  An IPv6 address that maps an IPv4 address is
treated as that IPv4 address when it is compared or printed.

The conversions of the C library between addresses and text are a parameter.
Texts are what its documentation promises: dotted decimal for IPv4, groups of
hexadecimal digits for IPv6, with no text being both.  The dotted form inside an
IPv6 text is used for mapped and compatible addresses only, so that eight full
groups are the longest text.
-/

namespace Codo.Common

open Codo.Support Option List

/-- `sockaddr_storage`; `other` stands for every other family. -/
inductive SockAddr
  | inet (addr : Block 4) (port : UInt16)
  | inet6 (addr : Block 16) (port : UInt16)
  | other
  deriving DecidableEq

/-- A text of at most `width` printable characters, at least one. -/
structure IsText (width : ℕ) (text : Bytes) : Prop where
  ne_nil : text ≠ []
  length_le : text.length ≤ width
  printable : ∀ b ∈ text, 32 < b ∧ b < 127

/-- `inet_ntop` and `inet_pton` for both families. -/
structure AddressText where
  ntop4 : Block 4 → Bytes
  ntop6 : Block 16 → Bytes
  pton4 : Bytes → Option (Block 4)
  pton6 : Bytes → Option (Block 16)
  pton4_ntop4 : ∀ addr, pton4 (ntop4 addr) = some addr
  pton6_ntop6 : ∀ addr, pton6 (ntop6 addr) = some addr
  pton4_ntop6 : ∀ addr, pton4 (ntop6 addr) = none
  isText_ntop4 : ∀ addr, IsText 15 (ntop4 addr)
  isText_ntop6 : ∀ addr, IsText 39 (ntop6 addr)

/-- `IN6_IS_ADDR_V4MAPPED`. -/
def isV4Mapped (addr : Block 16) : Bool :=
  addr.bytes.take 12 == List.replicate 10 0 ++ [255, 255]

/-- The IPv4 address inside a mapped one. -/
def embedded (addr : Block 16) : Block 4 :=
  Block.ofBytes 4 (addr.bytes.drop 12)

/-- The bytes to compare, with mapped addresses unwrapped. -/
def addrBytes : SockAddr → Bytes
  | .inet addr _ => addr.bytes
  | .inet6 addr _ => if isV4Mapped addr then (embedded addr).bytes else addr.bytes
  | .other => []

/-- The text of an address, or `none` for an unknown family. -/
def netAddrStr (text : AddressText) : SockAddr → Option Bytes
  | .inet addr _ => some (text.ntop4 addr)
  | .inet6 addr _ =>
    if isV4Mapped addr then some (text.ntop4 (embedded addr))
    else some (text.ntop6 addr)
  | .other => none

def netAddrEqual (a b : SockAddr) : Bool :=
  addrBytes a != [] && addrBytes a == addrBytes b

def netAddrVersion (ss : SockAddr) : ℕ :=
  if (addrBytes ss).length = 4 then 4
  else if (addrBytes ss).length = 16 then 6
  else 0

def netAddrPort : SockAddr → UInt16
  | .inet _ port => port
  | .inet6 _ port => port
  | .other => 0

def netAddrFromStr (text : AddressText) (addr : Bytes) (port : UInt16) : Option SockAddr :=
  match text.pton4 addr with
  | some v4 => some (.inet v4 port)
  | none => (text.pton6 addr).map fun v6 => .inet6 v6 port

variable {text : AddressText} {ss : SockAddr} {str : Bytes}

theorem IsText.mono {width width' : ℕ} (h : IsText width str)
    (hle : width ≤ width') : IsText width' str :=
  ⟨h.ne_nil, h.length_le.trans hle, h.printable⟩

theorem IsText.isSpace_eq_false {width : ℕ} (h : IsText width str) :
    ∀ b ∈ str, isSpace b = false := by
  intro b hb
  obtain ⟨hlow, -⟩ := h.printable b hb
  rw [isSpace, Bool.or_eq_false_iff, beq_eq_false_iff_ne]
  constructor
  · exact hlow.ne'
  · rw [Bool.and_eq_false_iff, decide_eq_false_iff_not, decide_eq_false_iff_not]
    right
    intro hle
    exact absurd (hlow.trans_le hle) (by decide)

theorem isText_netAddrStr (h : netAddrStr text ss = some str) : IsText 39 str := by
  have h4 : ∀ addr, IsText 39 (text.ntop4 addr) :=
    fun addr => (text.isText_ntop4 addr).mono (by decide)
  cases ss with
  | inet addr port =>
    obtain rfl := some.inj h
    exact h4 addr
  | inet6 addr port =>
    rw [netAddrStr] at h
    split at h
    · obtain rfl := some.inj h
      exact h4 _
    · obtain rfl := some.inj h
      exact text.isText_ntop6 addr
  | other => cases h

variable (text) in
theorem exists_netAddrStr (hversion : netAddrVersion ss ≠ 0) :
    ∃ str, netAddrStr text ss = some str := by
  cases ss with
  | inet addr port => exact ⟨_, rfl⟩
  | inet6 addr port =>
    rw [netAddrStr]
    split <;> exact ⟨_, rfl⟩
  | other => exact absurd rfl hversion

/-- The address read from the text of an address is equal to it. -/
theorem netAddrFromStr_netAddrStr (h : netAddrStr text ss = some str) (port : UInt16) :
    ∃ declared, netAddrFromStr text str port = some declared ∧
      netAddrEqual declared ss = true ∧ netAddrPort declared = port := by
  have hequal : ∀ a b : SockAddr, addrBytes a ≠ [] → addrBytes a = addrBytes b →
      netAddrEqual a b = true := by
    intro a b hne heq
    rw [netAddrEqual, Bool.and_eq_true, bne_iff_ne, beq_iff_eq]
    exact ⟨hne, heq⟩
  have h4 : ∀ addr, netAddrFromStr text (text.ntop4 addr) port = some (.inet addr port) := by
    intro addr
    rw [netAddrFromStr, text.pton4_ntop4]
  cases ss with
  | inet addr _ =>
    obtain rfl := some.inj h
    refine ⟨_, h4 addr, hequal _ _ ?_ rfl, rfl⟩
    exact Block.bytes_ne_nil (by decide) addr
  | inet6 addr _ =>
    rw [netAddrStr] at h
    split at h
    case isTrue hmapped =>
      obtain rfl := some.inj h
      refine ⟨_, h4 (embedded addr), hequal _ _ ?_ ?_, rfl⟩
      · exact Block.bytes_ne_nil (by decide) (embedded addr)
      · rw [addrBytes, addrBytes, if_pos hmapped]
    case isFalse hplain =>
      obtain rfl := some.inj h
      refine ⟨.inet6 addr port, ?_, hequal _ _ ?_ rfl, rfl⟩
      · rw [netAddrFromStr, text.pton4_ntop6, text.pton6_ntop6]
        rfl
      · rw [addrBytes, if_neg hplain]
        exact Block.bytes_ne_nil (by decide) addr
  | other => cases h

def hexByte (d : ℕ) : UInt8 :=
  UInt8.ofNat (if d < 10 then 48 + d else 87 + d)

def hexValue (b : UInt8) : ℕ :=
  if b.toNat < 58 then b.toNat - 48 else b.toNat - 87

def hexText (bytes : Bytes) : Bytes :=
  bytes.flatMap fun b => [hexByte (b.toNat / 16), hexByte (b.toNat % 16)]

def unhex : Bytes → Bytes
  | a :: b :: rest => UInt8.ofNat (hexValue a * 16 + hexValue b) :: unhex rest
  | _ => []

theorem hexByte_spec {d : ℕ} (hd : d < 16) :
    hexValue (hexByte d) = d ∧ 32 < hexByte d ∧ hexByte d < 127 := by
  have hall : ∀ d < 16, hexValue (hexByte d) = d ∧ 32 < hexByte d ∧ hexByte d < 127 := by decide
  exact hall d hd

theorem unhex_hexText (bytes : Bytes) : unhex (hexText bytes) = bytes := by
  induction bytes with
  | nil => rfl
  | cons b bytes ih =>
    have hlt := b.toNat_lt
    have hhigh := (hexByte_spec (show b.toNat / 16 < 16 by omega)).1
    have hlow := (hexByte_spec (Nat.mod_lt b.toNat (show 16 > 0 by decide))).1
    have hvalue : b.toNat / 16 * 16 + b.toNat % 16 = b.toNat := by omega
    change UInt8.ofNat _ :: unhex (hexText bytes) = b :: bytes
    rw [ih, hhigh, hlow, hvalue, UInt8.ofNat_toNat]

theorem length_hexText (bytes : Bytes) : (hexText bytes).length = 2 * bytes.length := by
  simp [hexText, mul_comm]

theorem printable_hexText {bytes : Bytes} {b : UInt8} (hb : b ∈ hexText bytes) :
    32 < b ∧ b < 127 := by
  obtain ⟨byte, -, hdigit⟩ := mem_flatMap.mp hb
  have hlt := byte.toNat_lt
  obtain rfl | hlow := mem_cons.mp hdigit
  · exact (hexByte_spec (show byte.toNat / 16 < 16 by omega)).2
  · obtain rfl := mem_singleton.mp hlow
    exact (hexByte_spec (Nat.mod_lt byte.toNat (show 16 > 0 by decide))).2

/-- An IPv4 address in dotted decimal. -/
def dotted (addr : Block 4) : Bytes :=
  [46].intercalate (addr.bytes.map fun b => decimal b.toNat)

/-- The address of which this can be the dotted text. -/
def undotted (str : Bytes) : Block 4 :=
  Block.ofBytes 4 ((str.splitOn 46).map fun digits => UInt8.ofNat (digitsValue digits))

theorem undotted_dotted (addr : Block 4) : undotted (dotted addr) = addr := by
  have hnodot : ∀ l ∈ addr.bytes.map fun b => decimal b.toNat, 46 ∉ l := by
    intro l hl hdot
    obtain ⟨b, -, rfl⟩ := mem_map.mp hl
    exact absurd (isDigit_of_mem_decimal hdot) (by decide)
  have hne : (addr.bytes.map fun b => decimal b.toNat) ≠ [] :=
    map_eq_nil_iff.not.mpr (Block.bytes_ne_nil (by decide) addr)
  rw [undotted, dotted, splitOn_intercalate 46 hnodot hne, List.map_map]
  simp [Function.comp_def, digitsValue_decimal, Block.ofBytes_bytes]

theorem exists_dotted (addr : Block 4) :
    ∃ a b c d : UInt8, dotted addr = decimal a.toNat ++ (46 :: (decimal b.toNat ++
      (46 :: (decimal c.toNat ++ (46 :: decimal d.toNat))))) := by
  obtain ⟨bytes, hlen⟩ := addr
  match bytes, hlen with
  | [a, b, c, d], _ => exact ⟨a, b, c, d, by simp [dotted, intercalate]⟩

theorem isText_dotted (addr : Block 4) : IsText 15 (dotted addr) := by
  obtain ⟨a, b, c, d, hdotted⟩ := exists_dotted addr
  have hlen : ∀ b : UInt8, (decimal b.toNat).length ≤ 3 :=
    fun b => length_decimal_le (by decide) (by have := b.toNat_lt; omega)
  have hdigit : ∀ {n} {b : UInt8}, b ∈ decimal n → 32 < b ∧ b < 127 := by
    intro n b hb
    have hb := toNat_of_isDigit (isDigit_of_mem_decimal hb)
    rw [UInt8.lt_iff_toNat_lt, UInt8.lt_iff_toNat_lt]
    exact ⟨show 32 < b.toNat by omega, show b.toNat < 127 by omega⟩
  rw [hdotted]
  refine ⟨append_ne_nil_of_left_ne_nil (decimal_ne_nil _) _, ?_, ?_⟩
  · have := hlen a
    have := hlen b
    have := hlen c
    have := hlen d
    simp only [length_append, length_cons]
    omega
  · simp only [mem_append, mem_cons]
    rintro b (h | rfl | h | rfl | h | rfl | h)
    · exact hdigit h
    · decide
    · exact hdigit h
    · decide
    · exact hdigit h
    · decide
    · exact hdigit h

/-- Dotted decimal for IPv4.  An IPv6 address is a colon and its bytes in
hexadecimal, which stands in for the groups. -/
def dottedText : AddressText where
  ntop4 := dotted
  ntop6 addr := 58 :: hexText addr.bytes
  pton4 str := if dotted (undotted str) = str then some (undotted str) else none
  pton6 str :=
    let addr : Block 16 := Block.ofBytes 16 (unhex str.tail)
    if 58 :: hexText addr.bytes = str then some addr else none
  pton4_ntop4 addr := by rw [undotted_dotted, if_pos rfl]
  pton6_ntop6 addr := by simp only [tail_cons, unhex_hexText, Block.ofBytes_bytes, if_true]
  pton4_ntop6 addr := by
    refine if_neg fun h => ?_
    obtain ⟨a, b, c, d, hdotted⟩ := exists_dotted (undotted (58 :: hexText addr.bytes))
    rw [hdotted] at h
    have hhead := congrArg List.head? h
    rw [head?_append_of_ne_nil _ (decimal_ne_nil _)] at hhead
    exact absurd (isDigit_of_mem_decimal (mem_of_mem_head? hhead)) (by decide)
  isText_ntop4 := isText_dotted
  isText_ntop6 addr := by
    refine ⟨cons_ne_nil _ _, ?_, fun b hb => ?_⟩
    · rw [length_cons, length_hexText, addr.length_eq]
      decide
    · obtain rfl | hb := mem_cons.mp hb
      · decide
      · exact printable_hexText hb

end Codo.Common
