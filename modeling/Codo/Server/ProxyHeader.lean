import Codo.Common.NetAddress
import Codo.Server.Framing

/-!
# Reading a PROXY header

A server that trusts its peer expects a PROXY protocol line in front of the
first request, which names the client's address.  The line may arrive in any
number of pieces.

A line that fits the reader's window is waited for while it is incomplete, and
is then removed as a whole.
-/

namespace Codo.Server

open Support Common List

/-- The longest header line that is waited for, with its line end. -/
def proxyMaxLen : ℕ := 108

/-- The conversions of `"PROXY %7s %45s %45s %u %u"`: the protocol, the two
addresses and the two ports. -/
def scanProxyLine (line : Bytes) : Option (Bytes × Bytes × Bytes × ℕ × ℕ) := do
  guard (line.take 5 = ascii "PROXY")
  let (proto, rest) ← scanWord 7 (line.drop 5)
  let (src, rest) ← scanWord 45 rest
  let (dst, rest) ← scanWord 45 rest
  let (sport, rest) ← scanUnsigned rest
  let (dport, _) ← scanUnsigned rest
  return (proto, src, dst, sport, dport)

/-- The source address and port that a well-formed line declares. -/
def declaredSource (line : Bytes) : Option (Bytes × ℕ) := do
  let (proto, src, _, sport, _) ← scanProxyLine line
  guard ((proto = ascii "TCP4" ∨ proto = ascii "TCP6") ∧ sport ≤ 65535)
  return (src, sport)

/-- The client address after a header line, or `none` for a malformed one.  A
declared address that cannot be read leaves the address as it was. -/
def adoptProxyLine (text : AddressText) (line : Bytes) (clientAddr : SockAddr) : Option SockAddr :=
  match declaredSource line with
  | some (src, sport) => some ((netAddrFromStr text src (UInt16.ofNat sport)).getD clientAddr)
  | none => if strneq line (ascii "PROXY UNKNOWN") 13 then some clientAddr else none

/-- The result, the read buffer and the client address after a call. -/
structure ProxyRead where
  result : ℤ
  buf : Bytes
  clientAddr : SockAddr
  deriving DecidableEq

def consumeProxyHeader (text : AddressText) (buf : Bytes) (clientAddr : SockAddr) : ProxyRead :=
  if buf.length < 6 then
    ⟨if buf = (ascii "PROXY ").take buf.length then 0 else -1, buf, clientAddr⟩
  else if buf.take 6 ≠ ascii "PROXY " then ⟨-1, buf, clientAddr⟩
  else
    match splitByte 10 (buf.take proxyMaxLen) with
    | none => ⟨if proxyMaxLen ≤ buf.length then -1 else 0, buf, clientAddr⟩
    | some (front, _) =>
      let line := stripCr front
      if 128 ≤ line.length then ⟨-1, buf, clientAddr⟩
      else
        match adoptProxyLine text (cString line) clientAddr with
        | none => ⟨-1, buf, clientAddr⟩
        | some addr => ⟨1, connConsumeRead buf (front.length + 1), addr⟩

/-! ## Fields of a line -/

/-- Decimal digits that denote a port. -/
structure IsPort (digits : Bytes) (port : ℕ) : Prop where
  ne_nil : digits ≠ []
  digit : ∀ b ∈ digits, isDigit b = true
  value : digitsValue digits = port
  le : port ≤ 65535

/-- The line `PROXY proto src dst sport dport`. -/
def proxyFields (proto src dst sport dport : Bytes) : Bytes :=
  ascii "PROXY" ++ (ascii " " ++ (proto ++ (ascii " " ++ (src ++ (ascii " " ++
    (dst ++ (ascii " " ++ (sport ++ (ascii " " ++ dport)))))))))

theorem scanWord_field {width : ℕ} {word : Bytes} (hword : IsText width word) (rest : Bytes) :
    scanWord width (ascii " " ++ (word ++ (ascii " " ++ rest))) =
      some (word, ascii " " ++ rest) := by
  have hspace : ∀ b ∈ ascii " ", isSpace b = true := forall_mem_of_all (by decide)
  rw [scanWord_spaces hspace]
  refine scanWord_append hword.isSpace_eq_false hword.ne_nil hword.length_le _ ?_
  right
  intro b hb
  obtain rfl := Option.some.inj hb
  rfl

theorem scanUnsigned_space (rest : Bytes) :
    scanUnsigned (ascii " " ++ rest) = scanUnsigned rest := rfl

theorem IsPort.scanUnsigned {digits : Bytes} {port : ℕ} (h : IsPort digits port) {rest : Bytes}
    (hrest : ∀ b ∈ rest.head?, isDigit b = false) :
    scanUnsigned (digits ++ rest) = some (port, rest) := by
  have hlt : digitsValue digits < 2 ^ 32 := by
    have hle := h.le
    rw [h.value]
    omega
  rw [scanUnsigned_digits h.ne_nil h.digit hlt hrest, h.value]

theorem scanProxyLine_fields {proto src dst sport dport : Bytes}
    {port port' : ℕ} (hproto : IsText 7 proto) (hsrc : IsText 45 src)
    (hdst : IsText 45 dst) (hsport : IsPort sport port) (hdport : IsPort dport port') :
    scanProxyLine (proxyFields proto src dst sport dport) =
      some (proto, src, dst, port, port') := by
  have hstart : ∀ rest, (ascii "PROXY" ++ rest).take 5 = ascii "PROXY" := fun rest => take_left' rfl
  have hbehind : ∀ rest, (ascii "PROXY" ++ rest).drop 5 = rest := fun rest => drop_left' rfl
  have hblank : ∀ rest : Bytes, ∀ b ∈ (ascii " " ++ rest).head?, isDigit b = false := by
    intro rest b hb
    obtain rfl := Option.some.inj hb
    rfl
  have hlast : scanUnsigned dport = some (port', []) := by
    have hscan := hdport.scanUnsigned (show ∀ b ∈ ([] : Bytes).head?, isDigit b = false from nofun)
    rwa [append_nil] at hscan
  rw [scanProxyLine, proxyFields, hstart, hbehind]
  simp only [guard, if_true, Option.bind_eq_bind, Option.bind_some,
    Option.pure_def, scanWord_field hproto, scanWord_field hsrc,
    scanWord_field hdst, scanUnsigned_space, hsport.scanUnsigned (hblank _), hlast]

theorem declaredSource_eq_some_iff {line src : Bytes} {sport : ℕ} :
    declaredSource line = some (src, sport) ↔ ∃ proto dst dport,
        scanProxyLine line = some (proto, src, dst, sport, dport) ∧
        (proto = ascii "TCP4" ∨ proto = ascii "TCP6") ∧ sport ≤ 65535 := by
  rw [declaredSource]
  cases hscan : scanProxyLine line with
  | none => simp
  | some fields =>
    obtain ⟨proto, src', dst, sport', dport⟩ := fields
    simp only [Option.bind_eq_bind, Option.bind_some, guard]
    split
    next hgood =>
      simp only [Option.pure_def, Option.bind_some, Option.some.injEq, Prod.mk.injEq]
      constructor
      · rintro ⟨rfl, rfl⟩
        exact ⟨proto, dst, dport, ⟨rfl, rfl, rfl, rfl, rfl⟩, hgood⟩
      · rintro ⟨_, _, _, ⟨-, rfl, -, rfl, -⟩, -⟩
        exact ⟨rfl, rfl⟩
    next hbad =>
      simp only [Option.failure_eq_none, Option.bind_none, reduceCtorEq,
        Option.some.injEq, Prod.mk.injEq, false_iff]
      rintro ⟨_, _, _, ⟨rfl, rfl, rfl, rfl, rfl⟩, hgood⟩
      exact hbad hgood

theorem declaredSource_proxyFields {proto src dst sport dport : Bytes}
    {port port' : ℕ} (hproto : proto = ascii "TCP4" ∨ proto = ascii "TCP6")
    (hsrc : IsText 45 src) (hdst : IsText 45 dst) (hsport : IsPort sport port)
    (hdport : IsPort dport port') :
    declaredSource (proxyFields proto src dst sport dport) = some (src, port) := by
  have htext : IsText 7 proto := by
    obtain rfl | rfl := hproto <;> exact ⟨by decide, by decide, forall_mem_of_all (by decide)⟩
  exact declaredSource_eq_some_iff.mpr ⟨proto, dst, port',
    scanProxyLine_fields htext hsrc hdst hsport hdport, hproto, hsport.le⟩

section Complete

variable {front : Bytes}

theorem start_prefix_iff (front rest : Bytes) :
    ascii "PROXY " <+: front ++ 10 :: rest ↔ ascii "PROXY " <+: stripCr front := by
  have hcut : ∀ (b : UInt8) (xs ys : Bytes), b ∉ ascii "PROXY " →
      (ascii "PROXY " <+: xs ++ b :: ys ↔ ascii "PROXY " <+: xs) := by
    intro b xs ys hb
    constructor
    · intro h
      rcases prefix_append_cases h with hshort | ⟨q, hq, hqpfx⟩
      · exact hshort
      · cases q with
        | nil => exact ⟨[], by rw [hq]; simp⟩
        | cons c q =>
          obtain ⟨rfl, -⟩ := cons_prefix_cons.mp hqpfx
          exact absurd (hq ▸ mem_append_right _ mem_cons_self) hb
    · intro h
      exact h.trans (prefix_append _ _)
  rw [hcut 10 front rest (by decide)]
  rcases eq_stripCr front with heq | heq
  · rw [← heq]
  · nth_rewrite 1 [heq]
    exact hcut 13 (stripCr front) [] (by decide)

/-- The call on a buffer whose first line is complete. -/
theorem consumeProxyHeader_complete (text : AddressText) (hfront : 10 ∉ front)
    (hlen : front.length + 1 ≤ proxyMaxLen) (rest : Bytes) (clientAddr : SockAddr) :
    consumeProxyHeader text (front ++ 10 :: rest) clientAddr =
      match (if ascii "PROXY " <+: stripCr front then
        adoptProxyLine text (cString (stripCr front)) clientAddr else none) with
      | none => ⟨-1, front ++ 10 :: rest, clientAddr⟩
      | some addr => ⟨1, rest, addr⟩ := by
  have hstart := start_prefix_iff front rest
  have hsix : (front ++ 10 :: rest).take 6 = ascii "PROXY " ↔ ascii "PROXY " <+: stripCr front := by
    rw [← hstart, prefix_iff_eq_take]
    exact eq_comm
  rw [consumeProxyHeader]
  by_cases hshort : (front ++ 10 :: rest).length < 6
  · -- A line end is no part of the start of a header.
    have hne : front ++ 10 :: rest ≠ (ascii "PROXY ").take (front ++ 10 :: rest).length := by
      intro heq
      have hmem : (10 : UInt8) ∈ front ++ 10 :: rest := by simp
      rw [heq] at hmem
      exact absurd (mem_of_mem_take hmem) (by decide)
    have hno : ¬ascii "PROXY " <+: stripCr front := by
      rw [← hstart]
      intro hpfx
      exact absurd hpfx.length_le (not_le.mpr hshort)
    rw [if_pos hshort, if_neg hne, if_neg hno]
  · rw [if_neg hshort]
    by_cases hpfx : ascii "PROXY " <+: stripCr front
    · have hwindow : splitByte 10 ((front ++ 10 :: rest).take proxyMaxLen) =
          some (front, rest.take (proxyMaxLen - (front.length + 1))) := by
        have hcut : (front ++ 10 :: rest).take proxyMaxLen =
            front ++ 10 :: rest.take (proxyMaxLen - (front.length + 1)) := by
          rw [take_append, take_of_length_le (by omega)]
          obtain ⟨k, hk⟩ := Nat.exists_eq_add_of_le hlen
          have hrest : proxyMaxLen - front.length = k + 1 := by omega
          have hmore : proxyMaxLen - (front.length + 1) = k := by omega
          rw [hrest, hmore, take_succ_cons]
        rw [hcut, splitByte_append hfront]
      have hfits : ¬128 ≤ (stripCr front).length := by
        have hle : (stripCr front).length ≤ front.length := by
          rcases eq_stripCr front with heq | heq
          · exact (congrArg List.length heq).ge
          · have hsum := congrArg List.length heq
            rw [length_append] at hsum
            omega
        rw [proxyMaxLen] at hlen
        omega
      have hdrop : connConsumeRead (front ++ 10 :: rest) (front.length + 1) = rest := by
        rw [connConsumeRead, ← singleton_append, ← append_assoc]
        exact drop_left' (by simp)
      rw [if_neg (not_not.mpr (hsix.mpr hpfx)), hwindow, if_pos hpfx]
      cases hadopt : adoptProxyLine text (cString (stripCr front)) clientAddr with
      | none => simp only [if_neg hfits, hadopt]
      | some addr => simp only [if_neg hfits, hdrop, hadopt]
    · rw [if_pos (fun h => hpfx (hsix.mp h)), if_neg hpfx]

end Complete

section Lines

variable {text : AddressText} {line pfx : Bytes} {clientAddr : SockAddr}

/-- A line that the reader takes as a header: it starts as one, holds neither a
line end nor a zero byte, and fits the window with its line end. -/
structure IsProxyLine (line : Bytes) : Prop where
  start : ascii "PROXY " <+: line
  newline : 10 ∉ line
  zero : 0 ∉ line
  length_le : line.length + 2 ≤ proxyMaxLen

theorem IsProxyLine.take_six (h : IsProxyLine line) (rest : Bytes) :
    (line ++ rest).take 6 = ascii "PROXY " := by
  obtain ⟨tail, rfl⟩ := h.start
  rw [append_assoc]
  exact take_left' rfl

theorem consumeProxyHeader_properPrefix (h : IsProxyLine line)
    (hpfx : pfx <+: line ++ [13, 10]) (hne : pfx ≠ line ++ [13, 10]) :
    consumeProxyHeader text pfx clientAddr = ⟨0, pfx, clientAddr⟩ := by
  have hstart := h.take_six [13, 10]
  have htake : ∀ k, k ≤ pfx.length → pfx.take k = (line ++ [13, 10]).take k := by
    intro k hk
    rw [prefix_iff_eq_take.mp hpfx, take_take, min_eq_left hk]
  rw [consumeProxyHeader]
  split
  case isTrue hshort =>
    have hfront : pfx = (ascii "PROXY ").take pfx.length := by
      rw [← hstart, take_take, min_eq_left hshort.le, ← htake _ le_rfl, take_length]
    rw [if_pos hfront]
  case isFalse hlong =>
    have hsix : pfx.take 6 = ascii "PROXY " := (htake 6 (not_lt.mp hlong)).trans hstart
    have hline : (10 : UInt8) ∉ line ++ [13] := by
      rw [mem_append, not_or]
      exact ⟨h.newline, by decide⟩
    have hsplit : line ++ [13, 10] = (line ++ [13]) ++ 10 :: [] := by
      rw [append_assoc]
      rfl
    have hopen : (10 : UInt8) ∉ pfx := by
      rw [hsplit] at hpfx hne
      obtain hopen | ⟨q, -, hq, hnil⟩ := properPrefix_line hline hpfx hne
      · exact hopen
      · exact absurd (prefix_nil.mp hq) hnil
    have hnone : splitByte 10 (pfx.take proxyMaxLen) = none :=
      splitByte_eq_none_iff.mpr fun hmem => hopen (mem_of_mem_take hmem)
    have hlength : ¬proxyMaxLen ≤ pfx.length := by
      have hlt : pfx.length < (line ++ [13, 10]).length := by
        refine lt_of_le_of_ne hpfx.length_le fun heq => hne ?_
        exact hpfx.eq_of_length heq
      rw [length_append] at hlt
      exact not_le.mpr (hlt.trans_le h.length_le)
    rw [if_neg (not_not.mpr hsix), hnone]
    simp only [if_neg hlength]

theorem consumeProxyHeader_line (h : IsProxyLine line) {addr : SockAddr}
    (hadopt : adoptProxyLine text line clientAddr = some addr) (rest : Bytes) :
    consumeProxyHeader text (line ++ [13, 10] ++ rest) clientAddr = ⟨1, rest, addr⟩ := by
  have hline : (10 : UInt8) ∉ line ++ [13] := by
    rw [mem_append, not_or]
    exact ⟨h.newline, by decide⟩
  have hcut : line ++ [13, 10] ++ rest = (line ++ [13]) ++ 10 :: rest := by
    simp only [append_assoc, cons_append, nil_append]
  have hlength : (line ++ [13]).length + 1 ≤ proxyMaxLen := by
    rw [length_append]
    exact h.length_le
  rw [hcut, consumeProxyHeader_complete text hline hlength, stripCr_concat,
    if_pos h.start, cString_of_notMem h.zero, hadopt]

end Lines

end Codo.Server
