import Codo.Server.ProxyHeader

/-!
# The PROXY header and its reader

The balancer tells the backend the client's address in a PROXY protocol line in
front of the first byte it relays.  An address that it cannot state accurately
is declared unknown.

The server's reader accepts every such line, in whatever pieces it arrives,
removes exactly its bytes, and takes over the declared address.
-/

namespace Codo.Balancer

open Support Common Server List

/-- `sizeof(conn->proxy_hdr)`. -/
def proxyHdrSize : ℕ := 128

/-- The line that declares the client unknown, without its line end. -/
def unknownLine : Bytes := ascii "PROXY UNKNOWN"

/-- The line `"PROXY TCP%d %s %s %u %u"`, without its line end. -/
def tcpLine (version : ℕ) (src dst : Bytes) (sport dport : UInt16) : Bytes :=
  ascii "PROXY TCP" ++ decimal version ++ ascii " " ++ src ++ ascii " " ++ dst ++
    ascii " " ++ decimal sport.toNat ++ ascii " " ++ decimal dport.toNat

/-- The line for an address pair that can be stated, with `localAddr` what
`getsockname` returned. -/
def statedLine (text : AddressText) (client : SockAddr)
    (localAddr : Option SockAddr) : Option Bytes := do
  let here ← localAddr
  guard (netAddrVersion client ≠ 0 ∧ netAddrVersion here = netAddrVersion client)
  let src ← netAddrStr text client
  let dst ← netAddrStr text here
  return tcpLine (netAddrVersion client) src dst (netAddrPort client) (netAddrPort here)

/-- The header of a connection, empty when the feature is off. -/
def buildProxyHeader (text : AddressText) (proxyProtocol : Bool)
    (client : SockAddr) (localAddr : Option SockAddr) : Bytes :=
  if proxyProtocol then
    match statedLine text client localAddr with
    | some line =>
      if proxyHdrSize ≤ (line ++ ascii "\r\n").length then
        unknownLine ++ ascii "\r\n"
      else
        line ++ ascii "\r\n"
    | none => unknownLine ++ ascii "\r\n"
  else
    []

section Written

variable {src dst : Bytes} {version : ℕ} {sport dport : UInt16}

theorem isProxyLine_unknownLine : IsProxyLine unknownLine := by
  constructor
  · exact ⟨ascii "UNKNOWN", rfl⟩
  · decide
  · decide
  · decide

theorem le_of_isDigit {b : UInt8} (h : isDigit b = true) : 32 ≤ b := by
  rw [isDigit, Bool.and_eq_true, decide_eq_true_iff] at h
  exact le_trans (by decide) h.1

theorem le_of_mem_tcpLine (hsrc : IsText 39 src) (hdst : IsText 39 dst) {b : UInt8}
    (hb : b ∈ tcpLine version src dst sport dport) : 32 ≤ b := by
  have hliteral : ∀ b ∈ ascii "PROXY TCP", 32 ≤ b := forall_mem_of_all (by decide)
  have hspace : ∀ b ∈ ascii " ", 32 ≤ b := forall_mem_of_all (by decide)
  have hdecimal : ∀ n, ∀ b ∈ decimal n, 32 ≤ b :=
    fun n b hb => le_of_isDigit (isDigit_of_mem_decimal hb)
  simp only [tcpLine, mem_append] at hb
  obtain ((((((((hb | hb) | hb) | hb) | hb) | hb) | hb) | hb) | hb) | hb := hb
  · exact hliteral b hb
  · exact hdecimal _ b hb
  · exact hspace b hb
  · exact (hsrc.printable b hb).1.le
  · exact hspace b hb
  · exact (hdst.printable b hb).1.le
  · exact hspace b hb
  · exact hdecimal _ b hb
  · exact hspace b hb
  · exact hdecimal _ b hb

theorem length_tcpLine_le (hversion : version < 10) (hsrc : IsText 39 src) (hdst : IsText 39 dst) :
    (tcpLine version src dst sport dport).length ≤ 102 := by
  have hliteral : (ascii "PROXY TCP").length = 9 := rfl
  have hspace : (ascii " ").length = 1 := rfl
  have hport : ∀ port : UInt16, (decimal port.toNat).length ≤ 5 := by
    intro port
    have hlt := port.toNat_lt
    exact length_decimal_le (by decide) (by omega)
  have hdigit : (decimal version).length ≤ 1 := length_decimal_le le_rfl hversion
  have hs := hport sport
  have hd := hport dport
  have hsrcLen := hsrc.length_le
  have hdstLen := hdst.length_le
  simp only [tcpLine, length_append, hliteral, hspace]
  omega

theorem isProxyLine_tcpLine (hversion : version < 10) (hsrc : IsText 39 src)
    (hdst : IsText 39 dst) : IsProxyLine (tcpLine version src dst sport dport) := by
  have hlength : (tcpLine version src dst sport dport).length ≤ 102 :=
    length_tcpLine_le hversion hsrc hdst
  constructor
  · have hliteral : ascii "PROXY TCP" = ascii "PROXY " ++ ascii "TCP" := rfl
    simp only [tcpLine, hliteral, append_assoc]
    exact List.prefix_append _ _
  · intro hmem
    exact absurd (le_of_mem_tcpLine hsrc hdst hmem) (by decide)
  · intro hmem
    exact absurd (le_of_mem_tcpLine hsrc hdst hmem) (by decide)
  · rw [proxyMaxLen]
    omega

theorem decimal_four : decimal 4 = ascii "4" := by
  simp [decimal]
  decide

theorem decimal_six : decimal 6 = ascii "6" := by
  simp [decimal]
  decide

theorem isPort_decimal (port : UInt16) : IsPort (decimal port.toNat) port.toNat :=
  ⟨decimal_ne_nil _, fun _ hb => isDigit_of_mem_decimal hb,
    digitsValue_decimal _, Nat.le_of_lt_succ port.toNat_lt⟩

theorem declaredSource_tcpLine (hversion : version = 4 ∨ version = 6)
    (hsrc : IsText 39 src) (hdst : IsText 39 dst) :
    declaredSource (tcpLine version src dst sport dport) = some (src, sport.toNat) := by
  have hname : ascii "TCP" ++ decimal version = ascii "TCP4" ∨
      ascii "TCP" ++ decimal version = ascii "TCP6" := by
    obtain rfl | rfl := hversion
    · rw [decimal_four]
      exact .inl rfl
    · rw [decimal_six]
      exact .inr rfl
  have hline : tcpLine version src dst sport dport =
      proxyFields (ascii "TCP" ++ decimal version) src dst
        (decimal sport.toNat) (decimal dport.toNat) := by
    have hliteral : ascii "PROXY TCP" = ascii "PROXY" ++ (ascii " " ++ ascii "TCP") := rfl
    simp only [tcpLine, proxyFields, hliteral, append_assoc]
  rw [hline]
  exact declaredSource_proxyFields hname (hsrc.mono (by decide))
    (hdst.mono (by decide)) (isPort_decimal sport) (isPort_decimal dport)

end Written

section Agreement

variable {text : AddressText} {client clientAddr addr : SockAddr}
  {localAddr : Option SockAddr} {line : Bytes}

/-- The balancer knows both addresses of the connection, of one version. -/
def KnowsAddresses (client : SockAddr) (localAddr : Option SockAddr) : Prop :=
  ∃ here, localAddr = some here ∧ netAddrVersion client ≠ 0 ∧
    netAddrVersion here = netAddrVersion client

theorem netAddrVersion_cases (h : netAddrVersion client ≠ 0) :
    netAddrVersion client = 4 ∨ netAddrVersion client = 6 := by
  rw [netAddrVersion] at h ⊢
  split
  · exact .inl rfl
  case isFalse hfour =>
    rw [if_neg hfour] at h
    split
    · exact .inr rfl
    case isFalse hsix => exact absurd (if_neg hsix) h

theorem exists_statedLine (text : AddressText) (hknows : KnowsAddresses client localAddr) :
    ∃ src dst dport, netAddrStr text client = some src ∧ IsText 39 dst ∧
      statedLine text client localAddr =
        some (tcpLine (netAddrVersion client) src dst (netAddrPort client) dport) := by
  obtain ⟨here, rfl, hversion, hsame⟩ := hknows
  obtain ⟨src, hsrc⟩ := exists_netAddrStr text hversion
  obtain ⟨dst, hdst⟩ := exists_netAddrStr text (hsame.trans_ne hversion)
  refine ⟨src, dst, netAddrPort here, hsrc, isText_netAddrStr hdst, ?_⟩
  simp [statedLine, guard, hversion, hsame, hsrc, hdst]

theorem statedLine_eq_none (text : AddressText) (hunknown : ¬KnowsAddresses client localAddr) :
    statedLine text client localAddr = none := by
  cases localAddr with
  | none => rfl
  | some here =>
    have hguard : ¬(netAddrVersion client ≠ 0 ∧ netAddrVersion here = netAddrVersion client) :=
      fun h => hunknown ⟨here, rfl, h⟩
    simp only [statedLine, guard, if_neg hguard, Option.bind_eq_bind,
      Option.bind_some, Option.failure_eq_none, Option.bind_none]

theorem adoptProxyLine_unknownLine (text : AddressText) (clientAddr : SockAddr) :
    adoptProxyLine text unknownLine clientAddr = some clientAddr := by
  rw [adoptProxyLine]
  rfl

/-- The header states the client's address when both are known, and is the
unknown line otherwise; the reader takes either line. -/
theorem exists_buildProxyHeader_eq (text : AddressText) (client : SockAddr)
    (localAddr : Option SockAddr) (clientAddr : SockAddr) :
    ∃ line addr, buildProxyHeader text true client localAddr = line ++ [13, 10] ∧
      IsProxyLine line ∧ adoptProxyLine text line clientAddr = some addr ∧
      (KnowsAddresses client localAddr → netAddrEqual addr client = true ∧
          netAddrPort addr = netAddrPort client) ∧ (¬KnowsAddresses client localAddr →
        line = unknownLine ∧ addr = clientAddr) := by
  by_cases hknows : KnowsAddresses client localAddr
  · obtain ⟨src, dst, dport, hsrc, hdst, hstated⟩ := exists_statedLine text hknows
    have hversion : netAddrVersion client ≠ 0 := by
      obtain ⟨_, -, hversion, -⟩ := hknows
      exact hversion
    have hfour := netAddrVersion_cases hversion
    have hlt : netAddrVersion client < 10 := by omega
    have hsrcText := isText_netAddrStr hsrc
    obtain ⟨declared, hdeclared, hequal, hport⟩ :=
      netAddrFromStr_netAddrStr hsrc (netAddrPort client)
    have hline : IsProxyLine (tcpLine (netAddrVersion client) src dst
        (netAddrPort client) dport) := isProxyLine_tcpLine hlt hsrcText hdst
    refine ⟨_, declared, ?_, hline, ?_, fun _ => ⟨hequal, hport⟩, ?_⟩
    · have hfits := hline.length_le
      rw [proxyMaxLen] at hfits
      rw [buildProxyHeader, if_pos rfl, hstated]
      refine if_neg ?_
      rw [proxyHdrSize, length_append]
      exact not_le.mpr (lt_of_le_of_lt hfits (by decide))
    · rw [adoptProxyLine, declaredSource_tcpLine hfour hsrcText hdst]
      simp only [UInt16.ofNat_toNat, hdeclared, Option.getD_some]
    · intro hunknown
      exact absurd hknows hunknown
  · refine ⟨unknownLine, clientAddr, ?_, isProxyLine_unknownLine,
      adoptProxyLine_unknownLine text clientAddr, ?_, fun _ => ⟨rfl, rfl⟩⟩
    · rw [buildProxyHeader, if_pos rfl, statedLine_eq_none text hknows]
      rfl
    · intro h
      exact absurd h hknows

/-- However the header arrives, the reader waits for its last byte, then removes
exactly its bytes and takes over the client's address, or keeps the address it
has when the balancer declared the client unknown. -/
theorem proxyHeader_read_back (text : AddressText) (client : SockAddr)
    (localAddr : Option SockAddr) (clientAddr : SockAddr) (request : Bytes) :
    let header := buildProxyHeader text true client localAddr
    (∀ pfx, pfx <+: header → pfx ≠ header →
      consumeProxyHeader text pfx clientAddr = ⟨0, pfx, clientAddr⟩) ∧
    ∃ addr, consumeProxyHeader text (header ++ request) clientAddr =
        ⟨1, request, addr⟩ ∧
      (KnowsAddresses client localAddr →
        netAddrEqual addr client = true ∧
          netAddrPort addr = netAddrPort client) ∧
      (¬KnowsAddresses client localAddr →
        header = ascii "PROXY UNKNOWN\r\n" ∧ addr = clientAddr) := by
  obtain ⟨line, addr, hheader, hline, hadopt, hknown, hunknown⟩ :=
    exists_buildProxyHeader_eq text client localAddr clientAddr
  dsimp only
  rw [hheader]
  refine ⟨fun pfx => consumeProxyHeader_properPrefix hline, addr,
    consumeProxyHeader_line hline hadopt request, hknown, fun h => ?_⟩
  obtain ⟨rfl, haddr⟩ := hunknown h
  exact ⟨rfl, haddr⟩

end Agreement

/-- A mapped client on a dual-stack listener is declared by its IPv4 address. -/
theorem proxyHeader_read_back_mapped :
    let client := SockAddr.inet6
      (Block.ofBytes 16 [0, 0, 0, 0, 0, 0, 0, 0, 0, 0, 255, 255, 192, 0, 2, 1]) 4711
    let header := buildProxyHeader dottedText true client
      (some (.inet (Block.ofBytes 4 [192, 0, 2, 9]) 80))
    header = ascii "PROXY TCP4 192.0.2.1 192.0.2.9 4711 80\r\n" ∧
      ∃ addr, consumeProxyHeader dottedText (header ++ [71]) .other =
          ⟨1, [71], addr⟩ ∧
        netAddrEqual addr client = true ∧ netAddrPort addr = 4711 := by
  intro client header
  obtain ⟨-, addr, hread, hknown, -⟩ := proxyHeader_read_back dottedText client
    (some (.inet (Block.ofBytes 4 [192, 0, 2, 9]) 80)) .other [71]
  exact ⟨by decide +kernel, addr, hread, hknown ⟨_, rfl, by decide, by decide⟩⟩

end Codo.Balancer
