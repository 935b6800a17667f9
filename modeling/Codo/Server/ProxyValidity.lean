import Codo.Server.ProxyHeader
import Codo.Support.Fields

/-!
# Valid PROXY headers

A header line is valid if it declares the client unknown, or two addresses of
one family and two ports.  `consume_proxy_header` takes every valid line for what
it says.  It also takes lines that are not valid, because it looks at no address
but the source and at no port but the source's, goes on with the address it has
when the source is no address, and leaves the spelling of the line to `sscanf`.
-/

namespace Codo.Server

open Support Common
open Option hiding guard

/-! ## Validity -/

/-- What is documented of the texts that `inet_pton` accepts. -/
structure Documented (text : AddressText) : Prop where
  isText_pton4 : ∀ {str addr}, text.pton4 str = some addr → IsText 15 str
  isText_pton6 : ∀ {str addr}, text.pton6 str = some addr → IsText 45 str
  disjoint : ∀ {str addr}, text.pton6 str = some addr → text.pton4 str = none

/-- The line declares the address. -/
inductive Declared (text : AddressText) : Bytes → SockAddr → Prop
  | tcp4 {src dst sport dport : Bytes} {here there : Block 4} {port port' : ℕ} :
      text.pton4 src = some here → text.pton4 dst = some there →
      IsPort sport port → IsPort dport port' →
      Declared text (proxyFields (ascii "TCP4") src dst sport dport)
        (.inet here (UInt16.ofNat port))
  | tcp6 {src dst sport dport : Bytes} {here there : Block 16} {port port' : ℕ} :
      text.pton6 src = some here → text.pton6 dst = some there →
      IsPort sport port → IsPort dport port' →
      Declared text (proxyFields (ascii "TCP6") src dst sport dport)
        (.inet6 here (UInt16.ofNat port))

def IsUnknown (line : Bytes) : Prop :=
  line = ascii "PROXY UNKNOWN" ∨ ascii "PROXY UNKNOWN " <+: line

def ValidLine (text : AddressText) (line : Bytes) : Prop :=
  IsUnknown line ∨ ∃ addr, Declared text line addr

/-- The outcome of a call on a complete line is the one its validity asks for. -/
structure TakesValid (text : AddressText) (line : Bytes) (r : ProxyRead) : Prop where
  accepts : r.result = 1 ↔ ValidLine text line
  address : ∀ addr, Declared text line addr → r.clientAddr = addr
  refuses : ¬ValidLine text line → r.result = -1

/-! ## Lines that are taken wrongly -/

/-- The text is an address of the family that the protocol names. -/
def IsAddress (text : AddressText) (proto str : Bytes) : Prop :=
  (proto = ascii "TCP4" ∧ ∃ addr, text.pton4 str = some addr) ∨
    (proto = ascii "TCP6" ∧ ∃ addr, text.pton6 str = some addr)

/-- Five fields, the gaps ahead of them and what stands behind them. -/
structure ProxyText where
  gaps : List Bytes
  proto : Bytes
  src : Bytes
  dst : Bytes
  sport : Numeral
  dport : Numeral
  tail : Bytes

/-- The line is spelled so. -/
def ProxyText.Spells (t : ProxyText) (line : Bytes) : Prop :=
  ∃ g₁ g₂ g₃ g₄ g₅ r₀ r₁ r₂ r₃ r₄, t.gaps = [g₁, g₂, g₃, g₄, g₅] ∧
    line = ascii "PROXY" ++ r₀ ∧ NextWord 7 r₀ g₁ t.proto r₁ ∧
    NextWord 45 r₁ g₂ t.src r₂ ∧ NextWord 45 r₂ g₃ t.dst r₃ ∧
    NextNumeral r₃ g₄ t.sport r₄ ∧ NextNumeral r₄ g₅ t.dport t.tail

/-- What can be wrong with a line that has five fields.  A port is wrong if it
has a sign or is above 65535. -/
inductive ProxyText.Flaw (text : AddressText) (t : ProxyText) (line : Bytes) : Prop
  | src (h : ¬IsAddress text t.proto t.src)
  | dst (h : ¬IsAddress text t.proto t.dst)
  | sport (h : ∀ port, ¬IsPort t.sport.text port)
  | dport (h : ∀ port, ¬IsPort t.dport.text port)
  | gap (h : ∃ gap ∈ t.gaps, gap ≠ ascii " ")
  | tail (h : t.tail ≠ [])
  | zero (h : 0 ∈ line)

/-- The line goes on behind `PROXY UNKNOWN` with something other than a space,
or it has the five fields, with a protocol and a source port that exist, and a
flaw. -/
inductive TakenWrongly (text : AddressText) (line : Bytes) : Prop
  | unknown {b : UInt8} {tail : Bytes} (h : line = ascii "PROXY UNKNOWN" ++ b :: tail) (hb : b ≠ 32)
  | fields (t : ProxyText) (hstart : ascii "PROXY " <+: line) (h : t.Spells (cString line))
      (hproto : t.proto = ascii "TCP4" ∨ t.proto = ascii "TCP6")
      (hsport : t.sport.value ≤ 65535) (hflaw : t.Flaw text line)

section Lines

variable {text : AddressText} {front line rest : Bytes} {clientAddr : SockAddr}

/-! ## What is taken for a header -/

/-- The format finds five fields exactly if the line is spelled so. -/
theorem scanProxyLine_eq_some_iff {proto src dst : Bytes} {sport dport : ℕ} :
    scanProxyLine line = some (proto, src, dst, sport, dport) ↔
      ∃ t : ProxyText, t.Spells line ∧ t.proto = proto ∧ t.src = src ∧ t.dst = dst ∧
        t.sport.value = sport ∧ t.dport.value = dport := by
  constructor
  · intro h
    simp only [scanProxyLine, guard, bind_eq_bind, bind_eq_some_iff] at h
    obtain ⟨_, hstart, ⟨proto, r₁⟩, hproto, ⟨src, r₂⟩, hsrc, ⟨dst, r₃⟩, hdst,
      ⟨n, r₄⟩, hsport, ⟨n', tail⟩, hdport, hfields⟩ := h
    cases hfields
    have hline : line = ascii "PROXY" ++ line.drop 5 := by
      split at hstart
      next htake => rw [← htake, List.take_append_drop]
      next => cases hstart
    obtain ⟨g₁, h₁⟩ := exists_nextWord (by decide) hproto
    obtain ⟨g₂, h₂⟩ := exists_nextWord (by decide) hsrc
    obtain ⟨g₃, h₃⟩ := exists_nextWord (by decide) hdst
    obtain ⟨g₄, sport, h₄, rfl⟩ := exists_nextNumeral hsport
    obtain ⟨g₅, dport, h₅, rfl⟩ := exists_nextNumeral hdport
    exact ⟨⟨[g₁, g₂, g₃, g₄, g₅], proto, src, dst, sport, dport, tail⟩,
      ⟨g₁, g₂, g₃, g₄, g₅, _, r₁, r₂, r₃, r₄, rfl, hline, h₁, h₂, h₃, h₄, h₅⟩,
      rfl, rfl, rfl, rfl, rfl⟩
  · rintro ⟨t, ⟨g₁, g₂, g₃, g₄, g₅, r₀, r₁, r₂, r₃, r₄, -, rfl, h₁, h₂, h₃, h₄, h₅⟩,
      rfl, rfl, rfl, rfl, rfl⟩
    have hstart : (ascii "PROXY" ++ r₀).take 5 = ascii "PROXY" := List.take_left' rfl
    have hbehind : (ascii "PROXY" ++ r₀).drop 5 = r₀ := List.drop_left' rfl
    simp only [scanProxyLine, guard, hstart, if_true, hbehind, bind_eq_bind,
      pure_def, bind_some, h₁.scanWord, h₂.scanWord, h₃.scanWord, h₄.scanUnsigned, h₅.scanUnsigned]

theorem ProxyText.Spells.unique {t t' : ProxyText} (h : t.Spells line) (h' : t'.Spells line) :
    t.gaps = t'.gaps ∧ t.proto = t'.proto ∧ t.src = t'.src ∧ t.dst = t'.dst ∧
      t.sport.text = t'.sport.text ∧ t.dport.text = t'.dport.text ∧ t.tail = t'.tail := by
  obtain ⟨g₁, g₂, g₃, g₄, g₅, r₀, r₁, r₂, r₃, r₄, hgaps, rfl, h₁, h₂, h₃, h₄, h₅⟩ := h
  obtain ⟨_, _, _, _, _, _, _, _, _, _, hgaps', heq, h₁', h₂', h₃', h₄', h₅'⟩ := h'
  obtain rfl := List.append_cancel_left heq
  obtain ⟨rfl, hproto, rfl⟩ := h₁.unique h₁'
  obtain ⟨rfl, hsrc, rfl⟩ := h₂.unique h₂'
  obtain ⟨rfl, hdst, rfl⟩ := h₃.unique h₃'
  obtain ⟨rfl, hsport, rfl⟩ := h₄.unique h₄'
  obtain ⟨rfl, hdport, htail⟩ := h₅.unique h₅'
  exact ⟨hgaps.trans hgaps'.symm, hproto, hsrc, hdst, hsport, hdport, htail⟩

theorem declaredSource_unknown (hpfx : ascii "PROXY UNKNOWN" <+: line) :
    declaredSource line = none := by
  obtain ⟨tail, rfl⟩ := hpfx
  have hsplit : ascii "PROXY UNKNOWN" ++ tail =
      ascii "PROXY" ++ (ascii " " ++ (ascii "UNKNOWN" ++ tail)) := rfl
  have hunknown : NextWord 7 (ascii " " ++ (ascii "UNKNOWN" ++ tail)) (ascii " ")
      (ascii "UNKNOWN") tail :=
    ⟨rfl, forall_mem_of_all (by decide), by decide, forall_mem_of_all (by decide),
      by decide, .inl rfl⟩
  rw [hsplit]
  generalize ascii " " ++ (ascii "UNKNOWN" ++ tail) = rest at hunknown
  by_contra hsource
  obtain ⟨⟨src, sport⟩, hsource⟩ := ne_none_iff_exists'.mp hsource
  obtain ⟨proto, dst, dport, hscan, hproto, -⟩ := declaredSource_eq_some_iff.mp hsource
  obtain ⟨t, ⟨_, _, _, _, _, _, _, _, _, _, -, hline, hfirst, -⟩, rfl, -⟩ :=
    scanProxyLine_eq_some_iff.mp hscan
  obtain rfl := List.append_cancel_left hline
  obtain ⟨-, hword, -⟩ := hunknown.unique hfirst
  rw [← hword] at hproto
  exact absurd hproto (by decide)

theorem adoptProxyLine_unknown (hpfx : ascii "PROXY UNKNOWN" <+: line)
    (text : AddressText) (clientAddr : SockAddr) :
    adoptProxyLine text line clientAddr = some clientAddr := by
  rw [adoptProxyLine, declaredSource_unknown hpfx]
  exact if_pos ((strneq_iff rfl).mpr hpfx)

/-- The lines that are taken for a header. -/
theorem isSome_adoptProxyLine_iff (text : AddressText) (line : Bytes) (clientAddr : SockAddr) :
    (adoptProxyLine text line clientAddr).isSome ↔ ascii "PROXY UNKNOWN" <+: line ∨
        ∃ proto src dst sport dport, scanProxyLine line = some (proto, src, dst, sport, dport) ∧
          (proto = ascii "TCP4" ∨ proto = ascii "TCP6") ∧ sport ≤ 65535 := by
  rw [adoptProxyLine]
  cases hsource : declaredSource line with
  | some found =>
    obtain ⟨proto, dst, dport, hfields⟩ := declaredSource_eq_some_iff.mp hsource
    exact iff_of_true rfl (.inr ⟨proto, _, dst, _, dport, hfields⟩)
  | none =>
    simp only
    constructor
    · intro h
      split at h
      next hpfx => exact .inl ((strneq_iff rfl).mp hpfx)
      next => cases h
    · rintro (hpfx | ⟨proto, src, dst, sport, dport, hfields⟩)
      · have hstart : strneq line (ascii "PROXY UNKNOWN") 13 = true := (strneq_iff rfl).mpr hpfx
        rw [if_pos hstart]
        rfl
      · have hsome := declaredSource_eq_some_iff.mpr ⟨proto, dst, dport, hfields⟩
        rw [hsource] at hsome
        cases hsome

/-! ## Valid lines -/

theorem zero_notMem_proxyFields {proto src dst sport dport : Bytes}
    {port port' : ℕ} (hproto : 0 ∉ proto) (hsrc : IsText 45 src)
    (hdst : IsText 45 dst) (hsport : IsPort sport port) (hdport : IsPort dport port') :
    0 ∉ proxyFields proto src dst sport dport := by
  have htext : ∀ {width str}, IsText width str → (0 : UInt8) ∉ str :=
    fun h hmem => absurd (h.printable 0 hmem).1 (by decide)
  have hdigits : ∀ {digits port}, IsPort digits port → (0 : UInt8) ∉ digits :=
    fun h hmem => absurd (h.digit 0 hmem) (by decide)
  have hspace : (0 : UInt8) ∉ ascii " " := by decide
  have hword : (0 : UInt8) ∉ ascii "PROXY" := by decide
  simp only [proxyFields, List.mem_append, not_or]
  exact ⟨hword, hspace, hproto, hspace, htext hsrc, hspace, htext hdst,
    hspace, hdigits hsport, hspace, hdigits hdport⟩

variable {addr : SockAddr}

/-- A valid line that declares an address is taken for it. -/
theorem adoptProxyLine_declared (htext : Documented text)
    (h : Declared text line addr) (clientAddr : SockAddr) :
    adoptProxyLine text (cString line) clientAddr = some addr := by
  cases h with
  | @tcp4 src dst sport dport here there port port' hsrc hdst hsport hdport =>
    have hsrc' : IsText 45 src := (htext.isText_pton4 hsrc).mono (by decide)
    have hdst' : IsText 45 dst := (htext.isText_pton4 hdst).mono (by decide)
    rw [cString_of_notMem (zero_notMem_proxyFields (by decide) hsrc' hdst'
      hsport hdport), adoptProxyLine,
      declaredSource_proxyFields (.inl rfl) hsrc' hdst' hsport hdport]
    simp only [netAddrFromStr, hsrc, getD_some]
  | @tcp6 src dst sport dport here there port port' hsrc hdst hsport hdport =>
    have hsrc' := htext.isText_pton6 hsrc
    have hdst' := htext.isText_pton6 hdst
    rw [cString_of_notMem (zero_notMem_proxyFields (by decide) hsrc' hdst'
      hsport hdport), adoptProxyLine,
      declaredSource_proxyFields (.inr rfl) hsrc' hdst' hsport hdport]
    simp only [netAddrFromStr, htext.disjoint hsrc, hsrc, map_some, getD_some]

theorem Declared.start (h : Declared text line addr) : ascii "PROXY " <+: line := by
  have hfields : ∀ proto src dst sport dport : Bytes,
      ascii "PROXY " <+: proxyFields proto src dst sport dport := fun _ _ _ _ _ => ⟨_, rfl⟩
  cases h with
  | tcp4 => exact hfields ..
  | tcp6 => exact hfields ..

theorem Declared.ne_other (h : Declared text line addr) : addr ≠ .other := by
  cases h with
  | tcp4 => exact nofun
  | tcp6 => exact nofun

theorem IsUnknown.prefix_line (h : IsUnknown line) : ascii "PROXY UNKNOWN" <+: line := by
  rcases h with rfl | hpfx
  · exact List.prefix_rfl
  · exact List.IsPrefix.trans ⟨ascii " ", rfl⟩ hpfx

theorem prefix_cString {pfx : Bytes} (hzero : 0 ∉ pfx) (hpfx : pfx <+: line) :
    pfx <+: cString line := by
  obtain ⟨tail, rfl⟩ := hpfx
  rw [cString, List.takeWhile_append_of_pos]
  · exact List.prefix_append _ _
  · intro b hb
    rw [decide_eq_true_iff]
    rintro rfl
    exact hzero hb

theorem cString_prefix_self (line : Bytes) : cString line <+: line :=
  List.takeWhile_prefix _

/-! ## Spelling -/

theorem spells_proxyFields {proto src dst sport dport : Bytes} {port port' : ℕ}
    (hproto : IsText 7 proto) (hsrc : IsText 45 src) (hdst : IsText 45 dst)
    (hsport : IsPort sport port) (hdport : IsPort dport port') :
    ProxyText.Spells ⟨List.replicate 5 (ascii " "), proto, src, dst,
        ⟨[], sport, .inl rfl, hsport.ne_nil, hsport.digit⟩,
        ⟨[], dport, .inl rfl, hdport.ne_nil, hdport.digit⟩, []⟩
      (proxyFields proto src dst sport dport) := by
  have hspace : ∀ b ∈ ascii " ", isSpace b = true := forall_mem_of_all (by decide)
  have hword : ∀ {width word} (rest : Bytes), IsText width word →
      NextWord width (ascii " " ++ (word ++ (ascii " " ++ rest))) (ascii " ") word
        (ascii " " ++ rest) := by
    intro width word rest h
    refine ⟨rfl, hspace, h.ne_nil, h.isSpace_eq_false, h.length_le, .inr ?_⟩
    rintro b ⟨⟩
    rfl
  refine ⟨_, _, _, _, _, _, _, _, _, _, rfl, rfl, hword _ hproto, hword _ hsrc,
    hword _ hdst, ⟨rfl, hspace, ?_⟩, ⟨?_, hspace, nofun⟩⟩
  · rintro b ⟨⟩
    rfl
  · rw [List.append_nil]
    rfl

theorem exists_declared {t : ProxyText} (h : t.Spells (cString line))
    (hflaw : ¬t.Flaw text line) : ∃ addr, Declared text line addr := by
  have hline : cString line = line := cString_of_notMem fun hzero => hflaw (.zero hzero)
  obtain ⟨g₁, g₂, g₃, g₄, g₅, r₀, r₁, r₂, r₃, r₄, hgaps, hstart, h₁, h₂, h₃, h₄, h₅⟩ := h
  have hgap : ∀ gap ∈ [g₁, g₂, g₃, g₄, g₅], gap = ascii " " := by
    intro gap hmem
    by_contra hne
    exact hflaw (.gap ⟨gap, hgaps ▸ hmem, hne⟩)
  have htail : t.tail = [] := by
    by_contra hne
    exact hflaw (.tail hne)
  obtain ⟨port, hsport⟩ : ∃ port, IsPort t.sport.text port := by
    by_contra hnone
    exact hflaw (.sport (not_exists.mp hnone))
  obtain ⟨port', hdport⟩ : ∃ port, IsPort t.dport.text port := by
    by_contra hnone
    exact hflaw (.dport (not_exists.mp hnone))
  have hfields : line = proxyFields t.proto t.src t.dst t.sport.text t.dport.text := by
    simp only [List.forall_mem_cons] at hgap
    obtain ⟨rfl, rfl, rfl, rfl, rfl, -⟩ := hgap
    rw [← hline, hstart, h₁.input_eq, h₂.input_eq, h₃.input_eq, h₄.input_eq,
      h₅.input_eq, htail, List.append_nil]
    rfl
  have hsrc : IsAddress text t.proto t.src := not_not.mp fun hnot => hflaw (.src hnot)
  have hdst : IsAddress text t.proto t.dst := not_not.mp fun hnot => hflaw (.dst hnot)
  rw [hfields]
  rcases hsrc with ⟨hproto, here, hhere⟩ | ⟨hproto, here, hhere⟩
  · rcases hdst with ⟨-, there, hthere⟩ | ⟨hproto', -⟩
    · rw [hproto]
      exact ⟨_, .tcp4 hhere hthere hsport hdport⟩
    · exact absurd (hproto.symm.trans hproto') (by decide)
  · rcases hdst with ⟨hproto', -⟩ | ⟨-, there, hthere⟩
    · exact absurd (hproto.symm.trans hproto') (by decide)
    · rw [hproto]
      exact ⟨_, .tcp6 hhere hthere hsport hdport⟩

theorem Declared.not_flaw {t : ProxyText} (htext : Documented text)
    (h : Declared text line addr) (ht : t.Spells (cString line)) : ¬t.Flaw text line := by
  have hfields : ∀ {proto src dst sport dport : Bytes} {port port' : ℕ},
      proto = ascii "TCP4" ∨ proto = ascii "TCP6" → IsText 45 src → IsText 45 dst →
      IsAddress text proto src → IsAddress text proto dst → IsPort sport port →
      IsPort dport port' → line = proxyFields proto src dst sport dport → ¬t.Flaw text line := by
    rintro proto src dst sport dport port port' hproto hsrc hdst hhere hthere hsport hdport rfl
    have hproto' : IsText 7 proto ∧ 0 ∉ proto := by
      rcases hproto with rfl | rfl
      all_goals exact ⟨⟨by decide, by decide, forall_mem_of_all (by decide)⟩, by decide⟩
    have hzero : 0 ∉ proxyFields proto src dst sport dport :=
      zero_notMem_proxyFields hproto'.2 hsrc hdst hsport hdport
    rw [cString_of_notMem hzero] at ht
    obtain ⟨hgaps, hp, hs, hd, hsp, hdp, htail⟩ :=
      ht.unique (spells_proxyFields hproto'.1 hsrc hdst hsport hdport)
    rintro (hnot | hnot | hnot | hnot | ⟨gap, hgap, hne⟩ | hnot | hmem)
    · exact hnot (hp ▸ hs ▸ hhere)
    · exact hnot (hp ▸ hd ▸ hthere)
    · exact hnot port (hsp ▸ hsport)
    · exact hnot port' (hdp ▸ hdport)
    · rw [hgaps] at hgap
      exact hne (List.eq_of_mem_replicate hgap)
    · exact hnot htail
    · exact hzero hmem
  cases h with
  | tcp4 hsrc hdst hsport hdport =>
    exact hfields (.inl rfl) ((htext.isText_pton4 hsrc).mono (by decide))
      ((htext.isText_pton4 hdst).mono (by decide)) (.inl ⟨rfl, _, hsrc⟩)
      (.inl ⟨rfl, _, hdst⟩) hsport hdport rfl
  | tcp6 hsrc hdst hsport hdport =>
    exact hfields (.inr rfl) (htext.isText_pton6 hsrc) (htext.isText_pton6 hdst)
      (.inr ⟨rfl, _, hsrc⟩) (.inr ⟨rfl, _, hdst⟩) hsport hdport rfl

/-! ## Lines taken and not valid -/

theorem IsUnknown.of_prefix_line (hpfx : ascii "PROXY UNKNOWN" <+: line)
    (hnot : ¬TakenWrongly text line) : IsUnknown line := by
  obtain ⟨tail, rfl⟩ := hpfx
  cases tail with
  | nil => exact .inl (List.append_nil _)
  | cons b tail =>
    obtain rfl : b = 32 := by
      by_contra hb
      exact hnot (.unknown rfl hb)
    exact .inr ⟨tail, rfl⟩

/-- The lines that are taken for a header and are not valid. -/
theorem takenWrongly_iff (htext : Documented text) (line : Bytes) (clientAddr : SockAddr) :
    TakenWrongly text line ↔ (ascii "PROXY " <+: line ∧
      (adoptProxyLine text (cString line) clientAddr).isSome) ∧ ¬ValidLine text line := by
  constructor
  · rintro (@⟨b, tail, rfl, hb⟩ | ⟨t, hstart, ht, hproto, hsport, hflaw⟩)
    · have hpfx : ascii "PROXY UNKNOWN" <+: ascii "PROXY UNKNOWN" ++ b :: tail :=
        List.prefix_append _ _
      have hadopt := adoptProxyLine_unknown (prefix_cString (by decide) hpfx) text
      refine ⟨⟨List.IsPrefix.trans ⟨ascii "UNKNOWN", rfl⟩ hpfx, ?_⟩, ?_⟩
      · rw [hadopt]
        rfl
      · rintro ((heq | ⟨more, heq⟩) | ⟨addr, h⟩)
        · exact absurd (List.append_right_eq_self.mp heq) (List.cons_ne_nil _ _)
        · have hcons := List.append_cancel_left (show ascii "PROXY UNKNOWN" ++
            32 :: more = ascii "PROXY UNKNOWN" ++ b :: tail from heq)
          exact hb (List.cons.inj hcons).1.symm
        · have hother := adoptProxyLine_declared htext h .other
          rw [hadopt] at hother
          exact h.ne_other (some.inj hother).symm
    · have hscan := scanProxyLine_eq_some_iff.mpr ⟨t, ht, rfl, rfl, rfl, rfl, rfl⟩
      refine ⟨⟨hstart, (isSome_adoptProxyLine_iff ..).mpr
        (.inr ⟨_, _, _, _, _, hscan, hproto, hsport⟩)⟩, ?_⟩
      rintro (hunknown | ⟨addr, h⟩)
      · have hsome := declaredSource_eq_some_iff.mpr ⟨_, _, _, hscan, hproto, hsport⟩
        rw [declaredSource_unknown (prefix_cString (by decide) hunknown.prefix_line)] at hsome
        cases hsome
      · exact h.not_flaw htext ht hflaw
  · rintro ⟨⟨hstart, htaken⟩, hvalid⟩
    by_contra hnot
    rcases (isSome_adoptProxyLine_iff ..).mp htaken with hpfx |
      ⟨proto, src, dst, sport, dport, hscan, hproto, hsport⟩
    · exact hvalid (.inl (.of_prefix_line (hpfx.trans (cString_prefix_self line)) hnot))
    · obtain ⟨t, ht, rfl, rfl, rfl, rfl, rfl⟩ := scanProxyLine_eq_some_iff.mp hscan
      exact hvalid (.inr (exists_declared ht fun hflaw =>
        hnot (.fields t hstart ht hproto hsport hflaw)))

/-- A complete line is treated as its validity asks for exactly if it is none of
those taken wrongly. -/
theorem proxy_header_exact_iff (htext : Documented text) (hfront : 10 ∉ front)
    (hlen : front.length + 1 ≤ 108) (rest : Bytes) (clientAddr : SockAddr) :
    TakesValid text (stripCr front)
        (consumeProxyHeader text (front ++ 10 :: rest) clientAddr) ↔
      ¬TakenWrongly text (stripCr front) := by
  rw [consumeProxyHeader_complete text hfront hlen, takenWrongly_iff htext _ clientAddr]
  generalize stripCr front = line
  set adopted := if ascii "PROXY " <+: line then
    adoptProxyLine text (cString line) clientAddr else none with hadopted
  have htaken : (ascii "PROXY " <+: line ∧ (adoptProxyLine text (cString line) clientAddr).isSome) ↔
      adopted.isSome := by
    rw [hadopted]
    split
    next hpfx => rw [and_iff_right hpfx]
    next hpfx => simp [hpfx]
  have hdeclared : ∀ addr, Declared text line addr → adopted = some addr := by
    intro addr h
    rw [hadopted, if_pos h.start, adoptProxyLine_declared htext h]
  have hunknown : IsUnknown line → adopted = some clientAddr := by
    intro h
    have hpfx := h.prefix_line
    rw [hadopted, if_pos (List.IsPrefix.trans ⟨ascii "UNKNOWN", rfl⟩ hpfx),
      adoptProxyLine_unknown (prefix_cString (by decide) hpfx)]
  rw [htaken]
  clear_value adopted
  have hvalid : ValidLine text line → adopted.isSome := by
    rintro (h | ⟨addr, h⟩)
    · rw [hunknown h]
      rfl
    · rw [hdeclared addr h]
      rfl
  cases adopted with
  | none =>
    refine iff_of_true ⟨?_, ?_, fun _ => rfl⟩ fun h => absurd h.1 nofun
    · exact iff_of_false (show (-1 : ℤ) ≠ 1 by decide) fun h => absurd (hvalid h) nofun
    · intro addr h
      exact absurd (hdeclared addr h) nofun
  | some addr =>
    constructor
    · intro h hwrong
      exact hwrong.2 (h.accepts.mp rfl)
    · intro hnot
      have h : ValidLine text line := not_not.mp fun h => hnot ⟨rfl, h⟩
      refine ⟨iff_of_true rfl h, ?_, fun hnot => absurd h hnot⟩
      intro addr' haddr'
      exact some.inj (hdeclared addr' haddr')

theorem documented_dottedText : Documented dottedText := by
  have h4 : ∀ {str addr}, dottedText.pton4 str = some addr → dotted addr = str := by
    intro str addr h
    obtain ⟨heq, haddr⟩ := ite_none_right_eq_some.mp h
    exact some.inj haddr ▸ heq
  have h6 : ∀ {str addr}, dottedText.pton6 str = some addr → dottedText.ntop6 addr = str := by
    intro str addr h
    obtain ⟨heq, haddr⟩ := ite_none_right_eq_some.mp h
    exact some.inj haddr ▸ heq
  constructor
  · intro str addr h
    exact h4 h ▸ isText_dotted addr
  · intro str addr h
    exact h6 h ▸ (dottedText.isText_ntop6 addr).mono (by decide)
  · intro str addr h
    exact h6 h ▸ dottedText.pton4_ntop6 addr

theorem proxy_header_exact_iff_tcp4 :
    let front := ascii "PROXY TCP4 192.0.2.1 192.0.2.9 4711 80\r"
    let r := consumeProxyHeader dottedText (front ++ 10 :: [71]) .other
    r = ⟨1, [71], .inet (Block.ofBytes 4 [192, 0, 2, 1]) 4711⟩ ∧
      ¬TakenWrongly dottedText (stripCr front) ∧
      TakesValid dottedText (stripCr front) r := by
  intro front r
  have hline : stripCr front = proxyFields (ascii "TCP4") (ascii "192.0.2.1")
      (ascii "192.0.2.9") (ascii "4711") (ascii "80") := by decide
  have hhere : dottedText.pton4 (ascii "192.0.2.1") =
      some (Block.ofBytes 4 [192, 0, 2, 1]) := by decide +kernel
  have hthere : dottedText.pton4 (ascii "192.0.2.9") =
      some (Block.ofBytes 4 [192, 0, 2, 9]) := by decide +kernel
  have hvalid : ValidLine dottedText (stripCr front) := by
    rw [hline]
    exact .inr ⟨_, .tcp4 hhere hthere ⟨by decide, forall_mem_of_all (by decide), rfl, by decide⟩
      ⟨by decide, forall_mem_of_all (by decide), rfl, by decide⟩⟩
  have hright : ¬TakenWrongly dottedText (stripCr front) := fun h =>
    ((takenWrongly_iff documented_dottedText _ .other).mp h).2 hvalid
  exact ⟨by decide +kernel, hright,
    (proxy_header_exact_iff documented_dottedText (by decide) (by decide) [71] .other).mpr hright⟩

/-- A line whose source is no address is accepted, and the connection keeps the
address of its peer. -/
theorem proxy_header_takes_invalid :
    let front := ascii "PROXY TCP4 nowhere 192.0.2.9 4711 80\r"
    let peer := SockAddr.inet (Block.ofBytes 4 [10, 0, 0, 1]) 40000
    ¬ValidLine dottedText (stripCr front) ∧
      consumeProxyHeader dottedText (front ++ 10 :: [71]) peer =
        ⟨1, [71], peer⟩ := by
  refine ⟨?_, by decide +kernel⟩
  rintro (hunknown | ⟨addr, haddr⟩)
  · rcases hunknown with heq | hpfx
    · exact absurd heq (by decide)
    · exact absurd hpfx (by decide)
  · have hadopt := adoptProxyLine_declared documented_dottedText haddr .other
    have hother : adoptProxyLine dottedText (cString (stripCr
        (ascii "PROXY TCP4 nowhere 192.0.2.9 4711 80\r"))) .other = some .other := by decide +kernel
    rw [hother] at hadopt
    exact haddr.ne_other (some.inj hadopt).symm

end Lines

end Codo.Server
