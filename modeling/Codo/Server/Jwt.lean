import Codo.Server.Base64Url
import Codo.Server.Middleware
import Codo.Server.UserIds

/-!
# Tokens

`jwt.c`: minting and verifying the tokens of `jwt_middleware`.  HMAC-SHA256 is a
parameter.  The signature covers the encoded text, so the payload is only read
after the text has been found to be one that was signed.
-/

namespace Codo.Server

open Support Common List

/-! ## The code -/

/-- The claims of a token as `jwt_create` prints them. -/
def jwtPayload (userId : UInt64) (username : Bytes) (now ttl : ℤ) : Bytes :=
  ascii "\x7b\"sub\":\"" ++ username ++ ascii "\",\"uid\":" ++
    decimal userId.toNat ++ ascii ",\"iat\":" ++ signedDecimal now ++
    ascii ",\"exp\":" ++ signedDecimal (now + ttl) ++ ascii "\x7d"

def jwtHeader : Bytes :=
  ascii "\x7b\"alg\":\"HS256\",\"typ\":\"JWT\"\x7d"

section Code

variable (hmac : Bytes → Bytes → Block 32) (secret : Bytes)

/-- `jwt_create` at the time `now`, into a buffer of `outSize` bytes.  Without a
secret `jwt_init` has not been called. -/
def jwtCreate (now : ℤ) (userId : UInt64) (username : Bytes) (ttl : ℤ)
    (outSize : ℕ) : Option Bytes := do
  guard (secret ≠ [])
  let payload := jwtPayload userId username now ttl
  guard (payload.length < 256)
  let header ← b64urlEncode 512 jwtHeader
  guard (header.length + 1 < 512)
  let claims ← b64urlEncode (512 - header.length - 1) payload
  let signingInput := header ++ 46 :: claims
  let signature ← b64urlEncode 64 (hmac secret signingInput).bytes
  let out := cString signingInput ++ 46 :: cString signature
  guard (out.length < outSize)
  return out

/-- The text up to the first dot and the text behind it. -/
def splitDot (text : Bytes) : Option (Bytes × Bytes) :=
  match text.dropWhile (· != 46) with
  | [] => none
  | _ :: rest => some (text.takeWhile (· != 46), rest)

/-- `jwt_verify` when `(uint64_t)time(NULL)` is `clock`: the result, the user id
and the name.  The id is only set for a valid token. -/
def jwtVerify (clock : UInt64) (usernameSize : ℕ) (token : Bytes) : JwtResult × UInt64 × Bytes :=
  let claims : Option (UInt64 × UInt64 × Bytes) := do
    guard (secret ≠ [])
    let (header, rest) ← splitDot token
    let (claims, signature) ← splitDot rest
    guard (46 ∉ signature)
    let expected := hmac secret (header ++ 46 :: claims)
    let presented ← b64urlDecode 32 signature
    guard (presented.length = 32)
    guard (expected.bytes = presented)
    let payload ← b64urlDecode 512 claims
    let uid ← jsonGetUint64 payload (ascii "uid")
    let exp ← jsonGetUint64 payload (ascii "exp")
    let username ← jsonGetString payload (ascii "sub") usernameSize
    return (uid, exp, cString username)
  match claims with
  | none => (.invalid, 0, [])
  | some (uid, exp, username) =>
    if exp ≤ clock then (.expired, 0, username) else (.ok, uid, username)

end Code

/-! ## The payload -/

/-- The claims as the members of an object. -/
def jwtClaims (userId : UInt64) (username : Bytes) (iat exp : ℕ) : List (Bytes × JsonValue) :=
  [(ascii "sub", .text username), (ascii "uid", .number userId.toNat),
    (ascii "iat", .number iat), (ascii "exp", .number exp)]

variable {userId : UInt64} {username : Bytes} {iat ttl : ℕ}

theorem isUsernameByte_plain {c : UInt8} (h : isUsernameByte c = true) :
    c ≠ 34 ∧ c ≠ 92 ∧ 32 ≤ c := by
  have hall : ∀ n < 256, isUsernameByte (UInt8.ofNat n) = true →
      UInt8.ofNat n ≠ 34 ∧ UInt8.ofNat n ≠ 92 ∧ 32 ≤ UInt8.ofNat n := by
    decide +kernel
  have hc := hall c.toNat c.toNat_lt
  rw [UInt8.ofNat_toNat] at hc
  exact hc h

theorem plain_of_usernameValid (h : usernameValid username = true) :
    ∀ c ∈ username, c ≠ 34 ∧ c ≠ 92 ∧ 32 ≤ c := by
  intro c hc
  rw [usernameValid, Bool.and_eq_true, all_eq_true] at h
  exact isUsernameByte_plain (h.2 c hc)

theorem length_lt_of_usernameValid (h : usernameValid username = true) : username.length < 64 := by
  rw [usernameValid, Bool.and_eq_true, Bool.and_eq_true, decide_eq_true_iff,
    decide_eq_true_iff] at h
  exact h.1.2

/-- A valid name needs no escapes, so the payload is a written object. -/
theorem jwtPayload_eq (hname : usernameValid username = true) :
    jwtPayload userId username iat ttl =
      renderObject (jwtClaims userId username iat (iat + ttl)) := by
  have hescape := escapeText_of_plain (plain_of_usernameValid hname)
  have hexp : signedDecimal ((iat : ℤ) + (ttl : ℤ)) = decimal (iat + ttl) := rfl
  have hiat : signedDecimal (iat : ℤ) = decimal iat := rfl
  rw [jwtPayload, hexp, hiat]
  simp [renderObject, renderMembers, jwtClaims, JsonValue.render, hescape, ascii]

theorem length_jwtPayload_le (hname : usernameValid username = true) (hexp : iat + ttl < 2 ^ 63) :
    (jwtPayload userId username iat ttl).length ≤ 152 := by
  have huser := length_lt_of_usernameValid hname
  have hid := userId.toNat_lt
  have huid : (decimal userId.toNat).length ≤ 20 := length_decimal_le (by decide) (by omega)
  have hiat : (decimal iat).length ≤ 19 := length_decimal_le (by decide) (by omega)
  have hsum : (decimal (iat + ttl)).length ≤ 19 := length_decimal_le (by decide) (by omega)
  have hsigned : signedDecimal ((iat : ℤ) + (ttl : ℤ)) = decimal (iat + ttl) := rfl
  have hsigned' : signedDecimal (iat : ℤ) = decimal iat := rfl
  rw [jwtPayload, hsigned, hsigned']
  simp only [length_append,
    show (ascii "\x7b\"sub\":\"").length = 8 from rfl,
    show (ascii "\",\"uid\":").length = 8 from rfl,
    show (ascii ",\"iat\":").length = 7 from rfl,
    show (ascii ",\"exp\":").length = 7 from rfl,
    show (ascii "\x7d").length = 1 from rfl]
  omega

theorem read_jwtPayload (userId : UInt64) (iat ttl : ℕ) (hname : usernameValid username = true) :
    let payload := jwtPayload userId username iat ttl
    jsonGetUint64 payload (ascii "uid") = some userId ∧
      jsonGetUint64 payload (ascii "exp") = some (UInt64.ofNat (iat + ttl)) ∧
      jsonGetString payload (ascii "sub") 64 = some username := by
  have hkeys : ∀ m ∈ jwtClaims userId username iat (iat + ttl), PlainKey m.1 := by
    simp only [jwtClaims, forall_mem_cons]
    exact ⟨by decide, by decide, by decide, by decide, nofun⟩
  have hreads : ∀ c ∈ username, ReadsBack c := fun c hc =>
    .inl (plain_of_usernameValid hname c hc).2.2
  rw [jwtPayload_eq hname]
  refine ⟨?_, ?_, ?_⟩
  · exact (jsonGetUint64_renderObject hkeys rfl).trans (congrArg some userId.ofNat_toNat)
  · exact jsonGetUint64_renderObject hkeys rfl
  · exact jsonGetString_renderObject hkeys rfl hreads (length_lt_of_usernameValid hname)

/-! ## Round trip -/

theorem splitDot_append {text : Bytes} (htext : 46 ∉ text) (rest : Bytes) :
    splitDot (text ++ 46 :: rest) = some (text, rest) := by
  have hne : ∀ c ∈ text, (c != 46) = true := fun c hc => bne_iff_ne.mpr fun h => htext (h ▸ hc)
  rw [splitDot, dropWhile_append_of_pos hne, takeWhile_append_of_pos hne]
  simp

section RoundTrip

variable (hmac : Bytes → Bytes → Block 32) (secret : Bytes)

/-- The part of a token that is signed. -/
def signingInput (payload : Bytes) : Bytes :=
  b64urlText jwtHeader ++ 46 :: b64urlText payload

def tokenOf (payload : Bytes) : Bytes :=
  signingInput payload ++ 46 :: b64urlText (hmac secret (signingInput payload)).bytes

variable {hmac secret}

theorem notMem_b64urlText (bytes : Bytes) : 46 ∉ b64urlText bytes ∧ 0 ∉ b64urlText bytes :=
  ⟨fun h => (ne_of_mem_b64urlText 46 h).1 rfl, fun h => (ne_of_mem_b64urlText 0 h).2 rfl⟩

theorem cString_signingInput (payload : Bytes) :
    cString (signingInput payload) = signingInput payload := by
  apply cString_of_notMem
  simp only [signingInput, mem_append, mem_cons, not_or]
  exact ⟨(notMem_b64urlText _).2, by decide, (notMem_b64urlText _).2⟩

theorem length_signingInput (payload : Bytes) :
    (signingInput payload).length = 37 + (4 * payload.length + 2) / 3 := by
  have hheader : (b64urlText jwtHeader).length = 36 := by
    rw [length_b64urlText]
    rfl
  rw [signingInput, length_append, length_cons, hheader, length_b64urlText]
  omega

/-- Every buffer on the way is large enough. -/
theorem jwtCreate_eq (hsecret : secret ≠ [])
    (hname : usernameValid username = true) (hexp : iat + ttl < 2 ^ 63) :
    jwtCreate hmac secret iat userId username ttl 512 =
      some (tokenOf hmac secret (jwtPayload userId username iat ttl)) := by
  have hlen : (jwtPayload userId username iat ttl).length ≤ 152 := length_jwtPayload_le hname hexp
  generalize hpayload : jwtPayload userId username iat ttl = payload at hlen
  have hheader : b64urlEncode 512 jwtHeader = some (b64urlText jwtHeader) :=
    b64urlEncode_eq_some (by decide)
  have hheaderLen : (b64urlText jwtHeader).length = 36 := by
    rw [length_b64urlText]
    rfl
  have hclaims : b64urlEncode (512 - 36 - 1) payload =
      some (b64urlText payload) := b64urlEncode_eq_some (by omega)
  have hmacLen := (hmac secret (signingInput payload)).length_eq
  have hsignature : b64urlEncode 64 (hmac secret (signingInput payload)).bytes =
      some (b64urlText (hmac secret (signingInput payload)).bytes) :=
    b64urlEncode_eq_some (by omega)
  have htext : cString (signingInput payload) ++ 46 ::
      cString (b64urlText (hmac secret (signingInput payload)).bytes) =
        tokenOf hmac secret payload := by
    rw [cString_signingInput, cString_of_notMem (notMem_b64urlText _).2, tokenOf]
  have htoken : (cString (signingInput payload) ++ 46 ::
      cString (b64urlText (hmac secret (signingInput payload)).bytes)).length < 512 := by
    rw [htext, tokenOf, length_append, length_cons, length_signingInput, length_b64urlText]
    omega
  rw [jwtCreate, hpayload]
  simp only [hheader, Option.bind_eq_bind, Option.bind_some]
  rw [guard_bind_of_pos hsecret, guard_bind_of_pos (by omega),
    guard_bind_of_pos (by omega), hheaderLen, hclaims, Option.bind_some]
  change (b64urlEncode 64 (hmac secret (signingInput payload)).bytes).bind _ = _
  rw [hsignature, Option.bind_some]
  change (guard ((cString (signingInput payload) ++ 46 ::
    cString (b64urlText (hmac secret (signingInput payload)).bytes)).length < 512)
      : Option Unit).bind _ = _
  rw [guard_bind_of_pos htoken]
  exact congrArg some htext

theorem jwtVerify_tokenOf {payload : Bytes} {uid exp : UInt64}
    (hsecret : secret ≠ []) (hlen : payload.length ≤ 512)
    (huid : jsonGetUint64 payload (ascii "uid") = some uid)
    (hexp : jsonGetUint64 payload (ascii "exp") = some exp) {usernameSize : ℕ}
    (hsub : jsonGetString payload (ascii "sub") usernameSize = some username) (clock : UInt64) :
    jwtVerify hmac secret clock usernameSize (tokenOf hmac secret payload) =
      if exp ≤ clock then (.expired, 0, cString username)
      else (.ok, uid, cString username) := by
  have hdot : ∀ bytes, 46 ∉ b64urlText bytes := fun bytes => (notMem_b64urlText bytes).1
  have htoken : tokenOf hmac secret payload = b64urlText jwtHeader ++ 46 :: (b64urlText payload ++
        46 :: b64urlText (hmac secret (signingInput payload)).bytes) := by
    rw [tokenOf, signingInput, append_assoc, cons_append]
  have hsignature : b64urlDecode 32 (b64urlText (hmac secret (signingInput payload)).bytes) =
        some (hmac secret (signingInput payload)).bytes :=
    b64urlDecode_b64urlText (hmac secret (signingInput payload)).length_eq.le
  have hclaims : b64urlDecode 512 (b64urlText payload) = some payload :=
    b64urlDecode_b64urlText hlen
  simp only [jwtVerify, htoken, splitDot_append (hdot _), Option.bind_eq_bind,
    Option.bind_some, hclaims, huid, hexp, hsub]
  rw [guard_bind_of_pos hsecret, guard_bind_of_pos (hdot _), ← signingInput,
    hsignature, Option.bind_some, guard_bind_of_pos (hmac secret (signingInput payload)).length_eq,
    guard_bind_of_pos rfl]
  rfl

end RoundTrip

/-- A token that was just minted is good until its lifetime is over, and it
names the user it was minted for. -/
theorem jwtVerify_jwtCreate (hmac : Bytes → Bytes → Block 32) {secret : Bytes}
    (hsecret : secret ≠ []) (userId : UInt64) {username : Bytes}
    (hname : usernameValid username = true) {now ttl : ℤ} (hnow : 0 ≤ now)
    (httl : 0 < ttl) (hsum : now + ttl < 2 ^ 63) :
    ∃ token, jwtCreate hmac secret now userId username ttl 512 = some token ∧
      ∀ clock : UInt64,
        ((clock.toNat : ℤ) < now + ttl →
          jwtVerify hmac secret clock 64 token = (.ok, userId, username)) ∧
        (now + ttl ≤ (clock.toNat : ℤ) →
          (jwtVerify hmac secret clock 64 token).1 = .expired) := by
  obtain ⟨iat, rfl⟩ := Int.eq_ofNat_of_zero_le hnow
  obtain ⟨life, rfl⟩ := Int.eq_ofNat_of_zero_le httl.le
  have hexp : iat + life < 2 ^ 63 := by omega
  obtain ⟨huid, hread, hsub⟩ := read_jwtPayload userId iat life hname
  have hlen : (jwtPayload userId username iat life).length ≤ 152 := length_jwtPayload_le hname hexp
  have hzero : 0 ∉ username := fun h => absurd (plain_of_usernameValid hname 0 h).2.2 (by decide)
  refine ⟨_, jwtCreate_eq hsecret hname hexp, fun clock => ?_⟩
  have hpast : UInt64.ofNat (iat + life) ≤ clock ↔ iat + life ≤ clock.toNat := by
    rw [UInt64.le_iff_toNat_le, UInt64.toNat_ofNat', Nat.mod_eq_of_lt (by omega)]
  rw [jwtVerify_tokenOf hsecret (by omega) huid hread hsub clock, cString_of_notMem hzero]
  constructor
  · intro hbefore
    exact if_neg fun h => absurd (hpast.mp h) (by omega)
  · intro hafter
    rw [if_pos (hpast.mpr (by omega))]

theorem jwtVerify_jwtCreate_bob :
    ∃ token, jwtCreate (fun _ _ => Block.zero 32) [7] 1000 5 (ascii "bob") 60 512 =
        some token ∧
      jwtVerify (fun _ _ => Block.zero 32) [7] 1059 64 token =
        (.ok, 5, ascii "bob") ∧
      (jwtVerify (fun _ _ => Block.zero 32) [7] 1060 64 token).1 = .expired := by
  obtain ⟨token, hcreate, hverify⟩ := jwtVerify_jwtCreate
    (fun _ _ => Block.zero 32) (cons_ne_nil 7 []) 5
    (show usernameValid (ascii "bob") = true by decide)
    (show (0 : ℤ) ≤ 1000 by decide) (show (0 : ℤ) < 60 by decide) (by decide)
  exact ⟨token, hcreate, (hverify 1059).1 (by decide), (hverify 1060).2 (by decide)⟩

/-! ## Other texts of a token -/

theorem jwtVerify_signed (hmac : Bytes → Bytes → Block 32) (secret : Bytes)
    (clock : UInt64) (usernameSize : ℕ) {header claims : Bytes}
    (hheader : 46 ∉ header) (hclaims : 46 ∉ claims) (signature : Bytes) :
    let mac := (hmac secret (header ++ 46 :: claims)).bytes
    jwtVerify hmac secret clock usernameSize (header ++ 46 :: (claims ++ 46 :: signature)) =
      if b64urlDecode 32 signature = some mac then
        jwtVerify hmac secret clock usernameSize (header ++ 46 :: (claims ++ 46 :: b64urlText mac))
      else (.invalid, 0, []) := by
  have hlen := (hmac secret (header ++ 46 :: claims)).length_eq
  simp only [jwtVerify, splitDot_append hheader, splitDot_append hclaims,
    Option.bind_eq_bind, Option.bind_some]
  split_ifs with hdecode
  · have hdot : 46 ∉ signature := fun hmem => absurd
      ((b64urlDecode_eq_some_iff.mp hdecode).1 hmem) (by decide)
    rw [hdecode, b64urlDecode_b64urlText hlen.le, guard_bind_of_pos hdot,
      guard_bind_of_pos (notMem_b64urlText _).1]
  · cases hread : b64urlDecode 32 signature with
    | none => simp
    | some presented =>
      have hne : (hmac secret (header ++ 46 :: claims)).bytes ≠ presented :=
        fun h => hdecode (h ▸ hread)
      simp [guard, hne]

/-- The last character of a text may have bits that belong to no byte.  The
decoder drops them, and encoding the bytes again clears them.  A signature is
compared without them. -/
theorem b64urlDecode_clears (hmac : Bytes → Bytes → Block 32) (secret : Bytes) :
    (∀ outSize text bytes, b64urlDecode outSize text = some bytes →
      ∀ encodeSize, text.length < encodeSize →
        b64urlEncode encodeSize bytes = some (clearUnused text)) ∧
      ∀ header claims, 46 ∉ header → 46 ∉ claims →
        ∀ clock usernameSize, ∃ result, ∀ signature,
          jwtVerify hmac secret clock usernameSize
              (header ++ 46 :: (claims ++ 46 :: signature)) =
            if signature ⊆ b64url ∧ clearUnused signature =
                b64urlText (hmac secret (header ++ 46 :: claims)).bytes then
              result
            else (.invalid, 0, []) := by
  constructor
  · intro outSize text bytes hdecode encodeSize hroom
    obtain ⟨-, htext, -⟩ := b64urlDecode_eq_some_iff.mp hdecode
    rw [← length_clearUnused, htext, length_b64urlText] at hroom
    rw [b64urlEncode_eq_some hroom, htext]
  · intro header claims hheader hclaims clock usernameSize
    refine ⟨jwtVerify hmac secret clock usernameSize (header ++ 46 :: (claims ++
      46 :: b64urlText (hmac secret (header ++ 46 :: claims)).bytes)), ?_⟩
    intro signature
    rw [jwtVerify_signed _ _ _ _ hheader hclaims]
    simp only [b64urlDecode_eq_some_iff,
      (hmac secret (header ++ 46 :: claims)).length_eq, le_refl, and_true]

theorem b64urlDecode_not_canonical :
    b64urlDecode 512 (ascii "QR") = some [65] ∧
      b64urlEncode 512 [65] = some (ascii "QQ") := by
  decide +kernel

end Codo.Server
