import Codo.Common.JsonTree
import Codo.Server.Jwt

/-!
# Logging in

`user_login_handler` of `user_auth.c`, and what a login proves about the
password.  PBKDF2 is a parameter.

The handlers hash what `json_get_string` reads, and that collapses every `\u`
escape to a question mark.  Two passwords written with such escapes may
therefore be taken for one another.
-/

namespace Codo.Server

open Support Common Storage Program List Option

variable {value : Bytes} {request : Request} {response : Response} {s : Store}
  {L : Slots} {h : ℕ} {password : Bytes} {F : Faults}

/-! ## The code -/

def hexNibble (c : UInt8) : Option ℕ :=
  if 48 ≤ c ∧ c ≤ 57 then some (c.toNat - 48)
  else if 97 ≤ c ∧ c ≤ 102 then some (c.toNat - 97 + 10)
  else if 65 ≤ c ∧ c ≤ 70 then some (c.toNat - 65 + 10)
  else none

/-- `hex_decode`: exactly `n` bytes from a C string. -/
def hexDecode : ℕ → Bytes → Option Bytes
  | 0, text => if text = [] then some [] else none
  | n + 1, high :: low :: rest =>
    match hexNibble high, hexNibble low with
    | some hi, some lo => (hexDecode n rest).map (UInt8.ofNat (hi * 16 + lo) :: ·)
    | _, _ => none
  | _ + 1, _ => none

/-- The second half of `load_user`: a stored value as a record. -/
def readUser (value : Bytes) : Option UserRecord := do
  let id ← jsonGetUint64 value (ascii "id")
  let username ← jsonGetString value (ascii "username") 64
  let saltHex ← jsonGetString value (ascii "salt") 33
  let hashHex ← jsonGetString value (ascii "hash") 65
  let iterations ← jsonGetUint64 value (ascii "iter")
  let salt ← hexDecode 16 (cString saltHex)
  let hash ← hexDecode 32 (cString hashHex)
  guard (0 < iterations)
  return ⟨id, cString username, salt, hash, iterations⟩

/-- `load_user`.  The outer `none` is a descent without end. -/
def loadUser (rounds : ℕ) (txn : Option UInt64) (username : Bytes) :
    PagerM (Option (Option UserRecord)) :=
  let key := userKeyPrefix ++ username
  if maxKeySize ≤ key.length then pure (some none)
  else
    match txn with
    | none => pure (some none)
    | some txnId => do
      match ← dbSearch rounds (activeHandle txnId) key maxValueSize with
      | none => pure none
      | some none => pure (some none)
      | some (some (_, value)) => pure (some (readUser value))

/-- `hash_password`, given the password, the salt and the iterations. -/
abbrev HashPassword := Bytes → Bytes → ℤ → Option (Block 32)

/-- What the surroundings of a login decide. -/
structure LoginEnv where
  txn : Option UInt64
  token : Option Bytes
  ttl : ℕ

/-- The answer to a login with the right password. -/
def loginReply (env : LoginEnv) (request : Request) (response : Response)
    (user : UserRecord) : Response :=
  match env.token with
  | none => response.sendErrorResponse .internalServerError (ascii "Token creation failed")
  | some token =>
    let body := ascii "\x7b\"token\":\"" ++ token ++
      ascii "\",\"token_type\":\"Bearer\",\"expires_in\":" ++
      decimal env.ttl ++ ascii ",\"user\":\x7b\"id\":" ++
      decimal user.id.toNat ++ ascii ",\"username\":\"" ++ user.username ++
      ascii "\"\x7d\x7d"
    if body.length < 768 then response.sendJsonResponse request .ok body
    else response.sendErrorResponse .internalServerError (ascii "Response too large")

/-- `user_login_handler` with the account found, if any.  The derivation runs
against a dummy salt when there is none. -/
def checkLogin (hashPassword : HashPassword) (env : LoginEnv)
    (request : Request) (response : Response) (password : Bytes)
    (found : Option UserRecord) : Response :=
  let salt := match found with
    | some user => user.salt
    | none => List.replicate 16 0
  let iterations : ℤ := match found with
    | some user => Int.bmod user.iterations.toNat (2 ^ 32)
    | none => 100000
  match hashPassword password salt iterations with
  | none => response.sendErrorResponse .internalServerError (ascii "Password hashing failed")
  | some computed =>
    match found with
    | none => response.sendErrorJson request .unauthorized (ascii "invalid username or password")
    | some user =>
      if computed.bytes ≠ user.hash then
        response.sendErrorJson request .unauthorized (ascii "invalid username or password")
      else loginReply env request response user

def userLoginHandler (rounds : ℕ) (hashPassword : HashPassword) (env : LoginEnv)
    (request : Request) (response : Response) : PagerM (Option Response) :=
  match parseCredentials request response with
  | .error reply => pure (some reply)
  | .ok (username, password) => do
    match ← loadUser rounds env.txn username with
    | none => pure none
    | some found => pure (some (checkLogin hashPassword env request response password found))

/-! ## The stored record -/

theorem hexNibble_hexByte {d : ℕ} (hd : d < 16) : hexNibble (hexByte d) = some d := by
  have hall : ∀ d < 16, hexNibble (hexByte d) = some d := by decide
  exact hall d hd

theorem hexDecode_hexText (bytes : Bytes) :
    hexDecode bytes.length (hexText bytes) = some bytes := by
  induction bytes with
  | nil => rfl
  | cons b bytes ih =>
    have hlt := b.toNat_lt
    have hhigh := hexNibble_hexByte (show b.toNat / 16 < 16 by omega)
    have hlow := hexNibble_hexByte (Nat.mod_lt b.toNat (show 16 > 0 by decide))
    have hvalue : b.toNat / 16 * 16 + b.toNat % 16 = b.toNat := by omega
    have htext : hexText (b :: bytes) = hexByte (b.toNat / 16) ::
        hexByte (b.toNat % 16) :: hexText bytes := rfl
    rw [htext, length_cons, hexDecode, hhigh, hlow]
    dsimp only
    rw [ih, map_some, hvalue, UInt8.ofNat_toNat]

theorem hexByte_ne (d : ℕ) (hd : d < 16) : hexByte d ≠ 34 ∧ hexByte d ≠ 92 := by
  have hall : ∀ d < 16, hexByte d ≠ 34 ∧ hexByte d ≠ 92 := by decide
  exact hall d hd

theorem plain_of_mem_hexText {bytes : Bytes} : ∀ c ∈ hexText bytes, c ≠ 34 ∧ c ≠ 92 ∧ 32 ≤ c := by
  intro c hc
  obtain ⟨byte, -, hdigit⟩ := mem_flatMap.mp hc
  have hlt := byte.toNat_lt
  have hlow := (printable_hexText hc).1
  rcases mem_cons.mp hdigit with rfl | hdigit
  · have hne := hexByte_ne _ (show byte.toNat / 16 < 16 by omega)
    exact ⟨hne.1, hne.2, UInt8.le_of_lt hlow⟩
  · obtain rfl := mem_singleton.mp hdigit
    have hne := hexByte_ne _ (Nat.mod_lt byte.toNat (show 16 > 0 by decide))
    exact ⟨hne.1, hne.2, UInt8.le_of_lt hlow⟩

/-- The members of a stored record. -/
def userMembers (user : UserRecord) : List (Bytes × JsonValue) :=
  [(ascii "id", .number user.id.toNat), (ascii "username", .text user.username),
    (ascii "salt", .text (hexText user.salt)), (ascii "hash", .text (hexText user.hash)),
    (ascii "iter", .number user.iterations.toNat)]

section

variable {user : UserRecord} (hname : usernameValid user.username = true)
include hname

theorem buildUserJson_eq (h : buildUserJson user = some value) :
    value = renderObject (userMembers user) := by
  have huser := escapeText_of_plain (plain_of_usernameValid hname)
  have hsalt : escapeText (hexText user.salt) = hexText user.salt :=
    escapeText_of_plain plain_of_mem_hexText
  have hhash : escapeText (hexText user.hash) = hexText user.hash :=
    escapeText_of_plain plain_of_mem_hexText
  rw [buildUserJson] at h
  obtain ⟨-, hvalue⟩ := ite_none_right_eq_some.mp h
  rw [← some.inj hvalue]
  simp [renderObject, renderMembers, userMembers, JsonValue.render, huser, hsalt, hhash, ascii]

theorem readUser_buildUserJson (hsalt : user.salt.length = 16)
    (hhash : user.hash.length = 32) (hiter : 0 < user.iterations)
    (h : buildUserJson user = some value) : readUser value = some user := by
  have hkeys : ∀ m ∈ userMembers user, PlainKey m.1 := by
    simp only [userMembers, forall_mem_cons]
    exact ⟨by decide, by decide, by decide, by decide, by decide, nofun⟩
  have hid : jsonGetUint64 value (ascii "id") = some user.id := by
    rw [buildUserJson_eq hname h, jsonGetUint64_renderObject hkeys rfl, UInt64.ofNat_toNat]
  have hreads : ∀ text : Bytes, (∀ c ∈ text, c ≠ 34 ∧ c ≠ 92 ∧ 32 ≤ c) →
      ∀ c ∈ text, ReadsBack c := fun text htext c hc => .inl (htext c hc).2.2
  have huser : jsonGetString value (ascii "username") 64 = some user.username := by
    rw [buildUserJson_eq hname h]
    exact jsonGetString_renderObject hkeys rfl
      (hreads _ (plain_of_usernameValid hname)) (length_lt_of_usernameValid hname)
  have hsaltHex : jsonGetString value (ascii "salt") 33 = some (hexText user.salt) := by
    rw [buildUserJson_eq hname h]
    exact jsonGetString_renderObject hkeys rfl (hreads _ plain_of_mem_hexText)
      (by rw [length_hexText, hsalt]; decide)
  have hhashHex : jsonGetString value (ascii "hash") 65 = some (hexText user.hash) := by
    rw [buildUserJson_eq hname h]
    exact jsonGetString_renderObject hkeys rfl (hreads _ plain_of_mem_hexText)
      (by rw [length_hexText, hhash]; decide)
  have hiterations : jsonGetUint64 value (ascii "iter") = some user.iterations := by
    rw [buildUserJson_eq hname h, jsonGetUint64_renderObject hkeys rfl, UInt64.ofNat_toNat]
  have hzero : ∀ text : Bytes, (∀ c ∈ text, c ≠ 34 ∧ c ≠ 92 ∧ 32 ≤ c) →
      cString text = text := fun text htext =>
    cString_of_notMem fun hmem => absurd (htext 0 hmem).2.2 (by decide)
  have hsaltBytes : hexDecode 16 (hexText user.salt) = some user.salt :=
    hsalt ▸ hexDecode_hexText user.salt
  have hhashBytes : hexDecode 32 (hexText user.hash) = some user.hash :=
    hhash ▸ hexDecode_hexText user.hash
  simp only [readUser, hid, huser, hsaltHex, hhashHex, hiterations,
    bind_eq_bind, bind_some, hzero _ plain_of_mem_hexText,
    hzero _ (plain_of_usernameValid hname), hsaltBytes, hhashBytes]
  exact guard_bind_of_pos hiter _

/-- A record always fits the buffer it is built in. -/
theorem exists_buildUserJson (hsalt : user.salt.length = 16) (hhash : user.hash.length = 32) :
    ∃ value, buildUserJson user = some value := by
  have hlen := length_lt_of_usernameValid hname
  have hdigits : ∀ n : UInt64, (decimal n.toNat).length ≤ 20 := fun n =>
    length_decimal_le (by decide) (n.toNat_lt.trans (by decide))
  have hid := hdigits user.id
  have hiter := hdigits user.iterations
  rw [buildUserJson]
  refine ⟨_, if_pos ?_⟩
  simp only [length_append, length_hexText, hsalt, hhash, maxValueSize,
    show (ascii "\x7b\"id\":").length = 6 from rfl,
    show (ascii ",\"username\":\"").length = 13 from rfl,
    show (ascii "\",\"salt\":\"").length = 10 from rfl,
    show (ascii "\",\"hash\":\"").length = 10 from rfl,
    show (ascii "\",\"iter\":").length = 9 from rfl,
    show (ascii "\x7d").length = 1 from rfl]
  omega

end

/-- A user record is read back from the bytes `build_user_json` makes of it. -/
theorem user_record_roundtrip (user : UserRecord)
    (hname : usernameValid user.username = true) (hsalt : user.salt.length = 16)
    (hhash : user.hash.length = 32) (hiter : 0 < user.iterations) :
    ∃ value, buildUserJson user = some value ∧ readUser value = some user := by
  obtain ⟨value, hvalue⟩ := exists_buildUserJson hname hsalt hhash
  exact ⟨value, hvalue, readUser_buildUserJson hname hsalt hhash hiter hvalue⟩

/-- A user may be called like a member of the record. -/
theorem user_record_roundtrip_named_salt :
    ∃ value, buildUserJson ⟨18446744073709551615, ascii "salt",
        List.replicate 16 255, List.replicate 32 0, 1⟩ = some value ∧
      readUser value = some ⟨18446744073709551615, ascii "salt",
        List.replicate 16 255, List.replicate 32 0, 1⟩ :=
  user_record_roundtrip _ (by decide) (by decide) (by decide) (by decide)

/-! ## What a registration leaves behind -/

/-- The hash a registration stores is that of the password in its body. -/
def RegisterEnv.Hashes (env : RegisterEnv) (hashPassword : HashPassword)
    (password : Bytes) : Prop :=
  ∀ salt hash, env.hashed = some (salt, hash) → salt.length = 16 ∧
    ∃ key : Block 32, hashPassword password salt 100000 = some key ∧ hash = key.bytes

theorem registerDraft_ok {env : RegisterEnv} {draft : UserRecord}
    (h : registerDraft env request response = .ok draft) :
    ∃ username password salt hash, parseCredentials request response = .ok (username, password) ∧
      usernameValid username = true ∧ env.hashed = some (salt, hash) ∧
      draft = ⟨0, username, salt, hash, 100000⟩ := by
  rw [registerDraft] at h
  split at h
  · cases h
  case h_2 username password hparse =>
    split at h
    · cases h
    case isFalse hvalid =>
      split at h
      · cases h
      · split at h
        · cases h
        case h_2 salt hash hhashed =>
          refine ⟨username, password, salt, hash, hparse, ?_, hhashed, ?_⟩
          · exact eq_true_of_ne_false hvalid
          · exact (Except.ok.inj h).symm

theorem finds_of_inserted {s' : Store} {key : Bytes}
    (h : Tree.Inserted s L s' ⟨key, value, 0⟩) : Finds s' key value := by
  obtain ⟨-, h', L', X, Y, ht', -, -, -, -, hafter⟩ := h
  have hmem : (⟨key, value, 0⟩ : KvPair) ∈ s'.pairsOf L' := by
    rw [hafter]
    simp
  exact (ht'.finds_iff key value).mpr (ht'.sorted.lookup_eq_some hmem)

theorem always_registered (ht : Tree s h L) (env : RegisterEnv)
    (request : Request) (response : Response) (next : UInt64) :
    Always (pageStep F) (userRegisterHandler env request response next) s fun r s' =>
        r.1.status = .created → ∃ draft value, registerDraft env request response = .ok draft ∧
          buildUserJson { draft with id := next } = some value ∧
          Finds s' (userKeyPrefix ++ draft.username) value := by
  have hinternal : HttpStatus.internalServerError ≠ .created := by decide
  have hconflict : HttpStatus.conflict ≠ .created := by decide
  rw [userRegisterHandler]
  cases hdraft : registerDraft env request response with
  | error reply =>
    exact always_pure.mpr fun hcreated => absurd hcreated (registerDraft_error hdraft)
  | ok draft =>
    dsimp only
    cases hjson : buildUserJson { draft with id := next } with
    | none =>
      exact always_pure.mpr fun hcreated => absurd hcreated hinternal
    | some value =>
      dsimp only
      split
      · exact always_pure.mpr fun hcreated => absurd hcreated hinternal
      case isFalse hkey =>
        cases env.txn with
        | none =>
          exact always_pure.mpr fun hcreated => absurd hcreated hinternal
        | some txnId =>
          have hlegal : LegalSizes (userKeyPrefix ++ draft.username)
              value := ⟨by simp [userKeyPrefix, ascii],
            (not_le.mp hkey).le, length_buildUserJson hjson⟩
          refine (ht.always_dbInsert hlegal (isSome_activeHandle txnId)).bind ?_
          rintro rc s' hend
          split
          · exact always_pure.mpr fun hcreated => absurd hcreated hconflict
          case isFalse hrc =>
            refine always_pure.mpr fun _ => ⟨draft, value, rfl, hjson, ?_⟩
            rcases hend with ⟨-, -, -, hinserted⟩ | ⟨rfl, -⟩ | ⟨rfl, -⟩
            · exact finds_of_inserted hinserted
            · exact absurd (show (-1 : ℤ) ≠ 0 by decide) hrc
            · exact absurd (show (-1 : ℤ) ≠ 0 by decide) hrc

/-! ## What a login proves -/

variable {username : Bytes}

theorem parseCredentials_ok (h : parseCredentials request response = .ok (username, password)) :
    ∃ body name pass, request.body = some body ∧
      jsonGetString body (ascii "username") 64 = some name ∧
      jsonGetString body (ascii "password") 129 = some pass ∧
      username = cString name ∧ password = cString pass := by
  rw [parseCredentials] at h
  split at h
  · cases h
  · cases h
  case h_3 body _ hbody =>
    split at h
    · cases h
    case h_2 name hname =>
      split at h
      · cases h
      case h_2 pass hpass =>
        obtain ⟨rfl, rfl⟩ := Prod.mk.inj (Except.ok.inj h)
        exact ⟨body, name, pass, hbody, hname, hpass, rfl, rfl⟩

theorem parseCredentials_error {reply : Response}
    (h : parseCredentials request response = .error reply) : reply.status = .badRequest := by
  rw [parseCredentials] at h
  split at h
  · rw [← Except.error.inj h]
    rfl
  · rw [← Except.error.inj h]
    rfl
  · split at h
    · rw [← Except.error.inj h]
      rfl
    · split at h
      · rw [← Except.error.inj h]
        rfl
      · cases h

variable {env : LoginEnv}

theorem checkLogin_ok {hashPassword : HashPassword} {found : Option UserRecord}
    (h : (checkLogin hashPassword env request response password found).status = .ok) :
    ∃ user key, found = some user ∧ hashPassword password user.salt
        (Int.bmod user.iterations.toNat (2 ^ 32)) = some key ∧ key.bytes = user.hash := by
  cases found with
  | none =>
    rw [checkLogin] at h
    split at h
    · exact absurd h (show HttpStatus.internalServerError ≠ .ok by decide)
    · exact absurd h (show HttpStatus.unauthorized ≠ .ok by decide)
  | some user =>
    rw [checkLogin] at h
    split at h
    · exact absurd h (show HttpStatus.internalServerError ≠ .ok by decide)
    case h_2 key hkey =>
      split at h
      · exact absurd h (show HttpStatus.unauthorized ≠ .ok by decide)
      case isFalse heq => exact ⟨user, key, rfl, hkey, not_not.mp heq⟩

theorem always_loadUser (ht : Tree s h L) {rounds : ℕ} (hrounds : 9 ≤ rounds)
    (txn : Option UInt64) (username : Bytes) :
    Always (pageStep F) (loadUser rounds txn username) s fun r _ =>
      (r = some none ∧ (maxKeySize ≤ (userKeyPrefix ++ username).length ∨
        txn = none ∨ F.pages = true ∨ ∀ value, ¬ Finds s (userKeyPrefix ++ username) value)) ∨
      ∃ value, Finds s (userKeyPrefix ++ username) value ∧
        r = some (readUser (value.take maxValueSize)) := by
  rw [loadUser.eq_def]
  dsimp only
  split
  case isTrue hlong => exact always_pure.mpr (.inl ⟨rfl, .inl hlong⟩)
  · cases txn with
    | none => exact always_pure.mpr (.inl ⟨rfl, .inr (.inl rfl)⟩)
    | some txnId =>
      refine (ht.always_dbSearch (isSome_activeHandle txnId)
          (userKeyPrefix ++ username) maxValueSize (ht.height_lt.trans_le hrounds)).bind ?_
      rintro r s' ⟨-, ⟨rfl, hpages⟩ | rfl⟩
      · exact always_pure.mpr (.inl ⟨rfl, .inr (.inr (.inl hpages))⟩)
      · cases hlookup : lookup (s.pairsOf L) (userKeyPrefix ++ username) with
        | none =>
          refine always_pure.mpr (.inl ⟨rfl, .inr (.inr (.inr fun value hfinds => ?_))⟩)
          rw [ht.finds_iff, hlookup] at hfinds
          cases hfinds
        | some value => exact always_pure.mpr (.inr ⟨value, (ht.finds_iff _ _).mpr hlookup, rfl⟩)

/-- What a login answers once the name and the password have been read. -/
theorem always_userLoginHandler (ht : Tree s h L) {rounds : ℕ}
    (hrounds : 9 ≤ rounds) (hashPassword : HashPassword) (env : LoginEnv)
    (hparse : parseCredentials request response = .ok (username, password)) :
    Always (pageStep F) (userLoginHandler rounds hashPassword env request response) s fun r _ =>
        (r = some (checkLogin hashPassword env request response password none) ∧
          (maxKeySize ≤ (userKeyPrefix ++ username).length ∨ env.txn = none ∨ F.pages = true ∨
            ∀ value, ¬ Finds s (userKeyPrefix ++ username) value)) ∨
        ∃ value, Finds s (userKeyPrefix ++ username) value ∧
          r = some (checkLogin hashPassword env request response password
            (readUser (value.take maxValueSize))) := by
  rw [userLoginHandler, hparse]
  refine (always_loadUser ht hrounds env.txn username).bind ?_
  rintro r s' (⟨rfl, hwhy⟩ | ⟨value, hfinds, rfl⟩)
  · exact always_pure.mpr (.inl ⟨rfl, hwhy⟩)
  · exact always_pure.mpr (.inr ⟨value, hfinds, rfl⟩)

/-! ## The password -/

/-- A registration that succeeded, under any faults.  The stored hash is that of
the password it read. -/
def Registers (hashPassword : HashPassword) (s : Store) (body : Bytes) (s' : Store) : Prop :=
  ∃ F env request response next next' reply, request.body = some body ∧
    (∀ name password, parseCredentials request response = .ok (name, password) →
      env.Hashes hashPassword password) ∧
    Outcome (pageStep F) (userRegisterHandler env request response next) s (reply, next') s' ∧
    reply.status = .created

/-- A login that succeeded, under any faults. -/
def LogsIn (hashPassword : HashPassword) (s : Store) (body : Bytes) : Prop :=
  ∃ F rounds env request response reply s', 9 ≤ rounds ∧ request.body = some body ∧
    Outcome (pageStep F) (userLoginHandler rounds hashPassword env request response) s
      (some reply) s' ∧ reply.status = .ok

/-- Accounts are kept: nothing in the server changes or removes their rows. -/
def KeepsAccounts (s s' : Store) : Prop :=
  ∀ name value, Finds s (userKeyPrefix ++ name) value → Finds s' (userKeyPrefix ++ name) value

/-- The derivation does not map the two passwords to one key. -/
def TellsApart (hashPassword : HashPassword) (p q : Bytes) : Prop :=
  ∀ salt iterations key, hashPassword p salt iterations = some key →
    hashPassword q salt iterations = some key → p = q

section Password

variable {hashPassword : HashPassword} {s' : Store} {body : Bytes}

theorem Registers.stored (hregister : Registers hashPassword s body s') (ht : Tree s h L) :
    ∃ name password id salt key value, jsonGetString body (ascii "username") 64 = some name ∧
      jsonGetString body (ascii "password") 129 = some password ∧
      hashPassword (cString password) salt 100000 = some key ∧ value.length ≤ maxValueSize ∧
      readUser value = some ⟨id, cString name, salt, key.bytes, 100000⟩ ∧
      Finds s' (userKeyPrefix ++ cString name) value := by
  obtain ⟨F, env, request, response, next, next', reply, hbody, hhashes, hrun,
    hcreated⟩ := hregister
  obtain ⟨draft, value, hdraft, hjson, hfinds⟩ :=
    always_registered ht env request response next _ _ hrun hcreated
  obtain ⟨_, _, salt, hash, hparse, hvalid, hhashed, rfl⟩ := registerDraft_ok hdraft
  obtain ⟨hsalt, key, hkey, rfl⟩ := hhashes _ _ hparse salt hash hhashed
  obtain ⟨body', name, password, hbody', hname, hpassword, rfl, rfl⟩ := parseCredentials_ok hparse
  obtain rfl : body = body' := some.inj (hbody.symm.trans hbody')
  have hiter : (0 : UInt64) < 100000 := by decide
  exact ⟨name, password, next, salt, key, value, hname, hpassword, hkey, length_buildUserJson hjson,
    readUser_buildUserJson hvalid hsalt key.length_eq hiter hjson, hfinds⟩

theorem LogsIn.checked (hlogin : LogsIn hashPassword s body) (ht : Tree s h L) :
    ∃ name password value user key, jsonGetString body (ascii "username") 64 = some name ∧
      jsonGetString body (ascii "password") 129 = some password ∧
      Finds s (userKeyPrefix ++ cString name) value ∧
      readUser (value.take maxValueSize) = some user ∧ hashPassword (cString password) user.salt
        (Int.bmod user.iterations.toNat (2 ^ 32)) = some key ∧ key.bytes = user.hash := by
  obtain ⟨F, rounds, env, request, response, reply, s', hrounds, hbody, hrun, hok⟩ := hlogin
  cases hparse : parseCredentials request response with
  | error reply' =>
    rw [userLoginHandler, hparse] at hrun
    rw [some.inj hrun.1, parseCredentials_error hparse] at hok
    exact absurd hok (by decide)
  | ok credentials =>
    obtain ⟨username, password⟩ := credentials
    obtain ⟨body', name, pass, hbody', hname, hpass, rfl, rfl⟩ := parseCredentials_ok hparse
    obtain rfl : body = body' := some.inj (hbody.symm.trans hbody')
    rcases always_userLoginHandler ht hrounds hashPassword env hparse _ _ hrun
      with ⟨heq, -⟩ | ⟨value, hfinds, heq⟩
    · rw [some.inj heq] at hok
      obtain ⟨user, -, hnone, -⟩ := checkLogin_ok hok
      cases hnone
    · rw [some.inj heq] at hok
      obtain ⟨user, key, hread, hkey, hbytes⟩ := checkLogin_ok hok
      exact ⟨name, pass, value, user, key, hname, hpass, hfinds, hread, hkey, hbytes⟩

theorem finds_unique (ht : Tree s h L) {key value' : Bytes}
    (hfinds : Finds s key value) (hfinds' : Finds s key value') : value = value' := by
  rw [ht.finds_iff] at hfinds hfinds'
  exact some.inj (hfinds.symm.trans hfinds')

theorem checkLogin_of_key
    {user : UserRecord} {key : Block 32} (hkey : hashPassword password user.salt
      (Int.bmod user.iterations.toNat (2 ^ 32)) = some key) (hbytes : key.bytes = user.hash) :
    checkLogin hashPassword env request response password (some user) =
      loginReply env request response user := by
  simp only [checkLogin, hkey, hbytes, ne_eq, not_true_eq_false, if_false]

theorem logsIn_of_key (ht : Tree s h L) {user : UserRecord} {key : Block 32}
    {txnId : UInt64} (hbody : request.body = some body)
    (hparse : parseCredentials request response = .ok (username, password))
    (hlen : (userKeyPrefix ++ username).length < maxKeySize) (htxn : env.txn = some txnId)
    (hfinds : Finds s (userKeyPrefix ++ username) value)
    (hread : readUser (value.take maxValueSize) = some user) (hkey : hashPassword password user.salt
      (Int.bmod user.iterations.toNat (2 ^ 32)) = some key) (hbytes : key.bytes = user.hash)
    (hreply : (loginReply env request response user).status = .ok) :
    LogsIn hashPassword s body := by
  obtain ⟨r, s', hrun⟩ := exists_outcome (exists_pageStep Faults.none)
    (userLoginHandler 9 hashPassword env request response) s
  have hr : r = some (loginReply env request response user) := by
    rcases always_userLoginHandler ht le_rfl hashPassword env hparse _ _ hrun
      with ⟨-, hlong | hnone | hpages | hmissing⟩ | ⟨value', hfinds', heq⟩
    · exact absurd hlen (not_lt.mpr hlong)
    · rw [htxn] at hnone
      cases hnone
    · exact absurd hpages (by decide)
    · exact absurd hfinds (hmissing value)
    · rw [heq, ← finds_unique ht hfinds hfinds', hread, checkLogin_of_key hkey hbytes]
  rw [hr] at hrun
  exact ⟨Faults.none, 9, env, request, response, _, s', le_rfl, hbody, hrun, hreply⟩

theorem exists_registers {env : RegisterEnv} {draft : UserRecord}
    {txnId : UInt64} (hbody : request.body = some body)
    (hdraft : registerDraft env request response = .ok draft)
    (hjson : buildUserJson { draft with id := 1 } = some value)
    (hkey : (userKeyPrefix ++ draft.username).length < maxKeySize) (htxn : env.txn = some txnId)
    (hcreated : (registerReply env request response
      { draft with id := 1 }).status = .created) (hhashes : ∀ name password,
      parseCredentials request response = .ok (name, password) → env.Hashes hashPassword password) :
    ∃ s' h' L', Registers hashPassword (Store.fresh 0 0) body s' ∧
      Tree s' h' L' ∧ Finds s' (userKeyPrefix ++ draft.username) value := by
  have hids : 40 ≤ (Store.fresh 0 0).idsLeft := by decide
  have hfree : lookup ((Store.fresh 0 0).pairsOf rootSlots)
      (userKeyPrefix ++ draft.username) = none := by
    rfl
  obtain ⟨s', hrun, -, h', L', ht', hlookup⟩ := exists_registerOutcome
    (tree_fresh 0 0) hids 1 hdraft hjson hkey htxn hfree
  refine ⟨s', h', L', ⟨Faults.none, env, request, response, 1, 2, _, hbody,
    hhashes, hrun, hcreated⟩, ht', (ht'.finds_iff _ _).mpr ?_⟩
  rw [hlookup, Function.update_self]

end Password

/-! ## An account -/

/-- A derivation that keeps short passwords apart. -/
def paddedKey : HashPassword := fun password _ _ =>
  if h : password.length ≤ 31 then
    some ⟨UInt8.ofNat password.length ::
      (password ++ List.replicate (31 - password.length) 0), by simp; omega⟩
  else none

theorem exists_paddedKey (h : password.length ≤ 31) :
    ∃ key, ∀ salt iterations, paddedKey password salt iterations = some key := by
  cases hkey : paddedKey password [] 0 with
  | none =>
    rw [paddedKey, dif_pos h] at hkey
    cases hkey
  | some key => exact ⟨key, fun _ _ => hkey⟩

theorem tellsApart_paddedKey (p q : Bytes) : TellsApart paddedKey p q := by
  intro salt iterations key hp hq
  rw [paddedKey] at hp hq
  split at hp
  case isFalse => exact absurd hp nofun
  case isTrue hlen =>
    split at hq
    case isFalse => exact absurd hq nofun
    case isTrue hlen' =>
      have heq := congrArg Block.bytes (some.inj (hp.trans hq.symm))
      obtain ⟨hhead, htail⟩ := List.cons.inj heq
      have hlength : p.length = q.length := by
        have := congrArg UInt8.toNat hhead
        rw [UInt8.toNat_ofNat', UInt8.toNat_ofNat'] at this
        omega
      exact (append_inj htail hlength).1

def plainUnits (text : Bytes) : List StringUnit :=
  text.filterMap fun b => if h : b ≠ 34 ∧ b ≠ 92 then some (.plain b h) else none

def noBlanks : Blanks :=
  ⟨[], nofun⟩

def member (name : Bytes) (v : JsonPart .value) (more : JsonPart (.list true)) :
    JsonPart (.list true) :=
  .element noBlanks (some ⟨plainUnits name, noBlanks, noBlanks⟩) rfl v noBlanks more

/-- The array `["x",2]`. -/
def tags : JsonPart .value :=
  .group (.element noBlanks none rfl (.text (plainUnits (ascii "x"))) noBlanks
    (.element noBlanks none rfl (.atom ⟨50, [], rfl, by decide⟩) noBlanks (.close noBlanks)))

/-- The credentials of `bob`, behind a member that is an array. -/
def bobObject (password : List StringUnit) : JsonObject where
  head := noBlanks
  members := member (ascii "tags") tags
    (member (ascii "username") (.text (plainUnits (ascii "bob")))
      (member (ascii "password") (.text password) (.close noBlanks)))
  tail := noBlanks

def bobRequest (password : List StringUnit) : Request :=
  { Request.zero with body := some (bobObject password).render }

def bobSalt : Bytes :=
  List.replicate 16 1

def bobEnv (key : Block 32) : RegisterEnv where
  hashed := some (bobSalt, key.bytes)
  txn := some 1
  token := some (ascii "t")
  ttl := 3600

def bobLoginEnv : LoginEnv where
  txn := some 1
  token := some (ascii "t")
  ttl := 3600

def bobRecord (id : UInt64) (key : Block 32) : UserRecord :=
  ⟨id, ascii "bob", bobSalt, key.bytes, 100000⟩

section Bob

variable {password password' : List StringUnit} {read : Bytes}

theorem bobObject_hasText (password : List StringUnit) :
    (bobObject password).HasText (ascii "username") (plainUnits (ascii "bob")) ∧
      (bobObject password).HasText (ascii "password") password := by
  have hentries : (bobObject password).members.entries = [(plainUnits (ascii "tags"), tags),
        (plainUnits (ascii "username"), .text (plainUnits (ascii "bob"))),
        (plainUnits (ascii "password"), .text password)] := rfl
  have htags : denote (plainUnits (ascii "tags")) = some (ascii "tags") := by decide
  have hname : denote (plainUnits (ascii "username")) = some (ascii "username") := by decide
  have hpass : denote (plainUnits (ascii "password")) = some (ascii "password") := by decide
  simp only [JsonObject.HasText, hentries, forall_mem_cons, exists_mem_cons_iff,
    htags, hname, hpass]
  simp [ascii]

theorem bobObject_denotes_name (password : List StringUnit) :
    (bobObject password).Denotes (ascii "username") (ascii "bob") :=
  ⟨_, (bobObject_hasText password).1, by decide⟩

theorem bobObject_denotes {text : Bytes} (h : denote password = some text) :
    (bobObject password).Denotes (ascii "password") text :=
  ⟨_, (bobObject_hasText password).2, h⟩

/-- Ahead of the two members stands no key inside a value. -/
theorem bobObject_plain (h : .escaped 117 ∉ password) :
    (bobObject password).Plain (ascii "username") ∧
      (bobObject password).Plain (ascii "password") := by
  refine ⟨⟨.inr ⟨by decide, .inl (by decide)⟩, fun units hunits => ?_⟩,
    .inr ⟨by decide, .inr ⟨by decide, .inl (by decide)⟩⟩, fun units hunits => ?_⟩
  · rw [hunits.eq (bobObject_hasText password).1]
    decide
  · rwa [hunits.eq (bobObject_hasText password).2]

/-- The handler reads `bob` and the password out of the body. -/
def ReadsBob (password : List StringUnit) (read : Bytes) : Prop :=
  jsonGetString (bobObject password).render (ascii "username") 64 = some (ascii "bob") ∧
    jsonGetString (bobObject password).render (ascii "password") 129 = some read ∧
    0 ∉ read ∧ 8 ≤ read.length ∧ read.length ≤ 31

instance : Decidable (ReadsBob password read) :=
  inferInstanceAs (Decidable (_ ∧ _))

theorem ReadsBob.parseCredentials (h : ReadsBob password read) :
    parseCredentials (bobRequest password) emptyResponse = .ok (ascii "bob", read) := by
  have hbody : (bobRequest password).body = some (bobObject password).render := rfl
  have hne : (bobObject password).render ≠ [] := cons_ne_nil _ _
  rw [Server.parseCredentials, hbody]
  split
  case h_1 h => cases h
  case h_2 h => exact absurd (some.inj h) hne
  case h_3 body _ heq =>
    obtain rfl := some.inj heq
    simp only [h.1, h.2.1]
    rw [cString_of_notMem h.2.2.1]
    rfl

theorem registerDraft_bob (h : ReadsBob password read) (key : Block 32) :
    registerDraft (bobEnv key) (bobRequest password) emptyResponse = .ok (bobRecord 0 key) := by
  rw [registerDraft, h.parseCredentials]
  dsimp only
  rw [if_neg (by decide), if_neg (by have := h.2.2.2; omega)]
  rfl

theorem registerReply_bob (key : Block 32) :
    (registerReply (bobEnv key) (bobRequest password) emptyResponse
      (bobRecord 1 key)).status = .created := by
  rw [registerReply]
  dsimp only [bobEnv, bobRecord]
  rfl

theorem loginReply_bob (key : Block 32) :
    (loginReply bobLoginEnv (bobRequest password) emptyResponse
      (bobRecord 1 key)).status = .ok := by
  rw [loginReply]
  dsimp only [bobLoginEnv, bobRecord]
  rfl

/-- `bob` registers with one password and logs in with another that is read the
same. -/
theorem exists_bob (h : ReadsBob password read) (h' : ReadsBob password' read) :
    ∃ s h L, Registers paddedKey (Store.fresh 0 0) (bobObject password).render s ∧
      Tree s h L ∧ LogsIn paddedKey s (bobObject password').render := by
  obtain ⟨key, hkey⟩ : ∃ key, ∀ salt iterations,
      paddedKey read salt iterations = some key := exists_paddedKey h.2.2.2.2
  have hvalid : usernameValid (ascii "bob") = true := by decide
  have hkeyLen : (userKeyPrefix ++ ascii "bob").length < maxKeySize := by decide
  obtain ⟨value, hjson⟩ : ∃ value, buildUserJson (bobRecord 1 key) = some value :=
    exists_buildUserJson hvalid rfl key.length_eq
  have hread : readUser (value.take maxValueSize) = some (bobRecord 1 key) := by
    rw [take_of_length_le (length_buildUserJson hjson)]
    exact readUser_buildUserJson hvalid rfl key.length_eq
      (show (0 : UInt64) < 100000 by decide) hjson
  have hhashes : ∀ name pass, parseCredentials (bobRequest password)
      emptyResponse = .ok (name, pass) → (bobEnv key).Hashes paddedKey pass := by
    intro name pass heq salt hash hhashed
    rw [h.parseCredentials] at heq
    obtain ⟨-, rfl⟩ := Prod.mk.inj (Except.ok.inj heq)
    obtain ⟨rfl, rfl⟩ := Prod.mk.inj (some.inj hhashed)
    exact ⟨rfl, key, hkey _ _, rfl⟩
  obtain ⟨s, h, L, hregister, ht, hfinds⟩ := exists_registers rfl
    (registerDraft_bob h key) hjson hkeyLen rfl (registerReply_bob key) hhashes
  exact ⟨s, h, L, hregister, ht, logsIn_of_key ht rfl h'.parseCredentials hkeyLen rfl hfinds
    hread (hkey _ _) rfl (loginReply_bob key)⟩

end Bob

/-! ## Two passwords for one account -/

/-- Login accepts only the registered password, for objects in which no key inside
a value is taken for the name or the password and which write the two without
`\u` escapes. -/
theorem login_password_eq {hashPassword : HashPassword} {s s₁ s₂ : Store}
    {h₁ h₂ : ℕ} {L₁ L₂ : List (UInt32 × WithTop Bytes)} (ht₁ : Tree s h₁ L₁)
    (ht₂ : Tree s₂ h₂ L₂) {o o' : JsonObject} {name password password' : Bytes}
    (hname : o.Denotes (ascii "username") name)
    (hpassword : o.Denotes (ascii "password") password)
    (hname' : o'.Denotes (ascii "username") name)
    (hpassword' : o'.Denotes (ascii "password") password')
    (hplain : ∀ field ∈ [ascii "username", ascii "password"],
      o.Plain field ∧ o'.Plain field)
    (hapart : TellsApart hashPassword password password')
    (hregister : Registers hashPassword s o.render s₁)
    (hkept : KeepsAccounts s₁ s₂) (hlogin : LogsIn hashPassword s₂ o'.render) :
    password = password' := by
  have hiter : Int.bmod (UInt64.toNat 100000) (2 ^ 32) = 100000 := by decide
  have huser : ∀ b ∈ ascii "username", b ≠ 92 ∧ 32 ≤ b := forall_mem_of_all (by decide)
  have hpass : ∀ b ∈ ascii "password", b ≠ 92 ∧ 32 ≤ b := forall_mem_of_all (by decide)
  have hu := hplain _ mem_cons_self
  have hpl := hplain _ (mem_cons_of_mem _ mem_cons_self)
  obtain ⟨n, p, id, salt, key, value, hn, hp, hkey, hlen, hread, hfinds⟩ := hregister.stored ht₁
  obtain ⟨n', p', value', user, key', hn', hp', hfinds', hread', hkey', hbytes⟩ :=
    hlogin.checked ht₂
  rw [JsonObject.cString_jsonGetString huser hu.1 hname hn] at hread hfinds
  rw [JsonObject.cString_jsonGetString huser hu.2 hname' hn'] at hfinds'
  rw [JsonObject.cString_jsonGetString hpass hpl.1 hpassword hp] at hkey
  rw [JsonObject.cString_jsonGetString hpass hpl.2 hpassword' hp'] at hkey'
  obtain rfl := finds_unique ht₂ (hkept _ _ hfinds) hfinds'
  rw [take_of_length_le hlen, hread] at hread'
  obtain rfl := some.inj hread'
  obtain rfl : key' = key := Block.ext hbytes
  rw [hiter] at hkey'
  exact hapart salt 100000 key' hkey hkey'

/-- A slash may be written with or without an escape, behind an array. -/
theorem login_password_eq_slash :
    let password := plainUnits (ascii "abc/efgh")
    let password' := plainUnits (ascii "abc") ++ .escaped 47 :: plainUnits (ascii "efgh")
    (bobObject password').render = ascii
        "\x7b\"tags\":[\"x\",2],\"username\":\"bob\",\"password\":\"abc\\/efgh\"\x7d" ∧
      ∃ s, Registers paddedKey (Store.fresh 0 0) (bobObject password).render s ∧
        LogsIn paddedKey s (bobObject password').render ∧
        ∃ p p', denote password = some p ∧ denote password' = some p' ∧ p = p' := by
  intro password password'
  have hreads : ReadsBob password (ascii "abc/efgh") := by decide +kernel
  have hreads' : ReadsBob password' (ascii "abc/efgh") := by decide +kernel
  have hdenote : denote password = some (ascii "abc/efgh") := by decide
  have hdenote' : denote password' = some (ascii "abc/efgh") := by decide
  have hplain := bobObject_plain (show .escaped 117 ∉ password by decide)
  have hplain' := bobObject_plain (show .escaped 117 ∉ password' by decide)
  obtain ⟨s, h, L, hregister, ht, hlogin⟩ := exists_bob hreads hreads'
  refine ⟨by decide +kernel, s, hregister, hlogin, _, _, hdenote, hdenote', ?_⟩
  exact login_password_eq (tree_fresh 0 0) ht (bobObject_denotes_name password)
    (bobObject_denotes hdenote) (bobObject_denotes_name password') (bobObject_denotes hdenote')
    (forall_mem_cons.mpr ⟨⟨hplain.1, hplain'.1⟩, forall_mem_singleton.mpr ⟨hplain.2, hplain'.2⟩⟩)
    (tellsApart_paddedKey _ _) hregister (fun _ _ hfinds => hfinds) hlogin

/-- The two passwords start with different letters, both written as `\u`
escapes.  An account registered with one accepts the other. -/
theorem login_accepts_other_password :
    let password := .escaped 117 :: plainUnits (ascii "0041bcdefgh")
    let password' := .escaped 117 :: plainUnits (ascii "0042bcdefgh")
    (∀ p q, TellsApart paddedKey p q) ∧
      (∃ s h L, Registers paddedKey (Store.fresh 0 0)
          (bobObject password).render s ∧ Tree s h L ∧ KeepsAccounts s s ∧
        LogsIn paddedKey s (bobObject password').render) ∧
      (∀ units, (bobObject units).Denotes (ascii "username") (ascii "bob")) ∧
      (bobObject password).Denotes (ascii "password") (ascii "Abcdefgh") ∧
      (bobObject password').Denotes (ascii "password") (ascii "Bbcdefgh") ∧
      ascii "Abcdefgh" ≠ ascii "Bbcdefgh" := by
  intro password password'
  have hreads : ReadsBob password (ascii "?bcdefgh") := by decide +kernel
  have hreads' : ReadsBob password' (ascii "?bcdefgh") := by decide +kernel
  obtain ⟨s, h, L, hregister, ht, hlogin⟩ := exists_bob hreads hreads'
  exact ⟨tellsApart_paddedKey, ⟨s, h, L, hregister, ht, fun _ _ hfinds => hfinds, hlogin⟩,
    bobObject_denotes_name, bobObject_denotes (by decide), bobObject_denotes (by decide), by decide⟩

end Codo.Server
