import Codo.Common.Json
import Codo.Storage.Losses
import Codo.Storage.Scan

/-!
# User ids

`user_auth.c`: accounts are stored under their name, so nothing in the store
keeps two of them from having one id.  Ids come from a counter that
`user_api_init` seeds from the highest id a scan of the store has seen, and
`user_register_handler` takes the next one.

`user_api_init` does not look at what the scan returned.  A scan that could not
load a page, or no transaction to scan in, leaves the counter below ids that are
stored.
-/

namespace Codo.Server

open Support Common Storage Program Option Function

variable {id : UInt64} {s : Store} {h : ℕ} {L : Slots} {value : Bytes}
  {env : RegisterEnv} {request : Request} {response : Response}

/-! ## Accounts -/

structure UserRecord where
  id : UInt64
  username : Bytes
  salt : Bytes
  hash : Bytes
  iterations : UInt64
  deriving DecidableEq

def userKeyPrefix : Bytes := ascii "user:"

/-- `build_user_json` into a buffer of `MAX_VALUE_SIZE` bytes. -/
def buildUserJson (user : UserRecord) : Option Bytes :=
  let json := ascii "\x7b\"id\":" ++ decimal user.id.toNat ++
    ascii ",\"username\":\"" ++ user.username ++
    ascii "\",\"salt\":\"" ++ hexText user.salt ++ ascii "\",\"hash\":\"" ++ hexText user.hash ++
    ascii "\",\"iter\":" ++ decimal user.iterations.toNat ++ ascii "\x7d"
  if json.length < maxValueSize then some json else none

def isUsernameByte (c : UInt8) : Bool :=
  (97 ≤ c && c ≤ 122) || (65 ≤ c && c ≤ 90) || (48 ≤ c && c ≤ 57) || c == 95 || c == 46 || c == 45

def usernameValid (username : Bytes) : Bool :=
  3 ≤ username.length && username.length < 64 && username.all isUsernameByte

/-- `parse_credentials`: the name and the password, as C strings. -/
def parseCredentials (request : Request) (response : Response) : Except Response (Bytes × Bytes) :=
  match request.body with
  | none | some [] => .error (response.sendErrorJson request .badRequest
      (ascii "request body required"))
  | some body =>
    match jsonGetString body (ascii "username") 64 with
    | none => .error (response.sendErrorJson request .badRequest
        (ascii "missing or invalid 'username'"))
    | some username =>
      match jsonGetString body (ascii "password") 129 with
      | none => .error (response.sendErrorJson request .badRequest
          (ascii "missing or invalid 'password'"))
      | some password => .ok (cString username, cString password)

/-- What the surroundings of a registration decide: the salt and the hash of
the password, the transaction, the token and its lifetime. -/
structure RegisterEnv where
  hashed : Option (Bytes × Bytes)
  txn : Option UInt64
  token : Option Bytes
  ttl : ℕ

/-- `user_register_handler` up to the id: the record without it. -/
def registerDraft (env : RegisterEnv) (request : Request)
    (response : Response) : Except Response UserRecord :=
  match parseCredentials request response with
  | .error reply => .error reply
  | .ok (username, password) =>
    if usernameValid username = false then
      .error (response.sendErrorJson request .badRequest
        (ascii "username must be 3-63 characters of [A-Za-z0-9_.-]"))
    else if password.length < 8 then
      .error (response.sendErrorJson request .badRequest
        (ascii "password must be at least 8 characters"))
    else
      match env.hashed with
      | none => .error (response.sendErrorResponse .internalServerError
          (ascii "Password hashing failed"))
      | some (salt, hash) => .ok ⟨0, username, salt, hash, 100000⟩

/-- The answer to a registration whose record is stored. -/
def registerReply (env : RegisterEnv) (request : Request)
    (response : Response) (user : UserRecord) : Response :=
  match env.token with
  | none => response.sendErrorResponse .internalServerError (ascii "Token creation failed")
  | some token =>
    let body := ascii "\x7b\"id\":" ++ decimal user.id.toNat ++
      ascii ",\"username\":\"" ++ user.username ++
      ascii "\",\"token\":\"" ++ token ++
      ascii "\",\"token_type\":\"Bearer\",\"expires_in\":" ++
      decimal env.ttl ++ ascii "\x7d"
    if body.length < 768 then
      response.sendJsonResponse request .created body
    else response.sendErrorResponse .internalServerError (ascii "Response too large")

/-- `user_register_handler` with the counter at `next`: the answer and the
counter afterwards. -/
def userRegisterHandler (env : RegisterEnv) (request : Request)
    (response : Response) (next : UInt64) : PagerM (Response × UInt64) :=
  match registerDraft env request response with
  | .error reply => pure (reply, next)
  | .ok draft =>
    let user := { draft with id := next }
    let key := userKeyPrefix ++ user.username
    match buildUserJson user with
    | none => pure (response.sendErrorResponse .internalServerError
        (ascii "User record too large"), next + 1)
    | some value =>
      if maxKeySize ≤ key.length then
        pure (response.sendErrorResponse .internalServerError
          (ascii "User record too large"), next + 1)
      else
        match env.txn with
        | none => pure (response.sendErrorResponse .internalServerError
            (ascii "Transaction failed"), next + 1)
        | some txnId => do
          let rc ← dbInsert (activeHandle txnId) key value
          if rc ≠ 0 then
            pure (response.sendErrorJson request .conflict
              (ascii "username already exists"), next + 1)
          else pure (registerReply env request response user, next + 1)

theorem lt_add_one_of_le {n : UInt64} (hn : n + 1 ≠ 0) (hle : id ≤ n) : id < n + 1 := by
  rw [UInt64.le_iff_toNat_le] at hle
  rw [UInt64.lt_iff_toNat_lt]
  have hn' : (n + 1).toNat ≠ 0 := fun h => hn (UInt64.toNat_inj.mp h)
  have hlt := n.toNat_lt
  rw [UInt64.toNat_add, UInt64.toNat_one] at hn' ⊢
  omega

/-! ## The counter at startup -/

def seedUserIdScanCb (key value : Bytes) (maxId : UInt64) : ℤ × UInt64 :=
  if key.length < userKeyPrefix.length ∨
      key.take userKeyPrefix.length ≠ userKeyPrefix then (0, maxId)
  else
    match jsonGetUint64 value (ascii "id") with
    | some id => if maxId < id then (0, id) else (0, maxId)
    | none => (0, maxId)

/-- `user_api_init`: the return code and the counter.  The counter of a process
that has not been initialised is `1`; `none` is a scan without end. -/
def userApiInit (rounds : ℕ) (cryptoReady jwtReady : Bool)
    (txn : Option UInt64) : PagerM (Option (ℤ × UInt64)) :=
  if cryptoReady = false ∨ jwtReady = false then pure (some (-1, 1))
  else
    match txn with
    | none => pure (some (0, 0 + 1))
    | some txnId => do
      match ← dbScan rounds (activeHandle txnId) seedUserIdScanCb 0 with
      | none => pure none
      | some (_, maxId) => pure (some (0, maxId + 1))

/-- The id in a user record that is stored. -/
def StoredId (s : Store) (id : UInt64) : Prop :=
  ∃ key value, Finds s key value ∧ startsWith userKeyPrefix key = true ∧
    jsonGetUint64 value (ascii "id") = some id

theorem storedId_iff (ht : Tree s h L) (id : UInt64) :
    StoredId s id ↔ ∃ p ∈ s.pairsOf L, startsWith userKeyPrefix p.key = true ∧
      jsonGetUint64 p.value (ascii "id") = some id := by
  constructor
  · rintro ⟨key, value, hfinds, huser, hid⟩
    rw [ht.finds_iff] at hfinds
    obtain ⟨p, hp, rfl, rfl⟩ := exists_of_lookup_eq_some hfinds
    exact ⟨p, hp, huser, hid⟩
  · rintro ⟨p, hp, huser, hid⟩
    exact ⟨p.key, p.value, (ht.finds_iff _ _).mpr (ht.sorted.lookup_eq_some hp), huser, hid⟩

/-- The callback never stops the scan and never lowers the maximum. -/
theorem seedUserIdScanCb_grows (key value : Bytes) (maxId : UInt64) :
    (seedUserIdScanCb key value maxId).1 = 0 ∧ maxId ≤ (seedUserIdScanCb key value maxId).2 := by
  rw [seedUserIdScanCb]
  split
  · exact ⟨rfl, UInt64.le_refl _⟩
  · split
    · split
      case isTrue hlt => exact ⟨rfl, UInt64.le_of_lt hlt⟩
      case isFalse => exact ⟨rfl, UInt64.le_refl _⟩
    · exact ⟨rfl, UInt64.le_refl _⟩

theorem le_seedUserIdScanCb {key : Bytes} (huser : startsWith userKeyPrefix key = true)
    (hid : jsonGetUint64 value (ascii "id") = some id) (maxId : UInt64) :
    id ≤ (seedUserIdScanCb key value maxId).2 := by
  obtain ⟨rest, rfl⟩ := startsWith_iff.mp huser
  have hmine : ¬ ((userKeyPrefix ++ rest).length < userKeyPrefix.length ∨
      (userKeyPrefix ++ rest).take userKeyPrefix.length ≠ userKeyPrefix) := by
    simp
  rw [seedUserIdScanCb, if_neg hmine, hid]
  dsimp only
  split
  · exact UInt64.le_refl _
  case isFalse hle => exact UInt64.not_lt.mp hle

theorem le_feed_seed (ps : List KvPair) : ∀ maxId, maxId ≤ feed seedUserIdScanCb maxId ps := by
  induction ps with
  | nil => exact fun maxId => UInt64.le_refl maxId
  | cons p ps ih =>
    intro maxId
    exact UInt64.le_trans (seedUserIdScanCb_grows p.key p.value maxId).2 (ih _)

theorem le_feed_of_mem {p : KvPair} (huser : startsWith userKeyPrefix p.key = true)
    (hid : jsonGetUint64 p.value (ascii "id") = some id) (ps : List KvPair) :
    ∀ maxId, p ∈ ps → id ≤ feed seedUserIdScanCb maxId ps := by
  induction ps with
  | nil => exact fun _ hp => absurd hp (by simp)
  | cons q ps ih =>
    intro maxId hp
    rcases List.mem_cons.mp hp with rfl | hp
    · exact UInt64.le_trans (le_seedUserIdScanCb huser hid maxId) (le_feed_seed ps _)
    · exact ih _ hp

/-- A startup that loads every page leaves the counter above every stored id,
unless it has wrapped around. -/
theorem always_userApiInit (ht : Tree s h L) (hthread : Threaded s L)
    {rounds : ℕ} (hrounds : maxPages ≤ rounds) {F : Faults}
    (hF : F.pages = false) (txnId : UInt64) :
    Always (pageStep F) (userApiInit rounds true true (some txnId)) s
      fun r s' => s' = s ∧ ∃ next, r = some (0, next) ∧
        (next ≠ 0 → ∀ id, StoredId s id → id < next) := by
  rw [userApiInit, if_neg (by decide)]
  have hgo : ∀ k v maxId, (seedUserIdScanCb k v maxId).1 = 0 :=
    fun k v maxId => (seedUserIdScanCb_grows k v maxId).1
  refine (ht.always_scanAll hthread (isSome_activeHandle txnId) hgo hrounds 0).bind ?_
  rintro r s' ⟨rfl, hpages | ⟨ps, hsub, rfl⟩⟩
  · exact absurd (hF.symm.trans hpages) Bool.false_ne_true
  · refine always_pure.mpr ⟨rfl, _, rfl, ?_⟩
    intro hnext id hstored
    obtain ⟨p, hp, huser, hid⟩ := (storedId_iff ht id).mp hstored
    have hle := le_feed_of_mem huser hid ps 0 (hsub hp)
    exact lt_add_one_of_le hnext hle

/-! ## Registrations -/

theorem jsonGetUint64_buildUserJson {user : UserRecord} (h : buildUserJson user = some value) :
    jsonGetUint64 value (ascii "id") = some user.id := by
  rw [buildUserJson] at h
  obtain ⟨-, hvalue⟩ := ite_none_right_eq_some.mp h
  have hopen : ascii "\x7b\"id\":" = 123 :: 34 :: (ascii "id" ++ [34, 58]) := rfl
  have hcomma : ascii ",\"username\":\"" = 44 :: ascii "\"username\":\"" := rfl
  rw [← some.inj hvalue, hopen, hcomma]
  simp only [List.append_assoc, List.cons_append, List.nil_append]
  have hid : some user.id = some (UInt64.ofNat user.id.toNat) := by rw [UInt64.ofNat_toNat]
  rw [hid]
  apply jsonGetUint64_of_find
  · rw [jsonFindField_cons (by decide), jsonFindField_key (by decide), if_pos rfl]
    exact congrArg some ((JsonValue.number user.id.toNat).skipWs_render _)
  · exact .inl rfl

/-- The store, the counter and the ids handed out since the start. -/
structure UserState where
  store : Store
  next : UInt64
  assigned : List UInt64

/-- A registration, under any faults, and its answer. -/
def RegisterStep (st : UserState) (reply : Response) (st' : UserState) : Prop :=
  ∃ F env request response, Outcome (pageStep F)
      (userRegisterHandler env request response st.next) st.store (reply, st'.next) st'.store ∧
    st'.assigned =
      if reply.status = .created then st.next :: st.assigned else st.assigned

/-- All ids in use are below the counter, as long as it has not wrapped. -/
structure IdsBelow (st : UserState) : Prop where
  tree : ∃ h L, Tree st.store h L
  stored : st.next ≠ 0 → ∀ id, StoredId st.store id → id < st.next
  assigned : st.next ≠ 0 → ∀ id ∈ st.assigned, id < st.next

theorem registerDraft_error {reply : Response}
    (h : registerDraft env request response = .error reply) : reply.status ≠ .created := by
  have hbad : HttpStatus.badRequest ≠ .created := by decide
  have hinternal : HttpStatus.internalServerError ≠ .created := by decide
  have hparse : ∀ reply, parseCredentials request response = .error reply →
      reply.status ≠ .created := by
    intro reply hreply
    rw [parseCredentials] at hreply
    split at hreply
    · cases hreply
      exact hbad
    · cases hreply
      exact hbad
    · split at hreply
      · cases hreply
        exact hbad
      · split at hreply
        · cases hreply
          exact hbad
        · cases hreply
  rw [registerDraft] at h
  split at h
  case h_1 reply' hreply =>
    cases h
    exact hparse _ hreply
  · split at h
    · cases h
      exact hbad
    · split at h
      · cases h
        exact hbad
      · split at h
        · cases h
          exact hinternal
        · cases h

/-- What a registration does: it leaves the counter, or takes an id and may
add one record, which carries that id. -/
theorem always_userRegisterHandler (ht : Tree s h L) {F : Faults}
    (env : RegisterEnv) (request : Request) (response : Response) (next : UInt64) :
    Always (pageStep F) (userRegisterHandler env request response next) s fun r s' =>
        (∃ h' L', Tree s' h' L') ∧ ((r.2 = next ∧ s' = s ∧ r.1.status ≠ .created) ∨
            (r.2 = next + 1 ∧ ∀ id, StoredId s' id → StoredId s id ∨ id = next)) := by
  have hsame : ∃ h' L', Tree s h' L' := ⟨h, L, ht⟩
  rw [userRegisterHandler]
  cases hdraft : registerDraft env request response with
  | error reply => exact always_pure.mpr ⟨hsame, .inl ⟨rfl, rfl, registerDraft_error hdraft⟩⟩
  | ok draft =>
    dsimp only
    cases hjson : buildUserJson { draft with id := next } with
    | none => exact always_pure.mpr ⟨hsame, .inr ⟨rfl, fun id hid => .inl hid⟩⟩
    | some value =>
      dsimp only
      split
      · exact always_pure.mpr ⟨hsame, .inr ⟨rfl, fun id hid => .inl hid⟩⟩
      · cases env.txn with
        | none => exact always_pure.mpr ⟨hsame, .inr ⟨rfl, fun id hid => .inl hid⟩⟩
        | some txnId =>
          refine (ht.always_dbInsert_pairs (isSome_activeHandle txnId)
              _ value).bind ?_
          rintro rc s' ⟨h', L', ht', hpairs⟩
          have hids : ∀ id, StoredId s' id → StoredId s id ∨ id = next := by
            intro id hid
            obtain ⟨p, hp, huser, hvalue⟩ := (storedId_iff ht' id).mp hid
            rcases hpairs p hp with hold | ⟨-, rfl⟩
            · exact .inl ((storedId_iff ht id).mpr ⟨p, hold, huser, hvalue⟩)
            · rw [jsonGetUint64_buildUserJson hjson] at hvalue
              exact .inr (some.inj hvalue).symm
          split <;> exact always_pure.mpr ⟨⟨h', L', ht'⟩, .inr ⟨rfl, hids⟩⟩

/-- Before the counter has wrapped. -/
def CalmRegisterStep (st st' : UserState) : Prop :=
  st.next ≠ 0 ∧ ∃ reply, RegisterStep st reply st'

/-- A registration keeps all ids in use below the counter. -/
theorem IdsBelow.step {st st' : UserState} (hbelow : IdsBelow st)
    (hstep : CalmRegisterStep st st') : IdsBelow st' := by
  obtain ⟨hnext, reply, F, env, request, response, hrun, hassigned⟩ := hstep
  obtain ⟨h, L, ht⟩ := hbelow.tree
  obtain ⟨htree, hcases⟩ := always_userRegisterHandler ht env request response st.next _ _ hrun
  rcases hcases with ⟨hsame, hstore, hrefused⟩ | ⟨hnext', hids⟩
  · dsimp only at hsame hrefused
    rw [if_neg hrefused] at hassigned
    refine ⟨htree, ?_, ?_⟩
    · rw [hsame, hstore]
      exact hbelow.stored
    · rw [hsame, hassigned]
      exact hbelow.assigned
  · dsimp only at hnext'
    have hle : ∀ id, id < st.next ∨ id = st.next → id ≤ st.next := by
      rintro id (hlt | rfl)
      · exact UInt64.le_of_lt hlt
      · exact UInt64.le_refl _
    refine ⟨htree, ?_, ?_⟩
    · rw [hnext']
      intro hwrap id hid
      refine lt_add_one_of_le hwrap (hle id ?_)
      rcases hids id hid with hold | rfl
      · exact .inl (hbelow.stored hnext id hold)
      · exact .inr rfl
    · rw [hnext']
      intro hwrap id hid
      refine lt_add_one_of_le hwrap (hle id ?_)
      rw [hassigned] at hid
      split at hid
      · rcases List.mem_cons.mp hid with rfl | hold
        · exact .inr rfl
        · exact .inl (hbelow.assigned hnext id hold)
      · exact .inl (hbelow.assigned hnext id hid)

theorem IdsBelow.run {st st' : UserState} (hbelow : IdsBelow st)
    (hrun : Relation.ReflTransGen CalmRegisterStep st st') : IdsBelow st' := by
  induction hrun with
  | refl => exact hbelow
  | tail _ hstep ih => exact ih.step hstep

/-! ## Registrations that go through -/

theorem length_buildUserJson {user : UserRecord}
    (h : buildUserJson user = some value) : value.length ≤ maxValueSize := by
  rw [buildUserJson] at h
  obtain ⟨hlt, hvalue⟩ := ite_none_right_eq_some.mp h
  rw [← some.inj hvalue]
  exact hlt.le

/-- With pages to spare, a name that is not taken is registered. -/
theorem exists_registerOutcome (ht : Tree s h L) (hids : 40 ≤ s.idsLeft)
    {draft : UserRecord} (next : UInt64) {txnId : UInt64}
    (hdraft : registerDraft env request response = .ok draft)
    (hjson : buildUserJson { draft with id := next } = some value)
    (hkey : (userKeyPrefix ++ draft.username).length < maxKeySize) (htxn : env.txn = some txnId)
    (hfree : lookup (s.pairsOf L) (userKeyPrefix ++ draft.username) = none) :
    ∃ s', Outcome (pageStep Faults.none) (userRegisterHandler env request response next) s
        (registerReply env request response { draft with id := next }, next + 1) s' ∧
      s.idsLeft ≤ s'.idsLeft + 40 ∧ ∃ h' L', Tree s' h' L' ∧
        lookup (s'.pairsOf L') = update (lookup (s.pairsOf L))
          (userKeyPrefix ++ draft.username) (some value) := by
  have hlegal : LegalSizes (userKeyPrefix ++ draft.username) value :=
    ⟨by simp [userKeyPrefix, ascii], hkey.le, length_buildUserJson hjson⟩
  obtain ⟨rc, s', hrun⟩ := exists_outcome (exists_pageStep Faults.none)
    (dbInsert (activeHandle txnId) (userKeyPrefix ++ draft.username) value) s
  have hend := ht.always_dbInsert hlegal (isSome_activeHandle txnId)
    (T := pageStep Faults.none) rc s' hrun
  rcases hend with ⟨rfl, -, hleft, -, h', L', X, Y, ht', -, -, -, hbefore, hafter⟩ |
    ⟨-, -, hfound⟩ | ⟨-, hstarved, -⟩
  · refine ⟨s', ?_, hleft, h', L', ht', ?_⟩
    · rw [userRegisterHandler, hdraft]
      simp only [hjson, htxn, if_neg (not_le.mpr hkey)]
      exact outcome_bind.mpr ⟨0, s', hrun, rfl, rfl⟩
    · rw [hafter, hbefore]
      apply lookup_insert
      rw [← hbefore]
      exact lookup_eq_none_iff.mp hfree
  · exact absurd hfree hfound
  · rcases hstarved with hpages | ⟨-, hfew | hfew⟩
    · exact absurd hpages (by decide)
    · exact absurd hfew (by decide)
    · exact absurd hids (not_le.mpr hfew)

theorem exists_registerStep (ht : Tree s h L) (hids : 40 ≤ s.idsLeft)
    {draft : UserRecord} (next : UInt64) {txnId : UInt64}
    (hdraft : registerDraft env request response = .ok draft)
    (hjson : buildUserJson { draft with id := next } = some value)
    (hkey : (userKeyPrefix ++ draft.username).length < maxKeySize) (htxn : env.txn = some txnId)
    (hfree : lookup (s.pairsOf L) (userKeyPrefix ++ draft.username) = none)
    (hcreated : (registerReply env request response
      { draft with id := next }).status = .created) (assigned : List UInt64) :
    ∃ s' reply, RegisterStep ⟨s, next, assigned⟩ reply
        ⟨s', next + 1, next :: assigned⟩ ∧ reply.status = .created ∧
      s.idsLeft ≤ s'.idsLeft + 40 ∧ ∃ h' L', Tree s' h' L' ∧
        lookup (s'.pairsOf L') = update (lookup (s.pairsOf L))
          (userKeyPrefix ++ draft.username) (some value) := by
  obtain ⟨s', hrun, hleft, htree⟩ :=
    exists_registerOutcome ht hids next hdraft hjson hkey htxn hfree
  exact ⟨s', _, ⟨Faults.none, env, request, response, hrun,
    (if_pos hcreated).symm⟩, hcreated, hleft, htree⟩

/-- A request to register `name`. -/
def registration (name : String) : Request :=
  { Request.zero with
    body := some (ascii "\x7b\"username\":\"" ++ ascii name ++
      ascii "\",\"password\":\"correct horse\"\x7d") }

def plainEnv : RegisterEnv where
  hashed := some ([1], [2])
  txn := some 1
  token := some (ascii "t")
  ttl := 3600

def emptyResponse : Response :=
  ⟨.ok, [], [], true, []⟩

/-- The record `registration` asks for. -/
def plainDraft (name : String) : UserRecord :=
  ⟨0, ascii name, [1], [2], 100000⟩

/-- The record of `name` with an id, as it is stored. -/
def plainJson (name : String) (id : UInt64) : Bytes :=
  (buildUserJson { plainDraft name with id := id }).getD []

/-- The handler gets through to `db_insert` and answers `201` after it. -/
structure Registrable (name : String) : Prop where
  draft : registerDraft plainEnv (registration name) emptyResponse = .ok (plainDraft name)
  json : buildUserJson { plainDraft name with id := 1 } = some (plainJson name 1)
  key : (userKeyPrefix ++ ascii name).length < maxKeySize
  created : (registerReply plainEnv (registration name) emptyResponse
    { plainDraft name with id := 1 }).status = .created

theorem registrable_bob : Registrable "bob" :=
  ⟨by decide +kernel, by decide +kernel, by decide +kernel, by decide +kernel⟩

theorem registrable_eve : Registrable "eve" :=
  ⟨by decide +kernel, by decide +kernel, by decide +kernel, by decide +kernel⟩

theorem Registrable.exists_step {name : String} (hname : Registrable name)
    (ht : Tree s h L) (hids : 40 ≤ s.idsLeft)
    (hfree : lookup (s.pairsOf L) (userKeyPrefix ++ ascii name) = none) :
    ∃ s' reply, RegisterStep ⟨s, 1, []⟩ reply ⟨s', 2, [1]⟩ ∧
      reply.status = .created ∧ s.idsLeft ≤ s'.idsLeft + 40 ∧
      ∃ h' L', Tree s' h' L' ∧ lookup (s'.pairsOf L') =
        update (lookup (s.pairsOf L)) (userKeyPrefix ++ ascii name) (some (plainJson name 1)) :=
  exists_registerStep ht hids 1 hname.draft hname.json hname.key rfl hfree hname.created []

theorem userApiInit_fresh {rounds : ℕ} (hrounds : maxPages ≤ rounds) :
    Outcome (pageStep Faults.none)
      (userApiInit rounds true true (some 1)) (Store.fresh 0 0) (some (0, 1))
      (Store.fresh 0 0) := by
  have hgo : ∀ k v maxId, (seedUserIdScanCb k v maxId).1 = 0 :=
    fun k v maxId => (seedUserIdScanCb_grows k v maxId).1
  obtain ⟨r, s', hrun⟩ := exists_outcome (exists_pageStep Faults.none)
    (dbScan rounds (activeHandle 1) seedUserIdScanCb 0) (Store.fresh 0 0)
  obtain ⟨rfl, hF | rfl⟩ := (tree_fresh 0 0).always_scanRange
    (linked_fresh 0 0) (isSome_activeHandle 1) (Nat.zero_le _) hgo hrounds 0 r s' hrun
  · exact absurd hF (by decide)
  · rw [pairsOf_fresh] at hrun
    rw [userApiInit, if_neg (by decide)]
    exact outcome_bind.mpr ⟨_, _, hrun, rfl, rfl⟩

/-- A startup that cannot load the root leaves the counter at `1`. -/
theorem userApiInit_unloadable (rounds : ℕ) (s : Store) : Outcome
    (pageStep ⟨true, false⟩) (userApiInit rounds true true (some 1)) s (some (0, 1)) s := by
  have hload : Outcome (pageStep ⟨true, false⟩) (getPage rootPageId .shared) s none s :=
    outcome_issue.mpr (.inl ⟨rfl, rfl, rfl⟩)
  have hscan : Outcome (pageStep ⟨true, false⟩)
      (dbScan rounds (activeHandle 1) seedUserIdScanCb 0) s (some (-1, 0)) s := by
    rw [dbScan, scanRange, descendToLeaf]
    refine outcome_bind.mpr ⟨some none, s, ?_, rfl, rfl⟩
    exact outcome_bind.mpr ⟨none, s, hload, rfl, rfl⟩
  rw [userApiInit, if_neg (by decide)]
  exact outcome_bind.mpr ⟨_, s, hscan, rfl, rfl⟩

/-! ## Distinct ids -/

/-- After a startup that could scan the whole store, and as long as the counter
has not wrapped, a registration that succeeds assigns an id that no stored
record has and that was not assigned before. -/
theorem user_ids_distinct_of_calm {s : Store} {h : ℕ}
    {L : List (UInt32 × WithTop Bytes)} (ht : Tree s h L)
    (hthread : Threaded s L) {rounds : ℕ} (hrounds : maxPages ≤ rounds)
    {F : Faults} (hF : F.pages = false) {txnId next : UInt64} {s₀ : Store}
    (hinit : Outcome (pageStep F)
      (userApiInit rounds true true (some txnId)) s (some (0, next)) s₀)
    {st : UserState}
    (hrun : Relation.ReflTransGen CalmRegisterStep ⟨s₀, next, []⟩ st)
    {reply : Response} {st' : UserState} (hstep : RegisterStep st reply st')
    (hnext : st.next ≠ 0) (hcreated : reply.status = .created) :
    st'.assigned = st.next :: st.assigned ∧ ¬ StoredId st.store st.next ∧
      st.next ∉ st.assigned := by
  obtain ⟨rfl, next', heq, hseed⟩ := always_userApiInit ht hthread hrounds hF txnId _ _ hinit
  obtain rfl : next = next' := (Prod.mk.inj (some.inj heq)).2
  have hstart : IdsBelow ⟨s₀, next, []⟩ := ⟨⟨h, L, ht⟩, hseed, fun _ id hid => absurd hid (by simp)⟩
  have hbelow := hstart.run hrun
  obtain ⟨-, -, -, -, -, hassigned⟩ := hstep
  rw [if_pos hcreated] at hassigned
  refine ⟨hassigned, ?_, ?_⟩
  · intro hstored
    exact UInt64.lt_irrefl _ (hbelow.stored hnext _ hstored)
  · intro hmem
    exact UInt64.lt_irrefl _ (hbelow.assigned hnext _ hmem)

theorem user_ids_distinct_of_calm_fresh : ∃ s' reply,
    RegisterStep ⟨Store.fresh 0 0, 1, []⟩ reply ⟨s', 2, [1]⟩ ∧
      ¬ StoredId (Store.fresh 0 0) 1 := by
  have ht := tree_fresh 0 0
  have hids : 40 ≤ (Store.fresh 0 0).idsLeft := by
    rw [Store.fresh_idsLeft]
    decide
  have hfree : lookup ((Store.fresh 0 0).pairsOf rootSlots)
      (userKeyPrefix ++ ascii "bob") = none := by
    rw [pairsOf_fresh]
    rfl
  obtain ⟨s', reply, hstep, hcreated, -⟩ := registrable_bob.exists_step ht hids hfree
  exact ⟨s', reply, hstep, (user_ids_distinct_of_calm ht
    (ht.threaded (linked_fresh 0 0)) le_rfl rfl (userApiInit_fresh le_rfl) .refl
    hstep (by decide) hcreated).2.1⟩

/-- The account `bob` is stored with id `1`.  After a restart that could not
load the root, `eve` is registered with id `1` as well. -/
theorem user_id_reused_after_failed_scan : ∃ s s' reply reply',
    RegisterStep ⟨Store.fresh 0 0, 1, []⟩ reply ⟨s, 2, [1]⟩ ∧
      StoredId s 1 ∧
      Outcome (pageStep ⟨true, false⟩)
        (userApiInit maxPages true true (some 1)) s (some (0, 1)) s ∧
      RegisterStep ⟨s, 1, []⟩ reply' ⟨s', 2, [1]⟩ ∧
      reply'.status = .created := by
  have ht := tree_fresh 0 0
  have hempty : lookup ((Store.fresh 0 0).pairsOf rootSlots) = fun _ => none := by
    rw [pairsOf_fresh]
    rfl
  have hfresh : 40 ≤ (Store.fresh 0 0).idsLeft := by
    rw [Store.fresh_idsLeft]
    decide
  obtain ⟨s, reply, hbob, -, hleft, h, L, htree, hmap⟩ :=
    registrable_bob.exists_step ht hfresh (by rw [hempty])
  rw [hempty] at hmap
  have hid : jsonGetUint64 (plainJson "bob" 1) (ascii "id") = some 1 := by decide +kernel
  have hstored : StoredId s 1 := by
    refine ⟨userKeyPrefix ++ ascii "bob", plainJson "bob" 1, ?_, by decide, hid⟩
    rw [htree.finds_iff, hmap, update_self]
  have hfree : lookup (s.pairsOf L) (userKeyPrefix ++ ascii "eve") = none := by
    rw [hmap, update_of_ne (by decide)]
  have hids : 40 ≤ s.idsLeft := by
    rw [Store.fresh_idsLeft] at hleft
    omega
  obtain ⟨s', reply', heve, hcreated, -⟩ := registrable_eve.exists_step htree hids hfree
  exact ⟨s, s', reply, reply', hbob, hstored, userApiInit_unloadable _ s, heve, hcreated⟩

end Codo.Server
