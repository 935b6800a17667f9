import Codo.Server.Route

/-!
# The middleware chain

`middleware.c`, `auth.c`, and the guard of `user_auth.c`.  A middleware gets the
rest of the pipeline as a function and decides whether to run it.  What logging
and metrics record is left out.

An `Exchange` is what the chain works on for one request.  It also notes the
calls of `jwt_verify` made for this request, and the handlers invoked with the
user id they found.
-/

namespace Codo.Server

open Support Common Bool List

inductive JwtResult
  | ok | invalid | expired
  deriving DecidableEq

/-- The identity fields of `connection_t`. -/
structure Identity where
  authUserId : UInt64
  authUsername : Bytes
  deriving DecidableEq

/-- A request on its way through the chain. -/
structure Exchange where
  identity : Identity
  response : Response
  verified : List (Bytes × JwtResult × UInt64)
  invoked : List (RouteHandler × UInt64)

/-- What the middlewares read apart from the request. -/
structure Policy where
  corsAllowOrigin : Bytes
  rateLimitEnabled : Bool
  /-- The result of `allow_request` and the wait it asks for. -/
  allowRequest : Bool × ℕ
  apiKeys : List Bytes
  /-- `jwt_verify` at the time of the request, with its two output fields. -/
  jwtVerify : Bytes → JwtResult × UInt64 × Bytes

/-- `middleware_fn_t`, given the rest of the pipeline. -/
abbrev Middleware :=
  Policy → Request → (Exchange → Exchange) → Exchange → Exchange

/-! ## The stages -/

def loggingMiddleware : Middleware := fun _ _ next x => next x

def metricsMiddleware : Middleware := fun _ _ next x => next x

/-- `cors_middleware`: a preflight request is answered here. -/
def corsMiddleware : Middleware := fun policy request next x =>
  let allow := if policy.corsAllowOrigin = [] then ascii "*"
    else policy.corsAllowOrigin
  let corsOrigin := match request.header (ascii "Origin") with
    | some _ => allow.take 255
    | none => x.response.corsOrigin
  if request.method = .options then
    { x with
      response := {
        status := .noContent
        headers := [ responseHeader (ascii "Access-Control-Allow-Methods")
            (ascii "GET, POST, PUT, DELETE, OPTIONS"),
          responseHeader (ascii "Access-Control-Allow-Headers")
            ((request.header (ascii "Access-Control-Request-Headers")).getD (ascii "Content-Type")),
          responseHeader (ascii "Access-Control-Max-Age") (ascii "86400")]
        body := []
        keepAlive := request.keepAlive
        corsOrigin := corsOrigin } }
  else next { x with response := { x.response with corsOrigin := corsOrigin } }

def send429 (response : Response) (request : Request) (retryAfter : ℕ) : Response :=
  { response with
    status := .tooManyRequests
    headers := [ responseHeader (ascii "Content-Type") (ascii "application/json"),
      responseHeader (ascii "Retry-After") ((decimal retryAfter).take 15)]
    body := ascii "\x7b\"error\":\"rate limit exceeded\"\x7d"
    keepAlive := request.keepAlive }

def rateLimitMiddleware : Middleware := fun policy request next x =>
  if policy.rateLimitEnabled = false then next x
  else if policy.allowRequest.1 = false then
    { x with response := send429 x.response request policy.allowRequest.2 }
  else next x

def methodIsProtected (method : HttpMethod) : Bool :=
  method == .post || method == .put || method == .delete || method == .patch

def pathUsesJwt (uri : Bytes) : Bool :=
  strneq uri (ascii "/api/todos") 10 || strneq uri (ascii "/api/auth/") 10

def secureEquals (a b : Bytes) : Bool :=
  (List.range (max a.length b.length)).foldl (fun diff i => diff ||| (a.getD i 0 ^^^ b.getD i 0))
    (UInt8.ofNat (a.length ^^^ b.length)) == 0

def keyIsValid (keys : List Bytes) (key : Bytes) : Bool :=
  keys.foldl (fun ok k => if secureEquals key k then true else ok) false

/-- What follows `Bearer` in the first `Authorization` header. -/
def bearer (request : Request) : Option Bytes :=
  match request.header (ascii "Authorization") with
  | some authz =>
    if strncaseeq authz (ascii "Bearer ") 7 then
      some ((authz.drop 7).dropWhile fun b => b == 32)
    else none
  | none => none

/-- Answer with an error instead of running the rest. -/
def Exchange.refuse (x : Exchange) (request : Request) (status : HttpStatus)
    (message : Bytes) : Exchange :=
  { x with response := x.response.sendErrorJson request status message }

/-- `auth_middleware`: the API key guard. -/
def authMiddleware : Middleware := fun policy request next x =>
  if policy.apiKeys.length = 0 ∨ methodIsProtected request.method = false ∨
      pathUsesJwt request.uri = true then next x
  else
    let presented := match request.header (ascii "X-API-Key") with
      | some key => some key
      | none => bearer request
    match presented with
    | none | some [] => x.refuse request .unauthorized (ascii "missing API key")
    | some key =>
      if keyIsValid policy.apiKeys key then next x
      else x.refuse request .forbidden (ascii "invalid API key")

def pathRequiresJwt (uri : Bytes) : Bool :=
  strneq uri (ascii "/api/todos") 10 || uri == ascii "/api/auth/me"

def jwtMiddleware : Middleware := fun policy request next x =>
  let x := { x with identity := ⟨0, []⟩ }
  if pathRequiresJwt request.uri = false then next x
  else
    match bearer request with
    | none | some [] => x.refuse request .unauthorized (ascii "missing bearer token")
    | some token =>
      let claims := policy.jwtVerify token
      let x := { x with
        verified := x.verified ++ [(token, claims.1, claims.2.1)] }
      if claims.1 = .expired then
        x.refuse request .unauthorized (ascii "token expired")
      else if claims.1 ≠ .ok ∨ claims.2.1 = 0 then
        x.refuse request .unauthorized (ascii "invalid token")
      else next { x with identity := ⟨claims.2.1, claims.2.2.take 63⟩ }

/-! ## API keys -/

theorem foldl_or_eq_zero_iff {ι : Type} (f : ι → UInt8) (l : List ι) (diff : UInt8) :
    l.foldl (fun diff i => diff ||| f i) diff = 0 ↔ diff = 0 ∧ ∀ i ∈ l, f i = 0 := by
  induction l generalizing diff with
  | nil => simp
  | cons i l ih =>
    rw [foldl_cons, ih, UInt8.or_eq_zero_iff, forall_mem_cons]
    exact and_assoc

/-- A string without zero bytes ends where its padding with them begins. -/
theorem getElem?_eq_of_getD {a b : Bytes} (ha : 0 ∉ a) (hb : 0 ∉ b) {i : ℕ}
    (h : a.getD i 0 = b.getD i 0) : a[i]? = b[i]? := by
  rw [getD_eq_getElem?_getD, getD_eq_getElem?_getD] at h
  cases hx : a[i]? with
  | none =>
    cases hy : b[i]? with
    | none => rfl
    | some y =>
      rw [hx, hy, Option.getD_none, Option.getD_some] at h
      exact absurd (mem_of_getElem? hy) (h ▸ hb)
  | some x =>
    cases hy : b[i]? with
    | none =>
      rw [hx, hy, Option.getD_none, Option.getD_some] at h
      exact absurd (mem_of_getElem? hx) (h ▸ ha)
    | some y =>
      rw [hx, hy] at h
      exact congrArg some h

theorem secureEquals_iff {a b : Bytes} (ha : 0 ∉ a) (hb : 0 ∉ b) :
    secureEquals a b = true ↔ a = b := by
  rw [secureEquals, beq_iff_eq, foldl_or_eq_zero_iff]
  constructor
  · rintro ⟨-, hsame⟩
    apply ext_getElem?
    intro i
    by_cases hi : i < max a.length b.length
    · exact getElem?_eq_of_getD ha hb (UInt8.xor_eq_zero_iff.mp (hsame i (mem_range.mpr hi)))
    · rw [getElem?_eq_none (by omega), getElem?_eq_none (by omega)]
  · rintro rfl
    exact ⟨by rw [Nat.xor_self]; rfl, fun i _ => UInt8.xor_self⟩

/-- The comparison folds the difference of the lengths into one byte, and is
exact all the same: past the end of the shorter string the longer one differs
from zero. -/
theorem keyIsValid_exact {a b : Bytes} {keys : List Bytes} (ha : 0 ∉ a)
    (hb : 0 ∉ b) (hkeys : ∀ key ∈ keys, 0 ∉ key) :
    (secureEquals a b = true ↔ a = b) ∧
      (keyIsValid keys a = true ↔ a ∈ keys) := by
  refine ⟨secureEquals_iff ha hb, ?_⟩
  have hfold : ∀ ok, keys.foldl (fun ok k => if secureEquals a k then true else ok) ok = true ↔
        ok = true ∨ a ∈ keys := by
    induction keys with
    | nil => simp
    | cons key keys ih =>
      rw [forall_mem_cons] at hkeys
      intro ok
      rw [foldl_cons, ih hkeys.2, mem_cons]
      refine Iff.trans (or_congr_left ?_) or_assoc
      rw [← secureEquals_iff ha hkeys.1]
      split
      case isTrue heq => simp [heq]
      case isFalse hne => simp [hne]
  rw [keyIsValid, hfold]
  simp

theorem keyIsValid_exact_longer :
    secureEquals [7] [7, 7] = false ∧ keyIsValid [[7, 7], [7]] [7] = true := by
  obtain ⟨hequal, hvalid⟩ := @keyIsValid_exact [7] [7, 7] [[7, 7], [7]]
    (by decide) (by decide) (by decide)
  exact ⟨eq_false_iff.mpr (hequal.not.mpr (by decide)), hvalid.mpr (by decide)⟩

/-! ## The chain -/

/-- `MAX_MIDDLEWARES`. -/
def maxMiddlewares : ℕ := 16

def addMiddleware (chain : List Middleware) (fn : Middleware) : List Middleware :=
  if maxMiddlewares ≤ chain.length then chain else chain ++ [fn]

def registerDefaultMiddleware (chain : List Middleware) : List Middleware :=
  let chain := addMiddleware chain loggingMiddleware
  let chain := addMiddleware chain metricsMiddleware
  let chain := addMiddleware chain corsMiddleware
  let chain := addMiddleware chain rateLimitMiddleware
  let chain := addMiddleware chain authMiddleware
  addMiddleware chain jwtMiddleware

/-- Run a handler: it sees the identity the chain has left. -/
def invoke (handler : RouteHandler) (x : Exchange) : Exchange :=
  { x with invoked := x.invoked ++ [(handler, x.identity.authUserId)] }

/-- `middleware_next`, at the stages that are left. -/
def middlewareNext (policy : Policy) (request : Request)
    (handler : RouteHandler) : List Middleware → Exchange → Exchange
  | [], x => invoke handler x
  | fn :: rest, x => fn policy request (middlewareNext policy request handler rest) x

/-- A request with nothing done for it yet.  The connection still holds the
identity and the response of the request before. -/
def Exchange.start (identity : Identity) (response : Response) : Exchange :=
  ⟨identity, response, [], []⟩

/-- A request to the server `main` sets up. -/
def serve (policy : Policy) (identity : Identity) (response : Response)
    (request : Request) : Exchange :=
  middlewareNext policy request (resolveHandler (apiMount []) request)
    (registerDefaultMiddleware []) (Exchange.start identity response)

/-! ## What a stage can do -/

/-- Two exchanges in which the same handlers and checks have run. -/
def SameRecord (x y : Exchange) : Prop :=
  y.verified = x.verified ∧ y.invoked = x.invoked

/-- A stage that answers itself or runs the rest, and records nothing. -/
def Passes (fn : Middleware) : Prop :=
  ∀ policy request next x, (fn policy request next x).invoked = x.invoked ∨
    ∃ y, SameRecord x y ∧ fn policy request next x = next y

theorem passes_logging : Passes loggingMiddleware :=
  fun _ _ _ x => .inr ⟨x, ⟨rfl, rfl⟩, rfl⟩

theorem passes_metrics : Passes metricsMiddleware :=
  fun _ _ _ x => .inr ⟨x, ⟨rfl, rfl⟩, rfl⟩

theorem passes_cors : Passes corsMiddleware := by
  intro policy request next x
  simp only [corsMiddleware]
  split
  next => exact .inl rfl
  next =>
    refine .inr ⟨_, ?_, rfl⟩
    exact ⟨rfl, rfl⟩

theorem passes_rateLimit : Passes rateLimitMiddleware := by
  intro policy request next x
  simp only [rateLimitMiddleware]
  split
  next => exact .inr ⟨x, ⟨rfl, rfl⟩, rfl⟩
  next =>
    split
    next => exact .inl rfl
    next => exact .inr ⟨x, ⟨rfl, rfl⟩, rfl⟩

theorem passes_auth : Passes authMiddleware := by
  intro policy request next x
  simp only [authMiddleware]
  split
  next => exact .inr ⟨x, ⟨rfl, rfl⟩, rfl⟩
  next =>
    split
    next => exact .inl rfl
    next => exact .inl rfl
    next =>
      split
      next => exact .inr ⟨x, ⟨rfl, rfl⟩, rfl⟩
      next => exact .inl rfl

/-- Behind the guard, a path that requires a token has had it verified. -/
theorem jwtMiddleware_cases (policy : Policy) (request : Request)
    (next : Exchange → Exchange) (x : Exchange) (hpath : pathRequiresJwt request.uri = true) :
    (jwtMiddleware policy request next x).invoked = x.invoked ∨
      ∃ token y, bearer request = some token ∧ (policy.jwtVerify token).1 = .ok ∧
        (policy.jwtVerify token).2.1 = y.identity.authUserId ∧ y.identity.authUserId ≠ 0 ∧
        y.verified = x.verified ++ [(token, .ok, y.identity.authUserId)] ∧ y.invoked = x.invoked ∧
        jwtMiddleware policy request next x = next y := by
  simp only [jwtMiddleware, hpath, true_eq_false, if_false]
  split
  next => exact .inl rfl
  next => exact .inl rfl
  next token _ hbearer =>
    split
    next => exact .inl rfl
    next =>
      split
      next => exact .inl rfl
      next hclaims =>
        push Not at hclaims
        refine .inr ⟨token, _, hbearer, hclaims.1, ?_, ?_, ?_, ?_, rfl⟩
        · rfl
        · exact hclaims.2
        · rw [hclaims.1]
        · rfl

theorem middlewareNext_of_passes {policy : Policy} {request : Request}
    {handler : RouteHandler} {outer inner : List Middleware}
    (houter : ∀ fn ∈ outer, Passes fn) (x : Exchange) :
    (middlewareNext policy request handler (outer ++ inner) x).invoked = x.invoked ∨
      ∃ y, SameRecord x y ∧ middlewareNext policy request handler (outer ++ inner) x =
          middlewareNext policy request handler inner y := by
  induction outer generalizing x with
  | nil => exact .inr ⟨x, ⟨rfl, rfl⟩, rfl⟩
  | cons fn outer ih =>
    have hrest := fun g hg => houter g (mem_cons_of_mem _ hg)
    rw [cons_append, middlewareNext]
    rcases houter fn mem_cons_self policy request
      (middlewareNext policy request handler (outer ++ inner)) x with
      hstop | ⟨y, hsame, hnext⟩
    · exact .inl hstop
    · rw [hnext]
      rcases ih hrest y with hstop | ⟨z, hsame', hskip⟩
      · exact .inl (hstop.trans hsame.2)
      · exact .inr ⟨z, ⟨hsame'.1.trans hsame.1, hsame'.2.trans hsame.2⟩, hskip⟩

/-- Every path to a handler of per-user data requires a token. -/
theorem pathRequiresJwt_of_perUser {request : Request}
    (huser : (resolveHandler (apiMount []) request).PerUser) :
    pathRequiresJwt request.uri = true := by
  rw [resolveHandler] at huser
  split at huser
  next route hfind =>
    obtain ⟨hmem, htest⟩ := findRoute_cases hfind
    have hpattern := pattern_of_perUser hmem huser
    have hstart : ascii "/api/todos" <+: request.uri ∨ request.uri = ascii "/api/auth/me" := by
      rcases htest with hexact | hcovers
      · have huri := Route.isExact_uri hexact
        rw [← huri]
        rcases hpattern with h | h | h
        · exact .inl (by rw [h])
        · exact .inl (by rw [h]; decide)
        · exact .inr h
      · have huri := Route.covers_uri hcovers
        have hwild : route.wildcard = true := by
          rw [Route.covers, and_eq_true, and_eq_true] at hcovers
          exact hcovers.1.2
        rcases hpattern with h | h | h
        · rw [Route.wildcard, h] at hwild
          exact absurd hwild (by decide)
        · rw [h] at huri
          exact .inl (List.IsPrefix.trans (by decide) huri)
        · rw [Route.wildcard, h] at hwild
          exact absurd hwild (by decide)
    rw [pathRequiresJwt, or_eq_true, beq_iff_eq,
      strneq_iff (by decide : (ascii "/api/todos").length = 10)]
    exact hstart
  next => exact absurd huser (by decide)

/-- Only the resolved handler is invoked, and on a path that requires a token
only behind a successful check. -/
theorem serve_cases (policy : Policy) (identity : Identity)
    (response : Response) (request : Request) :
    (serve policy identity response request).invoked = [] ∨ (pathRequiresJwt request.uri = false ∧
        (serve policy identity response request).invoked =
          [(resolveHandler (apiMount []) request, 0)]) ∨ ∃ token uid, bearer request = some token ∧
        (policy.jwtVerify token).1 = .ok ∧ (policy.jwtVerify token).2.1 = uid ∧ uid ≠ 0 ∧
        (serve policy identity response request).verified = [(token, .ok, uid)] ∧
        (serve policy identity response request).invoked =
          [(resolveHandler (apiMount []) request, uid)] := by
  have hchain : registerDefaultMiddleware [] = [loggingMiddleware,
      metricsMiddleware, corsMiddleware, rateLimitMiddleware,
      authMiddleware] ++ [jwtMiddleware] := rfl
  have houter : ∀ fn ∈ [loggingMiddleware, metricsMiddleware, corsMiddleware,
      rateLimitMiddleware, authMiddleware], Passes fn := by
    simp only [forall_mem_cons]
    exact ⟨passes_logging, passes_metrics, passes_cors, passes_rateLimit, passes_auth, nofun⟩
  rw [serve, hchain]
  rcases middlewareNext_of_passes houter (Exchange.start identity response) with
    hstop | ⟨y, ⟨hverified, hinvoked⟩, hskip⟩
  · exact .inl hstop
  · rw [hskip, middlewareNext]
    by_cases hpath : pathRequiresJwt request.uri = true
    · rcases jwtMiddleware_cases policy request _ y hpath with
        hstop | ⟨token, z, hbearer, hok, huid, hne, hchecked, hrun, hnext⟩
      · exact .inl (hstop.trans hinvoked)
      · refine .inr (.inr ⟨token, z.identity.authUserId, hbearer, hok, huid, hne, ?_, ?_⟩)
        · rw [hnext, middlewareNext, invoke, hchecked, hverified]
          rfl
        · rw [hnext, middlewareNext, invoke, hrun, hinvoked]
          rfl
    · rw [not_eq_true] at hpath
      refine .inr (.inl ⟨hpath, ?_⟩)
      simp [jwtMiddleware, hpath, middlewareNext, invoke, hinvoked, Exchange.start]

/-- No handler of per-user data runs unauthenticated.  On a connection with any
history, if one is invoked, then the first `Authorization` header carried a
bearer token that `jwt_verify` accepted for this request, and the user id the
handler sees is the one of that token, and is not zero. -/
theorem per_user_handler_authenticated (policy : Policy) (identity : Identity)
    (response : Response) (request : Request) {handler : RouteHandler}
    {uid : UInt64} (huser : handler.PerUser)
    (hinvoked : (handler, uid) ∈
      (serve policy identity response request).invoked) :
    ∃ route token, findRoute (apiMount []) request.uri request.method =
        some route ∧ route.handler = handler ∧
      bearer request = some token ∧
      (serve policy identity response request).verified =
        [(token, .ok, uid)] ∧
      (policy.jwtVerify token).1 = .ok ∧
      (policy.jwtVerify token).2.1 = uid ∧ uid ≠ 0 := by
  rcases serve_cases policy identity response request with
    hnone | ⟨hpath, hopen⟩ | ⟨token, uid', hbearer, hok, huid, hne, hverified, hrun⟩
  · rw [hnone] at hinvoked
    exact absurd hinvoked not_mem_nil
  · rw [hopen, mem_singleton] at hinvoked
    obtain ⟨rfl, rfl⟩ := Prod.mk.inj hinvoked
    rw [pathRequiresJwt_of_perUser huser] at hpath
    exact absurd hpath (by decide)
  · rw [hrun, mem_singleton] at hinvoked
    obtain ⟨hhandler, rfl⟩ := Prod.mk.inj hinvoked
    have hroute : ∃ route, findRoute (apiMount []) request.uri request.method =
        some route ∧ route.handler = handler := by
      rw [resolveHandler] at hhandler
      split at hhandler
      next route hfind => exact ⟨route, hfind, hhandler.symm⟩
      next =>
        rw [hhandler] at huser
        exact absurd huser (by decide)
    obtain ⟨route, hfind, hsame⟩ := hroute
    exact ⟨route, token, hfind, hsame, hbearer, hverified, hok, huid, hne⟩

/-- A policy without rate limit or API keys, under which the one valid token
belongs to user 7. -/
def oneTokenPolicy : Policy where
  corsAllowOrigin := []
  rateLimitEnabled := false
  allowRequest := (true, 1)
  apiKeys := []
  jwtVerify := fun token => if token = ascii "t" then (.ok, 7, ascii "ann") else (.invalid, 0, [])

def listRequest : Request :=
  { Request.zero with
    uri := ascii "/api/todos"
    headers := [(ascii "authorization", ascii "bearer  t")] }

theorem per_user_handler_authenticated_list :
    (RouteHandler.todoList, 7) ∈ (serve oneTokenPolicy ⟨3, ascii "bob"⟩
      ⟨.ok, [], [], true, []⟩ listRequest).invoked ∧
    ∃ route token, findRoute (apiMount []) listRequest.uri .get = some route ∧
      route.handler = .todoList ∧ bearer listRequest = some token ∧
      (serve oneTokenPolicy ⟨3, ascii "bob"⟩ ⟨.ok, [], [], true, []⟩
        listRequest).verified = [(token, .ok, 7)] ∧
      (oneTokenPolicy.jwtVerify token).1 = .ok ∧
      (oneTokenPolicy.jwtVerify token).2.1 = 7 ∧ (7 : UInt64) ≠ 0 := by
  have hinvoked : (RouteHandler.todoList, 7) ∈ (serve oneTokenPolicy
      ⟨3, ascii "bob"⟩ ⟨.ok, [], [], true, []⟩ listRequest).invoked := by
    decide
  exact ⟨hinvoked, per_user_handler_authenticated oneTokenPolicy
    ⟨3, ascii "bob"⟩ ⟨.ok, [], [], true, []⟩ listRequest (by decide) hinvoked⟩

end Codo.Server
