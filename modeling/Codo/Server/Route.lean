import Codo.Common.HttpTypes

/-!
# Routes

`route.c` and the routes `api_mount` registers.  Handlers are named, not run:
what matters here is which one a request reaches.
-/

namespace Codo.Server

open Support Common List

/-- The handlers that are registered, and `default_file_handler`. -/
inductive RouteHandler
  | apiHello | apiEcho | apiStatus | apiStats | websocketChat | apiMetrics
  | apiHealthz | apiReadyz | todoList | todoCreate | todoGet | todoUpdate
  | todoDelete | todoCacheStats | userRegister | userLogin | userMe
  | defaultFile
  deriving DecidableEq

def RouteHandler.PerUser (handler : RouteHandler) : Prop :=
  handler ∈ [.todoList, .todoCreate, .todoGet, .todoUpdate, .todoDelete, .userMe]

instance (handler : RouteHandler) : Decidable handler.PerUser :=
  inferInstanceAs (Decidable (_ ∈ _))

structure Route where
  pattern : Bytes
  method : HttpMethod
  handler : RouteHandler
  offload : Bool
  deriving DecidableEq

/-- `add_route`: the new route goes to the front. -/
def addRoute (routes : List Route) (pattern : Bytes) (method : HttpMethod)
    (handler : RouteHandler) : List Route :=
  ⟨pattern.take 511, method, handler, false⟩ :: routes

def addRouteOffloaded (routes : List Route) (pattern : Bytes)
    (method : HttpMethod) (handler : RouteHandler) : List Route :=
  match addRoute routes pattern method handler with
  | route :: rest => { route with offload := true } :: rest
  | [] => []

/-- The pattern ends in `*`. -/
def Route.wildcard (route : Route) : Bool :=
  route.pattern.getLast? == some 42

/-- The test of the first pass. -/
def Route.isExact (route : Route) (uri : Bytes) (method : HttpMethod) : Bool :=
  route.method == method && !route.wildcard && route.pattern == uri

/-- The test of the second pass. -/
def Route.covers (route : Route) (uri : Bytes) (method : HttpMethod) : Bool :=
  route.method == method && route.wildcard && strneq route.pattern uri (route.pattern.length - 1)

/-- `find_route`: exact patterns first, then patterns that end in `*`. -/
def findRoute (routes : List Route) (uri : Bytes) (method : HttpMethod) : Option Route :=
  match routes.find? fun r => r.isExact uri method with
  | some route => some route
  | none => routes.find? fun r => r.covers uri method

def todoApiRegisterRoutes (routes : List Route) : List Route :=
  let routes := addRouteOffloaded routes (ascii "/api/todos") .get .todoList
  let routes := addRouteOffloaded routes (ascii "/api/todos") .post .todoCreate
  let routes := addRouteOffloaded routes (ascii "/api/todos/*") .get .todoGet
  let routes := addRouteOffloaded routes (ascii "/api/todos/*") .put .todoUpdate
  let routes := addRouteOffloaded routes (ascii "/api/todos/*") .delete .todoDelete
  addRoute routes (ascii "/api/cache") .get .todoCacheStats

def userApiRegisterRoutes (routes : List Route) : List Route :=
  let routes := addRouteOffloaded routes (ascii "/api/auth/register") .post .userRegister
  let routes := addRouteOffloaded routes (ascii "/api/auth/login") .post .userLogin
  addRoute routes (ascii "/api/auth/me") .get .userMe

def apiMount (routes : List Route) : List Route :=
  let routes := addRoute routes (ascii "/api/hello") .get .apiHello
  let routes := addRoute routes (ascii "/api/echo") .post .apiEcho
  let routes := addRoute routes (ascii "/api/status") .get .apiStatus
  let routes := addRoute routes (ascii "/api/stats") .get .apiStats
  let routes := addRoute routes (ascii "/ws/chat") .get .websocketChat
  let routes := addRoute routes (ascii "/metrics") .get .apiMetrics
  let routes := addRoute routes (ascii "/healthz") .get .apiHealthz
  let routes := addRouteOffloaded routes (ascii "/readyz") .get .apiReadyz
  userApiRegisterRoutes (todoApiRegisterRoutes routes)

/-- `resolve_handler`, with `default_file_handler` as the default. -/
def resolveHandler (routes : List Route) (request : Request) : RouteHandler :=
  match findRoute routes request.uri request.method with
  | some route => route.handler
  | none => .defaultFile

section FindRoute

variable {routes : List Route} {uri : Bytes} {method : HttpMethod} {route : Route}

/-- A route that is found is registered and one of the two tests holds. -/
theorem findRoute_cases (h : findRoute routes uri method = some route) :
    route ∈ routes ∧ (route.isExact uri method = true ∨ route.covers uri method = true) := by
  rw [findRoute] at h
  split at h
  next found hfound =>
    obtain rfl := Option.some.inj h
    have htest := List.find?_some hfound
    exact ⟨mem_of_find?_eq_some hfound, .inl htest⟩
  next =>
    have htest := List.find?_some h
    exact ⟨mem_of_find?_eq_some h, .inr htest⟩

theorem Route.isExact_uri (h : route.isExact uri method = true) : route.pattern = uri := by
  rw [Route.isExact, Bool.and_eq_true, beq_iff_eq] at h
  exact h.2

/-- A wildcard covers what starts like its pattern up to the `*`. -/
theorem Route.covers_uri (h : route.covers uri method = true) : route.pattern.dropLast <+: uri := by
  rw [Route.covers, Bool.and_eq_true] at h
  have heq := beq_iff_eq.mp h.2
  rw [dropLast_eq_take, heq]
  exact List.take_prefix _ _

theorem pattern_of_perUser (hmem : route ∈ apiMount []) (huser : route.handler.PerUser) :
    route.pattern = ascii "/api/todos" ∨ route.pattern = ascii "/api/todos/*" ∨
      route.pattern = ascii "/api/auth/me" := by
  revert route
  decide

end FindRoute

end Codo.Server
