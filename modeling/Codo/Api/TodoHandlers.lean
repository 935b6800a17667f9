import Codo.Api.Reconcile
import Codo.Api.TodoFilter

/-!
# The todo handlers

`todo_handlers.c`, as programs over the calls on what the handlers share.  The
user is the one the authentication middleware has published for the connection.
Memory for the list being built is always there; a listing still answers `Out of
memory` when the scan behind it fails.
-/

namespace Codo.Api

open Support Common Storage

/-! ## Requests -/

def todoItemPrefix : Bytes := ascii "/api/todos/"

/-- The loop of `extract_id` with `outLen` digits copied. -/
def extractDigits : Bytes → ℕ → Option Bytes
  | [], _ => some []
  | c :: id, outLen =>
    if c = 47 ∨ c = 63 then some []
    else if c < 48 ∨ 57 < c then none
    else if todoKeyMax ≤ outLen + 1 then none
    else (extractDigits id (outLen + 1)).map (c :: ·)

/-- `extract_id`: the row key and its id. -/
def extractId (uri : Bytes) : Option (Bytes × UInt64) :=
  if strneq uri todoItemPrefix todoItemPrefix.length = false then none
  else
    match extractDigits (uri.drop todoItemPrefix.length) 0 with
    | none => none
    | some key => if key = [] then none else (todoRowKeyParse key).map (key, ·)

/-- The title and the flag of a body, or the answer to a body without them. -/
def parseTodo (request : Request) (response : Response) : Except Response (Bytes × Bool) :=
  match request.body with
  | none | some [] => .error (response.sendErrorResponse .badRequest
      (ascii "Request body required"))
  | some body =>
    match jsonGetString body (ascii "title") maxValueSize with
    | none => .error (response.sendErrorResponse .badRequest (ascii "Missing or invalid 'title'"))
    | some title => .ok (cString title, (jsonGetBool body (ascii "completed")).getD false)

/-- `build_todo_json` into a buffer of `MAX_VALUE_SIZE` bytes. -/
def buildTodoJson (id userId : UInt64) (title : Bytes) (completed : Bool) : Option Bytes :=
  match jsonEscape maxValueSize title with
  | none => none
  | some escaped =>
    let json := ascii "\x7b\"id\":" ++ decimal id.toNat ++
      ascii ",\"user_id\":" ++ decimal userId.toNat ++
      ascii ",\"title\":\"" ++ escaped ++ ascii "\",\"completed\":" ++
      (if completed then ascii "true" else ascii "false") ++ ascii "\x7d"
    if json.length < maxValueSize then some json else none

/-- The answer with a todo, which only its owner gets to see. -/
def showTodo (userId : UInt64) (request : Request) (response : Response)
    (value : Bytes) : Response :=
  if todoOwnedBy value userId = false then
    response.sendErrorResponse .notFound (ascii "Todo not found")
  else response.sendJsonResponse request .ok value

/-! ## One todo -/

/-- If the index entry of a new row could not be written, the row is taken
back. -/
def keepRow (key : Bytes) (entered : ℤ) : TodoM ℤ :=
  if entered ≠ 0 then do
    let _ ← dbDelete key
    pure (-1)
  else pure 0

def createEntry (rc : ℤ) (key : Bytes) (userId id : UInt64) : TodoM ℤ :=
  if rc ≠ 0 then pure rc
  else do
    let available ← todoIndexAvailable
    if available = false then pure 0
    else do
      let entered ← todoIndexInsert userId id
      keepRow key entered

/-- `todo_create_handler` from the transaction on. -/
def storeTodo (request : Request) (response : Response) (userId id : UInt64)
    (value : Bytes) : TodoM Response := do
  let txn ← beginTransaction
  if txn = false then
    pure (response.sendErrorResponse .internalServerError (ascii "Transaction failed"))
  else do
    let inserted ← dbInsert (todoRowKey id) value
    let rc ← createEntry inserted (todoRowKey id) userId id
    commitTransaction
    if rc ≠ 0 then
      pure (response.sendErrorResponse .internalServerError (ascii "Insert failed"))
    else do
      lruPut (todoRowKey id) value
      pure (response.sendJsonResponse request .created value)

/-- `todo_create_handler` with its id. -/
def createTodo (userId : UInt64) (request : Request) (response : Response)
    (title : Bytes) (completed : Bool) (id : UInt64) : TodoM Response :=
  match buildTodoJson id userId title completed with
  | none => pure (response.sendErrorResponse .payloadTooLarge (ascii "Todo too large"))
  | some value => storeTodo request response userId id value

def todoCreateHandler (userId : UInt64) (request : Request)
    (response : Response) : TodoM Response :=
  match parseTodo request response with
  | .error reply => pure reply
  | .ok (title, completed) => do
    let id ← fetchTodoId
    createTodo userId request response title completed id

/-- `todo_get_handler` with what storage holds: the cache is filled whoever
asked. -/
def fillTodo (userId : UInt64) (request : Request) (response : Response)
    (key : Bytes) (generation : UInt64) : Option Bytes → TodoM Response
  | none => pure (response.sendErrorResponse .notFound (ascii "Todo not found"))
  | some value => do
    lruFill key value generation
    pure (showTodo userId request response value)

/-- `todo_get_handler` after a miss in the cache. -/
def readTodo (userId : UInt64) (request : Request) (response : Response)
    (key : Bytes) : TodoM Response := do
  -- The generation is taken before storage is read, so that a write in between
  -- makes the cache drop the fill.
  let generation ← lruGeneration
  let txn ← beginTransaction
  if txn = false then
    pure (response.sendErrorResponse .internalServerError (ascii "Transaction failed"))
  else do
    let found ← dbSearch key
    commitTransaction
    fillTodo userId request response key generation found

/-- `todo_get_handler` with what the cache holds. -/
def getTodo (userId : UInt64) (request : Request) (response : Response)
    (key : Bytes) : Option Bytes → TodoM Response
  | some value => pure (showTodo userId request response value)
  | none => readTodo userId request response key

def todoGetHandler (userId : UInt64) (request : Request) (response : Response) : TodoM Response :=
  match extractId request.uri with
  | none => pure (response.sendErrorResponse .badRequest (ascii "Invalid todo id"))
  | some (key, _) => do
    let hit ← lruGet key
    getTodo userId request response key hit

/-- Update and delete with what storage holds: go on with a row of the user. -/
def ownedRow (userId : UInt64) (response : Response)
    (act : Bytes → TodoM Response) : Option Bytes → TodoM Response
  | none => do
    commitTransaction
    unlockWrites
    pure (response.sendErrorResponse .notFound (ascii "Todo not found"))
  | some existing =>
    if todoOwnedBy existing userId = false then do
      commitTransaction
      unlockWrites
      pure (response.sendErrorResponse .notFound (ascii "Todo not found"))
    else act existing

/-- Update and delete: under the write lock, read the row. -/
def withOwnedRow (userId : UInt64) (response : Response) (key : Bytes)
    (act : Bytes → TodoM Response) : TodoM Response := do
  lockWrites
  let txn ← beginTransaction
  if txn = false then do
    unlockWrites
    pure (response.sendErrorResponse .internalServerError (ascii "Transaction failed"))
  else do
    let found ← dbSearch key
    ownedRow userId response act found

/-- After the insert of the replacement: on failure insert what was there, and
if that fails too drop it from the cache. -/
def restoreRow (key existing : Bytes) (inserted : ℤ) : TodoM ℤ :=
  if inserted ≠ 0 then do
    let restored ← dbInsert key existing
    if restored ≠ 0 then do
      lruInvalidate key
      pure inserted
    else pure inserted
  else pure inserted

/-- The replacement of a row: the engine has no update, so delete and insert. -/
def replaceRow (key value existing : Bytes) : TodoM ℤ := do
  let deleted ← dbDelete key
  if deleted ≠ 0 then pure deleted
  else do
    let inserted ← dbInsert key value
    restoreRow key existing inserted

/-- `todo_update_handler` on a row of the user. -/
def updateRow (request : Request) (response : Response) (key value : Bytes)
    (existing : Bytes) : TodoM Response := do
  let rc ← replaceRow key value existing
  if rc ≠ 0 then do
    abortTransaction
    unlockWrites
    pure (response.sendErrorResponse .internalServerError (ascii "Update failed"))
  else do
    commitTransaction
    lruPut key value
    unlockWrites
    pure (response.sendJsonResponse request .ok value)

def todoUpdateHandler (userId : UInt64) (request : Request)
    (response : Response) : TodoM Response :=
  match extractId request.uri with
  | none => pure (response.sendErrorResponse .badRequest (ascii "Invalid todo id"))
  | some (key, id) =>
    match parseTodo request response with
    | .error reply => pure reply
    | .ok (title, completed) =>
      match buildTodoJson id userId title completed with
      | none => pure (response.sendErrorResponse .payloadTooLarge (ascii "Todo too large"))
      | some value => withOwnedRow userId response key (updateRow request response key value)

/-- The index entry of a row about to be deleted.  The result is not looked
at. -/
def dropEntry (userId id : UInt64) : TodoM Unit := do
  let available ← todoIndexAvailable
  if available = true then do
    let _ ← todoIndexDelete userId id
    pure ()
  else pure ()

/-- `todo_delete_handler` on a row of the user.  The result of deleting the row
is not looked at either. -/
def deleteRow (userId id : UInt64) (request : Request) (response : Response)
    (key : Bytes) : TodoM Response := do
  dropEntry userId id
  let _ ← dbDelete key
  commitTransaction
  lruInvalidate key
  unlockWrites
  pure (response.sendJsonResponse request .noContent [])

def todoDeleteHandler (userId : UInt64) (request : Request)
    (response : Response) : TodoM Response :=
  match extractId request.uri with
  | none => pure (response.sendErrorResponse .badRequest (ascii "Invalid todo id"))
  | some (key, id) =>
    withOwnedRow userId response key fun _ => deleteRow userId id request response key

/-! ## The collection -/

/-- `list_ctx_t`: the array being built, its number of rows, and the number of
rows that match the filter. -/
structure ListCtx where
  buf : Bytes
  count : ℕ
  matched : ℕ
  deriving DecidableEq

def ListCtx.start : ListCtx :=
  ⟨ascii "[", 0, 0⟩

def listEmit (list : ListCtx) (value : Bytes) : ListCtx :=
  { list with
    buf := list.buf ++ (if 0 < list.count then ascii "," else []) ++ value
    count := list.count + 1 }

def listConsiderRow (f : TodoFilter) (list : ListCtx) (value : Bytes) : ListCtx :=
  if listRowMatches f value = false then list
  else
    let counted := { list with matched := list.matched + 1 }
    if (list.matched : ℤ) < f.offset then counted
    else if f.pageFull list.count then counted
    else listEmit counted value

def listScanCb (f : TodoFilter) (userId : UInt64) (key value : Bytes)
    (list : ListCtx) : ℤ × ListCtx :=
  if (todoRowKeyParse key).isNone ∨ todoOwnedBy value userId = false then (0, list)
  else (0, listConsiderRow f list value)

def lookupScanCb (userId : UInt64) (key _value : Bytes) (ids : List UInt64) : ℤ × List UInt64 :=
  match todoIndexKeyParse key with
  | none => (0, ids)
  | some (owner, todoId) => if owner ≠ userId then (0, ids) else (0, ids ++ [todoId])

/-- `todo_index_lookup`: the ids, or `none` for `-1`. -/
def todoIndexLookup (userId : UInt64) : TodoM (Option (List UInt64)) := do
  let shown ← dbScanPrefix (todoIndexPrefix userId)
  let looked := scanWith (lookupScanCb userId) shown.1 shown.2 []
  if looked.1 ≠ 0 then pure none else pure (some looked.2)

/-- What an index entry led to: a row that is gone or somebody else's is passed
over. -/
def listFound (f : TodoFilter) (userId : UInt64) (list : ListCtx) :
    Option Bytes → ListCtx
  | none => list
  | some value =>
    if todoOwnedBy value userId = false then list
    else if f.needsEveryRow = true then listConsiderRow f list value
    else listEmit list value

/-- The loop of `list_from_index`, from the `i`-th id on.  Without a filter on
the rows the page is known before anything is read. -/
def listFromIndexLoop (f : TodoFilter) (userId : UInt64) :
    List UInt64 → ℕ → ListCtx → TodoM ListCtx
  | [], _, list => pure list
  | id :: ids, i, list =>
    if f.needsEveryRow = false ∧ (i : ℤ) < f.offset then
      listFromIndexLoop f userId ids (i + 1) list
    else if f.needsEveryRow = false ∧ f.pageFull list.count = true then pure list
    else do
      let found ← dbSearch (todoRowKey id)
      listFromIndexLoop f userId ids (i + 1) (listFound f userId list found)

def listFromIndex (f : TodoFilter) (userId : UInt64) (ids : List UInt64) :
    TodoM ListCtx := do
  let list ← listFromIndexLoop f userId ids 0 .start
  if f.needsEveryRow then pure list
  else pure { list with matched := ids.length }

/-- The rows of the ids found, or `none` for an error. -/
def listIds (f : TodoFilter) (userId : UInt64) :
    Option (List UInt64) → TodoM (Option ListCtx)
  | none => pure none
  | some ids => do
    let list ← listFromIndex f userId ids
    pure (some list)

/-- The list by way of the index, or `none` for an error. -/
def listByIndex (f : TodoFilter) (userId : UInt64) : TodoM (Option ListCtx) := do
  let ids ← todoIndexLookup userId
  listIds f userId ids

/-- The list by way of a scan of everything, or `none` for an error. -/
def listByScan (f : TodoFilter) (userId : UInt64) : TodoM (Option ListCtx) := do
  let shown ← dbScanPrefix []
  let scanned := scanWith (listScanCb f userId) shown.1 shown.2 .start
  if scanned.1 ≠ 0 then pure none else pure (some scanned.2)

/-- The rows of a listing, by way of the index while it is in use. -/
def listRows (f : TodoFilter) (userId : UInt64) : TodoM (Option ListCtx) := do
  let available ← todoIndexAvailable
  if available = true then listByIndex f userId else listByScan f userId

def listReply (request : Request) (response : Response) :
    Option ListCtx → Response
  | none => response.sendErrorResponse .internalServerError (ascii "Out of memory")
  | some list =>
    { response with
      status := .ok
      headers := [responseHeader (ascii "Content-Type") (ascii "application/json"),
          responseHeader (ascii "X-Total-Count") (decimal list.matched)]
      body := list.buf ++ ascii "]"
      keepAlive := request.keepAlive }

def todoListHandler (userId : UInt64) (request : Request)
    (response : Response) : TodoM Response := do
  let f := parseTodoFilter request.queryString
  let txn ← beginTransaction
  if txn = false then
    pure (response.sendErrorResponse .internalServerError (ascii "Transaction failed"))
  else do
    let list ← listRows f userId
    commitTransaction
    pure (listReply request response list)

/-! ## Start -/

/-- `todo_api_init` after the reconcile, whatever that returned: the counter is
seeded and the cache of `TODO_CACHE_CAPACITY` entries is created. -/
def seedTodoApi (capacity : ℕ) (maxTodoId : UInt64) (s : TodoState) : TodoState :=
  { s with
    nextTodoId := maxTodoId + 1
    cache := LruCache.create capacity }

end Codo.Api
