import Codo.Api.Listing
import Codo.Server.UserIds

/-!
# Answers depend on the user's own todos

What a request on existing todos is answered is a function of the user's own
rows and index entries: a row of somebody else and a row that is not there lead
to the same answer.  Requests are run alone and the engine does not fail.
-/

namespace Codo.Api

open Support Common Storage Program Option KvMap

/-! ## The key spaces -/

theorem isDigit_of_head_todoRowKey {id : UInt64} {c : UInt8} {rest : Bytes}
    (h : todoRowKey id = c :: rest) : isDigit c = true :=
  isDigit_of_mem_decimal (show c ∈ todoRowKey id by simp [h])

/-- Rows, index entries and accounts are kept under different keys.  The keys of
the first two are read back exactly, fit their buffers, and index keys are in
the order of the pairs. -/
theorem todo_keys_exact (userId todoId userId' todoId' : UInt64)
    (key username : Bytes) :
    (todoRowKey todoId).length < todoKeyMax ∧
      (todoIndexKey userId todoId).length < todoKeyMax ∧
      (todoIndexPrefix userId).length < todoKeyMax ∧
      todoRowKeyParse (todoRowKey todoId) = some todoId ∧
      todoIndexKeyParse (todoIndexKey userId todoId) = some (userId, todoId) ∧
      ((todoIndexKeyParse key).isSome = true →
        ∃ user todo, key = todoIndexKey user todo) ∧
      (compareKeys (todoIndexKey userId todoId)
          (todoIndexKey userId' todoId') < 0 ↔
        userId < userId' ∨ userId = userId' ∧ todoId < todoId') ∧
      (todoIndexPrefix userId <+: todoIndexKey userId' todoId' ↔
        userId = userId') ∧
      todoRowKey todoId ≠ todoIndexKey userId' todoId' ∧
      todoRowKey todoId ≠ Server.userKeyPrefix ++ username ∧
      todoIndexKey userId todoId ≠ Server.userKeyPrefix ++ username := by
  have hindex := length_todoIndexKey userId todoId
  refine ⟨?_, ?_, ?_, todoRowKeyParse_todoRowKey todoId,
    todoIndexKeyParse_todoIndexKey userId todoId, ?_, ?_, todoIndexPrefix_isPrefix_iff, ?_, ?_, ?_⟩
  · exact (length_todoRowKey_le todoId).trans_lt (by decide)
  · rw [hindex]
    decide
  · have hpfx : todoIndexPrefix userId <+: todoIndexKey userId todoId :=
      todoIndexPrefix_isPrefix_iff.mpr rfl
    exact (hpfx.length_le.trans hindex.le).trans_lt (by decide)
  · intro hsome
    obtain ⟨⟨user, todo⟩, hparse⟩ := isSome_iff_exists.mp hsome
    exact ⟨user, todo, todoIndexKeyParse_eq_some_iff.mp hparse⟩
  · rw [compareKeys_neg_iff, todoIndexKey_lt_todoIndexKey_iff]
  · intro heq
    exact absurd (isDigit_of_head_todoRowKey heq) (by decide)
  · intro heq
    exact absurd (isDigit_of_head_todoRowKey heq) (by decide)
  · intro heq
    exact absurd (List.cons.inj heq).1 (by decide)

/-! ## Answers -/

/-- The requests that read or change existing todos. -/
inductive TodoRequest
  | get
  | update
  | delete
  | list
  deriving DecidableEq

def TodoRequest.handler :
    TodoRequest → UInt64 → Request → Response → TodoM Response
  | .get => todoGetHandler
  | .update => todoUpdateHandler
  | .delete => todoDeleteHandler
  | .list => todoListHandler

/-- The answer to a request run alone on `s`. -/
def TodoRequest.answer (r : TodoRequest) (userId : UInt64) (request : Request)
    (response : Response) (s : TodoState) : Response :=
  (run TodoState.handle (r.handler userId request response) s).1

/-- Two stores with the same todo rows and index entries of the user. -/
structure SameTodos (userId : UInt64) (db db' : KvMap) : Prop where
  row : ∀ key, (todoRowKeyParse key).isSome = true → ownRow userId db key = ownRow userId db' key
  entry : ∀ id, HasEntry db ⟨userId, id⟩ ↔ HasEntry db' ⟨userId, id⟩

section SameTodos

variable {userId : UInt64} {db db' : KvMap}

theorem SameTodos.ownIds_eq (h : SameTodos userId db db') :
    ownIds userId db = ownIds userId db' := by
  refine (ownIds_sorted userId db).eq_of_mem_iff (ownIds_sorted userId db') ?_
  intro id
  rw [mem_ownIds, mem_ownIds, h.entry]

theorem SameTodos.ownRows_eq (h : SameTodos userId db db') :
    ownRows userId db = ownRows userId db' := by
  have : Std.Irrefl fun e e' : Bytes × Bytes => e.1 < e'.1 := ⟨fun e => lt_irrefl e.1⟩
  have : Std.Antisymm fun e e' : Bytes × Bytes => e.1 < e'.1 :=
    ⟨fun _ _ hlt hgt => absurd hlt (lt_asymm hgt)⟩
  rw [ownRows, ownRows]
  congr 1
  refine ((db.scan_sorted []).filter _).eq_of_mem_iff ((db'.scan_sorted []).filter _) ?_
  intro e
  change e ∈ ownPairs userId db ↔ e ∈ ownPairs userId db'
  rw [mem_ownPairs_iff_ownRow, mem_ownPairs_iff_ownRow]
  constructor
  · rintro ⟨hkey, hrow⟩
    rw [h.row _ hkey] at hrow
    exact ⟨hkey, hrow⟩
  · rintro ⟨hkey, hrow⟩
    rw [← h.row _ hkey] at hrow
    exact ⟨hkey, hrow⟩

end SameTodos

section Answers

variable {userId : UInt64} {request : Request} {response : Response} {s : TodoState}

/-- The answer to a request for a todo that is not there for the user. -/
def todoNotFound (response : Response) : Response :=
  response.sendErrorResponse .notFound (ascii "Todo not found")

theorem showTodo_eq {db : KvMap} {key : Bytes} :
    (db.get? key).elim (todoNotFound response) (showTodo userId request response) =
      (ownRow userId db key).elim (todoNotFound response)
        (response.sendJsonResponse request .ok) := by
  rw [ownRow]
  cases db.get? key with
  | none => rfl
  | some value =>
    rw [elim_some, showTodo, filter_some]
    cases todoOwnedBy value userId with
    | false => rfl
    | true => rfl

theorem run_readTodo (key : Bytes) :
    (run TodoState.handle (readTodo userId request response key) s).1 =
      (s.db.get? key).elim (todoNotFound response) (showTodo userId request response) := by
  change (run TodoState.handle (fillTodo userId request response key
    s.generation ((s.db.get? key).map fun value => value.take maxValueSize)) s).1 = _
  rw [take_get?]
  cases s.db.get? key with
  | none => rfl
  | some value => rfl

theorem answer_get (hcache : CacheCoherent s) :
    TodoRequest.get.answer userId request response s = (extractId request.uri).elim
        (response.sendErrorResponse .badRequest (ascii "Invalid todo id"))
        fun target => (ownRow userId s.db target.1).elim (todoNotFound response)
          (response.sendJsonResponse request .ok) := by
  rw [TodoRequest.answer, TodoRequest.handler, todoGetHandler]
  cases extractId request.uri with
  | none => rfl
  | some target =>
    rw [elim_some, ← showTodo_eq]
    change (run TodoState.handle (getTodo userId request response
      target.1 ((s.cached target.1).map fun value => value.take maxValueSize))
      (s.handle (.lruGet target.1)).2).1 = _
    cases hhit : s.cached target.1 with
    | none => exact run_readTodo target.1
    | some value =>
      have hget := hcache target.1 value hhit
      rw [map_some, List.take_of_length_le (length_le_of_get? hget), hget]
      rfl

/-- Update and delete work on a row of the user or answer that there is none. -/
theorem run_withOwnedRow (key : Bytes) (act : Bytes → TodoM Response) :
    (run TodoState.handle (withOwnedRow userId response key act) s).1 =
      (ownRow userId s.db key).elim (todoNotFound response) fun existing =>
        (run TodoState.handle (act existing) { s with locked := true }).1 := by
  change (run TodoState.handle (ownedRow userId response act
    ((s.db.get? key).map fun value => value.take maxValueSize)) { s with locked := true }).1 = _
  rw [take_get?, ownRow]
  cases s.db.get? key with
  | none => rfl
  | some existing =>
    rw [ownedRow, filter_some]
    cases todoOwnedBy existing userId with
    | false => rfl
    | true => rfl

/-- The replacement of a stored row by one that fits succeeds. -/
theorem run_updateRow {key value existing : Bytes} (hlegal : LegalSizes key value)
    (hget : s.db.get? key ≠ none) :
    (run TodoState.handle (updateRow request response key value existing) s).1 =
      response.sendJsonResponse request .ok value := by
  obtain ⟨hdeleted, hsets⟩ := delete_of_stored hget
  obtain ⟨hinserted, -⟩ := insert_of_absent hlegal hsets.get?_self
  have hreplaced : (run TodoState.handle (replaceRow key value existing) s).1 = 0 := by
    change (run TodoState.handle (if (s.db.delete key).1 ≠ 0 then
        pure (s.db.delete key).1
      else do
        let inserted ← dbInsert key value
        restoreRow key existing inserted)
      { s with db := (s.db.delete key).2 }).1 = 0
    rw [hdeleted, if_neg (by decide)]
    change (run TodoState.handle (restoreRow key existing
      ((s.db.delete key).2.insert key value).1) _).1 = 0
    rw [hinserted]
    rfl
  rw [updateRow, run_bind, hreplaced]
  rfl

theorem answer_delete :
    TodoRequest.delete.answer userId request response s = (extractId request.uri).elim
        (response.sendErrorResponse .badRequest (ascii "Invalid todo id"))
        fun target => (ownRow userId s.db target.1).elim (todoNotFound response)
          fun _ => response.sendJsonResponse request .noContent [] := by
  rw [TodoRequest.answer, TodoRequest.handler, todoDeleteHandler]
  cases extractId request.uri with
  | none => rfl
  | some target =>
    refine (run_withOwnedRow target.1 _).trans ?_
    congr 1
    funext existing
    rw [deleteRow, run_bind]
    rfl

theorem answer_update :
    TodoRequest.update.answer userId request response s = (extractId request.uri).elim
        (response.sendErrorResponse .badRequest (ascii "Invalid todo id")) fun target =>
          match parseTodo request response with
          | .error reply => reply
          | .ok (title, completed) =>
            (buildTodoJson target.2 userId title completed).elim
              (response.sendErrorResponse .payloadTooLarge (ascii "Todo too large"))
              fun value => (ownRow userId s.db target.1).elim (todoNotFound response)
                fun _ => response.sendJsonResponse request .ok value := by
  rw [TodoRequest.answer, TodoRequest.handler, todoUpdateHandler]
  cases htarget : extractId request.uri with
  | none => rfl
  | some target =>
    obtain ⟨key, id⟩ := target
    rw [elim_some]
    cases parseTodo request response with
    | error reply => rfl
    | ok todo =>
      obtain ⟨title, completed⟩ := todo
      dsimp only
      cases hvalue : buildTodoJson id userId title completed with
      | none => rfl
      | some value =>
        have hlegal : LegalSizes key value := legalSizes_row (todoRowKeyParse_extractId htarget)
            (buildTodoJson_eq hvalue).2.le
        refine (run_withOwnedRow key _).trans ?_
        rw [elim_some]
        cases hrow : ownRow userId s.db key with
        | none => rfl
        | some existing =>
          have hget := (ownRow_eq_some_iff.mp hrow).1
          exact run_updateRow hlegal (by rw [hget]; exact some_ne_none existing)

theorem answer_list :
    TodoRequest.list.answer userId request response s = listReply request response (some (
        if s.indexReady = true then
          indexList (parseTodoFilter request.queryString)
            (fun id => ownRow userId s.db (todoRowKey id)) (ownIds userId s.db)
        else (ownRows userId s.db).foldl
          (listConsiderRow (parseTodoFilter request.queryString)) .start)) := by
  have hrows : ∀ f, (run TodoState.handle (listRows f userId) s).1 =
      some (if s.indexReady = true then
        indexList f (fun id => ownRow userId s.db (todoRowKey id)) (ownIds userId s.db)
      else (ownRows userId s.db).foldl (listConsiderRow f) .start) := by
    intro f
    change (run TodoState.handle (if s.indexReady = true then
      listByIndex f userId else listByScan f userId) s).1 = _
    split
    · rw [run_listByIndex]
    · rw [run_listByScan]
  rw [← hrows]
  change (run TodoState.handle (do
    let list ← listRows (parseTodoFilter request.queryString) userId
    commitTransaction
    pure (listReply request response list)) s).1 = _
  rw [run_bind]
  rfl

end Answers

/-! ## Two runs -/

/-- Two stores with the same rows and entries of a user answer each of the
user's requests alike, whatever else they hold. -/
theorem todo_answers_isolated (r : TodoRequest) (userId : UInt64)
    (request : Request) (response : Response) (s s' : TodoState)
    (hsame : SameTodos userId s.db s'.db)
    (hready : s.indexReady = s'.indexReady) (hcache : CacheCoherent s)
    (hcache' : CacheCoherent s') :
    r.answer userId request response s = r.answer userId request response s' := by
  have hrow : ∀ target, extractId request.uri = some target →
      ownRow userId s.db target.1 = ownRow userId s'.db target.1 := by
    intro target htarget
    apply hsame.row
    rw [todoRowKeyParse_extractId htarget]
    rfl
  cases r with
  | get =>
    rw [answer_get hcache, answer_get hcache']
    cases htarget : extractId request.uri with
    | none => rfl
    | some target => rw [elim_some, elim_some, hrow _ htarget]
  | update =>
    rw [answer_update, answer_update]
    cases htarget : extractId request.uri with
    | none => rfl
    | some target => rw [elim_some, elim_some, hrow _ htarget]
  | delete =>
    rw [answer_delete, answer_delete]
    cases htarget : extractId request.uri with
    | none => rfl
    | some target => rw [elim_some, elim_some, hrow _ htarget]
  | list =>
    have hread : (fun id => ownRow userId s.db (todoRowKey id)) =
        fun id => ownRow userId s'.db (todoRowKey id) := by
      funext id
      apply hsame.row
      rw [todoRowKeyParse_todoRowKey]
      rfl
    rw [answer_list, answer_list, hready, hread, hsame.ownIds_eq, hsame.ownRows_eq]

/-- A state with an empty cache and the index in use. -/
def freshState (db : KvMap) : TodoState where
  db := db
  cache := LruCache.create 4
  nextTodoId := 8
  indexReady := true
  locked := false

theorem cacheCoherent_freshState (db : KvMap) : CacheCoherent (freshState db) :=
  fun _ _ hcached => absurd hcached nofun

/-- A store with a todo of user 1. -/
def othersTodo : KvMap :=
  storeWith .empty 1 7 (renderObject (todoMembers 7 1 (ascii "milk") false))

theorem sameTodos_othersTodo : SameTodos 2 othersTodo .empty := by
  have hrows : ∀ e ∈ othersTodo.scan [], todoOwnedBy e.2 2 = false := by decide +kernel
  have hentries : ∀ e ∈ othersTodo.scan [], ownId 2 e.1 = none := by decide +kernel
  have hscan : ∀ {key value : Bytes}, othersTodo.get? key = some value →
      (key, value) ∈ othersTodo.scan [] := fun hget => mem_scan.mpr ⟨hget, startsWith_nil _⟩
  constructor
  · intro key _
    refine eq_none_iff_forall_not_mem.mpr ?_
    intro value hrow
    obtain ⟨hget, howned⟩ := ownRow_eq_some_iff.mp hrow
    rw [hrows _ (hscan hget)] at howned
    exact absurd howned (by decide)
  · intro id
    refine iff_of_false ?_ fun h => h rfl
    intro hentry
    obtain ⟨value, hget⟩ := ne_none_iff_exists'.mp hentry
    have hid := hentries _ (hscan hget)
    rw [ownId_eq_some_iff.mpr rfl] at hid
    cases hid

def getSeven : Request :=
  { Request.zero with uri := ascii "/api/todos/7" }

/-- Another user's todo is answered like one that is not there. -/
theorem todo_answers_isolated_seven :
    TodoRequest.get.answer 2 getSeven ⟨.ok, [], [], true, []⟩
        (freshState othersTodo) =
      TodoRequest.get.answer 2 getSeven ⟨.ok, [], [], true, []⟩
        (freshState .empty) :=
  todo_answers_isolated .get 2 getSeven ⟨.ok, [], [], true, []⟩
    (freshState othersTodo) (freshState .empty) sameTodos_othersTodo rfl
    (cacheCoherent_freshState _) (cacheCoherent_freshState _)

end Codo.Api
