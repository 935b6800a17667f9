import Codo.Api.TodoKeys
import Codo.Common.Lru
import Codo.Storage.KvMap

/-!
# What the todo handlers work on

The todo handlers share the storage engine, the read cache, the id counter, the
write lock and the flag that says whether the owner index may be used.  Each
call on one of them is one command, because the engine, the cache and the
counter serialise their calls; everything between two commands is local to the
request.

`TodoState.handle` is what a command does when the engine does not fail.
`TodoStep` also allows the engine to fail, and a failed write may leave any
store behind.
-/

namespace Codo.Api

open Support Common Storage Program

/-- The calls of a handler on what it shares with others. -/
inductive TodoCmd
  | lruGet (key : Bytes)
  | lruGeneration
  | lruFill (key value : Bytes) (generation : UInt64)
  | lruPut (key value : Bytes)
  | lruInvalidate (key : Bytes)
  | beginTransaction
  | commitTransaction
  | abortTransaction
  | dbSearch (key : Bytes)
  | dbInsert (key value : Bytes)
  | dbDelete (key : Bytes)
  | dbScanPrefix (pfx : Bytes)
  | lockWrites
  | unlockWrites
  | fetchTodoId
  | indexAvailable
  | setIndexReady (ready : Bool)
  deriving DecidableEq

/-- The answer to a command.  A search copies into a buffer of `MAX_VALUE_SIZE`
bytes; a scan lists the pairs it has shown and its return code. -/
def TodoCmd.Reply : TodoCmd → Type
  | .lruGet _ => Option Bytes
  | .lruGeneration => UInt64
  | .beginTransaction => Bool
  | .dbSearch _ => Option Bytes
  | .dbInsert _ _ => ℤ
  | .dbDelete _ => ℤ
  | .dbScanPrefix _ => ℤ × List (Bytes × Bytes)
  | .fetchTodoId => UInt64
  | .indexAvailable => Bool
  | _ => Unit

abbrev TodoM (α : Type) : Type :=
  Program TodoCmd TodoCmd.Reply α

def lruGet (key : Bytes) : TodoM (Option Bytes) :=
  issue (R := TodoCmd.Reply) (.lruGet key)

def lruGeneration : TodoM UInt64 :=
  issue (R := TodoCmd.Reply) .lruGeneration

def lruFill (key value : Bytes) (generation : UInt64) : TodoM Unit :=
  issue (R := TodoCmd.Reply) (.lruFill key value generation)

def lruPut (key value : Bytes) : TodoM Unit :=
  issue (R := TodoCmd.Reply) (.lruPut key value)

def lruInvalidate (key : Bytes) : TodoM Unit :=
  issue (R := TodoCmd.Reply) (.lruInvalidate key)

def beginTransaction : TodoM Bool :=
  issue (R := TodoCmd.Reply) .beginTransaction

def commitTransaction : TodoM Unit :=
  issue (R := TodoCmd.Reply) .commitTransaction

def abortTransaction : TodoM Unit :=
  issue (R := TodoCmd.Reply) .abortTransaction

def dbSearch (key : Bytes) : TodoM (Option Bytes) :=
  issue (R := TodoCmd.Reply) (.dbSearch key)

def dbInsert (key value : Bytes) : TodoM ℤ :=
  issue (R := TodoCmd.Reply) (.dbInsert key value)

def dbDelete (key : Bytes) : TodoM ℤ :=
  issue (R := TodoCmd.Reply) (.dbDelete key)

def dbScanPrefix (pfx : Bytes) : TodoM (ℤ × List (Bytes × Bytes)) :=
  issue (R := TodoCmd.Reply) (.dbScanPrefix pfx)

def lockWrites : TodoM Unit :=
  issue (R := TodoCmd.Reply) .lockWrites

def unlockWrites : TodoM Unit :=
  issue (R := TodoCmd.Reply) .unlockWrites

def fetchTodoId : TodoM UInt64 :=
  issue (R := TodoCmd.Reply) .fetchTodoId

def todoIndexAvailable : TodoM Bool :=
  issue (R := TodoCmd.Reply) .indexAvailable

def setIndexReady (ready : Bool) : TodoM Unit :=
  issue (R := TodoCmd.Reply) (.setIndexReady ready)

/-- A scan with a callback: what its context is after the pairs shown, up to the
one at which it asks to stop. -/
def scanWith {κ : Type} (callback : Bytes → Bytes → κ → ℤ × κ) (rc : ℤ) :
    List (Bytes × Bytes) → κ → ℤ × κ
  | [], ctx => (rc, ctx)
  | e :: es, ctx =>
    if (callback e.1 e.2 ctx).1 ≠ 0 then (0, (callback e.1 e.2 ctx).2)
    else scanWith callback rc es (callback e.1 e.2 ctx).2

/-- `todo_index_insert`: an entry has no value. -/
def todoIndexInsert (userId todoId : UInt64) : TodoM ℤ :=
  dbInsert (todoIndexKey userId todoId) []

def todoIndexDelete (userId todoId : UInt64) : TodoM ℤ :=
  dbDelete (todoIndexKey userId todoId)

/-- What the handlers share: the engine, `g_todo_cache`, `g_next_todo_id`,
`g_index_ready` and whether `g_todo_write_lock` is taken. -/
structure TodoState where
  db : KvMap
  cache : Option LruCache
  nextTodoId : UInt64
  indexReady : Bool
  locked : Bool

def TodoState.cached (s : TodoState) (key : Bytes) : Option Bytes :=
  s.cache.bind fun cache => cache.find key

def TodoState.generation (s : TodoState) : UInt64 :=
  match s.cache with
  | none => 0
  | some cache => cache.generation

/-- What a command answers and does. -/
def TodoState.handle : (c : TodoCmd) → TodoState → c.Reply × TodoState
  | .lruGet key, s =>
    (((s.cached key).map fun value => value.take maxValueSize : Option Bytes),
      { s with cache := s.cache.map fun cache => (cache.get key).2 })
  | .lruGeneration, s => (s.generation, s)
  | .lruFill key value generation, s =>
    ((), { s with
      cache := s.cache.map fun cache => cache.fill key value generation })
  | .lruPut key value, s => ((), { s with cache := s.cache.map fun cache => cache.put key value })
  | .lruInvalidate key, s => ((), { s with cache := s.cache.map fun cache => cache.invalidate key })
  | .beginTransaction, s => (true, s)
  | .commitTransaction, s => ((), s)
  | .abortTransaction, s => ((), s)
  | .dbSearch key, s =>
    (((s.db.get? key).map fun value => value.take maxValueSize : Option Bytes), s)
  | .dbInsert key value, s =>
    ((s.db.insert key value).1, { s with db := (s.db.insert key value).2 })
  | .dbDelete key, s => ((s.db.delete key).1, { s with db := (s.db.delete key).2 })
  | .dbScanPrefix pfx, s => ((0, s.db.scan pfx), s)
  | .lockWrites, s => ((), { s with locked := true })
  | .unlockWrites, s => ((), { s with locked := false })
  | .fetchTodoId, s => (s.nextTodoId, { s with nextTodoId := s.nextTodoId + 1 })
  | .indexAvailable, s => (s.indexReady, s)
  | .setIndexReady ready, s => ((), { s with indexReady := ready })

/-- A command that fails.  There is no memory for a transaction, a page cannot be
loaded or none is left; a scan may have shown some pairs before. -/
def TodoCmd.Fails : (c : TodoCmd) → TodoState → c.Reply → TodoState → Prop
  | .beginTransaction, s, reply, s' => reply = false ∧ s' = s
  | .dbSearch _, s, reply, s' => reply = none ∧ s' = s
  | .dbInsert _ _, s, rc, s' => rc = (-1 : ℤ) ∧ ∃ db, s' = { s with db := db }
  | .dbDelete _, s, rc, s' => rc = (-1 : ℤ) ∧ ∃ db, s' = { s with db := db }
  | .dbScanPrefix pfx, s, reply, s' => reply.1 = -1 ∧ reply.2 <+: s.db.scan pfx ∧ s' = s
  | _, _, _, _ => False

def TodoCmd.isWrite : TodoCmd → Bool
  | .dbInsert _ _ => true
  | .dbDelete _ => true
  | _ => false

/-- A command is answered as it should be, or it fails. -/
def TodoStep (c : TodoCmd) (s : TodoState) (reply : c.Reply) (s' : TodoState) : Prop :=
  (reply, s') = s.handle c ∨ c.Fails s reply s'

theorem todoStep_handle (c : TodoCmd) (s : TodoState) :
    TodoStep c s (s.handle c).1 (s.handle c).2 :=
  .inl rfl

end Codo.Api
