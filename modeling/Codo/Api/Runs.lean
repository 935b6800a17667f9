import Codo.Api.Isolation

/-!
# Requests one after the other

Requests of any users are run one after the other, and the engine does not fail.
The index stays in step with the rows, the cache holds what is stored, and the
write lock is free after each request.
-/

namespace Codo.Api

open Support Common Storage Program Option KvMap TodoState

/-- What holds between two requests. -/
structure Settled (s : TodoState) : Prop where
  ready : s.indexReady = true
  inStep : InStep s.db
  cached : ∀ {key value}, s.cached key = some value →
    (∃ id, todoRowKeyParse key = some id) ∧ s.db.get? key = some value
  free : s.locked = false

inductive TodoCall
  | create (userId : UInt64) (request : Request) (response : Response)
  | existing (r : TodoRequest) (userId : UInt64) (request : Request) (response : Response)

/-- The state after one request, run alone. -/
def TodoState.serve (s : TodoState) : TodoCall → TodoState
  | .create userId request response => (run handle (todoCreateHandler userId request response) s).2
  | .existing r userId request response => (run handle (r.handler userId request response) s).2

variable {s : TodoState} {userId id : UInt64} {request : Request}
  {response : Response} {key key' value value' existing : Bytes}

/-! ## Reads -/

theorem cached_lruGet (h : (s.handle (.lruGet key)).2.cached key' = some value') :
    s.cached key' = some value' := by
  cases hcache : s.cache with
  | none => simp [handle, cached, hcache] at h
  | some cache =>
    simp only [handle, cached, hcache, map_some, bind_some] at h ⊢
    rw [LruCache.get] at h
    split at h
    next => exact h
    next value hfound =>
      rw [LruCache.find_touch] at h
      rcases h with ⟨rfl, rfl⟩ | ⟨-, hold⟩
      · exact hfound
      · exact hold

theorem cached_lruFill {generation : UInt64}
    (h : (s.handle (.lruFill key value generation)).2.cached key' = some value') :
    key' = key ∧ value' = value ∨ s.cached key' = some value' := by
  cases hcache : s.cache with
  | none => simp [handle, cached, hcache] at h
  | some cache =>
    simp only [handle, cached, hcache, map_some, bind_some, LruCache.fill] at h ⊢
    split at h
    · exact .inr h
    · exact (LruCache.find_store h).imp_right And.right

theorem Settled.get (h : Settled s) :
    Settled (run handle (todoGetHandler userId request response) s).2 := by
  rw [todoGetHandler]
  split
  next => exact h
  next key id hid =>
    have hread : Settled (s.handle (.lruGet key)).2 :=
      ⟨h.ready, h.inStep, fun hit => h.cached (cached_lruGet hit), h.free⟩
    change Settled (run _ (getTodo _ _ _ _ (s.handle (.lruGet key)).1) _).2
    cases (s.handle (.lruGet key)).1 with
    | some value => exact hread
    | none =>
      change Settled (run _ (fillTodo _ _ _ _ _ ((s.db.get? key).map _)) _).2
      rw [take_get?]
      cases hget : s.db.get? key with
      | none => exact hread
      | some value =>
        refine ⟨h.ready, h.inStep, ?_, h.free⟩
        intro key' value' hcached
        rcases cached_lruFill hcached with ⟨rfl, rfl⟩ | hold
        · exact ⟨⟨id, todoRowKeyParse_extractId hid⟩, hget⟩
        · exact hread.cached hold

theorem run_todoListHandler : (run handle (todoListHandler userId request response) s).2 = s := by
  change (run _ (listRows _ userId >>= _) s).2 = s
  rw [run_bind]
  change (run handle (listRows _ _) s).2 = s
  change (run _ (if s.indexReady = true then _ else _) s).2 = s
  split
  · rw [run_listByIndex]
  · rw [run_listByScan]

/-! ## Writes -/

theorem Settled.put {db : KvMap} (h : Settled s)
    (hkey : todoRowKeyParse key = some id) (hstep : InStep db) (hget : db.get? key = some value)
    (hother : ∀ {row id'}, row ≠ key → todoRowKeyParse row = some id' →
      db.get? row = s.db.get? row) :
    Settled { ({ s with db := db }.handle (.lruPut key value)).2 with
      locked := false } := by
  refine ⟨h.ready, hstep, ?_, rfl⟩
  intro row value' hcached
  rcases cached_lruPut (s := { s with db := db }) hcached with
    ⟨rfl, rfl⟩ | ⟨hne, hold⟩
  · exact ⟨⟨id, hkey⟩, hget⟩
  · obtain ⟨⟨id', hid'⟩, hold⟩ := h.cached hold
    exact ⟨⟨id', hid'⟩, (hother hne hid').trans hold⟩

theorem Settled.withOwnedRow (h : Settled s) {act : Bytes → TodoM Response}
    (hact : ∀ existing, s.db.get? key = some existing → todoOwnedBy existing userId = true →
      Settled (run handle (act existing) { s with locked := true }).2) :
    Settled (run handle (withOwnedRow userId response key act) s).2 := by
  have hnone : Settled { s with locked := false } := ⟨h.ready, h.inStep, h.cached, rfl⟩
  change Settled (run _ (ownedRow _ _ act ((s.db.get? key).map _)) _).2
  rw [take_get?]
  cases hget : s.db.get? key with
  | none => exact hnone
  | some existing =>
    rw [ownedRow]
    split
    next => exact hnone
    next howned => exact hact existing hget (by simpa using howned)

theorem Settled.updateRow (h : Settled s) (hkey : todoRowKeyParse key = some id)
    (hlegal : LegalSizes key value) (hget : s.db.get? key = some existing)
    (howner : todoOwner value = todoOwner existing) :
    Settled (run handle (updateRow request response key value existing)
      { s with locked := true }).2 := by
  obtain ⟨hdeleted, hsets⟩ := delete_of_stored (by rw [hget]; exact nofun)
  obtain ⟨hinserted, hnew⟩ := insert_of_absent hlegal hsets.get?_self
  have hall := hsets.trans hnew
  change Settled (run _ ((if (s.db.delete key).1 ≠ 0 then _ else _) >>= _) _).2
  rw [hdeleted, if_neg (by decide)]
  change Settled (run _ (restoreRow _ _ ((s.db.delete key).2.insert key value).1 >>= _) _).2
  rw [hinserted]
  exact h.put hkey (h.inStep.replace hkey hget howner hall) hall.get?_self
    fun hne _ => hall.get?_of_ne hne

/-- A row and its entry are gone, and nothing else. -/
theorem InStep.remove {db db₁ db' : KvMap} {pair : OwnerPair}
    (hstep : InStep db) (hpair : rowPair (key, value) = some pair) (hget : db.get? key = some value)
    (hentry : db.Sets (todoIndexKey pair.userId pair.todoId) none db₁)
    (hrow : db₁.Sets key none db') : InStep db' := by
  have hsame := sameRows_of_sets_index hentry
  have hold : ∀ {row value' : Bytes} {other : OwnerPair},
      db'.get? row = some value' → rowPair (row, value') = some other →
      db.get? row = some value' := by
    intro row value' other hget' hpair'
    have hne : row ≠ key := by
      rintro rfl
      rw [hrow.get?_self] at hget'
      cases hget'
    rwa [hrow.get?_of_ne hne, hsame.get?_row (rowPair_eq_some_iff.mp hpair').1] at hget'
  constructor
  · intro other
    rw [hasEntry_of_sets_row hrow (rowPair_eq_some_iff.mp hpair).1, hasEntry_of_sets_index hentry,
      hstep.hasRow_of_delete hsame hrow hget hpair, hstep.entry_iff]
    simp
  · intro row row' value₁ value₂ other hget₁ hget₂ hpair₁ hpair₂
    exact hstep.unique (hold hget₁ hpair₁) (hold hget₂ hpair₂) hpair₁ hpair₂

theorem Settled.deleteRow (h : Settled s) (hkey : todoRowKeyParse key = some id)
    (hget : s.db.get? key = some value) (howned : todoOwnedBy value userId = true) :
    Settled (run handle (deleteRow userId id request response key)
      { s with locked := true }).2 := by
  have hpair : rowPair (key, value) = some ⟨userId, id⟩ :=
    rowPair_eq_some_iff.mpr ⟨hkey, todoOwnedBy_iff.mp howned⟩
  obtain ⟨-, hentry⟩ := delete_of_stored
    ((h.inStep.entry_iff ⟨userId, id⟩).mpr ⟨key, value, hget, hpair⟩)
  obtain ⟨-, hrow⟩ := delete_of_stored (by
    rw [hentry.get?_of_ne (ne_todoIndexKey hkey), hget]
    exact some_ne_none _)
  change Settled (run _ ((if s.indexReady = true then _ else _) >>= _) _).2
  rw [if_pos h.ready]
  refine ⟨h.ready, h.inStep.remove hpair hget hentry hrow, ?_, rfl⟩
  intro row value' hcached
  obtain ⟨hne, hold⟩ := cached_lruInvalidate (s := { s with db := _ }) hcached
  obtain ⟨⟨id', hid'⟩, hold⟩ := h.cached hold
  exact ⟨⟨id', hid'⟩, (hrow.get?_of_ne hne).trans
    ((hentry.get?_of_ne (ne_todoIndexKey hid')).trans hold)⟩

theorem Settled.storeTodo (h : Settled s) (hlen : value.length ≤ maxValueSize)
    (howner : todoOwner value = some userId) :
    Settled (run handle (storeTodo request response userId id value) s).2 := by
  have hkey := todoRowKeyParse_todoRowKey id
  change Settled (run _ (createEntry (s.db.insert (todoRowKey id) value).1
    _ _ _ >>= _) { s with db := (s.db.insert (todoRowKey id) value).2 }).2
  by_cases hnone : s.db.get? (todoRowKey id) = none
  · obtain ⟨hinserted, hrow⟩ := insert_of_absent (legalSizes_row hkey hlen) hnone
    rw [hinserted]
    generalize (s.db.insert (todoRowKey id) value).2 = db at hrow ⊢
    have hindex : db.get? (todoIndexKey userId id) = s.db.get? _ :=
      hrow.get?_of_ne (ne_todoIndexKey hkey).symm
    change Settled (run _ ((if s.indexReady = false then _ else _) >>= _) _).2
    rw [if_neg (by rw [h.ready]; decide)]
    change Settled (run _ (keepRow _ (db.insert (todoIndexKey userId id) []).1
      >>= _) { s with db := (db.insert (todoIndexKey userId id) []).2 }).2
    by_cases hfree : s.db.get? (todoIndexKey userId id) = none
    · obtain ⟨hrc, hentry⟩ := insert_of_absent (legalSizes_index userId id) (hindex.trans hfree)
      have hpair : rowPair (todoRowKey id, value) = some ⟨userId, id⟩ :=
        rowPair_eq_some_iff.mpr ⟨hkey, howner⟩
      have hput := h.put hkey (h.inStep.create hpair hnone (not_not.mpr hfree) hrow hentry)
        ((hentry.get?_of_ne (ne_todoIndexKey hkey)).trans hrow.get?_self)
        fun hne hid' => (hentry.get?_of_ne (ne_todoIndexKey hid')).trans (hrow.get?_of_ne hne)
      rw [hrc]
      rw [← h.free] at hput
      exact hput
    · -- The entry is there already, and the row is taken back.
      have hback := hrow.trans (delete_of_stored (by rw [hrow.get?_self]; exact nofun)).2
      rw [← hnone] at hback
      rw [insert_of_stored (hindex.trans_ne hfree)]
      change Settled { s with db := (db.delete _).2 }
      rw [hback.eq_self]
      exact h
  · rw [insert_of_stored hnone]
    exact h

/-! ## Whole runs -/

theorem Settled.serve (h : Settled s) (call : TodoCall) : Settled (s.serve call) := by
  rcases call with _ | ⟨_ | _ | _ | _⟩
  case create =>
    rw [TodoState.serve, todoCreateHandler]
    split
    next => exact h
    next =>
      have hnext : Settled { s with nextTodoId := s.nextTodoId + 1 } :=
        ⟨h.ready, h.inStep, h.cached, h.free⟩
      change Settled (run _ (createTodo _ _ _ _ _ s.nextTodoId) _).2
      rw [createTodo]
      split
      next => exact hnext
      next value hvalue =>
        exact hnext.storeTodo (buildTodoJson_eq hvalue).2.le (todoOwner_buildTodoJson hvalue)
  case existing.get => exact h.get
  case existing.list => rwa [TodoState.serve, TodoRequest.handler, run_todoListHandler]
  case existing.delete =>
    rw [TodoState.serve, TodoRequest.handler, todoDeleteHandler]
    split
    next => exact h
    next key id hid =>
      exact h.withOwnedRow fun existing hget howned =>
        h.deleteRow (todoRowKeyParse_extractId hid) hget howned
  case existing.update =>
    rw [TodoState.serve, TodoRequest.handler, todoUpdateHandler]
    split
    next => exact h
    next key id hid =>
      have hkey := todoRowKeyParse_extractId hid
      split
      next => exact h
      next =>
        split
        next => exact h
        next value hvalue =>
          refine h.withOwnedRow fun existing hget howned => ?_
          exact h.updateRow hkey (legalSizes_row hkey (buildTodoJson_eq hvalue).2.le) hget
            ((todoOwner_buildTodoJson hvalue).trans (todoOwnedBy_iff.mp howned).symm)

theorem Settled.run (h : Settled s) (calls : List TodoCall) :
    Settled (calls.foldl TodoState.serve s) := by
  induction calls generalizing s with
  | nil => exact h
  | cons call calls ih => exact ih (h.serve call)

/-- Requests on existing todos are answered as without a cache. -/
def CacheUnseen (s : TodoState) : Prop :=
  ∀ (r : TodoRequest) userId request response, r.answer userId request response s =
      r.answer userId request response { s with cache := none }

theorem Settled.cacheUnseen (h : Settled s) : CacheUnseen s := by
  intro r userId request response
  cases r with
  | get =>
    rw [answer_get fun _ _ hit => (h.cached hit).2,
      answer_get fun _ _ hit => by exact absurd hit nofun]
  | update => rw [answer_update, answer_update]
  | delete => rw [answer_delete, answer_delete]
  | list => rw [answer_list, answer_list]

/-- Whatever was stored, after a start whose reconcile succeeded every sequence
of requests ends in a settled state, and its cache does not show. -/
theorem todo_api_runs_settled (heap : ℕ → Bool) (capacity : ℕ) (s : TodoState)
    (calls : List TodoCall) :
    Always TodoStep (todoIndexReconcile heap 0) s fun r s' =>
      r.1 = 0 → s'.locked = false →
        Settled (calls.foldl serve (seedTodoApi capacity r.2 s')) ∧
        CacheUnseen (calls.foldl serve (seedTodoApi capacity r.2 s')) := by
  intro r s' hout hrc hfree
  have hstep := always_reconcile_inStep heap 0 s r s' hout hrc
  rcases always_todoIndexReconcile heap 0 s r s' hout with
    ⟨hbad, -⟩ | ⟨-, hready, -⟩
  · exact absurd (hbad.symm.trans hrc) (by decide)
  have hstart : Settled (seedTodoApi capacity r.2 s') := by
    refine ⟨hready, hstep, fun hit => ?_, hfree⟩
    rw [seedTodoApi, cached, LruCache.create] at hit
    split at hit <;> cases hit
  exact ⟨hstart.run calls, (hstart.run calls).cacheUnseen⟩

/-- A stale entry is dropped, then todo 7 is deleted. -/
theorem todo_api_runs_settled_stale : ∃ r s',
    Outcome TodoStep (todoIndexReconcile (fun _ => true) 0) staleStore r s' ∧
      Settled ([.existing .delete 5 getSeven ⟨.ok, [], [], true, []⟩].foldl
        serve (seedTodoApi 4 r.2 s')) := by
  have hout := outcome_run todoStep_handle (todoIndexReconcile (fun _ => true) 0) staleStore
  exact ⟨_, _, hout, (todo_api_runs_settled _ 4 _ _ _ _ hout
    (by decide +kernel) (by decide +kernel)).1⟩

end Codo.Api
