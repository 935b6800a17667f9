import Codo.Api.InStep

/-!
# Writes when the engine fails once

A request is run alone, and at most one of its calls of `db_insert` and
`db_delete` fails without effect.  The engine has no undo, so each handler takes
its writes back by hand.
-/

namespace Codo.Api

open Support Common Storage Program Option KvMap

/-! ## Runs with a failing write -/

/-- The state of a run, the number of its engine writes so far, and the one that
was made to fail. -/
structure FailingRun where
  state : TodoState
  writes : ℕ
  failed : Option TodoCmd

def FailingRun.start (s : TodoState) : FailingRun :=
  ⟨s, 0, none⟩

/-- An engine write with the given result, unless it is the one to fail. -/
def FailingRun.write (fault : Option ℕ) (t : FailingRun) (c : TodoCmd)
    (result : ℤ × KvMap) : ℤ × FailingRun :=
  if fault = some t.writes then
    (-1, { t with writes := t.writes + 1, failed := some c })
  else
    (result.1, { t with
      state := { t.state with db := result.2 }, writes := t.writes + 1 })

/-- What a command does when the write number `fault` fails. -/
def FailingRun.handle (fault : Option ℕ) :
    (c : TodoCmd) → FailingRun → c.Reply × FailingRun
  | .dbInsert key value, t => t.write fault (.dbInsert key value) (t.state.db.insert key value)
  | .dbDelete key, t => t.write fault (.dbDelete key) (t.state.db.delete key)
  | c, t => ((t.state.handle c).1, { t with state := (t.state.handle c).2 })

inductive TodoWrite
  | create
  | update
  | delete
  deriving DecidableEq

def TodoWrite.handler : TodoWrite → UInt64 → Request → Response → TodoM Response
  | .create => todoCreateHandler
  | .update => todoUpdateHandler
  | .delete => todoDeleteHandler

def TodoWrite.rowKey (w : TodoWrite) (request : Request) (s : TodoState) : Option Bytes :=
  match w with
  | .create => some (todoRowKey s.nextTodoId)
  | .update | .delete => (extractId request.uri).map Prod.fst

/-- The request run alone on `s`. -/
def TodoWrite.run (w : TodoWrite) (fault : Option ℕ) (userId : UInt64)
    (request : Request) (response : Response) (s : TodoState) : Response × FailingRun :=
  Program.run (FailingRun.handle fault) (w.handler userId request response) (.start s)

/-- What is left after a write: rows and entries match but for an entry whose
deletion failed, a cache entry for the row is the stored one, a todo reported as
deleted is gone, and an error of the server leaves the row as it was. -/
structure Survives (key : Option Bytes) (s : TodoState)
    (result : Response × FailingRun) : Prop where
  row_has_entry : ∀ pair, HasRow result.2.state.db pair → HasEntry result.2.state.db pair
  entry_has_row : ∀ pair, HasEntry result.2.state.db pair →
    HasRow result.2.state.db pair ∨ result.2.failed =
      some (.dbDelete (todoIndexKey pair.userId pair.todoId))
  coherent : ∀ row ∈ key, CoherentAt result.2.state row
  gone : result.1.status = .noContent → ∀ row ∈ key, result.2.state.db.get? row = none
  kept : 500 ≤ result.1.status.code → ∀ row ∈ key, result.2.state.db.get? row = s.db.get? row

/-- `create` cannot take its row back: the entry was there already, so writing it
fails, and the deletion of the row is the call that is made to fail. -/
def UndoLost (fault : Option ℕ) (userId id : UInt64) (db : KvMap) : Prop :=
  fault = some 2 ∧ db.get? (todoRowKey id) = none ∧ HasEntry db ⟨userId, id⟩

/-- The failing call is a deletion of the row, whose result neither handler looks
at: `delete` after it has dropped the entry, and `create` when it takes its row
back. -/
def TodoWrite.LosesDelete (w : TodoWrite) (fault : Option ℕ) (userId : UInt64)
    (request : Request) (response : Response) (s : TodoState) : Prop :=
  match w with
  | .create => UndoLost fault userId s.nextTodoId s.db ∧ ∃ title completed value,
        parseTodo request response = .ok (title, completed) ∧
        buildTodoJson s.nextTodoId userId title completed = some value
  | .update => False
  | .delete => fault = some 1 ∧ ∃ key id value, extractId request.uri = some (key, id) ∧
      s.db.get? key = some value ∧ todoOwnedBy value userId = true

def FailingRun.setLocked (t : FailingRun) (locked : Bool) : FailingRun :=
  { t with state := { t.state with locked := locked } }

/-! ## The steps of a run -/

def FailingStep (fault : Option ℕ) (c : TodoCmd) (t : FailingRun)
    (reply : c.Reply) (t' : FailingRun) : Prop :=
  (reply, t') = t.handle fault c

/-- What an engine write with the given result leads to. -/
structure Wrote (fault : Option ℕ) (t : FailingRun) (c : TodoCmd)
    (result : ℤ × KvMap) (rc : ℤ) (t' : FailingRun) : Prop where
  writes : t'.writes = t.writes + 1
  cases : (fault = some t.writes ∧ rc = -1 ∧ t'.state = t.state ∧ t'.failed = some c) ∨
    (fault ≠ some t.writes ∧ rc = result.1 ∧
      t'.state = { t.state with db := result.2 } ∧ t'.failed = t.failed)

/-- What came of the entry of a new row. -/
def EntryCreated (fault : Option ℕ) (t : FailingRun) (key : Bytes)
    (userId id : UInt64) (rc : ℤ) (t' : FailingRun) : Prop :=
  t'.state.cache = t.state.cache ∧ (t.state.db.get? (todoIndexKey userId id) = none ∧ rc = 0 ∧
        t.state.db.Sets (todoIndexKey userId id) (some []) t'.state.db ∨
      ¬(t.state.db.get? (todoIndexKey userId id) ≠ none ∧ fault = some (t.writes + 1)) ∧ rc ≠ 0 ∧
        t.state.db.Sets key none t'.state.db ∨ (t.state.db.get? (todoIndexKey userId id) ≠ none ∧
          fault = some (t.writes + 1)) ∧ rc ≠ 0 ∧ t'.state.db = t.state.db)

/-- What came of a new row in a store that was `s`, and of its entry. -/
def RowCreated (fault : Option ℕ) (s : TodoState) (userId id : UInt64)
    (value : Bytes) (rc : ℤ) (t' : FailingRun) : Prop :=
  t'.state.cache = s.cache ∧ ((rc = 0 ∧ ∃ db₁, s.db.get? (todoRowKey id) = none ∧
        s.db.Sets (todoRowKey id) (some value) db₁ ∧ s.db.get? (todoIndexKey userId id) = none ∧
        db₁.Sets (todoIndexKey userId id) (some []) t'.state.db) ∨
      (¬UndoLost fault userId id s.db ∧ rc ≠ 0 ∧ t'.state.db = s.db) ∨
      (UndoLost fault userId id s.db ∧ rc ≠ 0 ∧ t'.state.db.get? (todoRowKey id) = some value))

variable {fault : Option ℕ} {t : FailingRun} {userId id : UInt64}
  {request : Request} {response : Response} {value existing : Bytes}

section Run

variable {key : Bytes} {act : Bytes → TodoM Response} {Q : Response → FailingRun → Prop}

theorem wrote_write (fault : Option ℕ) (t : FailingRun) (c : TodoCmd) (result : ℤ × KvMap) :
    Wrote fault t c result (t.write fault c result).1 (t.write fault c result).2 := by
  rw [FailingRun.write]
  split
  next h => exact ⟨rfl, .inl ⟨h, rfl, rfl, rfl⟩⟩
  next h => exact ⟨rfl, .inr ⟨h, rfl, rfl, rfl⟩⟩

theorem always_dbInsert (key value : Bytes) (t : FailingRun) :
    Always (FailingStep fault) (dbInsert key value) t
      (Wrote fault t (.dbInsert key value) (t.state.db.insert key value)) := by
  refine always_issue.mpr ?_
  intro rc t' hstep
  obtain ⟨rfl, rfl⟩ := Prod.mk.inj hstep
  exact wrote_write fault t _ _

theorem always_dbDelete (key : Bytes) (t : FailingRun) :
    Always (FailingStep fault) (dbDelete key) t
      (Wrote fault t (.dbDelete key) (t.state.db.delete key)) := by
  refine always_issue.mpr ?_
  intro rc t' hstep
  obtain ⟨rfl, rfl⟩ := Prod.mk.inj hstep
  exact wrote_write fault t _ _

theorem always_beginTransaction (t : FailingRun) :
    Always (FailingStep fault) beginTransaction t fun txn t' => txn = true ∧ t' = t := by
  refine always_issue.mpr ?_
  intro txn t' hstep
  exact Prod.mk.inj hstep

theorem always_commitTransaction (t : FailingRun) :
    Always (FailingStep fault) commitTransaction t fun _ t' => t' = t := by
  refine always_issue.mpr ?_
  intro _ t' hstep
  exact (Prod.mk.inj hstep).2

theorem always_todoIndexAvailable (t : FailingRun) :
    Always (FailingStep fault) todoIndexAvailable t
      fun available t' => available = t.state.indexReady ∧ t' = t := by
  refine always_issue.mpr ?_
  intro available t' hstep
  exact Prod.mk.inj hstep

theorem always_lruPut (key value : Bytes) (t : FailingRun) :
    Always (FailingStep fault) (lruPut key value) t fun _ t' => t'.state.db = t.state.db ∧
        ∀ v, t'.state.cached key = some v → v = value := by
  refine always_issue.mpr ?_
  intro _ t' hstep
  obtain ⟨-, rfl⟩ := Prod.mk.inj hstep
  refine ⟨rfl, ?_⟩
  intro v hv
  rcases cached_lruPut hv with ⟨-, rfl⟩ | ⟨hne, -⟩
  · rfl
  · exact absurd rfl hne

theorem always_lruInvalidate (key : Bytes) (t : FailingRun) :
    Always (FailingStep fault) (lruInvalidate key) t
      fun _ t' => t'.state.db = t.state.db ∧ t'.failed = t.failed ∧
        ∀ v, t'.state.cached key ≠ some v := by
  refine always_issue.mpr ?_
  intro _ t' hstep
  obtain ⟨-, rfl⟩ := Prod.mk.inj hstep
  refine ⟨rfl, rfl, ?_⟩
  intro v hv
  exact (cached_lruInvalidate hv).1 rfl

theorem always_abortTransaction (t : FailingRun) :
    Always (FailingStep fault) abortTransaction t fun _ t' => t' = t := by
  refine always_issue.mpr ?_
  intro _ t' hstep
  exact (Prod.mk.inj hstep).2

theorem always_unlockWrites (t : FailingRun) :
    Always (FailingStep fault) unlockWrites t fun _ t' => t' = t.setLocked false := by
  refine always_issue.mpr ?_
  intro _ t' hstep
  exact (Prod.mk.inj hstep).2

/-- The row is read under the lock, and the user's own row is worked on. -/
theorem always_withOwnedRow (hother : (∀ existing, t.state.db.get? key = some existing →
        todoOwnedBy existing userId = false) →
      Q (response.sendErrorResponse .notFound (ascii "Todo not found")) (t.setLocked false))
    (hfound : ∀ existing, t.state.db.get? key = some existing → todoOwnedBy existing userId = true →
      Always (FailingStep fault) (act existing) (t.setLocked true) Q) :
    Always (FailingStep fault) (withOwnedRow userId response key act) t Q := by
  have hbusy : ∀ found, (∀ existing, t.state.db.get? key = some existing →
        todoOwnedBy existing userId = false) → Always (FailingStep fault) (do
        commitTransaction
        unlockWrites
        pure (response.sendErrorResponse .notFound (ascii "Todo not found")))
        (t.setLocked found) Q := by
    intro found hnot
    refine always_issue_bind.mpr ?_
    intro _ t₁ hstep
    obtain ⟨-, rfl⟩ := Prod.mk.inj hstep
    refine always_issue_bind.mpr ?_
    intro _ t₂ hstep
    obtain ⟨-, rfl⟩ := Prod.mk.inj hstep
    exact always_pure.mpr (hother hnot)
  refine always_issue_bind.mpr ?_
  intro _ t₁ hstep
  obtain ⟨-, rfl⟩ := Prod.mk.inj hstep
  refine always_issue_bind.mpr ?_
  intro txn t₂ hstep
  obtain ⟨rfl, rfl⟩ := Prod.mk.inj hstep
  refine always_issue_bind.mpr ?_
  intro found t₃ hstep
  obtain ⟨hreply, rfl⟩ := Prod.mk.inj hstep
  have hget : found = t.state.db.get? key := hreply.trans (take_get? t.state.db key)
  cases found with
  | none =>
    refine hbusy true ?_
    intro existing hexisting
    rw [← hget] at hexisting
    cases hexisting
  | some existing =>
    rw [ownedRow]
    split
    next hfalse =>
      refine hbusy true ?_
      intro existing' hexisting
      obtain rfl := some.inj (hget.trans hexisting)
      exact hfalse
    next htrue => exact hfound existing hget.symm (by simpa using htrue)

/-- A replacement that meets at most one failure puts the new row in the place
of the old one, or leaves the store as it was. -/
theorem always_replaceRow (hget : t.state.db.get? key = some existing)
    (hvalue : LegalSizes key value) (hexisting : LegalSizes key existing) :
    Always (FailingStep fault) (replaceRow key value existing) t
      fun rc t' => t'.state.cache = t.state.cache ∧ (rc ≠ 0 ∧ t'.state.db = t.state.db ∨
          rc = 0 ∧ t.state.db.Sets key (some value) t'.state.db) := by
  refine (always_dbDelete key t).bind ?_
  rintro rc t₁ ⟨hwrites, ⟨h₀, rfl, hstate, -⟩ | ⟨h₀, rfl, hstate, -⟩⟩
  · refine always_pure.mpr ?_
    rw [hstate]
    exact ⟨rfl, .inl ⟨by decide, rfl⟩⟩
  obtain ⟨hrc, hsets⟩ := delete_of_stored
    (show t.state.db.get? key ≠ none by rw [hget]; exact some_ne_none _)
  rw [hrc, if_neg (by decide)]
  refine (always_dbInsert key value t₁).bind ?_
  rintro rc t₂ ⟨hwrites', ⟨h₁, rfl, hstate', -⟩ | ⟨h₁, rfl, hstate', -⟩⟩
  · -- The insert is the call that fails, so the row goes back.
    rw [restoreRow, if_pos (by decide)]
    refine (always_dbInsert key existing t₂).bind ?_
    rintro rc t₃ ⟨-, ⟨h₂, -⟩ | ⟨-, rfl, hstate'', -⟩⟩
    · rw [h₁, hwrites'] at h₂
      exact absurd (some.inj h₂) (by omega)
    · rw [hstate', hstate] at hstate''
      obtain ⟨hrc', hback⟩ := insert_of_absent hexisting hsets.get?_self
      rw [hstate', hstate, hrc', if_neg (by decide)]
      refine always_pure.mpr ?_
      rw [hstate'']
      refine ⟨rfl, .inl ⟨by decide, ?_⟩⟩
      have hall := hsets.trans hback
      rw [← hget] at hall
      exact hall.eq_self
  · rw [hstate] at hstate'
    obtain ⟨hrc', hnew⟩ := insert_of_absent hvalue hsets.get?_self
    rw [hstate, hrc', restoreRow, if_neg (by decide)]
    refine always_pure.mpr ?_
    rw [hstate']
    exact ⟨rfl, .inr ⟨rfl, hsets.trans hnew⟩⟩

/-- The entry of a row just stored under `key` is written, or the row is taken
back.  The row stays without it only when the entry was there before and taking
the row back is the call that fails. -/
theorem always_createEntry (hready : t.state.indexReady = true)
    (hget : t.state.db.get? key ≠ none) :
    Always (FailingStep fault) (createEntry 0 key userId id) t
      (EntryCreated fault t key userId id) := by
  have hundo : ∀ t₁ : FailingRun, t₁.writes = t.writes + 1 → t₁.state = t.state →
      (t.state.db.get? (todoIndexKey userId id) = none → fault ≠ some (t.writes + 1)) →
      Always (FailingStep fault) (keepRow key (-1)) t₁ (EntryCreated fault t key userId id) := by
    intro t₁ hwrites hstate hcalm
    rw [keepRow, if_pos (by decide)]
    refine (always_dbDelete key t₁).bind ?_
    rintro rc t₂ ⟨-, ⟨h₁, -, hstate', -⟩ | ⟨h₁, -, hstate', -⟩⟩
    · refine always_pure.mpr ?_
      rw [hwrites] at h₁
      rw [EntryCreated, hstate', hstate]
      exact ⟨rfl, .inr (.inr ⟨⟨fun hnone => hcalm hnone h₁, h₁⟩, by decide, rfl⟩)⟩
    · refine always_pure.mpr ?_
      rw [hwrites] at h₁
      rw [EntryCreated, hstate', hstate]
      exact ⟨rfl, .inr (.inl ⟨fun h => h₁ h.2, by decide, (delete_of_stored hget).2⟩)⟩
  rw [createEntry, if_neg (by decide)]
  refine (always_todoIndexAvailable t).bind ?_
  rintro available t ⟨rfl, rfl⟩
  rw [hready, if_neg (by decide)]
  refine (always_dbInsert _ _ _).bind ?_
  rintro rc t₁ ⟨hwrites, ⟨h₀, rfl, hstate, -⟩ | ⟨h₀, rfl, hstate, -⟩⟩
  · refine hundo t₁ hwrites hstate fun _ h₁ => ?_
    have heq := some.inj (h₀.symm.trans h₁)
    omega
  · by_cases hentry : t.state.db.get? (todoIndexKey userId id) = none
    · obtain ⟨hrc, hsets⟩ := insert_of_absent (legalSizes_index userId id) hentry
      rw [hrc, keepRow, if_neg (by decide)]
      refine always_pure.mpr ?_
      rw [EntryCreated, hstate]
      exact ⟨rfl, .inl ⟨hentry, rfl, hsets⟩⟩
    · have hrefused : t.state.db.insert (todoIndexKey userId id) [] =
        (-1, t.state.db) := insert_of_stored hentry
      rw [hrefused] at hstate ⊢
      exact hundo t₁ hwrites hstate fun hnone => absurd hnone hentry

/-- The entry goes, unless deleting it is the call that fails. -/
theorem always_dropEntry (hready : t.state.indexReady = true)
    (hentry : t.state.db.get? (todoIndexKey userId id) ≠ none) :
    Always (FailingStep fault) (dropEntry userId id) t fun _ t' => t'.writes = t.writes + 1 ∧
        (t.state.db.Sets (todoIndexKey userId id) none t'.state.db ∨
          t'.state.db = t.state.db ∧ fault = some t.writes ∧
            t'.failed = some (.dbDelete (todoIndexKey userId id))) := by
  refine (always_todoIndexAvailable t).bind ?_
  rintro available t ⟨rfl, rfl⟩
  rw [if_pos hready]
  refine (always_dbDelete _ _).bind ?_
  rintro rc t₁ ⟨hwrites, ⟨h₀, -, hstate, hfailed⟩ | ⟨-, -, hstate, -⟩⟩
  · refine always_pure.mpr ⟨hwrites, .inr ⟨?_, h₀, hfailed⟩⟩
    rw [hstate]
  · refine always_pure.mpr ⟨hwrites, .inl ?_⟩
    rw [hstate]
    exact (delete_of_stored hentry).2

end Run

/-! ## What is left behind -/

variable {s : TodoState} {row : Bytes}

section Left

variable {reply : Response} {key : Option Bytes} {pair : OwnerPair} {db₁ : KvMap}

theorem survives_unchanged (hstep : InStep s.db)
    (hcache : ∀ row ∈ key, CoherentAt s row) (hdb : t.state.db = s.db)
    (hsame : t.state.cache = s.cache) (hstatus : reply.status ≠ .noContent) :
    Survives key s (reply, t) := by
  constructor
  · intro pair hrow
    rw [hdb] at hrow ⊢
    exact (hstep.entry_iff pair).mpr hrow
  · intro pair hentry
    rw [hdb] at hentry ⊢
    exact .inl ((hstep.entry_iff pair).mp hentry)
  · intro row hrow v hcached
    rw [TodoState.cached, hsame] at hcached
    rw [hdb]
    exact hcache row hrow v hcached
  · intro hgone
    exact absurd hgone hstatus
  · intro _ row _
    rw [hdb]

theorem survives_stored (hmatch : ∀ pair, HasEntry t.state.db pair ↔ HasRow t.state.db pair)
    (hget : t.state.db.get? row = some value)
    (hcached : ∀ v, t.state.cached row = some v → v = value)
    (hstatus : reply.status = .ok ∨ reply.status = .created) :
    Survives (some row) s (reply, t) := by
  have hgone : reply.status ≠ .noContent := by rcases hstatus with h | h <;> rw [h] <;> decide
  have hsound : ¬ 500 ≤ reply.status.code := by rcases hstatus with h | h <;> rw [h] <;> decide
  constructor
  · intro pair hrow
    exact (hmatch pair).mpr hrow
  · intro pair hentry
    exact .inl ((hmatch pair).mp hentry)
  · rintro _ ⟨⟩ v hv
    rw [hcached v hv]
    exact hget
  · intro h
    exact absurd h hgone
  · intro h
    exact absurd h hsound

theorem survives_deleted (hstep : InStep s.db) (hpair : rowPair (row, existing) = some pair)
    (hget : s.db.get? row = some existing)
    (hentry : s.db.Sets (todoIndexKey pair.userId pair.todoId) none db₁ ∨ db₁ = s.db ∧ t.failed =
        some (.dbDelete (todoIndexKey pair.userId pair.todoId)))
    (hrow : db₁.Sets row none t.state.db) (hcached : ∀ v, t.state.cached row ≠ some v)
    (hstatus : reply.status = .noContent) : Survives (some row) s (reply, t) := by
  have hkey := (rowPair_eq_some_iff.mp hpair).1
  have hsame : SameRows s.db db₁ := by
    rcases hentry with hsets | ⟨rfl, -⟩
    · exact sameRows_of_sets_index hsets
    · exact .refl _
  have hrows : ∀ other, HasRow t.state.db other ↔ other ≠ pair ∧ HasRow s.db other :=
    fun other => hstep.hasRow_of_delete hsame hrow hget hpair
  constructor
  · intro other hhas
    obtain ⟨hne, hold⟩ := (hrows other).mp hhas
    rw [hasEntry_of_sets_row hrow hkey]
    rcases hentry with hsets | ⟨rfl, -⟩
    · rw [hasEntry_of_sets_index hsets]
      exact .inr ⟨hne, (hstep.entry_iff other).mpr hold⟩
    · exact (hstep.entry_iff other).mpr hold
  · intro other hhas
    rw [hasEntry_of_sets_row hrow hkey] at hhas
    by_cases heq : other = pair
    · subst heq
      rcases hentry with hsets | ⟨-, hfailed⟩
      · rw [hasEntry_of_sets_index hsets] at hhas
        simp at hhas
      · exact .inr hfailed
    · left
      refine (hrows other).mpr ⟨heq, (hstep.entry_iff other).mp ?_⟩
      rcases hentry with hsets | ⟨rfl, -⟩
      · rw [hasEntry_of_sets_index hsets] at hhas
        simpa [heq] using hhas
      · exact hhas
  · rintro _ ⟨⟩ v hv
    exact absurd hv (hcached v)
  · rintro - _ ⟨⟩
    exact hrow.get?_self
  · intro hbad
    rw [hstatus] at hbad
    exact absurd hbad (by decide)

end Left

/-! ## The handlers -/

theorem always_deleteRow (hready : s.indexReady = true) (hstep : InStep s.db)
    (hkey : todoRowKeyParse row = some id) (hget : s.db.get? row = some existing)
    (howned : todoOwnedBy existing userId = true) :
    Always (FailingStep fault) (deleteRow userId id request response row)
      ((FailingRun.start s).setLocked true)
      fun reply t => Survives (some row) s (reply, t) ↔ fault ≠ some 1 := by
  have hpair : rowPair (row, existing) = some ⟨userId, id⟩ :=
    rowPair_eq_some_iff.mpr ⟨hkey, todoOwnedBy_iff.mp howned⟩
  have hentry : s.db.get? (todoIndexKey userId id) ≠ none :=
    (hstep.entry_iff ⟨userId, id⟩).mpr ⟨row, existing, hget, hpair⟩
  refine (always_dropEntry hready hentry).bind ?_
  rintro _ t₁ ⟨hwrites, hdropped⟩
  -- The entry is another key, so the row is still there.
  have hstored : t₁.state.db.get? row = some existing := by
    rcases hdropped with hsets | ⟨hdb, -⟩
    · rw [hsets.get?_of_ne (ne_todoIndexKey hkey)]
      exact hget
    · rw [hdb]
      exact hget
  refine (always_dbDelete row t₁).bind ?_
  rintro rc t₂ ⟨-, hdeleted⟩
  refine (always_commitTransaction t₂).bind ?_
  rintro _ t₂ rfl
  refine (always_lruInvalidate row t₂).bind ?_
  rintro _ t₃ ⟨hdb, hfailed, hcached⟩
  refine (always_unlockWrites t₃).bind ?_
  rintro _ t₄ rfl
  refine always_pure.mpr ?_
  rcases hdeleted with ⟨h₁, -, hstate, -⟩ | ⟨h₁, -, hstate, hsame⟩
  · rw [hwrites] at h₁
    refine iff_of_false ?_ (not_not.mpr h₁)
    intro hsurvives
    have hgone : t₃.state.db.get? row = none := hsurvives.gone rfl row rfl
    rw [hdb, hstate, hstored] at hgone
    cases hgone
  · rw [hwrites] at h₁
    refine iff_of_true ?_ h₁
    have hrow : t₁.state.db.Sets row none t₃.state.db := by
      rw [hdb, hstate]
      exact (delete_of_stored (by rw [hstored]; exact nofun)).2
    refine survives_deleted hstep hpair hget ?_ hrow hcached rfl
    rcases hdropped with hsets | ⟨hkept, -, hlost⟩
    · exact .inl hsets
    · refine .inr ⟨hkept, ?_⟩
      exact (hfailed.trans hsame).trans hlost

theorem always_updateRow (hstep : InStep s.db) (hcache : CoherentAt s row)
    (hkey : todoRowKeyParse row = some id) (hget : s.db.get? row = some existing)
    (howned : todoOwnedBy existing userId = true) (howner : todoOwner value = some userId)
    (hlen : value.length ≤ maxValueSize) :
    Always (FailingStep fault) (updateRow request response row value existing)
      ((FailingRun.start s).setLocked true) fun reply t => Survives (some row) s (reply, t) := by
  have hexisting : LegalSizes row existing := legalSizes_row hkey (length_le_of_get? hget)
  refine (always_replaceRow hget (legalSizes_row hkey hlen) hexisting).bind ?_
  rintro rc t₁ ⟨hsame, ⟨hrc, hdb⟩ | ⟨rfl, hsets⟩⟩
  · rw [if_pos hrc]
    refine (always_abortTransaction t₁).bind ?_
    rintro _ t₁ rfl
    refine (always_unlockWrites t₁).bind ?_
    rintro _ t₂ rfl
    refine always_pure.mpr (survives_unchanged hstep ?_ hdb hsame nofun)
    rintro _ ⟨⟩
    exact hcache
  · rw [if_neg (by decide)]
    refine (always_commitTransaction t₁).bind ?_
    rintro _ t₁ rfl
    refine (always_lruPut row value t₁).bind ?_
    rintro _ t₂ ⟨hdb, hcached⟩
    refine (always_unlockWrites t₂).bind ?_
    rintro _ t₃ rfl
    have hstored : s.db.Sets row (some value) t₂.state.db := by
      rw [hdb]
      exact hsets
    have howner' : todoOwner value = todoOwner existing :=
      howner.trans (todoOwnedBy_iff.mp howned).symm
    have hin : InStep t₂.state.db := hstep.replace hkey hget howner' hstored
    exact always_pure.mpr (survives_stored hin.entry_iff hstored.get?_self hcached (.inl rfl))

/-- The row of a new todo and its entry are written, or the store is left as it
was, or the row stays because taking it back failed. -/
theorem always_createRow (userId id : UInt64)
    (hwrites : t.writes = 0) (hready : t.state.indexReady = true)
    (hlen : value.length ≤ maxValueSize) :
    Always (FailingStep fault) (do
      let inserted ← dbInsert (todoRowKey id) value
      createEntry inserted (todoRowKey id) userId id) t
      (RowCreated fault t.state userId id value) := by
  have hkey : todoRowKeyParse (todoRowKey id) = some id := todoRowKeyParse_todoRowKey id
  refine (always_dbInsert _ _ _).bind ?_
  rintro rc t₁ ⟨hwrites₁, ⟨h₀, rfl, hstate, -⟩ | ⟨-, rfl, hstate, -⟩⟩
  · rw [createEntry, if_pos (by decide)]
    refine always_pure.mpr ?_
    rw [RowCreated, hstate]
    refine ⟨rfl, .inr (.inl ⟨?_, by decide, rfl⟩)⟩
    rintro ⟨h₂, -⟩
    rw [h₂, hwrites] at h₀
    exact absurd h₀ (by decide)
  by_cases hnone : t.state.db.get? (todoRowKey id) = none
  · obtain ⟨hrc, hrow⟩ := insert_of_absent (legalSizes_row hkey hlen) hnone
    have hsets : t.state.db.Sets (todoRowKey id) (some value) t₁.state.db := by
      rw [hstate]
      exact hrow
    have hindex : t₁.state.db.get? (todoIndexKey userId id) =
        t.state.db.get? (todoIndexKey userId id) := hsets.get?_of_ne (ne_todoIndexKey hkey).symm
    have hready₁ : t₁.state.indexReady = true := by
      rw [hstate]
      exact hready
    have hget : t₁.state.db.get? (todoRowKey id) ≠ none := by
      rw [hsets.get?_self]
      exact nofun
    have hcache : t₁.state.cache = t.state.cache := by rw [hstate]
    rw [hrc]
    refine (always_createEntry hready₁ hget).mono ?_
    rintro rc t₂ ⟨hsame, hcases⟩
    rw [hindex, hwrites₁, hwrites] at hcases
    refine ⟨hsame.trans hcache, ?_⟩
    rcases hcases with ⟨hfree, hrc, hentry⟩ | ⟨hcalm, hrc, hback⟩ | ⟨⟨hentry, h₂⟩, hrc, hdb⟩
    · exact .inl ⟨hrc, t₁.state.db, hnone, hsets, hfree, hentry⟩
    · refine .inr (.inl ⟨fun h => hcalm ⟨h.2.2, h.1⟩, hrc, ?_⟩)
      have hall := hsets.trans hback
      rw [← hnone] at hall
      exact hall.eq_self
    · refine .inr (.inr ⟨⟨h₂, hnone, hentry⟩, hrc, ?_⟩)
      rw [hdb]
      exact hsets.get?_self
  · have hrefused : (-1 : ℤ) ≠ 0 := by decide
    rw [insert_of_stored hnone] at hstate ⊢
    rw [createEntry, if_pos hrefused]
    refine always_pure.mpr ?_
    rw [RowCreated, hstate]
    exact ⟨rfl, .inr (.inl ⟨fun h => hnone h.2.1, hrefused, rfl⟩)⟩

theorem always_storeTodo (hdb : t.state.db = s.db)
    (hsame : t.state.cache = s.cache) (hwrites : t.writes = 0)
    (hready : t.state.indexReady = true) (hstep : InStep s.db)
    (hcache : CoherentAt s (todoRowKey id)) (howner : todoOwner value = some userId)
    (hlen : value.length ≤ maxValueSize) :
    Always (FailingStep fault) (storeTodo request response userId id value) t
      fun reply t => Survives (some (todoRowKey id)) s (reply, t) ↔
        ¬UndoLost fault userId id s.db := by
  refine (always_beginTransaction t).bind ?_
  rintro txn t ⟨rfl, rfl⟩
  rw [if_neg (by decide)]
  refine (always_bind.mp (always_createRow userId id hwrites hready hlen)).bind ?_
  intro inserted t₁ hcreated
  refine hcreated.bind ?_
  rintro rc t₂ ⟨hcache₂, hcases⟩
  rw [hdb] at hcases
  refine (always_commitTransaction t₂).bind ?_
  rintro _ t₂ rfl
  rcases hcases with ⟨rfl, db₁, hnone, hrow, hfree, hentry⟩ |
    ⟨hcalm, hrc, hkept⟩ | ⟨hstuck, hrc, hleft⟩
  · rw [if_neg (by decide)]
    refine (always_lruPut _ value t₂).bind ?_
    rintro _ t₃ ⟨hdb₃, hcached⟩
    have hpair : rowPair (todoRowKey id, value) = some ⟨userId, id⟩ :=
      rowPair_eq_some_iff.mpr ⟨todoRowKeyParse_todoRowKey id, howner⟩
    rw [← hdb₃] at hentry
    have hget : t₃.state.db.get? (todoRowKey id) = some value := by
      rw [hentry.get?_of_ne (ne_todoIndexKey (todoRowKeyParse_todoRowKey id))]
      exact hrow.get?_self
    refine always_pure.mpr (iff_of_true ?_ fun h => h.2.2 hfree)
    have hin : InStep t₃.state.db := hstep.create hpair hnone (not_not.mpr hfree) hrow hentry
    exact survives_stored hin.entry_iff hget hcached (.inr rfl)
  · rw [if_pos hrc]
    refine always_pure.mpr (iff_of_true ?_ hcalm)
    refine survives_unchanged hstep ?_ hkept (hcache₂.trans hsame) nofun
    rintro _ ⟨⟩
    exact hcache
  · rw [if_pos hrc]
    refine always_pure.mpr (iff_of_false ?_ (not_not.mpr hstuck))
    intro hsurvives
    have hkept : t₂.state.db.get? (todoRowKey id) = s.db.get? (todoRowKey id) := by
      refine hsurvives.kept ?_ _ rfl
      change 500 ≤ HttpStatus.internalServerError.code
      decide
    rw [hleft, hstuck.2.1] at hkept
    cases hkept

theorem status_of_parseTodo {reply : Response} (h : parseTodo request response = .error reply) :
    reply.status ≠ .noContent := by
  rw [parseTodo] at h
  split at h
  · obtain rfl := Except.error.inj h
    exact nofun
  · obtain rfl := Except.error.inj h
    exact nofun
  · split at h
    · obtain rfl := Except.error.inj h
      exact nofun
    · cases h

theorem always_todoDeleteHandler (hready : s.indexReady = true) (hstep : InStep s.db)
    (hcache : ∀ row ∈ TodoWrite.delete.rowKey request s, CoherentAt s row) :
    Always (FailingStep fault) (todoDeleteHandler userId request response) (.start s) fun reply t =>
        Survives (TodoWrite.delete.rowKey request s) s (reply, t) ↔
          ¬TodoWrite.delete.LosesDelete fault userId request response s := by
  rw [todoDeleteHandler]
  split
  next hnone =>
    refine always_pure.mpr (iff_of_true ?_ ?_)
    · exact survives_unchanged hstep hcache rfl rfl nofun
    · rintro ⟨-, key, id, value, hsome, -⟩
      rw [hnone] at hsome
      cases hsome
  next row id hid =>
    have hrow : TodoWrite.delete.rowKey request s = some row := by
      rw [TodoWrite.rowKey, hid, map_some]
    rw [hrow] at hcache ⊢
    refine always_withOwnedRow ?_ ?_
    · intro hother
      refine iff_of_true ?_ ?_
      · exact survives_unchanged hstep hcache rfl rfl nofun
      · rintro ⟨-, key, id', value, hsome, hget, howned⟩
        obtain ⟨rfl, -⟩ := Prod.mk.inj (some.inj (hid.symm.trans hsome))
        rw [hother value hget] at howned
        exact absurd howned (by decide)
    · intro existing hget howned
      refine (always_deleteRow hready hstep (todoRowKeyParse_extractId hid) hget howned).mono ?_
      intro reply t hsurvives
      rw [hsurvives, TodoWrite.LosesDelete, not_and, ne_eq]
      constructor
      · intro hne heq
        exact absurd heq hne
      · intro hcalm heq
        exact hcalm heq ⟨row, id, existing, hid, hget, howned⟩

theorem always_todoUpdateHandler (hstep : InStep s.db)
    (hcache : ∀ row ∈ TodoWrite.update.rowKey request s, CoherentAt s row) :
    Always (FailingStep fault) (todoUpdateHandler userId request response) (.start s) fun reply t =>
        Survives (TodoWrite.update.rowKey request s) s (reply, t) := by
  have hunchanged : ∀ reply : Response, reply.status ≠ .noContent →
      ∀ t : FailingRun, t.state.db = s.db → t.state.cache = s.cache →
      Survives (TodoWrite.update.rowKey request s) s (reply, t) := fun reply hstatus t hdb hsame =>
      survives_unchanged hstep hcache hdb hsame hstatus
  rw [todoUpdateHandler]
  split
  next hnone => exact always_pure.mpr (hunchanged _ (by exact nofun) _ rfl rfl)
  next row id hid =>
    split
    next reply hparse =>
      exact always_pure.mpr (hunchanged reply (status_of_parseTodo hparse) _ rfl rfl)
    next title completed hparse =>
      split
      next => exact always_pure.mpr (hunchanged _ (by exact nofun) _ rfl rfl)
      next value hvalue =>
        refine always_withOwnedRow ?_ ?_
        · intro _
          exact hunchanged _ (by exact nofun) _ rfl rfl
        · intro existing hget howned
          have hrow : TodoWrite.update.rowKey request s = some row := by
            rw [TodoWrite.rowKey, hid, map_some]
          rw [hrow] at hcache ⊢
          exact always_updateRow hstep (hcache row rfl) (todoRowKeyParse_extractId hid) hget howned
            (todoOwner_buildTodoJson hvalue) (buildTodoJson_eq hvalue).2.le

theorem always_todoCreateHandler (hready : s.indexReady = true) (hstep : InStep s.db)
    (hcache : ∀ row ∈ TodoWrite.create.rowKey request s, CoherentAt s row) :
    Always (FailingStep fault) (todoCreateHandler userId request response) (.start s) fun reply t =>
        Survives (TodoWrite.create.rowKey request s) s (reply, t) ↔
          ¬TodoWrite.create.LosesDelete fault userId request response s := by
  rw [todoCreateHandler]
  split
  next reply hparse =>
    refine always_pure.mpr (iff_of_true ?_ ?_)
    · exact survives_unchanged hstep hcache rfl rfl (status_of_parseTodo hparse)
    · rintro ⟨-, title, completed, value, hok, -⟩
      rw [hparse] at hok
      cases hok
  next title completed hparse =>
    refine always_issue_bind.mpr ?_
    intro id t hfetched
    obtain ⟨rfl, rfl⟩ := Prod.mk.inj hfetched
    change Always _ (createTodo userId request response title completed s.nextTodoId) _ _
    rw [createTodo]
    split
    next hnone =>
      refine always_pure.mpr (iff_of_true ?_ ?_)
      · exact survives_unchanged hstep hcache rfl rfl nofun
      · rintro ⟨-, title', completed', value, hok, hvalue⟩
        obtain ⟨rfl, rfl⟩ := Prod.mk.inj (Except.ok.inj (hparse.symm.trans hok))
        exact absurd (hnone.symm.trans hvalue) nofun
    next value hvalue =>
      refine (always_storeTodo (s := s) rfl rfl rfl hready hstep (hcache _ rfl)
        (todoOwner_buildTodoJson hvalue) (buildTodoJson_eq hvalue).2.le).mono ?_
      intro reply t hsurvives
      refine hsurvives.trans (not_congr ?_)
      constructor
      · intro hlost
        exact ⟨hlost, title, completed, value, hparse, hvalue⟩
      · intro hlost
        exact hlost.1

/-! ## Any single failure -/

/-- The row of one todo. -/
def milkRow : Bytes :=
  renderObject (todoMembers 7 1 (ascii "milk") false)

/-- A store with one todo, its entry and an empty cache. -/
def milkState : TodoState where
  db := ((KvMap.empty.insert (todoRowKey 7) milkRow).2.insert (todoIndexKey 1 7) []).2
  cache := LruCache.create 4
  nextTodoId := 8
  indexReady := true
  locked := false

def deleteMilk : Request :=
  { Request.zero with method := .delete, uri := ascii "/api/todos/7" }

def blankResponse : Response :=
  ⟨.ok, [], [], true, []⟩

theorem inStep_milkState : InStep milkState.db :=
  InStep.empty.storeWith (by decide +kernel) (by decide +kernel) rfl fun h => h rfl

theorem coherentAt_milkState (key : Bytes) : CoherentAt milkState key :=
  fun _ hcached => absurd hcached nofun

/-- On a store with the index in use and in step, a write survives the failure
of any one of its engine calls exactly when that call is not a deletion of the
row whose result is ignored. -/
theorem todo_write_survives_iff (w : TodoWrite) (fault : Option ℕ)
    (userId : UInt64) (request : Request) (response : Response) (s : TodoState)
    (hready : s.indexReady = true) (hstep : InStep s.db)
    (hcache : ∀ row ∈ w.rowKey request s, CoherentAt s row) :
    Survives (w.rowKey request s) s (w.run fault userId request response s) ↔
      ¬w.LosesDelete fault userId request response s := by
  have hrun : Outcome (FailingStep fault) (w.handler userId request response) (.start s)
      (w.run fault userId request response s).1 (w.run fault userId request response s).2 :=
    outcome_run (fun _ _ => rfl) _ _
  cases w with
  | create => exact always_todoCreateHandler hready hstep hcache _ _ hrun
  | update => exact iff_of_true (always_todoUpdateHandler hstep hcache _ _ hrun) not_false
  | delete => exact always_todoDeleteHandler hready hstep hcache _ _ hrun

/-- The entry of a deleted todo stays, and nothing else. -/
theorem todo_write_survives_iff_entry :
    Survives (TodoWrite.delete.rowKey deleteMilk milkState) milkState
      (TodoWrite.delete.run (some 0) 1 deleteMilk blankResponse milkState) := by
  refine (todo_write_survives_iff .delete (some 0) 1 deleteMilk blankResponse
    milkState rfl inStep_milkState fun row _ => coherentAt_milkState row).mpr ?_
  rintro ⟨hfault, -⟩
  exact absurd hfault (by decide)

/-- The deletion of the todo, when deleting its row is what fails. -/
def failedDelete : Response × FailingRun :=
  TodoWrite.delete.run (some 1) 1 deleteMilk blankResponse milkState

/-- The row of a deleted todo stays, without its entry, behind a 204. -/
theorem todo_delete_reports_row_left :
    milkState.indexReady = true ∧ InStep milkState.db ∧
      CacheCoherent milkState ∧ failedDelete.1.status = .noContent ∧
      failedDelete.2.state.db.get? (todoRowKey 7) = some milkRow ∧
      failedDelete.2.state.db.get? (todoIndexKey 1 7) = none ∧
      ¬Survives (TodoWrite.delete.rowKey deleteMilk milkState) milkState
        failedDelete := by
  have hstatus : failedDelete.1.status = .noContent := by decide +kernel
  have hrow : failedDelete.2.state.db.get? (todoRowKey 7) = some milkRow := by decide +kernel
  have hentry : failedDelete.2.state.db.get? (todoIndexKey 1 7) = none := by decide +kernel
  have hkey : TodoWrite.delete.rowKey deleteMilk milkState = some (todoRowKey 7) := by
    decide +kernel
  refine ⟨rfl, inStep_milkState, coherentAt_milkState, hstatus, hrow, hentry, ?_⟩
  intro hsurvives
  have hgone := hsurvives.gone hstatus (todoRowKey 7) hkey
  exact absurd (hrow.symm.trans hgone) nofun

end Codo.Api
