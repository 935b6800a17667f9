import Mathlib.Logic.Function.Basic
import Mathlib.Logic.Relation
import Mathlib.Tactic.Common

/-!
# Handing connections to the storage pool

A worker marks a connection as offloaded and submits its request to the pool.
The pool thread that ran the handler takes the worker's list lock, clears the
mark, re-arms the socket by `epoll_ctl`, and releases the lock.  From the mark to
the return of that call the connection must not be freed, because the call uses
its descriptor and its address.

The worker frees connections in three places.  A dropped connection and the idle
sweep look at the mark with the list lock held.  The drain at the end of a
worker looks at it without the lock, so it may find the mark cleared while the
pool thread is still in `epoll_ctl`.

The steps below are the accesses to shared memory of one worker, of the pool
threads, and of the shutdown; connections are identified by `ι`.
-/

namespace Codo.Server

/-! ## States -/

inductive Life
  | absent
  | alive
  | freed
  deriving DecidableEq, Repr

/-- The task of an offloaded connection, until its thread asks for the lock. -/
inductive OffloadTask
  | none
  | queued
  | running
  deriving DecidableEq, Repr

/-- Where a pool thread is in the release of a connection. -/
inductive ReleaseStage
  | entered
  | cleared
  | rearmed
  deriving DecidableEq, Repr

/-- `connections_lock` and its holder. -/
inductive ListLock (ι : Type*)
  | free
  | worker
  | pool (conn : ι) (stage : ReleaseStage)
  deriving DecidableEq

inductive WorkerAt (ι : Type*)
  | waiting
  | handling (conn : ι)
  | marked (conn : ι)
  | handled (conn : ι)
  | dropping (conn : ι)
  | dropLocked (conn : ι)
  | dropFreeing (conn : ι)
  | reaping
  | reapFreeing (conn : ι)
  | unlocking
  | draining
  | drainFreeing (conn : ι)
  | exited
  deriving DecidableEq

inductive Shutdown
  | running
  | stopping
  | poolGone
  deriving DecidableEq, Repr

structure OffloadState (ι : Type*) where
  life : ι → Life
  offloaded : ι → Bool
  task : ι → OffloadTask
  lock : ListLock ι
  worker : WorkerAt ι
  shutdown : Shutdown

def OffloadState.start (ι : Type*) : OffloadState ι where
  life _ := .absent
  offloaded _ := false
  task _ := .none
  lock := .free
  worker := .waiting
  shutdown := .running

section Steps

variable {ι : Type*} [DecidableEq ι]

open Function (update)

/-- The steps, with the connection they are about. -/
inductive OffloadStep : OffloadState ι → OffloadState ι → Prop
  -- The accept loop publishes a connection under the list lock.
  | accept {s} (c : ι) : s.life c = .absent → s.lock = .free →
      OffloadStep s { s with life := update s.life c .alive }
  -- `dispatch_connection_event`, and the handlers it calls.
  | dispatch {s} (c : ι) : s.worker = .waiting → s.life c = .alive →
      s.offloaded c = false → OffloadStep s { s with worker := .handling c }
  | hangup {s} (c : ι) : s.worker = .waiting → s.life c = .alive →
      s.offloaded c = false → OffloadStep s { s with worker := .dropping c }
  | handlerFails {s} (c : ι) : s.worker = .handling c →
      OffloadStep s { s with worker := .dropping c }
  | handlerReturns {s} (c : ι) : s.worker = .handling c →
      OffloadStep s { s with worker := .handled c }
  | writeHalf {s} (c : ι) : s.worker = .handled c → s.offloaded c = false →
      OffloadStep s { s with worker := .handling c }
  | dispatched {s} (c : ι) : s.worker = .handled c → OffloadStep s { s with worker := .waiting }
  -- `dispatch_offloaded`.
  | mark {s} (c : ι) : s.worker = .handling c → OffloadStep s
        { s with worker := .marked c, offloaded := update s.offloaded c true }
  | submit {s} (c : ι) : s.worker = .marked c → OffloadStep s
        { s with worker := .handled c, task := update s.task c .queued }
  | submitFails {s} (c : ι) : s.worker = .marked c → OffloadStep s
        { s with worker := .handling c, offloaded := update s.offloaded c false }
  -- `run_offloaded_handler`.
  | take {s} (c : ι) : s.task c = .queued → s.shutdown ≠ .poolGone →
      OffloadStep s { s with task := update s.task c .running }
  | poolLocks {s} (c : ι) : s.task c = .running → s.lock = .free → OffloadStep s
        { s with lock := .pool c .entered, task := update s.task c .none }
  | poolClears {s} (c : ι) : s.lock = .pool c .entered → OffloadStep s
        { s with lock := .pool c .cleared, offloaded := update s.offloaded c false }
  | poolRearms {s} (c : ι) : s.lock = .pool c .cleared →
      OffloadStep s { s with lock := .pool c .rearmed }
  | poolUnlocks {s} (c : ι) : s.lock = .pool c .rearmed → OffloadStep s { s with lock := .free }
  -- `drop_connection`.
  | dropLocks {s} (c : ι) : s.worker = .dropping c → s.lock = .free →
      OffloadStep s { s with worker := .dropLocked c, lock := .worker }
  | dropExamines {s} (c : ι) : s.worker = .dropLocked c → s.offloaded c = false →
      OffloadStep s { s with worker := .dropFreeing c }
  | dropKeeps {s} (c : ι) : s.worker = .dropLocked c → s.offloaded c = true →
      OffloadStep s { s with worker := .unlocking }
  | dropFrees {s} (c : ι) : s.worker = .dropFreeing c → OffloadStep s
        { s with worker := .unlocking, life := update s.life c .freed }
  | workerUnlocks {s} : s.worker = .unlocking →
      OffloadStep s { s with worker := .waiting, lock := .free }
  -- `reap_idle_connections`.
  | reapLocks {s} : s.worker = .waiting → s.lock = .free →
      OffloadStep s { s with worker := .reaping, lock := .worker }
  | reapExamines {s} (c : ι) : s.worker = .reaping → s.life c = .alive →
      s.offloaded c = false → OffloadStep s { s with worker := .reapFreeing c }
  | reapFrees {s} (c : ι) : s.worker = .reapFreeing c →
      OffloadStep s { s with worker := .reaping, life := update s.life c .freed }
  | reapDone {s} : s.worker = .reaping → OffloadStep s { s with worker := .unlocking }
  -- `drain_worker_connections`, when the worker leaves its loop.
  | leave {s} : s.worker = .waiting → OffloadStep s { s with worker := .draining }
  | drainExamines {s} (c : ι) : s.worker = .draining → s.life c = .alive →
      s.offloaded c = false → OffloadStep s { s with worker := .drainFreeing c }
  | drainFrees {s} (c : ι) : s.worker = .drainFreeing c →
      OffloadStep s { s with worker := .draining, life := update s.life c .freed }
  | drainDone {s} : s.worker = .draining → OffloadStep s { s with worker := .exited }
  -- `http_server_cleanup`: the worker is joined before the pool is destroyed,
  -- which joins its threads and discards the tasks that never ran.
  | stop {s} : s.shutdown = .running → OffloadStep s { s with shutdown := .stopping }
  | destroyPool {s} : s.worker = .exited → s.shutdown = .stopping →
      (∀ c, s.task c ≠ .running) → (∀ c stage, s.lock ≠ .pool c stage) →
      OffloadStep s { s with shutdown := .poolGone, task := fun _ => .none }
  | cleanupFrees {s} (c : ι) : s.shutdown = .poolGone → s.life c = .alive →
      OffloadStep s { s with life := update s.life c .freed }

end Steps

section Safety

variable {ι : Type*}

/-- The mark of the connection is set for a task that has not cleared it. -/
def StillMarked (s : OffloadState ι) (c : ι) : Prop :=
  s.worker = .marked c ∨ s.task c ≠ .none ∨ s.lock = .pool c .entered

/-- The connection is between its mark and the return of the `epoll_ctl` that
re-arms it. -/
def HandedOver (s : OffloadState ι) (c : ι) : Prop :=
  StillMarked s c ∨ s.lock = .pool c .cleared

/-- The worker reads or writes the buffers of the connection, or frees them. -/
def WorkerAt.Touches (worker : WorkerAt ι) (c : ι) : Prop :=
  worker = .handling c ∨ worker = .dropFreeing c ∨ worker = .reapFreeing c ∨
    worker = .drainFreeing c

/-- The worker is about to use the connection. -/
def WorkerAt.Attends (worker : WorkerAt ι) (c : ι) : Prop :=
  worker.Touches c ∨ worker = .marked c ∨ worker = .handled c ∨
    worker = .dropping c ∨ worker = .dropLocked c

/-- No connection is freed while it is handed over, and the worker touches none
that is marked. -/
def OffloadSafe (s : OffloadState ι) : Prop :=
  (∀ c, HandedOver s c → s.life c ≠ .freed) ∧ ∀ c, s.worker.Touches c → s.offloaded c = false

def WorkerAt.Locked : WorkerAt ι → Prop
  | dropLocked _ | dropFreeing _ | reaping | reapFreeing _ | unlocking => True
  | _ => False

/-- What holds of a connection at every point. -/
structure Guarded (s : OffloadState ι) (c : ι) : Prop where
  flagged : StillMarked s c → s.offloaded c = true
  unsubmitted : s.worker = .marked c → s.task c = .none ∧ s.lock ≠ .pool c .entered
  released : s.lock = .pool c .entered → s.task c = .none
  alive : HandedOver s c ∨ s.worker.Attends c → s.life c = .alive
  touched : s.worker.Touches c → s.offloaded c = false
  drained : s.worker = .drainFreeing c → s.lock ≠ .pool c .cleared
  locked : s.worker.Locked → s.lock = .worker
  gone : s.shutdown = .poolGone → s.worker = .exited ∧ s.task c = .none ∧
    ∀ stage, s.lock ≠ .pool c stage

/-- The drain does not examine a connection while a pool thread is between
clearing its mark and the return of its `epoll_ctl`. -/
def CalmOffloadStep [DecidableEq ι] (s s' : OffloadState ι) : Prop :=
  OffloadStep s s' ∧ ∀ c, s.worker = .draining → s'.worker = .drainFreeing c →
    s.lock ≠ .pool c .cleared

theorem Guarded.start (c : ι) : Guarded (OffloadState.start ι) c := by
  constructor <;> simp [OffloadState.start, StillMarked, HandedOver, WorkerAt.Attends,
    WorkerAt.Touches, WorkerAt.Locked]

variable {s s' : OffloadState ι} {c d : ι}

/-- A connection whose mark is clear is handed over only while a pool thread is
in `epoll_ctl` for it. -/
theorem Guarded.not_handedOver (h : Guarded s c) (hflag : s.offloaded c = false)
    (hlock : s.lock ≠ .pool c .cleared) : ¬HandedOver s c := by
  rintro (hpending | hcleared)
  · exact absurd (hflag.symm.trans (h.flagged hpending)) nofun
  · exact hlock hcleared

theorem Guarded.not_handedOver_of_locked (h : Guarded s c)
    (htouches : s.worker.Touches c) (hlocked : s.worker.Locked) : ¬HandedOver s c := by
  apply h.not_handedOver (h.touched htouches)
  rw [h.locked hlocked]
  exact nofun

/-- Freeing a connection that is not handed over, when the worker is done with
it. -/
theorem Guarded.alive_update [DecidableEq ι] (h : Guarded s d) {worker : WorkerAt ι}
    (hfree : ¬HandedOver s c) (hpending : ∀ d, worker ≠ .marked d)
    (hattends : ∀ d, ¬worker.Attends d) :
    HandedOver { s with worker := worker, life := Function.update s.life c .freed } d ∨
      worker.Attends d → Function.update s.life c .freed d = .alive := by
  rintro (hhanded | hattended)
  · have hbefore : HandedOver s d := by
      rcases hhanded with (hmarked | htask | hlock) | hcleared
      · exact absurd hmarked (hpending d)
      · exact .inl (.inr (.inl htask))
      · exact .inl (.inr (.inr hlock))
      · exact .inr hcleared
    have hne : d ≠ c := fun heq => hfree (heq ▸ hbefore)
    rw [Function.update_of_ne hne]
    exact h.alive (.inl hbefore)
  · exact absurd hattended (hattends d)

variable [DecidableEq ι]

section

variable (h : Guarded s d)
include h

/-- The mark is cleared only for the task that leaves: one that was not
submitted, or one whose thread has taken the lock. -/
theorem Guarded.flagged_step (hstep : OffloadStep s s') :
    StillMarked s' d → s'.offloaded d = true := by
  have hflagged := h.flagged
  cases hstep with
  | submitFails c hmarked =>
    intro hpending
    by_cases heq : d = c
    · obtain ⟨htask, hlock⟩ := h.unsubmitted (heq ▸ hmarked)
      rcases hpending with hworker | hqueued | hentered
      · cases hworker
      · exact absurd htask hqueued
      · exact absurd hentered hlock
    · grind [StillMarked]
  | poolClears c hentered =>
    intro hpending
    by_cases heq : d = c
    · subst heq
      rcases hpending with hworker | hqueued | hlock
      · exact absurd hentered (h.unsubmitted hworker).2
      · exact absurd (h.released hentered) hqueued
      · cases hlock
    · grind [StillMarked]
  | _ => grind [StillMarked]

theorem Guarded.unsubmitted_step (hstep : OffloadStep s s') :
    s'.worker = .marked d → s'.task d = .none ∧ s'.lock ≠ .pool d .entered := by
  have hunsubmitted := h.unsubmitted
  cases hstep with
  | mark c hhandling =>
    -- The worker handles it, so its mark is clear and nothing is pending.
    intro hmarked
    obtain rfl : c = d := WorkerAt.marked.inj hmarked
    have hclear := h.touched (.inl hhandling)
    have hidle : ¬StillMarked s c :=
      fun hpending => absurd (hclear.symm.trans (h.flagged hpending)) nofun
    rw [StillMarked, not_or, not_or, not_not] at hidle
    exact hidle.2
  | _ => grind

theorem Guarded.released_step (hstep : OffloadStep s s') :
    s'.lock = .pool d .entered → s'.task d = .none := by
  have hreleased := h.released
  have hunsubmitted := h.unsubmitted
  cases hstep with
  | _ => grind

theorem Guarded.touched_step (hstep : OffloadStep s s') :
    s'.worker.Touches d → s'.offloaded d = false := by
  have htouched := h.touched
  cases hstep with
  | _ => grind [WorkerAt.Touches]

/-- While the drain frees a connection, no pool thread can come to clear its
mark: it is clear. -/
theorem Guarded.drained_step (hstep : CalmOffloadStep s s') :
    s'.worker = .drainFreeing d → s'.lock ≠ .pool d .cleared := by
  obtain ⟨hstep, hcalm⟩ := hstep
  have hdrained := h.drained
  cases hstep with
  | poolClears c hentered =>
    rintro hworker hlock
    obtain ⟨rfl, -⟩ := ListLock.pool.inj hlock
    have hflag := h.flagged (.inr (.inr hentered))
    have hclear := h.touched (.inr (.inr (.inr hworker)))
    exact absurd (hclear.symm.trans hflag) nofun
  | drainExamines c hdraining _ _ => exact hcalm d hdraining
  | _ => grind

theorem Guarded.locked_step (hstep : OffloadStep s s') : s'.worker.Locked → s'.lock = .worker := by
  have hlocked := h.locked
  cases hstep with
  | _ => grind [WorkerAt.Locked]

theorem Guarded.gone_step (hstep : OffloadStep s s') :
    s'.shutdown = .poolGone → s'.worker = .exited ∧ s'.task d = .none ∧
      ∀ stage, s'.lock ≠ .pool d stage := by
  have hgone := h.gone
  cases hstep with
  | _ => grind

theorem Guarded.alive_step (hc : ∀ c, Guarded s c) (hstep : OffloadStep s s') :
    HandedOver s' d ∨ s'.worker.Attends d → s'.life d = .alive := by
  have halive := h.alive
  cases hstep with
  | dropFrees c hfreeing =>
    have hfree : ¬HandedOver s c := (hc c).not_handedOver_of_locked (.inr (.inl hfreeing))
        (hfreeing ▸ trivial)
    exact h.alive_update hfree nofun (by simp [WorkerAt.Attends, WorkerAt.Touches])
  | reapFrees c hfreeing =>
    have hfree : ¬HandedOver s c := (hc c).not_handedOver_of_locked (.inr (.inr (.inl hfreeing)))
        (hfreeing ▸ trivial)
    exact h.alive_update hfree nofun (by simp [WorkerAt.Attends, WorkerAt.Touches])
  | drainFrees c hfreeing =>
    have hclear := (hc c).touched (.inr (.inr (.inr hfreeing)))
    have hfree := (hc c).not_handedOver hclear ((hc c).drained hfreeing)
    exact h.alive_update hfree nofun (by simp [WorkerAt.Attends, WorkerAt.Touches])
  | cleanupFrees c hgone _ =>
    obtain ⟨hexited, htask, hlock⟩ := h.gone hgone
    have hidle : ¬(HandedOver s d ∨ s.worker.Attends d) := by
      simp [HandedOver, StillMarked, WorkerAt.Attends, WorkerAt.Touches, hexited, htask, hlock]
    exact fun hused => absurd hused hidle
  | _ => grind [HandedOver, StillMarked, WorkerAt.Attends, WorkerAt.Touches]

end

theorem guarded_step (h : ∀ c, Guarded s c) (hstep : CalmOffloadStep s s') (d : ι) :
    Guarded s' d where
  flagged := (h d).flagged_step hstep.1
  unsubmitted := (h d).unsubmitted_step hstep.1
  released := (h d).released_step hstep.1
  alive := (h d).alive_step h hstep.1
  touched := (h d).touched_step hstep.1
  drained := (h d).drained_step hstep
  locked := (h d).locked_step hstep.1
  gone := (h d).gone_step hstep.1

theorem guarded_of_run (hrun : Relation.ReflTransGen CalmOffloadStep (OffloadState.start ι) s) :
    ∀ c, Guarded s c := by
  induction hrun with
  | refl => exact Guarded.start
  | tail _ hstep ih => exact guarded_step ih hstep

/-- Unless the drain examines a connection while a pool thread is in `epoll_ctl`
for it, no connection is freed while it is handed over, and the worker keeps off
those that are marked. -/
theorem offload_safe_of_calm
    (hrun : Relation.ReflTransGen CalmOffloadStep (OffloadState.start ι) s) :
    OffloadSafe s := by
  have hguarded := guarded_of_run hrun
  constructor
  · intro c hhanded
    rw [(hguarded c).alive (.inl hhanded)]
    exact nofun
  · intro c
    exact (hguarded c).touched

end Safety

/-! ## A connection and its worker's end -/

/-- The pool thread has cleared the mark and is about to re-arm the only
connection; the worker has left its loop, and its drain waits. -/
theorem offload_safe_of_calm_cleared :
    ∃ s : OffloadState Unit,
      Relation.ReflTransGen CalmOffloadStep (OffloadState.start Unit) s ∧
        s.lock = .pool () .cleared ∧ s.worker = .draining ∧ HandedOver s () ∧
        OffloadSafe s := by
  have hcalm : ∀ {s s' : OffloadState Unit}, OffloadStep s s' →
      s.worker ≠ .draining → CalmOffloadStep s s' :=
    fun hstep hworker => ⟨hstep, fun _ hdraining => absurd hdraining hworker⟩
  have hrun : Relation.ReflTransGen CalmOffloadStep (OffloadState.start Unit) _ :=
    .head (hcalm (.accept () rfl rfl) nofun) <|
    .head (hcalm (.dispatch () rfl rfl rfl) nofun) <|
    .head (hcalm (.mark () rfl) nofun) <|
    .head (hcalm (.submit () rfl) nofun) <|
    .head (hcalm (.dispatched () rfl) nofun) <|
    .head (hcalm (.take () rfl nofun) nofun) <|
    .head (hcalm (.poolLocks () rfl rfl) nofun) <|
    .head (hcalm (.poolClears () rfl) nofun) <|
    .single (hcalm (.leave rfl) nofun)
  exact ⟨_, hrun, rfl, rfl, .inr rfl, offload_safe_of_calm hrun⟩

/-- The worker leaves its loop while the pool thread is about to re-arm the only
connection: the drain finds the mark cleared and frees the connection. -/
theorem offload_drain_frees_handedOver :
    ∃ s : OffloadState Unit,
      Relation.ReflTransGen OffloadStep (OffloadState.start Unit) s ∧
        s.lock = .pool () .cleared ∧ s.life () = .freed ∧ ¬OffloadSafe s := by
  have hrun : Relation.ReflTransGen OffloadStep (OffloadState.start Unit) _ :=
    .head (.accept () rfl rfl) <| .head (.dispatch () rfl rfl rfl) <|
    .head (.mark () rfl) <| .head (.submit () rfl) <|
    .head (.dispatched () rfl) <| .head (.take () rfl nofun) <|
    .head (.poolLocks () rfl rfl) <| .head (.poolClears () rfl) <|
    .head (.leave rfl) <| .head (.drainExamines () rfl rfl rfl) <|
    .single (.drainFrees () rfl)
  refine ⟨_, hrun, rfl, rfl, fun hsafe => ?_⟩
  exact hsafe.1 () (.inr rfl) rfl

end Codo.Server
