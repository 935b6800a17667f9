import Codo.Support.Bytes
import Mathlib.Data.List.Infix

/-!
# Buffers drained by non-blocking writes

An outlet is a buffer of which a front part is already written.  Draining it
calls `write` on the rest until every byte is out, the peer would block, or the
call fails.  The results of the calls are given as a list; once it is used up
the peer would block.

Whatever the results are, the bytes written and the rest kept are the rest
there was.
-/

namespace Codo.Support

/-- What one non-blocking `write` does; at most what was asked for is sent. -/
inductive SendResult
  | sent (n : ℕ)
  | wouldBlock
  | failed
  deriving DecidableEq, Repr

/-- The call transfers nothing and would not block. -/
def SendResult.Fails : SendResult → Prop
  | sent n => n = 0
  | wouldBlock => False
  | failed => True

instance : DecidablePred SendResult.Fails
  | .sent n => inferInstanceAs (Decidable (n = 0))
  | .wouldBlock => inferInstanceAs (Decidable False)
  | .failed => inferInstanceAs (Decidable True)

inductive SendOutcome
  | drained
  | blocked
  | failed
  deriving DecidableEq, Repr

/-- A buffer and how many of its bytes are written. -/
structure Outlet where
  bytes : Bytes
  sent : ℕ
  deriving DecidableEq

/-- The state after a drain: the outlet, the bytes written by it, the results
left over, and how it ended. -/
structure Drained where
  outlet : Outlet
  written : Bytes
  results : List SendResult
  outcome : SendOutcome

namespace Outlet

def rest (outlet : Outlet) : Bytes :=
  outlet.bytes.drop outlet.sent

def Pending (outlet : Outlet) : Prop :=
  outlet.sent < outlet.bytes.length

instance (outlet : Outlet) : Decidable outlet.Pending :=
  inferInstanceAs (Decidable (_ < _))

/-- Call `write` on the rest until it is empty or a call does not progress. -/
def drain (outlet : Outlet) : List SendResult → Drained
  | [] => ⟨outlet, [], [], if outlet.Pending then .blocked else .drained⟩
  | result :: results =>
    if outlet.Pending then
      match result with
      | .sent n =>
        if n = 0 then
          ⟨outlet, [], results, .failed⟩
        else
          let n := min n outlet.rest.length
          let drained := drain ⟨outlet.bytes, outlet.sent + n⟩ results
          { drained with written := outlet.rest.take n ++ drained.written }
      | .wouldBlock => ⟨outlet, [], results, .blocked⟩
      | .failed => ⟨outlet, [], results, .failed⟩
    else
      ⟨outlet, [], result :: results, .drained⟩

variable {outlet : Outlet} {results : List SendResult}

theorem rest_eq_nil_iff : outlet.rest = [] ↔ ¬outlet.Pending := by
  rw [rest, List.drop_eq_nil_iff, Pending, not_lt]

@[simp] theorem rest_mk_zero (bytes : Bytes) : (Outlet.mk bytes 0).rest = bytes :=
  List.drop_zero

theorem rest_advance (n : ℕ) :
    (Outlet.mk outlet.bytes (outlet.sent + n)).rest = outlet.rest.drop n := by
  rw [rest, rest, List.drop_drop]

theorem drain_bytes (outlet : Outlet) (results : List SendResult) :
    (outlet.drain results).outlet.bytes = outlet.bytes := by
  fun_induction drain outlet results with
  | case1 | case2 | case4 | case5 | case6 => rfl
  | case3 outlet results _ n _ _ _ ih => exact ih

/-- What a drain does, whatever the results are. -/
structure DrainSpec (outlet : Outlet) (results : List SendResult) (drained : Drained) : Prop where
  conserved : drained.written ++ drained.outlet.rest = outlet.rest
  drained_rest : drained.outcome = .drained → drained.outlet.rest = []
  fails : drained.outcome = .failed → ∃ result ∈ results, result.Fails
  leftover : ∀ result ∈ drained.results, result ∈ results

theorem drainSpec_stop {left : List SendResult} {outcome : SendOutcome}
    (hdrained : outcome = .drained → ¬outlet.Pending)
    (hfails : outcome = .failed → ∃ result ∈ results, result.Fails)
    (hleft : ∀ result ∈ left, result ∈ results) :
    DrainSpec outlet results ⟨outlet, [], left, outcome⟩ := by
  constructor
  · rfl
  · intro houtcome
    exact rest_eq_nil_iff.mpr (hdrained houtcome)
  · exact hfails
  · exact hleft

theorem drain_spec (outlet : Outlet) (results : List SendResult) :
    DrainSpec outlet results (outlet.drain results) := by
  have htail : ∀ {result : SendResult} {results : List SendResult},
      ∀ r ∈ results, r ∈ result :: results := fun _ => List.mem_cons_of_mem _
  fun_induction drain outlet results with
  | case1 outlet =>
    split
    · exact drainSpec_stop nofun nofun nofun
    · exact drainSpec_stop (fun _ => ‹_›) nofun nofun
  | case2 => exact drainSpec_stop nofun (fun _ => ⟨.sent 0, List.mem_cons_self, rfl⟩) htail
  | case3 outlet results _ n _ _ _ hrest =>
    constructor
    · rw [List.append_assoc, hrest.conserved, rest_advance, List.take_append_drop]
    · exact hrest.drained_rest
    · intro houtcome
      obtain ⟨r, hr, hfails⟩ := hrest.fails houtcome
      exact ⟨r, htail r hr, hfails⟩
    · intro r hr
      exact htail r (hrest.leftover r hr)
  | case4 => exact drainSpec_stop nofun nofun htail
  | case5 => exact drainSpec_stop nofun (fun _ => ⟨.failed, List.mem_cons_self, trivial⟩) htail
  | case6 outlet result results hdone =>
    exact drainSpec_stop (fun _ => hdone) nofun fun _ hr => hr

end Outlet

end Codo.Support
