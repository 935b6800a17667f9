import Codo.Support.Bytes

/-!
# Appending a buffer with `write`

A buffer is appended to a file by calling `write` until every byte is out.  A
call may be interrupted, may fail, or may transfer only a part.  The results
of the calls are given as a list; once it is used up, calls transfer all they
are asked to.

The loop appends the whole buffer or, when it gives up, a proper front part
of it.
-/

namespace Codo.Support

open List

inductive WriteResult
  | eintr
  | error
  | wrote (n : ℕ)
  deriving DecidableEq

/-- The call neither fails nor transfers nothing. -/
def WriteResult.Soft : WriteResult → Prop
  | eintr => True
  | error => False
  | wrote n => 0 < n

instance : DecidablePred WriteResult.Soft
  | .eintr => inferInstanceAs (Decidable True)
  | .error => inferInstanceAs (Decidable False)
  | .wrote n => inferInstanceAs (Decidable (0 < n))

/-- How a write loop ended. -/
structure WriteEnd where
  ok : Bool
  file : Bytes
  results : List WriteResult
  deriving DecidableEq

/-- Append `rest` to `file`, retrying interrupted and partial calls. -/
def writeLoop : List WriteResult → Bytes → Bytes → WriteEnd
  | results, file, [] => ⟨true, file, results⟩
  | [], file, rest => ⟨true, file ++ rest, []⟩
  | .eintr :: results, file, rest => writeLoop results file rest
  | .error :: results, file, _ => ⟨false, file, results⟩
  | .wrote n :: results, file, rest =>
    if n = 0 then ⟨false, file, results⟩
    else writeLoop results (file ++ rest.take n) (rest.drop n)

/-- The number of bytes the loop transfers before it gives up, and `0` when it
does not give up. -/
def tornBytes : List WriteResult → ℕ → ℕ → ℕ
  | _, _, 0 => 0
  | [], _, _ => 0
  | .eintr :: results, written, left => tornBytes results written left
  | .error :: _, written, _ => written
  | .wrote n :: results, written, left =>
    if n = 0 then written
    else tornBytes results (written + min n left) (left - n)

section WriteLoop

variable {results : List WriteResult} {file rest : Bytes}

@[simp] theorem writeLoop_nil_rest : writeLoop results file [] = ⟨true, file, results⟩ := by
  cases results <;> rfl

@[simp] theorem tornBytes_zero (written : ℕ) : tornBytes results written 0 = 0 := by
  cases results <;> rfl

/-- What the loop does.  It uses up a first part of the results; it appends the
whole buffer, or it meets a result that is not soft and gives up behind the
first `tornBytes` bytes. -/
theorem writeLoop_cases (written : ℕ) :
    ∃ used, results = used ++ (writeLoop results file rest).results ∧
      (((writeLoop results file rest).ok = true ∧
          (writeLoop results file rest).file = file ++ rest ∧
          tornBytes results written rest.length = 0) ∨
        (writeLoop results file rest).ok = false ∧ (∃ r ∈ used, ¬r.Soft) ∧
          ∃ front, (writeLoop results file rest).file = file ++ front ∧
            front.length + written = tornBytes results written rest.length) := by
  fun_induction writeLoop results file rest generalizing written with
  | case1 results file => exact ⟨[], rfl, .inl ⟨rfl, (append_nil file).symm, tornBytes_zero _⟩⟩
  | case2 file rest hrest =>
    obtain ⟨b, rest, rfl⟩ := exists_cons_of_ne_nil hrest
    exact ⟨[], rfl, .inl ⟨rfl, rfl, rfl⟩⟩
  | case3 results file rest hrest ih =>
    obtain ⟨b, rest, rfl⟩ := exists_cons_of_ne_nil hrest
    obtain ⟨used, hused, hdone | ⟨hfail, ⟨r, hr, hhard⟩, hfront⟩⟩ := ih written
    · exact ⟨.eintr :: used, congrArg _ hused, .inl hdone⟩
    · exact ⟨.eintr :: used, congrArg _ hused, .inr ⟨hfail, ⟨r, .tail _ hr, hhard⟩, hfront⟩⟩
  | case4 results file rest hrest =>
    obtain ⟨b, rest, rfl⟩ := exists_cons_of_ne_nil hrest
    exact ⟨[.error], rfl, .inr ⟨rfl, ⟨.error, .head _, id⟩, [], (append_nil file).symm, by
      simp [tornBytes]⟩⟩
  | case5 results file rest hrest =>
    obtain ⟨b, rest, rfl⟩ := exists_cons_of_ne_nil hrest
    exact ⟨[.wrote 0], rfl, .inr ⟨rfl, ⟨.wrote 0, .head _, lt_irrefl 0⟩, [],
      (append_nil file).symm, by simp [tornBytes]⟩⟩
  | case6 n results file rest hrest hn ih =>
    obtain ⟨b, rest, rfl⟩ := exists_cons_of_ne_nil hrest
    have htorn : tornBytes (.wrote n :: results) written (b :: rest).length =
        tornBytes results (written + min n (b :: rest).length) ((b :: rest).drop n).length := by
      rw [length_drop]
      simp [tornBytes, hn]
    obtain ⟨used, hused, ⟨hok, hfile, hzero⟩ | ⟨hfail, ⟨r, hr, hhard⟩, front, hfile, hlen⟩⟩ :=
      ih (written + min n (b :: rest).length)
    · refine ⟨.wrote n :: used, congrArg _ hused, .inl ⟨hok, ?_, htorn.trans hzero⟩⟩
      rw [hfile, append_assoc, take_append_drop]
    · refine ⟨.wrote n :: used, congrArg _ hused, .inr ⟨hfail, ⟨r, .tail _ hr, hhard⟩,
        (b :: rest).take n ++ front, by rw [hfile, append_assoc], ?_⟩⟩
      rw [htorn, ← hlen, length_append, length_take]
      omega

theorem writeLoop_file_of_ok (h : (writeLoop results file rest).ok = true) :
    (writeLoop results file rest).file = file ++ rest := by
  obtain ⟨-, -, ⟨-, hfile, -⟩ | ⟨hfail, -⟩⟩ := @writeLoop_cases results file rest 0
  · exact hfile
  · cases h.symm.trans hfail

theorem tornBytes_of_ok (h : (writeLoop results file rest).ok = true) :
    tornBytes results 0 rest.length = 0 := by
  obtain ⟨-, -, ⟨-, -, hzero⟩ | ⟨hfail, -⟩⟩ := @writeLoop_cases results file rest 0
  · exact hzero
  · cases h.symm.trans hfail

theorem writeLoop_ok_of_soft (h : ∀ r ∈ results, r.Soft) :
    (writeLoop results file rest).ok = true ∧
      ∀ r ∈ (writeLoop results file rest).results, r.Soft := by
  obtain ⟨used, hused, hcases⟩ := @writeLoop_cases results file rest 0
  rw [hused] at h
  refine ⟨?_, fun r hr => h r (mem_append_right _ hr)⟩
  rcases hcases with ⟨hok, -⟩ | ⟨-, ⟨r, hr, hhard⟩, -⟩
  · exact hok
  · exact absurd (h r (mem_append_left _ hr)) hhard

end WriteLoop

end Codo.Support
