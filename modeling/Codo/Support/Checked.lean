import Codo.Support.Bytes

/-!
# Checked memory accesses

Code that works on raw memory is run here with every access checked.  A read
or a write that does not lie inside its block, a subtraction of sizes that
would wrap around and a loop that does not end are faults, which stop the run.
Return codes are ordinary results, so a run that yields `Except.ok` has made
no invalid access at all.

Code that edits memory in place is a state transformer over the memory it
edits.  Whatever it has written before it returns is in the final state, also
when it returns an error code.
-/

namespace Codo.Support

/-- Why a checked run stops. -/
inductive Fault
  | outside
  | underflow
  | endless
  deriving DecidableEq

/-- Results of checked code that only reads memory. -/
abbrev Checked := Except Fault

/-- Checked code that edits a memory of type `σ` in place. -/
abbrev InPlace (σ : Type) := StateT σ Checked

variable {σ α β : Type}

/-- A subtraction of unsigned sizes. -/
def checkedSub (a b : ℕ) : Checked ℕ :=
  if b ≤ a then .ok (a - b) else .error .underflow

theorem checkedSub_of_le {a b : ℕ} (h : b ≤ a) : checkedSub a b = .ok (a - b) :=
  if_pos h

@[simp] theorem Checked.ok_bind (a : α) (f : α → Checked β) :
    ((Except.ok a : Checked α) >>= f) = f a := rfl

namespace Block

variable {n : ℕ}
variable {b : Block n} {i : ℕ}

/-- Read `len` bytes at offset `i`. -/
def load (b : Block n) (i len : ℕ) : Checked Bytes :=
  if i + len ≤ n then .ok (slice b.bytes i len) else .error .outside

def byte (b : Block n) (i : ℕ) : Checked UInt8 :=
  (b.bytes[i]?).elim (.error .outside) .ok

/-- Write `src` at offset `i`. -/
def store (b : Block n) (i : ℕ) (src : Bytes) : Checked (Block n) :=
  if i + src.length ≤ n then .ok (b.blit i src) else .error .outside

theorem load_of_le {len : ℕ} (h : i + len ≤ n) : b.load i len = .ok (slice b.bytes i len) :=
  if_pos h

theorem store_of_le {src : Bytes} (h : i + src.length ≤ n) : b.store i src = .ok (b.blit i src) :=
  if_pos h

/-- `memmove` inside one block. -/
def memmove (b : Block n) (dst src len : ℕ) : Checked (Block n) := do
  b.store dst (← b.load src len)

theorem memmove_of_le {dst src len : ℕ} (hsrc : src + len ≤ n) (hdst : dst + len ≤ n) :
    b.memmove dst src len = .ok (b.blit dst (slice b.bytes src len)) := by
  have hlen : (slice b.bytes src len).length = len := length_slice_of_le (b.length_eq.symm ▸ hsrc)
  rw [memmove, load_of_le hsrc, Checked.ok_bind, store_of_le (by omega)]

theorem blit_nil (i : ℕ) : b.blit i [] = b := by
  apply ext
  by_cases h : i + ([] : Bytes).length ≤ n
  · simp [blit_bytes h]
  · rw [blit, dif_neg h]

theorem blit_blit {j : ℕ} {xs ys : Bytes} (hj : j = i + xs.length) (h : j + ys.length ≤ n) :
    (b.blit i xs).blit j ys = b.blit i (xs ++ ys) := by
  subst hj
  have hlen : i + (xs ++ ys).length ≤ n := by
    rw [List.length_append]
    omega
  apply ext
  rw [blit_bytes h, take_add_blit (by omega),
    drop_blit_of_le (by omega) (by omega), blit_bytes hlen, List.length_append, ← Nat.add_assoc]
  simp

/-- Copy the parts into a buffer one behind the other; the result is the
buffer and the number of bytes in it. -/
def stage : List Bytes → Block n → ℕ → Checked (Block n × ℕ)
  | [], b, size => .ok (b, size)
  | part :: rest, b, size => do
    stage rest (← b.store size part) (size + part.length)

theorem stage_of_le {parts : List Bytes} {size : ℕ} (h : size + parts.flatten.length ≤ n) :
    stage parts b size = .ok (b.blit size parts.flatten, size + parts.flatten.length) := by
  induction parts generalizing b size with
  | nil => simp [stage, blit_nil]
  | cons part rest ih =>
    rw [List.flatten_cons, List.length_append] at h ⊢
    rw [stage, store_of_le (by omega), Checked.ok_bind, ih (by omega),
      blit_blit rfl (by omega), Nat.add_assoc]

theorem stage_of_lt {parts : List Bytes} {size : ℕ} (hsize : size ≤ n)
    (h : n < size + parts.flatten.length) : stage parts b size = .error .outside := by
  induction parts generalizing b size with
  | nil =>
    rw [List.flatten_nil, List.length_nil] at h
    omega
  | cons part rest ih =>
    rw [List.flatten_cons, List.length_append] at h
    by_cases hpart : size + part.length ≤ n
    · rw [stage, store_of_le hpart, Checked.ok_bind]
      exact ih hpart (by omega)
    · rw [stage, store, if_neg hpart]
      rfl

end Block

namespace InPlace

variable {s : σ}

/-- Replace the state by what a checked function makes of it. -/
def edit (f : σ → Checked σ) : InPlace σ Unit :=
  fun s => do return ((), ← f s)

theorem bind_apply (p : InPlace σ α) (f : α → InPlace σ β) (s : σ) :
    (p >>= f) s = (p s >>= fun r => f r.1 r.2) := rfl

theorem edit_apply_of_eq {f : σ → Checked σ} {s' : σ} (h : f s = .ok s') :
    edit f s = .ok ((), s') := by
  rw [edit, h]
  rfl

theorem bind_of_eq {p : InPlace σ α} {f : α → InPlace σ β} {s' : σ} {a : α}
    (h : p s = .ok (a, s')) : (p >>= f) s = f a s' := by
  rw [bind_apply, h]
  rfl

theorem lift_bind_of_eq {m : Checked α} {f : α → InPlace σ β} {a : α}
    (h : m = .ok a) : (liftM m >>= f) s = f a s := by
  rw [h]
  rfl

theorem get_bind (f : σ → InPlace σ β) (s : σ) : (get >>= f) s = f s s := rfl

theorem modify_bind (g : σ → σ) (f : PUnit → InPlace σ β) (s : σ) :
    (modify g >>= f) s = f ⟨⟩ (g s) := rfl

end InPlace

end Codo.Support
