import Codo.Support.Program
import Mathlib.Data.Nat.Basic

/-!
# Counting commands and following links

`Program.issued` counts the commands of one run, `Program.AtMost` bounds the
count over every run, whatever the replies.  `EndsWithin` and `Follows` are
about the chain a partial function draws from a starting point, which is what
a loop over linked data walks along.
-/

namespace Codo.Support

namespace Program

variable {C : Type} {R : C → Type} {α β τ : Type} {w : C → ℕ}

/-- The weight of the commands the run against `h` issues. -/
def issued (w : C → ℕ) (h : (c : C) → τ → R c × τ) :
    Program C R α → τ → ℕ
  | ret _, _ => 0
  | call c k, t => w c + issued w h (k (h c t).1) (h c t).2

@[simp] theorem issued_pure (h : (c : C) → τ → R c × τ) (a : α) (t : τ) :
    issued w h (pure a) t = 0 := rfl

/-- Every run of the program issues commands of weight at most `n`. -/
def AtMost (w : C → ℕ) : Program C R α → ℕ → Prop
  | ret _, _ => True
  | call c k, n => w c ≤ n ∧ ∀ r, AtMost w (k r) (n - w c)

@[simp] theorem atMost_pure {a : α} {n : ℕ} :
    AtMost w (pure a : Program C R α) n := trivial

theorem AtMost.mono {p : Program C R α} {m n : ℕ} (h : AtMost w p m)
    (hmn : m ≤ n) : AtMost w p n := by
  induction p generalizing m n with
  | ret a => exact trivial
  | call c k ih => exact ⟨Nat.le_trans h.1 hmn, fun r => ih r (h.2 r) (Nat.sub_le_sub_right hmn _)⟩

theorem AtMost.bind {p : Program C R α} {f : α → Program C R β} {m n : ℕ}
    (hp : AtMost w p m) (hf : ∀ a, AtMost w (f a) n) : AtMost w (p >>= f) (m + n) := by
  induction p generalizing m with
  | ret a => exact (hf a).mono (Nat.le_add_left n m)
  | call c k ih =>
    refine ⟨Nat.le_trans hp.1 (Nat.le_add_right m n), fun r => ?_⟩
    rw [Nat.sub_add_comm hp.1]
    exact ih r (hp.2 r)

end Program

section Chains

variable {α : Type*} {next : α → Option α} {a b c : α} {m n : ℕ}

/-- Following `next` from `a` meets at most `n` points, `a` included. -/
def EndsWithin (next : α → Option α) : ℕ → α → Prop
  | 0, _ => False
  | n + 1, a => ∀ b, next a = some b → EndsWithin next n b

/-- Following `next` from a point leads to another. -/
inductive Follows (next : α → Option α) : α → α → Prop
  | here (a : α) : Follows next a a
  | step {a b c : α} (hab : next a = some b) (hbc : Follows next b c) :
      Follows next a c

theorem endsWithin_of_none (h : next a = none) : EndsWithin next (n + 1) a := by
  intro b hb
  rw [h] at hb
  cases hb

theorem endsWithin_succ_iff (h : next a = some b) :
    EndsWithin next (n + 1) a ↔ EndsWithin next n b := by
  constructor
  · intro hends
    exact hends b h
  · intro hends b' hb'
    rw [h, Option.some_inj] at hb'
    exact hb' ▸ hends

/-- A point that leads to itself is the start of an endless chain. -/
theorem not_endsWithin_of_loop (h : next a = some a) : ¬ EndsWithin next n a := by
  induction n with
  | zero => exact id
  | succ n ih => exact fun hends => ih ((endsWithin_succ_iff h).mp hends)

theorem Follows.end_unique (hb : Follows next a b) (hc : Follows next a c)
    (hbend : next b = none) (hcend : next c = none) : b = c := by
  induction hb with
  | here a =>
    cases hc with
    | here => rfl
    | step hac _ =>
      rw [hbend] at hac
      cases hac
  | step hab _ ih =>
    cases hc with
    | here =>
      rw [hcend] at hab
      cases hab
    | step hab' hc' =>
      rw [hab, Option.some_inj] at hab'
      exact ih (hab' ▸ hc') hbend

end Chains

end Codo.Support
