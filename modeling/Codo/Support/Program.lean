import Mathlib.Logic.Basic
import Mathlib.Tactic.Common

/-!
# Command programs

A program that talks to a stateful component is modelled as a tree of
commands: each node issues one command and continues according to the reply.
Programs form a monad, so imperative code is written in `do` notation.

The same program has two meanings.  `Program.run` executes it against a
component given by a function.  `Program.Outcome` collects every result it
may have against a component given by a transition relation, and
`Program.Always` is the corresponding rule of pre- and postconditions.
`Program.Obeys` monitors the order of commands independently of the replies.
The simulation rule `Program.exists_outcome_run` transports results from the
relational component to the functional one, and `Program.Heeds` compares the
runs against two functional ones.
-/

namespace Codo.Support

/-- A program issuing commands from `C`; command `c` is answered by an `R c`. -/
inductive Program (C : Type) (R : C → Type) (α : Type) : Type
  | ret (a : α) : Program C R α
  | call (c : C) (k : R c → Program C R α) : Program C R α

namespace Program

variable {C : Type} {R : C → Type} {α β σ τ π : Type}

def bind : Program C R α → (α → Program C R β) → Program C R β
  | ret a, f => f a
  | call c k, f => call c (fun r => bind (k r) f)

instance : Monad (Program C R) where
  pure := ret
  bind := bind

def issue (c : C) : Program C R (R c) :=
  call c ret

theorem ret_bind (a : α) (f : α → Program C R β) : (ret a >>= f) = f a := rfl

theorem call_bind (c : C) (k : R c → Program C R α) (f : α → Program C R β) :
    (call c k >>= f) = call c (fun r => k r >>= f) := rfl

/-! ## Execution against a function -/

/-- Run a program against a component that answers by `h`. -/
def run (h : (c : C) → τ → R c × τ) : Program C R α → τ → α × τ
  | ret a, t => (a, t)
  | call c k, t => run h (k (h c t).1) (h c t).2

@[simp] theorem run_call (h : (c : C) → τ → R c × τ) (c : C) (k : R c → Program C R α) (t : τ) :
    run h (call c k) t = run h (k (h c t).1) (h c t).2 := rfl

theorem run_bind (h : (c : C) → τ → R c × τ) (p : Program C R α) (f : α → Program C R β) (t : τ) :
    run h (p >>= f) t = run h (f (run h p t).1) (run h p t).2 := by
  induction p generalizing t with
  | ret a => rfl
  | call c k ih => exact ih _ _

@[simp] theorem run_pure (h : (c : C) → τ → R c × τ) (a : α) (t : τ) :
    run h (pure a) t = (a, t) := rfl

/-! ## Execution against a relation -/

/-- `p.Outcome T s a s'`: started in `s`, the program may return `a` in
state `s'` when every command is answered according to `T`. -/
def Outcome (T : (c : C) → σ → R c → σ → Prop) :
    Program C R α → σ → α → σ → Prop
  | ret a, s, b, s' => b = a ∧ s' = s
  | call c k, s, b, s' => ∃ r t, T c s r t ∧ Outcome T (k r) t b s'

/-- Every result of the program satisfies the postcondition `Q`. -/
def Always (T : (c : C) → σ → R c → σ → Prop)
    (p : Program C R α) (s : σ) (Q : α → σ → Prop) : Prop :=
  ∀ a s', Outcome T p s a s' → Q a s'

section Rules

variable {T : (c : C) → σ → R c → σ → Prop}
variable {s s' : σ} {p : Program C R α} {a : α} {Q : α → σ → Prop}

theorem outcome_call {c : C} {k : R c → Program C R α} {b : α} :
    Outcome T (call c k) s b s' ↔ ∃ r t, T c s r t ∧ Outcome T (k r) t b s' := Iff.rfl

variable {f : α → Program C R β}

theorem outcome_bind {b : β} :
    Outcome T (p >>= f) s b s' ↔ ∃ a t, Outcome T p s a t ∧ Outcome T (f a) t b s' := by
  induction p generalizing s with
  | ret a =>
    rw [ret_bind]
    constructor
    · intro h
      exact ⟨a, s, ⟨rfl, rfl⟩, h⟩
    · rintro ⟨a', t, ⟨rfl, rfl⟩, h⟩
      exact h
  | call c k ih =>
    rw [call_bind, outcome_call]
    constructor
    · rintro ⟨r, t, hT, h⟩
      obtain ⟨a, t', hp, hf⟩ := (ih r).mp h
      exact ⟨a, t', ⟨r, t, hT, hp⟩, hf⟩
    · rintro ⟨a, t', ⟨r, t, hT, hp⟩, hf⟩
      exact ⟨r, t, hT, (ih r).mpr ⟨a, t', hp, hf⟩⟩

@[simp] theorem outcome_issue {c : C} {r : R c} : Outcome T (issue c) s r s' ↔ T c s r s' := by
  constructor
  · rintro ⟨r', t, hT, rfl, rfl⟩
    exact hT
  · intro hT
    exact ⟨r, s', hT, rfl, rfl⟩

@[simp] theorem always_ret : Always T (ret a) s Q ↔ Q a s := by
  constructor
  · intro h
    exact h a s ⟨rfl, rfl⟩
  · rintro h _ _ ⟨rfl, rfl⟩
    exact h

@[simp] theorem always_pure : Always T (pure a) s Q ↔ Q a s :=
  always_ret

theorem always_bind {Q : β → σ → Prop} :
    Always T (p >>= f) s Q ↔ Always T p s (fun a t => Always T (f a) t Q) := by
  constructor
  · intro h a t hp b s' hf
    exact h b s' (outcome_bind.mpr ⟨a, t, hp, hf⟩)
  · intro h b s' hpf
    obtain ⟨a, t, hp, hf⟩ := outcome_bind.mp hpf
    exact h a t hp b s' hf

@[simp] theorem always_issue {c : C} {Q : R c → σ → Prop} :
    Always T (issue c) s Q ↔ ∀ r s', T c s r s' → Q r s' := by
  simp only [Always, outcome_issue]

/-- The rule of consequence. -/
theorem Always.mono {P : α → σ → Prop} (h : Always T p s P) (hPQ : ∀ a s', P a s' → Q a s') :
    Always T p s Q :=
  fun a s' hp => hPQ a s' (h a s' hp)

/-- The rule of composition. -/
theorem Always.bind {P : α → σ → Prop} {Q : β → σ → Prop} (h : Always T p s P)
    (hf : ∀ a s', P a s' → Always T (f a) s' Q) : Always T (p >>= f) s Q :=
  always_bind.mpr (h.mono hf)

theorem always_issue_bind {c : C} {f : R c → Program C R α} :
    Always T (issue c >>= f) s Q ↔ ∀ r s', T c s r s' → Always T (f r) s' Q := by
  rw [always_bind, always_issue]

/-- What every command preserves, a program preserves. -/
theorem always_invariant {P : σ → Prop}
    (hstep : ∀ c s r s', T c s r s' → P s → P s') (p : Program C R α)
    (hs : P s) : Always T p s fun _ s' => P s' := by
  intro a s' h
  induction p generalizing s with
  | ret b =>
    obtain ⟨-, rfl⟩ := h
    exact hs
  | call c k ih =>
    obtain ⟨r, t, hT, hrest⟩ := h
    exact ih r (hstep c s r t hT hs) hrest

/-- A component that can always answer lets every program run to its end. -/
theorem exists_outcome (hT : ∀ c s, ∃ r s', T c s r s')
    (p : Program C R α) (s : σ) : ∃ a s', Outcome T p s a s' := by
  induction p generalizing s with
  | ret b => exact ⟨b, s, rfl, rfl⟩
  | call c k ih =>
    obtain ⟨r, t, hstep⟩ := hT c s
    obtain ⟨a, s', h⟩ := ih r t
    exact ⟨a, s', r, t, hstep, h⟩

theorem Outcome.mono {T' : (c : C) → σ → R c → σ → Prop}
    (hT : ∀ c s r s', T c s r s' → T' c s r s') (h : Outcome T p s a s') : Outcome T' p s a s' := by
  induction p generalizing s with
  | ret b => exact h
  | call c k ih =>
    obtain ⟨r, t, hstep, hrest⟩ := h
    exact ⟨r, t, hT c s r t hstep, ih r hrest⟩

/-- What always holds of a less permissive component that can always answer
happens in some run against a more permissive one. -/
theorem Always.exists_outcome {T' : (c : C) → σ → R c → σ → Prop}
    (h : Always T p s Q) (hT : ∀ c s, ∃ r s', T c s r s')
    (hmono : ∀ c s r s', T c s r s' → T' c s r s') : ∃ a s', Outcome T' p s a s' ∧ Q a s' := by
  obtain ⟨a, s', hrun⟩ := Program.exists_outcome hT p s
  exact ⟨a, s', hrun.mono hmono, h a s' hrun⟩

/-- The run against a function is an outcome of every relation that allows its
answers. -/
theorem outcome_run {h : (c : C) → σ → R c × σ}
    (hT : ∀ c s, T c s (h c s).1 (h c s).2) (p : Program C R α) (s : σ) :
    Outcome T p s (run h p s).1 (run h p s).2 := by
  induction p generalizing s with
  | ret a => exact ⟨rfl, rfl⟩
  | call c k ih => exact ⟨_, _, hT c s, ih _ _⟩

/-- Along every run the program issues only commands that satisfy `ok`. -/
def Issues (T : (c : C) → σ → R c → σ → Prop) (ok : C → Prop) :
    Program C R α → σ → Prop
  | ret _, _ => True
  | call c k, s => ok c ∧ ∀ r s', T c s r s' → Issues T ok (k r) s'

theorem issues_issue_bind {ok : C → Prop} {c : C} {f : R c → Program C R α} :
    Issues T ok (issue c >>= f) s ↔ ok c ∧ ∀ r s', T c s r s' → Issues T ok (f r) s' := Iff.rfl

end Rules

/-! ## Monitors and simulation -/

/-- The program only issues commands its monitor allows.  The monitor state
advances with each reply, whatever the reply is, and the postcondition `Q`
holds of every result and final monitor state. -/
def Obeys (ok : C → π → Prop) (upd : (c : C) → R c → π → π) :
    Program C R α → π → (α → π → Prop) → Prop
  | ret a, m, Q => Q a m
  | call c k, m, Q => ok c m ∧ ∀ r, Obeys ok upd (k r) (upd c r m) Q

section Monitors

variable {ok : C → π → Prop} {upd : (c : C) → R c → π → π}
variable {p : Program C R α} {m : π}

theorem obeys_bind {f : α → Program C R β} {Q : β → π → Prop} :
    Obeys ok upd (p >>= f) m Q ↔ Obeys ok upd p m (fun a m' => Obeys ok upd (f a) m' Q) := by
  induction p generalizing m with
  | ret a => exact Iff.rfl
  | call c k ih =>
    rw [call_bind]
    exact and_congr_right fun _ => forall_congr' fun r => ih r

theorem Obeys.mono {P Q : α → π → Prop} (h : Obeys ok upd p m P)
    (hPQ : ∀ a m', P a m' → Q a m') : Obeys ok upd p m Q := by
  induction p generalizing m with
  | ret a => exact hPQ a m h
  | call c k ih => exact ⟨h.1, fun r => ih r (h.2 r)⟩

/-- Bad states stay bad, so a program started in one can end in one. -/
theorem exists_outcome_of_bad {T : (c : C) → σ → R c → σ → Prop}
    {bad : σ → Prop} (hbad : ∀ c s, bad s → ∃ r s', T c s r s' ∧ bad s')
    (p : Program C R α) {s : σ} (hs : bad s) : ∃ a s', Outcome T p s a s' ∧ bad s' := by
  induction p generalizing s with
  | ret a => exact ⟨a, s, ⟨rfl, rfl⟩, hs⟩
  | call c k ih =>
    obtain ⟨r, t, hT, ht⟩ := hbad c s hs
    obtain ⟨a, s', hout, hs'⟩ := ih r ht
    exact ⟨a, s', ⟨r, t, hT, hout⟩, hs'⟩

/-- Simulation.  Let every allowed command either keep the relation `sim`
between the functional component `h` and the relational one `T`, or be answered
by `T` with a bad state.  Then each run of a well-behaved program that never
ends in a bad state is matched by an outcome. -/
theorem exists_outcome_run {T : (c : C) → σ → R c → σ → Prop} {bad : σ → Prop}
    {h : (c : C) → τ → R c × τ} {sim : τ → σ → π → Prop}
    (hbad : ∀ c s, bad s → ∃ r s', T c s r s' ∧ bad s') (hstep : ∀ c t s m, sim t s m → ok c m →
      (∃ s', T c s (h c t).1 s' ∧ sim (h c t).2 s' (upd c (h c t).1 m)) ∨
        ∃ r s', T c s r s' ∧ bad s') {t : τ} {s : σ} {Q : α → π → Prop}
    (hp : Obeys ok upd p m Q) (hsim : sim t s m) (hsafe : Always T p s fun _ s' => ¬ bad s') :
    ∃ s' m', Outcome T p s (run h p t).1 s' ∧ sim (run h p t).2 s' m' ∧ Q (run h p t).1 m' := by
  induction p generalizing t s m with
  | ret a => exact ⟨s, m, ⟨rfl, rfl⟩, hsim, hp⟩
  | call c k ih =>
    rcases hstep c t s m hsim hp.1 with ⟨s₁, hT, hsim₁⟩ | ⟨r, s₁, hT, hs₁⟩
    · have hrest : Always T (k (h c t).1) s₁ fun _ s' => ¬ bad s' :=
        fun a s' hout => hsafe a s' ⟨_, s₁, hT, hout⟩
      obtain ⟨s', m', hout, hsim', hQ⟩ := ih _ (hp.2 _) hsim₁ hrest
      exact ⟨s', m', ⟨_, s₁, hT, hout⟩, hsim', hQ⟩
    · obtain ⟨a, s', hout, hs'⟩ := exists_outcome_of_bad hbad (k r) hs₁
      exact absurd hs' (hsafe a s' ⟨r, s₁, hT, hout⟩)

end Monitors

/-! ## Two functional components -/

/-- Along the run against `h` every command satisfies `ok`, and the run ends
in `Q`. -/
def Heeds (h : (c : C) → τ → R c × τ) (ok : C → τ → Prop) :
    Program C R α → τ → (α → τ → Prop) → Prop
  | ret a, t, Q => Q a t
  | call c k, t, Q => ok c t ∧ Heeds h ok (k (h c t).1) (h c t).2 Q

section Heeds

variable {h : (c : C) → τ → R c × τ} {ok : C → τ → Prop}
variable {p : Program C R α} {t : τ}

theorem heeds_bind {f : α → Program C R β} {Q : β → τ → Prop} :
    Heeds h ok (p >>= f) t Q ↔ Heeds h ok p t (fun a t' => Heeds h ok (f a) t' Q) := by
  induction p generalizing t with
  | ret a => exact Iff.rfl
  | call c k ih =>
    rw [call_bind]
    exact and_congr_right fun _ => ih _

theorem heeds_issue_bind {c : C} {f : R c → Program C R β} {Q : β → τ → Prop} :
    Heeds h ok (issue c >>= f) t Q ↔ ok c t ∧ Heeds h ok (f (h c t).1) (h c t).2 Q := Iff.rfl

theorem Heeds.mono {P Q : α → τ → Prop} (hp : Heeds h ok p t P)
    (hPQ : ∀ a t', P a t' → Q a t') : Heeds h ok p t Q := by
  induction p generalizing t with
  | ret a => exact hPQ a t hp
  | call c k ih => exact ⟨hp.1, ih _ hp.2⟩

/-- Two components that give the same replies to the commands of a run give
the same result. -/
theorem Heeds.run_eq {ρ : Type} {h' : (c : C) → ρ → R c × ρ}
    (sim : τ → ρ → Prop) (hstep : ∀ c t u, sim t u → ok c t →
      (h' c u).1 = (h c t).1 ∧ sim (h c t).2 (h' c u).2) {u : ρ}
    {Q : α → τ → Prop} (hp : Heeds h ok p t Q) (hsim : sim t u) :
    (run h' p u).1 = (run h p t).1 := by
  induction p generalizing t u with
  | ret a => rfl
  | call c k ih =>
    obtain ⟨hreply, hsim'⟩ := hstep c t u hsim hp.1
    rw [run_call, run_call, hreply]
    exact ih _ hp.2 hsim'

end Heeds

end Program

end Codo.Support
