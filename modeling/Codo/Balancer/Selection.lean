import Codo.Support.Rotation
import Mathlib.Data.Fin.VecNotation
import Mathlib.Logic.Relation

/-!
# Weighted round-robin selection

The balancer picks a backend for every new connection.  Healthy backends gain
their weight, the one with the largest current weight is picked, and it pays the
sum of the healthy weights.

`int` values are integers here, and a selection lists every `int` it computes.
For the weights and the number of backends the configuration admits, all of them
fit into 32 bits, whatever happens to the health of the backends in between.
-/

namespace Codo.Balancer

open Support Function Option Relation List

/-! ## Backends -/

def maxBackends : ℕ := 100

def maxBackendWeight : ℤ := 10000

def healthFailureThreshold : ℤ := 3

def healthRecoverySecs : ℤ := 30

/-- The fields of `backend_t` that selection and health keeping use. -/
structure Backend where
  currentWeight : ℤ
  weight : ℤ
  failedRequests : ℤ
  consecutiveFailures : ℤ
  healthStatus : ℤ
  lastHealthCheck : ℤ
  deriving DecidableEq, Repr

variable {n : ℕ}

/-- A backend as `add_backend` registers it. -/
def addBackend (weight : ℤ) : Backend where
  currentWeight := 0
  weight := if 0 < weight then weight else 1
  failedRequests := 0
  consecutiveFailures := 0
  healthStatus := 1
  lastHealthCheck := 0

def markBackendFailure (now : ℤ) (backend : Backend) : Backend :=
  let failures := backend.consecutiveFailures + 1
  { backend with
    failedRequests := backend.failedRequests + 1
    consecutiveFailures := failures
    lastHealthCheck := now
    healthStatus :=
      if healthFailureThreshold ≤ failures then 0 else backend.healthStatus }

def markBackendSuccess (backend : Backend) : Backend :=
  if backend.consecutiveFailures ≠ 0 ∨ backend.healthStatus ≠ 1 then
    { backend with consecutiveFailures := 0, healthStatus := 1 }
  else
    backend

/-- One iteration of `passive_recovery`. -/
def recover (now : ℤ) (backend : Backend) : Backend :=
  if backend.healthStatus = 0 ∧ healthRecoverySecs ≤ now - backend.lastHealthCheck then
    { backend with healthStatus := 1, consecutiveFailures := 0 }
  else
    backend

/-- Readmit the backends whose last failure is far enough in the past. -/
def passiveRecovery (now : ℤ) (backends : Fin n → Backend) : Fin n → Backend :=
  fun i => recover now (backends i)

/-- Nothing but the health of the backends differs. -/
def SameWeights (backends backends' : Fin n → Backend) : Prop :=
  ∀ i, (backends' i).weight = (backends i).weight ∧
    (backends' i).currentWeight = (backends i).currentWeight

theorem sameWeights_passiveRecovery (now : ℤ) (backends : Fin n → Backend) :
    SameWeights backends (passiveRecovery now backends) := by
  intro i
  rw [passiveRecovery, recover]
  split <;> exact ⟨rfl, rfl⟩

theorem sameWeights_update {backends : Fin n → Backend} {i : Fin n}
    {backend : Backend} (hweight : backend.weight = (backends i).weight)
    (hcurrent : backend.currentWeight = (backends i).currentWeight) :
    SameWeights backends (update backends i backend) := by
  intro j
  by_cases hj : j = i
  · subst hj
    rw [update_self]
    exact ⟨hweight, hcurrent⟩
  · rw [update_of_ne hj]
    exact ⟨rfl, rfl⟩

theorem sameWeights_markBackendFailure (now : ℤ) (backends : Fin n → Backend) (i : Fin n) :
    SameWeights backends (update backends i (markBackendFailure now (backends i))) :=
  sameWeights_update rfl rfl

theorem sameWeights_markBackendSuccess (backends : Fin n → Backend) (i : Fin n) :
    SameWeights backends (update backends i (markBackendSuccess (backends i))) := by
  rw [markBackendSuccess]
  split <;> exact sameWeights_update rfl rfl

/-! ## Selection -/

/-- `total_weight`, and the values it took. -/
structure Tally where
  totalWeight : ℤ
  computed : List ℤ

/-- One iteration of the loop that adds up the healthy weights. -/
def addWeight (backends : Fin n → Backend) (tally : Tally) (i : Fin n) : Tally :=
  if (backends i).healthStatus = 1 then
    let total := tally.totalWeight + (backends i).weight
    ⟨total, tally.computed ++ [total]⟩
  else
    tally

/-- The variables of the loop that looks for the largest current weight. -/
structure Search (n : ℕ) where
  backends : Fin n → Backend
  selected : Option (Fin n)
  bestWeight : ℤ
  computed : List ℤ

/-- One iteration of that loop: the first healthy backend always counts, a later
one only when it is strictly better. -/
def consider (search : Search n) (i : Fin n) : Search n :=
  if (search.backends i).healthStatus ≠ 1 then
    search
  else
    let current := (search.backends i).currentWeight + (search.backends i).weight
    let backends := update search.backends i { search.backends i with currentWeight := current }
    let computed := search.computed ++ [current]
    if search.selected = none ∨ search.bestWeight < current then
      ⟨backends, some i, current, computed⟩
    else
      ⟨backends, search.selected, search.bestWeight, computed⟩

/-- The backend picked, the backends after the call, and the `int` values the
call computed. -/
structure Selection (n : ℕ) where
  selected : Option (Fin n)
  backends : Fin n → Backend
  computed : List ℤ

/-- Smooth weighted round-robin selection at the monotonic time `now`. -/
def backendRoundRobinSelect (now : ℤ) (backends : Fin n → Backend) : Selection n :=
  let recovered := passiveRecovery now backends
  let tally := (List.finRange n).foldl (addWeight recovered) ⟨0, []⟩
  if tally.totalWeight = 0 then
    ⟨none, recovered, tally.computed⟩
  else
    let search := (List.finRange n).foldl consider ⟨recovered, none, 0, tally.computed⟩
    match search.selected with
    | none => ⟨none, search.backends, search.computed⟩
    | some i =>
      let current := (search.backends i).currentWeight - tally.totalWeight
      ⟨some i, update search.backends i { search.backends i with currentWeight := current },
        search.computed ++ [current]⟩

/-! ## What one selection does -/

def weights (backends : Fin n → Backend) : Fin n → ℤ :=
  fun i => (backends i).weight

def currentWeights (backends : Fin n → Backend) : Fin n → ℤ :=
  fun i => (backends i).currentWeight

def healthy (backends : Fin n → Backend) : Finset (Fin n) :=
  Finset.univ.filter fun i => (backends i).healthStatus = 1

theorem mem_healthy {backends : Fin n → Backend} {i : Fin n} :
    i ∈ healthy backends ↔ (backends i).healthStatus = 1 := by
  simp [healthy]

theorem SameWeights.weights_eq {backends backends' : Fin n → Backend}
    (h : SameWeights backends backends') : weights backends' = weights backends :=
  funext fun i => (h i).1

theorem SameWeights.currentWeights_eq {backends backends' : Fin n → Backend}
    (h : SameWeights backends backends') : currentWeights backends' = currentWeights backends :=
  funext fun i => (h i).2

/-- The current weights once the healthy backends have gained theirs. -/
def gained (backends : Fin n → Backend) : Fin n → ℤ :=
  credit (weights backends) (healthy backends) (currentWeights backends)

theorem gained_of_mem {backends : Fin n → Backend} {i : Fin n} (hi : i ∈ healthy backends) :
    gained backends i = (backends i).currentWeight + (backends i).weight := by
  rw [gained, credit, if_pos hi]
  rfl

theorem gained_of_notMem {backends : Fin n → Backend} {i : Fin n} (hi : i ∉ healthy backends) :
    gained backends i = (backends i).currentWeight := by
  rw [gained, credit, if_neg hi]
  rfl

/-- The first loop after the backends in `A`. -/
structure Tallied (backends : Fin n → Backend) (A : Finset (Fin n)) (tally : Tally) : Prop where
  total : tally.totalWeight = ∑ i ∈ A ∩ healthy backends, weights backends i
  sums : ∀ v ∈ tally.computed, ∃ B, v = ∑ i ∈ B, weights backends i

theorem Tallied.addWeight {backends : Fin n → Backend} {A : Finset (Fin n)}
    {tally : Tally} {i : Fin n} (hi : i ∉ A) (h : Tallied backends A tally) :
    Tallied backends (insert i A) (addWeight backends tally i) := by
  rw [Balancer.addWeight]
  split
  case isTrue hhealth =>
    have hin := mem_healthy.mpr hhealth
    have hnew : i ∉ A ∩ healthy backends := fun hmem => hi (Finset.mem_inter.mp hmem).1
    have htotal : tally.totalWeight + (backends i).weight =
        ∑ i ∈ insert i A ∩ healthy backends, weights backends i := by
      rw [Finset.insert_inter_of_mem hin, Finset.sum_insert hnew, h.total, add_comm]
      rfl
    constructor
    · exact htotal
    · intro v hv
      obtain hold | hlast := mem_append.mp hv
      · exact h.sums v hold
      · exact ⟨_, (mem_singleton.mp hlast).trans htotal⟩
  case isFalse hhealth =>
    have hout : i ∉ healthy backends := fun hin => hhealth (mem_healthy.mp hin)
    constructor
    · rw [Finset.insert_inter_of_notMem hout]
      exact h.total
    · exact h.sums

theorem tallied (backends : Fin n → Backend) :
    Tallied backends Finset.univ ((List.finRange n).foldl (addWeight backends) ⟨0, []⟩) := by
  refine foldl_finRange ?_ fun A tally i hi h => h.addWeight hi
  constructor
  · rw [Finset.empty_inter, Finset.sum_empty]
  · intro v hv
    exact absurd hv not_mem_nil

/-- The second loop after the backends in `A`, from `backends`. -/
structure Searched (backends : Fin n → Backend) (before : List ℤ)
    (A : Finset (Fin n)) (search : Search n) : Prop where
  same : ∀ i, search.backends i =
    { backends i with
      currentWeight :=
        if i ∈ A then gained backends i else (backends i).currentWeight }
  unselected : search.selected = none → A ∩ healthy backends = ∅
  best : ∀ i, search.selected = some i →
    i ∈ A ∩ healthy backends ∧ search.bestWeight = gained backends i ∧
      ∀ j ∈ A ∩ healthy backends, gained backends j ≤ gained backends i
  computed : ∀ v ∈ search.computed, v ∈ before ∨ ∃ i, v = gained backends i

section Search

variable {backends : Fin n → Backend} {before : List ℤ} {A : Finset (Fin n)}
  {search : Search n} {i : Fin n}

section

variable (h : Searched backends before A search)
include h

theorem Searched.at_new (hi : i ∉ A) : search.backends i = backends i := by
  rw [h.same, if_neg hi]

theorem Searched.skip (hout : i ∉ healthy backends) :
    Searched backends before (insert i A) search := by
  have hinter : insert i A ∩ healthy backends = A ∩ healthy backends :=
    Finset.insert_inter_of_notMem hout
  constructor
  · intro j
    rw [h.same]
    by_cases hj : j = i
    · subst hj
      simp only [Finset.mem_insert_self, gained_of_notMem hout, ite_self]
    · simp only [Finset.mem_insert, hj, false_or]
  · rw [hinter]
    exact h.unselected
  · rw [hinter]
    exact h.best
  · exact h.computed

/-- A healthy backend gains its weight, whether or not it is selected. -/
theorem Searched.gain (hi : i ∉ A) {selected : Option (Fin n)} {bestWeight : ℤ}
    (hunselected : selected ≠ none) (hbest : ∀ j, selected = some j →
      j ∈ insert i A ∩ healthy backends ∧ bestWeight = gained backends j ∧
        ∀ k ∈ insert i A ∩ healthy backends, gained backends k ≤ gained backends j) :
    Searched backends before (insert i A) ⟨update search.backends i
          { backends i with currentWeight := gained backends i },
        selected, bestWeight, search.computed ++ [gained backends i]⟩ := by
  constructor
  · intro j
    by_cases hj : j = i
    · subst hj
      simp only [update_self, Finset.mem_insert_self, if_true]
    · simp only [update_of_ne hj, h.same, Finset.mem_insert, hj, false_or]
  · intro hnone
    exact absurd hnone hunselected
  · exact hbest
  · intro v hv
    obtain hold | hlast := mem_append.mp hv
    · exact h.computed v hold
    · exact .inr ⟨i, mem_singleton.mp hlast⟩

theorem Searched.consider (hi : i ∉ A) :
    Searched backends before (insert i A) (consider search i) := by
  rw [Balancer.consider, h.at_new hi]
  split
  case isTrue hhealth => exact h.skip fun hin => hhealth (mem_healthy.mp hin)
  case isFalse hhealth =>
    have hin : i ∈ healthy backends := mem_healthy.mpr (not_not.mp hhealth)
    have hinter : insert i A ∩ healthy backends =
        insert i (A ∩ healthy backends) := Finset.insert_inter_of_mem hin
    simp only [← gained_of_mem hin]
    split
    case isTrue hbetter =>
      refine h.gain hi (some_ne_none i) fun j hj => ?_
      obtain rfl := some.inj hj
      refine ⟨?_, rfl, fun k hk => ?_⟩
      · exact Finset.mem_inter.mpr ⟨Finset.mem_insert_self i A, hin⟩
      rw [hinter] at hk
      obtain rfl | hk := Finset.mem_insert.mp hk
      · exact le_rfl
      -- An earlier candidate is at most the best so far, which was beaten.
      cases hsel : search.selected with
      | none =>
        rw [h.unselected hsel] at hk
        exact absurd hk (Finset.notMem_empty k)
      | some j =>
        obtain ⟨-, hweight, hmax⟩ := h.best j hsel
        have hlt : search.bestWeight < gained backends i := by
          obtain hnone | hlt := hbetter
          · exact absurd (hsel.symm.trans hnone) (some_ne_none j)
          · exact hlt
        rw [hweight] at hlt
        exact (hmax k hk).trans hlt.le
    case isFalse hworse =>
      obtain ⟨hsome, hle⟩ := not_or.mp hworse
      refine h.gain hi hsome fun j hj => ?_
      obtain ⟨hmem, hweight, hmax⟩ := h.best j hj
      refine ⟨?_, hweight, fun k hk => ?_⟩
      · rw [hinter]
        exact Finset.mem_insert_of_mem hmem
      rw [hinter] at hk
      obtain rfl | hk := Finset.mem_insert.mp hk
      · rw [← hweight]
        exact not_lt.mp hle
      · exact hmax k hk

end

theorem searched (backends : Fin n → Backend) (before : List ℤ) :
    Searched backends before Finset.univ
      ((List.finRange n).foldl Balancer.consider ⟨backends, none, 0, before⟩) := by
  refine foldl_finRange ?_ fun A search i hi h => h.consider hi
  constructor
  · intro i
    rw [if_neg (Finset.notMem_empty i)]
  · intro _
    exact Finset.empty_inter _
  · intro i hi
    exact absurd hi.symm (some_ne_none i)
  · intro v hv
    exact .inl hv

end Search

/-- What a selection makes of the backends that passive recovery left. -/
structure Selects (backends : Fin n → Backend) (selection : Selection n) : Prop where
  weights_eq : weights selection.backends = weights backends
  health_eq : ∀ i, (selection.backends i).healthStatus = (backends i).healthStatus
  outcome :
    (∑ i ∈ healthy backends, weights backends i = 0 ∧ selection.selected = none ∧
      currentWeights selection.backends = currentWeights backends) ∨
    ∃ i, selection.selected = some i ∧
      Turn (weights backends) (healthy backends) i (currentWeights backends)
        (currentWeights selection.backends)
  computed : ∀ v ∈ selection.computed,
    (∃ B, v = ∑ i ∈ B, weights backends i) ∨ (∃ i, v = gained backends i) ∨
      ∃ i, v = currentWeights selection.backends i

theorem Searched.keeps {backends : Fin n → Backend} {before : List ℤ}
    {A : Finset (Fin n)} {search : Search n}
    (h : Searched backends before A search) (i : Fin n) (v : ℤ) (j : Fin n) :
    let after := update search.backends i { search.backends i with currentWeight := v }
    (after j).weight = (backends j).weight ∧
      (after j).healthStatus = (backends j).healthStatus := by
  dsimp only
  by_cases hj : j = i
  · subst hj
    rw [update_self, h.same]
    exact ⟨rfl, rfl⟩
  · rw [update_of_ne hj, h.same]
    exact ⟨rfl, rfl⟩

theorem Searched.turn {backends : Fin n → Backend} {before : List ℤ}
    {search : Search n} {i : Fin n} {total : ℤ} (h : Searched backends before Finset.univ search)
    (hi : search.selected = some i) (htotal : total = ∑ i ∈ healthy backends, weights backends i) :
    Turn (weights backends) (healthy backends) i (currentWeights backends)
      (currentWeights (update search.backends i
        { search.backends i with
          currentWeight := (search.backends i).currentWeight - total })) := by
  obtain ⟨hmem, -, hmax⟩ := h.best i hi
  rw [Finset.univ_inter] at hmem hmax
  have hcurrent : ∀ j, (search.backends j).currentWeight = gained backends j := by
    intro j
    rw [h.same, if_pos (Finset.mem_univ j)]
  constructor
  · exact hmem
  · exact hmax
  · funext j
    by_cases hj : j = i
    · subst hj
      rw [currentWeights, update_self, update_self, hcurrent, htotal]
      rfl
    · rw [currentWeights, update_of_ne hj, update_of_ne hj, hcurrent]
      rfl

theorem backendRoundRobinSelect_spec (now : ℤ) (backends : Fin n → Backend) :
    Selects (passiveRecovery now backends) (backendRoundRobinSelect now backends) := by
  have htally := tallied (passiveRecovery now backends)
  have htotal := htally.total
  rw [Finset.univ_inter] at htotal
  rw [backendRoundRobinSelect]
  generalize passiveRecovery now backends = recovered at *
  generalize (List.finRange n).foldl (addWeight recovered) ⟨0, []⟩ = tally at *
  dsimp only
  split
  case isTrue hzero =>
    constructor
    · rfl
    · intro i
      rfl
    · exact .inl ⟨htotal.symm.trans hzero, rfl, rfl⟩
    · intro v hv
      exact .inl (htally.sums v hv)
  case isFalse hnonzero =>
    have hsearch := searched recovered tally.computed
    generalize (List.finRange n).foldl consider ⟨recovered, none, 0, tally.computed⟩ = search at *
    have hcomputed : ∀ v ∈ search.computed,
        (∃ B, v = ∑ i ∈ B, weights recovered i) ∨ ∃ i, v = gained recovered i := by
      intro v hv
      obtain hbefore | hgained := hsearch.computed v hv
      · exact .inl (htally.sums v hbefore)
      · exact .inr hgained
    split
    case h_1 hnone =>
      -- Some healthy backend was considered, so one was selected.
      have hempty := hsearch.unselected hnone
      rw [Finset.univ_inter] at hempty
      rw [hempty, Finset.sum_empty] at htotal
      exact absurd htotal hnonzero
    case h_2 i hi =>
      constructor
      · funext j
        exact (hsearch.keeps i _ j).1
      · intro j
        exact (hsearch.keeps i _ j).2
      · exact .inr ⟨i, rfl, hsearch.turn hi htotal⟩
      · intro v hv
        obtain hold | hlast := mem_append.mp hv
        · obtain hsum | hgained := hcomputed v hold
          · exact .inl hsum
          · exact .inr (.inl hgained)
        · refine .inr (.inr ⟨i, ?_⟩)
          rw [mem_singleton.mp hlast]
          simp only [currentWeights, update_self]

/-! ## No selection overflows -/

/-- The range of `int`. -/
def InIntRange (v : ℤ) : Prop :=
  -2 ^ 31 ≤ v ∧ v < 2 ^ 31

/-- A call of the selection at any time, or any change of the backends that
leaves their weights alone. -/
inductive Step : (Fin n → Backend) → (Fin n → Backend) → Prop
  | select (now : ℤ) (backends : Fin n → Backend) :
      Step backends (backendRoundRobinSelect now backends).backends
  | health {backends backends' : Fin n → Backend} :
      SameWeights backends backends' → Step backends backends'

/-- What holds of the weights in every run from current weights zero. -/
structure Balanced (share : Fin n → ℤ) (backends : Fin n → Backend) : Prop where
  weights_eq : weights backends = share
  spread : Spread (∑ i, share i) (currentWeights backends)
  sum_zero : ∑ i, currentWeights backends i = 0

section Overflow

variable {share : Fin n → ℤ} {backends backends' : Fin n → Backend}

section

variable (h : Balanced share backends)
include h

theorem Balanced.sameWeights (hsame : SameWeights backends backends') :
    Balanced share backends' := by
  constructor
  · rw [hsame.weights_eq]
    exact h.weights_eq
  · rw [hsame.currentWeights_eq]
    exact h.spread
  · rw [hsame.currentWeights_eq]
    exact h.sum_zero

section

variable (hshare : ∀ i, 0 ≤ share i)
include hshare

theorem Balanced.selects {selection : Selection n} (hselects : Selects backends selection) :
    Balanced share selection.backends := by
  have hweights := hselects.weights_eq.trans h.weights_eq
  obtain ⟨-, -, hsame⟩ | ⟨i, -, hturn⟩ := hselects.outcome
  · constructor
    · exact hweights
    · rw [hsame]
      exact h.spread
    · rw [hsame]
      exact h.sum_zero
  · rw [h.weights_eq] at hturn
    constructor
    · exact hweights
    · exact hturn.spread hshare le_rfl h.spread
    · rw [hturn.sum_univ]
      exact h.sum_zero

theorem Balanced.select (now : ℤ) :
    Balanced share (backendRoundRobinSelect now backends).backends :=
  (h.sameWeights (sameWeights_passiveRecovery now backends)).selects hshare
    (backendRoundRobinSelect_spec now backends)

theorem Balanced.run (hrun : ReflTransGen Step backends backends') : Balanced share backends' := by
  induction hrun with
  | refl => exact h
  | tail _ hstep ih =>
    cases hstep with
    | select now => exact ih.select hshare now
    | health hsame => exact ih.sameWeights hsame

/-- Every value a selection computes is at most the sum of all weights times the
number of backends. -/
theorem Balanced.computed_le (now : ℤ) :
    ∀ v ∈ (backendRoundRobinSelect now backends).computed,
      -((∑ i, share i) * n) ≤ v ∧ v ≤ (∑ i, share i) * n := by
  intro v hv
  have hrecovered := h.sameWeights (sameWeights_passiveRecovery now backends)
  have hselects := backendRoundRobinSelect_spec now backends
  have hafter := h.select hshare now
  generalize passiveRecovery now backends = recovered at *
  have hsum : 0 ≤ ∑ i, share i := Finset.sum_nonneg fun i _ => hshare i
  have hbounds := hrecovered.spread.bounds hrecovered.sum_zero
  have hbounds' := hafter.spread.bounds hafter.sum_zero
  simp only [Fintype.card_fin] at hbounds hbounds'
  have hscale : ∑ i, share i ≤ (∑ i, share i) * n := by
    cases n with
    | zero => simp
    | succ n =>
      have hone : (1 : ℤ) ≤ (n + 1 : ℕ) := by exact_mod_cast Nat.le_add_left 1 n
      exact le_mul_of_one_le_right hsum hone
  obtain ⟨B, rfl⟩ | ⟨i, rfl⟩ | ⟨i, rfl⟩ := hselects.computed v hv
  · rw [hrecovered.weights_eq]
    have hnonneg : 0 ≤ ∑ i ∈ B, share i := Finset.sum_nonneg fun i _ => hshare i
    have hle := sum_share_le hshare le_rfl B
    constructor
    · linarith only [hnonneg, hsum, hscale]
    · linarith only [hle, hscale]
  · have hle : share i ≤ ∑ i, share i :=
      Finset.single_le_sum (fun i _ => hshare i) (Finset.mem_univ i)
    have hgained : currentWeights recovered i ≤ gained recovered i ∧
        gained recovered i ≤ currentWeights recovered i + share i := by
      rw [gained, credit, hrecovered.weights_eq]
      split
      · exact ⟨le_add_of_nonneg_right (hshare i), le_rfl⟩
      · exact ⟨le_rfl, le_add_of_nonneg_right (hshare i)⟩
    constructor
    · linarith only [hbounds i, hgained, hsum]
    · linarith only [hbounds i, hgained, hle]
  · constructor <;> linarith only [hbounds' i, hsum]

end

end

theorem balanced_of_zero (hshare : ∀ i, 0 ≤ weights backends i)
    (hzero : ∀ i, (backends i).currentWeight = 0) : Balanced (weights backends) backends := by
  have hcurrent : currentWeights backends = 0 := funext hzero
  constructor
  · rfl
  · rw [hcurrent]
    exact spread_zero (Finset.sum_nonneg fun i _ => hshare i)
  · rw [hcurrent]
    exact Finset.sum_const_zero

/-- With at most `MAX_BACKENDS` backends of admissible weights, no selection in
any run computes a value outside the range of `int`, and every selection leaves
current weights that sum to zero. -/
theorem backendRoundRobinSelect_inIntRange (hcount : n ≤ maxBackends)
    (hweight : ∀ i, 1 ≤ (backends i).weight ∧
      (backends i).weight ≤ maxBackendWeight)
    (hzero : ∀ i, (backends i).currentWeight = 0)
    (hrun : ReflTransGen Step backends backends') (now : ℤ) :
    (∀ v ∈ (backendRoundRobinSelect now backends').computed, InIntRange v) ∧
      ∑ i, ((backendRoundRobinSelect now backends').backends i).currentWeight =
        0 := by
  have hshare : ∀ i, 0 ≤ weights backends i := fun i => zero_le_one.trans (hweight i).1
  have hbalanced := (balanced_of_zero hshare hzero).run hshare hrun
  constructor
  · intro v hv
    obtain ⟨hlow, hhigh⟩ := hbalanced.computed_le hshare now v hv
    have hn : (n : ℤ) ≤ 100 := by exact_mod_cast hcount
    have hsum : ∑ i, weights backends i ≤ n * 10000 := by
      have hcard := Finset.sum_le_card_nsmul Finset.univ (weights backends)
        10000 fun i _ => (hweight i).2
      rwa [Finset.card_univ, Fintype.card_fin, nsmul_eq_mul] at hcard
    have hproduct : (∑ i, weights backends i) * n ≤ (100 * 10000) * 100 := by
      have hn0 : (0 : ℤ) ≤ n := Int.natCast_nonneg n
      calc (∑ i, weights backends i) * n ≤ (n * 10000) * n := by gcongr
        _ ≤ (100 * 10000) * 100 := by gcongr
    constructor
    · linarith only [hlow, hproduct]
    · linarith only [hhigh, hproduct]
  · exact (hbalanced.select hshare now).sum_zero

/-- Two backends of weights 2 and 1, of which the first is marked down before a
selection: the selection computes no overflowing value. -/
theorem backendRoundRobinSelect_inIntRange_two :
    let down : Fin 2 → Backend :=
      ![{ addBackend 2 with healthStatus := 0 }, addBackend 1]
    (∀ v ∈ (backendRoundRobinSelect 10 down).computed, InIntRange v) ∧
      ∑ i, ((backendRoundRobinSelect 10 down).backends i).currentWeight = 0 := by
  have hstep : Step ![addBackend 2, addBackend 1]
      ![{ addBackend 2 with healthStatus := 0 }, addBackend 1] :=
    Step.health (by rw [SameWeights]; decide)
  exact backendRoundRobinSelect_inIntRange (by decide) (by decide) (by decide) (.single hstep) 10

end Overflow

section Proportion

variable {s : ℕ → Fin n → Backend} {now : ℕ → ℤ}

theorem healthy_passiveRecovery {backends : Fin n → Backend} (now : ℤ)
    (hhealthy : ∀ i, (backends i).healthStatus = 1) :
    healthy (passiveRecovery now backends) = Finset.univ := by
  ext i
  have hstays : passiveRecovery now backends i = backends i := by
    rw [passiveRecovery, recover, if_neg]
    rintro ⟨hzero, -⟩
    rw [hhealthy i] at hzero
    exact one_ne_zero hzero
  simp only [mem_healthy, hstays, hhealthy i, Finset.mem_univ]

section

variable (hnext : ∀ k, SameWeights (backendRoundRobinSelect (now k) (s k)).backends (s (k + 1)))
include hnext

theorem weights_run (k : ℕ) : weights (s k) = weights (s 0) := by
  induction k with
  | zero => rfl
  | succ k ih =>
    rw [(hnext k).weights_eq, (backendRoundRobinSelect_spec _ _).weights_eq,
      (sameWeights_passiveRecovery _ _).weights_eq, ih]

/-- With all backends healthy, every selection is a turn in full company. -/
theorem exists_turn [NeZero n] (hweight : ∀ i, 0 < (s 0 i).weight)
    (hhealthy : ∀ k i, (s k i).healthStatus = 1) (k : ℕ) :
    ∃ i, (backendRoundRobinSelect (now k) (s k)).selected = some i ∧
      Turn (weights (s 0)) Finset.univ i (currentWeights (s k)) (currentWeights (s (k + 1))) := by
  have hsame := sameWeights_passiveRecovery (now k) (s k)
  have houtcome := (backendRoundRobinSelect_spec (now k) (s k)).outcome
  rw [hsame.weights_eq, weights_run hnext k, hsame.currentWeights_eq,
    healthy_passiveRecovery (now k) (hhealthy k), ← (hnext k).currentWeights_eq] at houtcome
  obtain ⟨hsum, -, -⟩ | hturn := houtcome
  · have hpos : 0 < ∑ i, weights (s 0) i :=
      Finset.sum_pos (fun i _ => hweight i) Finset.univ_nonempty
    exact absurd hsum hpos.ne'
  · exact hturn

end

/-- Selections at the given times with nothing in between. -/
def selections (now : ℕ → ℤ) (backends : Fin n → Backend) :
    ℕ → Fin n → Backend
  | 0 => backends
  | k + 1 => (backendRoundRobinSelect (now k) (selections now backends k)).backends

theorem selections_healthy {backends : Fin n → Backend}
    (hhealthy : ∀ i, (backends i).healthStatus = 1) (k : ℕ) (i : Fin n) :
    (selections now backends k i).healthStatus = 1 := by
  induction k generalizing i with
  | zero => exact hhealthy i
  | succ k ih =>
    rw [selections, (backendRoundRobinSelect_spec _ _).health_eq,
      ← mem_healthy, healthy_passiveRecovery _ ih]
    exact Finset.mem_univ i

/-- With all backends healthy throughout, every block of as many selections as
the weights sum to returns each backend as often as its weight says, and all
current weights are zero after each block. -/
theorem backendRoundRobinSelect_proportional
    (hweight : ∀ i, 0 < (s 0 i).weight) (hzero : ∀ i, (s 0 i).currentWeight = 0)
    (hhealthy : ∀ k i, (s k i).healthStatus = 1)
    (hnext : ∀ k, SameWeights (backendRoundRobinSelect (now k) (s k)).backends
      (s (k + 1))) {W : ℕ} (hW : (W : ℤ) = ∑ i, (s 0 i).weight)
    (m : ℕ) (i : Fin n) :
    (((Finset.range W).filter fun k =>
        (backendRoundRobinSelect (now (m * W + k)) (s (m * W + k))).selected =
          some i).card : ℤ) = (s 0 i).weight ∧
      (s (m * W) i).currentWeight = 0 := by
  have : NeZero n := ⟨fun hn => (hn ▸ i).elim0⟩
  choose payers hselected hturns using exists_turn hnext hweight hhealthy
  have hstart : currentWeights (s 0) = 0 := funext hzero
  constructor
  · simp only [hselected, some.injEq]
    exact timesPaid_block hturns hweight hstart hW m i
  · exact congrFun (balance_block hturns hweight hstart hW m) i

/-- Weights 2 and 1: the second block of three selections returns the first
backend twice. -/
theorem backendRoundRobinSelect_proportional_two :
    (((Finset.range 3).filter fun k =>
        (backendRoundRobinSelect 0 (selections (fun _ => 0)
          ![addBackend 2, addBackend 1] (1 * 3 + k))).selected =
            some 0).card : ℤ) = 2 ∧
      (selections (fun _ => 0) ![addBackend 2, addBackend 1] (1 * 3)
        0).currentWeight = 0 :=
  backendRoundRobinSelect_proportional (by decide) (by decide)
    (selections_healthy (by decide)) (fun _ _ => ⟨rfl, rfl⟩) (by decide) 1 0

end Proportion

end Codo.Balancer
