import Codo.Common.LruNodes

/-!
# Runs of the read cache

A run is a list of calls.  A fill says after how many calls of the run its
generation was read.  The ideal cache keeps the entries in the order of their
use and decides about a fill from the calls made since; the nodes only compare
two counters of 64 bits.
-/

namespace Codo.Common

open Codo.Support List Option

/-- The calls of `lru.h`. -/
inductive LruCall
  | get (key : Bytes) (valueLength : ℕ)
  | put (key value : Bytes)
  | fill (key value : Bytes) (since : ℕ)
  | invalidate (key : Bytes)

/-- The calls that supersede what was read before them. -/
def LruCall.writes : LruCall → Bool
  | put _ _ => true
  | invalidate _ => true
  | get _ _ => false
  | fill _ _ _ => false

def writeCount (calls : List LruCall) : ℕ :=
  calls.countP LruCall.writes

/-- What a call returns. -/
inductive LruReply
  | value (found : Option (ℕ × Bytes))
  | code (rc : ℤ)
  | removed (found : Bool)
  deriving DecidableEq

/-- A call on the nodes, where `seen` are the generations after `0`, `1`, …
calls. -/
def LruNodes.call (al : Allocator) (seen : List UInt64) (n : LruNodes) :
    LruCall → LruReply × LruNodes
  | .get key valueLength =>
    let r := n.get key valueLength
    (.value r.1, r.2)
  | .put key value =>
    let r := n.put al key value
    (.code r.1, r.2)
  | .fill key value since =>
    let r := n.fill al key value (seen.getD since n.generation)
    (.code r.1, r.2)
  | .invalidate key =>
    let r := n.invalidate key
    (.removed r.1, r.2)

/-- The replies to a run and the nodes afterwards. -/
def LruNodes.run (al : Allocator) :
    List UInt64 → LruNodes → List LruCall → List LruReply × LruNodes
  | _, n, [] => ([], n)
  | seen, n, call :: calls =>
    let r := n.call al seen call
    let rest := LruNodes.run al (seen ++ [r.2.generation]) r.2 calls
    (r.1 :: rest.1, rest.2)

/-- A call on the ideal cache after the calls `done`.  A fill is taken or
dropped according to the number of writes since its generation was read. -/
def LruCache.call (accepts : ℕ → Bool) (done : List LruCall)
    (cache : LruCache) : LruCall → LruReply × LruCache
  | .get key valueLength =>
    (.value ((cache.find key).map fun v => (v.length, v.take valueLength)), (cache.get key).2)
  | .put key value => (.code 0, cache.put key value)
  | .fill key value since =>
    if accepts (writeCount (done.drop since)) then
      (.code 0, cache.store key value)
    else (.code 1, cache)
  | .invalidate key => (.removed (cache.find key).isSome, cache.invalidate key)

def LruCache.run (accepts : ℕ → Bool) :
    List LruCall → LruCache → List LruCall → List LruReply × LruCache
  | _, cache, [] => ([], cache)
  | done, cache, call :: calls =>
    let r := cache.call accepts done call
    let rest := LruCache.run accepts (done ++ [call]) r.2 calls
    (r.1 :: rest.1, rest.2)

/-- No write at all. -/
def isZero (count : ℕ) : Bool :=
  count == 0

/-- As many writes as make the counter wrap around. -/
def wrapsToZero (count : ℕ) : Bool :=
  count % 2 ^ 64 == 0

/-! ## The generations -/

/-- The generations after the first calls of `done`. -/
def generations (done : List LruCall) : List UInt64 :=
  (List.range (done.length + 1)).map fun i => UInt64.ofNat (writeCount (done.take i))

theorem writeCount_concat (done : List LruCall) (call : LruCall) :
    writeCount (done ++ [call]) = writeCount done + call.writes.toNat := by
  rw [writeCount, countP_append, countP_singleton, writeCount]
  cases call.writes with
  | false => rfl
  | true => rfl

theorem generations_concat (done : List LruCall) (call : LruCall) :
    generations (done ++ [call]) =
      generations done ++ [UInt64.ofNat (writeCount (done ++ [call]))] := by
  have hlength : (done ++ [call]).length = done.length + 1 := by simp
  rw [generations, hlength, range_succ, map_append, generations]
  congr 1
  · refine map_congr_left fun i hi => ?_
    rw [take_append_of_le_length (Nat.lt_succ_iff.mp (mem_range.mp hi))]
  · rw [map_singleton, ← hlength, take_length]

/-- The generation a fill presents is the present one when the number of writes
since is a multiple of `2 ^ 64`. -/
theorem getD_generations_eq_iff (done : List LruCall) (since : ℕ) :
    UInt64.ofNat (writeCount done) =
        (generations done).getD since (UInt64.ofNat (writeCount done)) ↔
      wrapsToZero (writeCount (done.drop since)) = true := by
  have hsplit : writeCount done = writeCount (done.take since) + writeCount (done.drop since) := by
    rw [writeCount, writeCount, writeCount, ← countP_append, take_append_drop]
  have hdrop : done.length ≤ since → writeCount (done.drop since) = 0 := by
    intro hle
    rw [drop_eq_nil_of_le hle]
    rfl
  rw [wrapsToZero, beq_iff_eq, getD_eq_getElem?_getD, generations, List.getElem?_map]
  by_cases hsince : since < done.length + 1
  · rw [List.getElem?_range hsince, map_some, getD_some,
      ← UInt64.toNat_inj, UInt64.toNat_ofNat', UInt64.toNat_ofNat', hsplit]
    omega
  · rw [List.getElem?_eq_none (by simpa using hsince), map_none, getD_none, hdrop (by omega)]
    simp

section Refinement

variable {n : LruNodes} {c : LruCache} {done : List LruCall}

theorem LruNodes.tableCapacity_store (al : Allocator) (n : LruNodes) (key value : Bytes) :
    (store al n key value).tableCapacity = n.tableCapacity := by
  rw [store]
  split
  · rfl
  · change (LruNodes.makeRoom _).tableCapacity = _
    rw [makeRoom]
    split
    · rw [evictLru]
      split <;> rfl
    · rfl

theorem LruNodes.tableCapacity_call (al : Allocator) (seen : List UInt64)
    (n : LruNodes) (call : LruCall) : (n.call al seen call).2.tableCapacity = n.tableCapacity := by
  cases call with
  | get key valueLength =>
    rw [LruNodes.call, get]
    split <;> rfl
  | put key value => exact tableCapacity_store al n.bump key value
  | fill key value since =>
    rw [LruNodes.call, fill]
    split
    · rfl
    · exact tableCapacity_store al n key value
  | invalidate key =>
    rw [LruNodes.call, invalidate]
    split <;> rfl

/-- One call: the nodes reply what the ideal cache replies. -/
theorem LruNodes.Represents.call (h : n.Represents c)
    (hgeneration : n.generation = UInt64.ofNat (writeCount done))
    (al : Allocator) (call : LruCall) :
    (n.call al (generations done) call).1 = (c.call wrapsToZero done call).1 ∧
      (n.call al (generations done) call).2.Represents (c.call wrapsToZero done call).2 := by
  cases call with
  | get key valueLength =>
    obtain ⟨hreply, hrep⟩ := h.get key valueLength
    exact ⟨congrArg LruReply.value hreply, hrep⟩
  | put key value => exact ⟨rfl, h.bump.store al key value⟩
  | fill key value since =>
    have hiff := getD_generations_eq_iff done since
    rw [← hgeneration] at hiff
    rw [LruNodes.call, LruCache.call, LruNodes.fill]
    by_cases hfresh : wrapsToZero (writeCount (done.drop since)) = true
    · rw [if_pos hfresh, if_neg (not_not.mpr (hiff.mpr hfresh))]
      exact ⟨rfl, h.store al key value⟩
    · rw [if_neg hfresh, if_pos fun heq => hfresh (hiff.mp heq)]
      exact ⟨rfl, h⟩
  | invalidate key =>
    obtain ⟨hreply, hrep⟩ := h.invalidate key
    exact ⟨congrArg LruReply.removed hreply, hrep⟩

theorem LruCache.generation_call (accepts : ℕ → Bool) (done : List LruCall)
    (cache : LruCache) (call : LruCall) :
    (cache.call accepts done call).2.generation =
      cache.generation + UInt64.ofNat call.writes.toNat := by
  cases call with
  | get key valueLength => exact (generation_get cache key).trans (UInt64.add_zero _).symm
  | put key value => exact generation_store cache.bump key value
  | fill key value since =>
    rw [LruCache.call]
    split
    · exact (generation_store cache key value).trans (UInt64.add_zero _).symm
    · exact (UInt64.add_zero _).symm
  | invalidate key => rfl

theorem LruCache.capacity_call (accepts : ℕ → Bool) (done : List LruCall)
    (cache : LruCache) (call : LruCall) :
    (cache.call accepts done call).2.capacity = cache.capacity := by
  cases call with
  | get key valueLength => exact capacity_get cache key
  | put key value => exact capacity_store cache.bump key value
  | fill key value since =>
    rw [LruCache.call]
    split
    · exact capacity_store cache key value
    · rfl
  | invalidate key => rfl

theorem LruCache.capacity_run (accepts : ℕ → Bool) (calls : List LruCall) :
    ∀ (done : List LruCall) (cache : LruCache),
      (cache.run accepts done calls).2.capacity = cache.capacity := by
  induction calls with
  | nil => exact fun _ _ => rfl
  | cons call calls ih =>
    intro done cache
    exact (ih _ _).trans (capacity_call accepts done cache call)

/-- What holds of the nodes and the ideal cache after the calls `done`. -/
structure InStep (al : Allocator) (done : List LruCall) (n : LruNodes) (c : LruCache) : Prop where
  represents : n.Represents c
  generation : n.generation = UInt64.ofNat (writeCount done)

theorem InStep.call {al : Allocator} (h : InStep al done n c) (call : LruCall) :
    (n.call al (generations done) call).1 = (c.call wrapsToZero done call).1 ∧
      InStep al (done ++ [call]) (n.call al (generations done) call).2
        (c.call wrapsToZero done call).2 := by
  obtain ⟨hreply, hrep⟩ := h.represents.call h.generation al call
  refine ⟨hreply, hrep, ?_⟩
  obtain ⟨-, -, -, -, hsame⟩ := hrep
  obtain ⟨-, -, -, -, hbefore⟩ := h.represents
  rw [hsame, LruCache.generation_call, ← hbefore, h.generation, writeCount_concat, UInt64.ofNat_add]

theorem InStep.run {al : Allocator} (calls : List LruCall) :
    ∀ {done : List LruCall} {n : LruNodes} {c : LruCache}, InStep al done n c →
      (n.run al (generations done) calls).1 = (c.run wrapsToZero done calls).1 ∧
        InStep al (done ++ calls) (n.run al (generations done) calls).2
          (c.run wrapsToZero done calls).2 ∧
        (n.run al (generations done) calls).2.tableCapacity = n.tableCapacity := by
  induction calls with
  | nil =>
    intro done n c h
    rw [append_nil]
    exact ⟨rfl, h, rfl⟩
  | cons call calls ih =>
    intro done n c h
    obtain ⟨hreply, hstep⟩ := h.call call
    obtain ⟨hreplies, hrest, htable⟩ := ih hstep
    rw [generations_concat, ← hstep.generation] at hreplies hrest htable
    refine ⟨?_, ?_, ?_⟩
    · exact congr (congrArg List.cons hreply) hreplies
    · rw [append_assoc, singleton_append] at hrest
      exact hrest
    · exact htable.trans (LruNodes.tableCapacity_call al _ n call)

end Refinement

/-- With fewer than `2 ^ 64` writes the two rules for fills agree. -/
theorem LruCache.run_wrapsToZero (calls : List LruCall) :
    ∀ (done : List LruCall) (cache : LruCache), writeCount (done ++ calls) < 2 ^ 64 →
        cache.run wrapsToZero done calls = cache.run isZero done calls := by
  induction calls with
  | nil => exact fun _ _ _ => rfl
  | cons call calls ih =>
    intro done cache hfew
    have hcall : cache.call wrapsToZero done call = cache.call isZero done call := by
      cases call with
      | get key valueLength => rfl
      | put key value => rfl
      | invalidate key => rfl
      | fill key value since =>
        have hle : writeCount (done.drop since) ≤
            writeCount (done ++ .fill key value since :: calls) := ((drop_sublist since done).trans
            (sublist_append_left _ _)).countP_le
        rw [LruCache.call, LruCache.call, wrapsToZero, isZero, Nat.mod_eq_of_lt (hle.trans_lt hfew)]
    rw [LruCache.run, LruCache.run, hcall]
    rw [← singleton_append, ← append_assoc] at hfew
    rw [ih _ _ hfew]

theorem getHashCode_lt {tableCapacity : ℕ} (hpos : 0 < tableCapacity)
    (hlt : tableCapacity < 2 ^ 64) (key : Bytes) :
    getHashCode tableCapacity key < tableCapacity := by
  rw [getHashCode, UInt64.toNat_mod, UInt64.toNat_ofNat', Nat.mod_eq_of_lt hlt]
  exact Nat.mod_lt _ hpos

theorem exists_inStep (al : Allocator) {capacity : ℕ} (hpos : 1 ≤ capacity) :
    ∃ n c, LruNodes.create capacity = some n ∧
      LruCache.create capacity = some c ∧ InStep al [] n c := by
  obtain ⟨n, hn⟩ : ∃ n, LruNodes.create capacity = some n := ⟨_, if_neg (by omega)⟩
  obtain ⟨c, hc⟩ : ∃ c, LruCache.create capacity = some c := ⟨_, dif_pos hpos⟩
  refine ⟨n, c, hn, hc, LruNodes.represents_create hn hc, ?_⟩
  rw [LruNodes.create] at hn
  obtain ⟨-, hn⟩ := ite_none_left_eq_some.mp hn
  rw [← some.inj hn]
  rfl

/-- The cache behaves as an ideal cache of its capacity that keeps its entries
in the order of their use, where a fill is taken when the number of writes since
its generation was read is a multiple of `2 ^ 64`: when there was none, as long
as there are fewer than that in the run.  At all times its two structures hold
the same nodes. -/
theorem lru_refines_ideal (al : Allocator) {capacity : ℕ} (hpos : 1 ≤ capacity)
    (hlt : capacity < 2 ^ 30) (calls : List LruCall) :
    ∃ n c, LruNodes.create capacity = some n ∧
      LruCache.create capacity = some c ∧
      (n.run al [0] calls).1 = (c.run wrapsToZero [] calls).1 ∧
      (writeCount calls < 2 ^ 64 →
        (n.run al [0] calls).1 = (c.run isZero [] calls).1) ∧
      ∃ l, (n.run al [0] calls).2.Sound l [] ∧
        (∀ u ∈ l, ∀ v ∈ l, (n.run al [0] calls).2.list.next u = some v ↔
          (n.run al [0] calls).2.list.prev v = some u) ∧
        (∀ key, getHashCode (n.run al [0] calls).2.tableCapacity key <
          (n.run al [0] calls).2.tableCapacity) ∧
        l.length ≤ capacity ∧
        (c.run wrapsToZero [] calls).2.entries =
          (n.run al [0] calls).2.entriesOf l := by
  obtain ⟨n, c, hn, hc, hstart⟩ := exists_inStep al hpos
  have htable : n.tableCapacity = capacity * 2 := by
    rw [LruNodes.create] at hn
    obtain ⟨-, hn⟩ := ite_none_left_eq_some.mp hn
    rw [← some.inj hn]
    change ((capacity : ℤ) * 2).toNat = _
    omega
  have hcapacity : c.capacity = capacity := by
    rw [LruCache.create, dif_pos (show 0 < capacity from hpos)] at hc
    rw [← some.inj hc]
  obtain ⟨hreplies, hend, htable'⟩ := hstart.run calls
  rw [show generations [] = [0] from rfl] at hreplies hend htable'
  refine ⟨n, c, hn, hc, hreplies, fun hfew => ?_, ?_⟩
  · rw [hreplies, LruCache.run_wrapsToZero calls [] c hfew]
  obtain ⟨l, hsound, hentries, -, -⟩ := hend.represents
  refine ⟨l, hsound, ?_, ?_, ?_, hentries⟩
  · intro u hu v hv
    exact hsound.list.next_eq_some_iff hu hv
  · rw [htable', htable]
    exact getHashCode_lt (by omega) (by omega)
  · have hbounded := (c.run wrapsToZero [] calls).2.bounded
    rw [hentries, LruCache.capacity_run, hcapacity, LruNodes.entriesOf, length_map] at hbounded
    exact hbounded

/-- The first address behind those in use. -/
def nextAddress (live : List ℕ) : ℕ :=
  live.foldr (fun v next => max (v + 1) next) 0

theorem lt_nextAddress {live : List ℕ} {v : ℕ} (hv : v ∈ live) : v < nextAddress live := by
  induction live with
  | nil => exact absurd hv not_mem_nil
  | cons u live ih =>
    rw [nextAddress, foldr_cons, ← nextAddress]
    rcases mem_cons.mp hv with rfl | hv
    · exact lt_max_of_lt_left (Nat.lt_succ_self v)
    · exact lt_max_of_lt_right (ih hv)

/-- An allocator that puts new nodes behind the others. -/
def nextAllocator : Allocator where
  choose := nextAddress
  fresh _ hmem := absurd (lt_nextAddress hmem) (lt_irrefl _)

theorem lru_refines_ideal_one_entry : ∃ n c,
    LruNodes.create 1 = some n ∧ LruCache.create 1 = some c ∧
      (n.run nextAllocator [0] [.put [1] [2], .put [3] [4], .get [1] 8]).1 =
        (c.run wrapsToZero [] [.put [1] [2], .put [3] [4], .get [1] 8]).1 := by
  obtain ⟨n, c, hn, hc, hreplies, -⟩ := lru_refines_ideal nextAllocator
    (show 1 ≤ 1 by decide) (by decide) [.put [1] [2], .put [3] [4], .get [1] 8]
  exact ⟨n, c, hn, hc, hreplies⟩

theorem LruCache.run_concat (accepts : ℕ → Bool) (calls : List LruCall)
    (call : LruCall) : ∀ (done : List LruCall) (cache : LruCache),
      (cache.run accepts done (calls ++ [call])).1 = (cache.run accepts done calls).1 ++
          [((cache.run accepts done calls).2.call accepts (done ++ calls) call).1] := by
  induction calls with
  | nil =>
    intro done cache
    rw [append_nil]
    rfl
  | cons first calls ih =>
    intro done cache
    have hrest := ih (done ++ [first]) (cache.call accepts done first).2
    rw [append_assoc, singleton_append] at hrest
    exact congrArg (List.cons _) hrest

/-- A run whose writes make the counter wrap around takes a fill from before
them. -/
theorem InStep.run_fill_ne {al : Allocator} {n : LruNodes} {c : LruCache}
    (h : InStep al [] n c) {calls : List LruCall}
    (hwraps : writeCount calls % 2 ^ 64 = 0) (hwrites : writeCount calls ≠ 0) (key value : Bytes) :
    (n.run al [0] (calls ++ [.fill key value 0])).1 ≠
      (c.run isZero [] (calls ++ [.fill key value 0])).1 := by
  have htaken : ∀ cache : LruCache, (cache.call wrapsToZero calls
      (.fill key value 0)).1 = .code 0 := by
    intro cache
    rw [LruCache.call, drop_zero, wrapsToZero, hwraps]
    rfl
  have hdropped : ∀ cache : LruCache, (cache.call isZero calls
      (.fill key value 0)).1 = .code 1 := by
    intro cache
    rw [LruCache.call, drop_zero, isZero, if_neg (by simpa using hwrites)]
  have hreplies := (h.run (calls ++ [.fill key value 0])).1
  rw [show generations [] = [0] from rfl] at hreplies
  rw [hreplies, LruCache.run_concat, LruCache.run_concat, nil_append, htaken, hdropped]
  intro heq
  have hlast := (append_inj' heq rfl).2
  exact absurd hlast (by decide)

/-- After `2 ^ 64` writes the counter is back where it was, and a fill from
before them is taken. -/
theorem lru_takes_superseded_fill : ∃ n c,
    LruNodes.create 1 = some n ∧ LruCache.create 1 = some c ∧
      (n.run nextAllocator [0]
          (List.replicate (2 ^ 64) (.put [1] [2]) ++ [.fill [1] [3] 0])).1 ≠
        (c.run isZero []
          (List.replicate (2 ^ 64) (.put [1] [2]) ++ [.fill [1] [3] 0])).1 := by
  have hcount : ∀ count, writeCount (List.replicate count (.put [1] [2])) =
      count := fun count => by
    rw [writeCount, countP_replicate]
    rfl
  obtain ⟨n, c, hn, hc, hstart⟩ := exists_inStep nextAllocator (show 1 ≤ 1 from le_rfl)
  refine ⟨n, c, hn, hc, hstart.run_fill_ne ?_ ?_ [1] [3]⟩
  · rw [hcount, Nat.mod_self]
  · rw [hcount]
    exact (Nat.two_pow_pos 64).ne'

end Codo.Common
