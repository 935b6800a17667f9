import Mathlib.Data.Finset.Card
import Mathlib.Logic.Relation
import Mathlib.Order.Interval.Finset.Nat
import Mathlib.Tactic.Ring

/-!
# The secure arena

`secure_malloc` and `secure_free` of `crypto.c`: a locked pool of 64-byte blocks
with a map of the blocks in use, searched first-fit.  A pointer is the offset
into the pool.  The number of blocks is computed from the size in `size_t`, by
the allocation and again by the release.
-/

namespace Codo.Common

def secureMemorySize : ℕ := 1024 * 1024

def secureBlockSize : ℕ := 64

def totalBlocks : ℕ := secureMemorySize / secureBlockSize

/-- The pool of `g_crypto`: the bytes, the blocks in use and the bytes handed
out. -/
structure SecureArena where
  memoryPool : ℕ → UInt8
  allocationMap : ℕ → Bool
  allocated : UInt64

/-- `init_secure_memory_pool`. -/
def SecureArena.init : SecureArena where
  memoryPool _ := 0
  allocationMap _ := false
  allocated := 0

/-- `blocks_needed` and `blocks_to_free`. -/
def blocksNeeded (size : UInt64) : ℕ :=
  let blocks := (size + 64 - 1) / 64
  if blocks = 0 then 1 else blocks.toNat

variable {s : SecureArena} {n i : ℕ} {size : UInt64}

namespace SecureArena

/-- The inner loop of `secure_malloc`: the `n` blocks from `i` on are free. -/
def found (s : SecureArena) (n i : ℕ) : Bool :=
  (List.range n).all fun j => !s.allocationMap (i + j)

/-- The blocks marked and counted by `secure_malloc`. -/
def take (s : SecureArena) (n i : ℕ) : SecureArena where
  memoryPool := s.memoryPool
  allocationMap b := if i ≤ b ∧ b < i + n then true else s.allocationMap b
  allocated := s.allocated + UInt64.ofNat (n * secureBlockSize)

def secureMalloc (s : SecureArena) (size : UInt64) : Option ℕ × SecureArena :=
  let n := blocksNeeded size
  if totalBlocks < n then (none, s)
  else
    match (List.range (totalBlocks + 1 - n)).find? (s.found n) with
    | none => (none, s)
    | some i => (some (i * secureBlockSize), s.take n i)

/-- `secure_free`, of a pointer into the pool. -/
def secureFree (s : SecureArena) (ptr : ℕ) (size : UInt64) : SecureArena :=
  let startBlock := ptr / secureBlockSize
  let n := blocksNeeded size
  { memoryPool := fun k => if ptr ≤ k ∧ k < ptr + n * secureBlockSize then 0 else s.memoryPool k
    allocationMap := fun b =>
      if startBlock ≤ b ∧ b < startBlock + n then false else s.allocationMap b
    allocated := s.allocated - UInt64.ofNat (n * secureBlockSize) }

def write (s : SecureArena) (k : ℕ) (byte : UInt8) : SecureArena :=
  { s with memoryPool := Function.update s.memoryPool k byte }

variable {ptr : ℕ}

theorem found_iff : s.found n i = true ↔ ∀ b, i ≤ b → b < i + n → s.allocationMap b = false := by
  rw [found, List.all_eq_true]
  constructor
  · intro h b hb hlt
    have hfree := h (b - i) (List.mem_range.mpr (by omega))
    rwa [Nat.add_sub_cancel' hb, Bool.not_eq_true'] at hfree
  · intro h j hj
    rw [h (i + j) (by omega) (by have := List.mem_range.mp hj; omega)]
    rfl

/-- A pointer is to the first block of a run that was free. -/
theorem secureMalloc_eq_some (h : (secureMalloc s size).1 = some ptr) :
    ∃ i, ptr = i * secureBlockSize ∧ i + blocksNeeded size ≤ totalBlocks ∧
      s.found (blocksNeeded size) i = true ∧
      (secureMalloc s size).2 = s.take (blocksNeeded size) i := by
  rw [secureMalloc] at h ⊢
  split at h
  case isTrue => cases h
  case isFalse hfits =>
    rw [if_neg hfits]
    split at h
    case h_1 => cases h
    case h_2 i hfind =>
      have hrange := List.mem_range.mp (List.mem_of_find?_eq_some hfind)
      exact ⟨i, (Option.some.inj h).symm, by omega, List.find?_some hfind, rfl⟩

/-- A call fails when no run is free, and changes nothing. -/
theorem secureMalloc_eq_none (h : (secureMalloc s size).1 = none) :
    (secureMalloc s size).2 = s ∧ ∀ i, i + blocksNeeded size ≤ totalBlocks →
      s.found (blocksNeeded size) i = false := by
  rw [secureMalloc] at h ⊢
  split at h
  case isTrue hlarge =>
    rw [if_pos hlarge]
    exact ⟨rfl, fun i hi => absurd hi (by omega)⟩
  case isFalse hfits =>
    rw [if_neg hfits]
    split at h
    case h_1 hfind =>
      refine ⟨rfl, ?_⟩
      intro i hi
      exact Bool.eq_false_iff.mpr (List.find?_eq_none.mp hfind i (List.mem_range.mpr (by omega)))
    case h_2 => cases h

end SecureArena

/-! ## The number of blocks -/

theorem blocksNeeded_eq (size : UInt64) :
    blocksNeeded size = max 1 ((size.toNat + 63) % 2 ^ 64 / 64) := by
  have hvalue : ((size + 64 - 1) / 64).toNat = (size.toNat + 63) % 2 ^ 64 / 64 := by
    have hsize := size.toNat_lt
    have hone : (1 : UInt64).toNat = 1 := rfl
    have hblock : (64 : UInt64).toNat = 64 := rfl
    rw [UInt64.toNat_div, UInt64.toNat_sub, UInt64.toNat_add, hone, hblock]
    omega
  rw [← hvalue, blocksNeeded]
  split
  case isTrue hzero =>
    rw [hzero]
    rfl
  case isFalse hne =>
    have hpos : 0 < ((size + 64 - 1) / 64).toNat :=
      Nat.pos_of_ne_zero fun hzero => hne (UInt64.toNat_inj.mp hzero)
    rw [max_eq_right hpos]

namespace SecureArena

/-- The `size` bytes behind a pointer are in blocks of the pool that were free
before the call and are in use after it. -/
def Serves (s s' : SecureArena) (ptr size : ℕ) : Prop :=
  ∀ k, ptr ≤ k → k < ptr + size → k < secureMemorySize ∧
    s.allocationMap (k / secureBlockSize) = false ∧ s'.allocationMap (k / secureBlockSize) = true

theorem serves_take (hi : i + n ≤ totalBlocks) (hfound : s.found n i = true)
    {bytes : ℕ} (hbytes : bytes ≤ n * secureBlockSize) :
    Serves s (s.take n i) (i * secureBlockSize) bytes := by
  intro k hk hlt
  rw [totalBlocks] at hi
  simp only [secureBlockSize, secureMemorySize] at *
  have hblock : i ≤ k / 64 ∧ k / 64 < i + n := by omega
  exact ⟨by omega, found_iff.mp hfound _ hblock.1 hblock.2, if_pos hblock⟩

/-- Only a size within 63 bytes of the end of `size_t` is served too little, and
then whenever a block is free. -/
theorem secureMalloc_serves_iff (s : SecureArena) (size : UInt64) :
    (∀ ptr, (secureMalloc s size).1 = some ptr →
        Serves s (secureMalloc s size).2 ptr size.toNat) ↔
      size.toNat + 63 < 2 ^ 64 ∨
        ∀ b < totalBlocks, s.allocationMap b = true := by
  have hsize := size.toNat_lt
  have hcount := blocksNeeded_eq size
  constructor
  · intro hserves
    by_contra hnot
    obtain ⟨hwraps, hall⟩ := not_or.mp hnot
    have hone : blocksNeeded size = 1 := by omega
    obtain ⟨b, hb, hfree⟩ : ∃ b < totalBlocks, ¬s.allocationMap b = true := by
      by_contra hnone
      exact hall fun b hb => not_not.mp fun hfree => hnone ⟨b, hb, hfree⟩
    cases hptr : (secureMalloc s size).1 with
    | some ptr =>
      have hlast := (hserves ptr hptr (ptr + secureMemorySize)
        (Nat.le_add_right _ _) (by rw [secureMemorySize]; omega)).1
      omega
    | none =>
      have hnot := (secureMalloc_eq_none hptr).2 b (by omega)
      rw [hone, found] at hnot
      exact absurd hnot (by simpa using hfree)
  · rintro h ptr hptr
    obtain ⟨i, rfl, hi, hfound, heq⟩ := secureMalloc_eq_some hptr
    rw [heq]
    rcases h with hfits | hfull
    · apply serves_take hi hfound
      rw [secureBlockSize]
      omega
    · have hfree := found_iff.mp hfound i le_rfl (by omega)
      rw [hfull i (by omega)] at hfree
      cases hfree

/-- Asked for the largest size, the empty arena hands out one block. -/
theorem secureMalloc_short_block :
    (secureMalloc init 18446744073709551615).1 = some 0 ∧
      ¬Serves init (secureMalloc init 18446744073709551615).2 0
        (18446744073709551615 : UInt64).toNat := by
  constructor
  · decide +kernel
  · intro hserves
    exact absurd (hserves secureMemorySize (Nat.zero_le _) (by decide)).1 (lt_irrefl _)

/-! ## Runs of the arena -/

/-- A live allocation: what `secure_malloc` returned and what it was asked for. -/
structure Allocation where
  ptr : ℕ
  size : UInt64
  deriving DecidableEq

namespace Allocation

/-- The blocks of an allocation. -/
def blocks (a : Allocation) : Finset ℕ :=
  Finset.Ico (a.ptr / secureBlockSize) (a.ptr / secureBlockSize + blocksNeeded a.size)

/-- The bytes of these blocks. -/
def Owns (a : Allocation) (k : ℕ) : Prop :=
  a.ptr ≤ k ∧ k < a.ptr + blocksNeeded a.size * secureBlockSize

end Allocation

/-- One call, or one byte written by a user inside their own blocks.  The list
holds the live allocations. -/
inductive Step : SecureArena × List Allocation → SecureArena × List Allocation → Prop
  | malloc {s live} (size : UInt64) (ptr : ℕ) (h : (secureMalloc s size).1 = some ptr) :
      Step (s, live) ((secureMalloc s size).2, ⟨ptr, size⟩ :: live)
  | refused {s live} (size : UInt64) (h : (secureMalloc s size).1 = none) :
      Step (s, live) ((secureMalloc s size).2, live)
  | free {s live} (a : Allocation) (h : a ∈ live) :
      Step (s, live) (s.secureFree a.ptr a.size, live.erase a)
  | write {s live} (a : Allocation) (k : ℕ) (byte : UInt8) (h : a ∈ live)
      (hown : a.Owns k) : Step (s, live) (s.write k byte, live)

/-- The blocks of the pool that are in use. -/
def used (s : SecureArena) : Finset ℕ :=
  (Finset.range totalBlocks).filter fun b => s.allocationMap b = true

/-- What the arena keeps. -/
structure Kept (s : SecureArena) (live : List Allocation) : Prop where
  disjoint : live.Pairwise fun a b => Disjoint a.blocks b.blocks
  inside : ∀ a ∈ live, secureBlockSize ∣ a.ptr ∧
    a.ptr + blocksNeeded a.size * secureBlockSize ≤ secureMemorySize
  marked : ∀ b, s.allocationMap b = true ↔ ∃ a ∈ live, b ∈ a.blocks
  counted : s.allocated.toNat = secureBlockSize * s.used.card
  clean : ∀ k, s.allocationMap (k / secureBlockSize) = false → s.memoryPool k = 0

variable {live : List Allocation} {a : Allocation}

theorem kept_init : Kept init [] where
  disjoint := List.Pairwise.nil
  inside := fun a ha => absurd ha List.not_mem_nil
  marked := fun b => by simp [init]
  counted := by simp [used, init]
  clean := fun _ _ => rfl

theorem card_used_le (s : SecureArena) : s.used.card ≤ totalBlocks := by
  have hle := Finset.card_filter_le (Finset.range totalBlocks) fun b => s.allocationMap b = true
  rwa [Finset.card_range] at hle

theorem used_take (hi : i + n ≤ totalBlocks) :
    (s.take n i).used = s.used ∪ Finset.Ico i (i + n) := by
  ext b
  rw [used, used, Finset.mem_union, Finset.mem_filter, Finset.mem_filter,
    Finset.mem_Ico, Finset.mem_range, take]
  dsimp only
  split
  case isTrue hb => simp [hb, show b < totalBlocks by omega]
  case isFalse hb => simp [hb]

theorem Kept.take (h : Kept s live) (hi : i + blocksNeeded size ≤ totalBlocks)
    (hfound : s.found (blocksNeeded size) i = true) :
    Kept (s.take (blocksNeeded size) i) (⟨i * secureBlockSize, size⟩ :: live) := by
  have hfree := found_iff.mp hfound
  have hblocks : Allocation.blocks ⟨i * secureBlockSize, size⟩ =
      Finset.Ico i (i + blocksNeeded size) := by
    rw [Allocation.blocks, Nat.mul_div_cancel i (by decide)]
  constructor
  case disjoint =>
    refine List.pairwise_cons.mpr ⟨?_, h.disjoint⟩
    intro a ha
    rw [hblocks, Finset.disjoint_left]
    intro b hrun hb
    obtain ⟨hle, hlt⟩ := Finset.mem_Ico.mp hrun
    exact absurd ((h.marked b).mpr ⟨a, ha, hb⟩) (by simp [hfree b hle hlt])
  case inside =>
    intro a ha
    rcases List.mem_cons.mp ha with rfl | ha
    · refine ⟨Nat.dvd_mul_left _ _, ?_⟩
      rw [← Nat.add_mul]
      exact (Nat.mul_le_mul_right _ hi).trans (by decide)
    · exact h.inside a ha
  case marked =>
    intro b
    rw [List.exists_mem_cons_iff, hblocks, Finset.mem_Ico, ← h.marked b]
    by_cases hb : i ≤ b ∧ b < i + blocksNeeded size <;> simp [SecureArena.take, hb]
  case counted =>
    have hdisjoint : Disjoint s.used (Finset.Ico i (i + blocksNeeded size)) := by
      rw [Finset.disjoint_left]
      intro b hb hrun
      obtain ⟨hle, hlt⟩ := Finset.mem_Ico.mp hrun
      exact absurd (Finset.mem_filter.mp hb).2 (by simp [hfree b hle hlt])
    have hcard := congrArg Finset.card (used_take (s := s) hi)
    rw [Finset.card_union_of_disjoint hdisjoint, Nat.card_Ico, Nat.add_sub_cancel_left] at hcard
    have hle := card_used_le (s.take (blocksNeeded size) i)
    have hcounted := h.counted
    have htotal : totalBlocks = 16384 := rfl
    change (s.allocated + UInt64.ofNat _).toNat = _
    rw [UInt64.toNat_add, UInt64.toNat_ofNat', hcounted, hcard, secureBlockSize]
    omega
  case clean =>
    intro k hk
    apply h.clean
    rw [SecureArena.take] at hk
    dsimp only at hk
    split at hk
    · cases hk
    · exact hk

theorem Kept.perm {live' : List Allocation} (h : Kept s live)
    (hperm : live.Perm live') : Kept s live' where
  disjoint := (hperm.pairwise_iff fun hab => hab.symm).mp h.disjoint
  inside := fun a ha => h.inside a (hperm.mem_iff.mpr ha)
  marked := fun b => by simp only [h.marked, hperm.mem_iff]
  counted := h.counted
  clean := h.clean

theorem Kept.secureFree (h : Kept s (a :: live)) : Kept (s.secureFree a.ptr a.size) live := by
  obtain ⟨hdisjoint, hrest⟩ := List.pairwise_cons.mp h.disjoint
  obtain ⟨⟨i, hptr⟩, hinside⟩ := h.inside a List.mem_cons_self
  have hmap : ∀ b, (s.secureFree a.ptr a.size).allocationMap b = true ↔
      s.allocationMap b = true ∧ b ∉ a.blocks := by
    intro b
    rw [Allocation.blocks, Finset.mem_Ico, SecureArena.secureFree]
    dsimp only
    split
    case isTrue hb => simp [hb]
    case isFalse hb => simp [hb]
  constructor
  case disjoint => exact hrest
  case inside => exact fun a' ha' => h.inside a' (List.mem_cons_of_mem _ ha')
  case marked =>
    intro b
    rw [hmap, h.marked, List.exists_mem_cons_iff]
    constructor
    · rintro ⟨hb | hb, hnot⟩
      · exact absurd hb hnot
      · exact hb
    · rintro ⟨a', ha', hb⟩
      exact ⟨Or.inr ⟨a', ha', hb⟩, Finset.disjoint_right.mp (hdisjoint a' ha') hb⟩
  case counted =>
    have hused : (s.secureFree a.ptr a.size).used = s.used \ a.blocks := by
      ext b
      rw [used, used, Finset.mem_sdiff, Finset.mem_filter, Finset.mem_filter, hmap, and_assoc]
    have hsubset : a.blocks ⊆ s.used := by
      intro b hb
      refine Finset.mem_filter.mpr ⟨?_, (h.marked b).mpr ⟨a, by simp, hb⟩⟩
      have hrange := Finset.mem_Ico.mp hb
      rw [Finset.mem_range, totalBlocks, secureMemorySize, secureBlockSize] at *
      omega
    have hcard : (s.secureFree a.ptr a.size).used.card + blocksNeeded a.size = s.used.card := by
      have hblocks : a.blocks.card = blocksNeeded a.size := by
        rw [Allocation.blocks, Nat.card_Ico, Nat.add_sub_cancel_left]
      rw [hused, ← hblocks, Finset.card_sdiff_add_card_eq_card hsubset]
    have hle := card_used_le s
    have hcounted := h.counted
    have htotal : totalBlocks = 16384 := rfl
    change (s.allocated - UInt64.ofNat _).toNat = _
    rw [UInt64.toNat_sub, UInt64.toNat_ofNat', hcounted, secureBlockSize]
    omega
  case clean =>
    intro k hk
    rw [SecureArena.secureFree]
    dsimp only
    split
    case isTrue => rfl
    case isFalse hout =>
      apply h.clean
      apply Bool.eq_false_iff.mpr
      intro hmarked
      refine absurd ((hmap _).mpr ⟨hmarked, ?_⟩) (by simp [hk])
      rw [Allocation.blocks, Finset.mem_Ico]
      simp only [secureBlockSize] at *
      omega

theorem Kept.write (h : Kept s live) (ha : a ∈ live) {k : ℕ} (hown : a.Owns k)
    (byte : UInt8) : Kept (s.write k byte) live where
  disjoint := h.disjoint
  inside := h.inside
  marked := h.marked
  counted := h.counted
  clean := by
    intro j hj
    have hk : s.allocationMap (k / secureBlockSize) = true := by
      refine (h.marked _).mpr ⟨a, ha, Finset.mem_Ico.mpr ?_⟩
      obtain ⟨hle, hlt⟩ := hown
      obtain ⟨⟨i, hptr⟩, -⟩ := h.inside a ha
      simp only [secureBlockSize] at *
      omega
    have hne : j ≠ k := by
      rintro rfl
      exact Bool.false_ne_true (hj.symm.trans hk)
    exact (Function.update_of_ne hne _ _).trans (h.clean j hj)

theorem Kept.step {x y : SecureArena × List Allocation} (h : Kept x.1 x.2)
    (hstep : Step x y) : Kept y.1 y.2 := by
  cases hstep with
  | malloc size ptr hptr =>
    obtain ⟨i, rfl, hi, hfound, heq⟩ := secureMalloc_eq_some hptr
    rw [heq]
    exact .take h hi hfound
  | refused size hnone =>
    rw [(secureMalloc_eq_none hnone).1]
    exact h
  | free a ha => exact (Kept.perm h (List.perm_cons_erase ha)).secureFree
  | write a k byte ha hown => exact .write h ha hown byte

theorem kept_of_run {x : SecureArena × List Allocation}
    (hrun : Relation.ReflTransGen Step (init, []) x) : Kept x.1 x.2 := by
  induction hrun with
  | refl => exact kept_init
  | tail _ hstep ih => exact ih.step hstep

/-- Along every run of calls and writes the live allocations are apart, inside
the pool, marked and counted, and what is free is zero.  An allocation is refused
only when every free run is too short for it, and a new one is zero. -/
theorem secure_arena_kept {s : SecureArena} {live : List Allocation}
    (hrun : Relation.ReflTransGen Step (init, []) (s, live)) :
    Kept s live ∧
      (∀ size, (secureMalloc s size).1 = none →
        ∀ i n, i + n ≤ totalBlocks →
          (∀ b, i ≤ b → b < i + n → s.allocationMap b = false) →
          n = 0 ∨ n * secureBlockSize < size.toNat) ∧
      ∀ size ptr, (secureMalloc s size).1 = some ptr →
        ∀ k, Allocation.Owns ⟨ptr, size⟩ k →
          (secureMalloc s size).2.memoryPool k = 0 := by
  have hkept : Kept s live := kept_of_run hrun
  refine ⟨hkept, ?_, ?_⟩
  · intro size hnone i n hi hfree
    have hcount := blocksNeeded_eq size
    by_contra hlarge
    have hshort : blocksNeeded size ≤ n := by
      rw [secureBlockSize] at hlarge
      omega
    have hnot := (secureMalloc_eq_none hnone).2 i (by omega)
    rw [found_iff.mpr fun b hle hlt => hfree b hle (by omega)] at hnot
    cases hnot
  · rintro size ptr hptr k ⟨hle, hlt⟩
    obtain ⟨i, rfl, -, hfound, heq⟩ := secureMalloc_eq_some hptr
    rw [heq]
    apply hkept.clean
    simp only [secureBlockSize] at *
    exact found_iff.mp hfound _ (by omega) (by omega)

/-- A key written into an allocation and released again. -/
theorem secure_arena_kept_after_release :
    Kept (((secureMalloc init 100).2.write 5 7).secureFree 0 100) [] :=
  (secure_arena_kept (.tail (.tail (.single (.malloc 100 0 (by decide +kernel)))
    (.write ⟨0, 100⟩ 5 7 List.mem_cons_self ⟨by decide, by decide⟩))
    (.free ⟨0, 100⟩ List.mem_cons_self))).1

end SecureArena

end Codo.Common
