import Codo.Storage.RightEdge

/-!
# A run that uses up the page ids

Inserts of ever larger keys split the rightmost leaf again and again.  The
size of the keys decides how much room each split takes on the page above, so
the run can be steered to a state in which one id is left and the page above
is full.  The split made there leaves a leaf in the chain that no separator
leads to.
-/

namespace Codo.Storage

open Support Support.Levels Program List

variable {s : Store} {i pad : ℕ}

/-! ## Runs without page faults -/

/-- Calls whose page loads succeed lead from `s` to `s'`. -/
abbrev Leads : Store → Store → Prop :=
  Runs Faults.none 9 fun _ _ => True

variable {Q : Store → Prop}

theorem exists_leads_call (op : DbOp) (h : Always (pageStep Faults.none) (op.program 9) s
      fun _ s' => Q s') : ∃ s', Leads s s' ∧ Q s' := by
  obtain ⟨reply, s', hrun, hQ⟩ := exists_outcome_of_always Faults.none h
  exact ⟨s', .single ⟨op, reply, trivial, hrun⟩, hQ⟩

theorem leads_of_runOps {ops : List DbOp} :
    ∀ {s s' : Store} {replies : List (Option DbReply)},
      Outcome (pageStep Faults.none) (runOps 9 ops) s replies s' → Leads s s' := by
  induction ops with
  | nil =>
    intro s s' replies hrun
    obtain ⟨-, rfl⟩ := hrun
    exact .refl
  | cons op ops ih =>
    intro s s' replies hrun
    obtain ⟨reply, s₁, hcall, hrest⟩ := outcome_bind.mp hrun
    obtain ⟨replies', s₂, hrun', -, rfl⟩ := outcome_bind.mp hrest
    exact .head ⟨op, reply, trivial, hcall⟩ (ih hrun')

theorem exists_leads_runOps {ops : List DbOp} (h : Always (pageStep Faults.none) (runOps 9 ops) s
      fun _ s' => Q s') : ∃ s', Leads s s' ∧ Q s' := by
  obtain ⟨replies, s', hrun, hQ⟩ := exists_outcome_of_always Faults.none h
  exact ⟨s', leads_of_runOps hrun, hQ⟩

/-! ## Keys of chosen order and size -/

/-- The `i`-th key, padded to `4 + pad` bytes. -/
def paddedKey (pad i : ℕ) : Bytes :=
  beBytes 4 i ++ List.replicate pad 0

@[simp] theorem length_paddedKey (pad i : ℕ) : (paddedKey pad i).length = 4 + pad := by
  simp [paddedKey]

theorem paddedKey_lt {j : ℕ} (hij : i < j) (hj : j < 2 ^ 32) (pad pad' : ℕ) :
    paddedKey pad i < paddedKey pad' j := by
  apply beBytes_append_lt
  rw [Nat.mod_eq_of_lt (by omega), Nat.mod_eq_of_lt (by omega)]
  exact hij

theorem legalSizes_paddedKey (hpad : pad ≤ 252) (i : ℕ) :
    LegalSizes (paddedKey pad i) bigValue := by
  refine ⟨by simp, ?_, bigValue_length.le⟩
  rw [length_paddedKey, maxKeySize]
  omega

theorem size_leafPair (pad i : ℕ) : (leafPair (paddedKey pad i, bigValue)).size = 1036 + pad := by
  simp [leafPair, KvPair.size, kvPairSize, bigValue_length, maxValueSize]
  omega

/-- Three pairs with the keys from `i` on; a fourth does not fit beside them. -/
def paddedPairs (pad i : ℕ) : List (Bytes × Bytes) :=
  [i, i + 1, i + 2].map fun j => (paddedKey pad j, bigValue)

theorem mem_paddedPairs {p : Bytes × Bytes} (hp : p ∈ paddedPairs pad i) :
    ∃ j, (i ≤ j ∧ j < i + 3) ∧ p = (paddedKey pad j, bigValue) := by
  obtain ⟨j, hj, rfl⟩ := mem_map.mp hp
  simp only [mem_cons, not_mem_nil, or_false] at hj
  exact ⟨j, by omega, rfl⟩

theorem eq_leafPair_of_perm {ps : List KvPair}
    (hperm : ps.Perm ((paddedPairs pad i).map leafPair)) {p : KvPair} (hp : p ∈ ps) :
    ∃ j, (i ≤ j ∧ j < i + 3) ∧ p = leafPair (paddedKey pad j, bigValue) := by
  obtain ⟨x, hx, rfl⟩ := mem_map.mp (hperm.subset hp)
  obtain ⟨j, hj, rfl⟩ := mem_paddedPairs hx
  exact ⟨j, hj, rfl⟩

theorem totalSize_paddedPairs (pad i : ℕ) :
    totalSize ((paddedPairs pad i).map leafPair) = 3 * (1036 + pad) := by
  simp only [paddedPairs, map_cons, map_nil, totalSize_cons, totalSize_nil, size_leafPair]
  omega

theorem distinct_paddedPairs (hi : i + 3 < 2 ^ 32) :
    (paddedPairs pad i).Pairwise fun p q => p.1 ≠ q.1 := by
  have hkeys : [i, i + 1, i + 2].Pairwise fun j k => j < k ∧ k < 2 ^ 32 := by
    simp
    omega
  exact pairwise_map.mpr (hkeys.imp fun hjk => (paddedKey_lt hjk.1 hjk.2 pad pad).ne)

theorem Tree.exists_filled {h : ℕ} {L : Slots} (ht : Tree s h L)
    (hlink : Linked s L) {slot : TreeSlot} (hslot : slot ∈ L)
    (hempty : s.leafPairs slot.1 = []) (hpad : pad ≤ 252) (hi : i + 3 < 2 ^ 32)
    (hroute : ∀ j, i ≤ j → j < i + 3 → routeAt L (paddedKey pad j) = some slot) :
    ∃ s' new, Leads s s' ∧ new.Perm ((paddedPairs pad i).map leafPair) ∧
      Tree.Rewritten s h L slot s' [] new := by
  have hlegal : ∀ p ∈ paddedPairs pad i, LegalSizes p.1 p.2 := by
    intro p hp
    obtain ⟨j, -, rfl⟩ := mem_paddedPairs hp
    exact legalSizes_paddedKey hpad j
  have hroutes : ∀ p ∈ paddedPairs pad i, routeAt L p.1 = some slot := by
    intro p hp
    obtain ⟨j, ⟨hij, hj⟩, rfl⟩ := mem_paddedPairs hp
    exact hroute j hij hj
  have hfits : totalSize (s.leafPairs slot.1) +
      totalSize ((paddedPairs pad i).map leafPair) ≤ btreePageCapacity := by
    rw [hempty, totalSize_paddedPairs, totalSize_nil, btreePageCapacity_eq]
    omega
  obtain ⟨s', hleads, new, hperm, hw⟩ := exists_leads_runOps
    (ht.always_fill 9 1 hslot (paddedPairs pad i) hlegal hroutes
      (distinct_paddedPairs hi) hlink (by simp [hempty]) hfits)
  rw [hempty] at hperm hw
  exact ⟨s', new, hleads, hperm, hw⟩

/-! ## The right end of the tree -/

/-- The rightmost leaf is `n`, the page above it has `ρ` bytes free, and keys
from the `i`-th on belong to `n`. -/
structure RightEnd (s : Store) (h : ℕ) (A : List (UInt32 × WithTop Bytes))
    (n : UInt32) (i ρ : ℕ) : Prop where
  tree : Tree s (h + 1) (A ++ [(n, ⊤)])
  linked : Linked s (A ++ [(n, ⊤)])
  room : Above s h n (· = ρ)
  bounds : ∀ slot ∈ A, ∀ pad j, i ≤ j → j < 2 ^ 32 → slot.2 < (paddedKey pad j : WithTop Bytes)

variable {h : ℕ} {A : Slots} {n : UInt32} {ρ : ℕ}

section Moves

variable {s' : Store}

section

variable (he : RightEnd s h A n i ρ)
include he

theorem RightEnd.routeAt_eq (pad : ℕ) {j : ℕ} (hij : i ≤ j) (hj : j < 2 ^ 32) :
    routeAt (A ++ [(n, ⊤)]) (paddedKey pad j) = some (n, ⊤) :=
  routeAt_append (fun slot hslot => he.bounds slot hslot pad j hij hj) le_top

theorem RightEnd.mono {j : ℕ} (hij : i ≤ j) : RightEnd s h A n j ρ :=
  ⟨he.tree, he.linked, he.room, fun slot hslot pad k hjk =>
    he.bounds slot hslot pad k (hij.trans hjk)⟩

theorem RightEnd.room_le : ρ ≤ 4024 := by
  rw [← btreePageCapacity_eq]
  exact he.tree.room_le mem_concat_self he.room

theorem RightEnd.rewritten {old new : List KvPair}
    (hw : Tree.Rewritten s (h + 1) (A ++ [(n, ⊤)]) (n, ⊤) s' old new) : RightEnd s' h A n i ρ := by
  refine ⟨hw.tree, hw.linked he.linked, ?_, he.bounds⟩
  refine he.room.transfer ?_
  intro k hk slot hslot
  apply hw.pages
  exact (he.tree.apart k (Nat.lt_succ_of_le hk) slot hslot 0 le_rfl (n, ⊤) hw.mem).symm

theorem RightEnd.exists_cleared :
    ∃ s', Leads s s' ∧ RightEnd s' h A n i ρ ∧ s'.idsLeft = s.idsLeft ∧ s'.leafPairs n = [] := by
  induction hlen : (s.leafPairs n).length generalizing s with
  | zero => exact ⟨s, .refl, he, rfl, eq_nil_of_length_eq_zero hlen⟩
  | succ k ih =>
    obtain ⟨p, rest, hpairs⟩ := exists_cons_of_length_eq_add_one hlen
    have hp : p ∈ s.leafPairs n := by
      rw [hpairs]
      exact mem_cons_self
    have hroute := he.tree.leaves.routed (n, ⊤) mem_concat_self p hp
    obtain ⟨s₁, hleads₁, old, new, hw, hshort⟩ : ∃ s₁, Leads s s₁ ∧
        ∃ old new, Tree.Rewritten s (h + 1) (A ++ [(n, ⊤)]) (n, ⊤) s₁ old
          new ∧ old.length = new.length + 1 := by
      apply exists_leads_call (.delete 1 p.key)
      rw [DbOp.program]
      refine always_bind.mpr ?_
      refine (he.tree.always_dbDelete (isSome_activeHandle 1) p.key he.tree.height_lt).mono ?_
      rintro r s' (⟨-, -, hF | hnone⟩ | ⟨-, slot, xs, q, ys, hslot, -, hw⟩)
      · exact absurd hF (by decide)
      · refine absurd rfl (lookup_eq_none_iff.mp hnone p ?_)
        exact mem_flatMap.mpr ⟨(n, ⊤), mem_concat_self, hp⟩
      · rw [hroute] at hslot
        cases hslot
        exact always_pure.mpr ⟨_, _, hw, by simp [Nat.add_assoc]⟩
    have hlen₁ : (s₁.leafPairs n).length = k := by
      rw [hw.after]
      rw [hw.before] at hlen
      omega
    obtain ⟨s', hleads, he', hids, hempty⟩ := ih (he.rewritten hw) hlen₁
    exact ⟨s', hleads₁.trans hleads, he', hids.trans hw.idsLeft, hempty⟩

/-- The rightmost leaf holds the three pairs from the `i`-th key on. -/
structure Filled (s : Store) (h : ℕ) (A : List (UInt32 × WithTop Bytes))
    (n : UInt32) (i ρ pad : ℕ) : Prop extends RightEnd s h A n i ρ where
  pairs : (s.leafPairs n).Perm ((paddedPairs pad i).map leafPair)

theorem RightEnd.exists_filled (hpad : pad ≤ 252) (hi : i + 3 < 2 ^ 32) :
    ∃ s', Leads s s' ∧ Filled s' h A n i ρ pad ∧ s'.idsLeft = s.idsLeft := by
  obtain ⟨s₁, hleads₁, he₁, hids₁, hempty⟩ := he.exists_cleared
  obtain ⟨s', new, hleads, hperm, hw⟩ := he₁.tree.exists_filled he₁.linked mem_concat_self
    hempty hpad hi fun j hij hj => he₁.routeAt_eq pad hij (by omega)
  refine ⟨s', hleads₁.trans hleads, ⟨he₁.rewritten hw, ?_⟩, hw.idsLeft.trans hids₁⟩
  rw [hw.after]
  exact hperm

end

section

variable (hf : Filled s h A n i ρ pad)
include hf

theorem Filled.exists_key {p : KvPair} (hp : p ∈ s.leafPairs n) :
    ∃ j, (i ≤ j ∧ j < i + 3) ∧ p = leafPair (paddedKey pad j, bigValue) :=
  eq_leafPair_of_perm hf.pairs hp

theorem Filled.totalSize_eq : totalSize (s.leafPairs n) = 3 * (1036 + pad) := by
  rw [totalSize, (hf.pairs.map _).sum_nat, ← totalSize, totalSize_paddedPairs]

/-- A fourth pair makes `db_insert` split the rightmost leaf. -/
theorem Filled.always_dbInsert (hpad : pad ≤ 252) (hi : i + 3 < 2 ^ 32) {Q : ℤ → Store → Prop}
    (hsplit : ∀ page, s.pages n = some page → page.freeSpace < 1288 →
      (∀ p ∈ page.pairs, kvPairSize + p.key.length = 12 + pad) → Always (pageStep Faults.none) (do
        let rc ← btreeSplitNode n btreeMaxDepth
        if rc ≠ 0 then pure (-1)
        else dbInsertLoop 1 (paddedKey pad (i + 3)) bigValue 31) s Q) :
    Always (pageStep Faults.none)
      (dbInsert (activeHandle 1) (paddedKey pad (i + 3)) bigValue) s Q := by
  have hlegal : (leafPair (paddedKey pad (i + 3), bigValue)).LeafLegal :=
    legalSizes_paddedKey hpad (i + 3)
  have hroute := hf.routeAt_eq pad (Nat.le_add_right i 3) hi
  obtain ⟨page, hpage, hleaf⟩ := hf.tree.leaves.leaf (n, ⊤) mem_concat_self
  have hpairs := Store.leafPairs_eq hpage
  have hspace := hleaf.holds.freeSpace
  rw [← hpairs, hf.totalSize_eq, btreePageCapacity_eq] at hspace
  have hnone : lookup (s.pairsOf (A ++ [(n, ⊤)])) (paddedKey pad (i + 3)) = none := by
    rw [hf.tree.lookup_eq hroute hpage, lookup_eq_none_iff, ← hpairs]
    intro p hp
    obtain ⟨j, ⟨-, hj⟩, rfl⟩ := hf.exists_key hp
    exact (paddedKey_lt hj hi pad pad).ne
  have hsize := size_leafPair pad (i + 3)
  rw [dbInsert, show activeTxn (activeHandle 1) = some ⟨1, .active⟩ from rfl]
  simp only [if_neg (Tree.not_illegalSizes hlegal)]
  refine hf.tree.always_dbInsertLoop_step hlegal ?_ ?_ ?_ ?_
  · intro hF
    exact absurd hF (by decide)
  · intro hfound
    exact absurd hnone hfound
  · intro slot s' xs ys hroute' _ hw
    rw [hroute] at hroute'
    cases hroute'
    have hmany := hw.tree.totalSize_le mem_concat_self
    have hthree := hf.totalSize_eq
    rw [hw.before, totalSize_append] at hthree
    rw [hw.after, totalSize_append, totalSize_cons, btreePageCapacity_eq]
      at hmany
    change _ + ((leafPair (paddedKey pad (i + 3), bigValue)).size + _) ≤ _
      at hmany
    omega
  · intro slot page' hroute' hpage' _ hfull _
    rw [hroute] at hroute'
    cases hroute'
    rw [hpage] at hpage'
    cases hpage'
    refine hsplit page hpage (by omega) ?_
    intro p hp
    rw [← hpairs] at hp
    obtain ⟨j, -, rfl⟩ := hf.exists_key hp
    simp [leafPair, kvPairSize]
    omega

theorem Filled.halved {h' ρ' : ℕ} {r : UInt32} {ls rs : List KvPair}
    {q : KvPair} (hhalf : Halved s A [] n ⊤ s' h' r ls q rs) (hroom : Above s' h' r (· = ρ')) :
    RightEnd s' h' (A ++ [(n, (q.key : WithTop Bytes))]) r (i + 3) ρ' := by
  have hlist : A ++ [(n, (q.key : WithTop Bytes))] ++ [(r, ⊤)] =
      A ++ (n, (q.key : WithTop Bytes)) :: [(r, ⊤)] := by simp
  constructor
  · rw [hlist]
    exact hhalf.tree
  · rw [hlist]
    exact hhalf.kept.linked hf.linked
  · exact hroom
  · intro slot hslot pad' j hij hj
    rcases mem_append.mp hslot with hA | hn
    · exact hf.bounds slot hA pad' j (by omega) hj
    · have hq : q ∈ s.leafPairs n := by
        rw [hhalf.old]
        simp
      obtain ⟨k, ⟨-, hk⟩, rfl⟩ := hf.exists_key hq
      rw [mem_singleton.mp hn]
      exact WithTop.coe_lt_coe.mpr (paddedKey_lt (by omega) hj pad pad')

theorem Filled.always_retry {h' ρ' : ℕ} {r : UInt32} {ls rs : List KvPair}
    {q : KvPair} (hpad : pad ≤ 252) (hi : i + 3 < 2 ^ 32)
    (hhalf : Halved s A [] n ⊤ s' h' r ls q rs) (hroom : Above s' h' r (· = ρ')) :
    Always (pageStep Faults.none) (dbInsertLoop 1 (paddedKey pad (i + 3)) bigValue 31) s'
      fun _ s'' => s''.idsLeft = s'.idsLeft ∧
        RightEnd s'' h' (A ++ [(n, (q.key : WithTop Bytes))]) r (i + 4) ρ' := by
  have he := hf.halved hhalf hroom
  have hlegal : (leafPair (paddedKey pad (i + 3), bigValue)).LeafLegal :=
    legalSizes_paddedKey hpad (i + 3)
  have hold : ∀ p ∈ ls ++ [q] ++ rs, ∃ j, (i ≤ j ∧ j < i + 3) ∧
      p = leafPair (paddedKey pad j, bigValue) := by
    rw [← hhalf.old]
    exact fun p hp => hf.exists_key hp
  have hnew : ∀ p ∈ s'.leafPairs r, p.key ≠ paddedKey pad (i + 3) := by
    intro p hp
    rw [hhalf.right] at hp
    obtain ⟨j, ⟨-, hj⟩, rfl⟩ := hold p (mem_append_right _ hp)
    exact (paddedKey_lt hj hi pad pad).ne
  have hfits : totalSize (s'.leafPairs r) + (leafPair (paddedKey pad (i + 3), bigValue)).size ≤
        btreePageCapacity := by
    have hthree := hf.totalSize_eq
    obtain ⟨j, -, rfl⟩ := hold q (by simp)
    rw [hhalf.old, totalSize_append, totalSize_append, totalSize_cons, size_leafPair] at hthree
    rw [hhalf.right, size_leafPair, btreePageCapacity_eq]
    omega
  refine (he.tree.always_dbInsertLoop_fits hlegal (he.routeAt_eq pad le_rfl hi)
    hnew hfits 30).mono ?_
  rintro rc s'' (hF | ⟨-, xs, ys, hw⟩)
  · exact absurd hF (by decide)
  · exact ⟨hw.idsLeft, (he.rewritten hw).mono (Nat.le_succ _)⟩

end

/-- A fourth pair in the rightmost leaf, by what becomes of the split. -/
theorem RightEnd.exists_leads (he : RightEnd s h A n i ρ) (hpad : pad ≤ 252) (hi : i + 3 < 2 ^ 32)
    (hsplit : ∀ s₁ page, Filled s₁ h A n i ρ pad → s₁.idsLeft = s.idsLeft →
      s₁.pages n = some page → page.freeSpace < 1288 →
      (∀ p ∈ page.pairs, kvPairSize + p.key.length = 12 + pad) →
      Always (pageStep Faults.none) (btreeSplitNode n btreeMaxDepth) s₁
        fun rc s₂ => rc = -1 ∧ Q s₂ ∨ rc = 0 ∧ Always (pageStep Faults.none)
            (dbInsertLoop 1 (paddedKey pad (i + 3)) bigValue 31) s₂
            fun _ s' => Q s') : ∃ s', Leads s s' ∧ Q s' := by
  obtain ⟨s₁, hleads₁, hf, hids⟩ := he.exists_filled hpad hi
  obtain ⟨s', hleads, hQ⟩ : ∃ s', Leads s₁ s' ∧ Q s' := by
    apply exists_leads_call (.insert 1 (paddedKey pad (i + 3)) bigValue)
    rw [DbOp.program]
    refine always_bind.mpr ((hf.always_dbInsert hpad hi ?_).mono fun rc s' hQ => always_pure.mpr hQ)
    intro page hpage hfull hseps
    refine (hsplit s₁ page hf hids hpage hfull hseps).bind ?_
    rintro rc s₂ (⟨rfl, hQ⟩ | ⟨rfl, hretry⟩)
    · exact always_pure.mpr hQ
    · exact hretry
  exact ⟨s', hleads₁.trans hleads, hQ⟩

/-- With room above, a split takes one id and `12 + pad` bytes of the room. -/
theorem RightEnd.exists_bump (he : RightEnd s h A n i ρ) (hpad : pad ≤ 252)
    (hi : i + 3 < 2 ^ 32) (hroom : 12 + pad ≤ ρ) (hids : 1 ≤ s.idsLeft) :
    ∃ s', Leads s s' ∧ s.idsLeft = s'.idsLeft + 1 ∧
      ∃ A' n', RightEnd s' h A' n' (i + 4) (ρ - (12 + pad)) := by
  refine he.exists_leads hpad hi ?_
  intro s₁ page hf hids₁ hpage hfull hseps
  have habove : Above s₁ h n (12 + pad ≤ ·) := hf.room.mono fun x hx => hx ▸ hroom
  refine (hf.tree.always_split_roomy hpage hfull hseps (by omega) habove).mono ?_
  rintro rc s₂ ⟨rfl, hspent, r, ls, q, rs, hhalf, htaken⟩
  have hleft : Above s₂ h r (· = ρ - (12 + pad)) := htaken _ (hf.room.mono fun x hx _ => hx ▸ rfl)
  refine .inr ⟨rfl, (hf.always_retry hpad hi hhalf hleft).mono ?_⟩
  rintro rc s' ⟨hsame, hend⟩
  exact ⟨by omega, _, _, hend⟩

/-- Without room above, a split takes up to eleven ids and makes room. -/
theorem RightEnd.exists_cascade (he : RightEnd s h A n i ρ)
    (hi : i + 3 < 2 ^ 32) (hroom : ρ < 264) (hids : 11 ≤ s.idsLeft) :
    ∃ s', Leads s s' ∧ s'.idsLeft < s.idsLeft ∧ s.idsLeft ≤ s'.idsLeft + 11 ∧
      ∃ h' A' n' ρ', RightEnd s' h' A' n' (i + 4) ρ' ∧ 1484 ≤ ρ' := by
  refine he.exists_leads (le_refl 252) hi ?_
  intro s₁ page hf hids₁ hpage hfull hseps
  have habove : Above s₁ h n (· < 12 + 252) := hf.room.mono fun x hx => hx ▸ hroom
  refine (hf.tree.always_split_cascade hpage hfull hseps (by omega) habove).mono ?_
  rintro rc s₂ ⟨rfl, hless, hmore, h', r, ls, q, rs, hhalf, hplenty⟩
  have hr : (r, (⊤ : WithTop Bytes)) ∈ A ++ (n, (q.key : WithTop Bytes)) :: [(r, ⊤)] := by simp
  obtain ⟨ρ', -, hroom'⟩ := hhalf.tree.exists_room hr
  have hlarge : 1748 - (12 + 252) ≤ ρ' := hhalf.tree.of_above hr hroom' hplenty
  refine .inr ⟨rfl, (hf.always_retry (le_refl 252) hi hhalf hroom').mono ?_⟩
  rintro rc s' ⟨hsame, hend⟩
  exact ⟨by omega, by omega, h', _, _, ρ', hend, hlarge⟩

/-- Without room above and with one id left, the split breaks the tree. -/
theorem RightEnd.exists_strike (he : RightEnd s h A n i ρ)
    (hi : i + 3 < 2 ^ 32) (hroom : ρ < 264) (hids : s.idsLeft = 1) :
    ∃ s', Leads s s' ∧ ¬ Sound s' := by
  refine he.exists_leads (le_refl 252) hi ?_
  intro s₁ page hf hids₁ hpage hfull hseps
  have habove : Above s₁ h n (· < 12 + 252) := hf.room.mono fun x hx => hx ▸ hroom
  refine (hf.tree.always_split_starved hf.linked hpage hfull hseps
    (hids₁.trans hids) habove).mono ?_
  rintro rc s' ⟨rfl, htree, hlink⟩
  exact .inl ⟨rfl, htree.not_sound hlink⟩

end Moves

section

variable (he : RightEnd s h A n i ρ)
include he

/-- With `a` ids to spend before the last one, splits by short and by long keys
fill the page above. -/
theorem RightEnd.exists_broken (a : ℕ) (hi : i + 4 * s.idsLeft < 2 ^ 32)
    (hids : s.idsLeft = a + 1) (hlow : 12 * a ≤ ρ) (hhigh : ρ < 264 * (a + 1)) :
    ∃ s', Leads s s' ∧ ¬ Sound s' := by
  induction a generalizing s A n i ρ with
  | zero => exact he.exists_strike (by omega) (by omega) hids
  | succ a ih =>
    obtain ⟨pad, hpad, hfits, hlow', hhigh'⟩ : ∃ pad ≤ 252, 12 + pad ≤ ρ ∧
        12 * a ≤ ρ - (12 + pad) ∧ ρ - (12 + pad) < 264 * (a + 1) := by
      by_cases hlong : 264 + 12 * a ≤ ρ
      · exact ⟨252, le_rfl, by omega, by omega, by omega⟩
      · exact ⟨0, by omega, by omega, by omega, by omega⟩
    obtain ⟨s₁, hleads₁, hspent, A', n', he'⟩ := he.exists_bump hpad (by omega) hfits (by omega)
    obtain ⟨s', hleads, hbroken⟩ := ih he' (by omega) (by omega) hlow' hhigh'
    exact ⟨s', hleads₁.trans hleads, hbroken⟩

/-- One split by a long key, with or without room above. -/
theorem RightEnd.exists_split (hi : i + 3 < 2 ^ 32) (hids : 11 ≤ s.idsLeft) :
    ∃ s', Leads s s' ∧ s'.idsLeft < s.idsLeft ∧ s.idsLeft ≤ s'.idsLeft + 11 ∧
      ∃ h' A' n' ρ', RightEnd s' h' A' n' (i + 4) ρ' := by
  by_cases hroom : ρ < 264
  · obtain ⟨s', hleads, hless, hmore, h', A', n', ρ', he', -⟩ := he.exists_cascade hi hroom hids
    exact ⟨s', hleads, hless, hmore, h', A', n', ρ', he'⟩
  · obtain ⟨s', hleads, hspent, A', n', he'⟩ :=
      he.exists_bump (le_refl 252) hi (by omega) (by omega)
    exact ⟨s', hleads, by omega, by omega, h, A', n', _, he'⟩

/-- With up to a hundred ids left, a cascade leaves enough room above. -/
theorem RightEnd.exists_broken_of_few (k : ℕ) (hi : i + 4 * s.idsLeft < 2 ^ 32)
    (hfew : s.idsLeft ≤ 100) (hρ : ρ < 264 * (k + 1)) (hmany : 30 + k ≤ s.idsLeft) (hk : k ≤ 15) :
    ∃ s', Leads s s' ∧ ¬ Sound s' := by
  induction k generalizing s h A n i ρ with
  | zero =>
    obtain ⟨s₁, hleads₁, hless, hmore, h', A', n', ρ', he', hlarge⟩ :=
      he.exists_cascade (by omega) hρ (by omega)
    have hmost := he'.room_le
    obtain ⟨s', hleads, hbroken⟩ := he'.exists_broken (s₁.idsLeft - 1)
      (by omega) (by omega) (by omega) (by omega)
    exact ⟨s', hleads₁.trans hleads, hbroken⟩
  | succ k ih =>
    by_cases hroom : ρ < 264
    · exact ih he hi hfew (by omega) (by omega) (by omega)
    · obtain ⟨s₁, hleads₁, hspent, A', n', he'⟩ :=
        he.exists_bump (le_refl 252) (by omega) (by omega) (by omega)
      obtain ⟨s', hleads, hbroken⟩ := ih he' (by omega) (by omega) (by omega) (by omega) (by omega)
      exact ⟨s', hleads₁.trans hleads, hbroken⟩

/-- From any right end with enough ids the run reaches the point where few are
left. -/
theorem RightEnd.exists_broken_of_many (hi : i + 4 * s.idsLeft < 2 ^ 32)
    (hmany : 60 ≤ s.idsLeft) : ∃ s', Leads s s' ∧ ¬ Sound s' := by
  induction hids : s.idsLeft using Nat.strong_induction_on generalizing s h A n i ρ with
  | _ ids ih =>
    by_cases hfew : s.idsLeft ≤ 100
    · have hmost := he.room_le
      exact he.exists_broken_of_few 15 hi hfew (by omega) (by omega) le_rfl
    · obtain ⟨s₁, hleads₁, hless, hmore, h', A', n', ρ', he'⟩ :=
        he.exists_split (by omega) (by omega)
      obtain ⟨s', hleads, hbroken⟩ := ih s₁.idsLeft (by omega) he' (by omega) (by omega) rfl
      exact ⟨s', hleads₁.trans hleads, hbroken⟩

end

/-! ## The start of the run -/

/-- Four inserts into a fresh engine make the root an internal page. -/
theorem exists_rightEnd (lsn : UInt64) (checksum : UInt32) :
    ∃ s h A n ρ, Leads (Store.fresh lsn checksum) s ∧ RightEnd s h A n 4 ρ ∧ 60 ≤ s.idsLeft := by
  have hempty : (Store.fresh lsn checksum).leafPairs rootPageId = [] := by
    simpa [Store.pairsOf] using pairsOf_fresh lsn checksum
  obtain ⟨s₁, new, hleads₁, hperm, hw⟩ := (tree_fresh lsn checksum).exists_filled
    (linked_fresh lsn checksum) (mem_singleton_self _) hempty
    (Nat.zero_le 252) (show 0 + 3 < 2 ^ 32 by norm_num) fun j _ _ => by simp [routeAt]
  have hpairs : s₁.pairsOf rootSlots = new := by simp [Store.pairsOf, hw.after]
  have hkeys : ∀ p ∈ s₁.pairsOf rootSlots, ∃ j < 3, p = leafPair (paddedKey 0 j, bigValue) := by
    intro p hp
    rw [hpairs] at hp
    obtain ⟨j, ⟨-, hj⟩, rfl⟩ := eq_leafPair_of_perm hperm hp
    exact ⟨j, by omega, rfl⟩
  have hids : s₁.idsLeft = 999998 := hw.idsLeft.trans (Store.fresh_idsLeft lsn checksum)
  have hlegal : (leafPair (paddedKey 0 3, bigValue)).LeafLegal := legalSizes_paddedKey (by omega) 3
  obtain ⟨s, hleads, hspent, hinserted⟩ : ∃ s, Leads s₁ s ∧ s₁.idsLeft ≤ s.idsLeft + 40 ∧
      Tree.Inserted s₁ rootSlots s (leafPair (paddedKey 0 3, bigValue)) := by
    apply exists_leads_call (.insert 1 (paddedKey 0 3) bigValue)
    rw [DbOp.program]
    refine always_bind.mpr ?_
    refine (hw.tree.always_dbInsert hlegal (isSome_activeHandle 1)).mono ?_
    rintro rc s' (⟨-, -, hspent, hinserted⟩ | ⟨-, -, hfound⟩ | ⟨-, hstarved, -⟩)
    · exact always_pure.mpr ⟨hspent, hinserted⟩
    · refine absurd (lookup_eq_none_iff.mpr ?_) hfound
      intro p hp
      obtain ⟨j, hj, rfl⟩ := hkeys p hp
      exact (paddedKey_lt hj (by norm_num) 0 0).ne
    · exact absurd hstarved.lt (by omega)
  obtain ⟨-, h', L', X, Y, ht, hlink, -, hbounds, hbefore, hafter⟩ := hinserted
  have hsum : totalSize (s.pairsOf L') = 4144 := by
    have hthree := congrArg totalSize hbefore
    rw [hpairs, totalSize, (hperm.map _).sum_nat, ← totalSize,
      totalSize_paddedPairs, totalSize_append] at hthree
    rw [hafter, totalSize_append, totalSize_cons, size_leafPair]
    omega
  obtain ⟨A, n, hlast⟩ := exists_below_singleton s.branch rootPageId h'
  obtain rfl : A ++ [(n, ⊤)] = L' := (hlast ⊤).symm.trans ht.upper.level
  cases h' with
  | zero =>
    have hroot : A ++ [(n, ⊤)] = rootSlots := (hlast ⊤).symm
    rw [hroot] at ht hsum
    have hle := ht.totalSize_le (mem_singleton_self _)
    rw [Store.pairsOf_cons, Store.pairsOf, flatMap_nil, append_nil] at hsum
    rw [hsum, btreePageCapacity_eq] at hle
    omega
  | succ h =>
    obtain ⟨ρ, -, hroom⟩ := ht.exists_room mem_concat_self
    refine ⟨s, h, A, n, ρ, hleads₁.trans hleads,
      ⟨ht, hlink (hw.linked (linked_fresh lsn checksum)), hroom, ?_⟩, by omega⟩
    intro slot hslot pad j hij hj
    rcases hbounds slot (mem_append_left _ hslot) with
      ⟨slot', hslot', htop⟩ | ⟨p, hp, hkey⟩
    · have hlt : slot.2 < ⊤ := (pairwise_append.mp ht.ascending).2.2 slot hslot (n, ⊤)
          (mem_singleton_self _)
      rw [mem_singleton.mp hslot'] at htop
      exact absurd htop hlt.ne'
    · obtain ⟨k, hk, rfl⟩ := hkeys p hp
      rw [← hkey]
      exact WithTop.coe_lt_coe.mpr (paddedKey_lt (by omega) hj 0 pad)

/-- Some run of inserts and deletes whose page loads all succeed ends in a state
in which the page graph is not a tree in order. -/
theorem runs_break_chain :
    ∃ s, Runs Faults.none 9 (fun _ _ => True) (Store.fresh 0 0) s ∧
      ¬ Sound s := by
  obtain ⟨s₁, h, A, n, ρ, hleads₁, he, hmany⟩ := exists_rightEnd 0 0
  have hmost := he.tree.alloc.idsLeft_le
  rw [maxPages] at hmost
  obtain ⟨s, hleads, hbroken⟩ := he.exists_broken_of_many (by omega) hmany
  exact ⟨s, hleads₁.trans hleads, hbroken⟩

end Codo.Storage
