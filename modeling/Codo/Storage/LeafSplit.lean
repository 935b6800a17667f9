import Codo.Storage.Contents

/-!
# Splitting a leaf

`btree_split_node` on a leaf carves it, links the halves and publishes the
separator.  On success the pairs of the tree and the order of its links are
what they were, and the leaf a key routes to is about half as large.  When
publication fails, the right half has already left the old leaf: the tree is
sound but has lost those pairs.
-/

namespace Codo.Storage

open Support Support.Levels Program List Store

variable {s : Store} {L : Slots} {s' : Store}

/-! ## Carving a leaf -/

theorem LeafPage.exists_split {page : BtreePage} (h : LeafPage page)
    (hfull : page.freeSpace < 1288) (id : UInt32) :
    ∃ ls q rs left right, page.pairs = ls ++ [q] ++ rs ∧ rs ≠ [] ∧
      btreeSplitPage page emptyRight id maxKeySize = some (left, right, q.key) ∧
      2 * totalSize (ls ++ [q]) ≤ totalSize page.pairs + 2574 ∧
      2 * totalSize rs ≤ totalSize page.pairs + 2574 ∧ ∀ lsn₁ sum₁ lsn₂ sum₂,
        LeafPage (left.stamp lsn₁ sum₁) ∧ (left.stamp lsn₁ sum₁).pairs = ls ++ [q] ∧
        (left.stamp lsn₁ sum₁).header.nextPageId = id ∧ LeafPage (right.stamp lsn₂ sum₂) ∧
        (right.stamp lsn₂ sum₂).pairs = rs ∧ (right.stamp lsn₂ sum₂).header.nextPageId =
          page.header.nextPageId := by
  obtain ⟨ls, q, rs, left, right, hpairs, hrs, hsplit, hleft, hright, htypeL,
    htypeR, hnextL, hnextR, hsizeL, hsizeR⟩ :=
    exists_btreeSplitPage_leaf h.holds h.type h.legal hfull emptyRight id
  have hsorted := h.sorted
  rw [hpairs, SortedPairs, pairwise_append] at hsorted
  have hlegal : ∀ x ∈ ls ++ [q] ++ rs, x.LeafLegal := by
    rw [← hpairs]
    exact h.legal
  refine ⟨ls, q, rs, left, right, hpairs, hrs, hsplit, hsizeL, by omega, ?_⟩
  intro lsn₁ sum₁ lsn₂ sum₂
  have hleft' := hleft.stamp lsn₁ sum₁
  have hright' := hright.stamp lsn₂ sum₂
  refine ⟨?_, hleft'.pairs_eq, hnextL, ?_, hright'.pairs_eq, hnextR⟩
  · exact LeafPage.of_holds hleft' htypeL hsorted.1 fun x hx => hlegal x (mem_append_left _ hx)
  · exact LeafPage.of_holds hright' htypeR hsorted.2.1 fun x hx => hlegal x (mem_append_right _ hx)

variable {h : ℕ} {A B : Slots} {n : UInt32} {hi : WithTop Bytes}

section Carve

variable {s₁ : Store} {r : UInt32} {left right : BtreePage} {ls rs : List KvPair} {q : KvPair}

/-- The separator of a carved leaf lies between its neighbours' bounds. -/
theorem Tree.ascending_cut (ht : Tree s h (A ++ (n, hi) :: B))
    (hpairs : s.leafPairs n = ls ++ [q] ++ rs) (hrs : rs ≠ []) :
    Ascending (A ++ (n, ↑q.key) :: (r, hi) :: B) := by
  have hmem : (n, hi) ∈ A ++ (n, hi) :: B := by simp
  have hroute : ∀ p ∈ s.leafPairs n, routeAt (A ++ (n, hi) :: B) p.key = some (n, hi) :=
    ht.leaves.routed (n, hi) hmem
  have hq : q ∈ s.leafPairs n := by
    rw [hpairs]
    simp
  have hbefore : ∀ t ∈ A, t.2 < (q.key : WithTop Bytes) := by
    obtain ⟨A', B', hsplit, hA'⟩ := exists_split_of_routeAt (hroute q hq)
    obtain ⟨rfl, -⟩ := append_cons_inj_of_nodup hsplit.symm ht.nodup
    exact hA'
  have hlt : (q.key : WithTop Bytes) < hi := by
    obtain ⟨p, rs', rfl⟩ := exists_cons_of_ne_nil hrs
    obtain ⟨page, hpage, hleaf⟩ := ht.leaves.leaf (n, hi) hmem
    have hsorted := hleaf.sorted
    rw [← leafPairs_eq hpage, hpairs, SortedPairs, pairwise_append] at hsorted
    have hqp : q.key < p.key := hsorted.2.2 q (by simp) p (by simp)
    have hp : p ∈ s.leafPairs n := by
      rw [hpairs]
      simp
    exact lt_of_lt_of_le (WithTop.coe_lt_coe.mpr hqp) (le_of_routeAt (hroute p hp))
  have hasc := ht.ascending
  rw [Ascending, pairwise_append, pairwise_cons] at hasc ⊢
  obtain ⟨hA, ⟨hhead, hB⟩, hcross⟩ := hasc
  refine ⟨hA, ⟨?_, pairwise_cons.mpr ⟨hhead, hB⟩⟩, ?_⟩
  · intro t htB
    rcases mem_cons.mp htB with rfl | htB
    · exact hlt
    · exact hlt.trans (hhead t htB)
  · intro t htA u hu
    rcases mem_cons.mp hu with rfl | hu
    · exact hbefore t htA
    · rcases mem_cons.mp hu with rfl | hu
      · exact (hbefore t htA).trans hlt
      · exact hcross t htA u (mem_cons_of_mem _ hu)

/-- What a carved leaf amounts to: a cut on the last level whose leaves hold the
same pairs in the same order. -/
structure LeafCut (s s₁ : Store) (h : ℕ)
    (A B : List (UInt32 × WithTop Bytes)) (n r : UInt32) (sep : Bytes)
    (hi : WithTop Bytes) : Prop where
  cut : Cut s₁ h 0 A B n r sep hi
  leaves : Leaves s₁ (A ++ (n, ↑sep) :: (r, hi) :: B)
  pairs : s₁.pairsOf (A ++ (n, ↑sep) :: (r, hi) :: B) = s.pairsOf (A ++ (n, hi) :: B)
  linked : Linked s (A ++ (n, hi) :: B) → Linked s₁ (A ++ (n, ↑sep) :: (r, hi) :: B)
  enclosed : Enclosed s (A ++ (n, hi) :: B) → Enclosed s₁ (A ++ (n, ↑sep) :: (r, hi) :: B)
  stored : ∃ p ∈ s.pairsOf (A ++ (n, hi) :: B), p.key = sep

/-- As long as the right half is not published, the tree goes on without it. -/
theorem LeafCut.tree {sep : Bytes} (hcut : LeafCut s s₁ h A B n r sep hi) :
    Tree s₁ h (A ++ (n, hi) :: B) :=
  ⟨hcut.cut.alloc, hcut.cut.upper, hcut.cut.fan.merge,
    hcut.leaves.coarsen hcut.cut.fan.ascending hcut.cut.fan.nodup Fan.coarser_cut⟩

/-- The leaf `n` is carved behind the pair `q`, and the right part is page `r`. -/
structure Carved (s s₁ : Store) (h : ℕ) (A B : Slots) (n : UInt32)
    (hi : WithTop Bytes) (r : UInt32) (page left right : BtreePage)
    (ls : List KvPair) (q : KvPair) (rs : List KvPair) : Prop where
  tree : Tree s h (A ++ (n, hi) :: B)
  old : s.pages n = some page
  pairs : page.pairs = ls ++ [q] ++ rs
  rest : rs ≠ []
  fork : Forked s s₁ n r left right
  leftLeaf : LeafPage left
  leftPairs : left.pairs = ls ++ [q]
  leftNext : left.header.nextPageId = r
  rightLeaf : LeafPage right
  rightPairs : right.pairs = rs
  rightNext : right.header.nextPageId = page.header.nextPageId

namespace Carved

variable {page : BtreePage} (hc : Carved s s₁ h A B n hi r page left right ls q rs)
include hc

theorem old_pairs : s.leafPairs n = ls ++ [q] ++ rs :=
  (leafPairs_eq hc.old).trans hc.pairs

theorem leaf_page : LeafPage page :=
  of_pages hc.old (hc.tree.leaves.leaf (n, hi) mem_append_cons_self)

theorem mem_pairs : q ∈ page.pairs := by
  rw [hc.pairs]
  simp

theorem ascending : Ascending (A ++ (n, ↑q.key) :: (r, hi) :: B) :=
  hc.tree.ascending_cut hc.old_pairs hc.rest

theorem sibling {slot : UInt32 × WithTop Bytes} (hslot : slot ∈ A ++ B) :
    slot ∈ A ++ (n, hi) :: B ∧ slot.1 ≠ n :=
  sibling_of_nodup hc.tree.nodup hslot

theorem same {slot : UInt32 × WithTop Bytes} (hslot : slot ∈ A ++ B) :
    s₁.pages slot.1 = s.pages slot.1 :=
  hc.fork.others _ (hc.tree.fan.owned 0 le_rfl slot (hc.sibling hslot).1) (hc.sibling hslot).2

theorem upper_same {k : ℕ} (hk : k < h) :
    ∀ slot ∈ s.level k, s₁.pages slot.1 = s.pages slot.1 := fun slot hslot =>
  hc.fork.others _ (hc.tree.upper.owned k hk slot hslot)
    (hc.tree.apart k hk slot hslot 0 le_rfl (n, hi) mem_append_cons_self).symm

theorem leaf : ∀ slot ∈ A ++ (n, ↑q.key) :: (r, hi) :: B,
    ∃ page, s₁.pages slot.1 = some page ∧ LeafPage page := by
  intro slot hslot
  rcases mem_cut hslot with hsib | rfl | rfl
  · rw [hc.same hsib]
    exact hc.tree.leaves.leaf slot (hc.sibling hsib).1
  · exact ⟨left, hc.fork.left, hc.leftLeaf⟩
  · exact ⟨right, hc.fork.right, hc.rightLeaf⟩

theorem owned : ∀ slot ∈ A ++ (n, ↑q.key) :: (r, hi) :: B, s₁.Owned slot.1 := by
  intro slot hslot
  rcases mem_cut hslot with hsib | rfl | rfl
  · exact hc.fork.owned _ (hc.tree.fan.owned 0 le_rfl slot (hc.sibling hsib).1)
  · exact hc.fork.owned _ (hc.tree.fan.owned 0 le_rfl (n, hi) mem_append_cons_self)
  · exact hc.fork.taken

theorem ne_fresh {slot : UInt32 × WithTop Bytes} (hslot : slot ∈ A ++ (n, hi) :: B) :
    slot.1 ≠ r := fun heq =>
  hc.fork.fresh (heq ▸ hc.tree.fan.owned 0 le_rfl slot hslot)

theorem nodup : ((A ++ (n, (q.key : WithTop Bytes)) :: (r, hi) :: B).map Prod.fst).Nodup := by
  have hnodup := hc.tree.nodup
  rw [show A ++ (n, (q.key : WithTop Bytes)) :: (r, hi) :: B =
      (A ++ [(n, ↑q.key)]) ++ (r, hi) :: B by simp, map_append, map_cons,
    nodup_middle, nodup_cons, ← map_append]
  refine ⟨?_, by simpa using hnodup⟩
  intro hmem
  obtain ⟨slot, hslot, hid⟩ := mem_map.mp hmem
  rw [append_assoc, singleton_append, mem_append, mem_cons] at hslot
  rcases hslot with hA | rfl | hB
  · exact hc.ne_fresh (by simp [hA]) hid
  · exact hc.ne_fresh mem_append_cons_self hid
  · exact hc.ne_fresh (by simp [hB]) hid

theorem fan : Fan s₁ (A ++ (n, ↑q.key) :: (r, hi) :: B) 0 := by
  refine ⟨fun i hi => absurd hi (Nat.not_lt_zero i), ?_, hc.ascending, hc.nodup, ?_⟩
  · intro slot hslot
    obtain ⟨page', hpage, hleaf⟩ := hc.leaf slot hslot
    exact ⟨page', hpage, hleaf.type⟩
  · intro i hzero slot hslot
    obtain rfl : i = 0 := Nat.le_zero.mp hzero
    exact hc.owned slot hslot

theorem cut : Cut s₁ h 0 A B n r q.key hi := by
  refine ⟨hc.fork.alloc, hc.tree.upper.transfer (fun k hk => hc.upper_same hk)
    hc.fork.owned, hc.fan, ?_, (hc.leaf_page.legal q hc.mem_pairs).2.1⟩
  intro k hk slot hslot i hzero slot' hslot'
  obtain rfl : i = 0 := Nat.le_zero.mp hzero
  have hsameLevel : s₁.level k = s.level k := below_eq_of_pages fun i hi => hc.upper_same (by omega)
  rw [hsameLevel] at hslot
  rcases mem_cut hslot' with hsib | rfl | rfl
  · exact hc.tree.apart k hk slot hslot 0 le_rfl slot' (hc.sibling hsib).1
  · exact hc.tree.apart k hk slot hslot 0 le_rfl (n, hi) mem_append_cons_self
  · intro heq
    refine hc.fork.fresh ?_
    rw [show r = slot.1 from heq]
    exact hc.tree.upper.owned k hk slot hslot

/-- A key of the old leaf goes to the left part up to the separator, and to the
right part behind it. -/
theorem routed_half {p : KvPair} (hp : p ∈ ls ++ [q] ++ rs) :
    (p.key ≤ q.key → routeAt (A ++ (n, ↑q.key) :: (r, hi) :: B) p.key = some (n, ↑q.key)) ∧
    (q.key < p.key → routeAt (A ++ (n, ↑q.key) :: (r, hi) :: B) p.key = some (r, hi)) := by
  have hroute := hc.tree.leaves.routed (n, hi) mem_append_cons_self p (hc.old_pairs ▸ hp)
  rcases routeAt_cut hc.ascending hroute with
    ⟨hmem, -⟩ | ⟨-, ⟨hle, hleft⟩ | ⟨hlt, hright⟩⟩
  · exact absurd rfl (hc.sibling hmem).2
  · exact ⟨fun _ => hleft, fun hlt => absurd (WithTop.coe_le_coe.mp hle) (not_le.mpr hlt)⟩
  · exact ⟨fun hle => absurd (WithTop.coe_lt_coe.mp hlt) (not_lt.mpr hle), fun _ => hright⟩

theorem leaves : Leaves s₁ (A ++ (n, ↑q.key) :: (r, hi) :: B) := by
  have hsorted : SortedPairs (ls ++ [q] ++ rs) := hc.pairs ▸ hc.leaf_page.sorted
  rw [SortedPairs, pairwise_append, pairwise_append] at hsorted
  refine ⟨hc.leaf, fun slot hslot p hp => ?_⟩
  rcases mem_cut hslot with hsib | rfl | rfl
  · rw [leafPairs_congr (hc.same hsib)] at hp
    obtain ⟨hmem, hne⟩ := hc.sibling hsib
    rcases routeAt_cut hc.ascending (hc.tree.leaves.routed slot hmem p hp) with
      ⟨-, hroute⟩ | ⟨heq, -⟩
    · exact hroute
    · exact absurd (by rw [heq]) hne
  · rw [leafPairs_eq hc.fork.left, hc.leftPairs] at hp
    refine (hc.routed_half (mem_append_left _ hp)).1 ?_
    rcases mem_append.mp hp with hls | hone
    · exact (hsorted.1.2.2 p hls q (by simp)).le
    · rw [mem_singleton.mp hone]
  · rw [leafPairs_eq hc.fork.right, hc.rightPairs] at hp
    exact (hc.routed_half (mem_append_right _ hp)).2 (hsorted.2.2 q (by simp) p hp)

theorem pairsOf : s₁.pairsOf (A ++ (n, ↑q.key) :: (r, hi) :: B) =
    s.pairsOf (A ++ (n, hi) :: B) := by
  have hA : s₁.pairsOf A = s.pairsOf A :=
    pairsOf_congr fun slot hslot => hc.same (mem_append_left _ hslot)
  have hB : s₁.pairsOf B = s.pairsOf B :=
    pairsOf_congr fun slot hslot => hc.same (mem_append_right _ hslot)
  simp [hA, hB, leafPairs_eq hc.fork.left, leafPairs_eq hc.fork.right,
    hc.old_pairs, hc.leftPairs, hc.rightPairs]

theorem linked (hlink : Linked s (A ++ (n, hi) :: B)) :
    Linked s₁ (A ++ (n, ↑q.key) :: (r, hi) :: B) := by
  refine hlink.cut (fun slot hslot => nextId_congr (hc.same hslot)) ?_ ?_
  · rw [nextId_eq hc.fork.left, hc.leftNext]
  · rw [nextId_eq hc.fork.right, hc.rightNext, nextId_eq hc.old]

theorem enclosed (henclosed : Enclosed s (A ++ (n, hi) :: B)) :
    Enclosed s₁ (A ++ (n, ↑q.key) :: (r, hi) :: B) := by
  refine henclosed.cut hc.fork.owned hc.fork.taken hc.fork.others hc.fork.left
    hc.fork.right hc.leftLeaf.type hc.rightLeaf.type ?_ hc.leftNext
    (by rw [hc.rightNext, nextId_eq hc.old])
  rintro rfl
  exact hc.fork.fresh hc.tree.owned_root

theorem leafCut : LeafCut s s₁ h A B n r q.key hi :=
  ⟨hc.cut, hc.leaves, hc.pairsOf, hc.linked, hc.enclosed, q, by simp [hc.old_pairs], rfl⟩

end Carved

end Carve

/-! ## The end of a leaf split -/

/-- Every bound in `L'` was a bound in `L` or is a key stored below `L`. -/
def BoundsFrom (s : Store) (L L' : List (UInt32 × WithTop Bytes)) : Prop :=
  ∀ slot ∈ L', (∃ slot' ∈ L, slot'.2 = slot.2) ∨ ∃ p ∈ s.pairsOf L, (p.key : WithTop Bytes) = slot.2

theorem BoundsFrom.refl (s : Store) (L : Slots) : BoundsFrom s L L :=
  fun slot hslot => .inl ⟨slot, hslot, rfl⟩

theorem BoundsFrom.trans {L' L'' : Slots} (h : BoundsFrom s L L')
    (h' : BoundsFrom s' L' L'') (hpairs : s'.pairsOf L' = s.pairsOf L) : BoundsFrom s L L'' := by
  intro slot hslot
  rcases h' slot hslot with ⟨slot', hslot', heq⟩ | ⟨p, hp, heq⟩
  · rw [← heq]
    exact h slot' hslot'
  · rw [hpairs] at hp
    exact .inr ⟨p, hp, heq⟩

/-- The tree with leaves `L'` stores what the tree with leaves `L` stored, its
sibling links are in order if they were, and a new bound is a stored key. -/
structure Kept (s : Store) (L : List (UInt32 × WithTop Bytes)) (s' : Store)
    (L' : List (UInt32 × WithTop Bytes)) : Prop where
  pairs : s'.pairsOf L' = s.pairsOf L
  linked : Linked s L → Linked s' L'
  enclosed : Enclosed s L → Enclosed s' L'
  bounds : BoundsFrom s L L'

theorem Kept.trans {s'' : Store} {L' L'' : Slots} (h : Kept s L s' L')
    (h' : Kept s' L' s'' L'') : Kept s L s'' L'' :=
  ⟨h'.pairs.trans h.pairs, fun hlink => h'.linked (h.linked hlink),
    fun henclosed => h'.enclosed (h.enclosed henclosed), h.bounds.trans h'.bounds h.pairs⟩

theorem Kept.reshape {j j' : ℕ} {K : Slots} (hupper : Upper s j K) (hre : Reshaped s s' j j')
    (h : ∀ slot ∈ L, s'.pages slot.1 = s.pages slot.1) : Kept s L s' L := by
  refine ⟨pairsOf_congr h, ?_, ?_, BoundsFrom.refl s L⟩
  · intro hlink
    exact hlink.congr fun slot hslot => nextId_congr (h slot hslot)
  · intro henclosed
    exact Tree.enclosed_reshape henclosed hupper hre fun slot hslot => ⟨slot, hslot, rfl⟩

theorem Kept.refl (s : Store) (L : Slots) : Kept s L s L :=
  ⟨rfl, fun hlink => hlink, fun henclosed => henclosed, BoundsFrom.refl s L⟩

/-- Publishing the right half of a carved leaf makes the tree whole again. -/
theorem LeafCut.publish {s₁ : Store} {h' : ℕ} {r : UInt32}
    {sep : Bytes} (hcut : LeafCut s s₁ h A B n r sep hi) (hre : Reshaped s₁ s' h h')
    (hupper : Upper s' h' (A ++ (n, ↑sep) :: (r, hi) :: B)) :
    Tree s' h' (A ++ (n, ↑sep) :: (r, hi) :: B) ∧ Kept s (A ++ (n, hi) :: B) s'
        (A ++ (n, ↑sep) :: (r, hi) :: B) ∧
      s'.leafPairs n = s₁.leafPairs n ∧ s'.leafPairs r = s₁.leafPairs r := by
  have hpages : ∀ slot ∈ A ++ (n, ↑sep) :: (r, hi) :: B, s'.pages slot.1 = s₁.pages slot.1 :=
    fun slot hslot => hcut.cut.fan.pages_eq hcut.cut.apart hre le_rfl hslot
  have hkept := Kept.reshape hcut.cut.upper hre hpages
  refine ⟨Tree.reshape hre.alloc hupper hcut.cut.fan hcut.cut.apart hcut.leaves
    hre, ⟨hkept.pairs.trans hcut.pairs, fun hlink => hkept.linked (hcut.linked hlink),
      fun henclosed => hkept.enclosed (hcut.enclosed henclosed), ?_⟩, ?_, ?_⟩
  · intro slot hslot
    rcases mem_cut hslot with hsib | rfl | rfl
    · refine .inl ⟨slot, ?_, rfl⟩
      rcases mem_append.mp hsib with hA | hB
      · exact mem_append_left _ hA
      · exact mem_append_right _ (mem_cons_of_mem _ hB)
    · obtain ⟨p, hp, hkey⟩ := hcut.stored
      exact .inr ⟨p, hp, by rw [hkey]⟩
    · exact .inl ⟨(n, hi), by simp, rfl⟩
  · exact leafPairs_congr (hpages (n, ↑sep) (by simp))
  · exact leafPairs_congr (hpages (r, hi) (by simp))

/-- How the split of the leaf `n` that `key` routes to may end, with up to `c`
fresh pages.  With fewer than `need` ids left nothing is lost. -/
def LeafSplitEnd (F : Faults) (s s' : Store)
    (L : List (UInt32 × WithTop Bytes)) (key : Bytes) (n : UInt32) (need c : ℕ) (rc : ℤ) : Prop :=
  (rc = 0 ∧ s'.exhausted = s.exhausted ∧ s.idsLeft ≤ s'.idsLeft + c ∧
      need ≤ s.idsLeft ∧ ∃ h' L', Tree s' h' L' ∧ Kept s L s' L' ∧
        ∀ slot, routeAt L' key = some slot → 2 * totalSize (s'.leafPairs slot.1) ≤
            totalSize (s.leafPairs n) + 2574) ∨ (rc = -1 ∧ Starved F s s' c ∧
      ∃ h' L', Tree s' h' L' ∧ (Enclosed s L → Enclosed s' L') ∧
        (need ≤ s.idsLeft ∨ Kept s L s' L'))

section Publish

variable {page : BtreePage} {F : Faults} {T : StoreRel} [StoreLike F T]
variable {slot : TreeSlot}

theorem Tree.transfer (ht : Tree s h L) (hsame : Untouched s s') : Tree s' h L ∧ Kept s L s' L := by
  have hleaf : ∀ slot ∈ L, s'.pages slot.1 = s.pages slot.1 :=
    fun slot hslot => hsame.pages _ (ht.fan.owned 0 le_rfl slot hslot)
  have hupper := ht.upper.untouched hsame
  have hre := hsame.reshaped ht.upper
  exact ⟨Tree.reshape hsame.alloc hupper ht.fan ht.apart ht.leaves hre,
    Kept.reshape ht.upper hre hleaf⟩

/-- Carving the leaf `n` moves its last pairs `rs` to a fresh page `r`, or fails
and leaves the tree as it was. -/
theorem Tree.always_splitOff_carve (ht : Tree s h (A ++ (n, hi) :: B))
    (hpage : s.pages n = some page) (hfull : page.freeSpace < 1288)
    {Q : Option (UInt32 × Bytes) → Store → Prop} (hfail : ∀ s', Tree s' h (A ++ (n, hi) :: B) →
      Kept s (A ++ (n, hi) :: B) s' (A ++ (n, hi) :: B) → Starved F s s' 1 → Q none s')
    (hdone : ∀ r s₁ ls q rs, page.pairs = ls ++ [q] ++ rs → rs ≠ [] →
      2 * totalSize (ls ++ [q]) ≤ totalSize page.pairs + 2574 →
      2 * totalSize rs ≤ totalSize page.pairs + 2574 →
      LeafCut s s₁ h A B n r q.key hi → s₁.leafPairs n = ls ++ [q] →
      s₁.leafPairs r = rs → s₁.exhausted = s.exhausted → s.idsLeft = s₁.idsLeft + 1 →
      (∀ id, s.Owned id → id ≠ n → s₁.pages id = s.pages id) → Q (some (r, q.key)) s₁) :
    Always T (splitOff n) s Q := by
  have hnmem : (n, hi) ∈ A ++ (n, hi) :: B := by simp
  have hleaf : LeafPage page := of_pages hpage (ht.leaves.leaf (n, hi) hnmem)
  refine always_splitOff ht.alloc hpage (ht.fan.owned 0 le_rfl (n, hi) hnmem) ?_ ?_ ?_
  · intro id
    obtain ⟨ls, q, rs, left, right, -, -, hsplit, -⟩ := hleaf.exists_split hfull id
    exact ⟨left, right, q.key, hsplit⟩
  · intro s' hsame hstarved
    obtain ⟨htree, hkept⟩ := ht.transfer hsame
    exact hfail s' htree hkept hstarved
  · intro r s₁ left right sep lsn₁ sum₁ lsn₂ sum₂ hsplit hfork
    obtain ⟨ls, q, rs, left', right', hpairs, hrs, hsplit', hsizeL, hsizeR,
      hfacts⟩ := hleaf.exists_split hfull r
    rw [hsplit] at hsplit'
    cases hsplit'
    obtain ⟨hl, hlp, hln, hr', hrp, hrn⟩ := hfacts lsn₁ sum₁ lsn₂ sum₂
    have hcut := Carved.leafCut ⟨ht, hpage, hpairs, hrs, hfork, hl, hlp, hln, hr', hrp, hrn⟩
    apply hdone r s₁ ls q rs hpairs hrs hsizeL hsizeR hcut _ _ hfork.exhausted
      hfork.spent hfork.others
    · rw [leafPairs_eq hfork.left, hlp]
    · rw [leafPairs_eq hfork.right, hrp]

/-- The part of `btree_split_node` after the root has been dealt with, on a
leaf below the root. -/
theorem Tree.always_splitOff_leaf (ht : Tree s (h + 1) (A ++ (n, hi) :: B))
    (hpage : s.pages n = some page) (hfull : page.freeSpace < 1288)
    {key : Bytes} (hkey : routeAt (A ++ (n, hi) :: B) key = some (n, hi))
    {depth : ℕ} (hdepth : 2 * h + 3 ≤ depth) :
    Always T (splitBelow n depth) s fun rc s' =>
        LeafSplitEnd F s s' (A ++ (n, hi) :: B) key n 1 (h + 3) rc := by
  have hheight := ht.height_lt
  refine always_bind.mpr (ht.always_splitOff_carve hpage hfull ?_ ?_)
  · intro s' htree hkept hstarved
    exact always_pure.mpr (.inr ⟨rfl, hstarved.mono (by omega), _, _,
      htree, hkept.enclosed, .inr hkept⟩)
  · intro r s₁ ls q rs hpairs hrs hsizeL hsizeR hleafCut hleft hright hex hspent _
    refine (hleafCut.cut.always_insertSeparator_cascade h depth hdepth).mono ?_
    rintro rc s' ⟨j', -, hre, ⟨rfl, hex', -, hspent', hupper, -⟩ |
      ⟨rfl, hstarved, L', hcoarse, hupper⟩⟩
    · obtain ⟨htree, hkept, hsameN, hsameR⟩ := hleafCut.publish hre hupper
      refine .inl ⟨rfl, hex'.trans hex, by omega, by omega, j', _, htree, hkept, ?_⟩
      intro slot hslot
      rw [leafPairs_eq hpage]
      rcases routeAt_cut hleafCut.cut.fan.ascending hkey with
        ⟨hmem, -⟩ | ⟨-, ⟨-, hroute⟩ | ⟨-, hroute⟩⟩
      · exact absurd rfl (sibling_of_nodup ht.nodup hmem).2
      · rw [hslot] at hroute
        cases hroute
        rw [hsameN, hleft]
        exact hsizeL
      · rw [hslot] at hroute
        cases hroute
        rw [hsameR, hright]
        exact hsizeR
    · obtain ⟨hcut, hleaves, -, -, henclosed, -⟩ := hleafCut
      have hall : Coarser (A ++ (n, ↑q.key) :: (r, hi) :: B)
          L' := Fan.coarser_cut.trans hcoarse
      refine .inr ⟨rfl, hstarved.mono (by omega), j', L', ?_, ?_, .inl (by omega)⟩
      · exact Tree.reshape hre.alloc hupper (hcut.fan.coarsen hall) (hcut.apart.coarsen hall)
          (hleaves.coarsen hcut.fan.ascending hcut.fan.nodup hall) hre
      · intro hold
        exact Tree.enclosed_reshape (henclosed hold) hcut.upper hre
          fun slot hslot => hall.exists_mem hslot

/-- How many fresh pages it takes to carve a leaf of a tree of height `h`. -/
def carveNeed (h : ℕ) : ℕ :=
  if h = 0 then 2 else 1

theorem Tree.always_growRoot_leaf {root : BtreePage} (ht : Tree s 0 L)
    (hroot : s.pages rootPageId = some root) {Q : Option UInt32 → Store → Prop}
    (hfail : ∀ s', Tree s' 0 L → Kept s L s' L → Starved F s s' 1 → Q none s')
    (hdone : ∀ left s' page, Tree s' 1 [(left, ⊤)] →
      Kept s L s' [(left, ⊤)] → s'.exhausted = s.exhausted →
      s.idsLeft = s'.idsLeft + 1 → s'.pages left = some page → page.freeSpace = root.freeSpace →
      s'.leafPairs left = s.leafPairs rootPageId → Q (some left) s') : Always T growRoot s Q := by
  have hL : L = [(rootPageId, ⊤)] := ht.upper.level.symm
  subst hL
  have hmem : (rootPageId, ⊤) ∈ rootSlots := mem_singleton_self _
  have hown : s.Owned rootPageId := ht.fan.owned 0 le_rfl _ hmem
  have hleaf : LeafPage root := of_pages hroot (ht.leaves.leaf _ hmem)
  refine always_growRoot ht.alloc hroot hown ?_ ?_
  · intro s' hsame hstarved
    obtain ⟨htree, hkept⟩ := ht.transfer hsame
    exact hfail s' htree hkept hstarved
  · intro left s₁ lsn₁ sum₁ lsn₂ sum₂ hfork
    have hmoved := hfork.right
    have hholds := (hleaf.holds.movedRoot left).stamp lsn₁ sum₁
    have hleaf₁ : LeafPage ((movedRoot root left).stamp lsn₁ sum₁) :=
      LeafPage.of_holds hholds hleaf.type hleaf.sorted hleaf.legal
    have hpairs : s₁.leafPairs left = s.leafPairs rootPageId := by
      rw [leafPairs_eq hmoved, leafPairs_eq hroot, hholds.pairs_eq]
    refine hdone left s₁ _ ⟨hfork.alloc, upper_grown (hfork.owned _ hown) hfork.left, ?_, ?_⟩
      ⟨?_, ?_, ?_, ?_⟩ hfork.exhausted hfork.spent hmoved rfl hpairs
    · refine ⟨fun i hi => absurd hi (Nat.not_lt_zero i), ?_,
        pairwise_singleton _ _, nodup_singleton _, ?_⟩
      · intro slot hslot
        rw [mem_singleton.mp hslot]
        exact ⟨_, hmoved, hleaf₁.type⟩
      · intro i hzero slot hslot
        obtain rfl : i = 0 := Nat.le_zero.mp hzero
        rw [mem_singleton.mp hslot]
        exact hfork.taken
    · constructor
      · intro slot hslot
        rw [mem_singleton.mp hslot]
        exact ⟨_, hmoved, hleaf₁⟩
      · intro slot hslot p _
        rw [mem_singleton.mp hslot]
        simp [routeAt]
    · simp [Store.pairsOf, hpairs]
    · rintro ⟨hnext, -⟩
      refine ⟨?_, trivial⟩
      rw [nextId_eq hroot] at hnext
      rw [nextId_eq hmoved]
      exact hnext
    · intro henclosed
      exact henclosed.move hfork.owned hfork.others hfork.taken hroot hmoved hleaf₁.type rfl
    · intro slot hslot
      rw [mem_singleton.mp hslot]
      exact .inl ⟨_, hmem, rfl⟩

theorem Tree.eq_root (ht : Tree s 0 L) (hslot : slot ∈ L) : slot = (rootPageId, ⊤) := by
  rw [← ht.upper.level] at hslot
  exact mem_singleton.mp hslot

theorem Tree.btreeSplitNode_eq (ht : Tree s (h + 1) L) (hslot : slot ∈ L) :
    btreeSplitNode slot.1 btreeMaxDepth = splitBelow slot.1 31 := by
  have hroot : (rootPageId, ⊤) ∈ s.level 0 := by simp [Levels.level, below]
  exact btreeSplitNode_of_ne (ht.apart 0 (Nat.succ_pos h) _ hroot 0 le_rfl slot hslot) 31

theorem Tree.always_btreeSplitNode (ht : Tree s h L) {key : Bytes}
    (hkey : routeAt L key = some slot) (hpage : s.pages slot.1 = some page)
    (hfull : page.freeSpace < 1288) :
    Always T (btreeSplitNode slot.1 btreeMaxDepth) s
      fun rc s' => LeafSplitEnd F s s' L key slot.1 (carveNeed h) 10 rc := by
  obtain ⟨n, hi⟩ := slot
  have hheight := ht.height_lt
  cases h with
  | zero =>
    cases ht.eq_root (mem_of_routeAt hkey)
    rw [show btreeMaxDepth = 31 + 1 from rfl, btreeSplitNode_root]
    refine always_bind.mpr (ht.always_growRoot_leaf hpage ?_ ?_)
    · intro s' htree hkept hstarved
      exact always_pure.mpr (.inr ⟨rfl, hstarved.mono (by omega), _,
        _, htree, hkept.enclosed, .inr hkept⟩)
    · intro left s₁ page₁ ht₁ hkept hex hspent hpage₁ hfree hpairs
      have hroute : routeAt ([] ++ (left, (⊤ : WithTop Bytes)) :: []) key =
          some (left, ⊤) := by simp [routeAt]
      have ht₁' : Tree s₁ (0 + 1) ([] ++ (left, ⊤) :: []) := ht₁
      have htwo : 1 ≤ s₁.idsLeft → carveNeed 0 ≤ s.idsLeft := by
        intro hone
        rw [carveNeed, if_pos rfl]
        omega
      refine (ht₁'.always_splitOff_leaf hpage₁ (hfree ▸ hfull) hroute (by decide)).mono ?_
      rintro rc s' (⟨rfl, hex', hspent', hone, h', L', htree, hkept', hsize⟩ |
        ⟨rfl, hstarved, h', L', htree, henclosed, hleft⟩)
      · refine .inl ⟨rfl, hex'.trans hex, by omega, htwo hone, h', L',
          htree, hkept.trans hkept', ?_⟩
        rw [← hpairs]
        exact hsize
      · refine .inr ⟨rfl, hstarved.mono (by omega), h', L', htree,
          fun hold => henclosed (hkept.enclosed hold), ?_⟩
        rcases hleft with hone | hkept'
        · exact .inl (htwo hone)
        · exact .inr (hkept.trans hkept')
  | succ h =>
    rw [ht.btreeSplitNode_eq (mem_of_routeAt hkey)]
    obtain ⟨A, B, rfl, -⟩ := exists_split_of_routeAt hkey
    refine (ht.always_splitOff_leaf hpage hfull hkey (by omega)).mono ?_
    rintro rc s' (⟨rfl, hex, hspent, hdone⟩ | ⟨rfl, hstarved, hfail⟩)
    · exact .inl ⟨rfl, hex, by omega, hdone⟩
    · exact .inr ⟨rfl, hstarved.mono (by omega), hfail⟩

end Publish

end Codo.Storage
