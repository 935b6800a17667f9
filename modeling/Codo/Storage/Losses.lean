import Codo.Storage.DbRun

/-!
# A failed insert invents nothing

A split that cannot be published loses the pairs of its right half.  Whatever a
call of `db_insert` ran into, what the tree stores afterwards is the new pair,
if the call succeeded, and otherwise only pairs it stored before.
-/

namespace Codo.Storage

open Support Support.Levels Program List

variable {s s' : Store} {L : Slots}

/-- What the tree of `s'` stores, the tree of `s` stored. -/
def Shrunk (s : Store) (L : List (UInt32 × WithTop Bytes)) (s' : Store) : Prop :=
  ∃ h' L', Tree s' h' L' ∧ s'.pairsOf L' ⊆ s.pairsOf L

theorem Store.pairsOf_subset {L' : Slots} (h : ∀ slot ∈ L', ∃ slot' ∈ L, slot'.1 = slot.1) :
    s.pairsOf L' ⊆ s.pairsOf L := by
  intro p hp
  obtain ⟨slot, hslot, hmem⟩ := mem_flatMap.mp hp
  obtain ⟨slot', hslot', hid⟩ := h slot hslot
  exact mem_flatMap.mpr ⟨slot', hslot', hid ▸ hmem⟩

theorem Kept.shrunk {h' : ℕ} {L' : Slots} (hkept : Kept s L s' L')
    (ht : Tree s' h' L') : Shrunk s L s' :=
  ⟨h', L', ht, hkept.pairs ▸ List.Subset.refl _⟩

theorem Shrunk.trans {s₁ : Store} {L₁ : Slots} (hkept : Kept s L s₁ L₁)
    (h : Shrunk s₁ L₁ s') : Shrunk s L s' := by
  obtain ⟨h', L', ht', hsub⟩ := h
  exact ⟨h', L', ht', hkept.pairs ▸ hsub⟩

/-- What the tree of `s'` stores, the tree of `s` stored, or it is the pair `p`
of an insert that returned `0`. -/
def OnlyNew (s : Store) (L : List (UInt32 × WithTop Bytes)) (s' : Store)
    (p : KvPair) (rc : ℤ) : Prop :=
  ∃ h' L', Tree s' h' L' ∧ ∀ q ∈ s'.pairsOf L', q ∈ s.pairsOf L ∨ rc = 0 ∧ q = p

theorem Shrunk.onlyNew (h : Shrunk s L s') (p : KvPair) (rc : ℤ) : OnlyNew s L s' p rc := by
  obtain ⟨h', L', ht', hsub⟩ := h
  exact ⟨h', L', ht', fun q hq => .inl (hsub hq)⟩

theorem Tree.Inserted.onlyNew {p : KvPair} (h : Tree.Inserted s L s' p) : OnlyNew s L s' p 0 := by
  obtain ⟨-, h', L', X, Y, ht', -, -, -, hbefore, hafter⟩ := h
  refine ⟨h', L', ht', ?_⟩
  intro q hq
  rw [hafter, mem_append, mem_cons] at hq
  rw [hbefore, mem_append]
  rcases hq with hX | rfl | hY
  · exact .inl (.inl hX)
  · exact .inr ⟨rfl, rfl⟩
  · exact .inl (.inr hY)

namespace Tree

variable {s : Store} {h : ℕ} {A B : Slots}
  {n : UInt32} {hi : WithTop Bytes} {page : BtreePage} {F : Faults}
  {T : StoreRel} [hT : StoreLike F T]

include hT

/-- The split of a leaf below the root, published or not. -/
theorem always_splitOff_shrunk (ht : Tree s (h + 1) (A ++ (n, hi) :: B))
    (hpage : s.pages n = some page) (hfull : page.freeSpace < 1288)
    {depth : ℕ} (hdepth : 2 * h + 3 ≤ depth) :
    Always T (splitBelow n depth) s fun _ s' => Shrunk s (A ++ (n, hi) :: B) s' := by
  refine always_bind.mpr (ht.always_splitOff_carve hpage hfull ?_ ?_)
  · intro s' htree hkept _
    exact always_pure.mpr (hkept.shrunk htree)
  · intro r s₁ ls q rs _ _ _ _ hleafCut _ _ _ _ _
    refine (hleafCut.cut.always_insertSeparator_cascade h depth hdepth).mono ?_
    rintro rc s' ⟨j', -, hre, ⟨-, -, -, -, hupper, -⟩ | ⟨-, -, L', hcoarse, hupper⟩⟩
    · obtain ⟨htree, hkept, -, -⟩ := hleafCut.publish hre hupper
      exact hkept.shrunk htree
    · have hall : Coarser (A ++ (n, ↑q.key) :: (r, hi) :: B)
          L' := Fan.coarser_cut.trans hcoarse
      have hsame : s'.pairsOf (A ++ (n, ↑q.key) :: (r, hi) :: B) =
          s.pairsOf (A ++ (n, hi) :: B) := by
        rw [← hleafCut.pairs]
        exact Store.pairsOf_congr fun slot hslot =>
          hleafCut.cut.fan.pages_eq hleafCut.cut.apart hre le_rfl hslot
      refine ⟨j', L', Tree.reshape hre.alloc hupper
        (hleafCut.cut.fan.coarsen hall) (hleafCut.cut.apart.coarsen hall)
        (hleafCut.leaves.coarsen hleafCut.cut.fan.ascending hleafCut.cut.fan.nodup hall) hre, ?_⟩
      rw [← hsame]
      exact Store.pairsOf_subset fun slot hslot => hall.exists_mem hslot

theorem always_btreeSplitNode_shrunk (ht : Tree s h L) {key : Bytes} {slot : TreeSlot}
    (hkey : routeAt L key = some slot) (hpage : s.pages slot.1 = some page)
    (hfull : page.freeSpace < 1288) :
    Always T (btreeSplitNode slot.1 btreeMaxDepth) s fun _ s' => Shrunk s L s' := by
  obtain ⟨n, hi⟩ := slot
  have hheight := ht.height_lt
  cases h with
  | zero =>
    cases ht.eq_root (mem_of_routeAt hkey)
    rw [show btreeMaxDepth = 31 + 1 from rfl, btreeSplitNode_root]
    refine always_bind.mpr (ht.always_growRoot_leaf hpage ?_ ?_)
    · intro s' htree hkept _
      exact always_pure.mpr (hkept.shrunk htree)
    · intro left s₁ page₁ ht₁ hkept _ _ hpage₁ hfree _
      have ht₁' : Tree s₁ (0 + 1) ([] ++ (left, ⊤) :: []) := ht₁
      refine (ht₁'.always_splitOff_shrunk hpage₁ (hfree ▸ hfull) (by decide)).mono ?_
      intro rc s' hshrunk
      exact Shrunk.trans hkept hshrunk
  | succ h =>
    rw [ht.btreeSplitNode_eq (mem_of_routeAt hkey)]
    obtain ⟨A, B, rfl, -⟩ := exists_split_of_routeAt hkey
    exact ht.always_splitOff_shrunk hpage hfull (by omega)

theorem always_dbInsertLoop_pairs {txnId : UInt64} {key value : Bytes}
    (hlegal : (⟨key, value, 0⟩ : KvPair).LeafLegal) (attempts : ℕ) :
    ∀ {s : Store} {h : ℕ} {L : Slots}, Tree s h L →
      Always T (dbInsertLoop txnId key value attempts) s
        fun rc s' => OnlyNew s L s' ⟨key, value, 0⟩ rc := by
  have hsize : kvPairSize + key.length + value.length ≤ 1288 := hlegal.size_le
  induction attempts with
  | zero =>
    intro s h L ht
    exact always_pure.mpr (((Kept.refl s L).shrunk ht).onlyNew _ _)
  | succ attempts ih =>
    intro s h L ht
    refine ht.always_dbInsertLoop_step hlegal ?_ ?_ ?_ ?_
    · intro _
      exact ((Kept.refl s L).shrunk ht).onlyNew _ _
    · intro _
      exact ((Kept.refl s L).shrunk ht).onlyNew _ _
    · intro slot s' xs ys _ hnone hw
      exact Inserted.onlyNew (hw.inserted hnone)
    · intro slot page hroute hpage hleaf hfree _
      refine (ht.always_btreeSplitNode_shrunk hroute hpage (by omega)).bind ?_
      rintro rc s₁ ⟨h₁, L₁, ht₁, hsub⟩
      split
      · exact always_pure.mpr (Shrunk.onlyNew ⟨h₁, L₁, ht₁, hsub⟩ _ _)
      · refine (ih ht₁).mono ?_
        rintro rc s' ⟨h', L', ht', hpairs⟩
        refine ⟨h', L', ht', ?_⟩
        intro q hq
        rcases hpairs q hq with hold | hnew
        · exact .inl (hsub hold)
        · exact .inr hnew

theorem always_dbInsert_pairs (ht : Tree s h L) {txn : Option Transaction}
    (hactive : (activeTxn txn).isSome) (key value : Bytes) :
    Always T (dbInsert txn key value) s fun rc s' =>
      OnlyNew s L s' ⟨key, value, 0⟩ rc := by
  obtain ⟨t, htxn⟩ := Option.isSome_iff_exists.mp hactive
  rw [dbInsert, htxn]
  by_cases hlegal : LegalSizes key value
  · simp only [if_neg (not_illegalSizes hlegal)]
    exact always_dbInsertLoop_pairs hlegal btreeMaxDepth ht
  · simp only [if_pos (illegalSizes hlegal)]
    exact always_pure.mpr (((Kept.refl s L).shrunk ht).onlyNew _ _)

end Tree

end Codo.Storage
