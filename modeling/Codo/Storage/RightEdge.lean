import Codo.Storage.Shape

/-!
# Splits at the right edge

Three ways the split of a leaf may go when every page loads: the page above
has room and the split takes one id; the page above is full and there are ids
for the cascade; the page above is full and the carve took the last id.  In
the last case the carved-off leaf stays in the chain of leaves although no
separator leads to it.
-/

namespace Codo.Storage

open Support Support.Levels Program Store List

section Room

variable {s s' : Store} {h j : ℕ} {L : Slots} {n : UInt32} {P : ℕ → Prop}

theorem Above.transfer (hP : Above s j n P) (hpages : ∀ k, k ≤ j → ∀ slot ∈ s.level k,
      s'.pages slot.1 = s.pages slot.1) : Above s' j n P := by
  intro slot hslot hchild page hpage
  have hlevel : s'.level j = s.level j := below_eq_of_pages fun k hk => hpages k (by omega)
  rw [hlevel] at hslot
  have hsame := hpages j le_rfl slot hslot
  rw [branch_congr hsame] at hchild
  rw [hsame] at hpage
  exact hP slot hslot hchild page hpage

theorem Above.and {Q : ℕ → Prop} (hP : Above s j n P) (hQ : Above s j n Q) :
    Above s j n fun ρ => P ρ ∧ Q ρ :=
  fun slot hslot hchild page hpage =>
    ⟨hP slot hslot hchild page hpage, hQ slot hslot hchild page hpage⟩

variable {slot : TreeSlot}

/-- What holds of the room above a leaf holds of its value. -/
theorem Tree.of_above (ht : Tree s (h + 1) L) (hslot : slot ∈ L) {ρ : ℕ}
    (hρ : Above s h slot.1 (· = ρ)) (hP : Above s h slot.1 P) : P ρ := by
  by_contra hnot
  refine ht.upper.not_above_false hslot ((hρ.and hP).mono ?_)
  rintro x ⟨rfl, hPx⟩
  exact hnot hPx

theorem Tree.exists_room (ht : Tree s (h + 1) L) (hslot : slot ∈ L) :
    ∃ ρ, ρ ≤ btreePageCapacity ∧ Above s h slot.1 (· = ρ) := by
  have hmem := hslot
  rw [← ht.upper.level] at hmem
  obtain ⟨⟨p, hp⟩, hup, hchild⟩ : ∃ up ∈ s.level h,
    slot ∈ (s.branch up.1).slots up.2 := mem_flatMap.mp hmem
  obtain ⟨page, hpage, hinternal, -⟩ := ht.upper.internal h (Nat.lt_succ_self h) (p, hp) hup
  obtain ⟨A₁, B₁, hlevel⟩ := append_of_mem hup
  have hn : slot.1 ∈ ((s.branch p).slots hp).map Prod.fst := mem_map.mpr ⟨slot, hchild, rfl⟩
  refine ⟨page.freeSpace, ?_, ?_⟩
  · have hspace := hinternal.holds.freeSpace
    omega
  · intro up hup' hchild' page' hpage'
    rw [hlevel] at hup'
    have hother : up ∈ A₁ ++ B₁ → slot.1 ∉ ((s.branch up.1).slots up.2).map Prod.fst :=
      ht.upper.not_mem_slots ht.fan hlevel hn
    rcases mem_append.mp hup' with hA | hB
    · exact absurd hchild' (hother (mem_append_left _ hA))
    · rcases mem_cons.mp hB with rfl | hB
      · rw [hpage] at hpage'
        cases hpage'
        rfl
      · exact absurd hchild' (hother (mem_append_right _ hB))

theorem Tree.room_le (ht : Tree s (h + 1) L)
    (hslot : slot ∈ L) {ρ : ℕ} (hρ : Above s h slot.1 (· = ρ)) : ρ ≤ btreePageCapacity := by
  obtain ⟨x, hx, hroom⟩ := ht.exists_room hslot
  have hle : Above s h slot.1 (· ≤ btreePageCapacity) := hroom.mono fun y hy => hy ▸ hx
  exact ht.of_above (P := (· ≤ btreePageCapacity)) hslot hρ hle

end Room

/-- The leaf `n` has been split: it kept `ls ++ [q]`, and the new leaf `r` with
the pairs `rs` follows it. -/
structure Halved (s : Store) (A B : List (UInt32 × WithTop Bytes)) (n : UInt32)
    (hi : WithTop Bytes) (s' : Store) (h' : ℕ) (r : UInt32)
    (ls : List KvPair) (q : KvPair) (rs : List KvPair) : Prop where
  old : s.leafPairs n = ls ++ [q] ++ rs
  moved : rs ≠ []
  tree : Tree s' (h' + 1) (A ++ (n, ↑q.key) :: (r, hi) :: B)
  kept : Kept s (A ++ (n, hi) :: B) s' (A ++ (n, ↑q.key) :: (r, hi) :: B)
  right : s'.leafPairs r = rs

section Split

variable {s : Store} {h c : ℕ} {A B : Slots} {n : UInt32} {hi : WithTop Bytes} {page : BtreePage}

section Leaf

variable (ht : Tree s (h + 1) (A ++ (n, hi) :: B))
  (hpage : s.pages n = some page) (hfull : page.freeSpace < 1288)
  (hseps : ∀ p ∈ page.pairs, kvPairSize + p.key.length = c)
include ht hpage hfull hseps

/-- With an id left, a split carves the leaf and goes on with the separator. -/
theorem Tree.always_split_carved (hids : 1 ≤ s.idsLeft) {Q : ℤ → Store → Prop}
    (hcarved : ∀ r s₁ ls q rs, s.leafPairs n = ls ++ [q] ++ rs → rs ≠ [] →
      kvPairSize + q.key.length = c → LeafCut s s₁ (h + 1) A B n r q.key hi → s₁.leafPairs r = rs →
      s.idsLeft = s₁.idsLeft + 1 → (∀ P, Above s h n P → Above s₁ h n P) →
      Always (pageStep Faults.none) (insertSeparator n q.key r 31) s₁ Q) :
    Always (pageStep Faults.none) (btreeSplitNode n btreeMaxDepth) s Q := by
  have hmem : (n, hi) ∈ A ++ (n, hi) :: B := mem_append_cons_self
  rw [ht.btreeSplitNode_eq hmem]
  refine always_bind.mpr (ht.always_splitOff_carve hpage hfull ?_ ?_)
  · intro s' _ _ hstarved
    exact absurd hstarved.lt (by omega)
  · intro r s₁ ls q rs hpairs hrs _ _ hcut _ hright _ hspent hother
    refine hcarved r s₁ ls q rs ?_ hrs (hseps q (by simp [hpairs])) hcut hright hspent ?_
    · rw [leafPairs_eq hpage, hpairs]
    · intro P hP
      refine hP.transfer ?_
      intro k hk slot hslot
      have hlt := Nat.lt_succ_of_le hk
      apply hother _ (ht.upper.owned k hlt slot hslot)
      exact (ht.apart k hlt slot hslot 0 le_rfl (n, hi) hmem).symm

theorem Tree.always_split_roomy (hids : 1 ≤ s.idsLeft) (hroom : Above s h n (c ≤ ·)) :
    Always (pageStep Faults.none) (btreeSplitNode n btreeMaxDepth) s
      fun rc s' => rc = 0 ∧ s.idsLeft = s'.idsLeft + 1 ∧ ∃ r ls q rs,
        Halved s A B n hi s' h r ls q rs ∧ RoomTaken s s' h n r c := by
  refine ht.always_split_carved hpage hfull hseps hids ?_
  rintro r s₁ ls q rs hold hrs rfl hcut hright hspent hkeep
  refine (hcut.cut.always_insertSeparator_roomy (hkeep _ hroom) 30).mono ?_
  rintro rc s' ⟨j', -, hre, ⟨rfl, -, hless, hmore, hupper, rfl, htaken⟩ | ⟨-, hstarved, -⟩⟩
  · obtain ⟨htree, hkept, -, hsame⟩ := hcut.publish hre hupper
    exact ⟨rfl, by omega, r, ls, q, rs, ⟨hold, hrs, htree, hkept, hsame.trans hright⟩,
      fun P hP => htaken P (hkeep _ hP)⟩
  · exact absurd hstarved.lt (Nat.not_lt_zero _)

/-- Without room above, a split cascades, and then there is plenty of room. -/
theorem Tree.always_split_cascade (hids : 11 ≤ s.idsLeft) (hroom : Above s h n (· < c)) :
    Always (pageStep Faults.none) (btreeSplitNode n btreeMaxDepth) s
      fun rc s' => rc = 0 ∧ s'.idsLeft < s.idsLeft ∧ s.idsLeft ≤ s'.idsLeft + 11 ∧ ∃ h' r ls q rs,
          Halved s A B n hi s' h' r ls q rs ∧ Above s' h' r (1748 - c ≤ ·) := by
  have hheight := ht.height_lt
  refine ht.always_split_carved hpage hfull hseps (by omega) ?_
  rintro r s₁ ls q rs hold hrs rfl hcut hright hspent hkeep
  refine (hcut.cut.always_insertSeparator_cascade h 31 (by omega)).mono ?_
  rintro rc s' ⟨j', -, hre, ⟨rfl, -, hless, hmore, hupper, i, rfl, hplenty⟩ | ⟨-, hstarved, -⟩⟩
  · obtain ⟨htree, hkept, -, hsame⟩ := hcut.publish hre hupper
    exact ⟨rfl, by omega, by omega, i, r, ls, q, rs,
      ⟨hold, hrs, htree, hkept, hsame.trans hright⟩, hplenty (hkeep _ hroom)⟩
  · exact absurd hstarved.lt (by omega)

end Leaf

/-- Without an id left, the split of an internal page changes no owned page. -/
theorem Upper.always_btreeSplitNode_starved {L : Slots}
    (hupper : Upper s (h + 1) L) (halloc : AllocOk s) {p : UInt32}
    {hp : WithTop Bytes} (hup : (p, hp) ∈ s.level h)
    (hpage : s.pages p = some page) (hfull : page.freeSpace < 264)
    (hids : s.idsLeft = 0) (depth : ℕ) :
    Always (pageStep Faults.none) (btreeSplitNode p (depth + 1)) s
      fun rc s' => rc = -1 ∧ Untouched s s' := by
  have hown : s.Owned p := hupper.owned h (Nat.lt_succ_self h) (p, hp) hup
  by_cases hroot : p = rootPageId
  · subst hroot
    rw [btreeSplitNode_root]
    refine always_bind.mpr (always_growRoot halloc hpage hown ?_ ?_)
    · intro s' hsame _
      exact always_pure.mpr ⟨rfl, hsame⟩
    · intro left s' _ _ _ _ hfork
      have hspent := hfork.spent
      omega
  · rw [btreeSplitNode_of_ne hroot]
    have hinternal : InternalPage page :=
      (of_pages hpage (hupper.internal h (Nat.lt_succ_self h) (p, hp) hup)).1
    refine always_bind.mpr (always_splitOff halloc hpage hown ?_ ?_ ?_)
    · intro id
      obtain ⟨left, right, sep, hsplit, -⟩ := hinternal.exists_split hfull id
      exact ⟨left, right, sep, hsplit⟩
    · intro s' hsame _
      exact always_pure.mpr ⟨rfl, hsame⟩
    · intro r s' _ _ _ _ _ _ _ _ hfork
      have hspent := hfork.spent
      omega

/-- When the carve takes the last id and the page above is full, the new leaf
stays in the chain and out of the tree. -/
theorem Tree.always_split_starved (ht : Tree s (h + 1) (A ++ [(n, ⊤)]))
    (hlink : Linked s (A ++ [(n, ⊤)]))
    (hpage : s.pages n = some page) (hfull : page.freeSpace < 1288)
    (hseps : ∀ p ∈ page.pairs, kvPairSize + p.key.length = c)
    (hids : s.idsLeft = 1) (hroom : Above s h n (· < c)) :
    Always (pageStep Faults.none) (btreeSplitNode n btreeMaxDepth) s
      fun rc s' => rc = -1 ∧ Tree s' (h + 1) (A ++ [(n, ⊤)]) ∧ ¬ Linked s' (A ++ [(n, ⊤)]) := by
  refine ht.always_split_carved hpage hfull hseps hids.ge ?_
  rintro r s₁ ls q rs - - rfl hcut - hspent hkeep
  refine hcut.cut.always_insertSeparator 30 ?_ ?_ ?_
  · intro hF
    exact absurd hF (by decide)
  · intro s' _ _ hupper _ htaken
    have hnever : Above s' h r fun _ => False := by
      refine htaken _ ((hkeep _ hroom).mono ?_)
      intro ρ hlt hle
      exact absurd hlt (not_lt.mpr hle)
    have hr : (r, (⊤ : WithTop Bytes)) ∈ A ++ [(n, (q.key : WithTop Bytes)), (r, ⊤)] := by simp
    exact absurd hnever (hupper.not_above_false hr)
  · intro p hp A₁ B₁ C D parent hparent hparentPage htoo
    have hup : (p, hp) ∈ s₁.level h := by
      rw [hparent.level]
      simp
    refine (hcut.cut.upper.always_btreeSplitNode_starved hcut.cut.alloc hup
        hparentPage (htoo.trans_le hcut.cut.entry_le) (by omega) 29).bind ?_
    rintro rc s' ⟨rfl, hsame⟩
    obtain ⟨htree, -⟩ := hcut.tree.transfer hsame
    refine always_pure.mpr ⟨rfl, htree, ?_⟩
    -- the chain goes on to `r`, the list of leaves ends with `n`
    intro hlink'
    have hend : s'.nextId n = 0 := hlink'.of_append.1
    have hchain : s₁.nextId n = r := (hcut.linked hlink).of_append.1
    have hown : s₁.Owned n := hcut.cut.fan.owned 0 le_rfl (n, ↑q.key)
        (show _ ∈ A ++ (n, ↑q.key) :: [(r, ⊤)] by simp)
    have hr : s₁.Owned r := hcut.cut.fan.owned 0 le_rfl (r, (⊤ : WithTop Bytes))
        (show _ ∈ A ++ (n, ↑q.key) :: [(r, ⊤)] by simp)
    apply hr.nonzero
    rw [← hchain, ← nextId_congr (hsame.pages n hown), hend]

end Split

end Codo.Storage
