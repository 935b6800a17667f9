import Codo.Storage.Split

/-!
# Cascading splits

`insert_separator` splits a full parent before it publishes, and that split
publishes its own separator one level up, possibly growing the root.  The
induction is on the level of the parent.  Every call either succeeds, and then
the level it published on is the new list, or fails, and then the tree that is
left has a coarser level: halves that were cut off and never published are
gone together with everything below them.
-/

namespace Codo.Storage

open Support Support.Levels Program List Store BtreePage

/-! ## Moving facts across a reshaping -/

variable {s s' : Store} {j m : ℕ} {L : Slots}

section Reshape

variable {j' : ℕ}

theorem Reshaped.refl (h : AllocOk s) (j : ℕ) : Reshaped s s j j := by
  refine ⟨h, fun _ hid => hid, fun _ _ _ => rfl, ?_⟩
  intro k hk slot hslot _
  exact ⟨k, hk, slot, hslot, rfl⟩

/-- A step that leaves every owned page alone reshapes nothing. -/
theorem Untouched.reshaped (h : Untouched s s') (hupper : Upper s j L) : Reshaped s s' j j := by
  refine ⟨h.alloc, h.owned, fun id hid _ => h.pages id hid, ?_⟩
  intro k hk slot hslot _
  have hlevel : s'.level k = s.level k := below_eq_of_pages fun i hi slot' hslot' =>
      h.pages _ (hupper.owned i (by omega) slot' hslot')
  rw [hlevel] at hslot
  exact ⟨k, hk, slot, hslot, rfl⟩

theorem Upper.untouched (hupper : Upper s j L) (h : Untouched s s') : Upper s' j L :=
  hupper.transfer (fun k hk slot hslot => h.pages _ (hupper.owned k hk slot hslot)) h.owned

theorem Fan.pages_eq (hfan : Fan s L m) (hapart : Apart s j L m)
    (h : Reshaped s s' j j') {i : ℕ} (hi : i ≤ m)
    {slot : TreeSlot} (hslot : slot ∈ below s.branch L i) : s'.pages slot.1 = s.pages slot.1 := by
  refine h.pages _ (hfan.owned i hi slot hslot) ?_
  intro k hk above habove heq
  exact hapart k hk above habove i hi slot hslot heq.symm

theorem Fan.reshape (hfan : Fan s L m) (hapart : Apart s j L m)
    (h : Reshaped s s' j j') : Fan s' L m :=
  hfan.transfer (fun _ hi _ hslot => hfan.pages_eq hapart h hi hslot) h.owned

theorem Fan.below_reshape (hfan : Fan s L m) (hapart : Apart s j L m)
    (h : Reshaped s s' j j') {i : ℕ} (hi : i ≤ m) : below s'.branch L i = below s.branch L i :=
  below_eq_of_pages fun _ hk _ hslot => hfan.pages_eq hapart h (by omega) hslot

theorem Apart.reshape (hapart : Apart s j L m) (hfan : Fan s L m)
    (h : Reshaped s s' j j') : Apart s' j' L m := by
  intro k hk slot hslot i hi slot' hslot' heq
  rw [hfan.below_reshape hapart h hi] at hslot'
  have hown : s.Owned slot.1 := heq ▸ hfan.owned i hi slot' hslot'
  obtain ⟨k', hk', above, habove, hid⟩ := h.upper k hk slot hslot hown
  exact hapart k' hk' above habove i hi slot' hslot' (heq.trans hid.symm)

theorem Apart.coarsen {L' : Slots}
    (h : Apart s j L m) (hcoarse : Coarser L L') : Apart s j L' m := by
  intro k hk slot hslot i hi slot' hslot'
  obtain ⟨t, ht, hid⟩ := (hcoarse.levels i).exists_mem hslot'
  rw [← hid]
  exact h k hk slot hslot i hi t ht

/-- The nodes of the first level of a fan join the top of the tree. -/
theorem Upper.push (h : Upper s j L) (hfan : Fan s L (m + 1)) :
    Upper s (j + 1) (expand s.branch L) := by
  have hlast : s.level j = below s.branch L 0 := h.level
  refine ⟨?_, ?_, ?_⟩
  · show expand s.branch (s.level j) = _
    rw [h.level]
  · intro i hi slot hslot
    by_cases hij : i < j
    · exact h.internal i hij slot hslot
    · obtain rfl : i = j := by omega
      rw [hlast] at hslot
      obtain ⟨page, hpage, hinternal, hcount⟩ := hfan.internal 0 (Nat.succ_pos m) slot hslot
      exact ⟨page, hpage, hinternal, fun _ => hcount⟩
  · intro i hi slot hslot
    by_cases hij : i < j
    · exact h.owned i hij slot hslot
    · obtain rfl : i = j := by omega
      rw [hlast] at hslot
      exact hfan.owned 0 (Nat.zero_le _) slot hslot

theorem Upper.pop (h : Upper s (j + 1) L) : Upper s j (s.level j) :=
  ⟨rfl, fun i hi => h.internal i (by omega), fun i hi => h.owned i (by omega)⟩

/-- Internal nodes above a fan make a fan that is one level higher. -/
theorem Fan.lift {L₁ : Slots} (hfan : Fan s L m) (hexpand : expand s.branch L₁ = L)
    (hinternal : ∀ slot ∈ L₁, ∃ page, s.pages slot.1 = some page ∧
      InternalPage page ∧ 6 ≤ page.pairs.length)
    (howned : ∀ slot ∈ L₁, s.Owned slot.1) : Fan s L₁ (m + 1) := by
  have hbelow : ∀ i, below s.branch L₁ (i + 1) = below s.branch L i := by
    intro i
    rw [Nat.add_comm, below_add, ← hexpand]
    rfl
  refine ⟨?_, ?_, ?_, ?_, ?_⟩
  · intro i hi slot hslot
    cases i with
    | zero => exact hinternal slot hslot
    | succ i =>
      rw [hbelow] at hslot
      exact hfan.internal i (by omega) slot hslot
  · rw [hbelow]
    exact hfan.bottom
  · rw [hbelow]
    exact hfan.ascending
  · rw [hbelow]
    exact hfan.nodup
  · intro i hi slot hslot
    cases i with
    | zero => exact howned slot hslot
    | succ i =>
      rw [hbelow] at hslot
      exact hfan.owned i (by omega) slot hslot

end Reshape

/-! ## How a rework of the upper levels may end -/

/-- The upper `j` levels have been reworked with up to `c` fresh pages.  On
success `good` holds of their new number; on failure the tree has a level that
is coarser than `old`. -/
def Reworked (F : Faults) (s s' : Store) (j c : ℕ)
    (old : List (UInt32 × WithTop Bytes)) (rc : ℤ) (good : ℕ → Prop) : Prop :=
  ∃ j', j ≤ j' ∧ Reshaped s s' j j' ∧
    (rc = 0 ∧ s'.exhausted = s.exhausted ∧ s'.idsLeft ≤ s.idsLeft ∧
        s.idsLeft ≤ s'.idsLeft + c ∧ good j' ∨
      rc = -1 ∧ Starved F s s' c ∧ ∃ L, Coarser old L ∧ Upper s' j' L)

theorem Reworked.prepend {F : Faults} {t : Store} {j₁ b c : ℕ}
    {old : Slots} {rc : ℤ} {good : ℕ → Prop} (h : Reworked F t s' j₁ c old rc good) (hle : j ≤ j₁)
    (hfirst : Reshaped s t j j₁) (hex : t.exhausted = s.exhausted)
    (hless : t.idsLeft ≤ s.idsLeft) (hspent : s.idsLeft ≤ t.idsLeft + b) :
    Reworked F s s' j (b + c) old rc good := by
  obtain ⟨j', hj', hreshaped, ⟨hrc, hex', hless', hspent', hgood⟩ | ⟨hrc, hstarved, hleft⟩⟩ := h
  · exact ⟨j', hle.trans hj', hfirst.trans hreshaped,
      .inl ⟨hrc, hex'.trans hex, hless'.trans hless, by omega, hgood⟩⟩
  · exact ⟨j', hle.trans hj', hfirst.trans hreshaped, .inr ⟨hrc, hstarved.mono (by omega), hleft⟩⟩

theorem Reworked.mono {F : Faults} {c : ℕ} {old : Slots} {rc : ℤ} {good good' : ℕ → Prop}
    (h : Reworked F s s' j c old rc good) (hgood : ∀ j', good j' → good' j') :
    Reworked F s s' j c old rc good' := by
  obtain ⟨j', hj', hreshaped, ⟨hrc, hex, hless, hspent, hend⟩ | hfail⟩ := h
  · exact ⟨j', hj', hreshaped, .inl ⟨hrc, hex, hless, hspent, hgood j' hend⟩⟩
  · exact ⟨j', hj', hreshaped, .inr hfail⟩

/-- The level below level `j` is now `L`, its new member `r` was published with
an entry of `c` bytes, and if there was no room for that above `n`, there is
plenty above `r` now. -/
def Published (s s' : Store) (j : ℕ) (L : List (UInt32 × WithTop Bytes))
    (n r : UInt32) (c j' : ℕ) : Prop :=
  Upper s' j' L ∧ ∃ i, j' = i + 1 ∧ (Above s j n (· < c) → Above s' i r (1748 - c ≤ ·))

variable {r : UInt32} {sep : Bytes} {F : Faults} {T : StoreRel} [StoreLike F T]

namespace Cut

variable {A B : Slots} {n : UInt32} {hi : WithTop Bytes}

theorem reshape (h : Cut s j m A B n r sep hi) {j' : ℕ} (hreshaped : Reshaped s s' j j')
    (hupper : Upper s' j' (A ++ (n, hi) :: B)) : Cut s' j' m A B n r sep hi :=
  ⟨hreshaped.alloc, hupper, h.fan.reshape h.apart hreshaped,
    h.apart.reshape h.fan hreshaped, h.sepLegal⟩

theorem entry_le (h : Cut s j m A B n r sep hi) : kvPairSize + sep.length ≤ 264 := by
  have hsep := h.sepLegal
  rw [maxKeySize] at hsep
  rw [kvPairSize]
  omega

theorem always_insertSeparator_roomy (h : Cut s (j + 1) m A B n r sep hi)
    (hroomy : Above s j n (kvPairSize + sep.length ≤ ·)) (depth : ℕ) :
    Always T (insertSeparator n sep r (depth + 1)) s
      fun rc s' => Reworked F s s' (j + 1) 0 (A ++ (n, hi) :: B) rc fun j' =>
        Upper s' j' (A ++ (n, ↑sep) :: (r, hi) :: B) ∧
          j' = j + 1 ∧ RoomTaken s s' j n r (kvPairSize + sep.length) := by
  refine h.always_insertSeparator depth ?_ ?_ ?_
  · intro hF
    exact ⟨j + 1, le_rfl, Reshaped.refl h.alloc _, .inr ⟨rfl, .inl hF, _, Coarser.refl, h.upper⟩⟩
  · intro s' hex hleft hupper hreshaped hroom
    exact ⟨j + 1, le_rfl, hreshaped, .inl ⟨rfl, hex, hleft.le, hleft.ge, hupper, rfl, hroom⟩⟩
  · intro p hp A₁ B₁ C D page hparent hpage hfull
    exact absurd hfull (not_lt.mpr (hparent.above hroomy hpage))

end Cut

/-! ## Carving an internal page -/

variable {s₁ : Store} {A₁ B₁ : Slots} {p : UInt32} {hp : WithTop Bytes} {page right : BtreePage}

section Carve

variable {left : BtreePage}

theorem mem_cut {A B : Slots} {x y slot : TreeSlot} (h : slot ∈ A ++ x :: y :: B) :
    slot ∈ A ++ B ∨ slot = x ∨ slot = y := by
  simp only [mem_append, mem_cons] at h ⊢
  tauto

theorem Upper.ne_of_lt (h : Upper s (j + 1) L) (hfan : Fan s L m) {i k : ℕ}
    (hik : i < k) (hk : k ≤ j) {slot slot' : TreeSlot}
    (hslot : slot ∈ s.level i) (hslot' : slot' ∈ s.level k) : slot.1 ≠ slot'.1 := by
  intro heq
  refine (h.spine hfan).not_mem_ids_of_lt hik (by omega) (mem_map.mpr ⟨slot, hslot, rfl⟩) ?_
  exact mem_map.mpr ⟨slot', hslot', heq.symm⟩

theorem Upper.nodup_level (h : Upper s (j + 1) L) (hfan : Fan s L m) :
    ((s.level j).map Prod.fst).Nodup := by
  have hbelow := hfan.nodup_below (Nat.zero_le m)
  rw [below, ← h.level] at hbelow
  exact nodup_of_nodup_expand hbelow

theorem Upper.sibling (h : Upper s (j + 1) L) (hfan : Fan s L m)
    (hlevel : s.level j = A₁ ++ (p, hp) :: B₁) {slot : TreeSlot} (hslot : slot ∈ A₁ ++ B₁) :
    slot ∈ s.level j ∧ slot.1 ≠ p := by
  have hnodup := h.nodup_level hfan
  rw [hlevel] at hnodup ⊢
  exact sibling_of_nodup hnodup hslot

/-- Carving the internal page `p` into two that share its children leaves the
level below as it was, and `p` is cut on its own level. -/
theorem Upper.carve (h : Upper s (j + 1 + 1) L) (hfan : Fan s L m)
    (hapart : Apart s (j + 1 + 1) L m) (hlevel : s.level (j + 1) = A₁ ++ (p, hp) :: B₁)
    (hpage : s.pages p = some page) (hfork : Forked s s₁ p r left right)
    (hl : InternalPage left ∧ 6 ≤ left.pairs.length)
    (hr' : InternalPage right ∧ 6 ≤ right.pairs.length) (hslots : page.branch.slots hp =
      left.branch.slots sep ++ right.branch.slots hp)
    (hsep : sep.length ≤ maxKeySize) :
    Cut s₁ (j + 1) (m + 1) A₁ B₁ p r sep hp ∧
      expand s₁.branch (A₁ ++ (p, ↑sep) :: (r, hp) :: B₁) = L := by
  have hpmem : (p, hp) ∈ s.level (j + 1) := by
    rw [hlevel]
    simp
  have hsiblings : ∀ slot ∈ A₁ ++ B₁, slot ∈ s.level (j + 1) ∧ slot.1 ≠ p :=
    fun slot hslot => h.sibling hfan hlevel hslot
  have hsame : ∀ slot ∈ A₁ ++ B₁, s₁.pages slot.1 = s.pages slot.1 := by
    intro slot hslot
    obtain ⟨hin, hne⟩ := hsiblings slot hslot
    exact hfork.others _ (h.owned (j + 1) (Nat.lt_succ_self _) slot hin) hne
  have hfanSame : ∀ i, i ≤ m → ∀ slot ∈ below s.branch L i, s₁.pages slot.1 = s.pages slot.1 := by
    intro i hi slot hslot
    exact hfork.others _ (hfan.owned i hi slot hslot)
      (hapart (j + 1) (Nat.lt_succ_self _) _ hpmem i hi slot hslot)
  have hupperSame : ∀ k, k < j + 1 → ∀ slot ∈ s.level k, s₁.pages slot.1 = s.pages slot.1 := by
    intro k hk slot hslot
    exact hfork.others _ (h.owned k (by omega) slot hslot) (h.ne_of_lt hfan hk le_rfl hslot hpmem)
  have hfan₁ : Fan s₁ L m := hfan.transfer hfanSame hfork.owned
  have hexpand : expand s₁.branch (A₁ ++ (p, ↑sep) :: (r, hp) :: B₁) = L := by
    have hA : expand s₁.branch A₁ = expand s.branch A₁ := expand_congr fun slot hslot =>
        branch_congr (hsame slot (mem_append_left _ hslot))
    have hB : expand s₁.branch B₁ = expand s.branch B₁ := expand_congr fun slot hslot =>
        branch_congr (hsame slot (mem_append_right _ hslot))
    rw [← h.level]
    show _ = expand s.branch (s.level (j + 1))
    rw [hlevel, expand_append, expand_append, expand_cons, expand_cons,
      expand_cons, hA, hB, branch_eq hfork.left, branch_eq hfork.right, branch_eq hpage, hslots,
      append_assoc]
  have hlift : Fan s₁ (A₁ ++ (p, ↑sep) :: (r, hp) :: B₁) (m + 1) := by
    refine hfan₁.lift hexpand ?_ ?_
    · intro slot hslot
      rcases mem_cut hslot with hsib | rfl | rfl
      · obtain ⟨q, hq, hqi, hqc⟩ := h.internal (j + 1) (Nat.lt_succ_self _)
          slot (hsiblings slot hsib).1
        exact ⟨q, by rw [hsame slot hsib, hq], hqi, hqc (Nat.succ_pos j)⟩
      · exact ⟨left, hfork.left, hl⟩
      · exact ⟨right, hfork.right, hr'⟩
    · intro slot hslot
      rcases mem_cut hslot with hsib | rfl | rfl
      · exact hfork.owned _ (h.owned (j + 1) (Nat.lt_succ_self _) slot (hsiblings slot hsib).1)
      · exact hfork.owned p (h.owned (j + 1) (Nat.lt_succ_self _) (p, hp) hpmem)
      · exact hfork.taken
  have hupper₁ : Upper s₁ (j + 1) (A₁ ++ (p, hp) :: B₁) := by
    have hpop := h.pop.transfer hupperSame hfork.owned
    rwa [hlevel] at hpop
  refine ⟨⟨hfork.alloc, hupper₁, hlift, ?_, hsep⟩, hexpand⟩
  intro k hk slot hslot i hi slot' hslot'
  have hsameLevel : s₁.level k = s.level k := below_eq_of_pages fun i hi => hupperSame i (by omega)
  have hslot₀ : slot ∈ s.level k := by
    rw [← hsameLevel]
    exact hslot
  cases i with
  | zero =>
    rcases mem_cut hslot' with hsib | rfl | rfl
    · exact (h.ne_of_lt hfan hk le_rfl hslot₀ (hsiblings slot' hsib).1).symm
    · exact (h.ne_of_lt hfan hk le_rfl hslot₀ hpmem).symm
    · intro heq
      refine hfork.fresh ?_
      rw [show r = slot.1 from heq]
      exact h.owned k (by omega) slot hslot₀
  | succ i =>
    have hbelow : slot' ∈ below s.branch L i := by
      rw [← below_eq_of_pages fun k hk => hfanSame k (by omega), ← hexpand]
      have hshift := below_add (V := s₁.branch) (L := A₁ ++ (p, ↑sep) :: (r, hp) :: B₁) 1 i
      rw [Nat.add_comm] at hshift
      rw [hshift] at hslot'
      exact hslot'
    exact hapart k (by omega) slot hslot₀ i (by omega) slot' hbelow

theorem InternalPage.exists_split (h : InternalPage page)
    (hfull : page.freeSpace < 264) (id : UInt32) :
    ∃ left right sep, btreeSplitPage page emptyRight id maxKeySize = some (left, right, sep) ∧
      sep.length ≤ maxKeySize ∧ ∀ lsn₁ sum₁ lsn₂ sum₂, (InternalPage (left.stamp lsn₁ sum₁) ∧
          6 ≤ (left.stamp lsn₁ sum₁).pairs.length) ∧ (InternalPage (right.stamp lsn₂ sum₂) ∧
          6 ≤ (right.stamp lsn₂ sum₂).pairs.length) ∧ (1748 ≤ (left.stamp lsn₁ sum₁).freeSpace ∧
          1748 ≤ (right.stamp lsn₂ sum₂).freeSpace) ∧ ∀ hp : WithTop Bytes, page.branch.slots hp =
          (left.stamp lsn₁ sum₁).branch.slots sep ++ (right.stamp lsn₂ sum₂).branch.slots hp := by
  obtain ⟨ls, q, rs, left, right, hpairs, hsplit, hleft, hright, htypeL,
    htypeR, hnextL, hnextR, hcountL, hcountR, hfreeL, hfreeR⟩ :=
    exists_btreeSplitPage_internal h.holds h.type h.legal hfull emptyRight id
  have hsorted := h.sorted
  rw [hpairs, SortedPairs, pairwise_append, pairwise_cons] at hsorted
  have hlegal : ∀ x ∈ ls ++ q :: rs, x.SepLegal := by
    rw [← hpairs]
    exact h.legal
  refine ⟨left, right, q.key, hsplit, (hlegal q (by simp)).1, ?_⟩
  intro lsn₁ sum₁ lsn₂ sum₂
  have hleft' := hleft.stamp lsn₁ sum₁
  have hright' := hright.stamp lsn₂ sum₂
  refine ⟨⟨?_, ?_⟩, ⟨?_, ?_⟩, ⟨hfreeL, hfreeR⟩, ?_⟩
  · exact InternalPage.of_holds hleft' htypeL hsorted.1 fun x hx => hlegal x (by simp [hx])
  · rw [hleft'.pairs_eq]
    exact hcountL
  · exact InternalPage.of_holds hright' htypeR hsorted.2.1.2 fun x hx => hlegal x (by simp [hx])
  · rw [hright'.pairs_eq]
    exact hcountR
  · intro hp
    rw [slots_branch, slots_branch, slots_branch, hleft'.pairs_eq, hright'.pairs_eq, hpairs]
    simp [BtreePage.stamp, hnextL, hnextR]

end Carve

/-! ## Splitting an internal page -/

/-- The split of an internal page is complete: its children `L` are where they
were, and whichever half is above one of them has room. -/
def SplitDone (s : Store) (L : List (UInt32 × WithTop Bytes))
    (children : List UInt32) (j : ℕ) : Prop :=
  Upper s j L ∧ ∃ i, j = i + 1 ∧ ∀ n ∈ children, Above s i n (1748 ≤ ·)

section Split

variable {c : ℕ} {left : BtreePage}

/-- Of the nodes on a level, only `p` is above the children of `p`. -/
theorem Upper.not_mem_slots (h : Upper s (j + 1) L) (hfan : Fan s L m)
    (hlevel : s.level j = A₁ ++ (p, hp) :: B₁) {n : UInt32}
    (hn : n ∈ ((s.branch p).slots hp).map Prod.fst) {slot : TreeSlot} (hslot : slot ∈ A₁ ++ B₁) :
    n ∉ ((s.branch slot.1).slots slot.2).map Prod.fst := by
  intro hchild
  have hnodup := hfan.nodup_below (Nat.zero_le m)
  rw [below, ← h.level] at hnodup
  change ((expand s.branch (s.level j)).map Prod.fst).Nodup at hnodup
  rw [hlevel, expand_append, expand_cons, map_append, map_append,
    nodup_append, nodup_append] at hnodup
  obtain ⟨-, ⟨-, -, hright⟩, hleft⟩ := hnodup
  have hexpand : ∀ X : Slots, slot ∈ X → n ∈ (expand s.branch X).map Prod.fst := by
    intro X hX
    obtain ⟨t, ht, rfl⟩ := mem_map.mp hchild
    exact mem_map.mpr ⟨t, mem_flatMap.mpr ⟨slot, hX, ht⟩, rfl⟩
  rcases mem_append.mp hslot with hA | hB
  · exact hleft n (hexpand A₁ hA) n (mem_append_left _ hn) rfl
  · exact hright n hn n (hexpand B₁ hB) rfl

/-- Publishing the right half of `p` one level up completes the split. -/
theorem Reworked.split (h : Upper s (j + 1 + 1) L) (hfan : Fan s L m)
    (hlevel : s.level (j + 1) = A₁ ++ (p, hp) :: B₁) (hfork : Forked s s₁ p r left right)
    (hcut : Cut s₁ (j + 1) (m + 1) A₁ B₁ p r sep hp)
    (hexpand : expand s₁.branch (A₁ ++ (p, ↑sep) :: (r, hp) :: B₁) = L)
    (hroom : 1748 ≤ left.freeSpace ∧ 1748 ≤ right.freeSpace) {rc : ℤ}
    (hwork : Reworked F s₁ s' (j + 1) c (A₁ ++ (p, hp) :: B₁) rc fun j' =>
      Upper s' j' (A₁ ++ (p, ↑sep) :: (r, hp) :: B₁)) :
    Reworked F s s' (j + 1 + 1) (c + 1) L rc
      (SplitDone s' L (((s.branch p).slots hp).map Prod.fst)) := by
  obtain ⟨j', hj', hre, hend⟩ := hwork
  have hspent := hfork.spent
  have hpmem : (p, hp) ∈ s.level (j + 1) := by
    rw [hlevel]
    simp
  have hlevel₁ : ∀ k, k < j + 1 → s₁.level k = s.level k := by
    intro k hk
    refine below_eq_of_pages fun i hi slot hslot => ?_
    exact hfork.others _ (h.owned i (by omega) slot hslot)
      (h.ne_of_lt hfan (by omega) le_rfl hslot hpmem)
  have hfan' := hcut.fan.reshape hcut.apart hre
  have hexpand' : expand s'.branch (A₁ ++ (p, ↑sep) :: (r, hp) :: B₁) = L := by
    have hone := hcut.fan.below_reshape hcut.apart hre (i := 1) (by omega)
    rw [← hexpand]
    exact hone
  -- Whatever level `j'` is now, its pages were there before or are fresh.
  have hreshape : (∀ slot ∈ s'.level j', slot.1 = r ∨ ∃ t ∈ s.level (j + 1), t.1 = slot.1) →
      Reshaped s s' (j + 1 + 1) (j' + 1) := by
    intro hids
    refine ⟨hre.alloc, fun id hid => hre.owned id (hfork.owned id hid), ?_, ?_⟩
    · intro id hid hnot
      have hne : id ≠ p := (hnot (j + 1) (by omega) _ hpmem).symm
      rw [hre.pages id (hfork.owned id hid) ?_, hfork.others id hid hne]
      intro k hk slot hslot
      rw [hlevel₁ k hk] at hslot
      exact hnot k (by omega) slot hslot
    · intro k hk slot hslot hown
      by_cases hlast : k < j'
      · obtain ⟨i, hi, t, ht, hid⟩ := hre.upper k hlast slot hslot (hfork.owned _ hown)
        rw [hlevel₁ i hi] at ht
        exact ⟨i, by omega, t, ht, hid⟩
      · obtain rfl : k = j' := by omega
        rcases hids slot hslot with rfl | ⟨t, ht, hid⟩
        · exact absurd hown hfork.fresh
        · exact ⟨j + 1, by omega, t, ht, hid⟩
  rcases hend with ⟨rfl, hex', hless', hspent', hupper⟩ | ⟨rfl, hstarved, L₁, hcoarse, hupper⟩
  · refine ⟨j' + 1, by omega, hreshape ?_,
      .inl ⟨rfl, hex'.trans hfork.exhausted, by omega, by omega, ?_, j', rfl, ?_⟩⟩
    · intro slot hslot
      rw [hupper.level] at hslot
      rcases mem_cut hslot with hsib | rfl | rfl
      · exact .inr ⟨slot, (h.sibling hfan hlevel hsib).1, rfl⟩
      · exact .inr ⟨_, hpmem, rfl⟩
      · exact .inl rfl
    · have hpush := hupper.push hfan'
      rwa [hexpand'] at hpush
    · intro n hn slot hslot hchild q hq
      rw [hupper.level] at hslot
      have hsame : s'.pages slot.1 = s₁.pages slot.1 :=
        hcut.fan.pages_eq hcut.apart hre (Nat.zero_le _) hslot
      rw [hsame] at hq
      rcases mem_cut hslot with hsib | rfl | rfl
      · -- A sibling of `p` has no child of `p`.
        obtain ⟨hmem, hne⟩ := h.sibling hfan hlevel hsib
        have hbranch : s'.branch slot.1 = s.branch slot.1 := by
          refine branch_congr (hsame.trans (hfork.others _ ?_ hne))
          exact h.owned (j + 1) (by omega) slot hmem
        rw [hbranch] at hchild
        exact absurd hchild (h.not_mem_slots hfan hlevel hn hsib)
      · rw [hfork.left] at hq
        cases hq
        exact hroom.1
      · rw [hfork.right] at hq
        cases hq
        exact hroom.2
  · have hall : Coarser (A₁ ++ (p, ↑sep) :: (r, hp) :: B₁)
        L₁ := Fan.coarser_cut.trans hcoarse
    refine ⟨j' + 1, by omega, hreshape ?_, .inr ⟨rfl, hstarved.mono (by omega), _, ?_,
        hupper.push (hfan'.coarsen hall)⟩⟩
    · intro slot hslot
      rw [hupper.level] at hslot
      obtain ⟨t, ht, hid⟩ := hcoarse.exists_mem hslot
      exact .inr ⟨t, by rw [hlevel]; exact ht, hid⟩
    · have hlevels := hall.levels (V := s'.branch) 1
      rw [← hexpand']
      exact hlevels

/-- The part of `btree_split_node` after the root has been dealt with, on a
full internal page below the root.  `hins` says how publishing one level up
behaves. -/
theorem Upper.always_splitOff_insert (h : Upper s (j + 1 + 1) L)
    (hs : AllocOk s) (hfan : Fan s L m) (hapart : Apart s (j + 1 + 1) L m)
    (hlevel : s.level (j + 1) = A₁ ++ (p, hp) :: B₁)
    (hpage : s.pages p = some page) (hfull : page.freeSpace < 264) {depth : ℕ}
    (hins : ∀ s₁ r sep, Cut s₁ (j + 1) (m + 1) A₁ B₁ p r sep hp →
      (∀ k, k < j + 1 → ∀ slot ∈ s.level k, s₁.pages slot.1 = s.pages slot.1) →
      Always T (insertSeparator p sep r depth) s₁
        fun rc s' => Reworked F s₁ s' (j + 1) c (A₁ ++ (p, hp) :: B₁) rc fun j' => Upper s' j'
            (A₁ ++ (p, ↑sep) :: (r, hp) :: B₁)) :
    Always T (splitBelow p depth) s fun rc s' => Reworked F s s' (j + 1 + 1) (c + 1) L rc
        (SplitDone s' L (((s.branch p).slots hp).map Prod.fst)) := by
  have hpmem : (p, hp) ∈ s.level (j + 1) := by
    rw [hlevel]
    simp
  have hown : s.Owned p := h.owned (j + 1) (Nat.lt_succ_self _) (p, hp) hpmem
  have hinternal : InternalPage page :=
    (of_pages hpage (h.internal (j + 1) (Nat.lt_succ_self _) (p, hp) hpmem)).1
  refine always_bind.mpr (always_splitOff hs hpage hown ?_ ?_ ?_)
  · intro id
    obtain ⟨left, right, sep, hsplit, -⟩ := hinternal.exists_split hfull id
    exact ⟨left, right, sep, hsplit⟩
  · intro s' hsame hstarved
    exact always_pure.mpr ⟨j + 1 + 1, le_rfl, hsame.reshaped h,
      .inr ⟨rfl, hstarved.mono (by omega), L, Coarser.refl, h.untouched hsame⟩⟩
  · intro r s₁ left right sep lsn₁ sum₁ lsn₂ sum₂ hsplit hfork
    obtain ⟨left', right', sep', hsplit', hsep, hfacts⟩ := hinternal.exists_split hfull r
    rw [hsplit] at hsplit'
    cases hsplit'
    obtain ⟨hl, hr', hroom, hslots⟩ := hfacts lsn₁ sum₁ lsn₂ sum₂
    obtain ⟨hcut, hexpand⟩ := h.carve hfan hapart hlevel hpage hfork hl hr' (hslots hp) hsep
    have habove : ∀ k, k < j + 1 → ∀ slot ∈ s.level k, s₁.pages slot.1 = s.pages slot.1 := by
      intro k hk slot hslot
      exact hfork.others _ (h.owned k (by omega) slot hslot) (h.ne_of_lt hfan hk le_rfl hslot hpmem)
    refine (hins s₁ r sep hcut habove).mono ?_
    intro rc s' hwork
    exact hwork.split h hfan hlevel hfork hcut hexpand hroom

end Split

section Grow

variable {left : UInt32} {root : BtreePage} {lsn : UInt64} {sum : UInt32}

theorem internalPage_emptiedRoot (root : BtreePage) (left : UInt32) (lsn : UInt64) (sum : UInt32) :
    InternalPage ((emptiedRoot root left).stamp lsn sum) :=
  InternalPage.of_holds ((holds_emptiedRoot root left).stamp lsn sum) rfl
    List.Pairwise.nil (by simp)

theorem upper_grown (hroot : s₁.Owned rootPageId) (hempty : s₁.pages rootPageId =
      some ((emptiedRoot root left).stamp lsn sum)) : Upper s₁ 1 [(left, ⊤)] := by
  have hpairs := ((holds_emptiedRoot root left).stamp lsn sum).pairs_eq
  refine ⟨?_, ?_, ?_⟩
  · show expand s₁.branch [(rootPageId, ⊤)] = _
    rw [expand_cons, expand_nil, branch_eq hempty, slots_branch, hpairs]
    rfl
  · intro i hi slot hslot
    obtain rfl : i = 0 := by omega
    rw [mem_singleton.mp hslot]
    refine ⟨_, hempty, internalPage_emptiedRoot root left lsn sum, ?_⟩
    intro hpos
    exact absurd hpos (lt_irrefl 0)
  · intro i hi slot hslot
    obtain rfl : i = 0 := by omega
    rw [mem_singleton.mp hslot]
    exact hroot

theorem reshaped_grown {moved : BtreePage} (hfork : Forked s s₁ rootPageId left page moved)
    (hupper : Upper s₁ 1 [(left, ⊤)]) : Reshaped s s₁ 1 2 := by
  refine ⟨hfork.alloc, hfork.owned, ?_, ?_⟩
  · intro id hid hnot
    refine hfork.others id hid (hnot 0 Nat.one_pos (rootPageId, ⊤) ?_).symm
    simp [Levels.level, below]
  · intro k hk slot hslot hown
    have hcases : k = 0 ∨ k = 1 := by omega
    rcases hcases with rfl | rfl
    · exact ⟨0, Nat.one_pos, slot, hslot, rfl⟩
    · rw [hupper.level] at hslot
      rw [mem_singleton.mp hslot] at hown
      exact absurd hown hfork.fresh

theorem InternalPage.six_le_length (h : InternalPage root)
    (hfull : root.freeSpace < 264) : 6 ≤ root.pairs.length := by
  have hsizes := totalSize_le_of_forall root.pairs fun p hp => (h.legal p hp).size_le
  have hfree := h.holds.freeSpace
  rw [btreePageCapacity_eq] at hfree
  omega

/-- `btree_split_node` on a full internal root. -/
theorem Upper.always_btreeSplitNode_root (h : Upper s 1 L) (hs : AllocOk s)
    (hfan : Fan s L m) (hapart : Apart s 1 L m)
    (hpage : s.pages rootPageId = some root) (hfull : root.freeSpace < 264)
    {F : Faults} {T : StoreRel} [StoreLike F T] (depth : ℕ) :
    Always T (btreeSplitNode rootPageId (depth + 1 + 1)) s fun rc s' => Reworked F s s' 1 2 L rc
        (SplitDone s' L (((s.branch rootPageId).slots ⊤).map Prod.fst)) := by
  have hmem : (rootPageId, ⊤) ∈ s.level 0 := by simp [Levels.level, below]
  have hown : s.Owned rootPageId := h.owned 0 Nat.one_pos _ hmem
  have hinternal : InternalPage root := (of_pages hpage (h.internal 0 Nat.one_pos _ hmem)).1
  rw [btreeSplitNode_root]
  refine always_bind.mpr (always_growRoot hs hpage hown ?_ ?_)
  · intro s' hsame hstarved
    exact always_pure.mpr ⟨1, le_rfl, hsame.reshaped h,
      .inr ⟨rfl, hstarved.mono (by omega), L, Coarser.refl, h.untouched hsame⟩⟩
  · intro left s₁ lsn₁ sum₁ lsn₂ sum₂ hfork
    have hspent := hfork.spent
    have hone := upper_grown (hfork.owned _ hown) hfork.left
    have hreshaped := reshaped_grown hfork hone
    have hfan₁ := hfan.reshape hapart hreshaped
    have hholds := (hinternal.holds.movedRoot left).stamp lsn₁ sum₁
    have hinternal₁ : InternalPage ((movedRoot root left).stamp lsn₁ sum₁) :=
      InternalPage.of_holds hholds hinternal.type hinternal.sorted hinternal.legal
    have hbranch : s₁.branch left = s.branch rootPageId := by
      rw [branch_eq hfork.right, branch_eq hpage, BtreePage.branch,
        BtreePage.branch, hholds.pairs_eq]
      rfl
    have hexpand : expand s₁.branch [(left, ⊤)] = L := by
      rw [expand_cons, expand_nil, hbranch, ← h.level]
      show _ = expand s.branch [(rootPageId, ⊤)]
      rw [expand_cons, expand_nil]
    have hlift : Fan s₁ [(left, ⊤)] (m + 1) := by
      refine hfan₁.lift hexpand ?_ ?_
      · intro slot hslot
        rw [mem_singleton.mp hslot]
        refine ⟨_, hfork.right, hinternal₁, ?_⟩
        rw [hholds.pairs_eq]
        exact hinternal.six_le_length hfull
      · intro slot hslot
        rw [mem_singleton.mp hslot]
        exact hfork.taken
    have htwo : Upper s₁ 2 L := by
      have hpush := hone.push hlift
      rwa [hexpand] at hpush
    have hlevel : s₁.level (0 + 1) = [] ++ (left, ⊤) :: [] := hone.level
    have hins : ∀ s₂ r sep, Cut s₂ (0 + 1) (m + 1) [] [] left r sep ⊤ →
        (∀ k, k < 0 + 1 → ∀ slot ∈ s₁.level k, s₂.pages slot.1 = s₁.pages slot.1) →
        Always T (insertSeparator left sep r (depth + 1))
          s₂ fun rc s' => Reworked F s₂ s' (0 + 1) 0 ([] ++ (left, ⊤) :: []) rc
            fun j' => Upper s' j' ([] ++ (left, (sep : WithTop Bytes)) :: (r, ⊤) :: []) := by
      intro s₂ r sep hcut habove
      refine (hcut.always_insertSeparator_roomy ?_ depth).mono ?_
      · intro slot hslot _ q hq
        have hroot : slot.1 = rootPageId := by rw [mem_singleton.mp hslot]
        rw [hroot, habove 0 Nat.one_pos (rootPageId, ⊤) hmem, hfork.left] at hq
        cases hq
        exact hcut.entry_le.trans (by decide : 264 ≤ 4024)
      · intro rc s' hwork
        exact hwork.mono fun _ hgood => hgood.1
    refine (htwo.always_splitOff_insert hfork.alloc hfan₁
      (hapart.reshape hfan hreshaped) hlevel hfork.right hfull hins).mono ?_
    intro rc s' hwork
    rw [hbranch] at hwork
    exact hwork.prepend (by omega) hreshaped hfork.exhausted (by omega) hspent.le

end Grow

/-! ## The cascade -/

/-- Publishing in a full parent, once its split is understood: the split makes
room and the second attempt publishes. -/
theorem Cut.always_insertSeparator_of_split {c : ℕ} {A B : Slots} {n : UInt32}
    {hi : WithTop Bytes} (h : Cut s (j + 1) m A B n r sep hi) {depth : ℕ}
    (hsplit : ∀ p hp A₁ B₁ page, s.level j = A₁ ++ (p, hp) :: B₁ →
      s.pages p = some page → page.freeSpace < 264 → Always T (btreeSplitNode p (depth + 1)) s
        fun rc s' => Reworked F s s' (j + 1) c (A ++ (n, hi) :: B) rc
          (SplitDone s' (A ++ (n, hi) :: B) (((s.branch p).slots hp).map Prod.fst))) :
    Always T (insertSeparator n sep r (depth + 1 + 1)) s
      fun rc s' => Reworked F s s' (j + 1) c (A ++ (n, hi) :: B) rc
        (Published s s' j (A ++ (n, ↑sep) :: (r, hi) :: B) n r (kvPairSize + sep.length)) := by
  refine h.always_insertSeparator (depth + 1) ?_ ?_ ?_
  · intro hF
    exact ⟨j + 1, le_rfl, Reshaped.refl h.alloc _, .inr ⟨rfl, .inl hF, _, Coarser.refl, h.upper⟩⟩
  · intro s' hex hleft hupper hreshaped hroom
    refine ⟨j + 1, le_rfl, hreshaped, .inl ⟨rfl, hex, hleft.le, by omega, hupper, j, rfl, ?_⟩⟩
    intro htight
    refine hroom _ (htight.mono ?_)
    intro ρ hlt hle
    exact absurd hlt (not_lt.mpr hle)
  · intro p hp A₁ B₁ C D page hparent hpage hfull
    refine (hsplit p hp A₁ B₁ page hparent.level hpage (hfull.trans_le h.entry_le)).bind ?_
    rintro rc s₁ ⟨j', hj', hreshaped, ⟨rfl, hex, hless, hspent, hupper, i, rfl,
      hroomy⟩ | ⟨rfl, hstarved, hleft⟩⟩
    · have hroom : Above s₁ i n (1748 ≤ ·) := by
        refine hroomy n ?_
        rw [hparent.slots]
        simp
      refine ((h.reshape hreshaped hupper).always_insertSeparator_roomy
        (hroom.mono fun ρ hρ => h.entry_le.trans (by omega)) depth).mono ?_
      intro rc s' hwork
      refine (hwork.prepend hj' hreshaped hex hless hspent).mono ?_
      rintro j'' ⟨hupper', rfl, htaken⟩
      refine ⟨hupper', i, rfl, ?_⟩
      intro _
      refine htaken _ (hroom.mono ?_)
      intro ρ hρ _
      exact Nat.sub_le_sub_right hρ _
    · exact always_pure.mpr ⟨j', hj', hreshaped, .inr ⟨rfl, hstarved, hleft⟩⟩

/-- `insert_separator` from any cut.  A budget of two units of depth for every
level above the cut is enough, and it takes at most one fresh page per level
and one for a new root. -/
theorem Cut.always_insertSeparator_cascade (j : ℕ) :
    ∀ {s : Store} {m : ℕ} {A B : Slots}
      {n r : UInt32} {sep : Bytes} {hi : WithTop Bytes} (depth : ℕ),
      2 * j + 3 ≤ depth → Cut s (j + 1) m A B n r sep hi →
      Always T (insertSeparator n sep r depth) s
        fun rc s' => Reworked F s s' (j + 1) (j + 2) (A ++ (n, hi) :: B) rc
          (Published s s' j (A ++ (n, ↑sep) :: (r, hi) :: B) n r (kvPairSize + sep.length)) := by
  induction j with
  | zero =>
    intro s m A B n r sep hi depth hdepth hcut
    obtain ⟨d, rfl⟩ : ∃ d, depth = d + 1 + 1 + 1 := ⟨depth - 3, by omega⟩
    refine hcut.always_insertSeparator_of_split ?_
    intro p hp A₁ B₁ page hlevel hpage hfull
    have hroot : A₁ = [] ∧ (p, hp) = (rootPageId, ⊤) ∧ B₁ = [] := by
      cases A₁ with
      | nil => simpa [Levels.level, below, eq_comm] using hlevel
      | cons a A₁ => simp [Levels.level, below] at hlevel
    obtain ⟨rfl, hp', rfl⟩ := hroot
    cases hp'
    have hmerged : Apart s 1 (A ++ (n, hi) :: B) m := hcut.apart.coarsen Fan.coarser_cut
    exact hcut.upper.always_btreeSplitNode_root hcut.alloc hcut.fan.merge hmerged hpage hfull d
  | succ j ih =>
    intro s m A B n r sep hi depth hdepth hcut
    obtain ⟨d, rfl⟩ : ∃ d, depth = d + 1 + 1 := ⟨depth - 2, by omega⟩
    refine hcut.always_insertSeparator_of_split ?_
    intro p hp A₁ B₁ page hlevel hpage hfull
    have hmerged : Apart s (j + 1 + 1) (A ++ (n, hi) :: B) m := hcut.apart.coarsen Fan.coarser_cut
    have hne : p ≠ rootPageId := by
      have hmem : (p, hp) ∈ s.level (j + 1) := by
        rw [hlevel]
        simp
      have hroot : (rootPageId, ⊤) ∈ s.level 0 := by simp [Levels.level, below]
      exact (hcut.upper.ne_of_lt hcut.fan.merge (Nat.succ_pos j) le_rfl hroot hmem).symm
    rw [btreeSplitNode_of_ne hne]
    refine hcut.upper.always_splitOff_insert hcut.alloc hcut.fan.merge hmerged hlevel hpage hfull ?_
    intro s₁ r sep hcut₁ _
    refine (ih d (by omega) hcut₁).mono ?_
    intro rc s' hwork
    exact hwork.mono fun _ hgood => hgood.1

end Codo.Storage
