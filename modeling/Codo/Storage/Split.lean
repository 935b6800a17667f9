import Codo.Storage.Tree

/-!
# Splitting and publishing

A split is described by one level of the tree.  `Upper s j L` says that the
pages above level `j` form the top of a tree whose level `j` is `L`; `Fan s L m`
says that `m` levels below the nodes `L` one finds leaves.  The two together
are a whole tree.  While a node is cut and its right half not yet published,
the upper part still routes to the old list, and the fan below the new list is
already complete.
-/

namespace Codo.Storage

open Support Support.Levels Program List Store

variable {s : Store} {j : ℕ} {L : Slots} {s' : Store}

abbrev rootSlots : List (UInt32 × WithTop Bytes) := [(rootPageId, ⊤)]

/-- The top of a tree, down to level `j`. -/
structure Upper (s : Store) (j : ℕ) (L : List (UInt32 × WithTop Bytes)) : Prop where
  level : s.level j = L
  internal : ∀ i, i < j → ∀ slot ∈ s.level i,
    ∃ page, s.pages slot.1 = some page ∧ InternalPage page ∧ (0 < i → 6 ≤ page.pairs.length)
  owned : ∀ i, i < j → ∀ slot ∈ s.level i, s.Owned slot.1

/-- Complete subtrees of height `m` below the nodes `L`. -/
structure Fan (s : Store) (L : List (UInt32 × WithTop Bytes)) (m : ℕ) : Prop where
  internal : ∀ i, i < m → ∀ slot ∈ below s.branch L i,
    ∃ page, s.pages slot.1 = some page ∧ InternalPage page ∧ 6 ≤ page.pairs.length
  bottom : ∀ slot ∈ below s.branch L m,
    ∃ page, s.pages slot.1 = some page ∧ page.header.pageType = pageTypeLeaf
  ascending : Ascending (below s.branch L m)
  nodup : ((below s.branch L m).map Prod.fst).Nodup
  owned : ∀ i, i ≤ m → ∀ slot ∈ below s.branch L i, s.Owned slot.1

variable {m : ℕ}

namespace Upper

theorem level_add (h : Upper s j L) (i : ℕ) : s.level (j + i) = below s.branch L i := by
  rw [← h.level]
  exact below_add j i

/-- The top of a tree and the fan below it make a tree for descents. -/
theorem spine (h : Upper s j L) (hfan : Fan s L m) : Spine s (j + m) := by
  have hsplit : ∀ i, j ≤ i → s.level i = below s.branch L (i - j) := by
    intro i hi
    rw [← h.level_add, Nat.add_sub_cancel' hi]
  refine ⟨?_, ?_, ?_, ?_⟩
  · intro i hi slot hslot
    by_cases hij : i < j
    · obtain ⟨page, hpage, hinternal, -⟩ := h.internal i hij slot hslot
      exact ⟨page, hpage, hinternal⟩
    · rw [hsplit i (not_lt.mp hij)] at hslot
      obtain ⟨page, hpage, hinternal, -⟩ := hfan.internal (i - j) (by omega) slot hslot
      exact ⟨page, hpage, hinternal⟩
  · intro slot hslot
    rw [h.level_add] at hslot
    exact hfan.bottom slot hslot
  · rw [h.level_add]
    exact hfan.ascending
  · intro i hi slot hslot
    by_cases hij : i < j
    · exact (h.owned i hij slot hslot).nonzero
    · rw [hsplit i (not_lt.mp hij)] at hslot
      exact (hfan.owned (i - j) (by omega) slot hslot).nonzero

end Upper

variable {A B : Slots} {n r : UInt32} {hi : WithTop Bytes}

namespace Fan

variable {sep : WithTop Bytes}

theorem nodup_below (h : Fan s L m)
    {i : ℕ} (hi : i ≤ m) : ((below s.branch L i).map Prod.fst).Nodup :=
  Levels.nodup_below hi h.nodup

theorem coarsen {L' : Slots} (h : Fan s L m) (hcoarse : Coarser L L') : Fan s L' m := by
  have hlevels : ∀ i, Coarser (below s.branch L i) (below s.branch L' i) :=
    fun i => hcoarse.levels i
  refine ⟨?_, ?_, ?_, ?_, ?_⟩
  · intro i hlt slot hslot
    obtain ⟨slot', hslot', hid⟩ := (hlevels i).exists_mem hslot
    rw [← hid]
    exact h.internal i hlt slot' hslot'
  · intro slot hslot
    obtain ⟨slot', hslot', hid⟩ := (hlevels m).exists_mem hslot
    rw [← hid]
    exact h.bottom slot' hslot'
  · exact (hlevels m).ascending h.ascending
  · exact h.nodup.sublist (hlevels m).sublist
  · intro i hle slot hslot
    obtain ⟨slot', hslot', hid⟩ := (hlevels i).exists_mem hslot
    rw [← hid]
    exact h.owned i hle slot' hslot'

/-- Before the right half is published, its left half answers for the whole
interval. -/
theorem coarser_cut : Coarser (A ++ (n, sep) :: (r, hi) :: B) (A ++ (n, hi) :: B) :=
  @Coarser.merge _ _ _ A [] B n r sep hi Coarser.refl

theorem merge (h : Fan s (A ++ (n, sep) :: (r, hi) :: B) m) : Fan s (A ++ (n, hi) :: B) m :=
  h.coarsen coarser_cut

end Fan

/-! ## The height of a tree -/

/-- Owned ids are below the allocator's bound, so there are few of them. -/
theorem length_le_of_owned (hs : AllocOk s) {l : List UInt32} (hnodup : l.Nodup)
    (howned : ∀ id ∈ l, s.Owned id) : l.length ≤ maxPages :=
  length_le_of_toNat_lt hnodup fun id hid => (howned id hid).lt.trans_le hs.le

/-- Six separators in every node below the root bound the height by nine. -/
theorem Upper.height_lt (hs : AllocOk s) (h : Upper s j L)
    (hfan : Fan s L m) (hj : 0 < j) : j + m < 9 := by
  have hlevel : ∀ i, s.level (1 + i) = below s.branch (s.level 1) i := fun i => below_add 1 i
  have hfanout : ∀ i, i < j + m - 1 → ∀ slot ∈ below s.branch (s.level 1) i,
      6 ≤ (s.branch slot.1).seps.length := by
    intro i hi slot hslot
    rw [← hlevel] at hslot
    obtain ⟨page, hpage, hcount⟩ : ∃ page, s.pages slot.1 = some page ∧ 6 ≤ page.pairs.length := by
      by_cases hij : 1 + i < j
      · obtain ⟨page, hpage, -, hcount⟩ := h.internal (1 + i) hij slot hslot
        exact ⟨page, hpage, hcount (by omega)⟩
      · have hadd : s.level (1 + i) = below s.branch L (1 + i - j) := by
          rw [← h.level_add]
          congr 1
          omega
        rw [hadd] at hslot
        obtain ⟨page, hpage, -, hcount⟩ := hfan.internal (1 + i - j) (by omega) slot hslot
        exact ⟨page, hpage, hcount⟩
    rw [branch_eq hpage, BtreePage.branch, length_map]
    exact hcount
  have hsize := length_below_ge hfanout
  rw [← hlevel] at hsize
  have hbottom : s.level (1 + (j + m - 1)) = below s.branch L m := by
    rw [← h.level_add]
    congr 1
    omega
  have hfew : (s.level (1 + (j + m - 1))).length ≤ maxPages := by
    have hle := length_le_of_owned hs hfan.nodup (by
      intro id hid
      obtain ⟨slot, hslot, rfl⟩ := mem_map.mp hid
      exact hfan.owned m le_rfl slot hslot)
    rw [hbottom]
    simpa using hle
  have hone : 0 < (s.level 1).length := by
    show 0 < (expand s.branch (s.level 0)).length
    rw [show s.level 0 = [(rootPageId, ⊤)] from rfl, expand_cons]
    simp [length_slots]
  by_contra hnine
  have hpow : (6 + 1) ^ 8 ≤ (6 + 1) ^ (j + m - 1) := Nat.pow_le_pow_right (by decide) (by omega)
  have hmany : (6 + 1) ^ 8 * 1 ≤ (6 + 1) ^ (j + m - 1) * (s.level 1).length :=
    Nat.mul_le_mul hpow hone
  rw [maxPages] at hfew
  omega

/-! ## Finding the parent -/

/-- The page `p` on the level above stands over `n`: its children are `C`,
then `n`, then `D`. -/
structure ParentOf (s : Store) (j : ℕ) (n : UInt32) (hi : WithTop Bytes)
    (p : UInt32) (hp : WithTop Bytes) (A₁ B₁ C D : List (UInt32 × WithTop Bytes)) : Prop where
  level : s.level j = A₁ ++ (p, hp) :: B₁
  slots : (s.branch p).slots hp = C ++ (n, hi) :: D

theorem ParentOf.mem {p : UInt32} {hp : WithTop Bytes} {A₁ B₁ C D : Slots}
    (h : ParentOf s j n hi p hp A₁ B₁ C D) : (p, hp) ∈ s.level j :=
  h.level ▸ mem_append_cons_self

/-- The level below is the children of the pages before `p`, those of `p`, and
those of the pages after it. -/
theorem ParentOf.around {p : UInt32} {hp : WithTop Bytes}
    {A₁ B₁ C D : Slots} (h : ParentOf s j n hi p hp A₁ B₁ C D)
    (hupper : Upper s (j + 1) (A ++ (n, hi) :: B))
    (hnodup : ((A ++ (n, hi) :: B).map Prod.fst).Nodup) :
    expand s.branch A₁ ++ C = A ∧ D ++ expand s.branch B₁ = B := by
  refine append_cons_inj_of_nodup ?_ hnodup
  rw [← hupper.level]
  show _ = expand s.branch (s.level j)
  rw [h.level, expand_append, expand_cons, h.slots]
  simp

namespace Upper

variable {sep : Bytes}

theorem routeAt_sep (hfan : Fan s (A ++ (n, ↑sep) :: (r, hi) :: B) m) :
    routeAt (A ++ (n, hi) :: B) sep = some (n, hi) := by
  have hasc := ascending_below (Nat.zero_le m) hfan.ascending
  rw [below, Ascending, pairwise_append, pairwise_cons] at hasc
  obtain ⟨-, ⟨hhead, -⟩, hcross⟩ := hasc
  refine routeAt_append ?_ ?_
  · intro t ht
    exact hcross t ht (n, ↑sep) (by simp)
  · exact (hhead (r, hi) (by simp)).le

/-- `insert_separator` finds the page directly above the cut node. -/
theorem always_findParent (h : Upper s (j + 1) (A ++ (n, hi) :: B))
    (hfan : Fan s (A ++ (n, ↑sep) :: (r, hi) :: B) m)
    (hdepth : j + 1 + m < btreeMaxDepth) {F : Faults} {T : StoreRel} [StoreLike F T] :
    Always T (findParent n sep) s fun parent s' =>
      s' = s ∧ (parent = none ∧ F.pages = true ∨ ∃ p hp A₁ B₁ C D, parent = some p ∧
          ParentOf s j n hi p hp A₁ B₁ C D) := by
  have hspine : Spine s (j + 1 + m) := h.spine hfan.merge
  have hroute : routeAt (s.level (j + 1)) sep = some (n, hi) := by
    rw [h.level]
    exact routeAt_sep hfan
  have hid : s.routeId sep (j + 1) = n := routeId_eq hroute
  have hasc : Ascending (s.level (j + 1)) := ascending_below (Nat.le_add_right _ m) hspine.ascending
  obtain ⟨up, hup⟩ : ∃ up, routeAt (s.level j) sep = some up :=
    exists_routeAt_below (ascending_of_expand hasc) ⟨(rootPageId, ⊤), by simp [routeAt]⟩
  have hslots : routeAt ((s.branch up.1).slots up.2) sep = some (n, hi) := by
    rw [← routeAt_expand hasc hup]
    exact hroute
  obtain ⟨A₁, B₁, hlevel, -⟩ := exists_split_of_routeAt hup
  obtain ⟨C, D, hcut, -⟩ := exists_split_of_routeAt hslots
  have hmemN : n ∈ ids s.branch rootSlots (j + 1) :=
    mem_map.mpr ⟨(n, hi), mem_of_routeAt hroute, rfl⟩
  have hindex : ((List.range' 0 (j + 1 + m + 1)).map (s.routeId sep)).idxOf? n = some (j + 1) := by
    rw [List.idxOf?_eq_some_iff]
    have hlen : j + 1 < ((List.range' 0 (j + 1 + m + 1)).map (s.routeId sep)).length := by
      rw [length_map, length_range']
      omega
    refine ⟨hlen, by simp [hid], ?_⟩
    intro i hi' heq
    have hrouteI : ∃ slot, routeAt (s.level i) sep = some slot := exists_routeAt_below
        (ascending_below (by omega) hspine.ascending) ⟨(rootPageId, ⊤), by simp [routeAt]⟩
    obtain ⟨slot, hslot⟩ := hrouteI
    have hn : slot.1 = n := by simpa [routeId_eq hslot] using heq
    exact hspine.not_mem_ids_of_lt hi' (by omega)
      (mem_map.mpr ⟨slot, mem_of_routeAt hslot, hn⟩) hmemN
  have hparent : ((List.range' 0 (j + 1 + m + 1)).map (s.routeId sep))[j]? = some up.1 := by
    rw [List.getElem?_map, List.getElem?_range' (by omega)]
    simp [routeId_eq hup]
  refine (hspine.always_descendPath sep hdepth).bind ?_
  rintro path s' ⟨rfl, ⟨rfl, hF⟩ | rfl⟩
  · exact always_pure.mpr ⟨rfl, .inl ⟨rfl, hF⟩⟩
  · simp only [hindex]
    refine always_pure.mpr ⟨rfl, .inr ?_⟩
    exact ⟨up.1, up.2, A₁, B₁, C, D, hparent, hlevel, hcut⟩

end Upper

/-! ## Publishing in a parent with room -/

variable {page : BtreePage} {hp : WithTop Bytes} {C D : Slots}

section Publish

variable {xs ys : List KvPair}

/-- The loop over a parent's entries finds the first one reaching `n`. -/
theorem findChildFrom_eq (h : Holds page (xs ++ ys)) (k : ℕ)
    (hxs : ∀ p ∈ xs.drop k, p.child ≠ n) (hk : k ≤ xs.length) :
    findChildFrom page n (xs.length + ys.length - k) k =
      findChildFrom page n ys.length xs.length := by
  obtain ⟨d, hd⟩ : ∃ d, d = xs.length - k := ⟨_, rfl⟩
  induction d generalizing k with
  | zero =>
    have hkeq : k = xs.length := by omega
    rw [hkeq, Nat.add_sub_cancel_left]
  | succ d ih =>
    have hlt : k < xs.length := by omega
    have hlt' : k < (xs ++ ys).length := by
      rw [length_append]
      omega
    obtain ⟨us, p, vs, hsplit, hlen, hget, hat⟩ := h.exists_getKvPair hlt'
    have hp : p ∈ xs.drop k := by
      have hgetP : (xs ++ ys)[k]? = some p := by
        rw [hsplit, ← hlen]
        simp
      rw [List.getElem?_append_left hlt] at hgetP
      rw [mem_iff_getElem?]
      exact ⟨0, by simpa using hgetP⟩
    have hcount : xs.length + ys.length - k = xs.length + ys.length - (k + 1) + 1 := by omega
    have hne : page.kvChildPageId (totalSize us) ≠ n := by
      rw [hat.kvChildPageId]
      exact hxs p hp
    rw [hcount, findChildFrom, hget]
    simp only [if_neg hne]
    refine ih (k + 1) ?_ hlt (by omega)
    intro q hq
    refine hxs q ?_
    rw [← drop_drop] at hq
    exact mem_of_mem_drop hq

theorem findChildFrom_cons (h : Holds page (xs ++ ys)) {p : KvPair}
    {zs : List KvPair} (hys : ys = p :: zs) (hp : p.child = n) (hxs : ∀ q ∈ xs, q.child ≠ n) :
    findChildFrom page n page.keyCount 0 = some (some xs.length) := by
  have hstart := findChildFrom_eq h 0 (by simpa using hxs) (Nat.zero_le _)
  have hlt : xs.length < (xs ++ ys).length := by simp [hys]
  obtain ⟨us, q, vs, hsplit, hlen, hget, hat⟩ := h.exists_getKvPair hlt
  have hq : q = p := by
    have hgetQ : (xs ++ ys)[xs.length]? = some q := by
      rw [hsplit, ← hlen]
      simp
    rw [hys] at hgetQ
    simpa using hgetQ.symm
  rw [h.keyCount, length_append]
  rw [Nat.sub_zero] at hstart
  rw [hstart, hys, length_cons, findChildFrom, hget]
  simp [hat.kvChildPageId, hq, hp]

theorem findChildFrom_none (h : Holds page xs) (hxs : ∀ q ∈ xs, q.child ≠ n) :
    findChildFrom page n page.keyCount 0 = some none := by
  have hholds : Holds page (xs ++ []) := by simpa using h
  have hstart := findChildFrom_eq hholds 0 (by simpa using hxs) (Nat.zero_le _)
  rw [h.keyCount]
  simpa [findChildFrom] using hstart

@[simp] theorem BtreePage.setKvChild_header (page : BtreePage) (offset : ℕ)
    (id : UInt32) : (page.setKvChild offset id).header = page.header := rfl

/-- A separator and the child in front of it. -/
@[simp] def KvPair.slot (p : KvPair) : TreeSlot := (p.child, ↑p.key)

theorem BtreePage.slots_branch (page : BtreePage) (hp : WithTop Bytes) :
    page.branch.slots hp = page.pairs.map KvPair.slot ++ [(page.header.nextPageId, hp)] := by
  simp [BtreePage.branch, Branch.slots]

theorem sortedPairs_of_ascending {ps : List KvPair} (tail : Slots)
    (h : Ascending (ps.map KvPair.slot ++ tail)) : SortedPairs ps := by
  rw [Ascending, pairwise_append, pairwise_map] at h
  refine h.1.imp ?_
  intro p q hpq
  exact WithTop.coe_lt_coe.mp hpq

/-- A child of a page is its last child or the child of one of its entries, and
the loop of `insert_separator` finds the pointer that reaches it. -/
theorem findChild_cases (h : InternalPage page) (hslots : page.branch.slots hp = C ++ (n, hi) :: D)
    (hnodup : ((C ++ (n, hi) :: D).map Prod.fst).Nodup) :
    (C = page.pairs.map KvPair.slot ∧ n = page.header.nextPageId ∧ hi = hp ∧ D = [] ∧
        findChildFrom page n page.keyCount 0 = some none) ∨
      ∃ xs p ys, page.pairs = xs ++ p :: ys ∧ p.child = n ∧ ↑p.key = hi ∧ C = xs.map KvPair.slot ∧
        D = ys.map KvPair.slot ++ [(page.header.nextPageId, hp)] ∧
        findChildFrom page n page.keyCount 0 = some (some xs.length) := by
  have hbefore : ∀ xs : List KvPair, C = xs.map KvPair.slot → ∀ q ∈ xs, q.child ≠ n := by
    intro xs hC q hq heq
    rw [hC, map_append, nodup_append] at hnodup
    refine hnodup.2.2 q.child ?_ n (by simp) heq
    simp only [map_map, mem_map]
    exact ⟨q, hq, rfl⟩
  rw [BtreePage.slots_branch] at hslots
  rcases append_eq_append_iff.mp hslots with ⟨zs, hC, htail⟩ | ⟨zs, hmap, htail⟩
  · have hzs : zs = [] ∧ (page.header.nextPageId, hp) = (n, hi) ∧ D = [] := by
      cases zs with
      | nil => simpa [eq_comm] using htail
      | cons z zs => simp at htail
    obtain ⟨rfl, hlast, rfl⟩ := hzs
    rw [append_nil] at hC
    cases hlast
    exact .inl ⟨hC, rfl, rfl, rfl, findChildFrom_none h.holds (hbefore _ hC)⟩
  · cases zs with
    | nil =>
      rw [nil_append, cons_eq_cons] at htail
      obtain ⟨hlast, rfl⟩ := htail
      rw [append_nil] at hmap
      cases hlast
      exact .inl ⟨hmap.symm, rfl, rfl, rfl, findChildFrom_none h.holds (hbefore _ hmap.symm)⟩
    | cons z zs =>
      obtain ⟨rfl, rfl⟩ := htail
      obtain ⟨xs, rest, hpairs, rfl, hrest⟩ := map_eq_append_iff.mp hmap
      obtain ⟨p, ys, rfl, hp', rfl⟩ := map_eq_cons_iff.mp hrest
      cases hp'
      have hholds : Holds page (xs ++ p :: ys) := hpairs ▸ h.holds
      exact .inr ⟨xs, p, ys, hpairs, rfl, rfl, rfl, rfl,
        findChildFrom_cons hholds rfl rfl (hbefore xs rfl)⟩

theorem exists_findChild (h : InternalPage page) (hslots : page.branch.slots hp = C ++ (n, hi) :: D)
    (hnodup : ((C ++ (n, hi) :: D).map Prod.fst).Nodup) :
    ∃ oldPos, findChildFrom page n page.keyCount 0 = some oldPos ∧
      ¬ (oldPos = none ∧ page.header.nextPageId ≠ n) := by
  rcases findChild_cases h hslots hnodup with
    ⟨-, hn, -, -, hfind⟩ | ⟨xs, -, -, -, -, -, -, -, hfind⟩
  · exact ⟨none, hfind, by simp [hn]⟩
  · exact ⟨some xs.length, hfind, by simp⟩

theorem Holds.freeSpace_of_grown {page' : BtreePage} {ps ps' : List KvPair}
    {c : ℕ} (h : Holds page ps) (h' : Holds page' ps') (hsize : totalSize ps' = totalSize ps + c) :
    page'.freeSpace + c = page.freeSpace := by
  have hold := h.freeSpace
  have hnew := h'.freeSpace
  omega

/-- In a parent with room, the new entry is inserted in front of the pointer
that reached `n`, and that pointer is handed to `r`. -/
theorem exists_publish (h : InternalPage page) {sep : Bytes} (r : UInt32)
    (hslots : page.branch.slots hp = C ++ (n, hi) :: D)
    (hnodup : ((C ++ (n, hi) :: D).map Prod.fst).Nodup)
    (hasc : Ascending (C ++ (n, ↑sep) :: (r, hi) :: D)) (hsep : sep.length ≤ maxKeySize)
    (hroom : kvPairSize + sep.length ≤ page.freeSpace) :
    ∃ oldPos page' page'', findChildFrom page n page.keyCount 0 = some oldPos ∧
      ¬ (oldPos = none ∧ page.header.nextPageId ≠ n) ∧
      insertKvPair page (oldPos.getD page.keyCount) sep [] n = some page' ∧
      (∀ id, repoint id page' oldPos r = do
        updatePage id page''
        releasePage id .exclusive
        pure 0) ∧
      (∀ lsn checksum, InternalPage (page''.stamp lsn checksum) ∧
        (page''.stamp lsn checksum).branch.slots hp = C ++ (n, ↑sep) :: (r, hi) :: D ∧
        (page''.stamp lsn checksum).pairs.length = page.pairs.length + 1 ∧
        (page''.stamp lsn checksum).freeSpace + (kvPairSize + sep.length) = page.freeSpace) := by
  have hnew : (⟨sep, [], n⟩ : KvPair).SepLegal := ⟨hsep, rfl⟩
  have hsize : (⟨sep, [], n⟩ : KvPair).size ≤ page.freeSpace := by simpa [KvPair.size] using hroom
  rcases findChild_cases h hslots hnodup with ⟨hC, rfl, rfl, rfl, hfind⟩ |
    ⟨xs, p, ys, hpairs, rfl, rfl, hC, hD, hfind⟩
  · -- `n` is the last child: the entry goes to the end and `r` becomes last.
    have hholds : Holds page (page.pairs ++ []) := by simpa using h.holds
    obtain ⟨page', hinsert, hholds', htype', -⟩ := hholds.exists_insertKvPair hnew.fits hsize
    have hset : Holds { page' with header := { page'.header with nextPageId := r } }
        (page.pairs ++ [⟨sep, [], page.header.nextPageId⟩]) :=
      ⟨hholds'.fits, hholds'.data, hholds'.keyCount, hholds'.freeSpace⟩
    refine ⟨none, page', _, hfind, by simp, ?_, fun _ => rfl, ?_⟩
    · simpa [h.holds.keyCount] using hinsert
    · intro lsn checksum
      have hstamp := hset.stamp lsn checksum
      have hsorted : SortedPairs (page.pairs ++ [⟨sep, [], page.header.nextPageId⟩]) := by
        refine sortedPairs_of_ascending [(r, hi)] ?_
        simpa [hC] using hasc
      refine ⟨InternalPage.of_holds hstamp (htype'.trans h.type) hsorted ?_, ?_, ?_, ?_⟩
      · intro q hq
        rcases mem_append.mp hq with hmem | hone
        · exact h.legal q hmem
        · rw [mem_singleton.mp hone]
          exact hnew
      · rw [BtreePage.slots_branch, hstamp.pairs_eq, hC]
        simp [BtreePage.stamp]
      · rw [hstamp.pairs_eq]
        simp
      · exact h.holds.freeSpace_of_grown hstamp (by simp [KvPair.size])
  · -- `n` hangs below an entry: the entry moves right and now covers `r`.
    have hholds : Holds page (xs ++ p :: ys) := by
      rw [← hpairs]
      exact h.holds
    obtain ⟨page', hinsert, hholds', htype', hnext'⟩ := hholds.exists_insertKvPair hnew.fits hsize
    have hlt : xs.length + 1 < (xs ++ ⟨sep, [], p.child⟩ :: p :: ys).length := by simp
    obtain ⟨us, q, vs, hsplit, hlen, hget, -⟩ := hholds'.exists_getKvPair hlt
    have hus : us = xs ++ [⟨sep, [], p.child⟩] ∧ q :: vs = p :: ys := by
      have hsplit' : (xs ++ [⟨sep, [], p.child⟩]) ++ p :: ys =
          us ++ q :: vs := by simpa using hsplit
      obtain ⟨hus, hqs⟩ := append_inj hsplit' (by simp [hlen])
      exact ⟨hus.symm, hqs.symm⟩
    obtain ⟨rfl, hqs⟩ := hus
    cases hqs
    have hholds'' : Holds page' ((xs ++ [⟨sep, [], p.child⟩]) ++ p :: ys) := by simpa using hholds'
    have hset := hholds''.setKvChild r
    refine ⟨some xs.length, page', page'.setKvChild (totalSize (xs ++ [⟨sep, [], p.child⟩])) r,
      hfind, by simp, hinsert, ?_, ?_⟩
    · intro id
      have hget' : getKvPair page' ((xs.length : ℤ) + 1) =
          some (totalSize (xs ++ [⟨sep, [], p.child⟩])) := by
        exact_mod_cast hget
      simp only [repoint, hget']
    · intro lsn checksum
      have hstamp := hset.stamp lsn checksum
      have hsorted : SortedPairs ((xs ++ [⟨sep, [], p.child⟩]) ++ { p with child := r } :: ys) := by
        refine sortedPairs_of_ascending [(page.header.nextPageId, hp)] ?_
        simpa [hC, hD] using hasc
      refine ⟨InternalPage.of_holds hstamp (htype'.trans h.type) hsorted ?_, ?_, ?_, ?_⟩
      · intro q' hq'
        rcases mem_append.mp hq' with hfront | hback
        · rcases mem_append.mp hfront with hold | hone
          · exact h.legal q' (by simp [hpairs, hold])
          · rw [mem_singleton.mp hone]
            exact hnew
        · rcases mem_cons.mp hback with rfl | hold
          · exact h.legal p (by simp [hpairs])
          · exact h.legal q' (by simp [hpairs, hold])
      · rw [BtreePage.slots_branch, hstamp.pairs_eq, hC, hD]
        simp [BtreePage.stamp, hnext']
      · rw [hstamp.pairs_eq, hpairs]
        simp
        omega
      · refine h.holds.freeSpace_of_grown hstamp ?_
        rw [hpairs]
        simp [KvPair.size]
        omega

end Publish

/-! ## Publication in the store -/

/-- The pages above level `j` do not occur in the fan below `L`. -/
def Apart (s : Store) (j : ℕ) (L : List (UInt32 × WithTop Bytes)) (m : ℕ) : Prop :=
  ∀ k, k < j → ∀ slot ∈ s.level k, ∀ i, i ≤ m → ∀ slot' ∈ below s.branch L i, slot'.1 ≠ slot.1

theorem Store.branch_put_of_ne {p id : UInt32} (page : BtreePage) (h : id ≠ p) :
    (s.put p page).branch id = s.branch id := by
  rw [Store.branch, Store.branch, s.put_pages_of_ne page h]

theorem Store.branch_put_self (p : UInt32) (page : BtreePage) :
    (s.put p page).branch p = page.branch :=
  branch_eq (s.put_pages_self p page)

theorem Store.branch_congr {id : UInt32} (h : s'.pages id = s.pages id) :
    s'.branch id = s.branch id := by
  rw [Store.branch, Store.branch, h]

theorem below_eq_of_pages {n : ℕ} (h : ∀ i, i < n → ∀ slot ∈ below s.branch L i,
      s'.pages slot.1 = s.pages slot.1) : below s'.branch L n = below s.branch L n := by
  refine (below_congr ?_).symm
  intro i hi slot hslot
  exact (branch_congr (h i hi slot hslot)).symm

theorem Fan.transfer (h : Fan s L m) (hpages : ∀ i, i ≤ m → ∀ slot ∈ below s.branch L i,
      s'.pages slot.1 = s.pages slot.1) (howned : ∀ id, s.Owned id → s'.Owned id) : Fan s' L m := by
  have hbelow : ∀ i, i ≤ m → below s'.branch L i = below s.branch L i := by
    intro i hi
    exact below_eq_of_pages fun k hk => hpages k (by omega)
  refine ⟨?_, ?_, ?_, ?_, ?_⟩
  · intro i hi slot hslot
    rw [hbelow i hi.le] at hslot
    obtain ⟨q, hq, hinternal⟩ := h.internal i hi slot hslot
    exact ⟨q, by rw [hpages i hi.le slot hslot, hq], hinternal⟩
  · intro slot hslot
    rw [hbelow m le_rfl] at hslot
    obtain ⟨q, hq, hleaf⟩ := h.bottom slot hslot
    exact ⟨q, by rw [hpages m le_rfl slot hslot, hq], hleaf⟩
  · rw [hbelow m le_rfl]
    exact h.ascending
  · rw [hbelow m le_rfl]
    exact h.nodup
  · intro i hi slot hslot
    rw [hbelow i hi] at hslot
    exact howned _ (h.owned i hi slot hslot)

theorem Upper.transfer (h : Upper s j L)
    (hpages : ∀ k, k < j → ∀ slot ∈ s.level k, s'.pages slot.1 = s.pages slot.1)
    (howned : ∀ id, s.Owned id → s'.Owned id) : Upper s' j L := by
  have hlevel : ∀ i, i ≤ j → s'.level i = s.level i := by
    intro i hi
    exact below_eq_of_pages fun k hk => hpages k (by omega)
  refine ⟨(hlevel j le_rfl).trans h.level, ?_, ?_⟩
  · intro i hi slot hslot
    rw [hlevel i hi.le] at hslot
    obtain ⟨q, hq, hinternal⟩ := h.internal i hi slot hslot
    exact ⟨q, by rw [hpages i hi slot hslot, hq], hinternal⟩
  · intro i hi slot hslot
    rw [hlevel i hi.le] at hslot
    exact howned _ (h.owned i hi slot hslot)

namespace Upper

variable {A₁ B₁ : Slots} {p : UInt32} {sep : WithTop Bytes}

theorem level_put_of_le (hspine : Spine s (j + 1 + m))
    (hlevel : s.level j = A₁ ++ (p, hp) :: B₁) (page : BtreePage) {i : ℕ}
    (hi : i ≤ j) : (s.put p page).level i = s.level i := by
  refine (below_congr ?_).symm
  intro k hk slot hslot
  refine (branch_put_of_ne page ?_).symm
  intro heq
  refine hspine.not_mem_ids_of_lt (Nat.lt_of_lt_of_le hk hi) (by omega)
    (mem_map.mpr ⟨slot, hslot, heq⟩) ?_
  have hmem : (p, hp) ∈ s.level j := hlevel ▸ mem_append_cons_self
  exact mem_map.mpr ⟨(p, hp), hmem, rfl⟩

/-- Writing the parent with the new entry turns level `j + 1` from the old
list into the new one. -/
theorem publish (h : Upper s (j + 1) (A ++ (n, hi) :: B))
    (hfan : Fan s (A ++ (n, sep) :: (r, hi) :: B) m) (hparent : ParentOf s j n hi p hp A₁ B₁ C D)
    (hinternal : InternalPage page) (hslots : page.branch.slots hp = C ++ (n, sep) :: (r, hi) :: D)
    (hcount : 0 < j → 6 ≤ page.pairs.length) :
    Upper (s.put p page) (j + 1) (A ++ (n, sep) :: (r, hi) :: B) := by
  have hspine : Spine s (j + 1 + m) := h.spine hfan.merge
  have hsame : ∀ {i}, i ≤ j → (s.put p page).level i = s.level i :=
    fun hi => level_put_of_le hspine hparent.level page hi
  have hbelow := hfan.merge.nodup_below (Nat.zero_le m)
  have hnodup : ((s.level j).map Prod.fst).Nodup := by
    rw [below, ← h.level] at hbelow
    exact nodup_of_nodup_expand hbelow
  have hother : ∀ slot ∈ A₁ ++ B₁, (s.put p page).branch slot.1 = s.branch slot.1 := by
    intro slot hslot
    refine branch_put_of_ne page ?_
    intro heq
    rw [hparent.level, map_append, map_cons, nodup_middle, nodup_cons] at hnodup
    refine hnodup.1 ?_
    rw [← heq, ← map_append]
    exact mem_map.mpr ⟨slot, hslot, rfl⟩
  have hcut := hparent.around h hbelow
  refine ⟨?_, ?_, ?_⟩
  · show expand (s.put p page).branch ((s.put p page).level j) = _
    rw [hsame le_rfl, hparent.level, expand_replace hother,
      branch_put_self, hslots, ← hcut.1, ← hcut.2]
    simp
  · intro i hi slot hslot
    rw [hsame (by omega)] at hslot
    by_cases heq : slot.1 = p
    · refine ⟨page, by rw [heq, put_pages_self], hinternal, ?_⟩
      intro hpos
      refine hcount ?_
      omega
    · obtain ⟨q, hq, hqi, hqc⟩ := h.internal i hi slot hslot
      exact ⟨q, by rw [s.put_pages_of_ne page heq, hq], hqi, hqc⟩
  · intro i hi slot hslot
    rw [hsame (by omega)] at hslot
    obtain ⟨hnonzero, hlt, hfree⟩ := h.owned i hi slot hslot
    exact ⟨hnonzero, hlt, hfree⟩

end Upper

/-! ## `insert_separator` after a cut -/

/-- The free space of the page on level `j` above `n` satisfies `P`. -/
def Above (s : Store) (j : ℕ) (n : UInt32) (P : ℕ → Prop) : Prop :=
  ∀ slot ∈ s.level j, n ∈ ((s.branch slot.1).slots slot.2).map Prod.fst →
    ∀ page, s.pages slot.1 = some page → P page.freeSpace

theorem Above.mono {P Q : ℕ → Prop} (h : Above s j n P) (hPQ : ∀ ρ, P ρ → Q ρ) : Above s j n Q :=
  fun slot hslot hchild page hpage => hPQ _ (h slot hslot hchild page hpage)

theorem ParentOf.above {p : UInt32}
    {A₁ B₁ : Slots} (h : ParentOf s j n hi p hp A₁ B₁ C D) {P : ℕ → Prop}
    (habove : Above s j n P) (hpage : s.pages p = some page) : P page.freeSpace := by
  refine habove (p, hp) h.mem ?_ page hpage
  rw [h.slots]
  simp

theorem Upper.not_above_false (h : Upper s (j + 1) L) {slot : TreeSlot}
    (hslot : slot ∈ L) : ¬ Above s j slot.1 fun _ => False := by
  intro habove
  rw [← h.level] at hslot
  obtain ⟨up, hup, hchild⟩ := mem_flatMap.mp hslot
  obtain ⟨page, hpage, -⟩ := h.internal j (Nat.lt_succ_self j) up hup
  exact habove up hup (mem_map.mpr ⟨slot, hchild, rfl⟩) page hpage

/-- The page above `r` is the one that was above `n`, with `c` bytes less. -/
def RoomTaken (s s' : Store) (j : ℕ) (n r : UInt32) (c : ℕ) : Prop :=
  ∀ P : ℕ → Prop, Above s j n (fun ρ => c ≤ ρ → P (ρ - c)) → Above s' j r P

/-- A node `n` on level `j` has been cut, and its right half `r` is complete
but not yet reachable. -/
structure Cut (s : Store) (j m : ℕ) (A B : List (UInt32 × WithTop Bytes))
    (n r : UInt32) (sep : Bytes) (hi : WithTop Bytes) : Prop where
  alloc : AllocOk s
  upper : Upper s j (A ++ (n, hi) :: B)
  fan : Fan s (A ++ (n, ↑sep) :: (r, hi) :: B) m
  apart : Apart s j (A ++ (n, ↑sep) :: (r, hi) :: B) m
  sepLegal : sep.length ≤ maxKeySize

/-- What reworking the `j` levels at the top of a tree into `j'` levels may
do: it rewrites pages of those levels and takes pages nobody owned. -/
structure Reshaped (s s' : Store) (j j' : ℕ) : Prop where
  alloc : AllocOk s'
  owned : ∀ id, s.Owned id → s'.Owned id
  pages : ∀ id, s.Owned id → (∀ k, k < j → ∀ slot ∈ s.level k, slot.1 ≠ id) →
    s'.pages id = s.pages id
  upper : ∀ k, k < j' → ∀ slot ∈ s'.level k, s.Owned slot.1 →
    ∃ i, i < j ∧ ∃ slot' ∈ s.level i, slot'.1 = slot.1

theorem Reshaped.trans {s'' : Store} {j' j'' : ℕ} (h : Reshaped s s' j j')
    (h' : Reshaped s' s'' j' j'') : Reshaped s s'' j j'' := by
  refine ⟨h'.alloc, fun id hid => h'.owned id (h.owned id hid), ?_, ?_⟩
  · intro id hid hnot
    rw [h'.pages id (h.owned id hid) ?_, h.pages id hid hnot]
    intro k hk slot hslot heq
    obtain ⟨i, hi, slot', hslot', hid'⟩ := h.upper k hk slot hslot (heq ▸ hid)
    exact hnot i hi slot' hslot' (hid'.trans heq)
  · intro k hk slot hslot hown
    obtain ⟨i, hi, slot', hslot', hid'⟩ := h'.upper k hk slot hslot (h.owned _ hown)
    rw [← hid'] at hown ⊢
    exact h.upper i hi slot' hslot' hown

namespace Cut

variable {sep : Bytes}

section

variable (h : Cut s (j + 1) m A B n r sep hi)
include h

theorem depth : j + 1 + m < btreeMaxDepth :=
  (h.upper.height_lt h.alloc h.fan.merge (Nat.succ_pos j)).trans (by decide)

/-- The facts `exists_publish` needs about the page above the cut node. -/
theorem parent_facts {p : UInt32} {A₁ B₁ : Slots} (hparent : ParentOf s j n hi p hp A₁ B₁ C D) :
    ∃ page, s.pages p = some page ∧ InternalPage page ∧ (0 < j → 6 ≤ page.pairs.length) ∧
      page.branch.slots hp = C ++ (n, hi) :: D ∧ ((C ++ (n, hi) :: D).map Prod.fst).Nodup ∧
      Ascending (C ++ (n, ↑sep) :: (r, hi) :: D) := by
  obtain ⟨page, hpage, hinternal, hcount⟩ :=
    h.upper.internal j (Nat.lt_succ_self j) (p, hp) hparent.mem
  have hslots : page.branch.slots hp = C ++ (n, hi) :: D := by rw [← hparent.slots, branch_eq hpage]
  have hnodup := h.fan.merge.nodup_below (Nat.zero_le m)
  have hasc := ascending_below (Nat.zero_le m) h.fan.ascending
  obtain ⟨rfl, rfl⟩ := hparent.around h.upper hnodup
  have hsub : ∀ l : Slots, C ++ (l ++ D) <+
      expand s.branch A₁ ++ C ++ (l ++ (D ++ expand s.branch B₁)) := by
    intro l
    rw [append_assoc]
    refine .trans ?_ (sublist_append_right _ _)
    exact ((sublist_append_left D _).append_left l).append_left C
  exact ⟨page, hpage, hinternal, hcount, hslots, hnodup.sublist ((hsub [(n, hi)]).map _),
    List.Pairwise.sublist (hsub [(n, ↑sep), (r, hi)]) hasc⟩

theorem not_mem_children {slot : TreeSlot} (hslot : slot ∈ s.level j) :
    r ∉ ((s.branch slot.1).slots slot.2).map Prod.fst := by
  intro hchild
  obtain ⟨t, ht, hid⟩ := mem_map.mp hchild
  have hmem : t ∈ A ++ (n, hi) :: B := by
    rw [← h.upper.level]
    exact mem_flatMap.mpr ⟨slot, hslot, ht⟩
  have hnodup := h.fan.nodup_below (Nat.zero_le m)
  rw [below, show A ++ (n, ↑sep) :: (r, hi) :: B = (A ++ [(n, ↑sep)]) ++ (r, hi) :: B by simp,
    map_append, map_cons, nodup_middle, nodup_cons] at hnodup
  refine hnodup.1 ?_
  rcases mem_append.mp hmem with hA | hB
  · simp [← hid, mem_map_of_mem hA]
  · rcases mem_cons.mp hB with rfl | hB
    · simp [← hid]
    · simp [← hid, mem_map_of_mem hB]

theorem roomTaken {p : UInt32} {A₁ B₁ : Slots}
    (hparent : ParentOf s j n hi p hp A₁ B₁ C D) {page' : BtreePage} (hpage : s.pages p = some page)
    (hspace : page'.freeSpace + (kvPairSize + sep.length) = page.freeSpace) :
    RoomTaken s (s.put p page') j n r (kvPairSize + sep.length) := by
  intro P habove slot hslot hchild q hq
  rw [Upper.level_put_of_le (h.upper.spine h.fan.merge) hparent.level _ le_rfl] at hslot
  by_cases heq : slot.1 = p
  · rw [heq, put_pages_self] at hq
    cases hq
    have hP := hparent.above habove hpage (by omega)
    rwa [← hspace, Nat.add_sub_cancel] at hP
  · rw [branch_put_of_ne page' heq] at hchild
    exact absurd hchild (h.not_mem_children hslot)

/-- `insert_separator` after a cut: it fails on a page load before changing
anything, publishes in a parent with room, or splits a full parent first. -/
theorem always_insertSeparator {F : Faults} {T : StoreRel} [StoreLike F T]
    (depth : ℕ) {Q : ℤ → Store → Prop} (hfail : F.pages = true → Q (-1) s)
    (hdone : ∀ s', s'.exhausted = s.exhausted → s'.idsLeft = s.idsLeft →
      Upper s' (j + 1) (A ++ (n, ↑sep) :: (r, hi) :: B) → Reshaped s s' (j + 1) (j + 1) →
      RoomTaken s s' j n r (kvPairSize + sep.length) → Q 0 s')
    (hfull : ∀ p hp A₁ B₁ C D page, ParentOf s j n hi p hp A₁ B₁ C D →
      s.pages p = some page → page.freeSpace < kvPairSize + sep.length → Always T (do
        let rc ← btreeSplitNode p depth
        if rc ≠ 0 then pure (-1) else insertSeparator n sep r depth) s Q) :
    Always T (insertSeparator n sep r (depth + 1)) s Q := by
  refine (h.upper.always_findParent h.fan h.depth).bind ?_
  rintro parent s' ⟨rfl, ⟨rfl, hF⟩ | ⟨p, hp, A₁, B₁, C, D, rfl, hparent⟩⟩
  · exact always_pure.mpr (hfail hF)
  obtain ⟨page, hpage, hinternal, hcount, hslots, hnodup, hasc⟩ := h.parent_facts hparent
  refine always_bind.mpr (always_getPage_of_pages hpage ?_ ?_)
  · intro hF
    exact always_pure.mpr (hfail hF)
  by_cases hroom : kvPairSize + sep.length ≤ page.freeSpace
  · obtain ⟨oldPos, page', page'', hfind, hreach, hinsert, hrepoint, hpost⟩ :=
      exists_publish hinternal r hslots hnodup hasc h.sepLegal hroom
    simp only [hfind, if_neg hreach, hinsert, hrepoint]
    refine always_bind.mpr (always_updatePage ?_)
    intro lsn checksum
    refine always_bind.mpr (always_releasePage ?_)
    obtain ⟨hinternal', hslots', hcount', hspace⟩ := hpost lsn checksum
    refine always_pure.mpr (hdone _ rfl rfl ?_ ?_ ?_)
    · refine h.upper.publish h.fan hparent hinternal' hslots' ?_
      intro hpos
      rw [hcount']
      exact (hcount hpos).trans (Nat.le_succ _)
    · refine ⟨h.alloc.put _ _, ?_, ?_, ?_⟩
      · rintro id ⟨hnonzero, hlt, hfree⟩
        exact ⟨hnonzero, hlt, hfree⟩
      · intro id _ hid
        exact s'.put_pages_of_ne _ (hid j (Nat.lt_succ_self j) (p, hp) hparent.mem).symm
      · intro k hk slot hslot _
        rw [Upper.level_put_of_le (h.upper.spine h.fan.merge) hparent.level _
          (Nat.lt_succ_iff.mp hk)] at hslot
        exact ⟨k, hk, slot, hslot, rfl⟩
    · exact h.roomTaken hparent hpage hspace
  · obtain ⟨oldPos, hfind, hreach⟩ := exists_findChild hinternal hslots hnodup
    have hnone := @insertKvPair_eq_none ⟨sep, [], n⟩ page
      (oldPos.getD page.keyCount) (by simpa [KvPair.size] using hroom)
    simp only [hfind, if_neg hreach, hnone]
    refine always_bind.mpr (always_releasePage ?_)
    exact hfull p hp A₁ B₁ C D page hparent hpage (not_le.mp hroom)

end

end Cut

/-! ## Carving a node -/

/-- Why an operation that takes up to `c` fresh pages may fail: a page was not
loaded, or an id was refused although `c` were asked for at most. -/
def Starved (F : Faults) (s s' : Store) (c : ℕ) : Prop :=
  F.pages = true ∨ s'.exhausted = true ∧ (F.ids = true ∨ s.idsLeft < c)

theorem Starved.mono {F : Faults} {t : Store} {b c : ℕ} (h : Starved F t s' b)
    (hle : s.idsLeft + b ≤ t.idsLeft + c) : Starved F s s' c := by
  rcases h with hF | ⟨hex, hF | hlt⟩
  · exact .inl hF
  · exact .inr ⟨hex, .inl hF⟩
  · exact .inr ⟨hex, .inr (by omega)⟩

theorem Starved.lt {c : ℕ} (h : Starved Faults.none s s' c) : s.idsLeft < c := by
  rcases h with hF | ⟨-, hF | hlt⟩
  · exact absurd hF (by decide)
  · exact absurd hF (by decide)
  · exact hlt

/-- Every owned page is as it was. -/
structure Untouched (s s' : Store) : Prop where
  alloc : AllocOk s'
  owned : ∀ id, s.Owned id → s'.Owned id
  pages : ∀ id, s.Owned id → s'.pages id = s.pages id

/-- The page `r`, which nobody owned, has been handed out. -/
structure Claimed (s s' : Store) (r : UInt32) : Prop extends Untouched s s' where
  fresh : ¬ s.Owned r
  taken : s'.Owned r
  exhausted : s'.exhausted = s.exhausted
  spent : s.idsLeft = s'.idsLeft + 1

/-- The owned page `n` has been rewritten, and a fresh page `r` with it. -/
structure Forked (s s' : Store) (n r : UInt32) (left right : BtreePage) : Prop where
  alloc : AllocOk s'
  owned : ∀ id, s.Owned id → s'.Owned id
  fresh : ¬ s.Owned r
  taken : s'.Owned r
  exhausted : s'.exhausted = s.exhausted
  spent : s.idsLeft = s'.idsLeft + 1
  left : s'.pages n = some left
  right : s'.pages r = some right
  others : ∀ id, s.Owned id → id ≠ n → s'.pages id = s.pages id

section Carving

variable {s₁ : Store} {F : Faults} {T : StoreRel} [StoreLike F T]

theorem Claimed.ne (h : Claimed s s₁ r) {id : UInt32} (hid : s.Owned id) : id ≠ r := by
  rintro rfl
  exact h.fresh hid

/-- After a page was claimed, only it and `n` are written. -/
theorem Claimed.forked (h : Claimed s s₁ r)
    {pages : UInt32 → Option BtreePage} {left right : BtreePage}
    (hleft : pages n = some left) (hright : pages r = some right)
    (hothers : ∀ id, id ≠ n → id ≠ r → pages id = s₁.pages id) :
    Forked s { s₁ with pages := pages } n r left right := by
  have hown : ∀ id, s₁.Owned id → ({ s₁ with pages := pages } : Store).Owned id :=
    fun id hid => ⟨hid.nonzero, hid.lt, hid.notFree⟩
  refine ⟨⟨h.alloc.nodup, h.alloc.free, h.alloc.pos, h.alloc.le⟩,
    fun id hid => hown id (h.owned id hid), h.fresh, hown r h.taken,
    h.exhausted, h.spent, hleft, hright, ?_⟩
  intro id hid hne
  rw [← h.pages id hid]
  exact hothers id hne (h.ne hid)

/-- Allocation hands out a page outside everything owned, or fails. -/
theorem always_allocatePage_of_ok (hs : AllocOk s) {Q : UInt32 → Store → Prop}
    (hzero : ∀ s', Untouched s s' → Starved F s s' 1 → Q 0 s')
    (hnew : ∀ id s', Claimed s s' id → Q id s') : Always T allocatePage s Q := by
  obtain ⟨hok, hpages, howned, hcases⟩ := hs.allocate
  have hsame : Untouched s s.allocate.2 := ⟨hok, howned, fun id _ => by rw [hpages]⟩
  refine always_allocatePage ?_ ?_
  · intro hF
    exact hzero _ ⟨⟨hs.nodup, hs.free, hs.pos, hs.le⟩,
      fun id h => ⟨h.nonzero, h.lt, h.notFree⟩, fun _ _ => rfl⟩ (.inr ⟨rfl, .inl hF⟩)
  · rcases hcases with ⟨hid, hex, hnone⟩ | ⟨hfresh, hown, hex, hspent⟩
    · rw [hid]
      exact hzero _ hsame (.inr ⟨hex, .inr (by rw [hnone]; exact Nat.one_pos)⟩)
    · exact hnew _ _ ⟨hsame, hfresh, hown, hex, hspent⟩

/-- How `grow_root` and `btree_split_node` start: they claim a page and load it
together with the page `n`, or fail leaving every owned page as it was. -/
theorem always_claimPage (hs : AllocOk s) (hpage : s.pages n = some page)
    (hn : s.Owned n) {α : Type} {k : UInt32 → BtreePage → BtreePage → PagerM (Option α)}
    {Q : Option α → Store → Prop} (hfail : ∀ s', Untouched s s' → Starved F s s' 1 → Q none s')
    (hdone : ∀ r s₁ loaded, Claimed s s₁ r → Always T (k r page loaded) (s₁.put r loaded) Q) :
    Always T (do
      let r ← allocatePage
      if r = 0 then pure none
      else
        match ← getPage n .exclusive with
        | none => pure none
        | some page =>
          match ← getPage r .exclusive with
          | none => do
            releasePage n .exclusive
            pure none
          | some loaded => k r page loaded) s Q := by
  refine always_bind.mpr (always_allocatePage_of_ok hs ?_ ?_)
  · intro s₁ hsame hstarved
    exact always_pure.mpr (hfail s₁ hsame hstarved)
  · intro r s₁ hclaim
    rw [if_neg hclaim.taken.nonzero]
    have hpage₁ : s₁.pages n = some page := by rw [hclaim.pages n hn, hpage]
    refine always_bind.mpr (always_getPage_of_pages hpage₁ ?_ ?_)
    · intro hF
      exact always_pure.mpr (hfail s₁ hclaim.toUntouched (.inl hF))
    · refine always_bind.mpr (always_getPage (.inr hclaim.taken) ?_ ?_)
      · intro hF
        refine always_bind.mpr (always_releasePage ?_)
        exact always_pure.mpr (hfail s₁ hclaim.toUntouched (.inl hF))
      · intro loaded _
        exact hdone r s₁ loaded hclaim

/-- The middle of `btree_split_node` on a page that can be cut: it allocates a
fresh page and carves, or fails leaving every owned page as it was. -/
theorem always_splitOff (hs : AllocOk s) (hpage : s.pages n = some page) (hn : s.Owned n)
    (hcut : ∀ id, ∃ left right sep,
      btreeSplitPage page emptyRight id maxKeySize = some (left, right, sep))
    {Q : Option (UInt32 × Bytes) → Store → Prop}
    (hfail : ∀ s', Untouched s s' → Starved F s s' 1 → Q none s')
    (hdone : ∀ r s' left right sep lsn₁ sum₁ lsn₂ sum₂,
      btreeSplitPage page emptyRight r maxKeySize = some (left, right, sep) →
      Forked s s' n r (left.stamp lsn₁ sum₁) (right.stamp lsn₂ sum₂) → Q (some (r, sep)) s') :
    Always T (splitOff n) s Q := by
  refine always_claimPage hs hpage hn hfail ?_
  intro r s₁ loaded hclaim
  obtain ⟨left, right, sep, hsplit⟩ := hcut r
  have hne := hclaim.ne hn
  simp only [hsplit]
  refine always_bind.mpr (always_updatePage ?_)
  intro lsn₁ sum₁
  refine always_bind.mpr (always_updatePage ?_)
  intro lsn₂ sum₂
  refine always_bind.mpr (always_releasePage ?_)
  refine always_bind.mpr (always_releasePage ?_)
  refine always_pure.mpr (hdone r _ left right sep lsn₁ sum₁ lsn₂ sum₂
    hsplit (hclaim.forked ?_ (put_pages_self _ _ _) ?_))
  · exact (put_pages_of_ne _ _ hne).trans (put_pages_self _ _ _)
  · intro id hidn hidr
    exact (put_pages_of_ne _ _ hidr).trans
      ((put_pages_of_ne _ _ hidn).trans (put_pages_of_ne _ _ hidr))

end Carving

/-! ## Growing the root -/

/-- The root page `grow_root` leaves behind: no entries and one child. -/
def emptiedRoot (root : BtreePage) (left : UInt32) : BtreePage :=
  { header :=
      { root.header with
        pageType := pageTypeInternal
        keyCount := 0
        freeSpace := UInt16.ofNat btreePageCapacity
        nextPageId := left
        prevPageId := 0 }
    data := Block.zero btreePageCapacity }

theorem holds_emptiedRoot (root : BtreePage) (left : UInt32) : Holds (emptiedRoot root left) [] :=
  ⟨by simp, ⟨_, rfl⟩, rfl, rfl⟩

/-- The page the old root's contents move to. -/
def movedRoot (root : BtreePage) (left : UInt32) : BtreePage :=
  { root with header := { root.header with pageId := left } }

theorem Holds.movedRoot {root : BtreePage} {ps : List KvPair}
    (h : Holds root ps) (left : UInt32) : Holds (movedRoot root left) ps :=
  ⟨h.fits, h.data, h.keyCount, h.freeSpace⟩

/-- `grow_root` moves the root's image to a fresh page and leaves an empty
internal root above it, or fails leaving every owned page as it was. -/
theorem always_growRoot (hs : AllocOk s) {F : Faults} {T : StoreRel}
    [StoreLike F T] {root : BtreePage} (hroot : s.pages rootPageId = some root)
    (hown : s.Owned rootPageId) {Q : Option UInt32 → Store → Prop}
    (hfail : ∀ s', Untouched s s' → Starved F s s' 1 → Q none s')
    (hdone : ∀ left s' lsn₁ sum₁ lsn₂ sum₂,
      Forked s s' rootPageId left ((emptiedRoot root left).stamp lsn₂ sum₂)
        ((movedRoot root left).stamp lsn₁ sum₁) → Q (some left) s') : Always T growRoot s Q := by
  refine always_claimPage hs hroot hown hfail ?_
  intro left s₁ loaded hclaim
  have hne := (hclaim.ne hown).symm
  refine always_bind.mpr (always_updatePage ?_)
  intro lsn₁ sum₁
  refine always_bind.mpr (always_updatePage ?_)
  intro lsn₂ sum₂
  refine always_bind.mpr (always_releasePage ?_)
  refine always_bind.mpr (always_releasePage ?_)
  refine always_pure.mpr (hdone left _ lsn₁ sum₁ lsn₂ sum₂
    (hclaim.forked (Function.update_self _ _ _) ?_ ?_))
  · exact (put_pages_of_ne _ _ hne).trans (Function.update_self _ _ _)
  · intro id hidroot hidleft
    exact (put_pages_of_ne _ _ hidroot).trans ((put_pages_of_ne _ _ hidleft).trans
        (put_pages_of_ne _ _ hidleft))

end Codo.Storage
