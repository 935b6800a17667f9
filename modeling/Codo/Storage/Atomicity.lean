import Codo.Storage.DbRun

/-!
# Failing inserts

`db_insert` carves a full leaf before it publishes the new separator, and
publishing needs page loads and sometimes further pages.  When one of those
fails, the pairs on the right of the cut are on a page no separator leads to.

An insert that cannot come to a split is failure-atomic, and so is one that
finds too few page ids to carve anything.  Every other insert loses pairs for
some choice of failures.
-/

namespace Codo.Storage

open Support Support.Levels Program List Option Store

theorem pageStep_of_none {F : Faults} (c : PagerCmd) (s : Store)
    (reply : c.Reply) (s' : Store) (h : pageStep Faults.none c s reply s') :
    pageStep F c s reply s' := by
  cases c with
  | getPage id lock =>
    rcases h with ⟨hF, -⟩ | hload
    · exact absurd hF (by decide)
    · exact .inr hload
  | allocatePage =>
    rcases h with ⟨hF, -⟩ | hserve
    · exact absurd hF (by decide)
    · exact .inr hserve
  | releasePage id lock => exact h
  | updatePage id page => exact h
  | scribblePage id page => exact h
  | deallocatePage id => exact h
  | writeWalRecord txnId type pageId data => exact h

theorem exists_outcome_of_always {α : Type} (F : Faults) {p : PagerM α}
    {s : Store} {Q : α → Store → Prop} (h : Always (pageStep Faults.none) p s Q) :
    ∃ a s', Outcome (pageStep F) p s a s' ∧ Q a s' :=
  h.exists_outcome (exists_pageStep Faults.none) pageStep_of_none

/-! ## The state before the insert -/

/-- The leaf a descent to `key` ends at, from page `id` on. -/
def Store.leafFrom (s : Store) (key : Bytes) : ℕ → UInt32 → Option BtreePage
  | 0, _ => none
  | n + 1, id =>
    match s.pages id with
    | none => none
    | some page =>
      if page.header.pageType = pageTypeInternal then
        s.leafFrom key n (childFor page key)
      else some page

/-- The leaf `key` belongs on. -/
def Store.targetLeaf (s : Store) (key : Bytes) : Option BtreePage :=
  s.leafFrom key btreeMaxDepth rootPageId

/-- The fresh pages it takes to carve a leaf: one, and one more to grow the
root when the root is the leaf. -/
def Store.idsToCarve (s : Store) : ℕ :=
  match s.pages rootPageId with
  | some root => if root.header.pageType = pageTypeInternal then 1 else 2
  | none => 2

/-- The insert is refused before it touches a page, or the pair fits on its
leaf, or there are too few ids to carve the leaf. -/
def InsertSafe (s : Store) (key value : Bytes) : Prop :=
  ¬ LegalSizes key value ∨ (∃ v, Finds s key v) ∨ (∀ page, s.targetLeaf key = some page →
      kvPairSize + key.length + value.length ≤ page.freeSpace) ∨ s.idsLeft < s.idsToCarve

variable {slot : TreeSlot} {key : Bytes}

theorem Spine.leafFrom_eq {s : Store} {h : ℕ} (hs : Spine s h) {leaf : TreeSlot} {page : BtreePage}
    (hleaf : routeAt (s.level h) key = some leaf) (hpage : s.pages leaf.1 = some page) {i n : ℕ}
    (hi : i ≤ h) (hn : h - i < n) (hroute : routeAt (s.level i) key = some slot) :
    s.leafFrom key n slot.1 = some page := by
  refine hs.route_induction ?_ ?_ hi hn hroute
  · intro n slot page' hroute hpage' hne
    obtain rfl := some.inj (hleaf.symm.trans hroute)
    obtain rfl := some.inj (hpage.symm.trans hpage')
    simp only [Store.leafFrom, hpage, if_neg hne]
  · intro i n slot parent next _ _ hparent hinternal _ hchild ih
    simp only [Store.leafFrom, hparent, if_pos hinternal.type]
    rw [← hchild]
    exact ih

variable {s : Store} {h : ℕ} {L : Slots} {F : Faults}

namespace Tree

theorem targetLeaf_eq (ht : Tree s h L) (hroute : routeAt L key = some slot)
    {page : BtreePage} (hpage : s.pages slot.1 = some page) : s.targetLeaf key = some page := by
  have hdepth : h < btreeMaxDepth := ht.height_lt.trans (by decide)
  rw [← ht.upper.level] at hroute
  exact ht.spine.leafFrom_eq hroute hpage h.zero_le hdepth (s.routeAt_root key)

theorem idsToCarve_eq (ht : Tree s h L) : s.idsToCarve = carveNeed h := by
  have hroot := mem_of_routeAt (s.routeAt_root [])
  rw [Store.idsToCarve, carveNeed]
  rcases Nat.eq_zero_or_pos h with rfl | hpos
  · obtain ⟨page, hpage, htype⟩ := ht.spine.bottom _ hroot
    have hne : page.header.pageType ≠ pageTypeInternal := by
      rw [htype]
      decide
    simp [hpage, hne]
  · obtain ⟨page, hpage, hinternal⟩ := ht.spine.internal 0 hpos _ hroot
    simp [hpage, hinternal.type, Nat.pos_iff_ne_zero.mp hpos]

/-! ## Inserts that are safe -/

/-- An insert that does not come to a split either succeeds or changes
nothing. -/
theorem always_dbInsert_unsplit (ht : Tree s h L) (txnId : UInt64) {value : Bytes}
    (hsafe : ¬ LegalSizes key value ∨ (∃ v, Finds s key v) ∨ ∀ page, s.targetLeaf key = some page →
        kvPairSize + key.length + value.length ≤ page.freeSpace) :
    Always (pageStep F) (dbInsert (activeHandle txnId) key value) s
      fun rc s' => rc = 0 ∨ s' = s := by
  rw [dbInsert, show activeTxn (activeHandle txnId) = some ⟨txnId, .active⟩ from rfl]
  by_cases hlegal : LegalSizes key value
  · simp only [if_neg (not_illegalSizes hlegal)]
    refine ht.always_dbInsertLoop_step hlegal ?_ ?_ ?_ ?_
    · intro _
      exact .inr rfl
    · intro _
      exact .inr rfl
    · intro slot s' xs ys _ _ _
      exact .inl rfl
    · intro slot page hroute hpage _ hfree hnone
      rcases hsafe with hillegal | ⟨v, hv⟩ | hroom
      · exact absurd hlegal hillegal
      · rw [ht.finds_iff, hnone] at hv
        cases hv
      · have hfits := hroom page (ht.targetLeaf_eq hroute hpage)
        exact absurd hfree (not_lt.mpr hfits)
  · simp only [if_pos (illegalSizes hlegal)]
    exact always_pure.mpr (.inr rfl)

/-- A safe insert succeeds or keeps what the tree stores. -/
theorem always_dbInsert_safe (ht : Tree s h L) (txnId : UInt64)
    {value : Bytes} (hsafe : InsertSafe s key value) :
    Always (pageStep F) (dbInsert (activeHandle txnId) key value) s
      fun rc s' => rc = 0 ∨ ∃ h' L', Tree s' h' L' ∧ Kept s L s' L' := by
  have hunsplit : (¬ LegalSizes key value ∨ (∃ v, Finds s key v) ∨
      ∀ page, s.targetLeaf key = some page →
        kvPairSize + key.length + value.length ≤ page.freeSpace) →
      Always (pageStep F) (dbInsert (activeHandle txnId) key value) s
        fun rc s' => rc = 0 ∨ ∃ h' L', Tree s' h' L' ∧ Kept s L s' L' := by
    intro hcase
    refine (ht.always_dbInsert_unsplit txnId hcase).mono ?_
    rintro rc s' (rfl | rfl)
    · exact .inl rfl
    · exact .inr ⟨h, L, ht, Kept.refl _ L⟩
  by_cases hlegal : LegalSizes key value
  · rcases hsafe with hillegal | hfound | hroom | hfew
    · exact absurd hlegal hillegal
    · exact hunsplit (.inr (.inl hfound))
    · exact hunsplit (.inr (.inr hroom))
    · rw [ht.idsToCarve_eq] at hfew
      refine (ht.always_dbInsert hlegal (isSome_activeHandle txnId)).mono ?_
      rintro rc s' (⟨rfl, -⟩ | ⟨-, rfl, -⟩ | ⟨-, -, h', L', ht', -, hneed | hkept⟩)
      · exact .inl rfl
      · exact .inr ⟨h, L, ht, Kept.refl _ L⟩
      · exact absurd hneed (not_le.mpr hfew)
      · exact .inr ⟨h', L', ht', hkept⟩
  · exact hunsplit (.inl hlegal)

end Tree

/-! ## Inserts that lose pairs -/

/-- The first page load of `insert_separator` may fail. -/
theorem outcome_insertSeparator_of_fault (hF : F.pages = true)
    (n : UInt32) (sep : Bytes) (r : UInt32) (depth : ℕ) (s : Store) :
    Outcome (pageStep F) (insertSeparator n sep r depth) s (-1) s := by
  cases depth with
  | zero =>
    rw [insertSeparator]
    exact ⟨rfl, rfl⟩
  | succ depth =>
    have hnone : Outcome (pageStep F) (findParent n sep) s none s := by
      rw [findParent, descendPath]
      refine outcome_bind.mpr ⟨none, s, ?_, rfl, rfl⟩
      rw [show btreeMaxDepth = 31 + 1 from rfl, descendPathFrom]
      refine outcome_bind.mpr ⟨none, s, ?_, rfl, rfl⟩
      exact outcome_issue.mpr (.inl ⟨hF, rfl, rfl⟩)
    rw [insertSeparator]
    exact outcome_bind.mpr ⟨none, s, hnone, rfl, rfl⟩

/-- `s'` is a tree that no longer finds something `s` stored. -/
def Loses (s : Store) (L : List (UInt32 × WithTop Bytes)) (s' : Store) : Prop :=
  ∃ h' L', Tree s' h' L' ∧ ∃ p ∈ s.pairsOf L, lookup (s'.pairsOf L') p.key = none

section Loss

variable {A B : Slots} {n : UInt32} {hi : WithTop Bytes} {page : BtreePage}

/-- The pairs on the right of a cut that was not published are lost. -/
theorem LeafCut.loses {s₁ : Store} {r : UInt32} {sep : Bytes} (hcut : LeafCut s s₁ h A B n r sep hi)
    (hsorted : SortedPairs (s.pairsOf (A ++ (n, hi) :: B)))
    (hrs : s₁.leafPairs r ≠ []) : Loses s (A ++ (n, hi) :: B) s₁ := by
  obtain ⟨p, rs, hright⟩ := exists_cons_of_ne_nil hrs
  have hwhole := hcut.pairs
  rw [pairsOf_append, pairsOf_cons, pairsOf_cons] at hwhole
  rw [← hwhole, SortedPairs, pairwise_append, pairwise_append, pairwise_append] at hsorted
  obtain ⟨-, ⟨-, ⟨-, -, hafter⟩, hleft⟩, hbefore⟩ := hsorted
  have hp : p ∈ s₁.leafPairs r := by simp [hright]
  refine ⟨h, _, hcut.tree, p, ?_, ?_⟩
  · rw [← hwhole]
    simp [hp]
  · rw [lookup_eq_none_iff]
    intro q hq hkey
    rw [pairsOf_append, pairsOf_cons, mem_append, mem_append] at hq
    rcases hq with hA | hn | hB
    · exact absurd hkey (hbefore q hA p (by simp [hp])).ne
    · exact absurd hkey (hleft q hn p (by simp [hp])).ne
    · exact absurd hkey (hafter p hp q hB).ne'

theorem Tree.exists_loss_splitOff (ht : Tree s h (A ++ (n, hi) :: B))
    (hpage : s.pages n = some page) (hfull : page.freeSpace < 1288)
    (hids : 1 ≤ s.idsLeft) (hF : F.pages = true) (depth : ℕ) :
    ∃ s', Outcome (pageStep F) (splitBelow n depth) s (-1) s' ∧ Loses s (A ++ (n, hi) :: B) s' := by
  have hcarve : Always (pageStep Faults.none) (splitOff n) s
      fun cut s₁ => ∃ r sep, cut = some (r, sep) ∧ Loses s (A ++ (n, hi) :: B) s₁ := by
    refine ht.always_splitOff_carve hpage hfull ?_ ?_
    · intro s' _ _ hstarved
      exact absurd hstarved.lt (not_lt.mpr hids)
    · intro r s₁ ls q rs _ hrs _ _ hcut _ hright _ _ _
      refine ⟨r, q.key, rfl, hcut.loses ht.sorted ?_⟩
      rw [hright]
      exact hrs
  obtain ⟨cut, s₁, hrun, r, sep, rfl, hloses⟩ := exists_outcome_of_always F hcarve
  refine ⟨s₁, outcome_bind.mpr ⟨_, s₁, hrun, ?_⟩, hloses⟩
  exact outcome_insertSeparator_of_fault hF n sep r depth s₁

/-- The split of a full leaf loses pairs for some choice of failures. -/
theorem Tree.exists_loss_btreeSplitNode (ht : Tree s h L) (hslot : slot ∈ L)
    (hpage : s.pages slot.1 = some page) (hfull : page.freeSpace < 1288)
    (hids : carveNeed h ≤ s.idsLeft) (hF : F.pages = true) :
    ∃ s', Outcome (pageStep F) (btreeSplitNode slot.1 btreeMaxDepth) s (-1) s' ∧ Loses s L s' := by
  obtain ⟨n, hi⟩ := slot
  cases h with
  | zero =>
    cases ht.eq_root hslot
    rw [carveNeed, if_pos rfl] at hids
    rw [show btreeMaxDepth = 31 + 1 from rfl, btreeSplitNode_root]
    have hgrow : Always (pageStep Faults.none) growRoot s
        fun moved s₁ => ∃ left page₁, moved = some left ∧
          Tree s₁ 1 [(left, ⊤)] ∧ s₁.pages left = some page₁ ∧
          page₁.freeSpace = page.freeSpace ∧ 1 ≤ s₁.idsLeft ∧
          s₁.pairsOf [(left, ⊤)] = s.pairsOf L := by
      refine ht.always_growRoot_leaf hpage ?_ ?_
      · intro s' _ _ hstarved
        exact absurd hstarved.lt (by omega)
      · intro left s₁ page₁ ht₁ hkept _ hspent hpage₁ hfree _
        exact ⟨left, page₁, rfl, ht₁, hpage₁, hfree, by omega, hkept.pairs⟩
    obtain ⟨moved, s₁, hrun, left, page₁, rfl, ht₁, hpage₁, hfree, hone,
      hpairs⟩ := exists_outcome_of_always F hgrow
    have ht₁' : Tree s₁ 1 ([] ++ (left, ⊤) :: []) := ht₁
    obtain ⟨s', hsplit, h', L', ht', p, hp, hlost⟩ :=
      ht₁'.exists_loss_splitOff hpage₁ (hfree ▸ hfull) hone hF 31
    refine ⟨s', outcome_bind.mpr ⟨_, s₁, hrun, hsplit⟩, h', L', ht', p, ?_, hlost⟩
    rw [← hpairs]
    exact hp
  | succ h =>
    rw [carveNeed, if_neg (Nat.succ_ne_zero h)] at hids
    rw [ht.btreeSplitNode_eq hslot]
    obtain ⟨A, B, rfl⟩ := append_of_mem hslot
    exact ht.exists_loss_splitOff hpage hfull hids hF 31

end Loss

theorem Tree.outcome_dbInsertLoop_of_full (ht : Tree s h L) {txnId : UInt64} {value : Bytes}
    (hroute : routeAt L key = some slot) {page : BtreePage} (hpage : s.pages slot.1 = some page)
    (hnone : lookup (s.pairsOf L) key = none)
    (hfull : page.freeSpace < kvPairSize + key.length + value.length)
    {s' : Store} (hsplit : Outcome (pageStep F)
      (btreeSplitNode slot.1 btreeMaxDepth) s (-1) s') (attempts : ℕ) :
    Outcome (pageStep F) (dbInsertLoop txnId key value (attempts + 1)) s (-1) s' := by
  obtain ⟨slot', page', hroute', hid, hpage', hleaf⟩ := ht.exists_route key
  rw [hroute] at hroute'
  cases hroute'
  rw [hpage] at hpage'
  cases hpage'
  have hdepth : h < btreeMaxDepth := ht.height_lt.trans (by decide)
  have hlast : ((List.range' 0 (h + 1)).map (s.routeId key)).getLast? = some slot.1 := by
    rw [List.range'_concat, map_append, List.getLast?_append]
    simp [hid]
  obtain ⟨path, s₁, hdescend, rfl, ⟨-, hfault⟩ | rfl⟩ :=
    exists_outcome_of_always F (ht.spine.always_descendPath key hdepth)
  · exact absurd hfault (by decide)
  have hget : Outcome (pageStep F) (getPage slot.1 .exclusive) s₁ (some page) s₁ := by
    refine outcome_issue.mpr (.inr ⟨page, rfl, .inl hpage, ?_⟩)
    rw [put_of_pages hpage]
  have hmatch : matchingEntry page (findKeyPosition page key) key = none := by
    rcases hleaf.matchingEntry_cases key with
      ⟨xs, p, ys, offset, hpairs, hkey, -, -, -⟩ | ⟨-, -, -, -, -, -, hmatch⟩
    · rw [ht.lookup_eq hroute hpage, lookup_eq_none_iff] at hnone
      exact absurd hkey (hnone p (by simp [hpairs]))
    · exact hmatch
  rw [dbInsertLoop]
  refine outcome_bind.mpr ⟨_, s₁, hdescend, ?_⟩
  simp only [hlast]
  refine outcome_bind.mpr ⟨_, s₁, hget, ?_⟩
  simp only [hmatch, isSome_none, Bool.false_eq_true, if_false, if_pos hfull]
  refine outcome_bind.mpr ⟨(), s₁, outcome_issue.mpr rfl, ?_⟩
  exact outcome_bind.mpr ⟨-1, s', hsplit, rfl, rfl⟩

/-- Necessity: an unsafe insert loses a pair for some choice of failures. -/
theorem Tree.exists_loss_dbInsert (ht : Tree s h L) (txnId : UInt64)
    {value : Bytes} (hrisky : ¬ InsertSafe s key value) (hF : F.pages = true) :
    ∃ s' k v, Outcome (pageStep F) (dbInsert (activeHandle txnId) key value) s (-1) s' ∧
      Finds s k v ∧ ¬ Finds s' k v := by
  rw [InsertSafe, not_or, not_or, not_or, not_not, not_lt, ht.idsToCarve_eq] at hrisky
  obtain ⟨hlegal, habsent, htight, hids⟩ := hrisky
  obtain ⟨slot, page, hroute, -, hpage, hleaf⟩ := ht.exists_route key
  have hfull : page.freeSpace < kvPairSize + key.length + value.length := by
    by_contra hfits
    apply htight
    intro page' hpage'
    rw [ht.targetLeaf_eq hroute hpage] at hpage'
    cases hpage'
    exact not_lt.mp hfits
  have hnone : lookup (s.pairsOf L) key = none := by
    by_contra hsome
    obtain ⟨v, hv⟩ := ne_none_iff_exists'.mp hsome
    exact habsent ⟨v, (ht.finds_iff key v).mpr hv⟩
  have hsize : page.freeSpace < 1288 := lt_of_lt_of_le hfull
    (KvPair.LeafLegal.size_le (p := ⟨key, value, 0⟩) hlegal)
  obtain ⟨s', hsplit, h', L', ht', p, hp, hlost⟩ :=
    ht.exists_loss_btreeSplitNode (mem_of_routeAt hroute) hpage hsize hids hF
  refine ⟨s', p.key, p.value, ?_, ?_, ?_⟩
  · rw [dbInsert, show activeTxn (activeHandle txnId) = some ⟨txnId, .active⟩ from rfl]
    simp only [if_neg (Tree.not_illegalSizes hlegal)]
    exact ht.outcome_dbInsertLoop_of_full hroute hpage hnone hfull hsplit 31
  · rw [ht.finds_iff]
    exact ht.sorted.lookup_eq_some hp
  · rw [ht'.finds_iff, hlost]
    exact some_ne_none _ ∘ Eq.symm

/-! ## Reachable states -/

theorem Tree.always_runOps_tree {rounds : ℕ} (hrounds : 9 ≤ rounds) (ops : List DbOp) :
    ∀ {s : Store} {h : ℕ} {L : Slots}, Tree s h L → Always (pageStep F) (runOps rounds ops) s
        fun _ s' => ∃ h' L', Tree s' h' L' := by
  induction ops with
  | nil =>
    intro s h L ht
    exact always_pure.mpr ⟨h, L, ht⟩
  | cons op ops ih =>
    intro s h L ht
    rw [runOps]
    refine (ht.always_program hrounds op).bind ?_
    intro reply s₁ hend
    obtain ⟨h₁, L₁, ht₁⟩ : ∃ h₁ L₁, Tree s₁ h₁ L₁ := by
      rcases hend with ⟨-, -, -, h₁, L₁, ht₁, -⟩ | ⟨-, -, h₁, L₁, ht₁, -⟩ <;> exact ⟨h₁, L₁, ht₁⟩
    refine (ih ht₁).bind ?_
    intro replies s' hreached
    exact always_pure.mpr hreached

/-- In every state a run can reach, with any failures, an insert is
failure-atomic for all failures it may meet exactly when it is safe. -/
theorem db_insert_failure_atomic_iff {rounds : ℕ} (hrounds : 9 ≤ rounds)
    (ops : List DbOp) (lsn : UInt64) (checksum : UInt32) (txnId : UInt64)
    (key value : Bytes) :
    Always (pageStep Faults.any) (runOps rounds ops)
      (Store.fresh lsn checksum) fun _ s =>
        Always (pageStep Faults.any)
            (dbInsert (activeHandle txnId) key value) s
            (fun rc s' => rc = -1 → ∀ k v, Finds s' k v ↔ Finds s k v) ↔
          InsertSafe s key value := by
  refine ((tree_fresh lsn checksum).always_runOps_tree hrounds ops).mono ?_
  rintro replies s ⟨h, L, ht⟩
  constructor
  · intro hatomic
    by_contra hrisky
    obtain ⟨s', k, v, hrun, hfound, hlost⟩ :=
      ht.exists_loss_dbInsert txnId hrisky (rfl : Faults.any.pages = true)
    exact hlost ((hatomic (-1) s' hrun rfl k v).mpr hfound)
  · intro hsafe
    refine (ht.always_dbInsert_safe txnId hsafe).mono ?_
    rintro rc s' (rfl | ⟨h', L', ht', hkept⟩) hrc k v
    · exact absurd hrc (by decide)
    · rw [ht'.finds_iff, ht.finds_iff, hkept.pairs]

theorem db_insert_failure_atomic_iff_empty :
    InsertSafe (Store.fresh 0 0) [7] [1] ∧
      Always (pageStep Faults.any)
        (dbInsert (activeHandle 1) [7] [1]) (Store.fresh 0 0)
        fun rc s' => rc = -1 → ∀ k v, Finds s' k v ↔ Finds (Store.fresh 0 0) k v := by
  have hroute : routeAt rootSlots ([7] : Bytes) = some (rootPageId, ⊤) := by
    simp [rootSlots, routeAt]
  have hroom : ∀ page, (Store.fresh 0 0).targetLeaf [7] = some page →
      kvPairSize + ([7] : Bytes).length + ([1] : Bytes).length ≤ page.freeSpace := by
    intro page hpage
    rw [(tree_fresh 0 0).targetLeaf_eq hroute (fresh_pages 0 0)] at hpage
    cases hpage
    decide
  have hsafe : InsertSafe (Store.fresh 0 0) [7] [1] := .inr (.inr (.inl hroom))
  exact ⟨hsafe, (db_insert_failure_atomic_iff (le_refl 9) [] 0 0 1 [7] [1]
    [] (Store.fresh 0 0) ⟨rfl, rfl⟩).mpr hsafe⟩

/-! ## A run that loses a pair -/

/-- The calls that insert the given pairs one after the other. -/
def insertOps (txnId : UInt64) (ps : List (Bytes × Bytes)) : List DbOp :=
  ps.map fun p => .insert txnId p.1 p.2

/-- A pair as a leaf stores it. -/
def leafPair (p : Bytes × Bytes) : KvPair :=
  ⟨p.1, p.2, 0⟩

theorem Tree.always_fill (rounds : ℕ) (txnId : UInt64) (hslot : slot ∈ L)
    (ps : List (Bytes × Bytes)) (hlegal : ∀ p ∈ ps, LegalSizes p.1 p.2)
    (hroute : ∀ p ∈ ps, routeAt L p.1 = some slot) (hdistinct : ps.Pairwise fun p q => p.1 ≠ q.1) :
    ∀ {s : Store}, Tree s h L → Linked s L → (∀ p ∈ ps, ∀ q ∈ s.leafPairs slot.1, q.key ≠ p.1) →
      totalSize (s.leafPairs slot.1) + totalSize (ps.map leafPair) ≤ btreePageCapacity →
      Always (pageStep Faults.none) (runOps rounds (insertOps txnId ps))
        s fun _ s' => ∃ new, new.Perm (s.leafPairs slot.1 ++ ps.map leafPair) ∧
          Rewritten s h L slot s' (s.leafPairs slot.1) new := by
  induction ps with
  | nil =>
    intro s ht hlink _ _
    refine always_pure.mpr ⟨s.leafPairs slot.1, by simp, ?_⟩
    exact ⟨hslot, ht, fun hl => hl, fun he => he, rfl, rfl, fun _ _ => rfl, rfl,
      rfl⟩
  | cons p ps ih =>
    intro s ht hlink hnew hfits
    rw [pairwise_cons] at hdistinct
    rw [map_cons, totalSize_cons] at hfits
    have hone : totalSize (s.leafPairs slot.1) + (leafPair p).size ≤
        btreePageCapacity := by omega
    rw [insertOps, map_cons, runOps]
    refine always_bind.mpr ?_
    rw [DbOp.program]
    refine always_bind.mpr ?_
    refine (ht.always_dbInsert_fits (hlegal p (by simp)) (hroute p (by simp))
      (hnew p (by simp)) hone (isSome_activeHandle txnId)).mono ?_
    rintro rc s₁ (hF | ⟨-, xs, ys, hw⟩)
    · exact absurd hF (by decide)
    refine always_pure.mpr (always_bind.mpr ?_)
    have hperm : (s₁.leafPairs slot.1).Perm (leafPair p :: s.leafPairs slot.1) := by
      rw [hw.after, hw.before]
      exact perm_middle
    have hlegal' := fun q hq => hlegal q (mem_cons_of_mem p hq)
    have hroute' := fun q hq => hroute q (mem_cons_of_mem p hq)
    refine (ih hlegal' hroute' hdistinct.2 hw.tree (hw.linked hlink) ?_ ?_).mono ?_
    · intro q hq x hx
      rcases mem_cons.mp (hperm.subset hx) with rfl | hold
      · exact hdistinct.1 q hq
      · exact hnew q (mem_cons_of_mem _ hq) x hold
    · have hsum : totalSize (s₁.leafPairs slot.1) =
          (leafPair p).size + totalSize (s.leafPairs slot.1) := by
        rw [hw.after, hw.before, totalSize_append, totalSize_append, totalSize_cons]
        exact Nat.add_left_comm _ _ _
      omega
    · rintro replies s' ⟨new, hall, hw'⟩
      refine always_pure.mpr ⟨new, ?_, ?_⟩
      · refine hall.trans ((hperm.append_right _).trans ?_)
        exact perm_middle.symm
      · rw [hw.after] at hw'
        rw [hw.before]
        exact hw.trans hw'

/-- A value of the largest legal size. -/
@[irreducible] def bigValue : Bytes :=
  List.replicate maxValueSize 0

theorem bigValue_length : bigValue.length = maxValueSize := by
  rw [bigValue]
  exact length_replicate

/-- Three pairs that leave no room for a fourth on their leaf. -/
def threePairs : List (Bytes × Bytes) :=
  [([1], bigValue), ([2], bigValue), ([3], bigValue)]

/-- After three inserts without failures, a page load that fails during the
fourth makes it return `-1` with one of the stored pairs gone. -/
theorem db_insert_loses_pair :
    ∃ replies s s' k v, Outcome (pageStep Faults.none)
        (runOps 9 (insertOps 1 threePairs)) (Store.fresh 0 0) replies s ∧
      Outcome (pageStep ⟨true, false⟩)
        (dbInsert (activeHandle 1) [4] bigValue) s (-1) s' ∧
      Finds s k v ∧ ¬ Finds s' k v := by
  have hlegal : ∀ key : Bytes, key.length = 1 → LegalSizes key bigValue := by
    intro key hkey
    refine ⟨by simp [hkey], by simp [hkey, maxKeySize], ?_⟩
    exact bigValue_length.le
  have hroute : ∀ key : Bytes, routeAt rootSlots key = some (rootPageId, ⊤) := by
    intro key
    simp [rootSlots, routeAt]
  have hempty : (Store.fresh 0 0).leafPairs rootPageId = [] := by
    rw [leafPairs_eq (fresh_pages 0 0)]
    exact (holds_freshPage rootPageId 0 0).pairs_eq
  have hsize : totalSize (threePairs.map leafPair) = 3099 := by
    simp [threePairs, leafPair, KvPair.size, kvPairSize, bigValue_length, maxValueSize]
  obtain ⟨replies, s, hrun, new, hperm, hw⟩ := exists_outcome_of_always
    Faults.none ((tree_fresh 0 0).always_fill 9 1 (mem_singleton_self _)
      threePairs (by simp [threePairs, hlegal]) (by simp [hroute])
      (by simp [threePairs]) (linked_fresh 0 0) (by simp [hempty]) (by rw [hempty, hsize]; decide))
  rw [hempty, nil_append] at hperm
  rw [hempty] at hw
  obtain ⟨page, hpage, hleaf⟩ := hw.tree.leaves.leaf (rootPageId, ⊤) hw.mem
  have hpairs : page.pairs.Perm (threePairs.map leafPair) := by
    rw [← leafPairs_eq hpage, hw.after]
    exact hperm
  have hspace : page.freeSpace = 925 := by
    have hsum := hleaf.holds.freeSpace
    rw [totalSize, (hpairs.map _).sum_nat, ← totalSize, hsize, btreePageCapacity_eq] at hsum
    omega
  have hrisky : ¬ InsertSafe s [4] bigValue := by
    rintro (hillegal | ⟨v, hv⟩ | hroom | hfew)
    · exact hillegal (hlegal [4] rfl)
    · rw [hw.tree.finds_iff, hw.tree.lookup_eq (hroute [4]) hpage] at hv
      obtain ⟨q, hq, hkey, -⟩ := exists_of_lookup_eq_some hv
      have hmem := hpairs.subset hq
      simp only [threePairs, map_cons, map_nil, mem_cons, not_mem_nil, or_false] at hmem
      rcases hmem with rfl | rfl | rfl <;> simp [leafPair] at hkey
    · have hfits := hroom page (hw.tree.targetLeaf_eq (hroute [4]) hpage)
      simp [hspace, bigValue_length, kvPairSize, maxValueSize] at hfits
    · rw [hw.tree.idsToCarve_eq, hw.idsLeft, fresh_idsLeft] at hfew
      simp [carveNeed] at hfew
  obtain ⟨s', k, v, hinsert, hfound, hlost⟩ :=
    hw.tree.exists_loss_dbInsert 1 hrisky (F := ⟨true, false⟩) rfl
  exact ⟨replies, s, s', k, v, hrun, hinsert, hfound, hlost⟩

end Codo.Storage
