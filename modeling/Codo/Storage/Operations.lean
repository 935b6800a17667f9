import Codo.Storage.LeafSplit

/-!
# The operations on a tree

One theorem for each of `descend_to_leaf`, `db_search`, `db_delete` and
`db_insert`, in terms of the sorted list of pairs the tree stores.  Faults may
be injected; what the environment can do to a call is part of each statement.
-/

namespace Codo.Storage

open Support Support.Levels Program List Option Store

/-! ## `descend_to_leaf` -/

/-- The loop of `descend_to_leaf`, from a page on level `i` on. -/
theorem Spine.always_descendToLeafFrom {s : Store} {h : ℕ} (hs : Spine s h)
    {F : Faults} {T : StoreRel} [StoreLike F T] {key : Bytes}
    (lock : LockType) {i rounds : ℕ} {slot : TreeSlot} (hi : i ≤ h)
    (hrounds : h - i < rounds) (hroute : routeAt (s.level i) key = some slot) :
    ∀ page, s.pages slot.1 = some page → Always T (descendToLeafFrom key lock rounds slot.1 page) s
        fun r s' => s' = s ∧ (r = some none ∧ F.pages = true ∨
          ∃ leaf, s.pages (s.routeId key h) = some leaf ∧
            r = some (some (s.routeId key h, leaf))) := by
  refine hs.route_induction ?_ ?_ hi hrounds hroute
  · intro rounds slot page hroute hpage hne page' hpage'
    obtain rfl := some.inj (hpage.symm.trans hpage')
    rw [descendToLeafFrom, if_neg hne, routeId_eq hroute]
    exact always_pure.mpr ⟨rfl, .inr ⟨page, hpage, rfl⟩⟩
  · intro i rounds slot page next hlt hroute hpage hinternal hnext hchild ih page' hpage'
    obtain rfl := some.inj (hpage.symm.trans hpage')
    obtain ⟨child, hc⟩ := hs.exists_page hlt (mem_of_routeAt hnext)
    rw [descendToLeafFrom, if_pos hinternal.type]
    refine always_bind.mpr (always_releasePage ?_)
    rw [← hchild]
    refine always_bind.mpr (always_getPage_of_pages hc ?_ ?_)
    · intro hF
      exact always_pure.mpr ⟨rfl, .inl ⟨rfl, hF⟩⟩
    · exact ih child hc

namespace Tree

variable {s : Store} {h : ℕ} {L : Slots} {F : Faults} {T : StoreRel} [StoreLike F T]
variable {rounds : ℕ} {key value : Bytes} {slot : TreeSlot}
  {txn : Option Transaction} {s' : Store} {txnId : UInt64}

theorem always_descendToLeaf (ht : Tree s h L) (key : Bytes) (lock : LockType)
    (hrounds : h < rounds) :
    Always T (descendToLeaf rounds key lock) s
      fun r s' => s' = s ∧ (r = some none ∧ F.pages = true ∨
        ∃ slot page, routeAt L key = some slot ∧ s.pages slot.1 = some page ∧ LeafPage page ∧
          r = some (some (slot.1, page))) := by
  have hroot := s.routeAt_root key
  obtain ⟨page, hpage⟩ := ht.spine.exists_page h.zero_le (mem_of_routeAt hroot)
  obtain ⟨slot, leaf, hroute, hid, hleaf, hleafPage⟩ := ht.exists_route key
  rw [descendToLeaf]
  refine always_bind.mpr (always_getPage_of_pages hpage ?_ ?_)
  · intro hF
    exact always_pure.mpr ⟨rfl, .inl ⟨rfl, hF⟩⟩
  · refine (ht.spine.always_descendToLeafFrom lock h.zero_le hrounds hroot page hpage).mono ?_
    rintro r s' ⟨rfl, hfail | ⟨leaf', hleaf', rfl⟩⟩
    · exact ⟨rfl, .inl hfail⟩
    · rw [hid] at hleaf' ⊢
      rw [hleaf] at hleaf'
      cases hleaf'
      exact ⟨rfl, .inr ⟨slot, leaf, hroute, hleaf, hleafPage, rfl⟩⟩

/-- What the leaf a key routes to says about the whole tree. -/
theorem lookup_eq (ht : Tree s h L) (hroute : routeAt L key = some slot)
    {page : BtreePage} (hpage : s.pages slot.1 = some page) :
    lookup (s.pairsOf L) key = lookup page.pairs key := by
  have hpairs := leafPairs_eq hpage
  cases hfind : lookup page.pairs key with
  | none =>
    rw [lookup_eq_none_iff] at hfind ⊢
    intro p hp hkey
    have hmem := ht.leaves.mem_leafPairs hroute hp hkey
    rw [hpairs] at hmem
    exact hfind p hmem hkey
  | some value =>
    obtain ⟨p, hp, rfl, rfl⟩ := exists_of_lookup_eq_some hfind
    refine ht.sorted.lookup_eq_some ?_
    refine mem_flatMap.mpr ⟨slot, mem_of_routeAt hroute, ?_⟩
    rw [hpairs]
    exact hp

theorem always_dbSearch (ht : Tree s h L) (hactive : (activeTxn txn).isSome)
    (key : Bytes) (capacity : ℕ) (hrounds : h < rounds) :
    Always T (dbSearch rounds txn key capacity) s
      fun r s' => s' = s ∧ (r = some none ∧ F.pages = true ∨
        r = some ((lookup (s.pairsOf L) key).map fun value =>
          (value.length, value.take capacity))) := by
  obtain ⟨t, htxn⟩ := isSome_iff_exists.mp hactive
  rw [dbSearch, htxn]
  refine (ht.always_descendToLeaf key .shared hrounds).bind ?_
  rintro r s' ⟨rfl, ⟨rfl, hF⟩ | ⟨slot, page, hroute, hpage, hleaf, rfl⟩⟩
  · exact always_pure.mpr ⟨rfl, .inl ⟨rfl, hF⟩⟩
  · have hlookup := ht.lookup_eq hroute hpage
    rcases hleaf.matchingEntry_cases key with
      ⟨xs, p, ys, offset, hpairs, hkey, -, hmatch, hat⟩ |
      ⟨xs, ys, hpairs, -, hxs, hys, hmatch⟩
    · have hp : p ∈ page.pairs := by
        rw [hpairs]
        simp
      have hvalue : lookup page.pairs key = some p.value := by
        rw [← hkey]
        exact hleaf.sorted.lookup_eq_some hp
      simp only [hmatch]
      refine always_bind.mpr (always_releasePage ?_)
      refine always_pure.mpr ⟨rfl, .inr ?_⟩
      rw [hlookup, hvalue, hat.kvValueLength, hat.kvValue]
      rfl
    · have hnone : lookup page.pairs key = none := by
        rw [hpairs]
        exact lookup_eq_none_of_between hxs hys
      simp only [hmatch]
      refine always_bind.mpr (always_releasePage ?_)
      refine always_pure.mpr ⟨rfl, .inr ?_⟩
      rw [hlookup, hnone]
      rfl

/-- The leaf at `slot` went from the pairs `old` to the pairs `new`, and nothing
else changed. -/
structure Rewritten (s : Store) (h : ℕ) (L : List (UInt32 × WithTop Bytes))
    (slot : UInt32 × WithTop Bytes) (s' : Store) (old new : List KvPair) : Prop where
  mem : slot ∈ L
  tree : Tree s' h L
  linked : Linked s L → Linked s' L
  enclosed : Enclosed s L → Enclosed s' L
  exhausted : s'.exhausted = s.exhausted
  idsLeft : s'.idsLeft = s.idsLeft
  pages : ∀ id, id ≠ slot.1 → s'.pages id = s.pages id
  before : s.leafPairs slot.1 = old
  after : s'.leafPairs slot.1 = new

theorem Rewritten.trans {s₁ : Store} {old mid new : List KvPair}
    (hw : Rewritten s h L slot s₁ old mid) (hw' : Rewritten s₁ h L slot s' mid new) :
    Rewritten s h L slot s' old new :=
  ⟨hw.mem, hw'.tree, fun hlink => hw'.linked (hw.linked hlink),
    fun henclosed => hw'.enclosed (hw.enclosed henclosed),
    hw'.exhausted.trans hw.exhausted, hw'.idsLeft.trans hw.idsLeft,
    fun id hid => (hw'.pages id hid).trans (hw.pages id hid), hw.before, hw'.after⟩

/-- Rewriting a leaf replaces its stretch of the tree's pairs. -/
theorem Rewritten.around {old new : List KvPair} (hw : Rewritten s h L slot s' old new) :
    ∃ X Y, s.pairsOf L = X ++ old ++ Y ∧ s'.pairsOf L = X ++ new ++ Y := by
  obtain ⟨A, B, rfl⟩ := append_of_mem hw.mem
  have hsame : ∀ t ∈ A ++ B, s'.pages t.1 = s.pages t.1 := by
    intro t ht
    exact hw.pages _ (sibling_of_nodup hw.tree.nodup ht).2
  have hA : s'.pairsOf A = s.pairsOf A := pairsOf_congr fun t ht => hsame t (mem_append_left _ ht)
  have hB : s'.pairsOf B = s.pairsOf B := pairsOf_congr fun t ht => hsame t (mem_append_right _ ht)
  refine ⟨s.pairsOf A, s.pairsOf B, ?_, ?_⟩
  · rw [pairsOf_append, pairsOf_cons, hw.before, append_assoc]
  · rw [pairsOf_append, pairsOf_cons, hw.after, hA, hB, append_assoc]

/-- The leaf is written with the pairs `new`: those it had, or legal ones the
tree routes there. -/
theorem rewriteLeaf (ht : Tree s h L) (hslot : slot ∈ L)
    {page page' : BtreePage} (hpage : s.pages slot.1 = some page)
    (hleaf : LeafPage page) {new : List KvPair} (hholds : Holds page' new)
    (htype : page'.header.pageType = page.header.pageType)
    (hnext : page'.header.nextPageId = page.header.nextPageId)
    (hsorted : SortedPairs new) (hnew : ∀ q ∈ new, q ∈ page.pairs ∨
      q.LeafLegal ∧ routeAt L q.key = some slot) (lsn : UInt64) (checksum : UInt32) :
    Rewritten s h L slot (s.put slot.1 (page'.stamp lsn checksum)) page.pairs new := by
  have hstamp := hholds.stamp lsn checksum
  have hleaf' := LeafPage.of_holds hstamp (htype.trans hleaf.type) hsorted
    fun q hq => (hnew q hq).elim (hleaf.legal q) And.left
  have hrouted : ∀ q ∈ (page'.stamp lsn checksum).pairs, routeAt L q.key = some slot := by
    intro q hq
    rw [hstamp.pairs_eq] at hq
    rcases hnew q hq with hold | hadded
    · refine ht.leaves.routed slot hslot q ?_
      rwa [leafPairs_eq hpage]
    · exact hadded.2
  refine ⟨hslot, ht.putLeaf hslot hleaf' hrouted, fun hlink => linked_putLeaf hlink hpage hnext,
    fun henclosed => enclosed_putLeaf henclosed hpage hleaf' hnext, rfl, rfl, ?_,
    leafPairs_eq hpage, ?_⟩
  · intro id hid
    exact s.put_pages_of_ne _ hid
  · rw [leafPairs_eq (s.put_pages_self _ _), hstamp.pairs_eq]

theorem always_dbDelete (ht : Tree s h L) (hactive : (activeTxn txn).isSome)
    (key : Bytes) (hrounds : h < rounds) :
    Always T (dbDelete rounds txn key) s fun r s' =>
      (r = some (-1) ∧ s' = s ∧ (F.pages = true ∨ lookup (s.pairsOf L) key = none)) ∨
        (r = some 0 ∧ ∃ slot xs p ys, routeAt L key = some slot ∧
          p.key = key ∧ Rewritten s h L slot s' (xs ++ p :: ys) (xs ++ ys)) := by
  obtain ⟨t, htxn⟩ := isSome_iff_exists.mp hactive
  rw [dbDelete, htxn]
  refine (ht.always_descendToLeaf key .exclusive hrounds).bind ?_
  rintro r s' ⟨rfl, ⟨rfl, hF⟩ | ⟨slot, page, hroute, hpage, hleaf, rfl⟩⟩
  · exact always_pure.mpr (.inl ⟨rfl, rfl, .inl hF⟩)
  · have hslot := mem_of_routeAt hroute
    rcases hleaf.matchingEntry_cases key with
      ⟨xs, p, ys, offset, hpairs, hkey, hpos, hmatch, -⟩ |
      ⟨xs, ys, hpairs, -, hxs, hys, hmatch⟩
    · have hholds : Holds page (xs ++ p :: ys) := hpairs ▸ hleaf.holds
      obtain ⟨page', hdelete, hholds', htype, hnext⟩ := hholds.exists_deleteKvPair
      rw [hpos] at hmatch
      simp only [hpos, hmatch, hdelete]
      refine always_bind.mpr (always_writeWalRecord fun _ => ?_)
      refine always_bind.mpr (always_updatePage ?_)
      intro lsn checksum
      refine always_bind.mpr (always_releasePage ?_)
      have hsub : xs ++ ys <+ page.pairs := by
        rw [hpairs]
        exact .append_left (sublist_cons_self p ys) xs
      have hrewritten := ht.rewriteLeaf hslot hpage hleaf hholds' htype hnext
        (hleaf.sorted.sublist hsub) (fun q hq => .inl (hsub.subset hq)) lsn checksum
      rw [hpairs] at hrewritten
      exact always_pure.mpr (.inr ⟨rfl, slot, xs, p, ys, hroute, hkey, hrewritten⟩)
    · simp only [hmatch]
      refine always_bind.mpr (always_releasePage ?_)
      refine always_pure.mpr (.inl ⟨rfl, rfl, .inr ?_⟩)
      rw [ht.lookup_eq hroute hpage, hpairs]
      exact lookup_eq_none_of_between hxs hys

/-! ## `db_insert` -/

/-- `db_insert` has stored the pair: it stands between the pairs the tree had,
and the key was new. -/
def Inserted (s : Store) (L : List (UInt32 × WithTop Bytes)) (s' : Store) (p : KvPair) : Prop :=
  lookup (s.pairsOf L) p.key = none ∧ ∃ h' L' X Y, Tree s' h' L' ∧ (Linked s L → Linked s' L') ∧
      (Enclosed s L → Enclosed s' L') ∧ BoundsFrom s L L' ∧ s.pairsOf L = X ++ Y ∧
      s'.pairsOf L' = X ++ p :: Y

theorem Rewritten.inserted {p : KvPair} {xs ys : List KvPair}
    (hw : Rewritten s h L slot s' (xs ++ ys) (xs ++ p :: ys))
    (hnone : lookup (s.pairsOf L) p.key = none) : Inserted s L s' p := by
  obtain ⟨X, Y, hbefore, hafter⟩ := hw.around
  refine ⟨hnone, h, L, X ++ xs, ys ++ Y, hw.tree, hw.linked, hw.enclosed,
    BoundsFrom.refl s L, ?_, ?_⟩
  · rw [hbefore]
    simp
  · rw [hafter]
    simp

section

variable (hlegal : (⟨key, value, 0⟩ : KvPair).LeafLegal)
include hlegal

/-- One attempt of the retry loop. -/
theorem always_dbInsertLoop_step (ht : Tree s h L) {attempts : ℕ}
    {Q : ℤ → Store → Prop} (hfail : F.pages = true → Q (-1) s)
    (hpresent : lookup (s.pairsOf L) key ≠ none → Q (-1) s)
    (hroom : ∀ slot s' xs ys, routeAt L key = some slot → lookup (s.pairsOf L) key = none →
      Rewritten s h L slot s' (xs ++ ys) (xs ++ ⟨key, value, 0⟩ :: ys) → Q 0 s')
    (hfull : ∀ slot page, routeAt L key = some slot → s.pages slot.1 = some page → LeafPage page →
      page.freeSpace < kvPairSize + key.length + value.length → lookup (s.pairsOf L) key = none →
      Always T (do
        let rc ← btreeSplitNode slot.1 btreeMaxDepth
        if rc ≠ 0 then pure (-1)
        else dbInsertLoop txnId key value attempts) s Q) :
    Always T (dbInsertLoop txnId key value (attempts + 1)) s Q := by
  obtain ⟨slot, page, hroute, hid, hpage, hleaf⟩ := ht.exists_route key
  have hslot := mem_of_routeAt hroute
  have hdepth : h < btreeMaxDepth := ht.height_lt.trans (by decide)
  have hlast : ((List.range' 0 (h + 1)).map (s.routeId key)).getLast? = some slot.1 := by
    rw [List.range'_concat, map_append, List.getLast?_append]
    simp [hid]
  rw [dbInsertLoop]
  refine (ht.spine.always_descendPath key hdepth).bind ?_
  rintro path s' ⟨rfl, ⟨rfl, hF⟩ | rfl⟩
  · exact always_pure.mpr (hfail hF)
  simp only [hlast]
  refine always_bind.mpr (always_getPage_of_pages hpage ?_ ?_)
  · intro hF
    exact always_pure.mpr (hfail hF)
  have hlookup := ht.lookup_eq hroute hpage
  rcases hleaf.matchingEntry_cases key with
    ⟨xs, p, ys, offset, hpairs, hkey, -, hmatch, -⟩ |
    ⟨xs, ys, hpairs, hpos, hxs, hys, hmatch⟩
  · have hp : p ∈ page.pairs := by
      rw [hpairs]
      simp
    simp only [hmatch, isSome_some, if_true]
    refine always_bind.mpr (always_releasePage ?_)
    refine always_pure.mpr (hpresent ?_)
    rw [hlookup, ← hkey, hleaf.sorted.lookup_eq_some hp]
    exact some_ne_none _
  · have hnone : lookup (s'.pairsOf L) key = none := by
      rw [hlookup, hpairs]
      exact lookup_eq_none_of_between hxs hys
    simp only [hmatch, isSome_none, Bool.false_eq_true, if_false]
    by_cases hfree : page.freeSpace < kvPairSize + key.length + value.length
    · rw [if_pos hfree]
      refine always_bind.mpr (always_releasePage ?_)
      exact hfull slot page hroute hpage hleaf hfree hnone
    · rw [if_neg hfree]
      refine always_bind.mpr (always_writeWalRecord fun _ => ?_)
      have hholds : Holds page (xs ++ ys) := hpairs ▸ hleaf.holds
      obtain ⟨page', hinsert, hholds', htype, hnext⟩ :=
        hholds.exists_insertKvPair hlegal.fits (not_lt.mp hfree)
      simp only [hpos, Int.toNat_natCast, hinsert]
      refine always_bind.mpr (always_updatePage ?_)
      intro lsn checksum
      refine always_bind.mpr (always_releasePage ?_)
      have hold : SortedPairs (xs ++ ys) := hpairs ▸ hleaf.sorted
      have hrewritten := ht.rewriteLeaf hslot hpage hleaf hholds' htype hnext
        (hold.insert hxs hys) (by
          intro q hq
          rw [hpairs, mem_append]
          rcases mem_append.mp hq with hx | hrest
          · exact .inl (.inl hx)
          · rcases mem_cons.mp hrest with rfl | hy
            · exact .inr ⟨hlegal, hroute⟩
            · exact .inl (.inr hy)) lsn checksum
      rw [hpairs] at hrewritten
      exact always_pure.mpr (hroom slot _ xs ys hroute hnone hrewritten)

theorem not_illegalSizes :
    ¬ (key.length = 0 ∨ maxKeySize < key.length ∨ maxValueSize < value.length) := by
  obtain ⟨hpos, hkey, hvalue⟩ := hlegal
  rintro (hzero | hlong | hlong)
  · exact absurd hpos (by simp [hzero])
  · exact absurd hkey (not_le.mpr hlong)
  · exact absurd hvalue (not_le.mpr hlong)

section

variable (hroute : routeAt L key = some slot) (hnew : ∀ p ∈ s.leafPairs slot.1, p.key ≠ key)
  (hfits : totalSize (s.leafPairs slot.1) +
    (kvPairSize + key.length + value.length) ≤ btreePageCapacity)
include hroute hnew hfits

theorem always_dbInsertLoop_fits (ht : Tree s h L) (attempts : ℕ) :
    Always T (dbInsertLoop txnId key value (attempts + 1)) s
      fun rc s' => F.pages = true ∨ rc = 0 ∧ ∃ xs ys,
        Rewritten s h L slot s' (xs ++ ys) (xs ++ ⟨key, value, 0⟩ :: ys) := by
  obtain ⟨page, hpage, hleaf⟩ := ht.leaves.leaf slot (mem_of_routeAt hroute)
  rw [leafPairs_eq hpage] at hnew hfits
  have hnone : lookup (s.pairsOf L) key = none := by
    rw [ht.lookup_eq hroute hpage]
    exact lookup_eq_none_iff.mpr hnew
  refine ht.always_dbInsertLoop_step hlegal ?_ ?_ ?_ ?_
  · intro hF
    exact .inl hF
  · intro hfound
    exact absurd hnone hfound
  · intro slot' s' xs ys hroute' _ hw
    rw [hroute] at hroute'
    cases hroute'
    exact .inr ⟨rfl, xs, ys, hw⟩
  · intro slot' page' hroute' hpage' _ hfree _
    rw [hroute] at hroute'
    cases hroute'
    rw [hpage] at hpage'
    cases hpage'
    have hspace := hleaf.holds.freeSpace
    omega

theorem always_dbInsert_fits (ht : Tree s h L) (hactive : (activeTxn txn).isSome) :
    Always T (dbInsert txn key value) s fun rc s' =>
      F.pages = true ∨ rc = 0 ∧ ∃ xs ys, Rewritten s h L slot s' (xs ++ ys)
        (xs ++ ⟨key, value, 0⟩ :: ys) := by
  obtain ⟨t, htxn⟩ := isSome_iff_exists.mp hactive
  rw [dbInsert, htxn]
  simp only [if_neg (not_illegalSizes hlegal)]
  exact ht.always_dbInsertLoop_fits hlegal hroute hnew hfits 31

end

/-- How `db_insert` of a legal pair may end, with up to `c` fresh pages. -/
def InsertEnd (F : Faults) (s s' : Store) (h : ℕ)
    (L : List (UInt32 × WithTop Bytes)) (p : KvPair) (c : ℕ) (rc : ℤ) : Prop :=
  (rc = 0 ∧ s'.exhausted = s.exhausted ∧ s.idsLeft ≤ s'.idsLeft + c ∧ Inserted s L s' p) ∨
    (rc = -1 ∧ s' = s ∧ lookup (s.pairsOf L) p.key ≠ none) ∨ (rc = -1 ∧ Starved F s s' c ∧
      ∃ h' L', Tree s' h' L' ∧ (Enclosed s L → Enclosed s' L') ∧
        (carveNeed h ≤ s.idsLeft ∨ Kept s L s' L'))

/-- An attempt that does not meet a full leaf ends the loop. -/
theorem always_dbInsertLoop_end (ht : Tree s h L) {attempts c : ℕ}
    (hfull : ∀ slot page, routeAt L key = some slot → s.pages slot.1 = some page → LeafPage page →
      page.freeSpace < kvPairSize + key.length + value.length → lookup (s.pairsOf L) key = none →
      Always T (do
        let rc ← btreeSplitNode slot.1 btreeMaxDepth
        if rc ≠ 0 then pure (-1)
        else dbInsertLoop txnId key value attempts) s
        fun rc s' => InsertEnd F s s' h L ⟨key, value, 0⟩ c rc) :
    Always T (dbInsertLoop txnId key value (attempts + 1)) s
      fun rc s' => InsertEnd F s s' h L ⟨key, value, 0⟩ c rc := by
  refine ht.always_dbInsertLoop_step hlegal ?_ ?_ ?_ hfull
  · intro hF
    exact .inr (.inr ⟨rfl, .inl hF, h, L, ht, fun henclosed => henclosed, .inr (.refl s L)⟩)
  · intro hfound
    exact .inr (.inl ⟨rfl, rfl, hfound⟩)
  · intro slot s' xs ys _ hnone hw
    refine .inl ⟨rfl, hw.exhausted, ?_, hw.inserted hnone⟩
    rw [hw.idsLeft]
    exact Nat.le_add_right _ _

/-- The retry loop.  Each split about halves the leaf the key routes to, so
`k` splits suffice when its pairs take at most `2574 + 162 * 2 ^ k` bytes. -/
theorem always_dbInsertLoop (k : ℕ) :
    ∀ {s : Store} {h : ℕ} {L : Slots} (attempts : ℕ), k < attempts + 1 → Tree s h L →
      (∀ slot, routeAt L key = some slot → totalSize (s.leafPairs slot.1) ≤ 2574 + 162 * 2 ^ k) →
      Always T (dbInsertLoop txnId key value (attempts + 1)) s
        fun rc s' => InsertEnd F s s' h L ⟨key, value, 0⟩ (10 * k) rc := by
  have hsize : kvPairSize + key.length + value.length ≤ 1288 := hlegal.size_le
  induction k with
  | zero =>
    intro s h L attempts _ ht hbound
    refine ht.always_dbInsertLoop_end hlegal ?_
    intro slot page hroute hpage hleaf hfree _
    have hsmall := hbound slot hroute
    have hspace := hleaf.holds.freeSpace
    rw [leafPairs_eq hpage] at hsmall
    rw [btreePageCapacity_eq] at hspace
    omega
  | succ k ih =>
    intro s h L attempts hattempts ht hbound
    obtain ⟨attempts, rfl⟩ : ∃ a, attempts = a + 1 := ⟨attempts - 1, by omega⟩
    refine ht.always_dbInsertLoop_end hlegal ?_
    intro slot page hroute hpage hleaf hfree hnone
    refine (ht.always_btreeSplitNode hroute hpage (by omega)).bind ?_
    rintro rc s₁ (⟨rfl, hex, hspent, hneed, h₁, L₁, ht₁, hkept, hhalf⟩ |
      ⟨rfl, hstarved, h', L', ht', henclosed, hleft⟩)
    · have hsmaller : ∀ slot₁, routeAt L₁ key = some slot₁ →
          totalSize (s₁.leafPairs slot₁.1) ≤ 2574 + 162 * 2 ^ k := by
        intro slot₁ hroute₁
        have hbig := hbound slot hroute
        have hnew := hhalf slot₁ hroute₁
        rw [Nat.pow_succ] at hbig
        omega
      refine (ih attempts (by omega) ht₁ hsmaller).mono ?_
      rintro rc s' (⟨rfl, hex', hids, hinserted⟩ | ⟨rfl, rfl, hfound⟩ |
        ⟨rfl, hstarved, h', L', ht', henclosed, -⟩)
      · obtain ⟨-, h', L', X, Y, ht', hlink, henclosed, hbounds, hbefore, hafter⟩ := hinserted
        refine .inl ⟨rfl, hex'.trans hex, by omega, hnone, h', L', X, Y,
          ht', fun hl => hlink (hkept.linked hl), fun hold => henclosed (hkept.enclosed hold),
          hkept.bounds.trans hbounds hkept.pairs, ?_, hafter⟩
        rw [← hkept.pairs, hbefore]
      · rw [hkept.pairs] at hfound
        exact absurd hnone hfound
      · exact .inr (.inr ⟨rfl, hstarved.mono (by omega), h', L', ht',
          fun hold => henclosed (hkept.enclosed hold), .inl hneed⟩)
    · exact always_pure.mpr (.inr (.inr ⟨rfl,
        hstarved.mono (by omega), h', L', ht', henclosed, hleft⟩))

/-- `db_insert` of a legal pair in an active transaction. -/
theorem always_dbInsert (ht : Tree s h L) (hactive : (activeTxn txn).isSome) :
    Always T (dbInsert txn key value) s fun rc s' =>
      InsertEnd F s s' h L ⟨key, value, 0⟩ 40 rc := by
  obtain ⟨t, htxn⟩ := isSome_iff_exists.mp hactive
  rw [dbInsert, htxn]
  simp only [if_neg (not_illegalSizes hlegal)]
  refine always_dbInsertLoop hlegal 4 31 (by decide) ht ?_
  intro slot hroute
  obtain ⟨page, hpage, hleaf⟩ := ht.leaves.leaf slot (mem_of_routeAt hroute)
  have hspace := hleaf.holds.freeSpace
  rw [btreePageCapacity_eq] at hspace
  rw [leafPairs_eq hpage]
  omega

end

end Tree

end Codo.Storage
