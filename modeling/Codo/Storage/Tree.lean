import Codo.Storage.Db
import Codo.Storage.PageSplit
import Codo.Storage.PageStore
import Codo.Support.Levels

/-!
# The tree in the page store

A page is read as a branch of a search tree: its entries are separators with
the child below each, and `next_page_id` is the last child.  This file states
what a well-formed internal page and a well-formed leaf are, and shows that
the child the descent of `db.c` follows is the one routing selects.
-/

namespace Codo.Storage

open Support Support.Levels Program Store List

/-- The separators and children of a page. -/
def BtreePage.branch (page : BtreePage) : Branch Bytes UInt32 :=
  ⟨page.pairs.map fun p => (p.key, p.child), page.header.nextPageId⟩

/-- The branch stored at `id`; an unknown page has no children. -/
def Store.branch (s : Store) (id : UInt32) : Branch Bytes UInt32 :=
  match s.pages id with
  | some page => page.branch
  | none => ⟨[], 0⟩

theorem Store.branch_eq {s : Store} {id : UInt32} {page : BtreePage}
    (h : s.pages id = some page) : s.branch id = page.branch := by
  rw [Store.branch, h]

structure InternalPage (page : BtreePage) : Prop where
  type : page.header.pageType = pageTypeInternal
  holds : Holds page page.pairs
  sorted : SortedPairs page.pairs
  legal : ∀ p ∈ page.pairs, p.SepLegal

structure LeafPage (page : BtreePage) : Prop where
  type : page.header.pageType = pageTypeLeaf
  holds : Holds page page.pairs
  sorted : SortedPairs page.pairs
  legal : ∀ p ∈ page.pairs, p.LeafLegal

theorem Holds.stamp {page : BtreePage} {ps : List KvPair} (h : Holds page ps)
    (lsn : UInt64) (checksum : UInt32) : Holds (page.stamp lsn checksum) ps :=
  ⟨h.fits, h.data, h.keyCount, h.freeSpace⟩

theorem InternalPage.of_holds {page : BtreePage} {ps : List KvPair}
    (h : Holds page ps) (htype : page.header.pageType = pageTypeInternal)
    (hsorted : SortedPairs ps) (hlegal : ∀ p ∈ ps, p.SepLegal) : InternalPage page := by
  have hpairs := h.pairs_eq
  refine ⟨htype, ?_, ?_, ?_⟩
  · rwa [hpairs]
  · rwa [hpairs]
  · rwa [hpairs]

section Child

variable {page : BtreePage} {xs ys : List KvPair} {key : Bytes}

theorem childFor_of_pairs (h : Holds page (xs ++ ys)) (hsorted : SortedPairs (xs ++ ys))
    (hxs : ∀ p ∈ xs, p.key < key) (hys : ∀ p ∈ ys, key ≤ p.key) :
    childFor page key = (ys.head?.map KvPair.child).getD page.header.nextPageId := by
  have hpos : findKeyPosition page key = (xs.length : ℤ) := by
    rw [h.findKeyPosition_eq hsorted, lowerBound_append hxs hys]
  rw [childFor, hpos]
  cases ys with
  | nil =>
    have hnone : getKvPair page (xs.length : ℤ) = none := by
      rw [getKvPair, h.keyCount, if_pos (.inr (by simp))]
    rw [hnone]
    rfl
  | cons p ys =>
    have hlt : xs.length < (xs ++ p :: ys).length := by simp
    obtain ⟨xs', p', ys', hsplit, hlen, hget, hat⟩ := h.exists_getKvPair hlt
    obtain ⟨rfl, hcons⟩ := append_inj hsplit hlen.symm
    have hp : p = p' := (List.cons.inj hcons).1
    subst hp
    simp [hget, hat.kvChildPageId]

theorem routeAt_slots_of_pairs {next : UInt32} {hi : WithTop Bytes}
    (hxs : ∀ p ∈ xs, p.key < key) (hys : ∀ p ∈ ys, key ≤ p.key) (hhi : (key : WithTop Bytes) ≤ hi) :
    (routeAt ((⟨(xs ++ ys).map fun p => (p.key, p.child), next⟩ :
        Branch Bytes UInt32).slots hi) key).map Prod.fst =
      some ((ys.head?.map KvPair.child).getD next) := by
  induction xs with
  | nil =>
    cases ys with
    | nil => simp [Branch.slots, routeAt, hhi]
    | cons p ys =>
      have hp : key ≤ p.key := hys p (by simp)
      simp [Branch.slots, routeAt, hp]
  | cons q xs ih =>
    have hq : ¬ key ≤ q.key := not_le.mpr (hxs q (by simp))
    have hrest := ih fun p hp => hxs p (by simp [hp])
    simpa [Branch.slots, routeAt, hq] using hrest

/-- The descent follows the child that routing selects. -/
theorem InternalPage.routeAt_eq_childFor (h : InternalPage page)
    {hi : WithTop Bytes} (hhi : (key : WithTop Bytes) ≤ hi) :
    (routeAt (page.branch.slots hi) key).map Prod.fst = some (childFor page key) := by
  obtain ⟨xs, ys, hsplit, -, hxs, hys⟩ := exists_split_lowerBound page.pairs key h.sorted
  have hholds := h.holds
  have hsorted := h.sorted
  rw [hsplit] at hholds hsorted
  rw [childFor_of_pairs hholds hsorted hxs hys, BtreePage.branch, hsplit]
  exact routeAt_slots_of_pairs hxs hys hhi

end Child

/-- A node of a level, with the bound of the keys below it. -/
abbrev TreeSlot := UInt32 × WithTop Bytes

/-- A level of the tree. -/
abbrev Slots := List TreeSlot

abbrev Store.level (s : Store) (n : ℕ) : List (UInt32 × WithTop Bytes) :=
  Levels.level s.branch rootPageId n

/-- The levels above `h` are internal pages, level `h` consists of leaves, and
the bounds of level `h` increase. -/
structure Spine (s : Store) (h : ℕ) : Prop where
  internal : ∀ i, i < h → ∀ slot ∈ s.level i, ∃ page, s.pages slot.1 = some page ∧ InternalPage page
  bottom : ∀ slot ∈ s.level h,
    ∃ page, s.pages slot.1 = some page ∧ page.header.pageType = pageTypeLeaf
  ascending : Ascending (s.level h)
  nonzero : ∀ i, i ≤ h → ∀ slot ∈ s.level i, slot.1 ≠ 0

/-- The page a lookup of `key` visits on level `i`. -/
def Store.routeId (s : Store) (key : Bytes) (i : ℕ) : UInt32 :=
  ((routeAt (s.level i) key).map Prod.fst).getD 0

theorem Store.routeAt_root (s : Store) (key : Bytes) :
    routeAt (s.level 0) key = some (rootPageId, ⊤) := by
  simp [Store.level, Levels.level, below, routeAt]

variable {slot : TreeSlot}

theorem Store.routeId_eq {s : Store} {key : Bytes} {i : ℕ}
    (h : routeAt (s.level i) key = some slot) : s.routeId key i = slot.1 := by
  simp [Store.routeId, h]

namespace Spine

variable {s : Store} {h : ℕ}

theorem exists_page (hs : Spine s h) {i : ℕ} (hi : i ≤ h)
    (hslot : slot ∈ s.level i) : ∃ page, s.pages slot.1 = some page := by
  rcases hi.lt_or_eq with hlt | rfl
  · obtain ⟨page, hpage, -⟩ := hs.internal i hlt slot hslot
    exact ⟨page, hpage⟩
  · obtain ⟨page, hpage, -⟩ := hs.bottom slot hslot
    exact ⟨page, hpage⟩

/-- No page stands on two levels: its last children would lead to the leaves
in different numbers of steps. -/
theorem not_mem_ids_of_lt (hs : Spine s h) {i j : ℕ} (hij : i < j)
    (hj : j ≤ h) {id : UInt32} (hi : id ∈ ids s.branch [(rootPageId, ⊤)] i) :
    id ∉ ids s.branch [(rootPageId, ⊤)] j := by
  intro hmem
  have hdeep := iterate_last_mem_ids hmem (h - j)
  have hshallow := iterate_last_mem_ids hi (h - j)
  rw [Nat.add_sub_cancel' hj] at hdeep
  obtain ⟨slot, hslot, hid⟩ := mem_map.mp hdeep
  obtain ⟨slot', hslot', hid'⟩ := mem_map.mp hshallow
  obtain ⟨page, hpage, hleaf⟩ := hs.bottom slot hslot
  obtain ⟨page', hpage', hinternal⟩ := hs.internal (i + (h - j)) (by omega) slot' hslot'
  rw [hid, ← hid', hpage'] at hpage
  cases hpage
  rw [hinternal.type] at hleaf
  exact absurd hleaf (by decide)

theorem routeAt_succ (hs : Spine s h) {i : ℕ} (hi : i < h) {key : Bytes} {page : BtreePage}
    (hroute : routeAt (s.level i) key = some slot)
    (hpage : s.pages slot.1 = some page) (hinternal : InternalPage page) :
    ∃ next, routeAt (s.level (i + 1)) key = some next ∧
      next.1 = childFor page key := by
  have hle := le_of_routeAt hroute
  have hasc : Ascending (s.level (i + 1)) := ascending_below hi hs.ascending
  have hexpand := routeAt_expand hasc hroute
  obtain ⟨next, hnext⟩ := exists_routeAt_slots (s.branch slot.1) hle
  have hchild := hinternal.routeAt_eq_childFor hle
  rw [branch_eq hpage] at hnext
  rw [hnext] at hchild
  refine ⟨next, ?_, Option.some.inj hchild⟩
  exact hexpand.trans (by rw [branch_eq hpage, hnext])

/-- Induction along the route of a key, from the leaf up. -/
@[elab_as_elim] theorem route_induction (hs : Spine s h) {key : Bytes}
    {motive : ℕ → ℕ → TreeSlot → Prop}
    (hbottom : ∀ n slot page, routeAt (s.level h) key = some slot →
      s.pages slot.1 = some page → page.header.pageType ≠ pageTypeInternal → motive h (n + 1) slot)
    (hstep : ∀ i n slot page next, i < h →
      routeAt (s.level i) key = some slot → s.pages slot.1 = some page →
      InternalPage page → routeAt (s.level (i + 1)) key = some next →
      next.1 = childFor page key → motive (i + 1) n next →
      motive i (n + 1) slot)
    {i n : ℕ} {slot : TreeSlot} (hi : i ≤ h) (hn : h - i < n)
    (hroute : routeAt (s.level i) key = some slot) : motive i n slot := by
  obtain ⟨n, rfl⟩ : ∃ k, n = k + 1 := ⟨n - 1, by omega⟩
  induction m : h - i generalizing i n slot with
  | zero =>
    obtain rfl : i = h := by omega
    obtain ⟨page, hpage, htype⟩ := hs.bottom slot (mem_of_routeAt hroute)
    refine hbottom n slot page hroute hpage ?_
    rw [htype]
    decide
  | succ m ih =>
    have hlt : i < h := by omega
    obtain ⟨n, rfl⟩ : ∃ k, n = k + 1 := ⟨n - 1, by omega⟩
    obtain ⟨page, hpage, hinternal⟩ := hs.internal i hlt slot (mem_of_routeAt hroute)
    obtain ⟨next, hnext, hchild⟩ := hs.routeAt_succ hlt hroute hpage hinternal
    exact hstep i (n + 1) slot page next hlt hroute hpage hinternal hnext hchild
      (ih hlt hnext n (by omega) (by omega))

/-- `descend_path` from level `i` on: it changes nothing, and unless a page load
fails it records the routed page of every level. -/
theorem always_descendPathFrom (hs : Spine s h) {F : Faults} {T : StoreRel}
    [StoreLike F T] {key : Bytes} {i n : ℕ} (hi : i ≤ h)
    (hn : h - i < n) (hroute : routeAt (s.level i) key = some slot) :
    ∀ path : List UInt32, Always T (descendPathFrom key n path slot.1) s
      fun r s' => s' = s ∧ (r = none ∧ F.pages = true ∨ r = some (path ++
          (List.range' i (h - i + 1)).map (s.routeId key))) := by
  refine hs.route_induction ?_ ?_ hi hn hroute
  · intro n slot page hroute hpage hne path
    rw [descendPathFrom]
    refine always_bind.mpr (always_getPage_of_pages hpage ?_ ?_)
    · intro hF
      exact always_pure.mpr ⟨rfl, .inl ⟨rfl, hF⟩⟩
    · simp only [if_pos hne]
      refine always_bind.mpr (always_releasePage ?_)
      exact always_pure.mpr ⟨rfl, .inr (by simp [routeId_eq hroute])⟩
  · intro i n slot page next hlt hroute hpage hinternal hnext hchild ih path
    have hzero : next.1 ≠ 0 := hs.nonzero (i + 1) hlt next (mem_of_routeAt hnext)
    have hself : next.1 ≠ slot.1 := by
      intro heq
      refine hs.not_mem_ids_of_lt (Nat.lt_succ_self i) hlt
        (mem_map.mpr ⟨slot, mem_of_routeAt hroute, rfl⟩) ?_
      exact mem_map.mpr ⟨next, mem_of_routeAt hnext, heq⟩
    rw [descendPathFrom]
    refine always_bind.mpr (always_getPage_of_pages hpage ?_ ?_)
    · intro hF
      exact always_pure.mpr ⟨rfl, .inl ⟨rfl, hF⟩⟩
    · simp only [hinternal.type, ne_eq, not_true_eq_false, if_false]
      refine always_bind.mpr (always_releasePage ?_)
      rw [← hchild, if_neg (by simp [hzero, hself])]
      have hpath : path ++ (List.range' i (h - i + 1)).map (s.routeId key) = path ++ [slot.1] ++
            (List.range' (i + 1) (h - (i + 1) + 1)).map (s.routeId key) := by
        rw [show h - i + 1 = h - (i + 1) + 1 + 1 by omega,
          List.range'_succ (s := i), map_cons, routeId_eq hroute, append_assoc, singleton_append]
      rw [hpath]
      exact ih (path ++ [slot.1])

theorem always_descendPath (hs : Spine s h) {F : Faults} {T : StoreRel}
    [StoreLike F T] (key : Bytes) (hh : h < btreeMaxDepth) :
    Always T (descendPath key) s fun r s' => s' = s ∧ (r = none ∧ F.pages = true ∨
        r = some ((List.range' 0 (h + 1)).map (s.routeId key))) := by
  exact hs.always_descendPathFrom h.zero_le hh (s.routeAt_root key) []

end Spine

end Codo.Storage
