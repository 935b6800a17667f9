import Codo.Storage.Atomicity
import Mathlib.Logic.Relation

/-!
# The shape of the page graph

The pages reached from the root form a tree with all leaves on one level, the
keys of every page lie in the interval its ancestors assign to it, the byte
accounts are right and the sibling links run through the leaves in order.

A run keeps this shape as long as no insert runs out of page ids after it has
carved its leaf.
-/

namespace Codo.Storage

open Support Support.Levels Program Store List

/-- The ids of the pages on levels `0` to `h`, once for every pointer that
leads to them. -/
def Store.reached (s : Store) (h : ℕ) : List UInt32 :=
  (List.range (h + 1)).flatMap fun i => (s.level i).map Prod.fst

/-- The page graph from the root is a tree of height `h`. -/
structure SoundAt (s : Store) (h : ℕ) : Prop where
  /-- No page id is `0`, free or beyond the allocator's bound. -/
  owned : ∀ i, i ≤ h → ∀ slot ∈ s.level i, s.Owned slot.1
  /-- Every page is reached by one pointer. -/
  once : (s.reached h).Nodup
  internal : ∀ i, i < h → ∀ slot ∈ s.level i, ∃ page, s.pages slot.1 = some page ∧
      page.header.pageType = pageTypeInternal
  leaf : ∀ slot ∈ s.level h, ∃ page, s.pages slot.1 = some page ∧
    page.header.pageType = pageTypeLeaf
  /-- Keys increase, and a descent to a key of a page passes that page. -/
  ordered : ∀ i, i ≤ h → ∀ slot ∈ s.level i, ∀ page, s.pages slot.1 = some page →
      page.pairs.Pairwise (fun p q => compareKeys p.key q.key < 0) ∧
      ∀ p ∈ page.pairs, routeAt (s.level i) p.key = some slot
  /-- The page's data are its pairs, counted in `key_count` and deducted from
  `free_space`. -/
  bytes : ∀ i, i ≤ h → ∀ slot ∈ s.level i, ∀ page,
    s.pages slot.1 = some page → Holds page page.pairs
  /-- The sibling links run through the leaves and end with `0`. -/
  chain : Linked s (s.level h)

/-- The page graph from the root is a tree in order. -/
def Sound (s : Store) : Prop :=
  ∃ h, SoundAt s h

section Shape

variable {s : Store} {h : ℕ} {L : Slots}

/-- A separator lies in the interval of the page that holds it. -/
theorem routeAt_of_mem_page {i : ℕ} (hasc : Ascending (s.level (i + 1)))
    {slot : TreeSlot} (hslot : slot ∈ s.level i)
    {page : BtreePage} (hpage : s.pages slot.1 = some page) {p : KvPair}
    (hp : p ∈ page.pairs) : routeAt (s.level i) p.key = some slot := by
  obtain ⟨A, B, hlevel⟩ := append_of_mem hslot
  have hchildren : s.level (i + 1) = expand s.branch A ++
      (page.branch.slots slot.2 ++ expand s.branch B) := by
    show expand s.branch (s.level i) = _
    rw [hlevel, expand_append, expand_cons, branch_eq hpage]
  rw [hchildren, Ascending, pairwise_append, pairwise_append,
    BtreePage.slots_branch, pairwise_append] at hasc
  obtain ⟨-, ⟨⟨-, -, hlast⟩, -, -⟩, hbefore⟩ := hasc
  have hmem : p.slot ∈ page.pairs.map KvPair.slot := mem_map.mpr ⟨p, hp, rfl⟩
  rw [hlevel]
  apply routeAt_append
  · intro t htA
    exact hbefore _ (last_mem_expand htA) p.slot (by simp only [mem_append, hmem, true_or])
  · exact (hlast _ hmem (page.header.nextPageId, slot.2) (by simp)).le

theorem Tree.nodup_reached (ht : Tree s h L) : (s.reached h).Nodup := by
  have hlast : ((s.level h).map Prod.fst).Nodup := by
    rw [ht.upper.level]
    exact ht.nodup
  rw [Store.reached, nodup_flatMap]
  constructor
  · intro i hi
    exact nodup_below (Nat.lt_succ_iff.mp (mem_range.mp hi)) hlast
  · refine .imp_of_mem ?_ pairwise_lt_range
    intro i j hi hj hlt id hidI hidJ
    exact ht.spine.not_mem_ids_of_lt hlt (Nat.lt_succ_iff.mp (mem_range.mp hj)) hidI hidJ

theorem Tree.soundAt (ht : Tree s h L) (hlink : Linked s L) : SoundAt s h := by
  have hinternal : ∀ i, i < h → ∀ slot ∈ s.level i, ∃ page,
      s.pages slot.1 = some page ∧ InternalPage page := ht.spine.internal
  have hleaf : ∀ slot ∈ s.level h, ∃ page, s.pages slot.1 = some page ∧ LeafPage page := by
    rw [ht.upper.level]
    exact ht.leaves.leaf
  have hroutes : ∀ slot ∈ s.level h, ∀ p ∈ s.leafPairs slot.1,
      routeAt (s.level h) p.key = some slot := by
    rw [ht.upper.level]
    exact ht.leaves.routed
  have hsorted : ∀ ps : List KvPair, SortedPairs ps →
      ps.Pairwise (fun p q => compareKeys p.key q.key < 0) := by
    intro ps hps
    refine hps.imp ?_
    intro p q hlt
    exact (compareKeys_neg_iff _ _).mpr hlt
  constructor
  · intro i hi slot hslot
    rcases Nat.lt_or_eq_of_le hi with hlt | rfl
    · exact ht.upper.owned i hlt slot hslot
    · rw [ht.upper.level] at hslot
      exact ht.fan.owned 0 le_rfl slot hslot
  · exact ht.nodup_reached
  · intro i hi slot hslot
    obtain ⟨page, hpage, hpi⟩ := hinternal i hi slot hslot
    exact ⟨page, hpage, hpi.type⟩
  · exact ht.spine.bottom
  · intro i hi slot hslot page hpage
    rcases Nat.lt_or_eq_of_le hi with hlt | rfl
    · have hpi := of_pages hpage (hinternal i hlt slot hslot)
      have hasc : Ascending (s.level (i + 1)) := ascending_below hlt ht.spine.ascending
      exact ⟨hsorted _ hpi.sorted, fun p hp => routeAt_of_mem_page hasc hslot hpage hp⟩
    · have hpl := of_pages hpage (hleaf slot hslot)
      refine ⟨hsorted _ hpl.sorted, fun p hp => hroutes slot hslot p ?_⟩
      rw [leafPairs_eq hpage]
      exact hp
  · intro i hi slot hslot page hpage
    rcases Nat.lt_or_eq_of_le hi with hlt | rfl
    · have hpi := of_pages hpage (hinternal i hlt slot hslot)
      exact hpi.holds
    · have hpl := of_pages hpage (hleaf slot hslot)
      exact hpl.holds
  · rw [ht.upper.level]
    exact hlink

/-- The height of a tree can be read off the page types. -/
theorem Tree.height_eq (ht : Tree s h L) {h' : ℕ} (hs : SoundAt s h') : h' = h := by
  have hfirst : ∀ i, ∃ slot, slot ∈ s.level i := by
    intro i
    induction i with
    | zero => exact ⟨(rootPageId, ⊤), by simp [Levels.level, below]⟩
    | succ i ih =>
      obtain ⟨slot, hslot⟩ := ih
      exact ⟨_, last_mem_expand hslot⟩
  rcases Nat.lt_trichotomy h' h with hlt | rfl | hlt
  · obtain ⟨slot, hslot⟩ := hfirst h'
    obtain ⟨page, hpage, hleaf⟩ := hs.leaf slot hslot
    have hinternal := of_pages hpage (ht.spine.internal h' hlt slot hslot)
    rw [hinternal.type] at hleaf
    exact absurd hleaf (by decide)
  · rfl
  · obtain ⟨slot, hslot⟩ := hfirst h
    obtain ⟨page, hpage, hleaf⟩ := ht.spine.bottom slot hslot
    have hinternal := of_pages hpage (hs.internal h hlt slot hslot)
    rw [hinternal] at hleaf
    exact absurd hleaf (by decide)

/-- A tree whose links are out of order does not have the right shape. -/
theorem Tree.not_sound (ht : Tree s h L) (hlink : ¬ Linked s L) : ¬ Sound s := by
  rintro ⟨h', hs⟩
  obtain rfl := ht.height_eq hs
  apply hlink
  rw [← ht.upper.level]
  exact hs.chain

end Shape

/-- One call, made in a state that allows it. -/
def CallStep (F : Faults) (rounds : ℕ) (ok : Store → DbOp → Prop) (s s' : Store) : Prop :=
  ∃ op reply, ok s op ∧ Outcome (pageStep F) (op.program rounds) s reply s'

/-- `s'` is reached from `s` by calls that are each allowed when they are
made. -/
abbrev Runs (F : Faults) (rounds : ℕ) (ok : Store → DbOp → Prop) : Store → Store → Prop :=
  Relation.ReflTransGen (CallStep F rounds ok)

/-- An insert is safe, or there are ids for every page it could ask for. -/
def EnoughIds (s : Store) : DbOp → Prop
  | .insert _ key value => InsertSafe s key value ∨ 40 ≤ s.idsLeft
  | .search _ _ _ => True
  | .delete _ _ => True

/-- A call with enough ids keeps the tree and its links. -/
theorem Tree.always_enoughIds {s : Store} {h : ℕ} {L : Slots} (ht : Tree s h L) (hlink : Linked s L)
    {rounds : ℕ} (hrounds : 9 ≤ rounds) {op : DbOp} (hids : EnoughIds s op) :
    Always (pageStep Faults.none) (op.program rounds) s fun _ s' =>
      ∃ h' L', Tree s' h' L' ∧ Linked s' L' := by
  have hlt : h < rounds := ht.height_lt.trans_le hrounds
  cases op with
  | insert txnId key value =>
    intro reply s' hrun
    rcases ht.always_insert rounds txnId key value reply s' hrun with
      ⟨-, -, -, h', L', ht', hlink', -⟩ | ⟨hreply, hstarved, -⟩
    · exact ⟨h', L', ht', hlink' hlink⟩
    · rcases hids with hsafe | hmany
      · obtain ⟨rc, s₁, hinsert, rfl, rfl⟩ := outcome_bind.mp hrun
        rcases ht.always_dbInsert_safe txnId hsafe rc _ hinsert with
          rfl | ⟨h', L', ht', hkept⟩
        · simp [DbOp.refusal] at hreply
        · exact ⟨h', L', ht', hkept.linked hlink⟩
      · exact absurd hmany (not_le.mpr hstarved.lt)
  | search txnId key capacity =>
    rw [DbOp.program]
    refine always_bind.mpr ?_
    refine (ht.always_dbSearch (isSome_activeHandle txnId) key capacity hlt).mono ?_
    rintro r s' ⟨rfl, -⟩
    exact always_pure.mpr ⟨h, L, ht, hlink⟩
  | delete txnId key =>
    rw [DbOp.program]
    refine always_bind.mpr ?_
    refine (ht.always_dbDelete (isSome_activeHandle txnId) key hlt).mono ?_
    rintro r s' (⟨-, rfl, -⟩ | ⟨-, slot, xs, p, ys, -, -, hw⟩)
    · exact always_pure.mpr ⟨h, L, ht, hlink⟩
    · exact always_pure.mpr ⟨h, L, hw.tree, hw.linked hlink⟩

/-- In every run on a fresh engine whose inserts are each safe or find enough
ids left, the page graph is a tree in order after every call. -/
theorem runs_sound {rounds : ℕ} (hrounds : 9 ≤ rounds) (lsn : UInt64)
    (checksum : UInt32) {s : Store}
    (hrun : Runs Faults.none rounds EnoughIds (Store.fresh lsn checksum) s) :
    Sound s := by
  have htree : ∃ h L, Tree s h L ∧ Linked s L := by
    induction hrun with
    | refl => exact ⟨0, rootSlots, tree_fresh lsn checksum, linked_fresh lsn checksum⟩
    | tail _ hstep ih =>
      obtain ⟨h, L, ht, hlink⟩ := ih
      obtain ⟨op, reply, hids, hcall⟩ := hstep
      exact ht.always_enoughIds hlink hrounds hids reply _ hcall
  obtain ⟨h, L, ht, hlink⟩ := htree
  exact ⟨h, ht.soundAt hlink⟩

theorem runs_sound_one_insert :
    ∃ s, CallStep Faults.none 9 EnoughIds (Store.fresh 0 0) s ∧ Sound s := by
  obtain ⟨reply, s, hcall⟩ := exists_outcome
    (exists_pageStep Faults.none) ((DbOp.insert 1 [7] [1]).program 9) (Store.fresh 0 0)
  have hids : EnoughIds (Store.fresh 0 0) (.insert 1 [7] [1]) := by
    refine .inr ?_
    rw [fresh_idsLeft]
    decide
  have hstep : CallStep Faults.none 9 EnoughIds (Store.fresh 0 0) s := ⟨_, reply, hids, hcall⟩
  exact ⟨s, hstep, runs_sound (le_refl 9) 0 0 (.single hstep)⟩

end Codo.Storage
