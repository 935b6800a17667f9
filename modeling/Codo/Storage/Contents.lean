import Codo.Storage.Cascade

/-!
# What a tree stores

The leaves of a tree, read from left to right, are one sorted list of pairs.
That list is the meaning of the tree: a lookup descends to the only leaf that
can hold the key, and the sibling links run through the leaves in its order.

`Tree s h L` is the invariant that survives every failure; `Linked s L`, the
agreement of the sibling links with the tree order, is kept apart because a
failed publication breaks it.
-/

namespace Codo.Storage

open Support Support.Levels List Option Function Store

variable {s : Store} {id : UInt32}

/-! ## A sorted list of pairs as a map -/

def lookup (ps : List KvPair) (key : Bytes) : Option Bytes :=
  (ps.find? fun p => decide (p.key = key)).map KvPair.value

section Lookup

variable {ps xs ys : List KvPair} {p : KvPair} {key : Bytes}

theorem lookup_eq_none_iff : lookup ps key = none ↔ ∀ p ∈ ps, p.key ≠ key := by
  simp [lookup]

theorem SortedPairs.eq_of_key_eq (h : SortedPairs ps) {q : KvPair}
    (hp : p ∈ ps) (hq : q ∈ ps) (hkey : p.key = q.key) : p = q := by
  have hnodup : (ps.map KvPair.key).Nodup := pairwise_map.mpr (h.imp fun hlt => hlt.ne)
  exact inj_on_of_nodup_map hnodup hp hq hkey

theorem SortedPairs.lookup_eq_some (h : SortedPairs ps) (hp : p ∈ ps) :
    lookup ps p.key = some p.value := by
  cases hfind : ps.find? fun q => decide (q.key = p.key) with
  | none =>
    rw [List.find?_eq_none] at hfind
    exact absurd (decide_eq_true rfl) (hfind p hp)
  | some q =>
    have hkey : q.key = p.key := by simpa using List.find?_some hfind
    have hq : q = p := h.eq_of_key_eq (mem_of_find?_eq_some hfind) hp hkey
    rw [lookup, hfind, map_some, hq]

theorem exists_of_lookup_eq_some {value : Bytes} (h : lookup ps key = some value) :
    ∃ p ∈ ps, p.key = key ∧ p.value = value := by
  rw [lookup, map_eq_some_iff] at h
  obtain ⟨p, hfind, hvalue⟩ := h
  exact ⟨p, mem_of_find?_eq_some hfind, by simpa using List.find?_some hfind, hvalue⟩

theorem SortedPairs.lookup_eq_some_iff (h : SortedPairs ps) {value : Bytes} :
    lookup ps key = some value ↔ ∃ p ∈ ps, p.key = key ∧ p.value = value := by
  constructor
  · exact exists_of_lookup_eq_some
  · rintro ⟨p, hp, rfl, rfl⟩
    exact h.lookup_eq_some hp

theorem lookup_append : lookup (xs ++ ys) key = (lookup xs key).or (lookup ys key) := by
  simp [lookup, List.find?_append, map_or]

theorem SortedPairs.insert (h : SortedPairs (xs ++ ys))
    (hxs : ∀ q ∈ xs, q.key < p.key) (hys : ∀ q ∈ ys, p.key < q.key) :
    SortedPairs (xs ++ p :: ys) := by
  rw [SortedPairs, pairwise_append] at h
  refine pairwise_append.mpr ⟨h.1, pairwise_cons.mpr ⟨hys, h.2.1⟩, ?_⟩
  intro x hx y hy
  rcases mem_cons.mp hy with rfl | hy
  · exact hxs x hx
  · exact h.2.2 x hx y hy

theorem lookup_eq_none_of_between (hxs : ∀ p ∈ xs, p.key < key)
    (hys : ∀ p ∈ ys, key < p.key) : lookup (xs ++ ys) key = none := by
  rw [lookup_eq_none_iff]
  intro p hp
  rcases mem_append.mp hp with hx | hy
  · exact (hxs p hx).ne
  · exact (hys p hy).ne'

theorem lookup_insert (hnew : ∀ q ∈ xs ++ ys, q.key ≠ p.key) :
    lookup (xs ++ p :: ys) = update (lookup (xs ++ ys)) p.key (some p.value) := by
  funext k
  have hxs : lookup xs p.key = none :=
    lookup_eq_none_iff.mpr fun q hq => hnew q (mem_append_left _ hq)
  by_cases hk : k = p.key
  · rw [hk, update_self, lookup_append, hxs, none_or]
    simp [lookup]
  · rw [update_of_ne hk, lookup_append, lookup_append]
    congr 1
    simp [lookup, Ne.symm hk]

theorem lookup_delete (h : SortedPairs (xs ++ p :: ys)) :
    lookup (xs ++ ys) = update (lookup (xs ++ p :: ys)) p.key none := by
  funext k
  by_cases hk : k = p.key
  · rw [hk, update_self, lookup_eq_none_iff]
    intro q hq
    rw [SortedPairs, pairwise_append, pairwise_cons] at h
    rcases mem_append.mp hq with hx | hy
    · exact (h.2.2 q hx p (by simp)).ne
    · exact (h.2.1.1 q hy).ne'
  · rw [update_of_ne hk, lookup_append, lookup_append]
    congr 1
    simp [lookup, Ne.symm hk]

end Lookup

/-! ## Looking into one leaf -/

variable {page : BtreePage}

theorem LeafPage.of_holds {ps : List KvPair} (h : Holds page ps)
    (htype : page.header.pageType = pageTypeLeaf) (hsorted : SortedPairs ps)
    (hlegal : ∀ p ∈ ps, p.LeafLegal) : LeafPage page := by
  have hpairs := h.pairs_eq
  refine ⟨htype, ?_, ?_, ?_⟩
  · rwa [hpairs]
  · rwa [hpairs]
  · rwa [hpairs]

/-- Searching a leaf either finds the entry of the key or the place where it
belongs. -/
theorem LeafPage.matchingEntry_cases (h : LeafPage page) (key : Bytes) :
    (∃ xs p ys offset, page.pairs = xs ++ p :: ys ∧ p.key = key ∧
        findKeyPosition page key = (xs.length : ℤ) ∧
        matchingEntry page (findKeyPosition page key) key = some offset ∧ PairAt page offset p) ∨
      ∃ xs ys, page.pairs = xs ++ ys ∧ findKeyPosition page key = (xs.length : ℤ) ∧
        (∀ p ∈ xs, p.key < key) ∧ (∀ p ∈ ys, key < p.key) ∧
        matchingEntry page (findKeyPosition page key) key = none := by
  obtain ⟨xs, ys, hsplit, hlen, hxs, hys⟩ := exists_split_lowerBound page.pairs key h.sorted
  have hpos : findKeyPosition page key = (xs.length : ℤ) := by
    rw [h.holds.findKeyPosition_eq h.sorted, hlen]
  have hholds : Holds page (xs ++ ys) := hsplit ▸ h.holds
  cases ys with
  | nil =>
    have hnone : getKvPair page (xs.length : ℤ) = none := by
      rw [getKvPair, hholds.keyCount, if_pos (.inr (by simp))]
    refine .inr ⟨xs, [], hsplit, hpos, hxs, by simp, ?_⟩
    rw [matchingEntry, hpos, hnone]
  | cons p ys =>
    have hget := hholds.getKvPair
    have hat := hholds.pairAt
    by_cases hkey : p.key = key
    · refine .inl ⟨xs, p, ys, totalSize xs, hsplit, hkey, hpos, ?_, hat⟩
      rw [matchingEntry, hpos, hget]
      simp [hat.kvKey, hkey, compareKeys_eq_zero_iff]
    · refine .inr ⟨xs, p :: ys, hsplit, hpos, hxs, ?_, ?_⟩
      · have hlt : key < p.key := lt_of_le_of_ne (hys p (by simp)) (Ne.symm hkey)
        have hsorted : SortedPairs (xs ++ p :: ys) := hsplit ▸ h.sorted
        rw [SortedPairs, pairwise_append, pairwise_cons] at hsorted
        intro q hq
        rcases mem_cons.mp hq with rfl | hq
        · exact hlt
        · exact hlt.trans (hsorted.2.1.1 q hq)
      · rw [matchingEntry, hpos, hget]
        simp [hat.kvKey, compareKeys_eq_zero_iff, Ne.symm hkey]

/-! ## The leaves of a tree -/

/-- The pairs stored in page `id`. -/
def Store.leafPairs (s : Store) (id : UInt32) : List KvPair :=
  match s.pages id with
  | some page => page.pairs
  | none => []

/-- The sibling link of page `id`. -/
def Store.nextId (s : Store) (id : UInt32) : UInt32 :=
  match s.pages id with
  | some page => page.header.nextPageId
  | none => 0

/-- The pairs of the leaves `L`, from left to right. -/
def Store.pairsOf (s : Store) (L : List (UInt32 × WithTop Bytes)) : List KvPair :=
  L.flatMap fun slot => s.leafPairs slot.1

/-- The first page of a list of leaves, `0` for none. -/
def firstId : List (UInt32 × WithTop Bytes) → UInt32
  | [] => 0
  | slot :: _ => slot.1

/-- The sibling links run through the leaves `L` and end with `0`. -/
def Linked (s : Store) : List (UInt32 × WithTop Bytes) → Prop
  | [] => True
  | slot :: L => s.nextId slot.1 = firstId L ∧ Linked s L

/-- A set of leaves that the sibling links do not leave. -/
structure LeafChain (s : Store) (C : Set UInt32) : Prop where
  owned : ∀ id ∈ C, s.Owned id
  leaf : ∀ id ∈ C, ∃ page, s.pages id = some page ∧ page.header.pageType = pageTypeLeaf
  next : ∀ id ∈ C, s.nextId id = 0 ∨ s.nextId id ∈ C
  notRoot : ∀ id ∈ C, s.nextId id ≠ rootPageId

/-- From the leaves `L` on, the sibling links stay within a set of leaves.
Unlike `Linked` this survives a failed publication. -/
def Enclosed (s : Store) (L : List (UInt32 × WithTop Bytes)) : Prop :=
  ∃ C : Set UInt32, LeafChain s C ∧ ∀ slot ∈ L, slot.1 ∈ C

/-- The leaves `L` are well formed, and every key is where a search for it
ends. -/
structure Leaves (s : Store) (L : List (UInt32 × WithTop Bytes)) : Prop where
  leaf : ∀ slot ∈ L, ∃ page, s.pages slot.1 = some page ∧ LeafPage page
  routed : ∀ slot ∈ L, ∀ p ∈ s.leafPairs slot.1, routeAt L p.key = some slot

theorem Store.leafPairs_eq (h : s.pages id = some page) : s.leafPairs id = page.pairs := by
  rw [Store.leafPairs, h]

theorem Store.nextId_eq (h : s.pages id = some page) : s.nextId id = page.header.nextPageId := by
  rw [Store.nextId, h]

theorem Store.leafPairs_congr {s' : Store} (h : s'.pages id = s.pages id) :
    s'.leafPairs id = s.leafPairs id := by
  rw [Store.leafPairs, Store.leafPairs, h]

theorem Store.nextId_congr {s' : Store} (h : s'.pages id = s.pages id) :
    s'.nextId id = s.nextId id := by
  rw [Store.nextId, Store.nextId, h]

variable {s' : Store} {L A B : Slots}

section Leaves

variable {L' : Slots}

@[simp] theorem Store.pairsOf_append : s.pairsOf (A ++ B) = s.pairsOf A ++ s.pairsOf B := by
  simp [Store.pairsOf]

@[simp] theorem Store.pairsOf_cons (slot : TreeSlot) :
    s.pairsOf (slot :: L) = s.leafPairs slot.1 ++ s.pairsOf L := by
  simp [Store.pairsOf]

theorem Store.pairsOf_congr (h : ∀ slot ∈ L, s'.pages slot.1 = s.pages slot.1) :
    s'.pairsOf L = s.pairsOf L := by
  refine flatMap_congr fun slot hslot => ?_
  exact leafPairs_congr (h slot hslot)

theorem Linked.congr (hlink : Linked s L)
    (h : ∀ slot ∈ L, s'.nextId slot.1 = s.nextId slot.1) : Linked s' L := by
  induction L with
  | nil => trivial
  | cons slot L ih =>
    obtain ⟨hhead, htail⟩ := hlink
    refine ⟨?_, ih htail fun t ht => h t (mem_cons_of_mem _ ht)⟩
    rw [h slot (by simp), hhead]

theorem Linked.of_append (hlink : Linked s (A ++ B)) : Linked s B := by
  induction A with
  | nil => exact hlink
  | cons slot A ih => exact ih hlink.2

/-- Cutting a leaf in two and linking the halves keeps the links in order. -/
theorem Linked.cut {n r : UInt32} {sep hi : WithTop Bytes} (hlink : Linked s (A ++ (n, hi) :: B))
    (hsame : ∀ slot ∈ A ++ B, s'.nextId slot.1 = s.nextId slot.1)
    (hn : s'.nextId n = r) (hr : s'.nextId r = s.nextId n) :
    Linked s' (A ++ (n, sep) :: (r, hi) :: B) := by
  induction A with
  | nil =>
    obtain ⟨hhead, htail⟩ := hlink
    refine ⟨hn, hr.trans hhead, ?_⟩
    exact Linked.congr htail fun t ht => hsame t ht
  | cons slot A ih =>
    obtain ⟨hhead, htail⟩ := hlink
    refine ⟨?_, ih htail fun t ht => hsame t (mem_cons_of_mem _ ht)⟩
    rw [hsame slot (by simp), hhead]
    cases A with
    | nil => rfl
    | cons a A => rfl

section

variable (howned : ∀ id, s.Owned id → s'.Owned id)
include howned

theorem LeafChain.transfer {C : Set UInt32} (h : LeafChain s C)
    (hpages : ∀ id ∈ C, s'.pages id = s.pages id) : LeafChain s' C := by
  constructor
  · intro id hid
    exact howned id (h.owned id hid)
  · intro id hid
    rw [hpages id hid]
    exact h.leaf id hid
  · intro id hid
    rw [nextId_congr (hpages id hid)]
    exact h.next id hid
  · intro id hid
    rw [nextId_congr (hpages id hid)]
    exact h.notRoot id hid

/-- Neither changes in pages other than leaves nor the loss of leaves let the
sibling links escape. -/
theorem Enclosed.transfer (h : Enclosed s L)
    (hpages : ∀ id page, s.Owned id → s.pages id = some page →
      page.header.pageType = pageTypeLeaf → s'.pages id = s.pages id)
    (hsub : ∀ slot ∈ L', ∃ slot' ∈ L, slot'.1 = slot.1) : Enclosed s' L' := by
  obtain ⟨C, hchain, hmem⟩ := h
  refine ⟨C, hchain.transfer howned ?_, ?_⟩
  · intro id hid
    obtain ⟨page, hpage, htype⟩ := hchain.leaf id hid
    exact hpages id page (hchain.owned id hid) hpage htype
  · intro slot hslot
    obtain ⟨slot', hslot', hid⟩ := hsub slot hslot
    rw [← hid]
    exact hmem slot' hslot'

theorem Enclosed.move {left : UInt32} {root moved : BtreePage} (h : Enclosed s [(rootPageId, ⊤)])
    (hother : ∀ id, s.Owned id → id ≠ rootPageId → s'.pages id = s.pages id)
    (hleft : s'.Owned left) (hroot : s.pages rootPageId = some root)
    (hmoved : s'.pages left = some moved) (htype : moved.header.pageType = pageTypeLeaf)
    (hnext : moved.header.nextPageId = root.header.nextPageId) : Enclosed s' [(left, ⊤)] := by
  obtain ⟨C, hchain, hmem⟩ := h
  have hrootC : rootPageId ∈ C := hmem _ (mem_singleton_self _)
  have hsame : ∀ id ∈ C, id ≠ rootPageId → s'.pages id = s.pages id :=
    fun id hid hne => hother id (hchain.owned id hid) hne
  -- Nothing links to the root, so the chain does without it.
  have hstays : ∀ id ∈ C, s.nextId id = 0 ∨ s.nextId id ∈ insert left (C \ {rootPageId}) := by
    intro id hid
    rcases hchain.next id hid with hzero | hnextC
    · exact .inl hzero
    · exact .inr (Set.mem_insert_of_mem _ ⟨hnextC, hchain.notRoot id hid⟩)
  have hnextLeft : s'.nextId left = s.nextId rootPageId := by
    rw [nextId_eq hmoved, nextId_eq hroot, hnext]
  refine ⟨insert left (C \ {rootPageId}), ⟨?_, ?_, ?_, ?_⟩, ?_⟩
  · rintro id (rfl | ⟨hid, -⟩)
    · exact hleft
    · exact howned id (hchain.owned id hid)
  · rintro id (rfl | ⟨hid, hne⟩)
    · exact ⟨moved, hmoved, htype⟩
    · rw [hsame id hid hne]
      exact hchain.leaf id hid
  · rintro id (rfl | ⟨hid, hne⟩)
    · rw [hnextLeft]
      exact hstays _ hrootC
    · rw [nextId_congr (hsame id hid hne)]
      exact hstays id hid
  · rintro id (rfl | ⟨hid, hne⟩)
    · rw [hnextLeft]
      exact hchain.notRoot _ hrootC
    · rw [nextId_congr (hsame id hid hne)]
      exact hchain.notRoot id hid
  · intro slot hslot
    rw [mem_singleton.mp hslot]
    exact Set.mem_insert _ _

/-- Cutting a leaf in two and linking the halves keeps the chain closed. -/
theorem Enclosed.cut {n r : UInt32} {sep hi : WithTop Bytes}
    (h : Enclosed s (A ++ (n, hi) :: B)) (hr : s'.Owned r)
    (hother : ∀ id, s.Owned id → id ≠ n → s'.pages id = s.pages id)
    {left right : BtreePage} (hleft : s'.pages n = some left) (hright : s'.pages r = some right)
    (hl : left.header.pageType = pageTypeLeaf)
    (hrt : right.header.pageType = pageTypeLeaf) (hroot : r ≠ rootPageId)
    (hln : left.header.nextPageId = r) (hrn : right.header.nextPageId = s.nextId n) :
    Enclosed s' (A ++ (n, sep) :: (r, hi) :: B) := by
  obtain ⟨C, hchain, hmem⟩ := h
  have hn : n ∈ C := hmem (n, hi) (by simp)
  have hsame : ∀ id ∈ C, id ≠ n → s'.pages id = s.pages id :=
    fun id hid hne => hother id (hchain.owned id hid) hne
  have hnextN : s'.nextId n = r := by rw [nextId_eq hleft, hln]
  have hnextR : s'.nextId r = s.nextId n := by rw [nextId_eq hright, hrn]
  refine ⟨insert r C, ⟨?_, ?_, ?_, ?_⟩, ?_⟩
  · rintro id (rfl | hid)
    · exact hr
    · exact howned id (hchain.owned id hid)
  · rintro id (rfl | hid)
    · exact ⟨right, hright, hrt⟩
    · by_cases hne : id = n
      · rw [hne]
        exact ⟨left, hleft, hl⟩
      · rw [hsame id hid hne]
        exact hchain.leaf id hid
  · rintro id (rfl | hid)
    · rw [hnextR]
      exact (hchain.next n hn).imp_right (Set.mem_insert_of_mem _)
    · by_cases hne : id = n
      · rw [hne, hnextN]
        exact .inr (Set.mem_insert r C)
      · rw [nextId_congr (hsame id hid hne)]
        exact (hchain.next id hid).imp_right (Set.mem_insert_of_mem _)
  · rintro id (rfl | hid)
    · rw [hnextR]
      exact hchain.notRoot n hn
    · by_cases hne : id = n
      · rw [hne, hnextN]
        exact hroot
      · rw [nextId_congr (hsame id hid hne)]
        exact hchain.notRoot id hid
  · intro slot hslot
    rcases mem_cut hslot with hsib | rfl | rfl
    · refine Set.mem_insert_of_mem _ (hmem slot ?_)
      rcases mem_append.mp hsib with hA | hB
      · exact mem_append_left _ hA
      · exact mem_append_right _ (mem_cons_of_mem _ hB)
    · exact Set.mem_insert_of_mem _ hn
    · exact Set.mem_insert r C

end

namespace Leaves

theorem transfer (h : Leaves s L)
    (hpages : ∀ slot ∈ L, s'.pages slot.1 = s.pages slot.1) : Leaves s' L := by
  constructor
  · intro slot hslot
    rw [hpages slot hslot]
    exact h.leaf slot hslot
  · intro slot hslot p hp
    rw [leafPairs_congr (hpages slot hslot)] at hp
    exact h.routed slot hslot p hp

/-- Dropping leaves and widening bounds leaves every remaining key where it
is looked for. -/
theorem coarsen (h : Leaves s L) (hasc : Ascending L)
    (hnodup : (L.map Prod.fst).Nodup) (hcoarse : Coarser L L') : Leaves s L' := by
  constructor
  · intro slot hslot
    obtain ⟨t, ht, hid⟩ := hcoarse.exists_mem hslot
    rw [← hid]
    exact h.leaf t ht
  · intro slot hslot p hp
    obtain ⟨t, ht, hid⟩ := hcoarse.exists_mem hslot
    rw [← hid] at hp
    have hmem : t.1 ∈ L'.map Prod.fst := by
      rw [hid]
      exact mem_map.mpr ⟨slot, hslot, rfl⟩
    obtain ⟨hi, hroute⟩ := hcoarse.routeAt hasc hnodup (h.routed t ht p hp) hmem
    rw [hroute]
    congr 1
    exact eq_of_nodup (hnodup.sublist hcoarse.sublist) (mem_of_routeAt hroute) hslot hid

theorem sorted (h : Leaves s L) (hasc : Ascending L) : SortedPairs (s.pairsOf L) := by
  refine pairwise_flatMap.mpr ⟨?_, ?_⟩
  · intro slot hslot
    obtain ⟨page, hpage, hleaf⟩ := h.leaf slot hslot
    rw [leafPairs_eq hpage]
    exact hleaf.sorted
  · refine hasc.imp_of_mem ?_
    intro slot slot' hslot hslot' hlt p hp q hq
    have hple := le_of_routeAt (h.routed slot hslot p hp)
    have hqlt : slot.2 < (q.key : WithTop Bytes) := by
      by_contra hle
      have hbound := bound_le_of_routeAt hasc (h.routed slot' hslot' q hq) hslot (not_lt.mp hle)
      exact absurd hlt (not_lt.mpr hbound)
    exact WithTop.coe_lt_coe.mp (lt_of_le_of_lt hple hqlt)

/-- A pair with the key that was looked up can only be in the leaf where the
search ends. -/
theorem mem_leafPairs (h : Leaves s L) {key : Bytes}
    {slot : TreeSlot} (hroute : routeAt L key = some slot)
    {p : KvPair} (hp : p ∈ s.pairsOf L) (hkey : p.key = key) : p ∈ s.leafPairs slot.1 := by
  obtain ⟨t, ht, hpt⟩ := mem_flatMap.mp hp
  have hpRoute := h.routed t ht p hpt
  rw [hkey, hroute] at hpRoute
  rw [some.inj hpRoute]
  exact hpt

end Leaves

end Leaves

/-! ## The tree invariant -/

/-- A tree of height `h` whose leaves are `L`. -/
structure Tree (s : Store) (h : ℕ) (L : List (UInt32 × WithTop Bytes)) : Prop where
  alloc : AllocOk s
  upper : Upper s h L
  fan : Fan s L 0
  leaves : Leaves s L

namespace Tree

variable {h : ℕ}
variable {slot : TreeSlot}

section

variable (ht : Tree s h L)
include ht

theorem ascending : Ascending L :=
  ht.fan.ascending

theorem nodup : (L.map Prod.fst).Nodup :=
  ht.fan.nodup

theorem spine : Spine s h :=
  ht.upper.spine ht.fan

theorem owned_root : s.Owned rootPageId := by
  have hroot : (rootPageId, ⊤) ∈ s.level 0 := by simp [Levels.level, below]
  rcases Nat.eq_zero_or_pos h with rfl | hpos
  · rw [ht.upper.level] at hroot
    exact ht.fan.owned 0 le_rfl _ hroot
  · exact ht.upper.owned 0 hpos _ hroot

theorem known_root : s.Known rootPageId := by
  have hroot : (rootPageId, ⊤) ∈ s.level 0 := by simp [Levels.level, below]
  rcases Nat.eq_zero_or_pos h with rfl | hpos
  · rw [ht.upper.level] at hroot
    obtain ⟨page, hpage, -⟩ := ht.leaves.leaf _ hroot
    exact ⟨page, hpage⟩
  · obtain ⟨page, hpage, -⟩ := ht.upper.internal 0 hpos _ hroot
    exact ⟨page, hpage⟩

theorem totalSize_le (hslot : slot ∈ L) : totalSize (s.leafPairs slot.1) ≤ btreePageCapacity := by
  obtain ⟨page, hpage, hleaf⟩ := ht.leaves.leaf slot hslot
  have hspace := hleaf.holds.freeSpace
  rw [leafPairs_eq hpage]
  omega

theorem sorted : SortedPairs (s.pairsOf L) :=
  ht.leaves.sorted ht.ascending

theorem height_lt : h < 9 := by
  rcases Nat.eq_zero_or_pos h with rfl | hpos
  · exact Nat.succ_pos 8
  · exact ht.upper.height_lt ht.alloc ht.fan hpos

theorem apart : Apart s h L 0 := by
  intro k hk slot hslot i hi slot' hslot' heq
  obtain rfl : i = 0 := Nat.le_zero.mp hi
  refine ht.spine.not_mem_ids_of_lt hk le_rfl (mem_map.mpr ⟨slot, hslot, rfl⟩) ?_
  refine mem_map.mpr ⟨slot', ?_, heq⟩
  show slot' ∈ s.level h
  rw [ht.upper.level]
  exact hslot'

/-- Every key has a leaf where a search for it ends. -/
theorem exists_route (key : Bytes) :
    ∃ slot page, routeAt L key = some slot ∧ s.routeId key h = slot.1 ∧
      s.pages slot.1 = some page ∧ LeafPage page := by
  have hasc : Ascending (s.level h) := ht.spine.ascending
  obtain ⟨slot, hslot⟩ : ∃ slot, routeAt (s.level h) key = some slot :=
    exists_routeAt_below hasc ⟨(rootPageId, ⊤), by simp [routeAt]⟩
  have hid := routeId_eq hslot
  rw [ht.upper.level] at hslot
  obtain ⟨page, hpage, hleaf⟩ := ht.leaves.leaf slot (mem_of_routeAt hslot)
  exact ⟨slot, page, hslot, hid, hpage, hleaf⟩

end

theorem reshape (halloc : AllocOk s') {j j' : ℕ} (hupper : Upper s' j' L)
    (hfan : Fan s L 0) (hapart : Apart s j L 0) (hleaves : Leaves s L)
    (hre : Reshaped s s' j j') : Tree s' j' L :=
  ⟨halloc, hupper, hfan.reshape hapart hre, hleaves.transfer fun _ hslot =>
    hfan.pages_eq hapart hre le_rfl hslot⟩

theorem putLeaf (ht : Tree s h L) (hslot : slot ∈ L) (hleaf : LeafPage page)
    (hrouted : ∀ p ∈ page.pairs, routeAt L p.key = some slot) : Tree (s.put slot.1 page) h L := by
  have hup : ∀ k, k < h → ∀ t ∈ s.level k, (s.put slot.1 page).pages t.1 = s.pages t.1 := by
    intro k hk t htk
    exact s.put_pages_of_ne page (ht.apart k hk t htk 0 le_rfl slot hslot).symm
  have howned : ∀ id, s.Owned id → (s.put slot.1 page).Owned id :=
    fun id hid => ⟨hid.nonzero, hid.lt, hid.notFree⟩
  refine ⟨ht.alloc.put _ _, ht.upper.transfer hup howned, ?_, ?_, ?_⟩
  · refine ⟨fun i hi => absurd hi (Nat.not_lt_zero i), ?_, ht.fan.ascending, ht.fan.nodup, ?_⟩
    · intro t htL
      by_cases hid : t.1 = slot.1
      · rw [hid]
        exact ⟨page, s.put_pages_self _ _, hleaf.type⟩
      · rw [s.put_pages_of_ne page hid]
        exact ht.fan.bottom t htL
    · intro i hi t htL
      obtain rfl : i = 0 := Nat.le_zero.mp hi
      exact howned _ (ht.fan.owned 0 le_rfl t htL)
  · intro t htL
    by_cases hid : t.1 = slot.1
    · rw [hid]
      exact ⟨page, s.put_pages_self _ _, hleaf⟩
    · rw [s.put_pages_of_ne page hid]
      exact ht.leaves.leaf t htL
  · intro t htL p hp
    by_cases hid : t.1 = slot.1
    · rw [eq_of_nodup ht.nodup htL hslot hid] at hp ⊢
      rw [leafPairs_eq (s.put_pages_self _ _)] at hp
      exact hrouted p hp
    · rw [leafPairs_congr (s.put_pages_of_ne page hid)] at hp
      exact ht.leaves.routed t htL p hp

theorem linked_putLeaf {page' : BtreePage} (hlink : Linked s L) (hpage : s.pages slot.1 = some page)
    (hnext : page'.header.nextPageId = page.header.nextPageId) : Linked (s.put slot.1 page') L := by
  refine hlink.congr ?_
  intro t _
  by_cases hid : t.1 = slot.1
  · rw [hid, nextId_eq (s.put_pages_self _ _), hnext, nextId_eq hpage]
  · exact nextId_congr (s.put_pages_of_ne page' hid)

theorem enclosed_putLeaf {page' : BtreePage} (henclosed : Enclosed s L)
    (hpage : s.pages slot.1 = some page) (hleaf : LeafPage page')
    (hnext : page'.header.nextPageId = page.header.nextPageId) :
    Enclosed (s.put slot.1 page') L := by
  obtain ⟨C, hchain, hmem⟩ := henclosed
  have hlink : ∀ id, (s.put slot.1 page').nextId id = s.nextId id := by
    intro id
    by_cases hid : id = slot.1
    · rw [hid, nextId_eq (s.put_pages_self _ _), hnext, nextId_eq hpage]
    · exact nextId_congr (s.put_pages_of_ne page' hid)
  refine ⟨C, ⟨?_, ?_, ?_, ?_⟩, hmem⟩
  · intro id hid
    have hown := hchain.owned id hid
    exact ⟨hown.nonzero, hown.lt, hown.notFree⟩
  · intro id hid
    by_cases hslot : id = slot.1
    · rw [hslot]
      exact ⟨page', s.put_pages_self _ _, hleaf.type⟩
    · rw [s.put_pages_of_ne page' hslot]
      exact hchain.leaf id hid
  · intro id hid
    rw [hlink]
    exact hchain.next id hid
  · intro id hid
    rw [hlink]
    exact hchain.notRoot id hid

/-- A rework of the levels above the leaves leaves the sibling links alone. -/
theorem enclosed_reshape {L' K : Slots} {j j' : ℕ}
    (henclosed : Enclosed s L) (hupper : Upper s j K) (hre : Reshaped s s' j j')
    (hsub : ∀ slot ∈ L', ∃ slot' ∈ L, slot'.1 = slot.1) : Enclosed s' L' := by
  refine henclosed.transfer hre.owned ?_ hsub
  intro id page hown hpage htype
  apply hre.pages id hown
  rintro k hk slot hslot rfl
  obtain ⟨hinternal, -⟩ := of_pages hpage (hupper.internal k hk slot hslot)
  rw [hinternal.type] at htype
  exact absurd htype (by decide)

end Tree

end Codo.Storage
