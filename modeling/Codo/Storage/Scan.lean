import Codo.Storage.DbRun

/-!
# Scans

`scan_range` descends to the leaf the search key routes to and then follows
the sibling links, stopping at the first key that does not match.  That finds
every match because the links run in tree order, the keys increase along them,
and the keys starting with `p` are a stretch of the keys from `p` on.
-/

namespace Codo.Storage

open Support Support.Levels Program List Function Store

variable {pfx : Bytes}

/-! ## Keys that start with a given string -/

/-- The test of `scan_range`: the key starts with `pfx`. -/
def startsWith (pfx key : Bytes) : Bool :=
  pfx.isPrefixOf key

theorem startsWith_iff {key : Bytes} : startsWith pfx key = true ↔ ∃ rest, key = pfx ++ rest := by
  rw [startsWith, isPrefixOf_iff_prefix]
  constructor
  · rintro ⟨rest, h⟩
    exact ⟨rest, h.symm⟩
  · rintro ⟨rest, h⟩
    exact ⟨rest, h.symm⟩

theorem memcmp_eq_zero_iff {a b : Bytes} (h : a.length = b.length) : memcmp a b = 0 ↔ a = b := by
  rw [← compareKeys_eq_zero_iff, compareKeys_eq]
  by_cases hzero : memcmp a b = 0
  · simp [hzero, h]
  · simp [hzero]

/-- The guard of the inner loop rejects exactly the keys that do not start
with `pfx`. -/
theorem scan_guard_iff (pfx key : Bytes) :
    (0 < pfx.length ∧ (key.length < pfx.length ∨
      memcmp (key.take pfx.length) pfx ≠ 0)) ↔ startsWith pfx key = false := by
  rw [← Bool.not_eq_true, startsWith_iff, ← not_iff_not, not_not]
  constructor
  · intro hpass
    by_cases hlen : pfx.length ≤ key.length
    · have htake : key.take pfx.length = pfx := by
        by_cases hpos : 0 < pfx.length
        · by_contra hne
          have hsame : (key.take pfx.length).length = pfx.length := by
            rw [length_take, Nat.min_eq_left hlen]
          exact hpass ⟨hpos, .inr fun hzero => hne ((memcmp_eq_zero_iff hsame).mp hzero)⟩
        · have hnil : pfx = [] := length_eq_zero_iff.mp (by omega)
          rw [hnil]
          rfl
      refine ⟨key.drop pfx.length, ?_⟩
      calc
        key = key.take pfx.length ++ key.drop pfx.length := (take_append_drop _ _).symm
        _ = pfx ++ key.drop pfx.length := by rw [htake]
    · exact absurd ⟨by omega, .inl (not_le.mp hlen)⟩ hpass
  · rintro ⟨rest, rfl⟩ ⟨-, hshort | hdiffer⟩
    · rw [length_append] at hshort
      omega
    · rw [take_left] at hdiffer
      exact hdiffer ((memcmp_eq_zero_iff rfl).mpr rfl)

theorem le_of_startsWith {key : Bytes} (h : startsWith pfx key = true) : pfx ≤ key := by
  obtain ⟨rest, rfl⟩ := startsWith_iff.mp h
  apply not_lt.mp
  induction pfx with
  | nil => exact not_lt_nil rest
  | cons a pfx ih =>
    rw [cons_append, cons_lt_cons_iff]
    rintro (hlt | ⟨-, hlt⟩)
    · exact lt_irrefl a hlt
    · exact ih (startsWith_iff.mpr ⟨rest, rfl⟩) hlt

/-- Between `pfx` and a key starting with it, every key starts with it. -/
theorem startsWith_of_between {a b : Bytes} (hpfx : pfx ≤ a) (hab : a ≤ b)
    (hb : startsWith pfx b = true) : startsWith pfx a = true := by
  obtain ⟨rest, rfl⟩ := startsWith_iff.mp hb
  clear hb
  induction pfx generalizing a with
  | nil => exact startsWith_iff.mpr ⟨a, rfl⟩
  | cons x pfx ih =>
    cases a with
    | nil => exact absurd (nil_lt_cons x pfx) (not_lt.mpr hpfx)
    | cons y a =>
      have hlow := not_lt.mpr hpfx
      have hhigh := not_lt.mpr hab
      rw [cons_lt_cons_iff, not_or] at hlow
      rw [cons_append, cons_lt_cons_iff, not_or] at hhigh
      obtain rfl : x = y := le_antisymm (not_lt.mp hlow.1) (not_lt.mp hhigh.1)
      have hrest : startsWith pfx a = true := by
        apply ih
        · exact not_lt.mp fun hlt => hlow.2 ⟨rfl, hlt⟩
        · exact not_lt.mp fun hlt => hhigh.2 ⟨rfl, hlt⟩
      obtain ⟨tail, rfl⟩ := startsWith_iff.mp hrest
      exact startsWith_iff.mpr ⟨tail, rfl⟩

/-- The pairs whose keys start with `pfx`. -/
def matching (pfx : Bytes) (ps : List KvPair) : List KvPair :=
  ps.filter fun p => startsWith pfx p.key

/-- In a sorted list that starts at `pfx`, the matches come first. -/
theorem SortedPairs.takeWhile_eq_matching {ps : List KvPair}
    (h : SortedPairs ps) (hlow : ∀ p ∈ ps, pfx ≤ p.key) :
    ps.takeWhile (fun p => startsWith pfx p.key) = matching pfx ps := by
  induction ps with
  | nil => rfl
  | cons p ps ih =>
    obtain ⟨hhead, htail⟩ := pairwise_cons.mp h
    have hrest := ih htail fun q hq => hlow q (mem_cons_of_mem _ hq)
    by_cases hp : startsWith pfx p.key = true
    · simp only [matching, takeWhile_cons, filter_cons, hp, if_true]
      rw [hrest, matching]
    · simp only [matching, takeWhile_cons, filter_cons, hp, Bool.false_eq_true, if_false]
      rw [eq_comm, filter_eq_nil_iff]
      intro q hq hmatch
      exact hp (startsWith_of_between (hlow p (by simp)) (hhead q hq).le hmatch)

theorem matching_eq_nil {ps : List KvPair} (h : ∀ p ∈ ps, p.key < pfx) : matching pfx ps = [] := by
  rw [matching, filter_eq_nil_iff]
  intro p hp hmatch
  exact absurd (h p hp) (not_lt.mpr (le_of_startsWith hmatch))

section Scan

variable {κ : Type} {callback : Bytes → Bytes → κ → ℤ × κ} {pfx : Bytes}
variable {s : Store} {F : Faults} {h : ℕ} {L : Slots}

/-- The context after the callback has seen the pairs `ps`. -/
def feed (callback : Bytes → Bytes → κ → ℤ × κ) (ctx : κ) (ps : List KvPair) : κ :=
  ps.foldl (fun ctx p => (callback p.key p.value ctx).2) ctx

theorem feed_append (ctx : κ) (xs ys : List KvPair) :
    feed callback ctx (xs ++ ys) = feed callback (feed callback ctx xs) ys := by
  simp [feed]

/-- The pass over the rest `ys` of a leaf with a callback that never stops. -/
theorem scanPage_eq (hgo : ∀ k v ctx, (callback k v ctx).1 = 0)
    {page : BtreePage} (ys : List KvPair) :
    ∀ (xs : List KvPair) (ctx : κ), Holds page (xs ++ ys) →
      scanPage page pfx callback ys.length (xs.length : ℤ) ctx =
        if ∀ p ∈ ys, startsWith pfx p.key = true then
          .next (feed callback ctx ys)
        else
          .stop (feed callback ctx (ys.takeWhile fun p => startsWith pfx p.key)) := by
  induction ys with
  | nil =>
    intro xs ctx _
    simp [scanPage, feed]
  | cons p ys ih =>
    intro xs ctx hholds
    have hget := hholds.getKvPair
    have hat := hholds.pairAt
    rw [length_cons, scanPage, hget]
    simp only [hat.kvKeyLength, hat.kvKey, hat.kvValue]
    by_cases hp : startsWith pfx p.key = true
    · have hguard : ¬ (0 < pfx.length ∧ (p.key.length < pfx.length ∨
          memcmp (p.key.take pfx.length) pfx ≠ 0)) := by
        rw [scan_guard_iff, hp]
        decide
      have hholds' : Holds page ((xs ++ [p]) ++ ys) := by simpa using hholds
      have hrest := ih (xs ++ [p]) (callback p.key p.value ctx).2 hholds'
      have hnext : ((xs ++ [p]).length : ℤ) = (xs.length : ℤ) + 1 := by simp
      rw [hnext] at hrest
      rw [if_neg hguard, hgo, if_neg (by decide), hrest]
      simp [hp, feed]
    · have hguard : 0 < pfx.length ∧ (p.key.length < pfx.length ∨
          memcmp (p.key.take pfx.length) pfx ≠ 0) := by
        rw [scan_guard_iff]
        exact Bool.not_eq_true _ ▸ hp
      rw [if_pos hguard]
      simp [hp, feed]

/-! ## The walk along the leaves -/

/-- The leaf walk from the rest `ys` of a leaf, with the leaves `B` to its
right, by induction on `B`. -/
theorem always_scanLeaves (hgo : ∀ k v ctx, (callback k v ctx).1 = 0) (B : Slots) :
    ∀ (rounds : ℕ) (slot : TreeSlot) (page : BtreePage)
      (xs ys : List KvPair) (ctx : κ), B.length < rounds →
      s.pages slot.1 = some page → Holds page (xs ++ ys) →
      (∀ t ∈ B, t.1 ≠ 0 ∧ ∃ page, s.pages t.1 = some page ∧ LeafPage page) → Linked s (slot :: B) →
      Always (pageStep F) (scanLeaves pfx callback rounds slot.1 page (xs.length : ℤ) ctx) s
        fun r s' => s' = s ∧ (F.pages = true ∨ r = some (0, feed callback ctx
            ((ys ++ s.pairsOf B).takeWhile fun p => startsWith pfx p.key))) := by
  induction B with
  | nil =>
    intro rounds slot page xs ys ctx hrounds hpage hholds _ hlink
    obtain ⟨rounds, rfl⟩ : ∃ k, rounds = k + 1 := ⟨rounds - 1, by simp at hrounds; omega⟩
    have hcount : ((page.keyCount : ℤ) - xs.length).toNat = ys.length := by
      rw [hholds.keyCount, length_append]
      omega
    have hnext : page.header.nextPageId = 0 := by
      rw [← nextId_eq hpage]
      exact hlink.1
    rw [scanLeaves, hcount, scanPage_eq hgo ys xs ctx hholds]
    by_cases hall : ∀ p ∈ ys, startsWith pfx p.key = true
    · rw [if_pos hall]
      refine always_bind.mpr (always_releasePage ?_)
      rw [if_pos hnext]
      refine always_pure.mpr ⟨rfl, .inr ?_⟩
      have htake : ys.takeWhile (fun p => startsWith pfx p.key) = ys :=
        takeWhile_eq_self_iff.mpr hall
      simp [Store.pairsOf, htake]
    · rw [if_neg hall]
      refine always_bind.mpr (always_releasePage ?_)
      refine always_pure.mpr ⟨rfl, .inr ?_⟩
      simp [Store.pairsOf]
  | cons t B ih =>
    intro rounds slot page xs ys ctx hrounds hpage hholds hleaves hlink
    obtain ⟨rounds, rfl⟩ : ∃ k, rounds = k + 1 := ⟨rounds - 1, by simp at hrounds; omega⟩
    rw [length_cons] at hrounds
    have hcount : ((page.keyCount : ℤ) - xs.length).toNat = ys.length := by
      rw [hholds.keyCount, length_append]
      omega
    have hnext : page.header.nextPageId = t.1 := by
      rw [← nextId_eq hpage]
      exact hlink.1
    obtain ⟨hnonzero, next, hnextPage, hnextLeaf⟩ := hleaves t (by simp)
    rw [scanLeaves, hcount, scanPage_eq hgo ys xs ctx hholds]
    by_cases hall : ∀ p ∈ ys, startsWith pfx p.key = true
    · rw [if_pos hall]
      refine always_bind.mpr (always_releasePage ?_)
      rw [hnext, if_neg hnonzero]
      refine always_bind.mpr (always_getPage_of_pages hnextPage ?_ ?_)
      · intro hF
        exact always_pure.mpr ⟨rfl, .inl hF⟩
      · have hrest := ih rounds t next [] next.pairs (feed callback ctx ys)
          (by omega) hnextPage (by simpa using hnextLeaf.holds)
          (fun u hu => hleaves u (mem_cons_of_mem _ hu)) hlink.2
        refine hrest.mono ?_
        rintro r s' ⟨rfl, hF | rfl⟩
        · exact ⟨rfl, .inl hF⟩
        · refine ⟨rfl, .inr ?_⟩
          rw [pairsOf_cons, leafPairs_eq hnextPage, takeWhile_append_of_pos hall, feed_append]
    · rw [if_neg hall]
      refine always_bind.mpr (always_releasePage ?_)
      refine always_pure.mpr ⟨rfl, .inr ?_⟩
      have hshort : ¬ (ys.takeWhile fun p => startsWith pfx p.key).length = ys.length := by
        intro heq
        apply hall
        have hself := List.takeWhile_prefix (fun p : KvPair => startsWith pfx p.key) (l := ys)
        exact takeWhile_eq_self_iff.mp (hself.eq_of_length heq)
      rw [takeWhile_append, if_neg hshort]

/-- Around the place where a descent to `key` ends, the pairs of the tree are
below `key` on the left and not below it on the right. -/
theorem Tree.exists_split_at (ht : Tree s h L) {key : Bytes} {slot : TreeSlot}
    (hroute : routeAt L key = some slot) {page : BtreePage}
    (hpage : s.pages slot.1 = some page) (hleaf : LeafPage page) :
    ∃ A B xs ys, L = A ++ slot :: B ∧ page.pairs = xs ++ ys ∧
      findKeyPosition page key = (xs.length : ℤ) ∧
      s.pairsOf L = (s.pairsOf A ++ xs) ++ (ys ++ s.pairsOf B) ∧
      (∀ p ∈ s.pairsOf A ++ xs, p.key < key) ∧ ∀ p ∈ ys ++ s.pairsOf B, key ≤ p.key := by
  obtain ⟨A, B, rfl, hA⟩ := exists_split_of_routeAt hroute
  obtain ⟨xs, ys, hpairs, hlen, hxs, hys⟩ := exists_split_lowerBound page.pairs key hleaf.sorted
  have hpos : findKeyPosition page key = (xs.length : ℤ) := by
    rw [hleaf.holds.findKeyPosition_eq hleaf.sorted, hlen]
  refine ⟨A, B, xs, ys, rfl, hpairs, hpos, ?_, ?_, ?_⟩
  · rw [pairsOf_append, pairsOf_cons, leafPairs_eq hpage, hpairs]
    simp
  · intro p hp
    rcases mem_append.mp hp with hpA | hpx
    · obtain ⟨t, htA, hpt⟩ := mem_flatMap.mp hpA
      have hroute' := ht.leaves.routed t (mem_append_left _ htA) p hpt
      exact WithTop.coe_lt_coe.mp (lt_of_le_of_lt (le_of_routeAt hroute') (hA t htA))
    · exact hxs p hpx
  · intro p hp
    rcases mem_append.mp hp with hpy | hpB
    · exact hys p hpy
    · obtain ⟨t, htB, hpt⟩ := mem_flatMap.mp hpB
      have hasc := ht.ascending
      have hafter : slot.2 < t.2 := by
        rw [Ascending, pairwise_append, pairwise_cons] at hasc
        exact hasc.2.1.1 t htB
      have hroute' := ht.leaves.routed t (mem_append_right _ (mem_cons_of_mem _ htB)) p hpt
      by_contra hlow
      have hle : (p.key : WithTop Bytes) ≤ slot.2 :=
        (WithTop.coe_le_coe.mpr (not_le.mp hlow).le).trans (le_of_routeAt hroute)
      have hbound := bound_le_of_routeAt hasc hroute' (by simp) hle
      exact absurd hafter (not_lt.mpr hbound)

theorem Tree.length_le_maxPages (ht : Tree s h L) : L.length ≤ maxPages := by
  have hle := length_le_of_owned ht.alloc ht.nodup (by
    intro id hid
    obtain ⟨slot, hslot, rfl⟩ := mem_map.mp hid
    exact ht.fan.owned 0 le_rfl slot hslot)
  simpa using hle

/-- `scan_range` feeds the callback the matching pairs in key order. -/
theorem Tree.always_scanRange (ht : Tree s h L) (hlink : Linked s L)
    {txn : Option Transaction} (hactive : (activeTxn txn).isSome)
    (hpfx : pfx.length ≤ maxKeySize) (hgo : ∀ k v ctx, (callback k v ctx).1 = 0)
    {rounds : ℕ} (hrounds : maxPages ≤ rounds) (ctx : κ) :
    Always (pageStep F) (scanRange rounds txn pfx callback ctx) s
      fun r s' => s' = s ∧ (F.pages = true ∨
        r = some (0, feed callback ctx (matching pfx (s.pairsOf L)))) := by
  obtain ⟨t, htxn⟩ := Option.isSome_iff_exists.mp hactive
  have hheight : h < rounds := lt_of_lt_of_le (ht.height_lt.trans (by decide)) hrounds
  have hmany := ht.length_le_maxPages
  rw [scanRange, htxn]
  simp only [if_neg (not_lt.mpr hpfx)]
  refine (ht.always_descendToLeaf pfx .shared hheight).bind ?_
  rintro r s' ⟨rfl, ⟨rfl, hF⟩ | ⟨slot, page, hroute, hpage, hleaf, rfl⟩⟩
  · exact always_pure.mpr ⟨rfl, .inl hF⟩
  · obtain ⟨A, B, xs, ys, rfl, hpairs, hpos, hall, hbelow, habove⟩ :=
      ht.exists_split_at hroute hpage hleaf
    have hholds : Holds page (xs ++ ys) := hpairs ▸ hleaf.holds
    have hlinked : Linked s' (slot :: B) := hlink.of_append
    have hsorted : SortedPairs (ys ++ s'.pairsOf B) := by
      have hwhole := ht.sorted
      rw [hall] at hwhole
      exact (pairwise_append.mp hwhole).2.1
    have hlength : B.length < rounds := by
      rw [length_append, length_cons] at hmany
      omega
    have hknown : ∀ u ∈ B, u.1 ≠ 0 ∧ ∃ page, s'.pages u.1 = some page ∧ LeafPage page := by
      intro u hu
      have hmem : u ∈ A ++ slot :: B := mem_append_right _ (mem_cons_of_mem _ hu)
      exact ⟨(ht.fan.owned 0 le_rfl u hmem).nonzero, ht.leaves.leaf u hmem⟩
    simp only [hpos]
    refine (always_scanLeaves hgo B rounds slot page xs ys ctx hlength hpage
      hholds hknown hlinked).mono ?_
    rintro r s' ⟨rfl, hF | rfl⟩
    · exact ⟨rfl, .inl hF⟩
    · refine ⟨rfl, .inr ?_⟩
      have hfront := matching_eq_nil hbelow
      rw [hsorted.takeWhile_eq_matching habove, hall]
      rw [matching] at hfront
      rw [matching, matching, filter_append (s'.pairsOf A ++ xs), hfront, nil_append]

theorem routeAt_nil (L : Slots) : routeAt L [] = L.head? := by
  cases L with
  | nil => rfl
  | cons slot L =>
    have hle : (([] : Bytes) : WithTop Bytes) ≤ slot.2 := by
      cases hbound : slot.2 with
      | top => exact le_top
      | coe b => exact WithTop.coe_le_coe.mpr (not_lt.mp (not_lt_nil b))
    rw [routeAt, List.head?_cons]
    exact List.find?_cons_of_pos (decide_eq_true hle)

/-- The sibling links lead from the first leaf past every leaf of the tree;
they may pass leaves that the tree has lost. -/
def Threaded (s : Store) (L : List (UInt32 × WithTop Bytes)) : Prop :=
  ∃ slot M, L.head? = some slot ∧ Linked s (slot :: M) ∧ M.length < maxPages ∧
    (∀ t ∈ M, t.1 ≠ 0 ∧ ∃ page, s.pages t.1 = some page ∧ LeafPage page) ∧
    ∀ u ∈ L, ∃ t ∈ slot :: M, t.1 = u.1

theorem Tree.threaded (ht : Tree s h L) (hlink : Linked s L) : Threaded s L := by
  obtain ⟨slot, page, hroute, -, -, -⟩ := ht.exists_route []
  cases L with
  | nil => cases hroute
  | cons first M =>
    have hmany := ht.length_le_maxPages
    rw [length_cons] at hmany
    refine ⟨first, M, rfl, hlink, by omega, ?_, fun u hu => ⟨u, hu, rfl⟩⟩
    intro t htM
    have hmem : t ∈ first :: M := mem_cons_of_mem _ htM
    exact ⟨(ht.fan.owned 0 le_rfl t hmem).nonzero, ht.leaves.leaf t hmem⟩

theorem Tree.always_scanAll (ht : Tree s h L) (hthread : Threaded s L)
    {txn : Option Transaction} (hactive : (activeTxn txn).isSome)
    (hgo : ∀ k v ctx, (callback k v ctx).1 = 0) {rounds : ℕ}
    (hrounds : maxPages ≤ rounds) (ctx : κ) :
    Always (pageStep F) (dbScan rounds txn callback ctx) s fun r s' => s' = s ∧ (F.pages = true ∨
        ∃ ps, s.pairsOf L ⊆ ps ∧ r = some (0, feed callback ctx ps)) := by
  obtain ⟨t, htxn⟩ := Option.isSome_iff_exists.mp hactive
  obtain ⟨first, M, hfirst, hlink, hmany, hknown, hreach⟩ := hthread
  have hheight : h < rounds := lt_of_lt_of_le (ht.height_lt.trans (by decide)) hrounds
  rw [dbScan, scanRange, htxn]
  simp only [if_neg (Nat.not_lt_zero maxKeySize), length_nil]
  refine (ht.always_descendToLeaf [] .shared hheight).bind ?_
  rintro r s' ⟨rfl, ⟨rfl, hF⟩ | ⟨slot, page, hroute, hpage, hleaf, rfl⟩⟩
  · exact always_pure.mpr ⟨rfl, .inl hF⟩
  · obtain rfl : first = slot := by
      rw [routeAt_nil, hfirst] at hroute
      exact Option.some.inj hroute
    obtain ⟨A, B, xs, ys, -, hpairs, hpos, -, hbelow, -⟩ := ht.exists_split_at hroute hpage hleaf
    obtain rfl : xs = [] := by
      apply eq_nil_iff_forall_not_mem.mpr
      intro p hp
      exact absurd (hbelow p (mem_append_right _ hp)) (not_lt_nil _)
    simp only [hpos]
    refine (always_scanLeaves hgo M rounds first page [] ys ctx
      (hmany.trans_le hrounds) hpage (hpairs ▸ hleaf.holds) hknown hlink).mono ?_
    rintro r s' ⟨rfl, hF | rfl⟩
    · exact ⟨rfl, .inl hF⟩
    · have hall : (ys ++ s'.pairsOf M).takeWhile (fun p => startsWith [] p.key) =
          s'.pairsOf (first :: M) := by
        rw [pairsOf_cons, leafPairs_eq hpage, hpairs]
        exact takeWhile_eq_self_iff.mpr fun _ _ => rfl
      refine ⟨rfl, .inr ⟨_, ?_, rfl⟩⟩
      rw [hall]
      intro p hp
      obtain ⟨u, hu, hmem⟩ := mem_flatMap.mp hp
      obtain ⟨t, ht, hid⟩ := hreach u hu
      exact mem_flatMap.mpr ⟨t, ht, hid ▸ hmem⟩

/-! ## Scans of reachable trees -/

/-- In every state a run reaches, a scan for `pfx` whose callback never stops
calls it once for each stored pair whose key starts with `pfx`, in increasing
order of keys, and returns `0`; `db_scan` is the scan for the empty string. -/
theorem db_scan_visits_matches {rounds : ℕ} (hrounds : maxPages ≤ rounds)
    (ops : List DbOp) (lsn : UInt64) (checksum : UInt32) (txnId : UInt64)
    (hpfx : pfx.length ≤ maxKeySize)
    (hgo : ∀ k v ctx, (callback k v ctx).1 = 0) (ctx : κ) :
    dbScan rounds (activeHandle txnId) callback ctx =
        dbScanPrefix rounds (activeHandle txnId) [] callback ctx ∧
      Always (pageStep Faults.none) (runOps rounds ops)
        (Store.fresh lsn checksum) fun replies s =>
          (s.exhausted = false ∨ ∀ reply ∈ replies, reply = some (.code 0)) →
          ∃ out : List (Bytes × Bytes),
            out.Pairwise (fun a b => compareKeys a.1 b.1 < 0) ∧
            (∀ key value, (key, value) ∈ out ↔
              Finds s key value ∧ startsWith pfx key = true) ∧
            Always (pageStep Faults.none)
              (dbScanPrefix rounds (activeHandle txnId) pfx callback ctx) s
              fun r s' => s' = s ∧ r = some (0,
                out.foldl (fun ctx p => (callback p.1 p.2 ctx).2) ctx) := by
  refine ⟨rfl, ?_⟩
  have hnine : 9 ≤ rounds := le_trans (by decide) hrounds
  intro replies s hrun hsuccess
  have hex : s.exhausted = false := by
    rcases hsuccess with hex | hzero
    · exact hex
    · exact (tree_fresh lsn checksum).always_runOps_succeeds hnine ops rfl replies s hrun hzero
  obtain ⟨-, h, L, ht, hlink, -⟩ :=
    (tree_fresh lsn checksum).always_runOps hnine ops replies s hrun hex
  have hlinked := hlink (linked_fresh lsn checksum)
  refine ⟨(matching pfx (s.pairsOf L)).map fun p => (p.key, p.value), ?_, ?_, ?_⟩
  · rw [pairwise_map]
    refine (ht.sorted.filter _).imp ?_
    intro p q hlt
    exact (compareKeys_neg_iff _ _).mpr hlt
  · intro key value
    rw [ht.finds_iff, ht.sorted.lookup_eq_some_iff, mem_map]
    constructor
    · rintro ⟨p, hp, hpair⟩
      obtain ⟨rfl, rfl⟩ := Prod.mk.inj hpair
      obtain ⟨hmem, hmatch⟩ := mem_filter.mp hp
      exact ⟨⟨p, hmem, rfl, rfl⟩, hmatch⟩
    · rintro ⟨⟨p, hmem, rfl, rfl⟩, hmatch⟩
      exact ⟨p, mem_filter.mpr ⟨hmem, hmatch⟩, rfl⟩
  · refine (ht.always_scanRange hlinked (isSome_activeHandle txnId) hpfx hgo hrounds ctx).mono ?_
    rintro r s' ⟨rfl, hF | rfl⟩
    · exact absurd hF (by decide)
    · refine ⟨rfl, ?_⟩
      rw [feed, foldl_map]

end Scan

/-- A callback that records what it is shown. -/
def collectPairs (key value : Bytes) (seen : List (Bytes × Bytes)) : ℤ × List (Bytes × Bytes) :=
  (0, seen ++ [(key, value)])

theorem foldl_collectPairs (out : List (Bytes × Bytes)) :
    ∀ seen, out.foldl (fun ctx p => (collectPairs p.1 p.2 ctx).2) seen = seen ++ out := by
  induction out with
  | nil =>
    intro seen
    simp
  | cons p out ih =>
    intro seen
    rw [foldl_cons, ih, collectPairs]
    simp

theorem eq_singleton_of_increasing {out : List (Bytes × Bytes)}
    {p : Bytes × Bytes} (hsorted : out.Pairwise fun a b =>
      compareKeys a.1 b.1 < 0) (hmem : ∀ q, q ∈ out ↔ q = p) : out = [p] := by
  cases out with
  | nil => exact absurd ((hmem p).mpr rfl) (by simp)
  | cons a rest =>
    obtain rfl : a = p := (hmem a).mp (by simp)
    have hrest : rest = [] := by
      apply eq_nil_iff_forall_not_mem.mpr
      intro b hb
      obtain rfl : b = a := (hmem b).mp (mem_cons_of_mem _ hb)
      have hlt := (pairwise_cons.mp hsorted).1 b hb
      rw [compareKeys_neg_iff] at hlt
      exact lt_irrefl _ hlt
    rw [hrest]

theorem db_scan_visits_matches_two_keys :
    ∃ replies s, Outcome (pageStep Faults.none)
        (runOps maxPages [.insert 1 [7] [1], .insert 1 [8] [2]])
        (Store.fresh 0 0) replies s ∧
      Always (pageStep Faults.none)
        (dbScanPrefix maxPages (activeHandle 1) [7] collectPairs []) s
        fun r _ => r = some (0, [([7], [1])]) := by
  obtain ⟨replies, s, hrun⟩ := exists_outcome (exists_pageStep Faults.none)
    (runOps maxPages [.insert 1 [7] [1], .insert 1 [8] [2]]) (Store.fresh 0 0)
  have hnine : 9 ≤ maxPages := by decide
  have hex : s.exhausted = false := (tree_fresh 0 0).always_runOps_lasts hnine _ rfl
      (by rw [fresh_idsLeft]; decide) replies s hrun
  obtain ⟨-, h, L, ht, -, hmap⟩ := (tree_fresh 0 0).always_runOps hnine _ replies s hrun hex
  have hgo : ∀ k v ctx, (collectPairs k v ctx).1 = 0 := fun _ _ _ => rfl
  obtain ⟨out, hsorted, hmem, hscan⟩ := (db_scan_visits_matches
    (le_refl maxPages) [.insert 1 [7] [1], .insert 1 [8] [2]] 0 0 1
    (by decide : ([7] : Bytes).length ≤ maxKeySize) hgo []).2 replies s hrun (.inl hex)
  have hfinal : (mapRun (lookup []) [.insert 1 [7] [1],
      .insert 1 [8] [2]]).2 = update (update (lookup []) [7] (some [1])) [8] (some [2]) := rfl
  have hout : out = [([7], [1])] := by
    apply eq_singleton_of_increasing hsorted
    rintro ⟨key, value⟩
    rw [hmem, ht.finds_iff, hmap, pairsOf_fresh, startsWith_iff, hfinal]
    constructor
    · rintro ⟨hfound, rest, rfl⟩
      rw [update_of_ne (by simp)] at hfound
      by_cases hseven : [7] ++ rest = [7]
      · rw [hseven, update_self, Option.some_inj] at hfound
        rw [hseven, ← hfound]
      · rw [update_of_ne hseven] at hfound
        simp [lookup] at hfound
    · intro hpair
      obtain ⟨rfl, rfl⟩ := Prod.mk.inj hpair
      exact ⟨rfl, [], rfl⟩
  refine ⟨replies, s, hrun, hscan.mono ?_⟩
  rintro r s' ⟨-, rfl⟩
  rw [foldl_collectPairs, hout, nil_append]

end Codo.Storage
