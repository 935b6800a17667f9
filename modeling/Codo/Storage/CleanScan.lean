import Codo.Storage.PageChains

/-!
# What a clean return of a scan says

A data file is given by an image for every page id, and the failures of
`get_page` by the numbers of the calls that fail.  A failed call makes
`scan_range` return `-1`.  A pair that cannot be decoded does not: the scan
leaves the leaf there and goes on to the next one, so a return of `0` covers the
leaves it walked only as far as their pairs can be decoded.
-/

namespace Codo.Storage

open Support Program Option List

/-- A pager over the images.  Its state is the number of `get_page` calls so
far, and call `k` fails if `fails k`. -/
def serveImages (images : UInt32 → BtreePage) (fails : ℕ → Bool) :
    (c : PagerCmd) → ℕ → c.Reply × ℕ
  | .getPage id _, k => (if fails k = true then none else some (images id), k + 1)
  | .releasePage _ _, k => ((), k)
  | .updatePage _ _, k => ((), k)
  | .scribblePage _ _, k => ((), k)
  | .allocatePage, k => ((0 : UInt32), k)
  | .deallocatePage _, k => ((), k)
  | .writeWalRecord _ _ _ _, k => ((0 : ℤ), k)

/-- One of the calls from number `c` up to `c'` fails. -/
def FailsWithin (fails : ℕ → Bool) (c c' : ℕ) : Prop :=
  ∃ k, c ≤ k ∧ k < c' ∧ fails k = true

/-- The leaves from the first on, each with the entry the scan starts from. -/
inductive LeafWalk (images : UInt32 → BtreePage) (pfx : Bytes) :
    UInt32 × ℤ → List (UInt32 × ℤ) → Prop
  | last {leaf : UInt32 × ℤ} (h : nextLeaf (some ∘ images) pfx leaf = none) :
      LeafWalk images pfx leaf [leaf]
  | step {leaf next : UInt32 × ℤ} {leaves : List (UInt32 × ℤ)}
      (h : nextLeaf (some ∘ images) pfx leaf = some next)
      (hrest : LeafWalk images pfx next leaves) :
      LeafWalk images pfx leaf (leaf :: leaves)

/-- The leaves that a scan of the prefix walks: the child pointers lead to the
first of them, and the sibling links on from there to the end of the range. -/
def ScanWalk (images : UInt32 → BtreePage) (pfx : Bytes) (leaves : List (UInt32 × ℤ)) : Prop :=
  ∃ id, Follows (nextPage (some ∘ images) pfx) rootPageId id ∧
    (images id).header.pageType ≠ pageTypeInternal ∧
    LeafWalk images pfx (id, findKeyPosition (images id) pfx) leaves

/-- The pairs are, leaf after leaf, all those from the start on, up to the last
of `key_count` or to one past the range. -/
def Complete (images : UInt32 → BtreePage) (pfx : Bytes)
    (leaves : List (UInt32 × ℤ)) (pairs : List (Bytes × Bytes)) : Prop :=
  ∃ parts, pairs = parts.flatten ∧
    Forall₂ (fun leaf part => Covers (images leaf.1) pfx leaf.2 part) leaves parts

section Runs

variable {images : UInt32 → BtreePage} {fails : ℕ → Bool} {pfx : Bytes}
variable {rounds c c' : ℕ} {id : UInt32}

theorem not_failsWithin_self : ¬FailsWithin fails c c := by
  rintro ⟨k, hlow, hhigh, -⟩
  omega

theorem failsWithin_succ_iff (h : fails c = false) :
    FailsWithin fails (c + 1) c' ↔ FailsWithin fails c c' := by
  constructor
  · rintro ⟨k, hlow, hhigh, hk⟩
    exact ⟨k, by omega, hhigh, hk⟩
  · rintro ⟨k, hlow, hhigh, hk⟩
    have hne : k ≠ c := by
      rintro rfl
      rw [h] at hk
      cases hk
    exact ⟨k, by omega, hhigh, hk⟩

section Calls

variable {α : Type} {lock : LockType}

theorem run_releasePage_images (f : Unit → PagerM α) :
    run (serveImages images fails) (releasePage id lock >>= f) c =
      run (serveImages images fails) (f ()) c := rfl

theorem run_getPage_images (f : Option BtreePage → PagerM α) :
    run (serveImages images fails) (getPage id lock >>= f) c =
      run (serveImages images fails)
        (f (if fails c = true then none else some (images id))) (c + 1) := rfl

end Calls

/-! ## The descent -/

/-- A descent from a page it holds fails with a call, or ends on the leaf that
the child pointers lead to. -/
theorem descendToLeafFrom_outcome {lock : LockType} {r : Option (UInt32 × BtreePage)}
    (hrun : run (serveImages images fails)
      (descendToLeafFrom pfx lock rounds id (images id)) c = (some r, c')) :
    (r = none ∧ FailsWithin fails c c') ∨
      ¬FailsWithin fails c c' ∧ ∃ last, r = some (last, images last) ∧
        Follows (nextPage (some ∘ images) pfx) id last ∧
        (images last).header.pageType ≠ pageTypeInternal := by
  induction rounds generalizing id c with
  | zero => cases hrun
  | succ rounds ih =>
    rw [descendToLeafFrom] at hrun
    by_cases hinternal : (images id).header.pageType = pageTypeInternal
    · rw [if_pos hinternal, run_releasePage_images] at hrun
      have hnext : nextPage (some ∘ images) pfx id = some (childFor (images id) pfx) :=
        nextPage_of_internal pfx rfl hinternal
      cases hfail : fails c with
      | true =>
        rw [run_getPage_images, if_pos hfail, run_pure] at hrun
        cases hrun
        exact .inl ⟨rfl, c, le_rfl, Nat.lt_succ_self c, hfail⟩
      | false =>
        rw [run_getPage_images, hfail, if_neg Bool.false_ne_true] at hrun
        rw [← failsWithin_succ_iff hfail]
        rcases ih hrun with hlost | ⟨hnone, last, hr, hfollows, hleaf⟩
        · exact .inl hlost
        · exact .inr ⟨hnone, last, hr, .step hnext hfollows, hleaf⟩
    · rw [if_neg hinternal, run_pure] at hrun
      cases hrun
      exact .inr ⟨not_failsWithin_self, id, rfl, .here id, hinternal⟩

theorem descendToLeaf_outcome {lock : LockType} {r : Option (UInt32 × BtreePage)}
    (hrun : run (serveImages images fails) (descendToLeaf rounds pfx lock) c = (some r, c')) :
    (r = none ∧ FailsWithin fails c c') ∨
      ¬FailsWithin fails c c' ∧ ∃ last, r = some (last, images last) ∧
        Follows (nextPage (some ∘ images) pfx) rootPageId last ∧
        (images last).header.pageType ≠ pageTypeInternal := by
  rw [descendToLeaf] at hrun
  cases hfail : fails c with
  | true =>
    rw [run_getPage_images, if_pos hfail, run_pure] at hrun
    cases hrun
    exact .inl ⟨rfl, c, le_rfl, Nat.lt_succ_self c, hfail⟩
  | false =>
    rw [run_getPage_images, hfail, if_neg Bool.false_ne_true] at hrun
    rw [← failsWithin_succ_iff hfail]
    exact descendToLeafFrom_outcome hrun

/-! ## The leaf walk -/

/-- The pairs that the pass over a leaf has for the callback. -/
def passedOn (images : UInt32 → BtreePage) (pfx : Bytes) (leaf : UInt32 × ℤ) :
    List (Bytes × Bytes) :=
  passed (images leaf.1) pfx ((images leaf.1).keyCount - leaf.2).toNat leaf.2

/-- One round of the leaf walk, with a callback that goes on. -/
theorem run_scanLeaves_round {κ : Type} {callback : Bytes → Bytes → κ → ℤ × κ}
    {ctx ctx' : κ} {start : ℤ} (rounds c : ℕ)
    (h : offer callback ctx (passedOn images pfx (id, start)) = some ctx') :
    run (serveImages images fails)
        (scanLeaves pfx callback (rounds + 1) id (images id) start ctx) c =
      match nextLeaf (some ∘ images) pfx (id, start) with
      | none => (some (0, ctx'), c)
      | some (next, _) =>
        if fails c = true then (some (-1, ctx'), c + 1)
        else run (serveImages images fails)
          (scanLeaves pfx callback rounds next (images next) 0 ctx') (c + 1) := by
  rw [scanLeaves, scanPage_of_offer _ _ _ _ h,
    nextLeaf_of_some (show (some ∘ images) id = some (images id) from rfl)]
  by_cases hend : meetsEnd (images id) pfx ((images id).keyCount - start).toNat start = true
  · simp only [if_pos hend]
    rfl
  · simp only [if_neg hend, run_releasePage_images]
    by_cases hnext : (images id).header.nextPageId = 0
    · simp only [if_pos hnext]
      rfl
    · simp only [if_neg hnext]
      rw [run_getPage_images]
      cases fails c <;> rfl

theorem offer_collect (pairs seen : List (Bytes × Bytes)) :
    offer collect seen pairs = some (seen ++ pairs) := by
  induction pairs generalizing seen with
  | nil => rw [append_nil, offer]
  | cons p pairs ih =>
    rw [offer, if_neg (not_not.mpr (show (collect p.1 p.2 seen).1 = 0 from rfl)),
      collect, ih, append_assoc, singleton_append]

/-- A leaf walk from call `c` to call `c'` that hands over the pairs and returns
`rc`, whatever callback that goes on it is given. -/
structure WalkOutcome (images : UInt32 → BtreePage) (fails : ℕ → Bool)
    (pfx : Bytes) (rounds : ℕ) (leaf : UInt32 × ℤ) (c : ℕ) (rc : ℤ)
    (pairs : List (Bytes × Bytes)) (c' : ℕ) : Prop where
  replay : ∀ (κ : Type) (callback : Bytes → Bytes → κ → ℤ × κ) ctx ctx',
    offer callback ctx pairs = some ctx' → run (serveImages images fails)
      (scanLeaves pfx callback rounds leaf.1 (images leaf.1) leaf.2 ctx) c = (some (rc, ctx'), c')
  ended : (rc = -1 ∧ FailsWithin fails c c') ∨
    rc = 0 ∧ ¬FailsWithin fails c c' ∧ ∃ leaves, LeafWalk images pfx leaf leaves ∧
      pairs = leaves.flatMap (passedOn images pfx)

/-- A walk that goes on from a leaf to the next. -/
theorem WalkOutcome.step {leaf : UInt32 × ℤ} {next : UInt32} {rc : ℤ} {pairs : List (Bytes × Bytes)}
    (hnext : nextLeaf (some ∘ images) pfx leaf = some (next, 0)) (hfail : fails c = false)
    (h : WalkOutcome images fails pfx rounds (next, 0) (c + 1) rc pairs c') :
    WalkOutcome images fails pfx (rounds + 1) leaf c rc (passedOn images pfx leaf ++ pairs) c' := by
  constructor
  · intro κ callback ctx ctx' hoffer
    rw [offer_append] at hoffer
    obtain ⟨mid, hmid, hrest⟩ := bind_eq_some_iff.mp hoffer
    rw [run_scanLeaves_round rounds c hmid, hnext]
    dsimp only
    rw [hfail, if_neg Bool.false_ne_true]
    exact h.replay κ callback mid ctx' hrest
  · rw [← failsWithin_succ_iff hfail]
    rcases h.ended with hlost | ⟨hrc, hnone, leaves, hwalk, rfl⟩
    · exact .inl hlost
    · exact .inr ⟨hrc, hnone, leaf :: leaves, .step hnext hwalk, rfl⟩

theorem scanLeaves_outcome {start rc : ℤ} {before seen : List (Bytes × Bytes)}
    (hrun : run (serveImages images fails)
      (scanLeaves pfx collect rounds id (images id) start before) c = (some (rc, seen), c')) :
    ∃ pairs, seen = before ++ pairs ∧
      WalkOutcome images fails pfx rounds (id, start) c rc pairs c' := by
  induction rounds generalizing id start before c with
  | zero => cases hrun
  | succ rounds ih =>
    rw [run_scanLeaves_round rounds c
      (offer_collect (passedOn images pfx (id, start)) before)] at hrun
    cases hnext : nextLeaf (some ∘ images) pfx (id, start) with
    | none =>
      simp only [hnext] at hrun
      cases hrun
      refine ⟨_, rfl, fun κ callback ctx ctx' hoffer => ?_, ?_⟩
      · rw [run_scanLeaves_round rounds _ hoffer, hnext]
      · exact .inr ⟨rfl, not_failsWithin_self, _, .last hnext, by simp⟩
    | some next =>
      obtain ⟨next, start'⟩ := next
      obtain rfl := snd_nextLeaf hnext
      simp only [hnext] at hrun
      cases hfail : fails c with
      | true =>
        simp only [hfail, if_true] at hrun
        cases hrun
        refine ⟨_, rfl, fun κ callback ctx ctx' hoffer => ?_, ?_⟩
        · rw [run_scanLeaves_round rounds c hoffer, hnext]
          exact if_pos hfail
        · exact .inl ⟨rfl, c, le_rfl, Nat.lt_succ_self c, hfail⟩
      | false =>
        simp only [hfail, Bool.false_eq_true, if_false] at hrun
        obtain ⟨pairs, rfl, hout⟩ := ih hrun
        exact ⟨_, append_assoc _ _ _, hout.step hnext hfail⟩

/-! ## Whole scans -/

theorem LeafWalk.unique {leaf : UInt32 × ℤ} {leaves leaves' : List (UInt32 × ℤ)}
    (h : LeafWalk images pfx leaf leaves) (h' : LeafWalk images pfx leaf leaves') :
    leaves = leaves' := by
  induction h generalizing leaves' with
  | last hend =>
    cases h' with
    | last => rfl
    | step hnext => cases hend.symm.trans hnext
  | step hnext _ ih =>
    cases h' with
    | last hend => cases hend.symm.trans hnext
    | step hnext' hrest =>
      cases hnext.symm.trans hnext'
      rw [ih hrest]

theorem ScanWalk.unique {leaves leaves' : List (UInt32 × ℤ)}
    (h : ScanWalk images pfx leaves) (h' : ScanWalk images pfx leaves') : leaves = leaves' := by
  obtain ⟨id, hfollows, hleaf, hwalk⟩ := h
  obtain ⟨id', hfollows', hleaf', hwalk'⟩ := h'
  obtain rfl := hfollows.end_unique hfollows' (nextPage_of_leaf pfx rfl hleaf)
    (nextPage_of_leaf pfx rfl hleaf')
  exact hwalk.unique hwalk'

theorem complete_iff (leaves : List (UInt32 × ℤ)) :
    Complete images pfx leaves (leaves.flatMap (passedOn images pfx)) ↔
      ∀ leaf ∈ leaves, Readable (images leaf.1) pfx leaf.2 := by
  constructor
  · rintro ⟨parts, -, hparts⟩ leaf hleaf
    obtain ⟨i, hi, rfl⟩ := getElem_of_mem hleaf
    exact (hparts.get hi (hparts.length_eq ▸ hi)).readable
  · intro h
    refine ⟨leaves.map (passedOn images pfx), rfl, ?_⟩
    rw [forall₂_map_right_iff, forall₂_same]
    exact fun leaf hleaf => (h leaf hleaf).covers

/-- `scan_range` does not take the transaction or the prefix. -/
def ScanRefused (txn : Option Transaction) (pfx : Bytes) : Prop :=
  activeTxn txn = none ∨ maxKeySize < pfx.length

section Range

variable {κ : Type} {callback : Bytes → Bytes → κ → ℤ × κ} {ctx : κ}
variable {txn : Option Transaction}

theorem scanRange_of_refused (h : ScanRefused txn pfx) :
    scanRange rounds txn pfx callback ctx = pure (some (-1, ctx)) := by
  rw [scanRange]
  cases hactive : activeTxn txn with
  | none => rfl
  | some _ =>
    rcases h with hnone | hlong
    · rw [hactive] at hnone
      cases hnone
    · exact if_pos hlong

theorem run_scanRange (h : ¬ScanRefused txn pfx) :
    run (serveImages images fails) (scanRange rounds txn pfx callback ctx) c =
      match run (serveImages images fails) (descendToLeaf rounds pfx .shared) c with
      | (none, c') => (none, c')
      | (some none, c') => (some (-1, ctx), c')
      | (some (some (id, page)), c') => run (serveImages images fails)
          (scanLeaves pfx callback rounds id page (findKeyPosition page pfx) ctx) c' := by
  rw [scanRange]
  cases hactive : activeTxn txn with
  | none => exact absurd (.inl hactive) h
  | some _ =>
    dsimp only
    rw [if_neg fun hlong => h (.inr hlong), run_bind]
    generalize run (serveImages images fails) (descendToLeaf rounds pfx .shared) c = found
    obtain ⟨_ | _ | ⟨id, page⟩, c'⟩ := found <;> rfl

end Range

/-- A scan with a callback that goes on is the one that collects the pairs.  It
returns `-1` exactly if it is refused or a `get_page` fails.  A return of `0` is
complete exactly if every leaf of the walk can be read. -/
theorem clean_scan_complete_iff (images : UInt32 → BtreePage) (fails : ℕ → Bool)
    {rounds calls : ℕ} {txn : Option Transaction} {pfx : Bytes} {rc : ℤ}
    {seen : List (Bytes × Bytes)}
    (hrun : run (serveImages images fails) (scanRange rounds txn pfx collect []) 0 =
      (some (rc, seen), calls)) :
    (∀ (κ : Type) (callback : Bytes → Bytes → κ → ℤ × κ) ctx ctx',
      offer callback ctx seen = some ctx' →
      run (serveImages images fails) (scanRange rounds txn pfx callback ctx) 0 =
        (some (rc, ctx'), calls)) ∧
      (rc = 0 ∨ rc = -1) ∧
      (rc = -1 ↔ ScanRefused txn pfx ∨ ∃ k < calls, fails k = true) ∧
      (rc = 0 → (∃ leaves, ScanWalk images pfx leaves) ∧
        ∀ leaves, ScanWalk images pfx leaves →
          (Complete images pfx leaves seen ↔
            ∀ leaf ∈ leaves, Readable (images leaf.1) pfx leaf.2)) := by
  by_cases hrefused : ScanRefused txn pfx
  · rw [scanRange_of_refused hrefused, run_pure] at hrun
    cases hrun
    refine ⟨fun κ callback ctx ctx' hoffer => ?_, .inr rfl, iff_of_true rfl (.inl hrefused), nofun⟩
    cases hoffer
    rw [scanRange_of_refused hrefused, run_pure]
  · rw [run_scanRange hrefused] at hrun
    rw [or_iff_right hrefused]
    simp only [run_scanRange hrefused]
    cases hdescent : run (serveImages images fails) (descendToLeaf rounds pfx .shared) 0 with
    | mk found c =>
      rw [hdescent] at hrun
      cases found with
      | none => cases hrun
      | some r =>
        rcases descendToLeaf_outcome hdescent with ⟨rfl, k, -, hk, hfail⟩ |
          ⟨hserved, first, rfl, hfollows, hleaf⟩
        · cases hrun
          refine ⟨fun κ callback ctx ctx' hoffer => ?_, .inr rfl,
            iff_of_true rfl ⟨k, hk, hfail⟩, nofun⟩
          cases hoffer
          rfl
        · obtain ⟨pairs, rfl, hout⟩ := scanLeaves_outcome hrun
          refine ⟨hout.replay, ?_⟩
          rcases hout.ended with ⟨rfl, k, -, hk, hfail⟩ | ⟨rfl, hnone, leaves, hwalk, rfl⟩
          · exact ⟨.inr rfl, iff_of_true rfl ⟨k, hk, hfail⟩, nofun⟩
          · have hscan : ScanWalk images pfx leaves := ⟨first, hfollows, hleaf, hwalk⟩
            refine ⟨.inl rfl, iff_of_false (by decide) ?_, fun _ =>
              ⟨⟨leaves, hscan⟩, fun _ h => hscan.unique h ▸ complete_iff leaves⟩⟩
            rintro ⟨k, hk, hfail⟩
            rcases lt_or_ge k c with hlt | hge
            · exact hserved ⟨k, Nat.zero_le k, hlt, hfail⟩
            · exact hnone ⟨k, hge, hk, hfail⟩

end Runs

/-! ## A leaf that cannot be read to its end -/

/-- A leaf of one pair, with given bytes at the start of its data. -/
def onePairLeaf (next : UInt32) (bytes : Bytes) : BtreePage where
  header := { BtreePage.zero.header with
    pageType := pageTypeLeaf
    keyCount := 1
    nextPageId := next }
  data := (Block.zero btreePageCapacity).blit 0 bytes

theorem readable_onePairLeaf {next : UInt32} {bytes pfx : Bytes}
    (h : getKvPair (onePairLeaf next bytes) 0 ≠ none) :
    Readable (onePairLeaf next bytes) pfx 0 := by
  intro k hlow hhigh hnone
  have hk : k < 1 := hhigh
  obtain rfl : k = 0 := by omega
  exact absurd hnone h

/-- Two leaves, with the keys `a` and `b`. -/
def twoLeaves (id : UInt32) : BtreePage :=
  if id = rootPageId then onePairLeaf 2 [1, 0, 0, 0, 0, 0, 0, 0, 97]
  else onePairLeaf 0 [1, 0, 0, 0, 0, 0, 0, 0, 98]

/-- A scan of the keys with the prefix `a`, which the pair of the second leaf
ends. -/
theorem clean_scan_complete_iff_two :
    let leaves : List (UInt32 × ℤ) := [(1, 0), (2, 0)]
    run (serveImages twoLeaves fun _ => false)
        (scanRange 2 (some readingTxn) [97] collect []) 0 =
      (some (0, [([97], [])]), 2) ∧ ScanWalk twoLeaves [97] leaves ∧
      (∀ leaf ∈ leaves, Readable (twoLeaves leaf.1) [97] leaf.2) ∧
      Complete twoLeaves [97] leaves [([97], [])] := by
  intro leaves
  have hrun : run (serveImages twoLeaves fun _ => false)
      (scanRange 2 (some readingTxn) [97] collect []) 0 = (some (0, [([97], [])]), 2) := rfl
  have hwalk : ScanWalk twoLeaves [97] leaves := ⟨1, .here 1, by decide, .step rfl (.last rfl)⟩
  have hread : ∀ leaf ∈ leaves, Readable (twoLeaves leaf.1) [97] leaf.2 :=
    forall_mem_cons.mpr ⟨readable_onePairLeaf (by decide),
      forall_mem_singleton.mpr (readable_onePairLeaf (by decide))⟩
  exact ⟨hrun, hwalk, hread,
    (((clean_scan_complete_iff _ _ hrun).2.2.2 rfl).2 leaves hwalk).mpr hread⟩

/-- The only leaf holds a pair whose key length of 65535 runs past the page.
The scan delivers nothing and returns `0`. -/
theorem clean_scan_incomplete :
    let images := fun _ => onePairLeaf 0 [255, 255]
    run (serveImages images fun _ => false)
        (scanRange 1 (some readingTxn) [] collect []) 0 = (some (0, []), 1) ∧
      ScanWalk images [] [(1, 0)] ∧ ¬Complete images [] [(1, 0)] [] := by
  refine ⟨rfl, ⟨1, .here 1, by decide, .last rfl⟩, ?_⟩
  rintro ⟨parts, -, hparts⟩
  cases hparts with
  | cons hcovers _ =>
    obtain ⟨e, hlow, hhigh, -⟩ := hcovers.readable 0 le_rfl (by decide) rfl
    omega

end Codo.Storage
