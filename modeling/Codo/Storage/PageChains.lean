import Codo.Storage.ScanPass
import Codo.Support.Counting

/-!
# Tree operations on arbitrary pages

`descend_path`, the descent of `db_insert`, follows at most `BTREE_MAX_DEPTH`
pages, so an insert ends on every data file.  `descend_to_leaf`, the descent of
every other operation, and the leaf walk of `scan_range` follow whatever the
pages say.  They end when the chains of child pointers and of sibling links
end, and `BTREE_MAX_DEPTH` bounds the descent only when it bounds the chain.

A data file is given by the page images that `get_page` returns.
-/

namespace Codo.Storage

open Codo.Support Program Option

/-- Counts the pages an operation visits. -/
def pageVisit : PagerCmd → ℕ
  | .getPage _ _ => 1
  | _ => 0

/-! ## Inserts -/

variable {n : ℕ} {id : UInt32}

section Insert

variable {α : Type}

theorem atMost_getPage_bind {lock : LockType} {f : Option BtreePage → PagerM α}
    (h : ∀ r, AtMost pageVisit (f r) n) : AtMost pageVisit (getPage id lock >>= f) (n + 1) :=
  ⟨Nat.le_add_left 1 n, h⟩

theorem atMost_silent {c : PagerCmd} {f : c.Reply → PagerM α}
    (hc : pageVisit c = 0) (h : ∀ r, AtMost pageVisit (f r) n) :
    AtMost pageVisit (issue c >>= f) n := by
  refine ⟨hc ▸ Nat.zero_le n, ?_⟩
  rw [hc]
  exact h

theorem atMost_descendPathFrom (key : Bytes) (n : ℕ) :
    ∀ path pageId, AtMost pageVisit (descendPathFrom key n path pageId) n := by
  induction n with
  | zero =>
    intro path pageId
    exact atMost_pure
  | succ n ih =>
    intro path pageId
    rw [descendPathFrom]
    refine atMost_getPage_bind fun r => ?_
    cases r with
    | none => exact atMost_pure
    | some page =>
      dsimp only
      by_cases hleaf : page.header.pageType ≠ pageTypeInternal
      · rw [if_pos hleaf]
        exact atMost_silent rfl fun _ => atMost_pure
      · rw [if_neg hleaf]
        refine atMost_silent rfl fun _ => ?_
        split_ifs
        · exact atMost_pure
        · exact ih _ _

/-- The descent of an insert visits at most `BTREE_MAX_DEPTH` pages, whatever
the pages say. -/
theorem atMost_descendPath (key : Bytes) : AtMost pageVisit (descendPath key) btreeMaxDepth :=
  atMost_descendPathFrom key btreeMaxDepth [] rootPageId

theorem atMost_findParent (nodeId : UInt32) (sep : Bytes) :
    AtMost pageVisit (findParent nodeId sep) btreeMaxDepth := by
  rw [findParent]
  refine (atMost_descendPath sep).bind (n := 0) fun path => ?_
  cases path with
  | none => exact atMost_pure
  | some path =>
    dsimp only
    split <;> exact atMost_pure

theorem atMost_repoint (parentId : UInt32) (parent : BtreePage)
    (oldPos : Option ℕ) (rightId : UInt32) :
    AtMost pageVisit (repoint parentId parent oldPos rightId) 0 := by
  cases oldPos with
  | none => exact atMost_silent rfl fun _ => atMost_silent rfl fun _ => atMost_pure
  | some pos =>
    rw [repoint]
    cases getKvPair parent (pos + 1) with
    | none => exact atMost_silent rfl fun _ => atMost_silent rfl fun _ => atMost_pure
    | some moved => exact atMost_silent rfl fun _ => atMost_silent rfl fun _ => atMost_pure

theorem atMost_growRoot : AtMost pageVisit growRoot 2 := by
  rw [growRoot]
  refine atMost_silent rfl fun leftId => ?_
  split_ifs
  · exact atMost_pure
  · refine atMost_getPage_bind fun root => ?_
    cases root with
    | none => exact atMost_pure
    | some root =>
      refine atMost_getPage_bind fun left => ?_
      cases left with
      | none => exact atMost_silent rfl fun _ => atMost_pure
      | some left =>
        exact atMost_silent rfl fun _ => atMost_silent rfl fun _ =>
          atMost_silent rfl fun _ => atMost_silent rfl fun _ => atMost_pure

theorem atMost_splitOff (nodeId : UInt32) : AtMost pageVisit (splitOff nodeId) 2 := by
  rw [splitOff]
  refine atMost_silent rfl fun rightId => ?_
  split_ifs
  · exact atMost_pure
  · refine atMost_getPage_bind fun node => ?_
    cases node with
    | none => exact atMost_pure
    | some node =>
      refine atMost_getPage_bind fun right => ?_
      cases right with
      | none => exact atMost_silent rfl fun _ => atMost_pure
      | some right =>
        dsimp only
        cases btreeSplitPage node emptyRight rightId maxKeySize with
        | none =>
          exact atMost_silent rfl fun _ => atMost_silent rfl fun _ =>
            atMost_silent rfl fun _ => atMost_silent rfl fun _ => atMost_pure
        | some split =>
          exact atMost_silent rfl fun _ => atMost_silent rfl fun _ =>
            atMost_silent rfl fun _ => atMost_silent rfl fun _ => atMost_pure

/-- A split to a given depth visits a bounded number of pages.  Both routines
call each other with less depth, so the bounds grow together. -/
theorem exists_atMost_split (depth : ℕ) :
    (∃ m, ∀ nodeId sep rightId, AtMost pageVisit (insertSeparator nodeId sep rightId depth) m) ∧
      ∃ n, ∀ nodeId, AtMost pageVisit (btreeSplitNode nodeId depth) n := by
  induction depth with
  | zero =>
    refine ⟨⟨0, fun nodeId sep rightId => ?_⟩, ⟨0, fun nodeId => ?_⟩⟩
    · rw [insertSeparator]
      exact atMost_pure
    · rw [btreeSplitNode]
      exact atMost_pure
  | succ depth ih =>
    obtain ⟨⟨m, hm⟩, ⟨n, hn⟩⟩ := ih
    have hbelow : ∀ nodeId, AtMost pageVisit (splitBelow nodeId depth) (2 + m) := by
      intro nodeId
      refine (atMost_splitOff nodeId).bind fun carved => ?_
      cases carved with
      | none => exact atMost_pure
      | some carved => exact hm _ _ _
    refine ⟨⟨btreeMaxDepth + (n + m + 1), fun nodeId sep rightId => ?_⟩,
      ⟨2 + (2 + m), fun nodeId => ?_⟩⟩
    · rw [insertSeparator]
      refine (atMost_findParent nodeId sep).bind fun parentId => ?_
      cases parentId with
      | none => exact atMost_pure
      | some parentId =>
      refine atMost_getPage_bind fun parent => ?_
      cases parent with
      | none => exact atMost_pure
      | some parent =>
      dsimp only
      cases findChildFrom parent nodeId parent.keyCount 0 with
      | none => exact atMost_silent rfl fun _ => atMost_pure
      | some oldPos =>
      dsimp only
      by_cases hlost :
          oldPos = none ∧ parent.header.nextPageId ≠ nodeId
      · rw [if_pos hlost]
        exact atMost_silent rfl fun _ => atMost_pure
      · rw [if_neg hlost]
        cases insertKvPair parent (oldPos.getD parent.keyCount) sep [] nodeId with
        | none =>
          refine atMost_silent rfl fun _ => (hn parentId).bind fun rc => ?_
          split_ifs
          · exact atMost_pure
          · exact hm _ _ _
        | some parent' => exact (atMost_repoint _ _ _ _).mono (Nat.zero_le _)
    · by_cases hroot : nodeId = rootPageId
      · rw [hroot, btreeSplitNode_root]
        refine atMost_growRoot.bind fun moved => ?_
        cases moved with
        | none => exact atMost_pure
        | some nodeId => exact hbelow nodeId
      · rw [btreeSplitNode_of_ne hroot]
        exact (hbelow nodeId).mono (Nat.le_add_left _ 2)

theorem exists_atMost_dbInsertLoop (attempts : ℕ) :
    ∃ n, ∀ txnId key value, AtMost pageVisit (dbInsertLoop txnId key value attempts) n := by
  obtain ⟨-, split, hsplit⟩ := exists_atMost_split btreeMaxDepth
  induction attempts with
  | zero => exact ⟨0, fun txnId key value => atMost_pure⟩
  | succ attempts ih =>
    obtain ⟨n, hn⟩ := ih
    refine ⟨btreeMaxDepth + (split + n + 1), fun txnId key value => ?_⟩
    rw [dbInsertLoop]
    refine (atMost_descendPath key).bind fun path => ?_
    cases path with
    | none => exact atMost_pure
    | some path =>
    dsimp only
    cases path.getLast? with
    | none => exact atMost_pure
    | some pageId =>
    refine atMost_getPage_bind fun page => ?_
    cases page with
    | none => exact atMost_pure
    | some page =>
    dsimp only
    split_ifs
    · exact atMost_silent rfl fun _ => atMost_pure
    · refine atMost_silent rfl fun _ => (hsplit pageId).bind fun rc => ?_
      split_ifs
      · exact atMost_pure
      · exact hn _ _ _
    · refine atMost_silent rfl fun _ => ?_
      split
      · exact atMost_silent rfl fun _ => atMost_pure
      · exact atMost_silent rfl fun _ => atMost_silent rfl fun _ => atMost_pure

/-- One bound holds for the page visits of every insert on every data file. -/
theorem exists_atMost_dbInsert :
    ∃ n, ∀ txn key value, AtMost pageVisit (dbInsert txn key value) n := by
  obtain ⟨n, hn⟩ := exists_atMost_dbInsertLoop btreeMaxDepth
  refine ⟨n, fun txn key value => ?_⟩
  rw [dbInsert]
  cases activeTxn txn with
  | none => exact atMost_pure
  | some txn =>
    dsimp only
    split_ifs
    · exact atMost_pure
    · exact hn _ _ _

end Insert

/-! ## The chains of a data file -/

variable {page : BtreePage}

section Chains

variable {pages : UInt32 → Option BtreePage}
variable {rounds : ℕ}

/-- A pager whose pages are given and never change; `none` is a page that
cannot be loaded. -/
def servePages (pages : UInt32 → Option BtreePage) :
    (c : PagerCmd) → Unit → c.Reply × Unit
  | .getPage id _, _ => (pages id, ())
  | .releasePage _ _, _ => ((), ())
  | .updatePage _ _, _ => ((), ())
  | .scribblePage _ _, _ => ((), ())
  | .allocatePage, _ => ((0 : UInt32), ())
  | .deallocatePage _, _ => ((), ())
  | .writeWalRecord _ _ _ _, _ => ((0 : ℤ), ())

@[simp] theorem run_releasePage_bind {α τ : Type}
    (h : (c : PagerCmd) → τ → c.Reply × τ) (id : UInt32) (lock : LockType)
    (f : Unit → PagerM α) (t : τ) :
    run h (releasePage id lock >>= f) t = run h (f ()) (h (.releasePage id lock) t).2 := rfl

@[simp] theorem run_getPage_bind {α τ : Type}
    (h : (c : PagerCmd) → τ → c.Reply × τ) (id : UInt32) (lock : LockType)
    (f : Option BtreePage → PagerM α) (t : τ) :
    run h (getPage id lock >>= f) t = run h (f (h (.getPage id lock) t).1)
        (h (.getPage id lock) t).2 := rfl

/-- The page an internal page sends a lookup of `key` to. -/
def nextPage (pages : UInt32 → Option BtreePage) (key : Bytes) (id : UInt32) : Option UInt32 :=
  match pages id with
  | none => none
  | some page =>
    if page.header.pageType = pageTypeInternal then
      some (childFor page key)
    else none

/-- The leaf a scan goes on to, with the entry it starts from. -/
def nextLeaf (pages : UInt32 → Option BtreePage) (pfx : Bytes) :
    UInt32 × ℤ → Option (UInt32 × ℤ)
  | (id, start) =>
    match pages id with
    | none => none
    | some page =>
      if meetsEnd page pfx (page.keyCount - start).toNat start = true then
        none
      else if page.header.nextPageId = 0 then none
      else some (page.header.nextPageId, 0)

theorem nextPage_of_internal (key : Bytes) (hpage : pages id = some page)
    (hinternal : page.header.pageType = pageTypeInternal) :
    nextPage pages key id = some (childFor page key) := by
  rw [nextPage, hpage]
  exact if_pos hinternal

theorem nextPage_of_leaf (key : Bytes) (hpage : pages id = some page)
    (hleaf : page.header.pageType ≠ pageTypeInternal) :
    nextPage pages key id = none := by
  rw [nextPage, hpage]
  exact if_neg hleaf

theorem nextPage_of_none (key : Bytes) (hpage : pages id = none) :
    nextPage pages key id = none := by
  rw [nextPage, hpage]

theorem pageType_of_nextPage {key : Bytes} (hpage : pages id = some page)
    (h : nextPage pages key id = none) : page.header.pageType ≠ pageTypeInternal := by
  intro hinternal
  rw [nextPage_of_internal key hpage hinternal] at h
  cases h

/-- Every descent meets at most `BTREE_MAX_DEPTH` pages, and every leaf walk
that starts where a descent ended comes to an end. -/
structure ChainsEnd (pages : UInt32 → Option BtreePage) : Prop where
  descents : ∀ key, EndsWithin (nextPage pages key) btreeMaxDepth rootPageId
  links : ∀ pfx : Bytes, pfx.length ≤ maxKeySize → ∀ id page,
    Follows (nextPage pages pfx) rootPageId id → pages id = some page →
    page.header.pageType ≠ pageTypeInternal →
    ∃ n, EndsWithin (nextLeaf pages pfx) n (id, findKeyPosition page pfx)

/-! ## Descents -/

variable {key : Bytes} {lock : LockType}

theorem run_descendToLeafFrom_internal (hinternal : page.header.pageType = pageTypeInternal) :
    run (servePages pages) (descendToLeafFrom key lock (rounds + 1) id page) () =
      match pages (childFor page key) with
      | none => (some none, ())
      | some child => run (servePages pages)
          (descendToLeafFrom key lock rounds (childFor page key) child) () := by
  rw [descendToLeafFrom, if_pos hinternal, run_releasePage_bind, run_getPage_bind]
  cases hchild : pages (childFor page key) with
  | none => simp only [servePages, hchild, run_pure]
  | some child => simp only [servePages, hchild]

theorem run_descendToLeafFrom_leaf (hleaf : page.header.pageType ≠ pageTypeInternal) :
    run (servePages pages) (descendToLeafFrom key lock (rounds + 1) id page) () =
      (some (some (id, page)), ()) := by
  rw [descendToLeafFrom, if_neg hleaf, run_pure]

theorem run_descendToLeaf (rounds : ℕ) :
    run (servePages pages) (descendToLeaf rounds key lock) () =
      match pages rootPageId with
      | none => (some none, ())
      | some page => run (servePages pages)
          (descendToLeafFrom key lock rounds rootPageId page) () := by
  rw [descendToLeaf, run_getPage_bind]
  cases hroot : pages rootPageId with
  | none => simp only [servePages, hroot, run_pure]
  | some page => simp only [servePages, hroot]

theorem exists_run_descendToLeafFrom (hpage : pages id = some page)
    (h : EndsWithin (nextPage pages key) n id) (hn : n ≤ rounds) :
    ∃ r, (run (servePages pages) (descendToLeafFrom key lock rounds id page) ()).1 = some r := by
  induction n generalizing rounds id page with
  | zero => exact h.elim
  | succ n ih =>
    obtain ⟨rounds, rfl⟩ : ∃ k, rounds = k + 1 := ⟨rounds - 1, by omega⟩
    by_cases hinternal : page.header.pageType = pageTypeInternal
    · have hends := h _ (nextPage_of_internal key hpage hinternal)
      rw [run_descendToLeafFrom_internal hinternal]
      cases hchild : pages (childFor page key) with
      | none => exact ⟨none, rfl⟩
      | some child => exact ih hchild hends (by omega)
    · rw [run_descendToLeafFrom_leaf hinternal]
      exact ⟨_, rfl⟩

theorem exists_run_descendToLeaf (lock : LockType)
    (h : EndsWithin (nextPage pages key) n rootPageId) (hn : n ≤ rounds) :
    ∃ r, (run (servePages pages) (descendToLeaf rounds key lock) ()).1 = some r := by
  rw [run_descendToLeaf]
  cases hroot : pages rootPageId with
  | none => exact ⟨none, rfl⟩
  | some page => exact exists_run_descendToLeafFrom hroot h hn

theorem follows_of_run_descendToLeafFrom {r : Option (UInt32 × BtreePage)}
    (hpage : pages id = some page) (hrun : (run (servePages pages)
      (descendToLeafFrom key lock rounds id page) ()).1 = some r) :
    ∃ last, Follows (nextPage pages key) id last ∧
      nextPage pages key last = none ∧
      r = (pages last).map fun page => (last, page) := by
  induction rounds generalizing id page with
  | zero => cases hrun
  | succ rounds ih =>
    by_cases hinternal : page.header.pageType = pageTypeInternal
    · have hnext := nextPage_of_internal key hpage hinternal
      rw [run_descendToLeafFrom_internal hinternal] at hrun
      cases hchild : pages (childFor page key) with
      | none =>
        simp only [hchild, some_inj] at hrun
        refine ⟨childFor page key, .step hnext (.here _),
          nextPage_of_none key hchild, ?_⟩
        rw [hchild, ← hrun, map_none]
      | some child =>
        simp only [hchild] at hrun
        obtain ⟨last, hfollows, hend, hr⟩ := ih hchild hrun
        exact ⟨last, .step hnext hfollows, hend, hr⟩
    · rw [run_descendToLeafFrom_leaf hinternal, some_inj] at hrun
      refine ⟨id, .here id, nextPage_of_leaf key hpage hinternal, ?_⟩
      rw [hpage, ← hrun, map_some]

/-- A descent returns what the chain of child pointers ends in. -/
theorem follows_of_run_descendToLeaf {r : Option (UInt32 × BtreePage)}
    (hrun : (run (servePages pages) (descendToLeaf rounds key lock) ()).1 = some r) :
    ∃ last, Follows (nextPage pages key) rootPageId last ∧
      nextPage pages key last = none ∧
      r = (pages last).map fun page => (last, page) := by
  rw [run_descendToLeaf] at hrun
  cases hroot : pages rootPageId with
  | none =>
    simp only [hroot, some_inj] at hrun
    refine ⟨rootPageId, .here _, nextPage_of_none key hroot, ?_⟩
    rw [hroot, ← hrun, map_none]
  | some page =>
    simp only [hroot] at hrun
    exact follows_of_run_descendToLeafFrom hroot hrun

/-! ## The pages a descent visits -/

theorem issued_descendToLeafFrom_internal (hinternal : page.header.pageType = pageTypeInternal) :
    issued pageVisit (servePages pages) (descendToLeafFrom key lock (rounds + 1) id page) () =
      1 + match pages (childFor page key) with
      | none => 0
      | some child => issued pageVisit (servePages pages)
          (descendToLeafFrom key lock rounds (childFor page key) child) () := by
  rw [descendToLeafFrom, if_pos hinternal]
  show 0 + (1 + issued pageVisit (servePages pages) (match pages (childFor page key) with
      | none => pure (some none)
      | some child => descendToLeafFrom key lock rounds (childFor page key) child) ()) = _
  rw [Nat.zero_add]
  cases pages (childFor page key) with
  | none => rfl
  | some child => rfl

theorem issued_descendToLeafFrom_leaf (hleaf : page.header.pageType ≠ pageTypeInternal) :
    issued pageVisit (servePages pages) (descendToLeafFrom key lock rounds id page) () = 0 := by
  cases rounds with
  | zero => rfl
  | succ rounds => rw [descendToLeafFrom, if_neg hleaf, issued_pure]

theorem issued_descendToLeafFrom_le (hpage : pages id = some page)
    (h : EndsWithin (nextPage pages key) (n + 1) id) :
    issued pageVisit (servePages pages) (descendToLeafFrom key lock rounds id page) () ≤ n := by
  induction rounds generalizing n id page with
  | zero => exact Nat.zero_le n
  | succ rounds ih =>
    by_cases hinternal : page.header.pageType = pageTypeInternal
    · have hends := h _ (nextPage_of_internal key hpage hinternal)
      obtain ⟨n, rfl⟩ : ∃ k, n = k + 1 := by
        cases n with
        | zero => exact hends.elim
        | succ n => exact ⟨n, rfl⟩
      rw [issued_descendToLeafFrom_internal hinternal]
      cases hchild : pages (childFor page key) with
      | none => exact Nat.le_add_left 1 n
      | some child =>
        have hrest := ih hchild hends
        dsimp only
        omega
    · rw [issued_descendToLeafFrom_leaf hinternal]
      exact Nat.zero_le n

theorem le_issued_descendToLeafFrom (hpage : pages id = some page)
    (h : ¬ EndsWithin (nextPage pages key) n id) :
    n ≤ issued pageVisit (servePages pages) (descendToLeafFrom key lock n id page) () := by
  induction n generalizing id page with
  | zero => exact Nat.zero_le _
  | succ n ih =>
    by_cases hinternal : page.header.pageType = pageTypeInternal
    · rw [endsWithin_succ_iff (nextPage_of_internal key hpage hinternal)] at h
      rw [issued_descendToLeafFrom_internal hinternal]
      cases hchild : pages (childFor page key) with
      | none =>
        cases n with
        | zero => exact le_refl 1
        | succ n => exact absurd (endsWithin_of_none (nextPage_of_none key hchild)) h
      | some child =>
        have hrest := ih hchild h
        dsimp only
        omega
    · exact absurd (endsWithin_of_none (nextPage_of_leaf key hpage hinternal)) h

theorem issued_descendToLeaf (rounds : ℕ) :
    issued pageVisit (servePages pages) (descendToLeaf rounds key lock) () =
      1 + match pages rootPageId with
      | none => 0
      | some page => issued pageVisit (servePages pages)
          (descendToLeafFrom key lock rounds rootPageId page) () := by
  show 1 + issued pageVisit (servePages pages) (match pages rootPageId with
      | none => pure (some none)
      | some page => descendToLeafFrom key lock rounds rootPageId page) () = _
  cases pages rootPageId with
  | none => rfl
  | some page => rfl

/-- The descent visits at most `n + 1` pages, however long it is given, exactly
when the chain of child pointers ends within them. -/
theorem issued_descendToLeaf_le_iff :
    (∀ rounds, issued pageVisit (servePages pages) (descendToLeaf rounds key lock) () ≤ n + 1) ↔
      EndsWithin (nextPage pages key) (n + 1) rootPageId := by
  constructor
  · intro h
    by_contra hends
    cases hroot : pages rootPageId with
    | none => exact hends (endsWithin_of_none (nextPage_of_none key hroot))
    | some page =>
      have hlow : n + 1 ≤ issued pageVisit (servePages pages)
          (descendToLeafFrom key lock (n + 1) rootPageId page) () :=
        le_issued_descendToLeafFrom hroot hends
      have hhigh := h (n + 1)
      rw [issued_descendToLeaf, hroot] at hhigh
      dsimp only at hhigh
      omega
  · intro hends rounds
    rw [issued_descendToLeaf]
    cases hroot : pages rootPageId with
    | none => exact Nat.le_add_left 1 n
    | some page =>
      have hrest : issued pageVisit (servePages pages)
          (descendToLeafFrom key lock rounds rootPageId page) () ≤ n :=
        issued_descendToLeafFrom_le hroot hends
      dsimp only
      omega

section Walk

variable {κ : Type} {callback : Bytes → Bytes → κ → ℤ × κ} {pfx : Bytes}
variable {start : ℤ}

theorem nextLeaf_of_some (hpage : pages id = some page) (start : ℤ) :
    nextLeaf pages pfx (id, start) =
      if meetsEnd page pfx (page.keyCount - start).toNat start = true then none
      else if page.header.nextPageId = 0 then none
      else some (page.header.nextPageId, 0) := by
  rw [nextLeaf, hpage]

theorem snd_nextLeaf {leaf : UInt32 × ℤ} {next : UInt32}
    (h : nextLeaf pages pfx leaf = some (next, start)) : start = 0 := by
  obtain ⟨id, start'⟩ := leaf
  rw [nextLeaf] at h
  split at h
  · cases h
  · split_ifs at h
    cases h
    rfl

theorem nextLeaf_of_none (hpage : pages id = none) (start : ℤ) :
    nextLeaf pages pfx (id, start) = none := by
  rw [nextLeaf, hpage]

section

variable (hgo : ∀ k v ctx, (callback k v ctx).1 = 0)
include hgo

theorem run_scanLeaves_succ (pfx : Bytes) (rounds : ℕ)
    (hpage : pages id = some page) (start : ℤ) (ctx : κ) :
    ∃ ctx', (run (servePages pages) (scanLeaves pfx callback (rounds + 1) id page start ctx) ()).1 =
      match nextLeaf pages pfx (id, start) with
      | none => some (0, ctx')
      | some (next, _) =>
        match pages next with
        | none => some (-1, ctx')
        | some page => (run (servePages pages)
            (scanLeaves pfx callback rounds next page 0 ctx') ()).1 := by
  obtain ⟨ctx', hoffer⟩ := exists_offer hgo
    (passed page pfx (page.keyCount - start).toNat start) ctx
  refine ⟨ctx', ?_⟩
  rw [scanLeaves, scanPage_of_offer _ _ _ _ hoffer, nextLeaf_of_some hpage]
  by_cases hend : meetsEnd page pfx (page.keyCount - start).toNat start = true
  · simp only [if_pos hend]
    rfl
  · simp only [if_neg hend, run_releasePage_bind]
    by_cases hnext : page.header.nextPageId = 0
    · simp only [if_pos hnext]
      rfl
    · simp only [if_neg hnext, run_getPage_bind]
      cases hload : pages page.header.nextPageId with
      | none => simp only [servePages, hload, run_pure]
      | some next => simp only [servePages, hload]

theorem exists_run_scanLeaves (hpage : pages id = some page)
    (h : EndsWithin (nextLeaf pages pfx) n (id, start)) (hn : n ≤ rounds) (ctx : κ) :
    ∃ r, (run (servePages pages)
      (scanLeaves pfx callback rounds id page start ctx) ()).1 = some r := by
  induction n generalizing rounds id page start ctx with
  | zero => exact h.elim
  | succ n ih =>
    obtain ⟨rounds, rfl⟩ : ∃ k, rounds = k + 1 := ⟨rounds - 1, by omega⟩
    obtain ⟨ctx', hrun⟩ := run_scanLeaves_succ hgo pfx rounds hpage start ctx
    rw [hrun]
    cases hnext : nextLeaf pages pfx (id, start) with
    | none => exact ⟨_, rfl⟩
    | some next =>
      obtain ⟨next, start'⟩ := next
      dsimp only
      cases hload : pages next with
      | none => exact ⟨_, rfl⟩
      | some page' =>
        have hzero := snd_nextLeaf hnext
        subst hzero
        exact ih hload (h _ hnext) (by omega) ctx'

theorem exists_endsWithin_of_run {ctx : κ} {r : ℤ × κ}
    (hpage : pages id = some page) (hrun : (run (servePages pages)
      (scanLeaves pfx callback rounds id page start ctx) ()).1 = some r) :
    ∃ n, EndsWithin (nextLeaf pages pfx) n (id, start) := by
  induction rounds generalizing id page start ctx with
  | zero => cases hrun
  | succ rounds ih =>
    obtain ⟨ctx', hround⟩ := run_scanLeaves_succ hgo pfx rounds hpage start ctx
    rw [hround] at hrun
    cases hnext : nextLeaf pages pfx (id, start) with
    | none => exact ⟨1, endsWithin_of_none hnext⟩
    | some next =>
      obtain ⟨next, start'⟩ := next
      have hzero := snd_nextLeaf hnext
      subst hzero
      simp only [hnext] at hrun
      cases hload : pages next with
      | none =>
        exact ⟨2, (endsWithin_succ_iff hnext).mpr (endsWithin_of_none (nextLeaf_of_none hload 0))⟩
      | some page' =>
        simp only [hload] at hrun
        obtain ⟨n, hn⟩ := ih hload hrun
        exact ⟨n + 1, (endsWithin_succ_iff hnext).mpr hn⟩

end

end Walk

/-! ## Whole operations -/

/-- On these pages every tree operation returns and no descent visits more than
`BTREE_MAX_DEPTH` pages.  The two facts about inserts hold in any
environment. -/
structure OpsEnd (pages : UInt32 → Option BtreePage) : Prop where
  insert : ∃ n, ∀ txn key value, AtMost pageVisit (dbInsert txn key value) n
  insertDescent : ∀ key, AtMost pageVisit (descendPath key) btreeMaxDepth
  search : ∀ txn key capacity, ∃ rounds r, (run (servePages pages)
    (dbSearch rounds txn key capacity) ()).1 = some r
  delete : ∀ txn key, ∃ rounds r, (run (servePages pages) (dbDelete rounds txn key) ()).1 = some r
  scan : ∀ (κ : Type) (callback : Bytes → Bytes → κ → ℤ × κ) txn ctx,
    (∀ k v ctx, (callback k v ctx).1 = 0) → ∃ rounds r, (run (servePages pages)
      (dbScan rounds txn callback ctx) ()).1 = some r
  scanPrefix : ∀ (κ : Type) (callback : Bytes → Bytes → κ → ℤ × κ) txn pfx ctx,
    (∀ k v ctx, (callback k v ctx).1 = 0) → ∃ rounds r, (run (servePages pages)
      (dbScanPrefix rounds txn pfx callback ctx) ()).1 = some r
  descent : ∀ rounds key lock, issued pageVisit (servePages pages)
    (descendToLeaf rounds key lock) () ≤ btreeMaxDepth

theorem ChainsEnd.exists_run_dbSearch (h : ChainsEnd pages)
    (txn : Option Transaction) (key : Bytes) (capacity : ℕ) :
    ∃ rounds r, (run (servePages pages) (dbSearch rounds txn key capacity) ()).1 = some r := by
  refine ⟨btreeMaxDepth, ?_⟩
  rw [dbSearch]
  cases activeTxn txn with
  | none => exact ⟨_, rfl⟩
  | some txn =>
    obtain ⟨leaf, hleaf⟩ := exists_run_descendToLeaf .shared (h.descents key) le_rfl
    rw [run_bind, hleaf]
    cases leaf with
    | none => exact ⟨_, rfl⟩
    | some leaf =>
      obtain ⟨pageId, page⟩ := leaf
      dsimp only
      cases matchingEntry page (findKeyPosition page key) key with
      | none => exact ⟨_, rfl⟩
      | some kv => exact ⟨_, rfl⟩

theorem ChainsEnd.exists_run_dbDelete (h : ChainsEnd pages)
    (txn : Option Transaction) (key : Bytes) :
    ∃ rounds r, (run (servePages pages) (dbDelete rounds txn key) ()).1 = some r := by
  refine ⟨btreeMaxDepth, ?_⟩
  rw [dbDelete]
  cases activeTxn txn with
  | none => exact ⟨_, rfl⟩
  | some txn =>
    obtain ⟨leaf, hleaf⟩ := exists_run_descendToLeaf .exclusive (h.descents key) le_rfl
    rw [run_bind, hleaf]
    cases leaf with
    | none => exact ⟨_, rfl⟩
    | some leaf =>
      obtain ⟨pageId, page⟩ := leaf
      dsimp only
      cases matchingEntry page (findKeyPosition page key) key with
      | none => exact ⟨_, rfl⟩
      | some kv =>
        dsimp only
        cases deleteKvPair page (findKeyPosition page key) with
        | none => exact ⟨_, rfl⟩
        | some page' => exact ⟨_, rfl⟩

theorem ChainsEnd.exists_run_scanRange {κ : Type}
    {callback : Bytes → Bytes → κ → ℤ × κ} (h : ChainsEnd pages)
    (hgo : ∀ k v ctx, (callback k v ctx).1 = 0) (txn : Option Transaction) (pfx : Bytes) (ctx : κ) :
    ∃ rounds r, (run (servePages pages) (scanRange rounds txn pfx callback ctx) ()).1 = some r := by
  cases hactive : activeTxn txn with
  | none =>
    refine ⟨0, (-1, ctx), ?_⟩
    rw [scanRange, hactive]
    rfl
  | some txn' =>
    by_cases hlong : maxKeySize < pfx.length
    · refine ⟨0, (-1, ctx), ?_⟩
      rw [scanRange, hactive]
      dsimp only
      rw [if_pos hlong, run_pure]
    · obtain ⟨leaf, hleaf⟩ := exists_run_descendToLeaf .shared (h.descents pfx) le_rfl
      obtain ⟨last, hfollows, hend, rfl⟩ := follows_of_run_descendToLeaf hleaf
      -- enough rounds for the walk behind the descent
      obtain ⟨n, hn⟩ : ∃ n, ∀ page, pages last = some page → EndsWithin (nextLeaf pages pfx) n
            (last, findKeyPosition page pfx) := by
        cases hpage : pages last with
        | none => exact ⟨0, by simp⟩
        | some page =>
          have htype := pageType_of_nextPage hpage hend
          obtain ⟨n, hn⟩ := h.links pfx (not_lt.mp hlong) last page hfollows hpage htype
          refine ⟨n, fun page' hpage' => ?_⟩
          rw [← some_inj.mp hpage']
          exact hn
      refine ⟨max btreeMaxDepth n, ?_⟩
      obtain ⟨leaf', hleaf'⟩ := exists_run_descendToLeaf .shared
        (h.descents pfx) (le_max_left btreeMaxDepth n)
      obtain ⟨last', hfollows', hend', rfl⟩ := follows_of_run_descendToLeaf hleaf'
      obtain rfl := hfollows.end_unique hfollows' hend hend'
      rw [scanRange, hactive]
      dsimp only
      rw [if_neg hlong, run_bind, hleaf']
      cases hpage : pages last with
      | none => exact ⟨_, rfl⟩
      | some page =>
        exact exists_run_scanLeaves hgo hpage (hn page hpage) (le_max_right btreeMaxDepth n) ctx

def readingTxn : Transaction where
  txnId := 1
  state := .active

/-- The callback of a caller that collects the pairs. -/
def collect (key value : Bytes) (ctx : List (Bytes × Bytes)) : ℤ × List (Bytes × Bytes) :=
  (0, ctx ++ [(key, value)])

/-- A scan that returned shows that the walk from the leaf of its descent
ends. -/
theorem OpsEnd.links (h : OpsEnd pages) {pfx : Bytes} (hlen : pfx.length ≤ maxKeySize)
    (hfollows : Follows (nextPage pages pfx) rootPageId id) (hpage : pages id = some page)
    (hleaf : page.header.pageType ≠ pageTypeInternal) :
    ∃ n, EndsWithin (nextLeaf pages pfx) n (id, findKeyPosition page pfx) := by
  have hgo : ∀ (k v : Bytes) (ctx : List (Bytes × Bytes)),
      (collect k v ctx).1 = 0 := fun _ _ _ => rfl
  obtain ⟨rounds, r, hrun⟩ := h.scanPrefix _ collect (some readingTxn) pfx [] hgo
  have hactive : activeTxn (some readingTxn) = some readingTxn := rfl
  rw [dbScanPrefix, scanRange, hactive] at hrun
  dsimp only at hrun
  rw [if_neg (not_lt.mpr hlen), run_bind] at hrun
  cases hdescent : (run (servePages pages) (descendToLeaf rounds pfx .shared) ()).1 with
  | none =>
    rw [hdescent] at hrun
    cases hrun
  | some leaf =>
    obtain ⟨last, hlast, hend, rfl⟩ := follows_of_run_descendToLeaf hdescent
    obtain rfl := hlast.end_unique hfollows hend (nextPage_of_leaf pfx hpage hleaf)
    rw [hdescent, hpage] at hrun
    exact exists_endsWithin_of_run hgo hpage hrun

/-- The tree operations all end on a data file, with descents of at most
`BTREE_MAX_DEPTH` pages, exactly when its chains do. -/
theorem tree_operations_end_iff (pages : UInt32 → Option BtreePage) :
    OpsEnd pages ↔ ChainsEnd pages := by
  constructor
  · intro h
    constructor
    · intro key
      exact issued_descendToLeaf_le_iff.mp fun rounds => h.descent rounds key .shared
    · intro pfx hlen id page hfollows hpage hleaf
      exact h.links hlen hfollows hpage hleaf
  · intro h
    constructor
    · exact exists_atMost_dbInsert
    · exact atMost_descendPath
    · exact h.exists_run_dbSearch
    · exact h.exists_run_dbDelete
    · intro κ callback txn ctx hgo
      exact h.exists_run_scanRange hgo txn [] ctx
    · intro κ callback txn pfx ctx hgo
      exact h.exists_run_scanRange hgo txn pfx ctx
    · intro rounds key lock
      exact issued_descendToLeaf_le_iff.mpr (h.descents key) rounds

end Chains

/-! ## Two data files that hold an operation for good -/

/-- A page without entries whose link leads to page 1. -/
def linkedToRoot (pageType : UInt32) : BtreePage where
  header := { BtreePage.zero.header with
    pageType := pageType
    nextPageId := rootPageId }
  data := BtreePage.zero.data

/-- An internal root that is its own rightmost child keeps `db_search` in its
descent, and a leaf that is its own right sibling keeps `db_scan` in its
walk. -/
theorem tree_operations_spin :
    (∀ rounds, (run
      (servePages fun _ => some (linkedToRoot pageTypeInternal))
      (dbSearch rounds (some readingTxn) [] 0) ()).1 = none) ∧
    ∀ rounds, (run
      (servePages fun _ => some (linkedToRoot pageTypeLeaf))
      (dbScan rounds (some readingTxn) collect []) ()).1 = none := by
  have hactive : activeTxn (some readingTxn) = some readingTxn := rfl
  constructor
  · intro rounds
    rw [dbSearch, hactive]
    dsimp only
    rw [run_bind]
    cases hdescent : (run (servePages fun _ => some (linkedToRoot pageTypeInternal))
        (descendToLeaf rounds [] .shared) ()).1 with
    | none => rfl
    | some leaf =>
      obtain ⟨last, -, hend, -⟩ := follows_of_run_descendToLeaf hdescent
      exact absurd rfl (pageType_of_nextPage rfl hend)
  · intro rounds
    cases rounds with
    | zero => rfl
    | succ rounds =>
      cases hrun : (run (servePages fun _ => some (linkedToRoot pageTypeLeaf))
          (dbScan (rounds + 1) (some readingTxn) collect []) ()).1 with
      | none => rfl
      | some r =>
        -- the root is the leaf the descent returns
        have hwalk : (run (servePages fun _ => some (linkedToRoot pageTypeLeaf))
            (scanLeaves [] collect (rounds + 1) rootPageId
              (linkedToRoot pageTypeLeaf) 0 []) ()).1 = some r := hrun
        obtain ⟨n, hn⟩ := exists_endsWithin_of_run (fun _ _ _ => rfl) rfl hwalk
        exact absurd hn (not_endsWithin_of_loop rfl)

end Codo.Storage
