import Codo.Storage.Commands
import Mathlib.Logic.Function.Basic

/-!
# The page store

What the tree code may assume of the pager: a map from page ids to page
images and the page allocator.  A page nobody has loaded yet has no known
image, and the first `get_page` may find anything in it: the pager hands out
a fresh leaf beyond the end of the data file and a page of zeros inside a
hole.

`pageStep` is the transition relation of the commands.  `Faults` says which
calls may fail although the store could serve them.  The rules for the
commands hold of every `StoreLike` relation, one that agrees with `pageStep` on
proper calls: what is proved by them also says that only such calls are made.
-/

namespace Codo.Storage

open Support Program Function List

/-- Which failures the environment may inject. -/
structure Faults where
  /-- `get_page` may return `NULL`. -/
  pages : Bool
  /-- `allocate_page` may return `0` while ids are left. -/
  ids : Bool
  deriving DecidableEq

/-- Every call the store can serve succeeds. -/
def Faults.none : Faults := ⟨false, false⟩

/-- Any page load and any allocation may fail. -/
def Faults.any : Faults := ⟨true, true⟩

/-- The pages and the allocator.  `freePages` has the id freed last at its
head; `exhausted` records that some `allocate_page` returned `0`. -/
structure Store where
  pages : UInt32 → Option BtreePage
  freePages : List UInt32
  nextPageId : UInt32
  exhausted : Bool

variable {id : UInt32}

namespace Store

variable (s : Store)

def put (id : UInt32) (page : BtreePage) : Store :=
  { s with pages := update s.pages id (some page) }

/-- The image of page `id` is no longer known. -/
def forget (id : UInt32) : Store :=
  { s with pages := update s.pages id none }

/-- `allocate_page`. -/
def allocate : UInt32 × Store :=
  match s.freePages with
  | id :: rest => (id, { s with freePages := rest })
  | [] =>
    if s.nextPageId.toNat < maxPages then
      (s.nextPageId, { s with nextPageId := s.nextPageId + 1 })
    else
      (0, { s with exhausted := true })

/-- How many ids `allocate_page` can still hand out. -/
def idsLeft : ℕ :=
  s.freePages.length + (maxPages - s.nextPageId.toNat)

@[simp] theorem put_pages_self (id : UInt32) (page : BtreePage) :
    (s.put id page).pages id = some page := by
  simp [put]

theorem put_pages_of_ne {i : UInt32} (page : BtreePage) (h : i ≠ id) :
    (s.put id page).pages i = s.pages i := by
  simp [put, h]

variable {s}

theorem put_of_pages {page : BtreePage} (h : s.pages id = some page) : s.put id page = s := by
  rw [put, ← h, update_eq_self]

theorem of_pages {page : BtreePage} {P : BtreePage → Prop} (h : s.pages id = some page)
    (hP : ∃ page, s.pages id = some page ∧ P page) : P page := by
  obtain ⟨page', hpage', hP⟩ := hP
  rw [h] at hpage'
  cases hpage'
  exact hP

end Store

/-- The page image after `mark_page_dirty` wrote the two header fields. -/
def BtreePage.stamp (page : BtreePage) (lsn : UInt64) (checksum : UInt32) : BtreePage :=
  { page with header := { page.header with lsn := lsn, checksum := checksum } }

/-- The image `load_page_from_disk` builds for an id beyond the file. -/
def freshPage (id : UInt32) : BtreePage :=
  { BtreePage.zero with
    header :=
      { BtreePage.zero.header with
        pageId := id
        pageType := pageTypeLeaf
        freeSpace := UInt16.ofNat btreePageCapacity } }

/-- What each command may do to the store. -/
def pageStep (F : Faults) :
    (c : PagerCmd) → Store → c.Reply → Store → Prop
  | .getPage id _, s, reply, s' =>
    (F.pages = true ∧ reply = (none : Option BtreePage) ∧ s' = s) ∨ ∃ page, reply = some page ∧
        (s.pages id = some page ∨ s.pages id = none) ∧ s' = s.put id page
  | .releasePage _ _, s, _, s' => s' = s
  | .updatePage id page, s, _, s' => ∃ lsn checksum, s' = s.put id (page.stamp lsn checksum)
  | .scribblePage id _, s, _, s' => s' = s.forget id
  | .allocatePage, s, reply, s' =>
    (F.ids = true ∧ reply = (0 : UInt32) ∧ s' = { s with exhausted := true }) ∨
      (reply = s.allocate.1 ∧ s' = s.allocate.2)
  | .deallocatePage id, s, _, s' => s' = s ∨ s' = { s with freePages := id :: s.freePages }
  | .writeWalRecord _ _ _ _, s, reply, s' => (reply = (0 : ℤ) ∨ reply = (-1 : ℤ)) ∧ s' = s

/-- The store can always answer, so a program never gets stuck on it. -/
theorem exists_pageStep (F : Faults) (c : PagerCmd) (s : Store) :
    ∃ reply s', pageStep F c s reply s' := by
  cases c with
  | getPage id lock =>
    cases hpage : s.pages id with
    | none => exact ⟨some BtreePage.zero, _, .inr ⟨_, rfl, .inr hpage, rfl⟩⟩
    | some page => exact ⟨some page, _, .inr ⟨_, rfl, .inl hpage, rfl⟩⟩
  | releasePage id lock => exact ⟨(), s, rfl⟩
  | updatePage id page => exact ⟨(), _, 0, 0, rfl⟩
  | scribblePage id page => exact ⟨(), _, rfl⟩
  | allocatePage => exact ⟨s.allocate.1, _, .inr ⟨rfl, rfl⟩⟩
  | deallocatePage id => exact ⟨(), s, .inl rfl⟩
  | writeWalRecord txnId type pageId data => exact ⟨(0 : ℤ), s, .inl rfl, rfl⟩

/-! ## Proper calls -/

/-- `id` has been handed out and not been given back. -/
structure Store.Owned (s : Store) (id : UInt32) : Prop where
  nonzero : id ≠ 0
  lt : id.toNat < s.nextPageId.toNat
  notFree : id ∉ s.freePages

/-- Some page has been loaded under `id`. -/
def Store.Known (s : Store) (id : UInt32) : Prop :=
  ∃ page, s.pages id = some page

/-- The calls of a program that keeps to pages it was given: it loads none but
those, and needs no `deallocate_page` to undo a failed split. -/
def Proper : PagerCmd → Store → Prop
  | .getPage id _, s => s.Known id ∨ s.Owned id
  | .updatePage _ _, _ => True
  | .scribblePage _ _, _ => False
  | .deallocatePage _, _ => False
  | .releasePage _ _, _ => True
  | .allocatePage, _ => True
  | .writeWalRecord _ _ _ _, _ => True

/-- What the commands may do to a store. -/
abbrev StoreRel :=
  (c : PagerCmd) → Store → c.Reply → Store → Prop

/-- A component that answers proper calls as the page store does. -/
class StoreLike (F : outParam Faults) (T : StoreRel) : Prop where
  step : ∀ {c s reply s'}, Proper c s → T c s reply s' → pageStep F c s reply s'

instance (F : Faults) : StoreLike F (pageStep F) :=
  ⟨fun _ h => h⟩

section Rules

variable {F : Faults} {T : StoreRel} [hT : StoreLike F T] {s : Store}

include hT

theorem always_proper (c : PagerCmd) {Q : c.Reply → Store → Prop} (hproper : Proper c s)
    (h : ∀ reply s', pageStep F c s reply s' → Q reply s') : Always T (issue c) s Q :=
  always_issue.mpr fun reply s' hstep => h reply s' (hT.step hproper hstep)

variable {lock : LockType}

theorem always_getPage {Q : Option BtreePage → Store → Prop}
    (hid : s.Known id ∨ s.Owned id) (hfail : F.pages = true → Q none s)
    (hload : ∀ page, (s.pages id = some page ∨ s.pages id = none) → Q (some page) (s.put id page)) :
    Always T (getPage id lock) s Q := by
  refine always_proper (.getPage id lock) hid ?_
  rintro reply s' (⟨hF, rfl, rfl⟩ | ⟨page, rfl, hpage, rfl⟩)
  · exact hfail hF
  · exact hload page hpage

/-- Loading a page whose image is known leaves the store alone. -/
theorem always_getPage_of_pages {page : BtreePage}
    {Q : Option BtreePage → Store → Prop} (hpage : s.pages id = some page)
    (hfail : F.pages = true → Q none s) (hload : Q (some page) s) :
    Always T (getPage id lock) s Q := by
  refine always_getPage (.inl ⟨page, hpage⟩) hfail ?_
  rintro page' (hpage' | hnone)
  · have heq : page = page' := Option.some.inj (hpage.symm.trans hpage')
    subst heq
    rwa [Store.put_of_pages hpage]
  · rw [hpage] at hnone
    cases hnone

theorem always_releasePage {Q : Unit → Store → Prop}
    (h : Q () s) : Always T (releasePage id lock) s Q := by
  refine always_proper (.releasePage id lock) trivial ?_
  rintro ⟨⟩ s' rfl
  exact h

theorem always_updatePage {page : BtreePage} {Q : Unit → Store → Prop}
    (h : ∀ lsn checksum, Q () (s.put id (page.stamp lsn checksum))) :
    Always T (updatePage id page) s Q := by
  refine always_proper (.updatePage id page) trivial ?_
  rintro ⟨⟩ s' ⟨lsn, checksum, rfl⟩
  exact h lsn checksum

theorem always_allocatePage {Q : UInt32 → Store → Prop}
    (hfail : F.ids = true → Q 0 { s with exhausted := true })
    (hserve : Q s.allocate.1 s.allocate.2) : Always T allocatePage s Q := by
  refine always_proper .allocatePage trivial ?_
  rintro reply s' (⟨hF, rfl, rfl⟩ | ⟨rfl, rfl⟩)
  · exact hfail hF
  · exact hserve

theorem always_writeWalRecord {txnId : UInt64} {type : WalRecordType}
    {pageId : UInt32} {data : Bytes} {Q : ℤ → Store → Prop} (h : ∀ rc, Q rc s) :
    Always T (writeWalRecord txnId type pageId data) s Q := by
  refine always_proper (.writeWalRecord txnId type pageId data) trivial ?_
  rintro rc s' ⟨-, rfl⟩
  exact h rc

end Rules

/-! ## Ownership -/

/-- The allocator's own state is sound. -/
structure AllocOk (s : Store) : Prop where
  nodup : s.freePages.Nodup
  free : ∀ id ∈ s.freePages, id ≠ 0 ∧ id.toNat < s.nextPageId.toNat
  pos : 0 < s.nextPageId.toNat
  le : s.nextPageId.toNat ≤ maxPages

/-- Different ids below a bound are no more than the bound. -/
theorem length_le_of_toNat_lt {l : List UInt32} (hnodup : l.Nodup) {m : ℕ}
    (hlt : ∀ id ∈ l, id.toNat < m) : l.length ≤ m := by
  have hmap : (l.map UInt32.toNat).Nodup := hnodup.map fun _ _ => UInt32.toNat.inj
  have hsub : l.map UInt32.toNat ⊆ List.range m := by
    intro k hk
    obtain ⟨id, hid, rfl⟩ := mem_map.mp hk
    exact mem_range.mpr (hlt id hid)
  have hle := (hmap.subperm hsub).length_le
  simpa using hle

namespace AllocOk

variable {s : Store}

theorem idsLeft_le (h : AllocOk s) : s.idsLeft ≤ maxPages := by
  have hfree := length_le_of_toNat_lt h.nodup fun id hid => (h.free id hid).2
  have hle := h.le
  rw [Store.idsLeft]
  omega

theorem put (h : AllocOk s) (id : UInt32) (page : BtreePage) : AllocOk (s.put id page) :=
  ⟨h.nodup, h.free, h.pos, h.le⟩

theorem toNat_succ (hlt : s.nextPageId.toNat < maxPages) :
    (s.nextPageId + 1).toNat = s.nextPageId.toNat + 1 := by
  have hsmall : s.nextPageId.toNat + 1 < 2 ^ 32 := by
    rw [maxPages] at hlt
    omega
  rw [UInt32.toNat_add, UInt32.toNat_one]
  exact Nat.mod_eq_of_lt hsmall

/-- `allocate_page` hands out an id nobody owns, or `0` when none is left. -/
theorem allocate (h : AllocOk s) :
    AllocOk s.allocate.2 ∧ s.allocate.2.pages = s.pages ∧
      (∀ id, s.Owned id → s.allocate.2.Owned id) ∧
      (s.allocate.1 = 0 ∧ s.allocate.2.exhausted = true ∧ s.idsLeft = 0 ∨
        ¬ s.Owned s.allocate.1 ∧ s.allocate.2.Owned s.allocate.1 ∧
          s.allocate.2.exhausted = s.exhausted ∧ s.idsLeft = s.allocate.2.idsLeft + 1) := by
  cases hfree : s.freePages with
  | cons id rest =>
    have heq : s.allocate = (id, { s with freePages := rest }) := by
      simp only [Store.allocate, hfree]
    have hnodup := h.nodup
    rw [hfree, nodup_cons] at hnodup
    have hid := h.free id (by simp [hfree])
    rw [heq]
    refine ⟨⟨hnodup.2, ?_, h.pos, h.le⟩, rfl, ?_, .inr ⟨?_, ?_, rfl, ?_⟩⟩
    · intro i hi
      exact h.free i (by simp [hfree, hi])
    · intro i hi
      refine ⟨hi.nonzero, hi.lt, ?_⟩
      intro hmem
      exact hi.notFree (by simp [hfree, show i ∈ rest from hmem])
    · intro hown
      exact hown.notFree (by simp [hfree])
    · exact ⟨hid.1, hid.2, hnodup.1⟩
    · rw [Store.idsLeft, Store.idsLeft, hfree, length_cons]
      exact Nat.succ_add _ _
  | nil =>
    by_cases hlt : s.nextPageId.toNat < maxPages
    · have heq : s.allocate = (s.nextPageId, { s with nextPageId := s.nextPageId + 1 }) := by
        simp only [Store.allocate, hfree, if_pos hlt]
      have hsucc := toNat_succ hlt
      have hpos := h.pos
      rw [heq]
      refine ⟨⟨h.nodup, ?_, ?_, ?_⟩, rfl, ?_, .inr ⟨?_, ?_, rfl, ?_⟩⟩
      · intro i hi
        have hi' := h.free i hi
        exact ⟨hi'.1, by rw [hsucc]; exact Nat.lt_succ_of_lt hi'.2⟩
      · rw [hsucc]
        exact Nat.succ_pos _
      · rw [hsucc]
        exact hlt
      · intro i hi
        refine ⟨hi.nonzero, ?_, hi.notFree⟩
        rw [hsucc]
        exact Nat.lt_succ_of_lt hi.lt
      · intro hown
        exact lt_irrefl _ hown.lt
      · refine ⟨?_, ?_, ?_⟩
        · intro hzero
          have hnext : s.nextPageId = 0 := hzero
          rw [hnext] at hpos
          exact absurd hpos (by decide)
        · rw [hsucc]
          exact Nat.lt_succ_self _
        · simp [hfree]
      · simp only [Store.idsLeft, hsucc]
        omega
    · have heq : s.allocate = (0, { s with exhausted := true }) := by
        simp only [Store.allocate, hfree, if_neg hlt]
      rw [heq]
      have hnone : s.idsLeft = 0 := by
        rw [Store.idsLeft, hfree, length_nil]
        omega
      refine ⟨⟨h.nodup, h.free, h.pos, h.le⟩, rfl, ?_, .inl ⟨rfl, rfl, hnone⟩⟩
      exact fun i hi => ⟨hi.nonzero, hi.lt, hi.notFree⟩

end AllocOk

end Codo.Storage
