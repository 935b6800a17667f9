import Codo.Storage.LogOrder
import Codo.Storage.Operations
import Codo.Storage.Pool

/-!
# The pager implements the page store

The tree code was verified against the page store.  Here the pager takes its
place: as long as a program confines itself to proper calls and holds the pages
it works on, the engine answers as a page store whose page loads and
allocations may fail.  That the programs of `db.c` do so follows from what was
proved about them: `strictStep` answers an improper call with a broken
allocator, and they end with a sound one.
-/

namespace Codo.Storage

open Support Engine Program Function List

/-! ## The allocator, the pool and the data file -/

/-- The allocator stands at `next` with the free list `free`; the data file and
the dirty pages lie below `next`, and no slot is marked as pinned.  If `quiet`,
the environment serves every read, write and allocation from now on. -/
structure Tidy (quiet : Prop) (free : List UInt32) (next : UInt32) (e : Engine) : Prop where
  freePages : e.freePages = free
  nextPageId : e.nextPageId = next
  extent : e.file.length ≤ next.toNat * pageSize
  dirty : ∀ i, (e.pool i).dirty = true → (e.pool i).pageId.toNat < next.toNat
  unpinned : ∀ i, (e.pool i).pinned = false
  serving : quiet → e.io.reads = [] ∧ e.io.writes = [] ∧ e.io.allocs = []

variable {quiet : Prop} {e : Engine} {id : UInt32} {crc : Bytes → UInt32}

namespace Tidy

variable {free : List UInt32} {next : UInt32} {i : Slot}

section

variable (h : Tidy quiet free next e)
include h

theorem setEntry {entry : BufferEntry}
    (hdirty : entry.dirty = true → entry.pageId.toNat < next.toNat)
    (hpinned : entry.pinned = false) : Tidy quiet free next (e.setEntry i entry) := by
  refine ⟨h.freePages, h.nextPageId, h.extent, ?_, ?_, h.serving⟩
  · intro j
    by_cases hj : j = i
    · subst hj
      simpa [Engine.setEntry] using hdirty
    · simpa [Engine.setEntry, hj] using h.dirty j
  · intro j
    by_cases hj : j = i
    · subst hj
      simpa [Engine.setEntry] using hpinned
    · simpa [Engine.setEntry, hj] using h.unpinned j

theorem flushWalBuffer : Tidy quiet free next e.flushWalBuffer.2 :=
  ⟨h.freePages, h.nextPageId, h.extent, h.dirty, h.unpinned, h.serving⟩

theorem writeWalRecord (txnId : UInt64) (type : WalRecordType) (pageId : UInt32) (data : Bytes) :
    Tidy quiet free next (e.writeWalRecord crc txnId type pageId data).2 :=
  ⟨h.freePages, h.nextPageId, h.extent, h.dirty, h.unpinned, h.serving⟩

theorem noteWrite (page : BtreePage) : Tidy quiet free next (e.noteWrite page) :=
  ⟨h.freePages, h.nextPageId, h.extent, h.dirty, h.unpinned, h.serving⟩

/-- The range of a dirty page lies below the allocator. -/
theorem pageOffset_le (hdirty : (e.pool i).dirty = true) (page : BtreePage) :
    pageOffset (e.pool i).pageId + page.toBytes.length ≤
      next.toNat * pageSize := by
  have hlt := h.dirty i hdirty
  rw [page.length_toBytes, pageOffset, ← Nat.succ_mul]
  exact Nat.mul_le_mul_right _ hlt

end

theorem pwriteLoop_nil (file : Bytes) (offset : ℕ) (rest : Bytes) :
    (pwriteLoop [] file offset rest).ok = true ∧ (pwriteLoop [] file offset rest).results = [] := by
  cases rest with
  | nil => exact ⟨rfl, rfl⟩
  | cons b rest => exact ⟨rfl, rfl⟩

section

variable (h : Tidy quiet free next e)
include h

theorem writeBack (hdirty : (e.pool i).dirty = true) (page : BtreePage) :
    Tidy quiet free next (e.writeBack i page).2 ∧ (quiet → (e.writeBack i page).1 = true) := by
  have hnoted := h.flushWalBuffer.noteWrite page
  have hwritten : ∀ results, (quiet → results = []) → Tidy quiet free next
      { e.flushWalBuffer.2.noteWrite page with
        file := (pwriteLoop results e.file (pageOffset (e.pool i).pageId) page.toBytes).file
        io := { e.flushWalBuffer.2.io with
          writes := (pwriteLoop results e.file (pageOffset (e.pool i).pageId)
            page.toBytes).results } } := by
    intro results hresults
    refine ⟨h.freePages, h.nextPageId,
      length_pwriteLoop_le h.extent (h.pageOffset_le hdirty page), h.dirty, h.unpinned, ?_⟩
    intro hquiet
    have hserving := hnoted.serving hquiet
    rw [hresults hquiet]
    exact ⟨hserving.1, (pwriteLoop_nil _ _ _).2, hserving.2.2⟩
  simp only [Engine.writeBack]
  split
  next hok =>
    refine ⟨(hwritten _ fun hquiet => (h.serving hquiet).2.1).setEntry ?_
      (h.unpinned i), fun _ => rfl⟩
    intro hdirty
    cases hdirty
  next hfail =>
    refine ⟨hwritten _ fun hquiet => (h.serving hquiet).2.1, ?_⟩
    intro hquiet
    refine absurd ?_ hfail
    have hnil : (e.flushWalBuffer.2.noteWrite page).io.writes = [] := (h.serving hquiet).2.1
    rw [hnil]
    exact (pwriteLoop_nil _ _ _).1

theorem cleanVictim (i : Slot) :
    Tidy quiet free next (e.cleanVictim i).2 ∧ (quiet → (e.cleanVictim i).1 = true) := by
  cases hpage : (e.pool i).page with
  | none =>
    simp only [Engine.cleanVictim, hpage]
    exact ⟨h, fun _ => trivial⟩
  | some page =>
    simp only [Engine.cleanVictim, hpage]
    split
    next hdirty => exact h.writeBack hdirty page
    next => exact ⟨h, fun _ => rfl⟩

theorem unlinkVictim (i : Slot) : Tidy quiet free next (e.unlinkVictim i) := by
  rw [Engine.unlinkVictim]
  split
  next => exact ⟨h.freePages, h.nextPageId, h.extent, h.dirty, h.unpinned, h.serving⟩
  next => exact h

theorem clockGettime : Tidy quiet free next e.clockGettime.2 :=
  ⟨h.freePages, h.nextPageId, h.extent, h.dirty, h.unpinned, h.serving⟩

theorem allocate : Tidy quiet free next e.allocate.2 ∧ (quiet → e.allocate.1 = true) := by
  constructor
  · refine ⟨h.freePages, h.nextPageId, h.extent, h.dirty, h.unpinned, ?_⟩
    intro hquiet
    obtain ⟨hreads, hwrites, hallocs⟩ := h.serving hquiet
    exact ⟨hreads, hwrites, by simp [Engine.allocate, hallocs]⟩
  · intro hquiet
    simp [Engine.allocate, (h.serving hquiet).2.2]

theorem relabel (i : Slot) (id : UInt32) : Tidy quiet free next (e.relabel i id) := by
  have hset : Tidy quiet free next (e.clockGettime.2.setEntry i
      ⟨(e.pool i).page, id, false, false, 1, e.clockGettime.1⟩) := h.clockGettime.setEntry nofun rfl
  exact ⟨hset.freePages, hset.nextPageId, hset.extent, hset.dirty, hset.unpinned, hset.serving⟩

theorem allocateBufferEntry (id : UInt32) : Tidy quiet free next (e.allocateBufferEntry id).2 := by
  simp only [Engine.allocateBufferEntry]
  split
  next => exact h
  next i _ =>
    obtain ⟨hclean, -⟩ := h.cleanVictim i
    split
    next => exact (hclean.unlinkVictim i).relabel i id
    next => exact hclean

theorem failPinned (i : Slot) : Tidy quiet free next (e.failPinned i).2 :=
  h.setEntry (h.dirty i) (h.unpinned i)

theorem ensureFrame (i : Slot) :
    Tidy quiet free next (e.ensureFrame i).2 ∧ (quiet → (e.ensureFrame i).1 = true) ∧
      ((e.ensureFrame i).2.pool i).pageId = (e.pool i).pageId := by
  obtain ⟨hmem, hgiven⟩ := h.allocate
  cases hpage : (e.pool i).page with
  | some page =>
    simp only [Engine.ensureFrame, hpage]
    exact ⟨h, fun _ => trivial, trivial⟩
  | none =>
    simp only [Engine.ensureFrame, hpage]
    split
    next =>
      refine ⟨hmem.setEntry (h.dirty i) (h.unpinned i), fun _ => rfl, ?_⟩
      simp [Engine.setEntry]
    next hfail => exact ⟨hmem, fun hquiet => absurd (hgiven hquiet) hfail, rfl⟩

theorem loadPageFromDisk (hlabel : (e.pool i).pageId.toNat < next.toNat) (id : UInt32) :
    Tidy quiet free next (e.loadPageFromDisk i id).2 := by
  have hread : Tidy quiet free next { e with io := { e.io with reads := e.io.reads.tail } } := by
    refine ⟨h.freePages, h.nextPageId, h.extent, h.dirty, h.unpinned, ?_⟩
    intro hquiet
    obtain ⟨hreads, hrest⟩ := h.serving hquiet
    exact ⟨by simp [hreads], hrest⟩
  simp only [Engine.loadPageFromDisk]
  split
  next => exact hread.setEntry (h.dirty i) (h.unpinned i)
  next =>
    split
    next => exact hread
    next => exact hread.setEntry (fun _ => hlabel) (h.unpinned i)

theorem fill (hlabel : (e.pool i).pageId.toNat < next.toNat) (id : UInt32) :
    Tidy quiet free next (e.fill crc i id).2 := by
  obtain ⟨hframe, -, hid⟩ := h.ensureFrame i
  have hload := hframe.loadPageFromDisk (hid ▸ hlabel) id
  simp only [Engine.fill]
  split
  next => exact hframe.failPinned i
  next =>
    split
    next => exact hload.failPinned i
    next =>
      split
      next => exact hload.failPinned i
      next =>
        split
        next =>
          exact ⟨hload.freePages, hload.nextPageId, hload.extent, hload.dirty,
            hload.unpinned, hload.serving⟩
        next => exact hload.failPinned i

end

theorem allocateBufferEntry_label {k : Slot} (hsome : (e.allocateBufferEntry id).1 = some k) :
    ((e.allocateBufferEntry id).2.pool k).pageId = id := by
  simp only [Engine.allocateBufferEntry] at hsome ⊢
  split
  next hv =>
    rw [hv] at hsome
    cases hsome
  next i hv =>
    rw [hv] at hsome
    simp only at hsome
    split
    next hok =>
      rw [if_pos hok] at hsome
      cases hsome
      simp [Engine.relabel, Engine.setEntry]
    next hfail =>
      rw [if_neg hfail] at hsome
      cases hsome

section

variable (h : Tidy quiet free next e)
include h

theorem getPage (hid : id.toNat < next.toNat) : Tidy quiet free next (e.getPage crc id).2 := by
  have halloc := h.allocateBufferEntry id
  simp only [Engine.getPage]
  split
  next i _ => exact h.clockGettime.setEntry (h.dirty i) (h.unpinned i)
  next =>
    split
    next => exact halloc
    next i hsome =>
      refine halloc.fill ?_ id
      rwa [allocateBufferEntry_label hsome]

theorem releasePage (id : UInt32) : Tidy quiet free next (e.releasePage id) := by
  rw [Engine.releasePage]
  split
  next i _ => exact h.setEntry (h.dirty i) (h.unpinned i)
  next => exact h

theorem editPage (id : UInt32) (page : BtreePage) : Tidy quiet free next (e.editPage id page) := by
  rw [Engine.editPage]
  split
  next i _ => exact h.setEntry (h.dirty i) (h.unpinned i)
  next => exact h

theorem markPageDirty (hlt : ∀ i, e.findBufferEntry id = some i →
      (e.pool i).pageId.toNat < next.toNat) : Tidy quiet free next (e.markPageDirty crc id) := by
  rw [Engine.markPageDirty]
  split
  next i hfind => exact h.setEntry (fun _ => hlt i hfind) (h.unpinned i)
  next => exact h

theorem checkpointSlot (i : Slot) : Tidy quiet free next (e.checkpointSlot i) := by
  have hwritten : ∀ page results, (e.pool i).dirty = true →
      (quiet → results = []) → Tidy quiet free next
      { e.noteWrite page with
        file := (pwriteOnce results e.file (pageOffset (e.pool i).pageId) page.toBytes).file
        io := { e.io with
          writes := (pwriteOnce results e.file (pageOffset (e.pool i).pageId)
            page.toBytes).results } } := by
    intro page results hdirty hresults
    refine ⟨h.freePages, h.nextPageId,
      length_pwriteOnce_le h.extent (h.pageOffset_le hdirty page), h.dirty, h.unpinned, ?_⟩
    intro hquiet
    obtain ⟨hreads, -, hallocs⟩ := h.serving hquiet
    rw [hresults hquiet]
    exact ⟨hreads, rfl, hallocs⟩
  cases hpage : (e.pool i).page with
  | none =>
    simp only [Engine.checkpointSlot, hpage]
    exact h
  | some page =>
    simp only [Engine.checkpointSlot, hpage]
    split
    next hdirty =>
      have hnow := hwritten page e.io.writes hdirty fun hquiet => (h.serving hquiet).2.1
      split
      next =>
        refine hnow.setEntry ?_ (h.unpinned i)
        intro hstill
        cases hstill
      next => exact hnow
    next => exact h

theorem checkpointPool : Tidy quiet free next e.checkpointPool := by
  have hslots : ∀ (l : List Slot) (e : Engine), Tidy quiet free next e →
      Tidy quiet free next (l.foldl Engine.checkpointSlot e) := by
    intro l
    induction l with
    | nil => exact fun e he => he
    | cons i l ih => exact fun e he => ih _ (he.checkpointSlot i)
  unfold Engine.checkpointPool
  exact hslots _ e h

theorem performCheckpoint : Tidy quiet free next (e.performCheckpoint crc).2 :=
  (h.flushWalBuffer.checkpointPool.writeWalRecord 0 .checkout 0 []).flushWalBuffer

end

end Tidy

/-! ## One call -/

/-- The engine `e`, of which a program holds the pages `held`, implements the
page store `s`. -/
structure Implements (crc : Bytes → UInt32) (quiet : Prop) (e : Engine)
    (s : Store) (held : List UInt32) : Prop where
  pool : PoolOk crc s.pages (fun id => (held.count id : ℤ)) e
  tidy : Tidy quiet s.freePages s.nextPageId e
  known : ∀ id, s.Known id → id ≠ 0 ∧ id.toNat < s.nextPageId.toNat

namespace Implements

variable {s : Store} {held : List UInt32}

section

variable (h : Implements crc quiet e s held)
include h

theorem exists_find (hheld : id ∈ held) : ∃ i, e.findBufferEntry id = some i := by
  obtain ⟨L, hinv⟩ := h.pool
  apply hinv.exists_of_pins
  have hpos := count_pos_iff.mpr hheld
  exact_mod_cast hpos.ne'

theorem known_of_find {i : Slot} (hfind : e.findBufferEntry id = some i) :
    s.Known id ∧ (e.pool i).pageId = id := by
  obtain ⟨L, hinv⟩ := h.pool
  obtain ⟨hi, hid⟩ := hinv.findBufferEntry_eq_some.mp hfind
  obtain ⟨page, -, hlast, -⟩ := hinv.holds i hi
  rw [hid] at hlast
  exact ⟨⟨page, hlast⟩, hid⟩

theorem bounds_of_proper (hid : s.Known id ∨ s.Owned id) :
    id ≠ 0 ∧ id.toNat < s.nextPageId.toNat := by
  rcases hid with hknown | hown
  · exact h.known id hknown
  · exact ⟨hown.nonzero, hown.lt⟩

theorem known_put (hid : id ≠ 0 ∧ id.toNat < s.nextPageId.toNat) (page : BtreePage) :
    ∀ id', (s.put id page).Known id' → id' ≠ 0 ∧ id'.toNat < s.nextPageId.toNat := by
  rintro id' ⟨page', hpage'⟩
  by_cases heq : id' = id
  · rw [heq]
    exact hid
  · rw [s.put_pages_of_ne page heq] at hpage'
    exact h.known id' ⟨page', hpage'⟩

theorem getPage (hid : s.Known id ∨ s.Owned id) (lock : LockType) :
    ∃ s', pageStep Faults.any (.getPage id lock) s (e.getPage crc id).1 s' ∧
      Implements crc quiet (e.getPage crc id).2 s'
        (heldAfter (.getPage id lock) (e.getPage crc id).1 held) := by
  have hbounds := h.bounds_of_proper hid
  have hserved := h.pool.getPage hbounds.1
  have htidy : Tidy quiet s.freePages s.nextPageId (e.getPage crc id).2 := h.tidy.getPage hbounds.2
  generalize e.getPage crc id = g at hserved htidy
  obtain ⟨reply, e'⟩ := g
  cases reply with
  | none => exact ⟨s, .inl ⟨rfl, rfl, rfl⟩, hserved, htidy, h.known⟩
  | some page =>
    obtain ⟨hsame, hpool⟩ := hserved
    refine ⟨s.put id page, .inr ⟨page, rfl, ?_, rfl⟩, ?_, htidy, h.known_put hbounds page⟩
    · cases hpage : s.pages id with
      | none => exact .inr rfl
      | some p => exact .inl (by rw [hsame p hpage])
    · have hpins : (fun i => ((id :: held).count i : ℤ)) = update (fun i => (held.count i : ℤ)) id
            (held.count id + 1) := by
        funext i
        by_cases hi : i = id
        · subst hi
          simp
        · rw [update_of_ne hi, count_cons_of_ne (Ne.symm hi)]
      show PoolOk crc (update s.pages id (some page)) (fun i => ((id :: held).count i : ℤ)) e'
      rw [hpins]
      exact hpool

theorem releasePage (hheld : id ∈ held) :
    Implements crc quiet (e.releasePage id) s (held.erase id) := by
  obtain ⟨i, hfind⟩ := h.exists_find hheld
  refine ⟨?_, h.tidy.releasePage id, h.known⟩
  have hpool := h.pool.releasePage id
  have hpos := count_pos_iff.mpr hheld
  have hpins : (fun i => ((held.erase id).count i : ℤ)) =
      releasedPins e (fun i => (held.count i : ℤ)) id := by
    funext i
    rw [releasedPins, hfind, Option.isSome_some, if_pos rfl]
    by_cases hi : i = id
    · subst hi
      rw [update_self, count_erase_self]
      omega
    · rw [update_of_ne hi, count_erase_of_ne hi]
  rw [hpins]
  exact hpool

theorem updatePage (hheld : id ∈ held) (page : BtreePage) :
    ∃ lsn checksum, Implements crc quiet ((e.editPage id page).markPageDirty crc id)
      (s.put id (page.stamp lsn checksum)) held := by
  obtain ⟨i, hfind⟩ := h.exists_find hheld
  obtain ⟨hknown, hlabel⟩ := h.known_of_find hfind
  have hbounds := h.known id hknown
  refine ⟨e.wal.nextLsn - 1, _, h.pool.modify hfind page, ?_, h.known_put hbounds _⟩
  refine (h.tidy.editPage id page).markPageDirty ?_
  intro j hj
  have hedit : e.editPage id page = e.setEntry i { e.pool i with page := some page } := by
    simp only [Engine.editPage, hfind]
  have hsame : (e.editPage id page).findBufferEntry id = e.findBufferEntry id := by
    rw [hedit]
    apply PoolInv.findBufferEntry_setEntry
    rfl
  rw [hsame, hfind] at hj
  cases hj
  rw [hedit]
  simpa [Engine.setEntry, hlabel] using hbounds.2

theorem allocatePage :
    e.allocatePage.1 = s.allocate.1 ∧ Implements crc quiet e.allocatePage.2 s.allocate.2 held := by
  have hfree := h.tidy.freePages
  have hnext := h.tidy.nextPageId
  cases hlist : s.freePages with
  | cons id rest =>
    simp only [Engine.allocatePage, Store.allocate, hfree, hlist]
    exact ⟨trivial, h.pool, ⟨rfl, hnext, h.tidy.extent, h.tidy.dirty,
      h.tidy.unpinned, h.tidy.serving⟩, h.known⟩
  | nil =>
    simp only [Engine.allocatePage, Store.allocate, hfree, hlist, hnext]
    split
    next hlt =>
      have hsucc := AllocOk.toNat_succ hlt
      have hle : s.nextPageId.toNat ≤ (s.nextPageId + 1).toNat := by
        rw [hsucc]
        exact Nat.le_succ _
      refine ⟨rfl, h.pool, ⟨rfl, rfl, ?_, ?_, h.tidy.unpinned, h.tidy.serving⟩, ?_⟩
      · exact h.tidy.extent.trans (Nat.mul_le_mul_right _ hle)
      · exact fun i hi => (h.tidy.dirty i hi).trans_le hle
      · exact fun id hid => ⟨(h.known id hid).1, (h.known id hid).2.trans_le hle⟩
    next =>
      exact ⟨rfl, h.pool, ⟨hfree.trans hlist, hnext, h.tidy.extent,
        h.tidy.dirty, h.tidy.unpinned, h.tidy.serving⟩, h.known⟩

/-- The engine answers a proper call as the page store does. -/
theorem step {txnId : UInt64} {c : PagerCmd} (hok : mayIssue txnId c held) (hproper : Proper c s) :
    ∃ s', pageStep Faults.any c s (Engine.step crc c e).1 s' ∧
      Implements crc quiet (Engine.step crc c e).2 s'
        (heldAfter c (Engine.step crc c e).1 held) := by
  cases c with
  | getPage id lock => exact h.getPage hproper lock
  | releasePage id lock => exact ⟨s, rfl, h.releasePage hok⟩
  | updatePage id page =>
    obtain ⟨lsn, checksum, himpl⟩ := h.updatePage hok page
    exact ⟨_, ⟨lsn, checksum, rfl⟩, himpl⟩
  | scribblePage id page => exact hproper.elim
  | allocatePage =>
    obtain ⟨hreply, himpl⟩ := h.allocatePage
    exact ⟨_, .inr ⟨hreply, rfl⟩, himpl⟩
  | deallocatePage id => exact hproper.elim
  | writeWalRecord txnId' type pageId data =>
    refine ⟨s, ⟨?_, rfl⟩, h.pool, h.tidy.writeWalRecord _ _ _ _, h.known⟩
    obtain ⟨_, _, hcases⟩ := Wal.writeWalRecord_cases crc e.wal
      e.io.walWrites txnId' type pageId data
    exact hcases.imp (fun hdone => hdone.1) fun hfail => hfail.1

end

end Implements

/-! ## Whole programs -/

/-- The allocator of the store is beyond repair. -/
def Broken (s : Store) : Prop :=
  maxPages < s.nextPageId.toNat

theorem AllocOk.not_broken {s : Store} (h : AllocOk s) : ¬ Broken s :=
  not_lt.mpr h.le

/-- The page store with every fault, which breaks on an improper call. -/
def strictStep : StoreRel := fun c s reply s' =>
  Proper c s ∧ pageStep Faults.any c s reply s' ∨ ¬ Proper c s ∧ Broken s'

instance : StoreLike Faults.any strictStep := by
  constructor
  rintro c s reply s' hproper (⟨-, hstep⟩ | ⟨himproper, -⟩)
  · exact hstep
  · exact absurd hproper himproper

theorem Broken.pageStep {F : Faults} {c : PagerCmd} {s s' : Store} {reply : c.Reply} (hs : Broken s)
    (hstep : Storage.pageStep F c s reply s') : Broken s' := by
  cases c with
  | getPage id lock =>
    rcases hstep with ⟨-, -, rfl⟩ | ⟨page, -, -, rfl⟩ <;> exact hs
  | releasePage id lock =>
    obtain rfl := hstep
    exact hs
  | updatePage id page =>
    obtain ⟨lsn, checksum, rfl⟩ := hstep
    exact hs
  | scribblePage id page =>
    obtain rfl := hstep
    exact hs
  | allocatePage =>
    rcases hstep with ⟨-, -, rfl⟩ | ⟨-, rfl⟩
    · exact hs
    · rw [Store.allocate]
      split
      · exact hs
      · rw [if_neg (not_lt.mpr (Nat.le_of_lt hs))]
        exact hs
  | deallocatePage id =>
    rcases hstep with rfl | rfl <;> exact hs
  | writeWalRecord txnId type pageId data =>
    obtain ⟨-, rfl⟩ := hstep
    exact hs

theorem Broken.exists_strictStep (c : PagerCmd) (s : Store) (hs : Broken s) :
    ∃ reply s', strictStep c s reply s' ∧ Broken s' := by
  obtain ⟨reply, s', hstep⟩ := exists_pageStep Faults.any c s
  by_cases hproper : Proper c s
  · exact ⟨reply, s', .inl ⟨hproper, hstep⟩, hs.pageStep hstep⟩
  · exact ⟨reply, s, .inr ⟨hproper, hs⟩, hs⟩

/-- A polite program that leaves the allocator sound runs on the engine as it
may run on the page store. -/
theorem Implements.run {s : Store} {held : List UInt32} {α : Type} {txnId : UInt64}
    {p : PagerM α} {Q : α → List UInt32 → Prop} {P : α → Store → Prop}
    (h : Implements crc quiet e s held) (hp : Polite txnId p held Q)
    (hsafe : Always strictStep p s P) (hP : ∀ a s', P a s' → AllocOk s') :
    ∃ s' held', P (run (Engine.step crc) p e).1 s' ∧
      Implements crc quiet (run (Engine.step crc) p e).2 s' held' ∧
      Q (run (Engine.step crc) p e).1 held' := by
  have hstep : ∀ c e s held, Implements crc quiet e s held → mayIssue txnId c held →
      (∃ s', strictStep c s (Engine.step crc c e).1 s' ∧
        Implements crc quiet (Engine.step crc c e).2 s'
          (heldAfter c (Engine.step crc c e).1 held)) ∨
        ∃ reply s', strictStep c s reply s' ∧ Broken s' := by
    intro c e s held h hok
    by_cases hproper : Proper c s
    · obtain ⟨s', hstep, himpl⟩ := h.step hok hproper
      exact .inl ⟨s', .inl ⟨hproper, hstep⟩, himpl⟩
    · obtain ⟨reply, -⟩ := exists_pageStep Faults.any c s
      have hbroken : Broken { s with nextPageId := -1 } := by
        show maxPages < (-1 : UInt32).toNat
        decide
      exact .inr ⟨reply, _, .inr ⟨hproper, hbroken⟩, hbroken⟩
  obtain ⟨s', held', hout, himpl, hQ⟩ := exists_outcome_run Broken.exists_strictStep hstep hp h
      (hsafe.mono fun a s' hend => (hP a s' hend).not_broken)
  exact ⟨s', held', hsafe _ _ hout, himpl, hQ⟩

end Codo.Storage
