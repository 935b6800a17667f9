import Codo.Storage.Durability
import Codo.Storage.Reads

/-!
# Clean restarts

Runs of the storage API are runs against the page store, so the tree and its
leaf chain survive whatever the environment does to a call.  When the
checkpoint of `cleanup_storage_engine` has written every dirty page, all of it
is in the data file, and an engine started on that file serves the same pages.
-/

namespace Codo.Storage

open Support Support.Levels Engine Program Option Relation Store List

/-! ## What every call keeps -/

/-- The root leads to a tree whose leaf chain is closed. -/
def Intact (s : Store) : Prop :=
  ∃ h L, Tree s h L ∧ Enclosed s L

variable {s : Store}

namespace Intact

theorem allocOk (hs : Intact s) : AllocOk s := by
  obtain ⟨h, L, ht, -⟩ := hs
  exact ht.alloc

theorem fresh (lsn : UInt64) (checksum : UInt32) : Intact (Store.fresh lsn checksum) :=
  ⟨0, rootSlots, tree_fresh lsn checksum, enclosed_fresh lsn checksum⟩

section Calls

variable {F : Faults} {T : StoreRel} [hT : StoreLike F T]

include hT

theorem always_dbInsert (hs : Intact s) (txn : Option Transaction) (key value : Bytes) :
    Always T (dbInsert txn key value) s fun _ s' => Intact s' := by
  obtain ⟨h, L, ht, hclosed⟩ := hs
  cases htxn : activeTxn txn with
  | none =>
    rw [dbInsert, htxn]
    exact always_pure.mpr ⟨h, L, ht, hclosed⟩
  | some t =>
    by_cases hlegal : LegalSizes key value
    · refine (ht.always_dbInsert hlegal (by rw [htxn]; rfl)).mono ?_
      rintro rc s' (⟨-, -, -, -, h', L', -, -, ht', -, hkept, -⟩ |
        ⟨-, rfl, -⟩ | ⟨-, -, h', L', ht', hkept, -⟩)
      · exact ⟨h', L', ht', hkept hclosed⟩
      · exact ⟨h, L, ht, hclosed⟩
      · exact ⟨h', L', ht', hkept hclosed⟩
    · rw [dbInsert, htxn]
      simp only [if_pos (illegalSizes hlegal)]
      exact always_pure.mpr ⟨h, L, ht, hclosed⟩

theorem always_dbDelete (hs : Intact s) {rounds : ℕ} (hrounds : 9 ≤ rounds)
    (txn : Option Transaction) (key : Bytes) :
    Always T (dbDelete rounds txn key) s fun r s' =>
      r ≠ none ∧ Intact s' := by
  obtain ⟨h, L, ht, hclosed⟩ := hs
  cases htxn : activeTxn txn with
  | none =>
    rw [dbDelete, htxn]
    exact always_pure.mpr ⟨some_ne_none _, h, L, ht, hclosed⟩
  | some t =>
    refine (ht.always_dbDelete (by rw [htxn]; rfl) key (ht.height_lt.trans_le hrounds)).mono ?_
    rintro r s' (⟨rfl, rfl, -⟩ | ⟨rfl, slot, xs, p, ys, -, -, hw⟩)
    · exact ⟨some_ne_none _, h, L, ht, hclosed⟩
    · exact ⟨some_ne_none _, h, L, hw.tree, hw.enclosed hclosed⟩

theorem always_dbSearch (hs : Intact s) {rounds : ℕ} (hrounds : 9 ≤ rounds)
    (txn : Option Transaction) (key : Bytes) (capacity : ℕ) :
    Always T (dbSearch rounds txn key capacity) s fun r s' =>
      r ≠ none ∧ Intact s' := by
  obtain ⟨h, L, ht, hclosed⟩ := hs
  cases htxn : activeTxn txn with
  | none =>
    rw [dbSearch, htxn]
    exact always_pure.mpr ⟨some_ne_none _, h, L, ht, hclosed⟩
  | some t =>
    refine (ht.always_dbSearch (by rw [htxn]; rfl) key capacity
      (ht.height_lt.trans_le hrounds)).mono ?_
    rintro r s' ⟨rfl, ⟨rfl, -⟩ | rfl⟩ <;> exact ⟨some_ne_none _, h, L, ht, hclosed⟩

end Calls

end Intact

/-- The engine implements a sound store, and nobody holds a page. -/
def Serves (crc : Bytes → UInt32) (quiet : Prop) (e : Engine) (s : Store) : Prop :=
  Intact s ∧ Implements crc quiet e s []

/-- The id a handle logs under. -/
def handleId (txn : Option Transaction) : UInt64 :=
  (txn.map Transaction.txnId).getD 0

theorem txnId_eq_handleId {txn : Option Transaction} :
    ∀ t, txn = some t → t.txnId = handleId txn := by
  rintro t rfl
  rfl

variable {crc : Bytes → UInt32} {quiet : Prop} {e : Engine}

namespace Serves

section

variable (h : Serves crc quiet e s)
include h

theorem run {α : Type} {p : PagerM α} {txnId : UInt64} {ended : α → Prop}
    (hp : Polite txnId p [] fun r held => ended r → held = [])
    (hsafe : Always strictStep p s fun r s' => ended r ∧ Intact s') :
    ∃ s', Serves crc quiet (run (Engine.step crc) p e).2 s' := by
  obtain ⟨s', held, ⟨hend, hintact⟩, himpl, hheld⟩ := h.2.run hp hsafe fun r s' hr => hr.2.allocOk
  rw [hheld hend] at himpl
  exact ⟨s', hintact, himpl⟩

theorem writeWalRecord (txnId : UInt64) (type : WalRecordType) (pageId : UInt32) (data : Bytes) :
    Serves crc quiet (e.writeWalRecord crc txnId type pageId data).2 s :=
  ⟨h.1, h.2.pool, h.2.tidy.writeWalRecord txnId type pageId data, h.2.known⟩

theorem flushWalBuffer : Serves crc quiet e.flushWalBuffer.2 s :=
  ⟨h.1, h.2.pool, h.2.tidy.flushWalBuffer, h.2.known⟩

theorem performCheckpoint : Serves crc quiet (e.performCheckpoint crc).2 s :=
  ⟨h.1, h.2.pool.performCheckpoint, h.2.tidy.performCheckpoint, h.2.known⟩

theorem beginTransaction : Serves crc quiet e.beginTransaction.2 s := by
  obtain ⟨hmem, -⟩ := h.2.tidy.allocate
  simp only [Engine.beginTransaction]
  split
  next =>
    exact ⟨h.1, h.2.pool, ⟨hmem.freePages, hmem.nextPageId, hmem.extent,
      hmem.dirty, hmem.unpinned, hmem.serving⟩, h.2.known⟩
  next => exact ⟨h.1, h.2.pool, hmem, h.2.known⟩

theorem commitTransaction (txn : Option Transaction) :
    Serves crc quiet (e.commitTransaction crc txn).2 s := by
  rw [Engine.commitTransaction]
  split
  next => exact h
  next t _ => exact (h.writeWalRecord t.txnId .commit 0 []).flushWalBuffer

theorem abortTransaction (txn : Option Transaction) :
    Serves crc quiet (e.abortTransaction crc txn).2 s := by
  rw [Engine.abortTransaction]
  split
  next => exact h
  next t _ => exact h.writeWalRecord t.txnId .abort 0 []

end

end Serves

/-! ## Calls of a client -/

/-- A call that is not a scan.  A scan changes nothing, and whether it returns
is not asked here. -/
def ApiCall.Plain : ApiCall → Prop
  | .dbScanPrefix _ _ _ => False
  | _ => True

theorem Client.next_serves {rounds : ℕ} (hrounds : 9 ≤ rounds) {c : Client}
    (h : Serves crc quiet c.engine s) {call : ApiCall} (hplain : call.Plain) :
    ∃ s', Serves crc quiet (c.next crc rounds call).engine s' := by
  cases call with
  | beginTransaction => exact ⟨s, h.beginTransaction⟩
  | dbInsert txn key value =>
    have hpolite : Polite _ (dbInsert (c.handle txn) key value) [] fun _ held => True → held = [] :=
      (balanced_dbInsert _ key value txnId_eq_handleId).mono fun _ _ hheld _ => hheld
    exact h.run hpolite ((h.1.always_dbInsert _ key value).mono
      fun _ _ hintact => ⟨trivial, hintact⟩)
  | dbSearch txn key capacity =>
    have hpolite : Polite 0 (dbSearch rounds (c.handle txn) key capacity) []
        fun r held => r ≠ none → held = [] := balanced_dbSearch rounds _ key capacity
    exact h.run hpolite (h.1.always_dbSearch hrounds _ key capacity)
  | dbDelete txn key =>
    exact h.run (balanced_dbDelete rounds _ key txnId_eq_handleId)
      (h.1.always_dbDelete hrounds _ key)
  | dbScanPrefix txn pfx callback => exact hplain.elim
  | commitTransaction txn => exact ⟨s, h.commitTransaction _⟩
  | abortTransaction txn => exact ⟨s, h.abortTransaction _⟩
  | performCheckpoint =>
    have hnext : c.next crc rounds .performCheckpoint =
        { c with engine := (c.engine.performCheckpoint crc).2 } := rfl
    rw [hnext]
    exact ⟨s, h.performCheckpoint⟩

section Start

variable {i : Slot} {id : UInt32}

theorem fill_of_no_file (hfile : e.file = []) :
    (e.fill crc i id).1 = none ∨ (e.fill crc i id).1 = some (freshPage id) := by
  have hframe : (e.ensureFrame i).2.file = [] := by
    rw [Engine.ensureFrame]
    split
    next => exact hfile
    next =>
      simp only
      split <;> exact hfile
  have hvalid : (freshPage id).ChecksumValid crc := .inl rfl
  have hbeyond : ¬ pageOffset id + pageSize ≤ ([] : Bytes).length := Nat.not_succ_le_zero _
  simp only [Engine.fill]
  split
  next => exact .inl rfl
  next =>
    simp only [Engine.loadPageFromDisk, hframe, hbeyond, and_false, if_false]
    split
    next => exact .inl (by simp [failPinned])
    next => exact .inr (by simp [Engine.setEntry, hvalid])

/-- `g_storage` in front of the root's creation, in any environment. -/
def unrooted (walFile : Bytes) (io : Io) : Engine :=
  (opened [] walFile io).recoverPageAllocator.2

def Store.blank : Store :=
  ⟨fun _ => none, [], rootPageId + 1, false⟩

theorem implements_unrooted (walFile : Bytes) {io : Io}
    (hio : quiet → io.reads = [] ∧ io.writes = [] ∧ io.allocs = []) :
    Implements crc quiet (unrooted walFile io) Store.blank [] := by
  have hnext : (unrooted walFile io).nextPageId = rootPageId + 1 := by
    simp only [unrooted, recoverPageAllocator, opened]
    exact if_neg (by decide)
  have hblank : ∀ {id page}, Store.blank.pages id ≠ some page := by
    intro id page hpage
    cases hpage
  refine ⟨poolOk_of_empty (fun _ => rfl) (fun _ => rfl) ?_,
    ⟨rfl, hnext, Nat.zero_le _, ?_, fun _ => rfl, hio⟩, ?_⟩
  · intro id page hpage
    exact absurd hpage hblank
  · intro i hdirty
    cases hdirty
  · rintro id ⟨page, hpage⟩
    exact absurd hpage hblank

theorem getPage_of_no_file (hfind : e.findBufferEntry id = none)
    (hpool : ∀ j, e.pool j = emptyEntry) (hfile : e.file = []) :
    (e.getPage crc id).1 = none ∨ (e.getPage crc id).1 = some (freshPage id) := by
  cases hv : e.pickVictim with
  | none =>
    simp only [Engine.getPage, hfind, allocateBufferEntry, hv]
    exact .inl trivial
  | some i =>
    simp only [Engine.getPage, hfind, allocateBufferEntry_of_empty hv (hpool i)]
    exact fill_of_no_file hfile

/-- Creating the root on an engine that implements the blank store. -/
theorem exists_serves_createRoot (h : Implements crc quiet e Store.blank [])
    (hload : (e.getPage crc rootPageId).1 = none ∨
      (e.getPage crc rootPageId).1 = some (freshPage rootPageId))
    (hroot : ((e.createRoot crc).findBufferEntry rootPageId).isSome) :
    ∃ s, Serves crc quiet (e.createRoot crc) s := by
  have hown : Store.blank.Owned rootPageId := ⟨by decide, by decide, nofun⟩
  obtain ⟨s', hstep, himpl⟩ := h.getPage (.inr hown) .none
  rcases hload with hreply | hreply
  · have hcreate : e.createRoot crc = (e.getPage crc rootPageId).2 := by
      simp only [createRoot, hreply]
    rw [hreply] at hstep
    rcases hstep with ⟨-, -, rfl⟩ | ⟨page, hpage, -⟩
    · obtain ⟨i, hfind⟩ := isSome_iff_exists.mp hroot
      rw [hcreate] at hfind
      obtain ⟨⟨page, hpage⟩, -⟩ := himpl.known_of_find hfind
      cases hpage
    · cases hpage
  · have hcreate : e.createRoot crc = (((e.getPage crc rootPageId).2.editPage rootPageId
          (freshPage rootPageId)).markPageDirty crc rootPageId).releasePage rootPageId := by
      simp only [createRoot, hreply]
      rfl
    rw [hreply] at hstep himpl
    rcases hstep with ⟨-, hnone, -⟩ | ⟨page, hpage, -, rfl⟩
    · cases hnone
    · cases hpage
      have hheld : rootPageId ∈ [rootPageId] := mem_singleton_self _
      obtain ⟨lsn, checksum, hupdated⟩ := himpl.updatePage hheld (freshPage rootPageId)
      have hreleased := hupdated.releasePage hheld
      rw [← hcreate] at hreleased
      refine ⟨Store.fresh lsn checksum, Intact.fresh lsn checksum, ?_⟩
      have hstore : (Store.blank.put rootPageId (freshPage rootPageId)).put
          rootPageId ((freshPage rootPageId).stamp lsn checksum) = Store.fresh lsn checksum := by
        simp [Store.blank, Store.put, Store.fresh]
      rw [hstore] at hreleased
      exact hreleased

theorem exists_serves_of_init {walFile : Bytes} {io : Io}
    (hio : quiet → io.reads = [] ∧ io.writes = [] ∧ io.allocs = [])
    (hinit : initStorageEngine crc (some []) (some walFile) io = some e)
    (hroot : (e.findBufferEntry rootPageId).isSome) : ∃ s, Serves crc quiet e s := by
  obtain ⟨io', hio', rfl⟩ : ∃ io' : Io,
      (quiet → io'.reads = [] ∧ io'.writes = [] ∧ io'.allocs = []) ∧
        e = (unrooted walFile io').createRoot crc := by
    simp only [initStorageEngine] at hinit
    split at hinit
    next =>
      refine ⟨{ io with allocs := io.allocs.tail.tail }, ?_, ?_⟩
      · intro hquiet
        obtain ⟨hreads, hwrites, hallocs⟩ := hio hquiet
        exact ⟨hreads, hwrites, by simp [hallocs]⟩
      have hzero : ((opened [] walFile io).allocate.2.allocate.2 ).recoverPageAllocator.1 = 0 := by
        simp only [recoverPageAllocator, opened, Engine.allocate]
        decide
      rw [if_pos hzero] at hinit
      exact (some.inj hinit).symm
    next => cases hinit
  have hsize : bufferPoolSize = 9999 + 1 := rfl
  have hfind : (unrooted walFile io').findBufferEntry rootPageId = none := by
    simp [findBufferEntry, Chains.find, hsize, Chains.findFrom, unrooted,
      recoverPageAllocator, opened]
  exact exists_serves_createRoot (implements_unrooted walFile hio')
    (getPage_of_no_file hfind (fun _ => rfl) rfl) hroot

end Start

/-! ## The data file after a checkpoint -/

variable {file : Bytes}

section Reopen

variable {last : UInt32 → Option BtreePage} {pins : UInt32 → ℤ} {e' : Engine}

/-- With no dirty page left, the data file holds every page. -/
theorem PoolOk.onDisk_of_clean (h : PoolOk crc last pins e)
    (hclean : ∀ i, (e.pool i).dirty = false) {id : UInt32} {page : BtreePage}
    (hpage : last id = some page) : page.ChecksumValid crc ∧ OnDisk e.file id page := by
  obtain ⟨L, hinv⟩ := h
  obtain ⟨hvalid, ⟨i, hi, hid⟩ | hdisk⟩ := hinv.stored id page hpage
  · obtain ⟨page', -, hlast, hstored⟩ := hinv.holds i hi
    rw [hid, hpage] at hlast
    cases hlast
    rw [← hid]
    exact ⟨hvalid, hstored (hclean i)⟩
  · exact ⟨hvalid, hdisk⟩

/-- `pages_in_file`, before it is made a `uint32_t`. -/
def pagesIn (file : Bytes) : ℕ :=
  (file.length + pageSize - 1) / pageSize

theorem OnDisk.lt_pagesIn {id : UInt32} {page : BtreePage}
    (h : OnDisk file id page) : id.toNat < pagesIn file := by
  have hle := h.length_le
  rw [pageOffset] at hle
  rw [pagesIn, Nat.lt_iff_add_one_le, Nat.le_div_iff_mul_le (by decide)]
  rw [pageSize] at hle ⊢
  omega

theorem pagesIn_le {n : ℕ} (h : file.length ≤ n * pageSize) : pagesIn file ≤ n := by
  rw [pagesIn, Nat.div_le_iff_le_mul_add_pred (by decide), Nat.mul_comm]
  omega

/-- The store after a restart: every page it knew, and an allocator that
starts behind the data file. -/
def Store.reopened (s : Store) (next : UInt32) : Store :=
  { s with freePages := [], nextPageId := next, exhausted := false }

theorem Intact.reopened (h : Intact s) {next : UInt32} (hle : next.toNat ≤ maxPages)
    (hknown : ∀ id, s.Known id → id.toNat < next.toNat) : Intact (s.reopened next) := by
  obtain ⟨h, L, ht, C, hchain, hmem⟩ := h
  have howned : ∀ id, s.Known id → s.Owned id → (s.reopened next).Owned id :=
    fun id hid hown => ⟨hown.nonzero, hknown id hid, not_mem_nil⟩
  obtain ⟨root, hroot⟩ : s.Known rootPageId := ht.known_root
  refine ⟨h, L, ⟨⟨nodup_nil, nofun, ?_, hle⟩, ⟨ht.upper.level, ht.upper.internal, ?_⟩,
    ⟨ht.fan.internal, ht.fan.bottom, ht.fan.ascending, ht.fan.nodup, ?_⟩,
    ⟨ht.leaves.leaf, ht.leaves.routed⟩⟩, C, ⟨?_, hchain.leaf, hchain.next, hchain.notRoot⟩, hmem⟩
  · exact (Nat.zero_le _).trans_lt (hknown rootPageId ⟨root, hroot⟩)
  · intro i hi slot hslot
    obtain ⟨page, hpage, -⟩ := ht.upper.internal i hi slot hslot
    exact howned _ ⟨page, hpage⟩ (ht.upper.owned i hi slot hslot)
  · intro i hi slot hslot
    obtain rfl : i = 0 := Nat.le_zero.mp hi
    obtain ⟨page, hpage, -⟩ := ht.leaves.leaf slot hslot
    exact howned _ ⟨page, hpage⟩ (ht.fan.owned 0 le_rfl slot hslot)
  · intro id hid
    obtain ⟨page, hpage, -⟩ := hchain.leaf id hid
    exact howned id ⟨page, hpage⟩ (hchain.owned id hid)

theorem initStorageEngine_existing {walFile : Bytes} {io : Io}
    (hroot : rootPageId < UInt32.ofNat (pagesIn file))
    (hinit : initStorageEngine crc (some file) (some walFile) io = some e') :
    e' = { opened file walFile { io with allocs := io.allocs.tail.tail } with
      nextPageId := UInt32.ofNat (pagesIn file) } := by
  have hne : UInt32.ofNat (pagesIn file) ≠ 0 := by
    intro hzero
    rw [hzero] at hroot
    exact absurd hroot (by decide)
  have hrecover : ∀ io', (opened file walFile io').recoverPageAllocator =
      (UInt32.ofNat (pagesIn file), { opened file walFile io' with
        nextPageId := UInt32.ofNat (pagesIn file) }) := by
    intro io'
    show (UInt32.ofNat (pagesIn file), { opened file walFile io' with
      nextPageId := if rootPageId < UInt32.ofNat (pagesIn file) then
        UInt32.ofNat (pagesIn file) else rootPageId + 1 }) = _
    rw [if_pos hroot]
  simp only [initStorageEngine] at hinit
  split at hinit
  next =>
    have hmem : (opened file walFile io).allocate.2.allocate.2 =
        opened file walFile { io with allocs := io.allocs.tail.tail } := rfl
    rw [hmem, hrecover, if_neg hne] at hinit
    exact (some.inj hinit).symm
  next => cases hinit

theorem Serves.reopen {quiet' : Prop} (h : Serves crc quiet e s)
    (hclean : ∀ i, (e.pool i).dirty = false) {walFile : Bytes} {io : Io}
    (hio : quiet' → io.reads = [] ∧ io.writes = [] ∧ io.allocs = [])
    (hinit : initStorageEngine crc (some e.file) (some walFile) io = some e') :
    Serves crc quiet' e' (s.reopened (UInt32.ofNat (pagesIn e.file))) ∧
      ∀ i, (e'.pool i).dirty = false := by
  obtain ⟨hintact, hpool, htidy, hknown⟩ := h
  have hextent := pagesIn_le htidy.extent
  have hmax := hintact.allocOk.le
  have hnext : (UInt32.ofNat (pagesIn e.file)).toNat = pagesIn e.file := by
    apply UInt32.toNat_ofNat_of_lt'
    rw [maxPages] at hmax
    exact lt_of_le_of_lt (hextent.trans hmax) (by decide)
  have hlt : ∀ id, s.Known id → id.toNat < (UInt32.ofNat (pagesIn e.file)).toNat := by
    rintro id ⟨page, hpage⟩
    rw [hnext]
    exact (hpool.onDisk_of_clean hclean hpage).2.lt_pagesIn
  have hroot : rootPageId < UInt32.ofNat (pagesIn e.file) := by
    obtain ⟨h, L, ht, -⟩ := hintact
    exact UInt32.lt_iff_toNat_lt.mpr (hlt rootPageId ht.known_root)
  rw [initStorageEngine_existing hroot hinit]
  refine ⟨⟨hintact.reopened ?_ hlt, ?_, ⟨rfl, rfl, ?_, ?_, fun _ => rfl, ?_⟩,
    fun id hid => ⟨(hknown id hid).1, hlt id hid⟩⟩, fun _ => rfl⟩
  · rw [hnext]
    exact hextent.trans hmax
  · refine poolOk_of_empty (fun _ => rfl) (fun _ => rfl) ?_
    intro id page hpage
    exact hpool.onDisk_of_clean hclean hpage
  · show e.file.length ≤ (UInt32.ofNat (pagesIn e.file)).toNat * pageSize
    rw [hnext, pagesIn, pageSize]
    omega
  · intro i hdirty
    cases hdirty
  · intro hquiet
    obtain ⟨hreads, hwrites, hallocs⟩ := hio hquiet
    exact ⟨hreads, hwrites, by simp [opened, hallocs]⟩

end Reopen

/-! ## Queries -/

/-- A call that only reads; the callback of a scan works on a context. -/
inductive Query (κ : Type)
  | search (txn : Option Transaction) (key : Bytes) (capacity : ℕ)
  | scan (txn : Option Transaction) (callback : Bytes → Bytes → κ → ℤ × κ) (ctx : κ)
  | scanPrefix (txn : Option Transaction) (pfx : Bytes)
      (callback : Bytes → Bytes → κ → ℤ × κ) (ctx : κ)

inductive Answer (κ : Type)
  | found (result : Option (ℕ × Bytes))
  | scanned (rc : ℤ) (ctx : κ)

section Queries

variable {κ : Type}

/-- Ask one query; `none` if it takes more than `rounds` steps. -/
def Query.ask (rounds : ℕ) : Query κ → PagerM (Option (Answer κ))
  | .search txn key capacity => do
    let r ← dbSearch rounds txn key capacity
    pure (r.map .found)
  | .scan txn callback ctx => do
    let r ← dbScan rounds txn callback ctx
    pure (r.map fun end_ => .scanned end_.1 end_.2)
  | .scanPrefix txn pfx callback ctx => do
    let r ← dbScanPrefix rounds txn pfx callback ctx
    pure (r.map fun end_ => .scanned end_.1 end_.2)

/-- Ask one query after the other.  Behind a call that does not return nothing
is asked. -/
def askAll (rounds : ℕ) : List (Query κ) → PagerM (List (Option (Answer κ)))
  | [] => pure []
  | query :: queries => do
    match ← query.ask rounds with
    | none => pure [none]
    | some answer => do
      let answers ← askAll rounds queries
      pure (some answer :: answers)

theorem Intact.reads_ask (hs : Intact s) (rounds : ℕ) (query : Query κ) :
    Reads s (query.ask rounds) [] fun r held => r ≠ none → held = [] := by
  obtain ⟨h, L, ht, hclosed⟩ := hs
  have hmap : ∀ {α : Type} (p : PagerM (Option α)) (f : α → Answer κ),
      Reads s p [] (fun r held => r ≠ none → held = []) → Reads s (do let r ← p; pure (r.map f)) []
        fun r held => r ≠ none → held = [] := by
    intro α p f hp
    apply hp.bind
    intro r held hheld
    apply Reads.ret
    intro hne
    apply hheld
    rintro rfl
    exact hne rfl
  cases query with
  | search txn key capacity => exact hmap _ _ (ht.reads_dbSearch rounds txn key capacity)
  | scan txn callback ctx => exact hmap _ _ (ht.reads_scanRange hclosed rounds txn [] callback ctx)
  | scanPrefix txn pfx callback ctx =>
    exact hmap _ _ (ht.reads_scanRange hclosed rounds txn pfx callback ctx)

theorem Intact.reads_askAll (hs : Intact s) (rounds : ℕ) (queries : List (Query κ)) :
    Reads s (askAll rounds queries) [] fun _ _ => True := by
  induction queries with
  | nil => exact .ret trivial
  | cons query queries ih =>
    rw [askAll]
    apply (hs.reads_ask rounds query).bind
    intro r held hheld
    cases r with
    | none => exact .ret trivial
    | some answer =>
      obtain rfl := hheld nofun
      exact ih.bind fun _ _ _ => .ret trivial

end Queries

/-- What the engine answers when the environment is quiet from now on. -/
def answers (crc : Bytes → UInt32) {κ : Type} (rounds : ℕ) (e : Engine)
    (queries : List (Query κ)) : List (Option (Answer κ)) :=
  (run (Engine.step crc) (askAll rounds queries) { e with io := Io.quiet }).1

theorem Serves.answers_eq {κ : Type} (h : Serves crc quiet e s) (rounds : ℕ)
    (queries : List (Query κ)) :
    answers crc rounds e queries = (Program.run s.read (askAll rounds queries) []).1 := by
  have hquiet : Implements crc True { e with io := Io.quiet } s [] :=
    ⟨h.2.pool, ⟨h.2.tidy.freePages, h.2.tidy.nextPageId, h.2.tidy.extent,
      h.2.tidy.dirty, h.2.tidy.unpinned, fun _ => ⟨rfl, rfl, rfl⟩⟩, h.2.known⟩
  exact hquiet.run_reads (h.1.reads_askAll rounds queries)

/-! ## Reachable pages and fresh ids -/

/-- The page the data file holds under `id`. -/
def pageAt (file : Bytes) (id : UInt32) : BtreePage :=
  BtreePage.ofBytes (slice file (pageOffset id) pageSize)

/-- The pages that child pointers and sibling links lead to from the root.
`next_page_id` is the last child of an internal page. -/
inductive Reachable (file : Bytes) : UInt32 → Prop
  | root : Reachable file rootPageId
  | child {id : UInt32} {p : KvPair} : Reachable file id →
      (pageAt file id).header.pageType = pageTypeInternal →
      p ∈ (pageAt file id).pairs → Reachable file p.child
  | next {id : UInt32} : Reachable file id → (pageAt file id).header.nextPageId ≠ 0 →
      Reachable file (pageAt file id).header.nextPageId

/-- The id `allocate_page` hands out after it was called `k` times. -/
def handedOut (e : Engine) (k : ℕ) : UInt32 :=
  ((fun e : Engine => e.allocatePage.2)^[k] e).allocatePage.1

theorem Store.mem_level_succ {i : ℕ} {slot : TreeSlot} (hslot : slot ∈ s.level i)
    {page : BtreePage} (hpage : s.pages slot.1 = some page) {id : UInt32}
    (hid : id = page.header.nextPageId ∨ ∃ p ∈ page.pairs, p.child = id) :
    ∃ slot' ∈ s.level (i + 1), slot'.1 = id := by
  have hsub : ∀ t ∈ page.branch.slots slot.2, t ∈ s.level (i + 1) := by
    intro t ht
    refine mem_flatMap.mpr ⟨slot, hslot, ?_⟩
    rw [branch_eq hpage]
    exact ht
  rw [BtreePage.slots_branch] at hsub
  rcases hid with rfl | ⟨p, hp, rfl⟩
  · exact ⟨_, hsub (page.header.nextPageId, slot.2) (by simp), rfl⟩
  · exact ⟨_, hsub p.slot (mem_append_left _ (mem_map.mpr ⟨p, hp, rfl⟩)), rfl⟩

/-- What can be reached in a file that holds every known page is known. -/
theorem Intact.known_of_reachable (hs : Intact s)
    (hfile : ∀ id page, s.pages id = some page → OnDisk file id page)
    {id : UInt32} (hid : Reachable file id) : s.Known id := by
  obtain ⟨h, L, ht, C, hchain, hmem⟩ := hs
  have hspine := ht.spine
  have hpageAt : ∀ id page, s.pages id = some page → pageAt file id = page :=
    fun id page hpage => (hfile id page hpage).ofBytes_slice
  -- Reachable pages are nodes of the tree above its leaves, or on the chain.
  have hwhere : (∃ i, i < h ∧ ∃ slot ∈ s.level i, slot.1 = id) ∨ id ∈ C := by
    have hsplit : ∀ i, i ≤ h → ∀ id, (∃ slot ∈ s.level i, slot.1 = id) →
        (∃ i, i < h ∧ ∃ slot ∈ s.level i, slot.1 = id) ∨ id ∈ C := by
      rintro i hi id ⟨slot, hslot, rfl⟩
      rcases hi.lt_or_eq with hlt | rfl
      · exact .inl ⟨i, hlt, slot, hslot, rfl⟩
      · rw [ht.upper.level] at hslot
        exact .inr (hmem slot hslot)
    induction hid with
    | root =>
      refine hsplit 0 (Nat.zero_le h) rootPageId ⟨(rootPageId, ⊤), ?_, rfl⟩
      simp [Levels.level, below]
    | child _ htype hp ih =>
      rcases ih with ⟨i, hi, slot, hslot, rfl⟩ | hC
      · obtain ⟨page, hpage, -⟩ := hspine.internal i hi slot hslot
        rw [hpageAt _ page hpage] at hp
        exact hsplit (i + 1) hi _ (mem_level_succ hslot hpage (.inr ⟨_, hp, rfl⟩))
      · obtain ⟨page, hpage, hleaf⟩ := hchain.leaf _ hC
        rw [hpageAt _ page hpage, hleaf] at htype
        exact absurd htype (by decide)
    | next _ hne ih =>
      rcases ih with ⟨i, hi, slot, hslot, rfl⟩ | hC
      · obtain ⟨page, hpage, -⟩ := hspine.internal i hi slot hslot
        rw [hpageAt _ page hpage]
        exact hsplit (i + 1) hi _ (mem_level_succ hslot hpage (.inl rfl))
      · obtain ⟨page, hpage, -⟩ := hchain.leaf _ hC
        have hnext := hchain.next _ hC
        rw [nextId_eq hpage] at hnext
        rw [hpageAt _ page hpage] at hne ⊢
        exact .inr (hnext.resolve_left hne)
  rcases hwhere with ⟨i, hi, slot, hslot, rfl⟩ | hC
  · exact hspine.known hi.le hslot
  · obtain ⟨page, hpage, -⟩ := hchain.leaf _ hC
    exact ⟨page, hpage⟩

/-- With an empty free list, ids are handed out from `next_page_id` on. -/
theorem handedOut_ge (hfree : e.freePages = []) (k : ℕ) :
    handedOut e k = 0 ∨ e.nextPageId.toNat ≤ (handedOut e k).toNat := by
  have hone : ∀ {e : Engine}, e.freePages = [] → e.allocatePage.2.freePages = [] ∧
        e.nextPageId.toNat ≤ e.allocatePage.2.nextPageId.toNat ∧
        (e.allocatePage.1 = 0 ∨ e.allocatePage.1 = e.nextPageId) := by
    intro e hfree
    simp only [Engine.allocatePage, hfree]
    split
    next hlt =>
      have hsucc : (e.nextPageId + 1).toNat = e.nextPageId.toNat + 1 := by
        rw [maxPages] at hlt
        rw [UInt32.toNat_add, UInt32.toNat_one]
        exact Nat.mod_eq_of_lt (by omega)
      refine ⟨rfl, ?_, .inr rfl⟩
      rw [hsucc]
      exact Nat.le_succ _
    next => exact ⟨hfree, le_rfl, .inl rfl⟩
  induction k generalizing e with
  | zero =>
    obtain ⟨-, -, hzero | hnext⟩ := hone hfree
    · exact .inl hzero
    · refine .inr ?_
      show _ ≤ (e.allocatePage.1).toNat
      rw [hnext]
  | succ k ih =>
    obtain ⟨hfree', hle, -⟩ := hone hfree
    exact (ih hfree').imp_right hle.trans

/-! ## Lives of a database -/

/-- The checkpoint of `cleanup_storage_engine` writes every dirty page: an
entry whose write fails stays dirty. -/
def CheckpointWrites (crc : Bytes → UInt32) (e : Engine) : Prop :=
  ∀ i, ((e.performCheckpoint crc).2.pool i).dirty = false

/-- `init_storage_engine` on the files `cleanup_storage_engine` leaves. -/
def restart (crc : Bytes → UInt32) (e : Engine) (io : Io) : Option Engine :=
  initStorageEngine crc (some (e.cleanupStorageEngine crc).1)
    (some (e.cleanupStorageEngine crc).2) io

/-- A step in the life of a database: a call, or a clean restart. -/
inductive LifeStep (crc : Bytes → UInt32) (rounds : ℕ) : Client → Client → Prop
  | call (c : Client) {call : ApiCall} : call.Plain → LifeStep crc rounds c (c.next crc rounds call)
  | restart {c : Client} {e : Engine} {io : Io} :
      CheckpointWrites crc c.engine → restart crc c.engine io = some e →
      LifeStep crc rounds c ⟨e, []⟩

section Life

variable {rounds : ℕ}

theorem restart_eq {e₁ : Engine} (h : (e.performCheckpoint crc).2 = e₁)
    (io : Io) : restart crc e io = initStorageEngine crc (some e₁.file) (some e₁.wal.file) io := by
  have hfiles : e.cleanupStorageEngine crc = (e₁.file, e₁.wal.file) := by
    rw [cleanupStorageEngine, h]
  rw [restart, hfiles]

theorem exists_restart (crc : Bytes → UInt32) (e : Engine) :
    ∃ e', restart crc e Io.quiet = some e' := by
  rw [restart_eq rfl, initStorageEngine]
  simp only
  rw [if_pos ⟨rfl, rfl⟩]
  exact ⟨_, rfl⟩

theorem Serves.restart {quiet' : Prop} {e' : Engine}
    (h : Serves crc quiet e s) (hwrites : CheckpointWrites crc e) {io : Io}
    (hio : quiet' → io.reads = [] ∧ io.writes = [] ∧ io.allocs = [])
    (hrestart : restart crc e io = some e') :
    Serves crc quiet' e' (s.reopened (UInt32.ofNat (pagesIn (e.performCheckpoint crc).2.file))) ∧
      ∀ i, (e'.pool i).dirty = false := by
  rw [restart_eq rfl] at hrestart
  exact h.performCheckpoint.reopen hwrites hio hrestart

theorem performCheckpoint_pool {e₁ : Engine} (h : e.flushWalBuffer.2.checkpointPool = e₁) :
    (e.performCheckpoint crc).2.pool = e₁.pool := by
  rw [Engine.performCheckpoint, h]
  rfl

/-- In a quiet environment the loop over the pool writes every dirty page. -/
theorem Implements.clean_checkpointPool (h : Implements crc True e s []) (i : Slot) :
    (e.checkpointPool.pool i).dirty = false := by
  have hslot : ∀ (e : Engine) (k : Slot), Implements crc True e s [] →
      ((e.checkpointSlot k).pool k).dirty = false := by
    intro e k he
    cases hdirty : (e.pool k).dirty with
    | false =>
      rw [checkpointSlot]
      split
      next => simp [hdirty]
      next => exact hdirty
    | true =>
      obtain ⟨L, hinv⟩ := he.pool
      obtain ⟨page, hpage, -⟩ := hinv.holds k (hinv.chained_of_dirty hdirty)
      simp [checkpointSlot, hpage, hdirty, noteWrite,
        (he.tidy.serving trivial).2.1, pwriteOnce, setEntry]
  have hkeep : ∀ (e : Engine) (i k : Slot), Implements crc True e s [] →
      (e.pool i).dirty = false → ((e.checkpointSlot k).pool i).dirty = false := by
    intro e i k he hclean
    by_cases hik : i = k
    · subst hik
      exact hslot e i he
    · rw [checkpointSlot_pool_of_ne hik]
      exact hclean
  -- A slot is clean once the loop has passed it.
  have hloop : ∀ (slots : List Slot) (e : Engine) (i : Slot),
      Implements crc True e s [] → (e.pool i).dirty = false ∨ i ∈ slots →
      ((slots.foldl checkpointSlot e).pool i).dirty = false := by
    intro slots
    induction slots with
    | nil =>
      intro e i _ hclean
      exact hclean.resolve_right not_mem_nil
    | cons k slots ih =>
      intro e i he hclean
      have he' : Implements crc True (e.checkpointSlot k) s [] :=
        ⟨he.pool.checkpointSlot k, he.tidy.checkpointSlot k, he.known⟩
      refine ih (e.checkpointSlot k) i he' ?_
      rcases hclean with hclean | hmem
      · exact .inl (hkeep e i k he hclean)
      · rcases mem_cons.mp hmem with rfl | hmem
        · exact .inl (hslot e i he)
        · exact .inr hmem
  -- The kernel must not compare the pools of both sides: it would run the loop.
  have hpool : e.checkpointPool = (List.finRange bufferPoolSize).foldl checkpointSlot e := by
    unfold checkpointPool
    rfl
  rw [hpool]
  exact hloop _ e i h (.inr (mem_finRange i))

theorem Serves.checkpointWrites (h : Serves crc True e s) : CheckpointWrites crc e := by
  intro i
  rw [performCheckpoint_pool rfl]
  exact h.flushWalBuffer.2.clean_checkpointPool i

/-- Along its whole life, the engine implements an intact store. -/
theorem exists_serves_of_life (hrounds : 9 ≤ rounds) {c c' : Client}
    (hs : Serves crc False c.engine s) (hlife : ReflTransGen (LifeStep crc rounds) c c') :
    ∃ s', Serves crc False c'.engine s' := by
  induction hlife with
  | refl => exact ⟨s, hs⟩
  | tail _ hstep ih =>
    obtain ⟨s', hs'⟩ := ih
    cases hstep with
    | call hplain => exact Client.next_serves hrounds hs' hplain
    | restart hwrites hrestart => exact ⟨_, (hs'.restart hwrites False.elim hrestart).1⟩

end Life

/-- A clean restart preserves the database.  In the life of a database that
began with an empty data file, let the checkpoint of a shutdown write every
dirty page.  Then the restart comes up, it answers every sequence of queries as
the engine would have answered before, and no id it hands out is that of a page
reachable from the root. -/
theorem clean_restart_preserves (crc : Bytes → UInt32) {rounds : ℕ}
    (hrounds : 9 ≤ rounds) {walFile : Bytes} {io : Io} {e₀ : Engine}
    (hinit : initStorageEngine crc (some []) (some walFile) io = some e₀)
    (hroot : (e₀.findBufferEntry rootPageId).isSome) {c : Client}
    (hlife : ReflTransGen (LifeStep crc rounds) ⟨e₀, []⟩ c)
    (hwrites : CheckpointWrites crc c.engine) :
    ∃ e, restart crc c.engine Io.quiet = some e ∧
      (∀ (κ : Type) (n : ℕ) (queries : List (Query κ)),
        answers crc n e queries = answers crc n c.engine queries) ∧
      ∀ k id, Reachable e.file id → handedOut e k ≠ id := by
  obtain ⟨s₀, hs₀⟩ := exists_serves_of_init False.elim hinit hroot
  obtain ⟨s, hs⟩ := exists_serves_of_life hrounds hs₀ hlife
  obtain ⟨e, hrestart⟩ := exists_restart crc c.engine
  have hio : True → Io.quiet.reads = [] ∧ Io.quiet.writes = [] ∧
      Io.quiet.allocs = [] := fun _ => ⟨rfl, rfl, rfl⟩
  obtain ⟨hserves, hclean⟩ := hs.restart hwrites hio hrestart
  refine ⟨e, hrestart, ?_, ?_⟩
  · intro κ n queries
    rw [hserves.answers_eq, hs.answers_eq]
    rfl
  · intro k id hid heq
    have hdisk := fun id page (hpage : s.pages id = some page) =>
      (hserves.2.pool.onDisk_of_clean hclean hpage).2
    obtain ⟨hne, hlt⟩ := hserves.2.known id (hserves.1.known_of_reachable hdisk hid)
    rw [← hserves.2.tidy.nextPageId, ← heq] at hlt
    rcases handedOut_ge hserves.2.tidy.freePages k with hzero | hge
    · exact hne (heq.symm.trans hzero)
    · exact absurd hge (not_le.mpr hlt)

/-- A first start, one insert and a clean restart. -/
theorem clean_restart_preserves_first_insert :
    ∃ e₀, initStorageEngine (fun _ => 0) (some []) (some []) Io.quiet = some e₀ ∧
      ∃ e, restart (fun _ => 0) (Client.inserted e₀).engine Io.quiet = some e ∧
        (∀ (κ : Type) (n : ℕ) (queries : List (Query κ)),
          answers (fun _ => 0) n e queries =
            answers (fun _ => 0) n (Client.inserted e₀).engine queries) ∧
        ∀ k id, Reachable e.file id → handedOut e k ≠ id := by
  obtain ⟨e₀, i, hinit, hstarted⟩ := exists_started (fun _ => 0) []
  obtain ⟨checksum, hres⟩ := hstarted.root
  have hroot : (e₀.findBufferEntry rootPageId).isSome := by
    rw [hres.find]
    rfl
  have hio : True → Io.quiet.reads = [] ∧ Io.quiet.writes = [] ∧
      Io.quiet.allocs = [] := fun _ => ⟨rfl, rfl, rfl⟩
  obtain ⟨s₀, hs₀⟩ := exists_serves_of_init hio hinit hroot
  have hbegin : Client.begun e₀ = (⟨e₀, []⟩ : Client).next (fun _ => 0) 9 .beginTransaction :=
    hstarted.begin.symm
  obtain ⟨s₁, hs₁⟩ : ∃ s, Serves (fun _ => 0) True (Client.begun e₀).engine s := by
    rw [hbegin]
    exact Client.next_serves le_rfl hs₀ trivial
  obtain ⟨s₂, hs₂⟩ : ∃ s, Serves (fun _ => 0) True (Client.inserted e₀).engine s :=
    Client.next_serves le_rfl hs₁ trivial
  have hlife : ReflTransGen (LifeStep (fun _ => 0) 9) ⟨e₀, []⟩ (Client.inserted e₀) := by
    refine .tail (.single ?_) (.call (Client.begun e₀) trivial)
    rw [hbegin]
    exact .call _ trivial
  exact ⟨e₀, hinit, clean_restart_preserves (fun _ => 0) le_rfl hinit hroot
    hlife hs₂.checkpointWrites⟩

end Codo.Storage
