import Codo.Storage.FreshEngine
import Codo.Storage.Reads
import Mathlib.Logic.Relation

/-!
# Sessions of the buffer pool

A session makes calls on the pool one after the other.  It notes the bytes last
left in each page, and for each page how many calls of `get_page` are outstanding.
`ref_count` is an `int`: a session may not have more pins on a page than it holds,
and the integers of the model are then those of the program.
-/

namespace Codo.Storage

open Support Engine Function Option List

variable {crc : Bytes → UInt32}

section Sole

variable {e : Engine} {i : Slot} {id : UInt32} {entry : BufferEntry}

namespace Sole

variable (h : Sole e id i entry)
include h

theorem setEntry {entry' : BufferEntry} (hid : entry'.pageId = entry.pageId) :
    Sole (e.setEntry i entry') id i entry' := by
  have hlabel : entry'.pageId = (e.pool i).pageId := by rw [hid, h.entry]
  refine ⟨(PoolInv.findBufferEntry_setEntry hlabel id).trans h.find, ?_, ?_⟩
  · simp [Engine.setEntry]
  · intro j hj
    simpa [Engine.setEntry, hj] using h.others j hj

theorem editPage (page : BtreePage) :
    Sole (e.editPage id page) id i { entry with page := some page } := by
  simp only [Engine.editPage, h.find, h.entry]
  exact h.setEntry rfl

theorem modify (crc : Bytes → UInt32) (page : BtreePage) :
    Sole ((e.editPage id page).markPageDirty crc id) id i
      { entry with page := some (e.stamped crc page), dirty := true } := by
  have hedit := h.editPage page
  have hstamped : (e.editPage id page).stamped crc page = e.stamped crc page := by
    simp only [Engine.editPage, h.find]
    rfl
  rw [← hstamped]
  simp only [markPageDirty, hedit.find, hedit.entry]
  exact hedit.setEntry rfl

theorem releasePage :
    Sole (e.releasePage id) id i { entry with refCount := entry.refCount - 1 } := by
  simp only [Engine.releasePage, h.find, h.entry]
  exact h.setEntry rfl

end Sole

theorem pageId_fill (e : Engine) (i : Slot) (id : UInt32) (j : Slot) :
    ((e.fill crc i id).2.pool j).pageId = (e.pool j).pageId := by
  have hset : ∀ (e : Engine) {entry : BufferEntry}, entry.pageId = (e.pool i).pageId →
      ((e.setEntry i entry).pool j).pageId = (e.pool j).pageId :=
    fun _ _ hid => PoolInv.update_pageId hid j
  have hfail : ∀ e : Engine, ((e.failPinned i).2.pool j).pageId = (e.pool j).pageId :=
    fun e => hset e rfl
  have hframe : ((e.ensureFrame i).2.pool j).pageId = (e.pool j).pageId := by
    simp only [ensureFrame]
    split
    · rfl
    · split
      · exact hset e.allocate.2 rfl
      · rfl
  have hload : (((e.ensureFrame i).2.loadPageFromDisk i id).2.pool j).pageId =
      (e.pool j).pageId := by
    rw [← hframe]
    simp only [loadPageFromDisk]
    split
    · exact hset _ rfl
    · split
      · rfl
      · exact hset _ rfl
  simp only [fill]
  split
  · rw [hfail, hframe]
  · split
    · rw [hfail, hload]
    · split
      · rw [hfail, hload]
      · split
        · exact hload
        · rw [hfail, hload]

theorem PoolOk.getPage_evicts {last : UInt32 → Option BtreePage}
    {pins : UInt32 → ℤ} {free : List UInt32} {next id' : UInt32}
    (h : PoolOk crc last pins e) (htidy : Tidy True free next e)
    (hsole : Sole e id i entry) (hevict : entry.Evictable)
    (hold : entry.lastAccess.Older emptyEntry.lastAccess)
    (hne : id' ≠ entry.pageId) (hid' : id' ≠ 0) (j : Slot) :
    ((e.getPage crc id').2.pool j).pageId = if j = i then id' else 0 := by
  obtain ⟨L, hinv⟩ := h
  have hfind : e.findBufferEntry id' = none := by
    refine hinv.findBufferEntry_eq_none.mpr ?_
    intro k _ hk
    by_cases hki : k = i
    · rw [hki, hsole.entry] at hk
      exact hne hk.symm
    · rw [hsole.others k hki] at hk
      exact hid' hk.symm
  have hv : e.pickVictim = some i := by
    refine pickVictim_of_oldest (by rwa [hsole.entry]) ?_
    intro k hk
    rwa [hsole.entry, hsole.others k hk]
  have hclean := (htidy.cleanVictim i).2 trivial
  have hkept := ((hinv.cleanVictim i).2.2 j).2
  have hslot : (e.allocateBufferEntry id').1 = some i := by
    simp only [allocateBufferEntry, hv, hclean, if_true]
  simp only [Engine.getPage, hfind, hslot]
  rw [pageId_fill]
  by_cases hj : j = i
  · rw [if_pos hj, hj]
    exact Tidy.allocateBufferEntry_label hslot
  · have hunlink : ((e.cleanVictim i).2.unlinkVictim i).pool = (e.cleanVictim i).2.pool := by
      rw [unlinkVictim]
      split <;> rfl
    rw [if_neg hj, ← show (e.pool j).pageId = 0 by rw [hsole.others j hj]; rfl, ← hkept, ← hunlink]
    simp only [allocateBufferEntry, hv, hclean, if_true]
    simp [relabel, Engine.setEntry, clockGettime, hj]

end Sole

/-! ## Calls -/

/-- A call that uses the pool.  `modifyPage` is an edit in place followed by
`mark_page_dirty`. -/
inductive PoolCall
  | getPage (id : UInt32)
  | modifyPage (id : UInt32) (page : BtreePage)
  | releasePage (id : UInt32)
  | performCheckpoint

/-- The engine, the bytes last left in each page obtained so far, and for each
page how often it was obtained and not released. -/
structure Session where
  engine : Engine
  last : UInt32 → Option BtreePage
  pins : UInt32 → ℤ

namespace Session

/-- An empty pool in front of the data file, with any page to allocate next. -/
def start (file walFile : Bytes) (io : Io) (next : UInt32) : Session :=
  ⟨{ opened file walFile io with nextPageId := next }, fun _ => none, fun _ => 0⟩

/-- Page ids are nonzero, whoever edits a page holds a pin on it, and the number
of pins on a page fits an `int`. -/
def Allowed (s : Session) : PoolCall → Prop
  | .getPage id => id ≠ 0 ∧ s.pins id < 2 ^ 31 - 1
  | .modifyPage id _ => 0 < s.pins id
  | .releasePage id => -2 ^ 31 < s.pins id
  | .performCheckpoint => True

def next (crc : Bytes → UInt32) (s : Session) : PoolCall → Session
  | .getPage id =>
    let g := s.engine.getPage crc id
    match g.1 with
    | none => { s with engine := g.2 }
    | some page =>
      { engine := g.2
        last := update s.last id ((s.last id).or (some page))
        pins := update s.pins id (s.pins id + 1) }
  | .modifyPage id page =>
    { s with
      engine := (s.engine.editPage id page).markPageDirty crc id
      last := update s.last id (some (s.engine.stamped crc page)) }
  | .releasePage id =>
    { s with
      engine := s.engine.releasePage id
      pins := releasedPins s.engine s.pins id }
  | .performCheckpoint => { s with engine := (s.engine.performCheckpoint crc).2 }

/-- A sequence of calls leads from `s` to `s'`. -/
def Reaches (crc : Bytes → UInt32) (s s' : Session) : Prop :=
  Relation.ReflTransGen (fun t t' => ∃ c, t.Allowed c ∧ t' = t.next crc c) s s'

variable {s s' : Session} {file walFile : Bytes} {io : Io} {first : UInt32}

theorem start_poolOk :
    PoolOk crc (start file walFile io first).last (start file walFile io first).pins
      (start file walFile io first).engine :=
  poolOk_of_empty (fun _ => rfl) (fun _ => rfl) nofun

theorem next_poolOk (h : PoolOk crc s.last s.pins s.engine) {c : PoolCall} (hc : s.Allowed c) :
    PoolOk crc (s.next crc c).last (s.next crc c).pins (s.next crc c).engine := by
  cases c with
  | getPage id =>
    have hserved := h.getPage hc.1
    simp only [next]
    rcases hget : s.engine.getPage crc id with ⟨_ | page, e⟩
    · rw [hget] at hserved
      exact hserved
    · rw [hget] at hserved
      obtain ⟨hsame, hok⟩ := hserved
      have hlast : (s.last id).or (some page) = some page := by
        cases hid : s.last id with
        | none => rfl
        | some p => rw [hsame p hid, some_or]
      simp only [hlast]
      exact hok
  | modifyPage id page =>
    obtain ⟨L, hinv⟩ := h
    have hpins : s.pins id ≠ 0 := ne_of_gt hc
    obtain ⟨i, hfind⟩ := hinv.exists_of_pins hpins
    exact PoolOk.modify ⟨L, hinv⟩ hfind page
  | releasePage id => exact h.releasePage id
  | performCheckpoint =>
    have hnext : s.next crc .performCheckpoint =
        { s with engine := (s.engine.performCheckpoint crc).2 } := rfl
    rw [hnext]
    exact h.performCheckpoint

theorem Reaches.poolOk (hrun : Reaches crc (start file walFile io first) s) :
    PoolOk crc s.last s.pins s.engine := by
  induction hrun with
  | refl => exact start_poolOk
  | tail hrun hstep ih =>
    obtain ⟨c, hc, rfl⟩ := hstep
    exact next_poolOk ih hc

def IsInt (n : ℤ) : Prop :=
  -2 ^ 31 ≤ n ∧ n < 2 ^ 31

theorem isInt_zero : IsInt 0 := ⟨by decide, by decide⟩

theorem next_isInt (h : ∀ id, IsInt (s.pins id)) {c : PoolCall}
    (hc : s.Allowed c) : ∀ id, IsInt ((s.next crc c).pins id) := by
  have hset : ∀ id n, IsInt n → ∀ id', IsInt (update s.pins id n id') := by
    intro id n hn id'
    by_cases heq : id' = id
    · rw [heq, update_self]
      exact hn
    · rw [update_of_ne heq]
      exact h id'
  cases c with
  | getPage id =>
    simp only [next]
    split
    · exact h
    · have hlow := (h id).1
      have hroom := hc.2
      exact hset id _ ⟨by omega, by omega⟩
  | modifyPage id page => exact h
  | releasePage id =>
    simp only [next, releasedPins]
    split
    · have hroom : -2 ^ 31 < s.pins id := hc
      have hhigh := (h id).2
      exact hset id _ ⟨by omega, by omega⟩
    · exact h
  | performCheckpoint => exact h

theorem Reaches.isInt (hrun : Reaches crc (start file walFile io first) s) :
    ∀ id, IsInt (s.pins id) := by
  induction hrun with
  | refl => exact fun _ => isInt_zero
  | tail hrun hstep ih =>
    obtain ⟨c, hc, rfl⟩ := hstep
    exact next_isInt ih hc

/-! ## A page that is evicted and loaded again -/

theorem next_getPage_engine (id : UInt32) :
    (s.next crc (.getPage id)).engine = (s.engine.getPage crc id).2 := by
  simp only [next]
  split <;> rfl

theorem next_getPage_pins {id : UInt32} {page : BtreePage}
    (h : (s.engine.getPage crc id).1 = some page) :
    (s.next crc (.getPage id)).pins = update s.pins id (s.pins id + 1) := by
  simp only [next, h]

theorem next_getPage_last {id id' : UInt32} (hne : id' ≠ id) :
    (s.next crc (.getPage id)).last id' = s.last id' := by
  simp only [next]
  split
  · rfl
  · exact update_of_ne hne _ _

/-- The first reading is behind all others. -/
def earlyClock : Io :=
  { Io.quiet with clock := [⟨-1, 0⟩] }

/-- A run has come to `s`, with page 1 alone in the pool. -/
structure Holding (crc : Bytes → UInt32) (s : Session) (i : Slot) (entry : BufferEntry) : Prop where
  run : Reaches crc (start [] [] earlyClock 3) s
  tidy : Tidy True [] 3 s.engine
  sole : Sole s.engine 1 i entry
  pageId : entry.pageId = 1
  pins : s.pins = update (fun _ => 0) 1 entry.refCount

theorem exists_loaded (crc : Bytes → UInt32) :
    ∃ s i, Holding crc s i ⟨some (freshPage 1), 1, true, false, 1, ⟨-1, 0⟩⟩ ∧
      s.engine.wal.nextLsn = 1 := by
  have hfind : (start [] [] earlyClock 3).engine.findBufferEntry 1 = none := by
    have hsize : bufferPoolSize = 9999 + 1 := rfl
    simp [findBufferEntry, Chains.find, hsize, Chains.findFrom, start, opened]
  obtain ⟨hreply, ⟨i, hsole⟩, hlog⟩ := getPage_of_empty crc hfind (fun _ => rfl)
    rfl rfl rfl
  have htidy : Tidy True [] 3 (start [] [] earlyClock 3).engine :=
    ⟨rfl, rfl, Nat.zero_le _, fun _ h => absurd h Bool.false_ne_true, fun _ => rfl,
      fun _ => ⟨rfl, rfl, rfl⟩⟩
  refine ⟨_, i, ⟨.single ⟨.getPage 1, ⟨by decide, by decide⟩, rfl⟩, ?_, ?_, rfl,
    next_getPage_pins hreply⟩, ?_⟩
  · rw [next_getPage_engine]
    exact htidy.getPage (by decide)
  · rw [next_getPage_engine]
    exact hsole
  · rw [next_getPage_engine, hlog.wal]
    rfl

namespace Holding

variable {i : Slot} {entry : BufferEntry} (h : Holding crc s i entry)
include h

theorem modifyPage (page : BtreePage) (hpinned : 0 < entry.refCount) :
    Holding crc (s.next crc (.modifyPage 1 page)) i
      { entry with page := some (s.engine.stamped crc page), dirty := true } where
  run := h.run.tail ⟨_, by simpa [Allowed, h.pins] using hpinned, rfl⟩
  tidy := by
    refine (h.tidy.editPage 1 page).markPageDirty ?_
    intro k hk
    have hedit := h.sole.editPage page
    obtain rfl : i = k := Option.some.inj (hedit.find.symm.trans hk)
    rw [hedit.entry, h.pageId]
    decide
  sole := h.sole.modify crc page
  pageId := h.pageId
  pins := h.pins

theorem releasePage (hpinned : 0 < entry.refCount) :
    Holding crc (s.next crc (.releasePage 1)) i { entry with refCount := entry.refCount - 1 } where
  run := by
    refine h.run.tail ⟨.releasePage 1, ?_, rfl⟩
    simp only [Allowed, h.pins, update_self]
    omega
  tidy := h.tidy.releasePage 1
  sole := h.sole.releasePage
  pageId := h.pageId
  pins := by simp [next, releasedPins, h.sole.find, h.pins]

theorem evict (hevict : entry.Evictable)
    (hold : entry.lastAccess.Older emptyEntry.lastAccess) {page : BtreePage}
    (hlast : s.last 1 = some page) :
    ∃ s', Reaches crc (start [] [] earlyClock 3) s' ∧ s'.last 1 = some page ∧
      s'.engine.findBufferEntry 1 = none ∧ (s'.engine.getPage crc 1).1.isSome := by
  have hrun : Reaches crc (start [] [] earlyClock 3) (s.next crc (.getPage 2)) := by
    refine h.run.tail ⟨.getPage 2, ⟨by decide, ?_⟩, rfl⟩
    rw [h.pins, update_of_ne (by decide)]
    decide
  have hids := h.run.poolOk.getPage_evicts h.tidy h.sole hevict hold
    (show 2 ≠ entry.pageId by rw [h.pageId]; decide) (by decide)
  have htidy : Tidy True [] 3 (s.engine.getPage crc 2).2 := h.tidy.getPage (by decide)
  rw [← next_getPage_engine] at htidy
  simp only [← next_getPage_engine] at hids
  have hkept : (s.next crc (.getPage 2)).last 1 = some page :=
    (next_getPage_last (by decide)).trans hlast
  generalize s.next crc (.getPage 2) = s' at *
  obtain ⟨L, hinv⟩ := hrun.poolOk
  have hslots : Nontrivial Slot := Fin.nontrivial_iff_two_le.mpr (by decide)
  obtain ⟨j, hj⟩ := exists_ne i
  have hfree : ¬Chained L j := fun hchained => hinv.nonzero j hchained (by rw [hids, if_neg hj])
  have hspare : (s'.engine.pool j).Evictable := ⟨htidy.unpinned j, (hinv.idle j hfree nofun).1⟩
  refine ⟨s', hrun, hkept, hinv.findBufferEntry_eq_none.mpr ?_, ?_⟩
  · intro k _
    rw [hids]
    split <;> decide
  · rw [PoolOk.getPage_of_quiet ⟨L, hinv⟩ htidy hspare hkept]
    rfl

end Holding

/-- A run that loads, edits and releases page 1 and then loads page 2 into its
slot. -/
theorem exists_evicted (crc : Bytes → UInt32) (page : BtreePage) :
    ∃ s, Reaches crc (start [] [] earlyClock 3) s ∧
      s.last 1 = some (page.stamp 0 ((page.stamp 0 0).sum crc)) ∧
      s.engine.findBufferEntry 1 = none ∧ (s.engine.getPage crc 1).1.isSome := by
  obtain ⟨s, i, hloaded, hlsn⟩ := exists_loaded crc
  have hpinned : (0 : ℤ) < 1 := by decide
  have hbefore : (-1 : ℤ) < 0 := by decide
  have hreleased := (hloaded.modifyPage page hpinned).releasePage hpinned
  refine hreleased.evict ⟨rfl, rfl⟩ (.inl hbefore) ?_
  simp [next, stamped, hlsn]

/-! ## The pool is transparent -/

/-- The buffer pool is a transparent cache.  At every point of a run:
`get_page` yields the bytes last left in the page; when it has to load a page
obtained before, the bytes on disk are those and pass the checksum test; each
page has at most one entry in the chains, which stands in the bucket of its
page and in no other chain; an entry in use is never the victim; and no
`ref_count` has wrapped. -/
theorem get_page_transparent (hrun : Reaches crc (start file walFile io first) s) :
    (∀ id page p, id ≠ 0 → (s.engine.getPage crc id).1 = some page →
      s.last id = some p → page = p) ∧
    (∀ id i p, s.engine.findBufferEntry id = none →
      (s.engine.allocateBufferEntry id).1 = some i → s.last id = some p →
      OnDisk (s.engine.allocateBufferEntry id).2.file id p ∧
        p.ChecksumValid crc) ∧
    (∃ L : Buckets, s.engine.links.Holds L ∧
      (∀ b, ∀ i ∈ L b, hashPageId (s.engine.pool i).pageId = b) ∧
      ∀ b b' i j, i ∈ L b → j ∈ L b' →
        (s.engine.pool i).pageId = (s.engine.pool j).pageId → i = j) ∧
    (∀ i, s.engine.pickVictim = some i → ¬ 0 < (s.engine.pool i).refCount) ∧
    ∀ i, IsInt (s.engine.pool i).refCount := by
  have hok := hrun.poolOk
  obtain ⟨L, hinv⟩ := hok
  refine ⟨?_, ?_, ⟨L, hinv.chains, hinv.bucket, ?_⟩, ?_, ?_⟩
  · intro id page p hid hpage hp
    have hserved := hrun.poolOk.getPage hid
    rcases hget : s.engine.getPage crc id with ⟨reply, e⟩
    rw [hget] at hserved hpage
    obtain rfl : reply = some page := hpage
    exact hserved.1 p hp
  · intro id i p hnone hslot hp
    obtain ⟨-, -, L', hload⟩ := hinv.allocateBufferEntry_some
      (hinv.findBufferEntry_eq_none.mp hnone) hslot
    exact ⟨hload.onDisk hp, (hinv.stored id p hp).1⟩
  · intro b b' i j hi hj
    exact hinv.distinct i j ⟨b, hi⟩ ⟨b', hj⟩
  · intro i hv
    rw [(pickVictim_evictable hv).2]
    exact lt_irrefl 0
  · intro i
    by_cases hi : Chained L i
    · rw [hinv.counted i hi]
      exact hrun.isInt _
    · rw [(hinv.idle i hi nofun).1]
      exact isInt_zero

/-- Page 1 after an edit, with its slot taken by page 2: it is read back. -/
theorem get_page_transparent_reloaded :
    ∃ s page, Reaches (fun _ => 5) (start [] [] earlyClock 3) s ∧
      s.last 1 = some page ∧ page.header.nextPageId = 7 ∧
      s.engine.findBufferEntry 1 = none ∧
      (s.engine.getPage (fun _ => 5) 1).1 = some page := by
  obtain ⟨s, hrun, hlast, hfind, hsome⟩ := exists_evicted (fun _ => 5)
    { freshPage 1 with header := { (freshPage 1).header with nextPageId := 7 } }
  obtain ⟨page, hpage⟩ := Option.isSome_iff_exists.mp hsome
  refine ⟨s, _, hrun, hlast, rfl, hfind, ?_⟩
  rw [hpage, (get_page_transparent hrun).1 1 page _ (by decide) hpage hlast]

end Session

end Codo.Storage
