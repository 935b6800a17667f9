import Codo.Storage.Discipline
import Codo.Storage.Lifecycle

/-!
# What reaches the log file, and when

`LogInv` says where the accepted records are: those of the earlier flushes in
the log file, the others framed in the buffer.  It survives every failure of
`write`; a flush that gives up appends bytes and forgets nothing.

`Logs` takes a stretch of engine code apart into the calls it makes into the log,
and `Advances` says what follows for the log.  A stretch uses up some results of
`write`; when none of them is a hard failure, every record that fits is accepted
and every page image is written behind the log.
-/

namespace Codo.Storage

open Support Engine List

/-! ## The log -/

/-- The records `logged` lie in the file or wait in the buffer. -/
def LogInv (crc : Bytes → UInt32) (logged : List WalRecord) (w : Wal) : Prop :=
  ∃ flushed pending, logged = flushed ++ pending ∧
    w.buffer = frames crc pending ∧ ∀ r ∈ flushed, r.frame crc <:+: w.file

variable {crc : Bytes → UInt32}

namespace LogInv

variable {logged : List WalRecord} {w : Wal}

theorem nil (file : Bytes) (lsn : UInt64) : LogInv crc [] ⟨file, [], lsn⟩ :=
  ⟨[], [], rfl, rfl, nofun⟩

theorem extend (h : LogInv crc logged w) (front : Bytes) :
    LogInv crc logged { w with file := w.file ++ front } := by
  obtain ⟨flushed, pending, hlogged, hbuffer, hfile⟩ := h
  exact ⟨flushed, pending, hlogged, hbuffer, fun r hr => (hfile r hr).trans (infix_append' [] _ _)⟩

theorem infix_drained (h : LogInv crc logged w) :
    ∀ r ∈ logged, r.frame crc <:+: w.file ++ w.buffer := by
  obtain ⟨flushed, pending, rfl, hbuffer, hfile⟩ := h
  intro r hr
  rcases mem_append.mp hr with hold | hnew
  · exact (hfile r hold).trans (infix_append' [] _ _)
  · obtain ⟨before, behind, rfl⟩ := append_of_mem hnew
    rw [hbuffer]
    refine ⟨w.file ++ frames crc before, frames crc behind, ?_⟩
    simp [frames]

theorem drain (h : LogInv crc logged w) :
    LogInv crc logged { w with file := w.file ++ w.buffer, buffer := [] } :=
  ⟨logged, [], (append_nil _).symm, rfl, h.infix_drained⟩

theorem push (h : LogInv crc logged w) (txnId : UInt64) (type : WalRecordType)
    (pageId : UInt32) (data : Bytes) :
    LogInv crc (logged ++ [⟨w.nextLsn, txnId, type, pageId, data⟩])
      (w.push crc txnId type pageId data) := by
  obtain ⟨flushed, pending, rfl, hbuffer, hfile⟩ := h
  refine ⟨flushed, pending ++ [⟨w.nextLsn, txnId, type, pageId, data⟩], ?_, ?_, hfile⟩
  · rw [append_assoc]
  · rw [Wal.push, hbuffer, frames_append, frames_singleton]

end LogInv

/-- `flush_wal_buffer` moves the buffer to the file, unless a hard failure
makes it give up somewhere. -/
theorem Wal.flushWalBuffer_cases (w : Wal) (results : List WriteResult) :
    ∃ used, results = used ++ (w.flushWalBuffer results).2.2 ∧ ((w.flushWalBuffer results).2.1 =
          { w with file := w.file ++ w.buffer, buffer := [] } ∨ (∃ r ∈ used, ¬ r.Soft) ∧
          ∃ front, (w.flushWalBuffer results).2.1 = { w with file := w.file ++ front }) := by
  rw [flushWalBuffer]
  split
  next =>
    obtain ⟨used, hused, ⟨hok, hfile, -⟩ | ⟨hfail, hhard, front, hfront, -⟩⟩ :=
      @writeLoop_cases results w.file w.buffer 0
    · dsimp only
      rw [if_pos hok, hfile]
      exact ⟨used, hused, .inl rfl⟩
    · dsimp only
      rw [hfail, if_neg Bool.false_ne_true, hfront]
      exact ⟨used, hused, .inr ⟨hhard, front, rfl⟩⟩
  next hempty =>
    have hnil : w.buffer = [] := by simpa [length_pos_iff] using hempty
    refine ⟨[], rfl, .inl ?_⟩
    obtain ⟨file, buffer, nextLsn⟩ := w
    simp only at hnil
    simp [hnil]

/-- `write_wal_record` adds the record, possibly behind a flush, or returns
`-1`: the record is too large, or a hard failure met the flush. -/
theorem Wal.writeWalRecord_cases (crc : Bytes → UInt32) (w : Wal)
    (results : List WriteResult) (txnId : UInt64) (type : WalRecordType)
    (pageId : UInt32) (data : Bytes) :
    ∃ used, results = used ++ (w.writeWalRecord crc results txnId type pageId data).2.2 ∧
      ((w.writeWalRecord crc results txnId type pageId data).1 = 0 ∧
          ((w.writeWalRecord crc results txnId type pageId data).2.1 =
              w.push crc txnId type pageId data ∨
            (w.writeWalRecord crc results txnId type pageId data).2.1 =
              push crc { w with file := w.file ++ w.buffer, buffer := [] } txnId type pageId data) ∨
        (w.writeWalRecord crc results txnId type pageId data).1 = -1 ∧
          (walBufferSize < walStride data.length ∨ ∃ r ∈ used, ¬ r.Soft) ∧
          ∃ front, (w.writeWalRecord crc results txnId type pageId data).2.1 =
            { w with file := w.file ++ front }) := by
  rw [writeWalRecord]
  split
  next hbig => exact ⟨[], rfl, .inr ⟨rfl, .inl hbig, [], by simp⟩⟩
  next =>
    split
    next =>
      obtain ⟨used, hused, ⟨hok, hfile, -⟩ | ⟨hfail, hhard, front, hfront, -⟩⟩ :=
        @writeLoop_cases results w.file w.buffer 0
      · dsimp only
        rw [if_pos hok, hfile]
        exact ⟨used, hused, .inl ⟨rfl, .inr rfl⟩⟩
      · dsimp only
        rw [hfail, if_neg Bool.false_ne_true, hfront]
        exact ⟨used, hused, .inr ⟨rfl, .inr hhard, front, rfl⟩⟩
    next => exact ⟨[], rfl, .inl ⟨rfl, .inl rfl⟩⟩

/-! ## Stretches of engine code -/

/-- The log was complete when the page image was written. -/
def Covered (crc : Bytes → UInt32) (p : PageWrite) : Prop :=
  ∀ r ∈ p.logged, r.frame crc <:+: p.walFile

/-- Between `e` and `e'` the results `used` were used up, the records
`attempts` were handed to the log and the pages `writes` were written. -/
structure Spent (e e' : Engine) (used : List WriteResult)
    (attempts : List (WalRecord × ℤ)) (writes : List PageWrite) : Prop where
  used_eq : e.io.walWrites = used ++ e'.io.walWrites
  attempts_eq : e'.history.attempts = e.history.attempts ++ attempts
  writes_eq : e'.history.pageWrites = e.history.pageWrites ++ writes

/-- What a stretch of engine code does to the log.  `txnId` is the transaction
it logs for. -/
def Advances (crc : Bytes → UInt32) (txnId : UInt64) (e e' : Engine) : Prop :=
  LogInv crc e.history.logged e.wal → LogInv crc e'.history.logged e'.wal ∧
      ∃ used attempts writes, Spent e e' used attempts writes ∧
        (∀ a ∈ attempts, a.1.txnId = txnId) ∧ ((∀ r ∈ used, r.Soft) →
          (∀ a ∈ attempts, a.2 = 0) ∧ ∀ p ∈ writes, Covered crc p)

variable {txnId : UInt64} {e e' : Engine}

namespace Advances

variable {e'' : Engine}

theorem of_same (hwal : e'.wal = e.wal) (hresults : e'.io.walWrites = e.io.walWrites)
    (hhistory : e'.history = e.history) : Advances crc txnId e e' := by
  intro h
  refine ⟨by rw [hwal, hhistory]; exact h, [], [], [], ⟨?_, ?_, ?_⟩, nofun, fun _ => ⟨nofun, nofun⟩⟩
  · rw [hresults, nil_append]
  · rw [hhistory, append_nil]
  · rw [hhistory, append_nil]

theorem trans (h : Advances crc txnId e e') (h' : Advances crc txnId e' e'') :
    Advances crc txnId e e'' := by
  intro hinv
  obtain ⟨hinv₁, used₁, attempts₁, writes₁, hspent₁, hids₁, hcalm₁⟩ := h hinv
  obtain ⟨hinv₂, used₂, attempts₂, writes₂, hspent₂, hids₂, hcalm₂⟩ := h' hinv₁
  refine ⟨hinv₂, used₁ ++ used₂, attempts₁ ++ attempts₂, writes₁ ++ writes₂, ⟨?_, ?_, ?_⟩, ?_, ?_⟩
  · rw [hspent₁.used_eq, hspent₂.used_eq, append_assoc]
  · rw [hspent₂.attempts_eq, hspent₁.attempts_eq, append_assoc]
  · rw [hspent₂.writes_eq, hspent₁.writes_eq, append_assoc]
  · intro a ha
    exact (mem_append.mp ha).elim (hids₁ a) (hids₂ a)
  · intro hsoft
    obtain ⟨hacc₁, hcov₁⟩ := hcalm₁ fun r hr => hsoft r (mem_append_left _ hr)
    obtain ⟨hacc₂, hcov₂⟩ := hcalm₂ fun r hr => hsoft r (mem_append_right _ hr)
    constructor
    · intro a ha
      exact (mem_append.mp ha).elim (hacc₁ a) (hacc₂ a)
    · intro p hp
      exact (mem_append.mp hp).elim (hcov₁ p) (hcov₂ p)

/-- A flush followed by page writes that find the log as the flush left it. -/
theorem flushed {writes : List PageWrite} (hwal : e'.wal = e.flushWalBuffer.2.wal)
    (hresults : e'.io.walWrites = e.flushWalBuffer.2.io.walWrites)
    (hattempts : e'.history.attempts = e.history.attempts)
    (hwrites : e'.history.pageWrites = e.history.pageWrites ++ writes)
    (hlogs : ∀ p ∈ writes, p.logged = e.history.logged ∧ p.walFile = e.flushWalBuffer.2.wal.file) :
    Advances crc txnId e e' := by
  intro hinv
  obtain ⟨used, hused, hcases⟩ := Wal.flushWalBuffer_cases e.wal e.io.walWrites
  have hlogged : e'.history.logged = e.history.logged := by
    rw [History.logged, hattempts]
    rfl
  rw [hlogged, hwal]
  refine ⟨?_, used, [], writes, ⟨?_, ?_, hwrites⟩, nofun, ?_⟩
  · rcases hcases with hdone | ⟨-, front, hfront⟩
    · simp only [Engine.flushWalBuffer, hdone]
      exact hinv.drain
    · simp only [Engine.flushWalBuffer, hfront]
      exact hinv.extend front
  · rw [hresults]
    exact hused
  · rw [hattempts, append_nil]
  · intro hsoft
    refine ⟨nofun, ?_⟩
    intro p hp r hr
    obtain ⟨hplogged, hpfile⟩ := hlogs p hp
    rcases hcases with hdone | ⟨⟨r', hr', hhard⟩, -⟩
    · rw [hpfile]
      simp only [Engine.flushWalBuffer, hdone]
      exact hinv.infix_drained r (hplogged ▸ hr)
    · exact absurd (hsoft r' hr') hhard

theorem writeWalRecord (e : Engine) (type : WalRecordType) (pageId : UInt32)
    {data : Bytes} (hdata : Storable data) :
    Advances crc txnId e (e.writeWalRecord crc txnId type pageId data).2 := by
  intro hinv
  obtain ⟨used, hused, hcases⟩ := Wal.writeWalRecord_cases crc e.wal
    e.io.walWrites txnId type pageId data
  have hlogged : ∀ rc, ({ e.history with
      attempts := e.history.attempts ++
        [(⟨e.wal.nextLsn, txnId, type, pageId, data⟩, rc)] } : History).logged =
      if rc = 0 then
        e.history.logged ++ [⟨e.wal.nextLsn, txnId, type, pageId, data⟩]
      else e.history.logged := by
    intro rc
    by_cases hrc : rc = 0 <;> simp [History.logged, hrc]
  refine ⟨?_, used, [(⟨e.wal.nextLsn, txnId, type, pageId, data⟩,
    (e.wal.writeWalRecord crc e.io.walWrites txnId type pageId data).1)], [],
    ⟨hused, rfl, (append_nil _).symm⟩, ?_, ?_⟩
  · simp only [Engine.writeWalRecord, hlogged]
    rcases hcases with ⟨hrc, hpush | hpush⟩ | ⟨hrc, -, front, hfront⟩
    · rw [hrc, hpush]
      exact hinv.push txnId type pageId data
    · rw [hrc, hpush]
      exact hinv.drain.push txnId type pageId data
    · rw [hrc, hfront]
      exact hinv.extend front
  · intro a ha
    rw [mem_singleton.mp ha]
  · intro hsoft
    refine ⟨?_, nofun⟩
    intro a ha
    rw [mem_singleton.mp ha]
    rcases hcases with ⟨hrc, -⟩ | ⟨-, hbig | ⟨r, hr, hhard⟩, -⟩
    · exact hrc
    · exact absurd hdata.2 (not_le.mpr hbig)
    · exact absurd (hsoft r hr) hhard

end Advances

/-- A stretch of engine code as the log sees it: nothing at all, a flush with
page writes behind it, a record handed to the log for `txnId`, or one such
stretch after another. -/
inductive Logs (crc : Bytes → UInt32) (txnId : UInt64) : Engine → Engine → Prop
  | same {e e' : Engine} (hwal : e'.wal = e.wal) (hresults : e'.io.walWrites = e.io.walWrites)
      (hhistory : e'.history = e.history) : Logs crc txnId e e'
  | flushed {e e' : Engine} {writes : List PageWrite} (hwal : e'.wal = e.flushWalBuffer.2.wal)
      (hresults : e'.io.walWrites = e.flushWalBuffer.2.io.walWrites)
      (hattempts : e'.history.attempts = e.history.attempts)
      (hwrites : e'.history.pageWrites = e.history.pageWrites ++ writes)
      (hlogs : ∀ p ∈ writes, p.logged = e.history.logged ∧
        p.walFile = e.flushWalBuffer.2.wal.file) : Logs crc txnId e e'
  | writeWalRecord (e : Engine) (type : WalRecordType) (pageId : UInt32)
      {data : Bytes} (hdata : Storable data) :
      Logs crc txnId e (e.writeWalRecord crc txnId type pageId data).2
  | trans {e e' e'' : Engine} : Logs crc txnId e e' → Logs crc txnId e' e'' → Logs crc txnId e e''

namespace Logs

theorem refl (e : Engine) : Logs crc txnId e e :=
  same rfl rfl rfl

theorem flushWalBuffer (e : Engine) : Logs crc txnId e e.flushWalBuffer.2 :=
  flushed rfl rfl rfl (append_nil _).symm nofun

theorem advances (h : Logs crc txnId e e') : Advances crc txnId e e' := by
  induction h with
  | same hwal hresults hhistory => exact .of_same hwal hresults hhistory
  | flushed hwal hresults hattempts hwrites hlogs =>
    exact .flushed hwal hresults hattempts hwrites hlogs
  | writeWalRecord e type pageId hdata => exact .writeWalRecord e type pageId hdata
  | trans _ _ ih ih' => exact ih.trans ih'

/-! ## The pager -/

theorem writeBack (e : Engine) (i : Slot) (page : BtreePage) :
    Logs crc txnId e (e.writeBack i page).2 := by
  have hnoted : ∀ p ∈ [(⟨page, e.history.logged, e.flushWalBuffer.2.wal.file⟩ :
      PageWrite)], p.logged = e.history.logged ∧ p.walFile = e.flushWalBuffer.2.wal.file := by
    intro p hp
    rw [mem_singleton.mp hp]
    exact ⟨rfl, rfl⟩
  simp only [Engine.writeBack]
  split <;> exact flushed rfl rfl rfl rfl hnoted

theorem cleanVictim (e : Engine) (i : Slot) : Logs crc txnId e (e.cleanVictim i).2 := by
  rw [Engine.cleanVictim]
  split
  next =>
    split
    next => exact writeBack e i _
    next => exact refl e
  next => exact refl e

theorem unlinkVictim (e : Engine) (i : Slot) : Logs crc txnId e (e.unlinkVictim i) := by
  rw [Engine.unlinkVictim]
  split <;> exact same rfl rfl rfl

theorem allocateBufferEntry (e : Engine) (pageId : UInt32) :
    Logs crc txnId e (e.allocateBufferEntry pageId).2 := by
  rw [Engine.allocateBufferEntry]
  split
  next => exact refl e
  next i _ =>
    simp only
    split
    next =>
      have hunlink : Logs crc txnId (e.cleanVictim i).2 _ := unlinkVictim (e.cleanVictim i).2 i
      exact ((cleanVictim e i).trans hunlink).trans (same rfl rfl rfl)
    next => exact cleanVictim e i

theorem ensureFrame (e : Engine) (i : Slot) : Logs crc txnId e (e.ensureFrame i).2 := by
  rw [Engine.ensureFrame]
  split
  next => exact refl e
  next =>
    simp only
    split <;> exact same rfl rfl rfl

theorem loadPageFromDisk (e : Engine) (i : Slot) (pageId : UInt32) :
    Logs crc txnId e (e.loadPageFromDisk i pageId).2 := by
  simp only [Engine.loadPageFromDisk]
  split
  next => exact same rfl rfl rfl
  next => split <;> exact same rfl rfl rfl

theorem fill (e : Engine) (i : Slot) (pageId : UInt32) :
    Logs crc txnId e (e.fill crc i pageId).2 := by
  have hframe : Logs crc txnId e (e.ensureFrame i).2 := ensureFrame e i
  have hload := hframe.trans (loadPageFromDisk (e.ensureFrame i).2 i pageId)
  simp only [Engine.fill]
  split
  next => exact hframe.trans (same rfl rfl rfl)
  next =>
    split
    next => exact hload.trans (same rfl rfl rfl)
    next =>
      split
      next => exact hload.trans (same rfl rfl rfl)
      next => split <;> exact hload.trans (same rfl rfl rfl)

theorem getPage (e : Engine) (pageId : UInt32) : Logs crc txnId e (e.getPage crc pageId).2 := by
  rw [Engine.getPage]
  split
  next => exact same rfl rfl rfl
  next =>
    have hslot : Logs crc txnId e (e.allocateBufferEntry pageId).2 := allocateBufferEntry e pageId
    simp only
    split
    next => exact hslot
    next => exact hslot.trans (fill _ _ pageId)

theorem releasePage (e : Engine) (pageId : UInt32) : Logs crc txnId e (e.releasePage pageId) := by
  rw [Engine.releasePage]
  split <;> exact same rfl rfl rfl

theorem editPage (e : Engine) (pageId : UInt32) (page : BtreePage) :
    Logs crc txnId e (e.editPage pageId page) := by
  rw [Engine.editPage]
  split <;> exact same rfl rfl rfl

theorem markPageDirty (e : Engine) (pageId : UInt32) :
    Logs crc txnId e (e.markPageDirty crc pageId) := by
  rw [Engine.markPageDirty]
  split <;> exact same rfl rfl rfl

theorem allocatePage (e : Engine) : Logs crc txnId e e.allocatePage.2 := by
  rw [Engine.allocatePage]
  split
  next => exact same rfl rfl rfl
  next => split <;> exact same rfl rfl rfl

theorem deallocatePage (e : Engine) (pageId : UInt32) :
    Logs crc txnId e (e.deallocatePage pageId) := by
  have hgrow : Logs crc txnId e e.growFreePages := by
    rw [growFreePages]
    split
    next =>
      simp only
      split <;> exact same rfl rfl rfl
    next => exact refl e
  simp only [Engine.deallocatePage]
  split
  next => exact hgrow.trans (same rfl rfl rfl)
  next => exact hgrow

theorem step {c : PagerCmd} {held : List UInt32} (hc : mayIssue txnId c held)
    (e : Engine) : Logs crc txnId e (Engine.step crc c e).2 := by
  cases c with
  | getPage id lock => exact getPage e id
  | releasePage id lock => exact releasePage e id
  | updatePage id page => exact (editPage e id page).trans (markPageDirty _ id)
  | scribblePage id page => exact editPage e id page
  | allocatePage => exact allocatePage e
  | deallocatePage id => exact deallocatePage e id
  | writeWalRecord id type pageId data =>
    obtain ⟨rfl, hdata⟩ := hc
    exact writeWalRecord e type pageId hdata

theorem run {α : Type} {p : PagerM α} {held : List UInt32}
    {Q : α → List UInt32 → Prop} (hp : Polite txnId p held Q) (e : Engine) :
    Logs crc txnId e (Program.run (Engine.step crc) p e).2 := by
  induction p generalizing held e with
  | ret a => exact refl e
  | call c k ih => exact (step hp.1 e).trans (ih _ (hp.2 _) _)

/-! ## Checkpoints and transactions -/

theorem checkpointSlot_log (e : Engine) (i : Slot) :
    (e.checkpointSlot i).wal = e.wal ∧ (e.checkpointSlot i).io.walWrites = e.io.walWrites ∧
      (e.checkpointSlot i).history.attempts = e.history.attempts ∧
      ∃ writes, (e.checkpointSlot i).history.pageWrites = e.history.pageWrites ++ writes ∧
        ∀ p ∈ writes, p.logged = e.history.logged ∧ p.walFile = e.wal.file := by
  have hnoted : ∀ page, ∀ p ∈ [(⟨page, e.history.logged, e.wal.file⟩ :
      PageWrite)], p.logged = e.history.logged ∧ p.walFile = e.wal.file := by
    intro page p hp
    rw [mem_singleton.mp hp]
    exact ⟨rfl, rfl⟩
  rw [Engine.checkpointSlot]
  split
  next page _ =>
    split
    next =>
      simp only
      split <;> exact ⟨rfl, rfl, rfl, _, rfl, hnoted page⟩
    next => exact ⟨rfl, rfl, rfl, [], (append_nil _).symm, nofun⟩
  next => exact ⟨rfl, rfl, rfl, [], (append_nil _).symm, nofun⟩

theorem checkpointSlots_log (slots : List Slot) (e : Engine) :
    (slots.foldl checkpointSlot e).wal = e.wal ∧
      (slots.foldl checkpointSlot e).io.walWrites = e.io.walWrites ∧
      (slots.foldl checkpointSlot e).history.attempts = e.history.attempts ∧
      ∃ writes, (slots.foldl checkpointSlot e).history.pageWrites = e.history.pageWrites ++ writes ∧
        ∀ p ∈ writes, p.logged = e.history.logged ∧ p.walFile = e.wal.file := by
  induction slots generalizing e with
  | nil => exact ⟨rfl, rfl, rfl, [], (append_nil _).symm, nofun⟩
  | cons i slots ih =>
    obtain ⟨hwal, hresults, hattempts, writes, hwrites, hlogs⟩ := checkpointSlot_log e i
    obtain ⟨hwal', hresults', hattempts', writes', hwrites', hlogs'⟩ := ih (e.checkpointSlot i)
    have hlogged : (e.checkpointSlot i).history.logged = e.history.logged := by
      rw [History.logged, hattempts]
      rfl
    refine ⟨hwal'.trans hwal, hresults'.trans hresults,
      hattempts'.trans hattempts, writes ++ writes', ?_, ?_⟩
    · rw [foldl_cons, hwrites', hwrites, append_assoc]
    · intro p hp
      rcases mem_append.mp hp with hp | hp
      · exact hlogs p hp
      · rw [← hlogged, ← hwal]
        exact hlogs' p hp

theorem checkpointPool_log (e : Engine) :
    e.checkpointPool.wal = e.wal ∧ e.checkpointPool.io.walWrites = e.io.walWrites ∧
      e.checkpointPool.history.attempts = e.history.attempts ∧
      ∃ writes, e.checkpointPool.history.pageWrites = e.history.pageWrites ++ writes ∧
        ∀ p ∈ writes, p.logged = e.history.logged ∧ p.walFile = e.wal.file := by
  unfold Engine.checkpointPool
  exact checkpointSlots_log _ e

theorem checkpointPool (e : Engine) : Logs crc txnId e e.flushWalBuffer.2.checkpointPool := by
  obtain ⟨hwal, hresults, hattempts, writes, hwrites, hlogs⟩ :=
    checkpointPool_log e.flushWalBuffer.2
  exact flushed hwal hresults hattempts hwrites hlogs

theorem performCheckpoint (e : Engine) : Logs crc 0 e (e.performCheckpoint crc).2 := by
  have hempty : Storable [] := storable_of_length_le (Nat.zero_le _)
  have hpages : Logs crc 0 e e.flushWalBuffer.2.checkpointPool := checkpointPool e
  have hrecord := hpages.trans (writeWalRecord _ .checkout 0 hempty)
  exact hrecord.trans (flushWalBuffer _)

end Logs

end Codo.Storage
