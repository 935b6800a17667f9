import Codo.Storage.Refinement

/-!
# Read-only calls

`db_search` and the scans only load and release pages.  In a quiet environment
the engine serves every page the store knows, whatever is in its pool: one
other page may be held, so there is always a victim.  What such a call answers
is therefore a function of the known pages alone.
-/

namespace Codo.Storage

open Support Support.Levels Engine Program Store List

/-! ## A quiet engine -/

variable {s : Store} {held : List UInt32} {id : UInt32} {page : BtreePage}

section Quiet

variable {crc : Bytes → UInt32} {quiet : Prop} {e : Engine}

/-- A program that holds at most one page leaves a slot to evict. -/
theorem Implements.exists_evictable (h : Implements crc quiet e s held)
    (hroom : held.length ≤ 1) : ∃ i, (e.pool i).Evictable := by
  obtain ⟨L, hinv⟩ := h.pool
  by_contra hnone
  push Not at hnone
  have hused : ∀ i, Chained L i ∧ (e.pool i).pageId ∈ held := by
    intro i
    have hne : (e.pool i).refCount ≠ 0 := fun hzero => hnone i ⟨h.tidy.unpinned i, hzero⟩
    have hi : Chained L i := by
      by_contra hi
      exact hne (hinv.idle i hi nofun).1
    rw [hinv.counted i hi] at hne
    have hcount : held.count (e.pool i).pageId ≠ 0 := by exact_mod_cast hne
    exact ⟨hi, count_pos_iff.mp (Nat.pos_of_ne_zero hcount)⟩
  obtain ⟨hfirst, hmem⟩ := hused ⟨0, by decide⟩
  obtain ⟨hsecond, hmem'⟩ := hused ⟨1, by decide⟩
  have hsame : (e.pool ⟨0, by decide⟩).pageId = (e.pool ⟨1, by decide⟩).pageId := by
    match held, hroom with
    | [x], _ => rw [mem_singleton.mp hmem, mem_singleton.mp hmem']
  have habsurd := hinv.distinct _ _ hfirst hsecond hsame
  exact absurd (congrArg Fin.val habsurd) (by decide)

theorem Loading.fill_of_quiet {last : UInt32 → Option BtreePage}
    {pins : UInt32 → ℤ} {i : Slot} {L : Buckets} {free : List UInt32}
    {next : UInt32} (h : Loading crc last pins i id L e)
    (hclean : (e.pool i).dirty = false) (htidy : Tidy True free next e)
    (hpage : last id = some page) : (e.fill crc i id).1 = some page := by
  obtain ⟨hframe, hfclean⟩ := h.ensureFrame hclean
  obtain ⟨hftidy, hgiven, -⟩ := htidy.ensureFrame i
  have hdisk := hframe.onDisk hpage
  have hvalid : page.ChecksumValid crc := (hframe.inv.stored id page hpage).1
  have hreads : (e.ensureFrame i).2.io.reads.headD true = true := by
    rw [(hftidy.serving trivial).1]
    rfl
  have hload : (e.ensureFrame i).2.loadPageFromDisk i id = (true, Engine.setEntry
        { (e.ensureFrame i).2 with
          io := { (e.ensureFrame i).2.io with
            reads := (e.ensureFrame i).2.io.reads.tail } } i
        { (e.ensureFrame i).2.pool i with page := some page }) := by
    rw [Engine.loadPageFromDisk]
    simp only [hreads, hdisk.length_le, hdisk.ofBytes_slice, and_self, if_true]
  simp only [Engine.fill, hgiven trivial, hload]
  simp [Engine.setEntry, hvalid]

/-- A quiet pool with a slot to spare serves every page obtained before. -/
theorem PoolOk.getPage_of_quiet {last : UInt32 → Option BtreePage}
    {pins : UInt32 → ℤ} {i : Slot} {free : List UInt32} {next : UInt32}
    (h : PoolOk crc last pins e) (htidy : Tidy True free next e)
    (hevict : (e.pool i).Evictable) (hpage : last id = some page) :
    (e.getPage crc id).1 = some page := by
  obtain ⟨L, hinv⟩ := h
  cases hfind : e.findBufferEntry id with
  | some j =>
    obtain ⟨hj, hid⟩ := hinv.findBufferEntry_eq_some.mp hfind
    simp only [Engine.getPage, hfind, touch]
    rw [hinv.last_of_chained hj, hid, hpage]
  | none =>
    have habs := hinv.findBufferEntry_eq_none.mp hfind
    obtain ⟨v, hv⟩ := exists_pickVictim hevict
    have hcleaned := (htidy.cleanVictim v).2 trivial
    have hslot : (e.allocateBufferEntry id).1 = some v := by
      simp only [allocateBufferEntry, hv, hcleaned, if_true]
    obtain ⟨-, hclean, L', hload⟩ := hinv.allocateBufferEntry_some habs hslot
    simp only [Engine.getPage, hfind, hslot]
    exact hload.fill_of_quiet hclean (htidy.allocateBufferEntry id) hpage

theorem Implements.getPage_of_quiet (h : Implements crc True e s held)
    (hroom : held.length ≤ 1) (hpage : s.pages id = some page) :
    (e.getPage crc id).1 = some page := by
  obtain ⟨i, hevict⟩ := h.exists_evictable hroom
  exact h.pool.getPage_of_quiet h.tidy hevict hpage

theorem Implements.load (h : Implements crc True e s held)
    (hroom : held.length ≤ 1) (hpage : s.pages id = some page) :
    Implements crc True (e.getPage crc id).2 s (id :: held) := by
  have hreply := h.getPage_of_quiet hroom hpage
  obtain ⟨s', hstep, himpl⟩ := h.getPage (.inl ⟨page, hpage⟩) .none
  rw [hreply] at hstep himpl
  rcases hstep with ⟨-, hnone, -⟩ | ⟨page', hsome, -, rfl⟩
  · cases hnone
  · cases hsome
    rwa [put_of_pages hpage] at himpl

end Quiet

/-! ## Reading from the store -/

/-- What the known pages answer. -/
def Store.answer (s : Store) : (c : PagerCmd) → c.Reply
  | .getPage id _ => s.pages id
  | .releasePage _ _ => ()
  | .updatePage _ _ => ()
  | .scribblePage _ _ => ()
  | .allocatePage => (0 : UInt32)
  | .deallocatePage _ => ()
  | .writeWalRecord _ _ _ _ => (0 : ℤ)

/-- Answer from the known pages and keep track of the pages held. -/
def Store.read (s : Store) (c : PagerCmd) (held : List UInt32) : c.Reply × List UInt32 :=
  (s.answer c, heldAfter c (s.answer c) held)

/-- The calls of a program that only reads. -/
def mayRead (s : Store) : PagerCmd → List UInt32 → Prop
  | .getPage id _, held => s.Known id ∧ held.length ≤ 1
  | .releasePage id _, held => id ∈ held
  | _, _ => False

/-- The program only reads known pages, and ends in `Q`. -/
def Reads {α : Type} (s : Store) (p : PagerM α) (held : List UInt32)
    (Q : α → List UInt32 → Prop) : Prop :=
  Heeds s.read (mayRead s) p held Q

/-- A quiet engine gives a reading program the answer of the store. -/
theorem Implements.run_reads {crc : Bytes → UInt32} {e : Engine} {α : Type} {p : PagerM α}
    {Q : α → List UInt32 → Prop} (h : Implements crc True e s held) (hp : Reads s p held Q) :
    (Program.run (Engine.step crc) p e).1 = (Program.run s.read p held).1 := by
  refine Heeds.run_eq (fun held e => Implements crc True e s held) ?_ hp h
  intro c held e h hok
  cases c with
  | getPage id lock =>
    obtain ⟨⟨page, hpage⟩, hroom⟩ := hok
    have hreply : (e.getPage crc id).1 = s.pages id := by
      rw [hpage]
      exact h.getPage_of_quiet hroom hpage
    refine ⟨hreply, ?_⟩
    have hheld : heldAfter (.getPage id lock) (s.pages id) held = id :: held := by
      rw [hpage]
      rfl
    show Implements crc True (e.getPage crc id).2 s (heldAfter (.getPage id lock) (s.pages id) held)
    rw [hheld]
    exact h.load hroom hpage
  | releasePage id lock => exact ⟨rfl, h.releasePage hok⟩
  | updatePage id page => exact hok.elim
  | scribblePage id page => exact hok.elim
  | allocatePage => exact hok.elim
  | deallocatePage id => exact hok.elim
  | writeWalRecord txnId type pageId data => exact hok.elim

namespace Reads

variable {α β : Type} {lock : LockType}
variable {Q : β → List UInt32 → Prop}

theorem ret {a : α} {Q : α → List UInt32 → Prop} (h : Q a held) : Reads s (pure a) held Q :=
  h

theorem bind {p : PagerM α} {f : α → PagerM β} {P : α → List UInt32 → Prop} (hp : Reads s p held P)
    (hf : ∀ a held', P a held' → Reads s (f a) held' Q) : Reads s (p >>= f) held Q :=
  heeds_bind.mpr (hp.mono hf)

theorem getFirst {f : Option BtreePage → PagerM β}
    (hpage : s.pages id = some page) (h : Reads s (f (some page)) [id] Q) :
    Reads s (Storage.getPage id lock >>= f) [] Q := by
  refine heeds_issue_bind.mpr ⟨⟨⟨page, hpage⟩, Nat.zero_le 1⟩, ?_⟩
  show Reads s (f (s.pages id)) (heldAfter (.getPage id lock) (s.pages id) []) Q
  rw [hpage]
  exact h

theorem releaseLast {f : Unit → PagerM β} (h : Reads s (f ()) [] Q) :
    Reads s (Storage.releasePage id lock >>= f) [id] Q := by
  refine heeds_issue_bind.mpr ⟨mem_singleton_self id, ?_⟩
  show Reads s (f ()) ([id].erase id) Q
  rwa [erase_cons_head]

end Reads

namespace Spine

variable {h : ℕ}

theorem known (hs : Spine s h) {i : ℕ} (hi : i ≤ h) {slot : TreeSlot} (hslot : slot ∈ s.level i) :
    s.Known slot.1 :=
  hs.exists_page hi hslot

/-- The loop of `descend_to_leaf` walks down the tree; unless its rounds end,
it returns a leaf and holds it. -/
theorem reads_descendToLeafFrom (hs : Spine s h) (key : Bytes) (lock : LockType) (rounds : ℕ) :
    ∀ (i : ℕ) (slot : TreeSlot) (page : BtreePage), i ≤ h →
      routeAt (s.level i) key = some slot → s.pages slot.1 = some page →
      Reads s (descendToLeafFrom key lock rounds slot.1 page) [slot.1]
        fun r held => r = none ∨ ∃ leaf ∈ s.level h, ∃ page,
          r = some (some (leaf.1, page)) ∧ s.pages leaf.1 = some page ∧ held = [leaf.1] := by
  induction rounds with
  | zero =>
    intro i slot page _ _ _
    exact .ret (.inl rfl)
  | succ rounds ih =>
    intro i slot page hi hroute hpage
    have hmem := mem_of_routeAt hroute
    rw [descendToLeafFrom]
    split
    next htype =>
      have hlt : i < h := by
        apply hi.lt_of_ne
        rintro rfl
        have hleaf := of_pages hpage (hs.bottom slot hmem)
        rw [htype] at hleaf
        exact absurd hleaf (by decide)
      have hinternal := of_pages hpage (hs.internal i hlt slot hmem)
      obtain ⟨next, hnext, hchild⟩ := hs.routeAt_succ hlt hroute hpage hinternal
      obtain ⟨child, hpages⟩ := hs.known hlt (mem_of_routeAt hnext)
      rw [← hchild]
      apply Reads.releaseLast
      apply Reads.getFirst hpages
      exact ih (i + 1) next child hlt hnext hpages
    next htype =>
      have heq : i = h := by
        by_contra hne
        have hinternal := of_pages hpage (hs.internal i (hi.lt_of_ne hne) slot hmem)
        exact htype hinternal.type
      subst heq
      exact .ret (.inr ⟨slot, hmem, page, rfl, hpage, rfl⟩)

theorem reads_descendToLeaf (hs : Spine s h) (rounds : ℕ) (key : Bytes) (lock : LockType) :
    Reads s (descendToLeaf rounds key lock) [] fun r held =>
      r = none ∨ ∃ leaf ∈ s.level h, ∃ page, r = some (some (leaf.1, page)) ∧
        s.pages leaf.1 = some page ∧ held = [leaf.1] := by
  have hroute := s.routeAt_root key
  obtain ⟨root, hroot⟩ := hs.known (Nat.zero_le h) (mem_of_routeAt hroute)
  apply Reads.getFirst hroot
  exact hs.reads_descendToLeafFrom key lock rounds 0 _ root (Nat.zero_le h) hroute hroot

end Spine

/-! ## Searches and scans -/

theorem Tree.reads_dbSearch {h : ℕ} {L : Slots} (ht : Tree s h L) (rounds : ℕ)
    (txn : Option Transaction) (key : Bytes) (capacity : ℕ) :
    Reads s (dbSearch rounds txn key capacity) [] fun r held =>
      r ≠ none → held = [] := by
  rw [dbSearch]
  split
  next => exact .ret fun _ => rfl
  next =>
    apply Reads.bind (ht.spine.reads_descendToLeaf rounds key .shared)
    rintro r held (rfl | ⟨leaf, -, page, rfl, -, rfl⟩)
    · exact .ret fun hne => absurd rfl hne
    · simp only
      split <;> exact .releaseLast (.ret fun _ => rfl)

section Scan

variable {κ : Type} {C : Set UInt32}

theorem LeafChain.reads_scanLeaves (hchain : LeafChain s C) (pfx : Bytes)
    (callback : Bytes → Bytes → κ → ℤ × κ) (rounds : ℕ) :
    ∀ (id : UInt32) (page : BtreePage) (start : ℤ) (ctx : κ), id ∈ C → s.pages id = some page →
      Reads s (scanLeaves pfx callback rounds id page start ctx) [id]
        fun r held => r ≠ none → held = [] := by
  induction rounds with
  | zero =>
    intro id page start ctx _ _
    exact .ret fun hne => absurd rfl hne
  | succ rounds ih =>
    intro id page start ctx hid hpage
    rw [scanLeaves]
    split
    next => exact .releaseLast (.ret fun _ => rfl)
    next ctx' _ =>
      apply Reads.releaseLast
      split
      next => exact .ret fun _ => rfl
      next hnext =>
        have hmem : page.header.nextPageId ∈ C := by
          have hlink := hchain.next id hid
          rw [nextId_eq hpage] at hlink
          exact hlink.resolve_left hnext
        obtain ⟨page', hpage', -⟩ := hchain.leaf _ hmem
        apply Reads.getFirst hpage'
        exact ih _ page' 0 ctx' hmem hpage'

theorem Tree.reads_scanRange {h : ℕ} {L : Slots}
    (ht : Tree s h L) (hclosed : Enclosed s L) (rounds : ℕ) (txn : Option Transaction) (pfx : Bytes)
    (callback : Bytes → Bytes → κ → ℤ × κ) (ctx : κ) :
    Reads s (scanRange rounds txn pfx callback ctx) [] fun r held =>
      r ≠ none → held = [] := by
  obtain ⟨C, hchain, hmem⟩ := hclosed
  rw [scanRange]
  split
  next => exact .ret fun _ => rfl
  next =>
    split
    next => exact .ret fun _ => rfl
    next =>
      apply Reads.bind (ht.spine.reads_descendToLeaf rounds pfx .shared)
      rintro r held (rfl | ⟨leaf, hleaf, page, rfl, hpage, rfl⟩)
      · exact .ret fun hne => absurd rfl hne
      · rw [ht.upper.level] at hleaf
        exact hchain.reads_scanLeaves pfx callback rounds leaf.1 page _ ctx (hmem leaf hleaf) hpage

end Scan

end Codo.Storage
