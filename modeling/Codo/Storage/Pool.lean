import Codo.Storage.Lifecycle
import Mathlib.Data.List.FinRange

/-!
# The buffer pool is a transparent cache

`PoolInv` relates the pool, its hash chains and the data file to two maps the
engine does not have: `last`, the bytes last left in each page obtained so
far, and `pins`, the number of outstanding `get_page` calls.  Every call keeps
it, whatever the operating system answers.

While a page is being loaded its slot is `busy`: relabelled and pinned, but in
no chain.
-/

namespace Codo.Storage

open Support Engine Function Option List

/-- The slots of each bucket, in the order of its chain. -/
abbrev Buckets := Fin hashTableSize → List Slot

/-- Slot `i` stands in some chain. -/
def Chained (L : Buckets) (i : Slot) : Prop :=
  ∃ b, i ∈ L b

/-- The pool is a cache of the pages `last` in front of the data file. -/
structure PoolInv (crc : Bytes → UInt32) (last : UInt32 → Option BtreePage)
    (pins : UInt32 → ℤ) (busy : Option Slot) (L : Buckets) (file : Bytes)
    (pool : Slot → BufferEntry) (links : Chains (Fin hashTableSize) Slot) : Prop where
  chains : links.Holds L
  bucket : ∀ b, ∀ i ∈ L b, hashPageId (pool i).pageId = b
  nonzero : ∀ i, Chained L i → (pool i).pageId ≠ 0
  distinct : ∀ i j, Chained L i → Chained L j → (pool i).pageId = (pool j).pageId → i = j
  holds : ∀ i, Chained L i → ∃ page, (pool i).page = some page ∧ last (pool i).pageId = some page ∧
    ((pool i).dirty = false → OnDisk file (pool i).pageId page)
  counted : ∀ i, Chained L i → (pool i).refCount = pins (pool i).pageId
  absent : ∀ id, (∀ i, Chained L i → (pool i).pageId ≠ id) → pins id = 0
  idle : ∀ i, ¬ Chained L i → busy ≠ some i → (pool i).refCount = 0 ∧ (pool i).dirty = false
  stored : ∀ id page, last id = some page → page.ChecksumValid crc ∧
    ((∃ i, Chained L i ∧ (pool i).pageId = id) ∨ OnDisk file id page)

variable {crc : Bytes → UInt32} {last : UInt32 → Option BtreePage}
  {pins : UInt32 → ℤ} {busy : Option Slot} {L : Buckets} {file : Bytes}
  {pool : Slot → BufferEntry} {links : Chains (Fin hashTableSize) Slot}
  {i : Slot} {page : BtreePage} {e : Engine} {id : UInt32}

namespace PoolInv

section

variable (h : PoolInv crc last pins busy L file pool links)
include h

theorem mem_bucket (hi : Chained L i) : i ∈ L (hashPageId (pool i).pageId) := by
  obtain ⟨b, hb⟩ := hi
  rw [h.bucket b i hb]
  exact hb

theorem length_le (b : Fin hashTableSize) : (L b).length ≤ bufferPoolSize := by
  have hle := (h.chains.nodup b).length_le_card
  rwa [Fintype.card_fin] at hle

/-- The bytes of a page come from its slot or from the data file. -/
theorem last_of_chained (hi : Chained L i) : (pool i).page = last (pool i).pageId := by
  obtain ⟨page, hpage, hlast, -⟩ := h.holds i hi
  rw [hpage, hlast]

end

section

variable (h : PoolInv crc last pins busy L e.file e.pool e.links)
include h

theorem findBufferEntry_eq_some :
    e.findBufferEntry id = some i ↔ Chained L i ∧ (e.pool i).pageId = id := by
  rw [findBufferEntry, h.chains.find_eq (h.length_le _)]
  constructor
  · intro hfind
    refine ⟨⟨_, mem_of_find?_eq_some hfind⟩, ?_⟩
    simpa using List.find?_some hfind
  · rintro ⟨hi, rfl⟩
    have hmem := h.mem_bucket hi
    have hsome : ((L (hashPageId (e.pool i).pageId)).find? fun j =>
        decide ((e.pool j).pageId = (e.pool i).pageId)).isSome := by
      rw [List.find?_isSome]
      exact ⟨i, hmem, decide_eq_true rfl⟩
    obtain ⟨j, hj⟩ := isSome_iff_exists.mp hsome
    have hjid : (e.pool j).pageId = (e.pool i).pageId := by simpa using List.find?_some hj
    rw [hj, h.distinct j i ⟨_, mem_of_find?_eq_some hj⟩ hi hjid]

theorem findBufferEntry_eq_none :
    e.findBufferEntry id = none ↔ ∀ i, Chained L i → (e.pool i).pageId ≠ id := by
  constructor
  · intro hnone i hi hid
    rw [h.findBufferEntry_eq_some.mpr ⟨hi, hid⟩] at hnone
    cases hnone
  · intro hall
    cases hfind : e.findBufferEntry id with
    | none => rfl
    | some i =>
      obtain ⟨hi, hid⟩ := h.findBufferEntry_eq_some.mp hfind
      exact absurd hid (hall i hi)

theorem exists_of_pins (hpins : pins id ≠ 0) : ∃ i, e.findBufferEntry id = some i := by
  cases hfind : e.findBufferEntry id with
  | some i => exact ⟨i, rfl⟩
  | none => exact absurd (h.absent id (h.findBufferEntry_eq_none.mp hfind)) hpins

end

section Entry

variable {entry : BufferEntry}

theorem update_pageId (hid : entry.pageId = (pool i).pageId) (j : Slot) :
    (update pool i entry j).pageId = (pool j).pageId := by
  by_cases hj : j = i
  · rw [hj, update_self, hid]
  · rw [update_of_ne hj]

theorem findBufferEntry_setEntry (hid : entry.pageId = (e.pool i).pageId) (id : UInt32) :
    (e.setEntry i entry).findBufferEntry id = e.findBufferEntry id := by
  have hids : ∀ j, ((e.setEntry i entry).pool j).pageId = (e.pool j).pageId := update_pageId hid
  simp only [findBufferEntry, hids]
  rfl

section

variable (h : PoolInv crc last pins busy L file pool links)
include h

theorem edit {last' : UInt32 → Option BtreePage} {pins' : UInt32 → ℤ}
    (hi : Chained L i) (hid : entry.pageId = (pool i).pageId)
    (hlast : ∀ id, id ≠ (pool i).pageId → last' id = last id)
    (hpins : ∀ id, id ≠ (pool i).pageId → pins' id = pins id)
    (hpage : entry.page = some page) (hnew : last' (pool i).pageId = some page)
    (hvalid : page.ChecksumValid crc)
    (hdisk : entry.dirty = false → OnDisk file (pool i).pageId page)
    (hcount : entry.refCount = pins' (pool i).pageId) :
    PoolInv crc last' pins' busy L file (update pool i entry) links := by
  have hids := update_pageId hid
  have hother : ∀ j, Chained L j → j ≠ i → (pool j).pageId ≠ (pool i).pageId :=
    fun j hj hne heq => hne (h.distinct j i hj hi heq)
  refine ⟨h.chains, ?_, ?_, ?_, ?_, ?_, ?_, ?_, ?_⟩
  · intro b j hj
    rw [hids]
    exact h.bucket b j hj
  · intro j hj
    rw [hids]
    exact h.nonzero j hj
  · intro j k hj hk
    rw [hids, hids]
    exact h.distinct j k hj hk
  · intro j hj
    rw [hids]
    by_cases hji : j = i
    · subst hji
      rw [update_self]
      exact ⟨page, hpage, hnew, hdisk⟩
    · rw [update_of_ne hji, hlast _ (hother j hj hji)]
      exact h.holds j hj
  · intro j hj
    rw [hids]
    by_cases hji : j = i
    · subst hji
      rw [update_self]
      exact hcount
    · rw [update_of_ne hji, hpins _ (hother j hj hji)]
      exact h.counted j hj
  · intro id habs
    have habs' : ∀ j, Chained L j → (pool j).pageId ≠ id := by
      intro j hj
      rw [← hids]
      exact habs j hj
    rw [hpins id (habs' i hi).symm]
    exact h.absent id habs'
  · intro j hj hbusy
    have hji : j ≠ i := by
      rintro rfl
      exact hj hi
    rw [update_of_ne hji]
    exact h.idle j hj hbusy
  · intro id p hp
    by_cases hidi : id = (pool i).pageId
    · subst hidi
      rw [hnew] at hp
      cases hp
      exact ⟨hvalid, .inl ⟨i, hi, hids i⟩⟩
    · rw [hlast id hidi] at hp
      obtain ⟨hpvalid, ⟨j, hj, hjid⟩ | hondisk⟩ := h.stored id p hp
      · exact ⟨hpvalid, .inl ⟨j, hj, (hids j).trans hjid⟩⟩
      · exact ⟨hpvalid, .inr hondisk⟩

theorem repin (hi : Chained L i) (entry : BufferEntry)
    (hid : entry.pageId = (pool i).pageId) (hpage : entry.page = (pool i).page)
    (hdirty : entry.dirty = (pool i).dirty) :
    PoolInv crc last (update pins (pool i).pageId entry.refCount) busy L file
      (update pool i entry) links := by
  obtain ⟨page, hold, hlast, hdisk⟩ := h.holds i hi
  refine h.edit hi hid (fun _ _ => rfl)
    (fun id hne => update_of_ne hne _ _) (hpage.trans hold) hlast (h.stored _ _ hlast).1 ?_ ?_
  · intro hclean
    exact hdisk (hdirty.symm.trans hclean)
  · rw [update_self]

/-- A dirty page has been written: it is clean now. -/
theorem clean (hi : Chained L i) (hpage : (pool i).page = some page)
    (hdisk : OnDisk file (pool i).pageId page) :
    PoolInv crc last pins busy L file (update pool i { pool i with dirty := false }) links := by
  have hlast := h.last_of_chained hi
  rw [hpage] at hlast
  exact h.edit hi rfl (fun _ _ => rfl) (fun _ _ => rfl) hpage hlast.symm
    (h.stored _ _ hlast.symm).1 (fun _ => hdisk) (h.counted i hi)

/-- The range of a dirty page in the data file may change at will. -/
theorem rewrite {file' : Bytes} (hi : Chained L i) (hdirty : (pool i).dirty = true)
    (hother : ∀ id page, id ≠ (pool i).pageId → OnDisk file id page → OnDisk file' id page) :
    PoolInv crc last pins busy L file' pool links := by
  refine ⟨h.chains, h.bucket, h.nonzero, h.distinct, ?_, h.counted, h.absent, h.idle, ?_⟩
  · intro j hj
    obtain ⟨page, hpage, hlast, hdisk⟩ := h.holds j hj
    refine ⟨page, hpage, hlast, ?_⟩
    intro hclean
    apply hother _ _ _ (hdisk hclean)
    intro heq
    rw [h.distinct j i hj hi heq, hdirty] at hclean
    cases hclean
  · intro id p hp
    obtain ⟨hvalid, hwhere⟩ := h.stored id p hp
    refine ⟨hvalid, ?_⟩
    by_cases hidi : id = (pool i).pageId
    · exact .inl ⟨i, hi, hidi.symm⟩
    · exact hwhere.imp_right (hother id p hidi)

/-- An entry that is in no chain may change at will while it is busy. -/
theorem occupy {links' : Chains (Fin hashTableSize) Slot} (hi : ¬ Chained L i)
    (entry : BufferEntry) (hbusy : ∀ j, busy = some j → j = i) (hlinks : links'.Holds L) :
    PoolInv crc last pins (some i) L file (update pool i entry) links' := by
  have hsame : ∀ j, Chained L j → update pool i entry j = pool j := by
    intro j hj
    apply update_of_ne
    rintro rfl
    exact hi hj
  refine ⟨hlinks, ?_, ?_, ?_, ?_, ?_, ?_, ?_, ?_⟩
  · intro b j hj
    rw [hsame j ⟨b, hj⟩]
    exact h.bucket b j hj
  · intro j hj
    rw [hsame j hj]
    exact h.nonzero j hj
  · intro j k hj hk
    rw [hsame j hj, hsame k hk]
    exact h.distinct j k hj hk
  · intro j hj
    rw [hsame j hj]
    exact h.holds j hj
  · intro j hj
    rw [hsame j hj]
    exact h.counted j hj
  · intro id habs
    refine h.absent id fun j hj => ?_
    rw [← hsame j hj]
    exact habs j hj
  · intro j hj hji
    have hne : j ≠ i := by
      rintro rfl
      exact hji rfl
    rw [update_of_ne hne]
    exact h.idle j hj fun hb => hne (hbusy j hb)
  · intro id p hp
    obtain ⟨hvalid, ⟨j, hj, hjid⟩ | hdisk⟩ := h.stored id p hp
    · exact ⟨hvalid, .inl ⟨j, hj, by rw [hsame j hj, hjid]⟩⟩
    · exact ⟨hvalid, .inr hdisk⟩

end

theorem vacate (h : PoolInv crc last pins (some i) L file pool links)
    (href : (pool i).refCount = 0) (hclean : (pool i).dirty = false) :
    PoolInv crc last pins none L file pool links := by
  refine ⟨h.chains, h.bucket, h.nonzero, h.distinct, h.holds, h.counted, h.absent, ?_, h.stored⟩
  intro j hj _
  by_cases hji : j = i
  · rw [hji]
    exact ⟨href, hclean⟩
  · exact h.idle j hj fun hb => hji (some.inj hb).symm

end Entry

/-! ## Changes of the chains -/

theorem unpublish (h : PoolInv crc last pins none L file pool links)
    (href : (pool i).refCount = 0) (hclean : (pool i).dirty = false) :
    ∃ L', PoolInv crc last pins none L' file pool
        (links.remove bufferPoolSize (hashPageId (pool i).pageId) i) ∧
      ¬ Chained L' i ∧ ∀ j, Chained L' j → Chained L j := by
  have hnotmem : i ∉ (L (hashPageId (pool i).pageId)).erase i := (h.chains.nodup _).not_mem_erase
  generalize hb : hashPageId (pool i).pageId = b at hnotmem ⊢
  have hout : ¬ Chained (update L b ((L b).erase i)) i := by
    rintro ⟨b', hb'⟩
    by_cases hbb : b' = b
    · subst hbb
      rw [update_self] at hb'
      exact hnotmem hb'
    · rw [update_of_ne hbb] at hb'
      exact hbb ((h.bucket b' i hb').symm.trans hb)
  have hback : ∀ b' j, j ∈ update L b ((L b).erase i) b' → j ∈ L b' := by
    intro b' j hj
    by_cases hbb : b' = b
    · subst hbb
      rw [update_self] at hj
      exact mem_of_mem_erase hj
    · rwa [update_of_ne hbb] at hj
  have hpub : ∀ j, Chained (update L b ((L b).erase i)) j →
      Chained L j := fun j ⟨b', hj⟩ => ⟨b', hback b' j hj⟩
  have hkept : ∀ j, Chained L j → j ≠ i → Chained (update L b ((L b).erase i)) j := by
    rintro j ⟨b', hj⟩ hne
    refine ⟨b', ?_⟩
    by_cases hbb : b' = b
    · subst hbb
      rw [update_self]
      exact (mem_erase_of_ne hne).mpr hj
    · rwa [update_of_ne hbb]
  refine ⟨_, ⟨h.chains.remove (h.length_le b), ?_, ?_, ?_, ?_, ?_, ?_, ?_, ?_⟩, hout, hpub⟩
  · intro b' j hj
    exact h.bucket b' j (hback b' j hj)
  · intro j hj
    exact h.nonzero j (hpub j hj)
  · intro j k hj hk
    exact h.distinct j k (hpub j hj) (hpub k hk)
  · intro j hj
    exact h.holds j (hpub j hj)
  · intro j hj
    exact h.counted j (hpub j hj)
  · intro id habs
    by_cases hi : Chained L i ∧ (pool i).pageId = id
    · obtain ⟨hi, rfl⟩ := hi
      rw [← h.counted i hi, href]
    · refine h.absent id fun j hj heq => ?_
      have hne : j ≠ i := by
        rintro rfl
        exact hi ⟨hj, heq⟩
      exact habs j (hkept j hj hne) heq
  · intro j hj _
    by_cases hji : j = i
    · rw [hji]
      exact ⟨href, hclean⟩
    · exact h.idle j (fun hj' => hj (hkept j hj' hji)) nofun
  · intro id p hp
    obtain ⟨hvalid, ⟨j, hj, hjid⟩ | hdisk⟩ := h.stored id p hp
    · refine ⟨hvalid, ?_⟩
      by_cases hji : j = i
      · subst hji
        obtain ⟨page, -, hlast, hondisk⟩ := h.holds j hj
        rw [hjid] at hlast hondisk
        rw [hlast] at hp
        cases hp
        exact .inr (hondisk hclean)
      · exact .inl ⟨j, hkept j hj hji, hjid⟩
    · exact ⟨hvalid, .inr hdisk⟩

theorem publish (h : PoolInv crc last pins (some i) L file pool links)
    (hi : ¬ Chained L i) (hid : (pool i).pageId ≠ 0)
    (habs : ∀ j, Chained L j → (pool j).pageId ≠ (pool i).pageId)
    (hpage : (pool i).page = some page) (hvalid : page.ChecksumValid crc)
    (hdisk : (pool i).dirty = false → OnDisk file (pool i).pageId page)
    (href : (pool i).refCount = 1) :
    ∃ L', PoolInv crc (update last (pool i).pageId (some page))
      (update pins (pool i).pageId (pins (pool i).pageId + 1)) none L'
      file pool (links.push (hashPageId (pool i).pageId) i) := by
  have hzero := h.absent _ habs
  generalize hb : hashPageId (pool i).pageId = b
  have hnew : ∀ b' j, j ∈ update L b (i :: L b) b' → j = i ∧ b' = b ∨ j ∈ L b' := by
    intro b' j hj
    by_cases hbb : b' = b
    · subst hbb
      rw [update_self, mem_cons] at hj
      exact hj.imp_left fun hji => ⟨hji, rfl⟩
    · rw [update_of_ne hbb] at hj
      exact .inr hj
  have hpub : ∀ j, Chained (update L b (i :: L b)) j →
      j = i ∨ Chained L j ∧ (pool j).pageId ≠ (pool i).pageId := by
    rintro j ⟨b', hj⟩
    rcases hnew b' j hj with ⟨hji, -⟩ | hmem
    · exact .inl hji
    · exact .inr ⟨⟨b', hmem⟩, habs j ⟨b', hmem⟩⟩
  have hself : Chained (update L b (i :: L b)) i := ⟨b, by rw [update_self]; exact mem_cons_self⟩
  have hkept : ∀ j, Chained L j → Chained (update L b (i :: L b)) j := by
    rintro j ⟨b', hj⟩
    refine ⟨b', ?_⟩
    by_cases hbb : b' = b
    · subst hbb
      rw [update_self]
      exact mem_cons_of_mem i hj
    · rwa [update_of_ne hbb]
  refine ⟨_, ⟨h.chains.push (fun b' hb' => hi ⟨b', hb'⟩) b, ?_, ?_, ?_, ?_, ?_, ?_, ?_, ?_⟩⟩
  · intro b' j hj
    rcases hnew b' j hj with ⟨rfl, rfl⟩ | hmem
    · exact hb
    · exact h.bucket b' j hmem
  · intro j hj
    rcases hpub j hj with rfl | ⟨hj', -⟩
    · exact hid
    · exact h.nonzero j hj'
  · intro j k hj hk heq
    rcases hpub j hj with rfl | ⟨hj', hjne⟩
    · rcases hpub k hk with rfl | ⟨-, hkne⟩
      · rfl
      · exact absurd heq.symm hkne
    · rcases hpub k hk with rfl | ⟨hk', -⟩
      · exact absurd heq hjne
      · exact h.distinct j k hj' hk' heq
  · intro j hj
    rcases hpub j hj with rfl | ⟨hj', hjne⟩
    · exact ⟨page, hpage, update_self _ _ _, hdisk⟩
    · rw [update_of_ne hjne]
      exact h.holds j hj'
  · intro j hj
    rcases hpub j hj with rfl | ⟨hj', hjne⟩
    · rw [update_self, href, hzero, zero_add]
    · rw [update_of_ne hjne]
      exact h.counted j hj'
  · intro id hids
    rw [update_of_ne (hids i hself).symm]
    exact h.absent id fun j hj => hids j (hkept j hj)
  · intro j hj _
    have hji : j ≠ i := by
      rintro rfl
      exact hj hself
    refine h.idle j (fun hj' => hj (hkept j hj')) ?_
    exact fun hb => hji (some.inj hb).symm
  · intro id p hp
    by_cases hidi : id = (pool i).pageId
    · subst hidi
      rw [update_self] at hp
      cases hp
      exact ⟨hvalid, .inl ⟨i, hself, rfl⟩⟩
    · rw [update_of_ne hidi] at hp
      obtain ⟨hpvalid, ⟨j, hj, hjid⟩ | hondisk⟩ := h.stored id p hp
      · exact ⟨hpvalid, .inl ⟨j, hkept j hj, hjid⟩⟩
      · exact ⟨hpvalid, .inr hondisk⟩

end PoolInv

/-! ## Eviction -/

theorem considerVictim_evictable {victim : Option Slot}
    (h : ∀ j, victim = some j → (e.pool j).Evictable) (k j : Slot)
    (hj : e.considerVictim victim k = some j) : (e.pool j).Evictable := by
  by_cases hk : (e.pool k).Evictable
  · cases victim with
    | none =>
      simp only [considerVictim, if_pos hk] at hj
      exact some.inj hj ▸ hk
    | some v =>
      simp only [considerVictim, if_pos hk] at hj
      split at hj
      next => exact some.inj hj ▸ hk
      next => exact h j hj
  · cases victim with
    | none => simp [considerVictim, hk] at hj
    | some v =>
      simp only [considerVictim, if_neg hk] at hj
      exact h j hj

theorem pickVictim_evictable (h : e.pickVictim = some i) : (e.pool i).Evictable := by
  have hall : ∀ (l : List Slot) (victim : Option Slot),
      (∀ j, victim = some j → (e.pool j).Evictable) →
      ∀ j, l.foldl e.considerVictim victim = some j → (e.pool j).Evictable := by
    intro l
    induction l with
    | nil => exact fun victim hv => hv
    | cons k l ih =>
      intro victim hv
      exact ih _ (considerVictim_evictable hv k)
  unfold pickVictim at h
  exact hall _ none nofun i h

theorem isSome_considerVictim (e : Engine) {victim : Option Slot} {k : Slot}
    (h : victim.isSome ∨ (e.pool k).Evictable) : (e.considerVictim victim k).isSome := by
  by_cases hk : (e.pool k).Evictable
  · cases victim with
    | none => simp [considerVictim, hk]
    | some v =>
      simp only [considerVictim, if_pos hk]
      split <;> rfl
  · cases victim with
    | none => exact absurd (h.resolve_left nofun) hk
    | some v => simp [considerVictim, hk]

theorem exists_pickVictim (h : (e.pool i).Evictable) : ∃ j, e.pickVictim = some j := by
  have hall : ∀ (l : List Slot) (victim : Option Slot), (victim.isSome ∨ i ∈ l) →
      (l.foldl e.considerVictim victim).isSome := by
    intro l
    induction l with
    | nil => exact fun victim hv => hv.resolve_right not_mem_nil
    | cons k l ih =>
      intro victim hv
      apply ih
      rcases hv with hv | hmem
      · exact .inl (isSome_considerVictim e (.inl hv))
      · rcases mem_cons.mp hmem with rfl | hmem
        · exact .inl (isSome_considerVictim e (.inr h))
        · exact .inr hmem
  unfold pickVictim
  exact isSome_iff_exists.mp (hall _ none (.inr (mem_finRange i)))

/-- An evictable slot that is older than every other one is the victim. -/
theorem pickVictim_of_oldest (hi : (e.pool i).Evictable)
    (hold : ∀ j, j ≠ i → (e.pool i).lastAccess.Older (e.pool j).lastAccess) :
    e.pickVictim = some i := by
  have hasymm : ∀ {a b : Timespec}, a.Older b → ¬b.Older a := by
    intro a b
    simp only [Timespec.Older]
    omega
  have hkeep : ∀ k, e.considerVictim (some i) k = some i := by
    intro k
    by_cases hk : k = i
    · subst hk
      simp [considerVictim]
    · simp [considerVictim, hasymm (hold k hk)]
  have htake : ∀ victim, e.considerVictim victim i = some i := by
    rintro (_ | v)
    · simp [considerVictim, hi]
    · by_cases hv : v = i
      · rw [hv, hkeep]
      · simp [considerVictim, hi, hold v hv]
  have hall : ∀ (l : List Slot) (victim : Option Slot), (victim = some i ∨ i ∈ l) →
      l.foldl e.considerVictim victim = some i := by
    intro l
    induction l with
    | nil => exact fun victim hv => hv.resolve_right not_mem_nil
    | cons k l ih =>
      rintro victim (rfl | hmem)
      · exact ih _ (.inl (hkeep k))
      · rcases mem_cons.mp hmem with rfl | hmem
        · exact ih _ (.inl (htake victim))
        · exact ih _ (.inr hmem)
  unfold pickVictim
  exact hall _ none (.inr (mem_finRange i))

/-- The invariant between two calls. -/
def PoolOk (crc : Bytes → UInt32) (last : UInt32 → Option BtreePage)
    (pins : UInt32 → ℤ) (e : Engine) : Prop :=
  ∃ L, PoolInv crc last pins none L e.file e.pool e.links

namespace PoolInv

section

variable (h : PoolInv crc last pins none L e.file e.pool e.links)
include h

theorem chained_of_dirty (hdirty : (e.pool i).dirty = true) : Chained L i := by
  by_contra hi
  rw [(h.idle i hi nofun).2] at hdirty
  cases hdirty

theorem writeBack (hpage : (e.pool i).page = some page) (hdirty : (e.pool i).dirty = true) :
    PoolInv crc last pins none L (e.writeBack i page).2.file
        (e.writeBack i page).2.pool (e.writeBack i page).2.links ∧ ((e.writeBack i page).1 = true →
        ((e.writeBack i page).2.pool i).dirty = false) ∧
      ∀ j, ((e.writeBack i page).2.pool j).refCount = (e.pool j).refCount ∧
        ((e.writeBack i page).2.pool j).pageId = (e.pool j).pageId := by
  have hi := h.chained_of_dirty hdirty
  have hfile := fun results => h.rewrite hi hdirty fun id' page' hne hdisk =>
      hdisk.pwriteLoop_of_ne hne page results
  simp only [Engine.writeBack]
  split
  next hok =>
    refine ⟨(hfile _).clean hi hpage (holdsAt_pwriteLoop_of_ok hok), ?_, ?_⟩
    · intro _
      simp [Engine.setEntry, noteWrite, Engine.flushWalBuffer]
    · intro j
      by_cases hj : j = i
      · subst hj
        simp [Engine.setEntry, noteWrite, Engine.flushWalBuffer]
      · simp [Engine.setEntry, noteWrite, Engine.flushWalBuffer, hj]
  next => exact ⟨hfile _, nofun, fun j => ⟨rfl, rfl⟩⟩

/-- Behind `cleanVictim` the victim is clean, or its page could not be
written. -/
theorem cleanVictim (i : Slot) :
    PoolInv crc last pins none L (e.cleanVictim i).2.file
        (e.cleanVictim i).2.pool (e.cleanVictim i).2.links ∧ ((e.cleanVictim i).1 = true →
        ((e.cleanVictim i).2.pool i).dirty = false) ∧
      ∀ j, ((e.cleanVictim i).2.pool j).refCount = (e.pool j).refCount ∧
        ((e.cleanVictim i).2.pool j).pageId = (e.pool j).pageId := by
  cases hpage : (e.pool i).page with
  | none =>
    simp only [Engine.cleanVictim, hpage]
    refine ⟨h, ?_, fun j => ⟨trivial, trivial⟩⟩
    intro _
    by_cases hi : Chained L i
    · obtain ⟨page, hsome, -⟩ := h.holds i hi
      rw [hpage] at hsome
      cases hsome
    · exact (h.idle i hi nofun).2
  | some page =>
    simp only [Engine.cleanVictim, hpage]
    cases hdirty : (e.pool i).dirty with
    | true => exact h.writeBack hpage hdirty
    | false => exact ⟨h, fun _ => hdirty, fun j => ⟨rfl, rfl⟩⟩

theorem unlinkVictim (href : (e.pool i).refCount = 0) (hclean : (e.pool i).dirty = false) :
    ∃ L', PoolInv crc last pins none L' (e.unlinkVictim i).file
        (e.unlinkVictim i).pool (e.unlinkVictim i).links ∧
      ¬ Chained L' i ∧ ∀ j, Chained L' j → Chained L j := by
  by_cases hid : (e.pool i).pageId = 0
  · rw [Engine.unlinkVictim, if_neg (not_not.mpr hid)]
    exact ⟨L, h, fun hi => h.nonzero i hi hid, fun j hj => hj⟩
  · rw [Engine.unlinkVictim, if_pos hid]
    exact h.unpublish href hclean

end

end PoolInv

/-! ## Loading -/

/-- Slot `i` is labelled with `id`, pinned by its loader and in no chain, and
no other slot holds page `id`. -/
structure Loading (crc : Bytes → UInt32) (last : UInt32 → Option BtreePage)
    (pins : UInt32 → ℤ) (i : Slot) (id : UInt32) (L : Buckets) (e : Engine) : Prop where
  inv : PoolInv crc last pins (some i) L e.file e.pool e.links
  apart : ¬ Chained L i
  label : (e.pool i).pageId = id
  pinned : (e.pool i).refCount = 1
  absent : ∀ j, Chained L j → (e.pool j).pageId ≠ id

/-- What `get_page` returns and leaves behind. -/
def Served (crc : Bytes → UInt32) (last : UInt32 → Option BtreePage)
    (pins : UInt32 → ℤ) (id : UInt32) : Option BtreePage × Engine → Prop
  | (none, e) => PoolOk crc last pins e
  | (some page, e) =>
    (∀ p, last id = some p → page = p) ∧ PoolOk crc (update last id (some page))
        (update pins id (pins id + 1)) e

theorem PoolInv.allocateBufferEntry_none (h : PoolInv crc last pins none L e.file e.pool e.links)
    (hnone : (e.allocateBufferEntry id).1 = none) :
    PoolOk crc last pins (e.allocateBufferEntry id).2 := by
  cases hv : e.pickVictim with
  | none =>
    simp only [Engine.allocateBufferEntry, hv]
    exact ⟨L, h⟩
  | some i =>
    cases hok : (e.cleanVictim i).1 with
    | true => simp [Engine.allocateBufferEntry, hv, hok] at hnone
    | false =>
      simp only [Engine.allocateBufferEntry, hv, hok]
      exact ⟨L, (h.cleanVictim i).1⟩

theorem PoolInv.allocateBufferEntry_some (h : PoolInv crc last pins none L e.file e.pool e.links)
    (habs : ∀ j, Chained L j → (e.pool j).pageId ≠ id)
    (hsome : (e.allocateBufferEntry id).1 = some i) :
    (e.pool i).Evictable ∧ ((e.allocateBufferEntry id).2.pool i).dirty = false ∧
      ∃ L', Loading crc last pins i id L' (e.allocateBufferEntry id).2 := by
  cases hv : e.pickVictim with
  | none => simp [Engine.allocateBufferEntry, hv] at hsome
  | some k =>
    cases hok : (e.cleanVictim k).1 with
    | false => simp [Engine.allocateBufferEntry, hv, hok] at hsome
    | true =>
      have hvictim := pickVictim_evictable hv
      obtain ⟨hinv, hdirty, hsame⟩ := h.cleanVictim k
      have href : ((e.cleanVictim k).2.pool k).refCount = 0 := by
        rw [(hsame k).1]
        exact hvictim.2
      obtain ⟨L', hinv', hout, hsub⟩ := hinv.unlinkVictim href (hdirty hok)
      simp only [Engine.allocateBufferEntry, hv, hok, if_true, some.injEq] at hsome ⊢
      subst hsome
      refine ⟨hvictim, ?_, L', ?_, hout, ?_, ?_, ?_⟩
      · simp [relabel, Engine.setEntry, clockGettime]
      · exact hinv'.occupy hout _ nofun (hinv'.chains.clear fun b hb => hout ⟨b, hb⟩)
      · simp [relabel, Engine.setEntry, clockGettime]
      · simp [relabel, Engine.setEntry, clockGettime]
      · intro j hj
        have hne : j ≠ k := by
          rintro rfl
          exact hout hj
        have hpool : ((e.cleanVictim k).2.unlinkVictim k).pool = (e.cleanVictim k).2.pool := by
          rw [Engine.unlinkVictim]
          split <;> rfl
        simp only [relabel, Engine.setEntry, clockGettime, update_of_ne hne, hpool, (hsame j).2]
        exact habs j (hsub j hj)

namespace Loading

section

variable (h : Loading crc last pins i id L e)
include h

/-- The loader may change everything about the slot but its label and its
pin. -/
theorem setEntry {entry : BufferEntry} (hlabel : entry.pageId = id) (hpin : entry.refCount = 1) :
    Loading crc last pins i id L (e.setEntry i entry) := by
  refine ⟨h.inv.occupy h.apart entry ?_ h.inv.chains, h.apart, ?_, ?_, ?_⟩
  · intro j hj
    exact (some.inj hj).symm
  · simpa [Engine.setEntry] using hlabel
  · simpa [Engine.setEntry] using hpin
  · intro j hj
    have hne : j ≠ i := by
      rintro rfl
      exact h.apart hj
    simpa [Engine.setEntry, hne] using h.absent j hj

theorem failPinned (hclean : (e.pool i).dirty = false) :
    Served crc last pins id (e.failPinned i) := by
  have hfree := h.inv.occupy h.apart { e.pool i with refCount := (e.pool i).refCount - 1 }
    (fun j hj => (some.inj hj).symm) h.inv.chains
  refine ⟨L, hfree.vacate ?_ ?_⟩
  · simp [h.pinned]
  · simpa using hclean

theorem onDisk {p : BtreePage} (hp : last id = some p) : OnDisk e.file id p := by
  obtain ⟨-, ⟨j, hj, hjid⟩ | hdisk⟩ := h.inv.stored id p hp
  · exact absurd hjid (h.absent j hj)
  · exact hdisk

theorem publish (hid : id ≠ 0)
    (hpage : (e.pool i).page = some page) (hvalid : page.ChecksumValid crc)
    (hdisk : (e.pool i).dirty = false → OnDisk e.file id page)
    (hlast : ∀ p, last id = some p → page = p) :
    Served crc last pins id (some page, { e with links := e.links.push (hashPageId id) i }) := by
  obtain ⟨hinv, hout, rfl, href, habs⟩ := h
  exact ⟨hlast, hinv.publish hout hid habs hpage hvalid hdisk href⟩

theorem ensureFrame (hclean : (e.pool i).dirty = false) :
    Loading crc last pins i id L (e.ensureFrame i).2 ∧
      ((e.ensureFrame i).2.pool i).dirty = false := by
  cases hpage : (e.pool i).page with
  | some page =>
    simp only [Engine.ensureFrame, hpage]
    exact ⟨h, hclean⟩
  | none =>
    simp only [Engine.ensureFrame, hpage]
    split
    next =>
      refine ⟨?_, by simpa [Engine.setEntry] using hclean⟩
      have hmem : Loading crc last pins i id L e.allocate.2 :=
        ⟨h.inv, h.apart, h.label, h.pinned, h.absent⟩
      exact hmem.setEntry h.label h.pinned
    next => exact ⟨⟨h.inv, h.apart, h.label, h.pinned, h.absent⟩, hclean⟩

/-- `load_page_from_disk` fails, reads the page, or makes a fresh one behind
the end of the file. -/
theorem loadPageFromDisk (hclean : (e.pool i).dirty = false) :
    ((e.loadPageFromDisk i id).1 = false ∧
      Loading crc last pins i id L (e.loadPageFromDisk i id).2 ∧
      ((e.loadPageFromDisk i id).2.pool i).dirty = false) ∨ ((e.loadPageFromDisk i id).1 = true ∧
      Loading crc last pins i id L (e.loadPageFromDisk i id).2 ∧
      ∃ page, ((e.loadPageFromDisk i id).2.pool i).page = some page ∧
        (∀ p, last id = some p → page = p) ∧ (((e.loadPageFromDisk i id).2.pool i).dirty = false ∧
            OnDisk (e.loadPageFromDisk i id).2.file id page ∨
          ((e.loadPageFromDisk i id).2.pool i).dirty = true ∧ page = freshPage id)) := by
  have hread : Loading crc last pins i id L
      { e with io := { e.io with reads := e.io.reads.tail } } :=
    ⟨h.inv, h.apart, h.label, h.pinned, h.absent⟩
  simp only [Engine.loadPageFromDisk]
  split
  next hall =>
    refine .inr ⟨rfl, hread.setEntry h.label h.pinned, _,
      by simp [Engine.setEntry], ?_, .inl ⟨?_, onDisk_ofBytes_slice hall.2⟩⟩
    · intro p hp
      exact (h.onDisk hp).ofBytes_slice
    · simpa [Engine.setEntry] using hclean
  next hall =>
    split
    next => exact .inl ⟨rfl, hread, hclean⟩
    next hbeyond =>
      refine .inr ⟨rfl, hread.setEntry h.label h.pinned, freshPage id,
        by simp [Engine.setEntry], ?_, .inr ⟨by simp [Engine.setEntry], rfl⟩⟩
      intro p hp
      -- A page obtained before lies inside the file.
      have hle := (h.onDisk hp).length_le
      refine absurd (.inr ?_) hbeyond
      exact Nat.lt_of_lt_of_le (Nat.lt_add_of_pos_right (by decide)) hle

theorem fill (hid : id ≠ 0) (hclean : (e.pool i).dirty = false) :
    Served crc last pins id (e.fill crc i id) := by
  obtain ⟨hframe, hfclean⟩ := h.ensureFrame hclean
  simp only [Engine.fill]
  split
  next => exact hframe.failPinned hfclean
  next =>
    rcases hframe.loadPageFromDisk hfclean with
      ⟨hfail, hl, hlclean⟩ | ⟨hok, hl, page, hpage, hlast, hwhere⟩
    · rw [if_pos hfail]
      exact hl.failPinned hlclean
    · rw [if_neg (by rw [hok]; decide)]
      simp only [hpage]
      rcases hwhere with ⟨hlclean, hdisk⟩ | ⟨hldirty, rfl⟩
      · split
        next hvalid => exact hl.publish hid hpage hvalid (fun _ => hdisk) hlast
        next => exact hl.failPinned hlclean
      · have hvalid : (freshPage id).ChecksumValid crc := .inl rfl
        refine hl.publish hid hpage hvalid ?_ hlast
        intro hlclean
        rw [hldirty] at hlclean
        cases hlclean

end

end Loading

/-! ## The calls -/

theorem PoolOk.getPage (h : PoolOk crc last pins e) (hid : id ≠ 0) :
    Served crc last pins id (e.getPage crc id) := by
  obtain ⟨L, h⟩ := h
  cases hfind : e.findBufferEntry id with
  | some i =>
    obtain ⟨hi, rfl⟩ := h.findBufferEntry_eq_some.mp hfind
    obtain ⟨page, hpage, hlast, -⟩ := h.holds i hi
    simp only [Engine.getPage, hfind, touch, hpage]
    have hsame : update last (e.pool i).pageId (some page) = last := by rw [← hlast, update_eq_self]
    refine ⟨?_, L, ?_⟩
    · intro p hp
      exact some.inj (hlast.symm.trans hp)
    · rw [hsame, ← h.counted i hi]
      exact h.repin hi
        { e.pool i with
          page := some page
          refCount := (e.pool i).refCount + 1
          lastAccess := e.clockGettime.1 } rfl hpage.symm rfl
  | none =>
    have habs := h.findBufferEntry_eq_none.mp hfind
    simp only [Engine.getPage, hfind]
    cases hslot : (e.allocateBufferEntry id).1 with
    | none => exact h.allocateBufferEntry_none hslot
    | some i =>
      obtain ⟨-, hclean, L', hload⟩ := h.allocateBufferEntry_some habs hslot
      exact hload.fill hid hclean

/-- The pins behind `release_page`. -/
def releasedPins (e : Engine) (pins : UInt32 → ℤ) (id : UInt32) : UInt32 → ℤ :=
  if (e.findBufferEntry id).isSome then update pins id (pins id - 1)
  else pins

theorem PoolOk.releasePage (h : PoolOk crc last pins e) (id : UInt32) :
    PoolOk crc last (releasedPins e pins id) (e.releasePage id) := by
  obtain ⟨L, h⟩ := h
  cases hfind : e.findBufferEntry id with
  | none =>
    simp only [Engine.releasePage, releasedPins, hfind]
    exact ⟨L, h⟩
  | some i =>
    obtain ⟨hi, rfl⟩ := h.findBufferEntry_eq_some.mp hfind
    simp only [Engine.releasePage, releasedPins, hfind, isSome_some, if_true]
    rw [← h.counted i hi]
    exact ⟨L, h.repin hi { e.pool i with refCount := (e.pool i).refCount - 1 } rfl rfl rfl⟩

theorem checksumValid_stamped (e : Engine) (page : BtreePage) :
    (e.stamped crc page).ChecksumValid crc :=
  .inr rfl

section

variable (h : PoolOk crc last pins e)
include h

/-- A page edited in place and marked dirty, while its slot is in use. -/
theorem PoolOk.modify (hfind : e.findBufferEntry id = some i) (page : BtreePage) :
    PoolOk crc (update last id (some (e.stamped crc page))) pins
      ((e.editPage id page).markPageDirty crc id) := by
  obtain ⟨L, h⟩ := h
  obtain ⟨hi, rfl⟩ := h.findBufferEntry_eq_some.mp hfind
  have hedit : e.editPage (e.pool i).pageId page =
      e.setEntry i { e.pool i with page := some page } := by
    simp only [editPage, hfind]
  have hfind' : (e.setEntry i { e.pool i with page := some page }).findBufferEntry
      (e.pool i).pageId = some i := by
    refine (PoolInv.findBufferEntry_setEntry ?_ _).trans hfind
    rfl
  simp only [hedit, markPageDirty, hfind']
  refine ⟨L, ?_⟩
  simp only [Engine.setEntry, update_idem, update_self, map_some]
  refine h.edit hi rfl ?_ (fun _ _ => rfl) rfl ?_ (checksumValid_stamped e page)
    nofun (h.counted i hi)
  · intro id hne
    exact update_of_ne hne _ _
  · exact update_self _ _ _

theorem PoolOk.checkpointSlot (i : Slot) : PoolOk crc last pins (e.checkpointSlot i) := by
  obtain ⟨L, h⟩ := h
  refine ⟨L, ?_⟩
  cases hpage : (e.pool i).page with
  | none =>
    simp only [Engine.checkpointSlot, hpage]
    exact h
  | some page =>
    simp only [Engine.checkpointSlot, hpage]
    split
    next hdirty =>
      have hi := h.chained_of_dirty hdirty
      have hfile := fun results => h.rewrite hi hdirty fun id' page' hne hdisk =>
          hdisk.pwriteOnce_of_ne hne page results
      split
      next hok => exact (hfile _).clean hi hpage (holdsAt_pwriteOnce_of_ok hok)
      next => exact hfile _
    next => exact h

theorem PoolOk.checkpointPool : PoolOk crc last pins e.checkpointPool := by
  have hslots : ∀ (l : List Slot) (e : Engine), PoolOk crc last pins e →
      PoolOk crc last pins (l.foldl Engine.checkpointSlot e) := by
    intro l
    induction l with
    | nil => exact fun e he => he
    | cons i l ih => exact fun e he => ih _ (he.checkpointSlot i)
  unfold Engine.checkpointPool
  exact hslots _ e h

theorem PoolOk.flushWalBuffer : PoolOk crc last pins e.flushWalBuffer.2 :=
  h

theorem PoolOk.writeWalRecord (txnId : UInt64) (type : WalRecordType)
    (pageId : UInt32) (data : Bytes) :
    PoolOk crc last pins (e.writeWalRecord crc txnId type pageId data).2 :=
  h

theorem PoolOk.performCheckpoint : PoolOk crc last pins (e.performCheckpoint crc).2 :=
  (h.flushWalBuffer.checkpointPool.writeWalRecord 0 .checkout 0 []).flushWalBuffer

end

theorem poolOk_of_empty (hpool : ∀ i, e.pool i = emptyEntry) (hhead : ∀ b, e.links.head b = none)
    (hstored : ∀ id page, last id = some page → page.ChecksumValid crc ∧ OnDisk e.file id page) :
    PoolOk crc last (fun _ => 0) e := by
  have hnone : ∀ i, ¬ Chained (fun _ => []) i := by
    rintro i ⟨b, hi⟩
    cases hi
  refine ⟨fun _ => [], ⟨?_, ?_, ?_⟩, nofun, ?_, ?_, ?_, ?_, ?_, ?_, ?_⟩
  · intro b
    exact hhead b
  · intro b
    exact nodup_nil
  · intro b b' v hv
    cases hv
  · exact fun i hi => absurd hi (hnone i)
  · exact fun i j hi => absurd hi (hnone i)
  · exact fun i hi => absurd hi (hnone i)
  · exact fun i hi => absurd hi (hnone i)
  · exact fun _ _ => rfl
  · intro i _ _
    rw [hpool i]
    exact ⟨rfl, rfl⟩
  · intro id page hpage
    obtain ⟨hvalid, hdisk⟩ := hstored id page hpage
    exact ⟨hvalid, .inr hdisk⟩

end Codo.Storage
