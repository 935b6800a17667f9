import Codo.Storage.Page
import Mathlib.Data.List.TakeWhile

/-!
# The byte layout of a page

`Holds page ps` says that the data area of `page` starts with the encodings
of the pairs `ps` and that `key_count` and `free_space` account for them
exactly.  On such a page every routine of `btree.c` acts on the list `ps`:
this file proves it for lookup, binary search, insertion, deletion and the
redirection of a child pointer.
-/

namespace Codo.Storage

open Codo.Support List

variable {ps : List KvPair} {p : KvPair} {page : BtreePage}

/-! ## Encoded pairs -/

/-- A decoded key-value pair. -/
structure KvPair where
  key : Bytes
  value : Bytes
  child : UInt32
  deriving DecidableEq

namespace KvPair

def size (p : KvPair) : ℕ :=
  kvPairSize + p.key.length + p.value.length

/-- The bytes of the pair as `insert_kv_pair` lays them out. -/
def encode (p : KvPair) : Bytes :=
  leBytes 2 p.key.length ++ leBytes 2 p.value.length ++ leBytes 4 p.child.toNat ++ p.key ++ p.value

/-- Both lengths fit their 16-bit fields. -/
def Fits (p : KvPair) : Prop :=
  p.key.length < 65536 ∧ p.value.length < 65536

instance (p : KvPair) : Decidable p.Fits :=
  inferInstanceAs (Decidable (_ ∧ _))

theorem length_encode (p : KvPair) : p.encode.length = p.size := by
  simp only [encode, size, kvPairSize, length_append, length_leBytes]

end KvPair

def totalSize (ps : List KvPair) : ℕ :=
  (ps.map KvPair.size).sum

/-- The encodings of a list of pairs, packed back to back. -/
def encodePairs (ps : List KvPair) : Bytes :=
  ps.flatMap KvPair.encode

@[simp] theorem totalSize_nil : totalSize [] = 0 := rfl

@[simp] theorem totalSize_cons (p : KvPair) (ps : List KvPair) :
    totalSize (p :: ps) = p.size + totalSize ps := by
  simp [totalSize]

@[simp] theorem totalSize_append (ps qs : List KvPair) :
    totalSize (ps ++ qs) = totalSize ps + totalSize qs := by
  simp [totalSize]

@[simp] theorem encodePairs_append (ps qs : List KvPair) :
    encodePairs (ps ++ qs) = encodePairs ps ++ encodePairs qs := by
  simp [encodePairs]

@[simp] theorem encodePairs_cons (p : KvPair) (ps : List KvPair) :
    encodePairs (p :: ps) = p.encode ++ encodePairs ps := by
  simp [encodePairs]

theorem length_encodePairs (ps : List KvPair) : (encodePairs ps).length = totalSize ps := by
  induction ps with
  | nil => rfl
  | cons p ps ih => rw [encodePairs_cons, length_append, ih, p.length_encode, totalSize_cons]

theorem length_le_totalSize (ps : List KvPair) : 8 * ps.length ≤ totalSize ps := by
  induction ps with
  | nil => simp
  | cons p ps ih =>
    have hp : 8 ≤ p.size := by
      simp only [KvPair.size, kvPairSize]
      omega
    rw [totalSize_cons, length_cons]
    omega

/-! ## Reading one pair -/

/-- The encoding of `p` stands at byte offset `offset` of the data area. -/
def PairAt (page : BtreePage) (offset : ℕ) (p : KvPair) : Prop :=
  p.Fits ∧ ∃ rest, page.data.bytes.drop offset = p.encode ++ rest

namespace PairAt

variable {offset : ℕ}

section

variable (h : PairAt page offset p)
include h

theorem kvKeyLength : page.kvKeyLength offset = p.key.length := by
  obtain ⟨hfits, rest, hrest⟩ := h
  simp only [KvPair.encode, append_assoc] at hrest
  rw [BtreePage.kvKeyLength, (word_of_drop_eq hrest).1]
  exact leValue_leBytes_of_lt hfits.1

theorem drop_valueLength :
    ∃ rest, page.data.bytes.drop (offset + 2) =
      leBytes 2 p.value.length ++ (leBytes 4 p.child.toNat ++ (p.key ++ (p.value ++ rest))) := by
  obtain ⟨-, rest, hrest⟩ := h
  simp only [KvPair.encode, append_assoc] at hrest
  exact ⟨rest, (word_of_drop_eq hrest).2⟩

theorem kvValueLength : page.kvValueLength offset = p.value.length := by
  obtain ⟨rest, hrest⟩ := h.drop_valueLength
  rw [BtreePage.kvValueLength, (word_of_drop_eq hrest).1]
  exact leValue_leBytes_of_lt h.1.2

theorem drop_child :
    ∃ rest, page.data.bytes.drop (offset + 4) =
      leBytes 4 p.child.toNat ++ (p.key ++ (p.value ++ rest)) := by
  obtain ⟨rest, hrest⟩ := h.drop_valueLength
  exact ⟨rest, (word_of_drop_eq hrest).2⟩

theorem kvChildPageId : page.kvChildPageId offset = p.child := by
  obtain ⟨rest, hrest⟩ := h.drop_child
  have hlt : p.child.toNat < 256 ^ 4 := p.child.toNat_lt
  rw [BtreePage.kvChildPageId, (word_of_drop_eq hrest).1,
    leValue_leBytes_of_lt hlt, UInt32.ofNat_toNat]

theorem drop_key :
    ∃ rest, page.data.bytes.drop (offset + kvPairSize) = p.key ++ (p.value ++ rest) := by
  obtain ⟨rest, hrest⟩ := h.drop_child
  exact ⟨rest, (word_of_drop_eq hrest).2⟩

theorem kvKey : page.kvKey offset = p.key := by
  obtain ⟨rest, hrest⟩ := h.drop_key
  rw [BtreePage.kvKey, h.kvKeyLength]
  exact slice_of_drop_eq hrest

theorem kvValue : page.kvValue offset = p.value := by
  obtain ⟨rest, hrest⟩ := h.drop_key
  have hdrop := drop_add_of_drop_eq hrest
  rw [BtreePage.kvValue, h.kvKeyLength, h.kvValueLength]
  exact slice_of_drop_eq hdrop

theorem pairSize : page.pairSize offset = p.size := by
  rw [BtreePage.pairSize, h.kvKeyLength, h.kvValueLength, KvPair.size]

end

end PairAt

/-! ## Well-formed pages -/

/-- The page stores exactly the pairs `ps`, in this order. -/
structure Holds (page : BtreePage) (ps : List KvPair) : Prop where
  fits : ∀ p ∈ ps, p.Fits
  data : ∃ tail, page.data.bytes = encodePairs ps ++ tail
  keyCount : page.keyCount = ps.length
  freeSpace : page.freeSpace + totalSize ps = btreePageCapacity

variable {xs ys : List KvPair}

namespace Holds

variable {zs : List KvPair}

theorem btreeUsedBytes (h : Holds page ps) : btreeUsedBytes page = some (totalSize ps) := by
  have hfree := h.freeSpace
  rw [Storage.btreeUsedBytes, if_neg (by omega)]
  congr 1
  omega

theorem pairAt (h : Holds page (xs ++ p :: ys)) : PairAt page (totalSize xs) p := by
  obtain ⟨tail, htail⟩ := h.data
  refine ⟨h.fits p (by simp), encodePairs ys ++ tail, ?_⟩
  rw [htail, encodePairs_append, encodePairs_cons, append_assoc,
    ← length_encodePairs, drop_left, append_assoc]

theorem entryOffsetFrom (h : Holds page (xs ++ ys ++ zs)) :
    entryOffsetFrom page (totalSize (xs ++ ys ++ zs)) ys.length
      (totalSize xs) = some (totalSize (xs ++ ys)) := by
  induction ys generalizing xs with
  | nil => simp [Storage.entryOffsetFrom]
  | cons p ys ih =>
    have hsplit : xs ++ p :: ys ++ zs = xs ++ p :: (ys ++ zs) := by simp
    have hsplit' : xs ++ p :: ys ++ zs = xs ++ [p] ++ ys ++ zs := by simp
    have hsize : (p : KvPair).size = kvPairSize + p.key.length +
        p.value.length := rfl
    have hat : PairAt page (totalSize xs) p := by
      rw [hsplit] at h
      exact h.pairAt
    have htotal : totalSize (xs ++ p :: ys ++ zs) =
        totalSize xs + p.size + totalSize (ys ++ zs) := by
      rw [hsplit, totalSize_append, totalSize_cons, Nat.add_assoc]
    rw [length_cons, Storage.entryOffsetFrom, hat.pairSize, if_neg (by omega), if_neg (by omega)]
    rw [hsplit'] at h ⊢
    have hrec := ih h
    rw [show totalSize xs + p.size = totalSize (xs ++ [p]) by simp, hrec]
    simp

theorem entryOffset (h : Holds page (xs ++ ys)) :
    entryOffset page xs.length (totalSize (xs ++ ys)) = some (totalSize xs) := by
  have h' : Holds page ([] ++ xs ++ ys) := by simpa using h
  simpa [Storage.entryOffset] using h'.entryOffsetFrom

theorem getKvPairFrom (h : Holds page (xs ++ ys ++ p :: zs)) :
    getKvPairFrom page ys.length (totalSize xs) = some (totalSize (xs ++ ys)) := by
  have hfree := h.freeSpace
  induction ys generalizing xs with
  | nil =>
    have h' : Holds page (xs ++ p :: zs) := by simpa using h
    have hsize : (p : KvPair).size = kvPairSize + p.key.length +
        p.value.length := rfl
    simp only [totalSize_append, totalSize_cons] at hfree
    rw [length_nil, Storage.getKvPairFrom, h'.pairAt.pairSize,
      if_neg (by omega), if_neg (by omega), append_nil]
  | cons q ys ih =>
    have h' : Holds page (xs ++ q :: (ys ++ p :: zs)) := by simpa using h
    have hstep : Holds page (xs ++ [q] ++ ys ++ p :: zs) := by simpa using h
    have hsize : (q : KvPair).size = kvPairSize + q.key.length +
        q.value.length := rfl
    have hrec := ih hstep (by simpa using hfree)
    simp only [totalSize_append, totalSize_cons] at hfree
    rw [length_cons, Storage.getKvPairFrom, h'.pairAt.pairSize,
      if_neg (by omega), if_neg (by omega),
      show totalSize xs + q.size = totalSize (xs ++ [q]) by simp, hrec]
    simp

theorem getKvPair (h : Holds page (xs ++ p :: ys)) :
    getKvPair page xs.length = some (totalSize xs) := by
  have hcount : page.keyCount = xs.length + (ys.length + 1) := by simpa using h.keyCount
  have h' : Holds page ([] ++ xs ++ p :: ys) := by simpa using h
  rw [Storage.getKvPair, if_neg (by omega), Int.toNat_natCast]
  simpa using h'.getKvPairFrom

theorem getKvPair_eq_none (h : Holds page ps) {i : ℤ}
    (hi : (ps.length : ℤ) ≤ i) : Storage.getKvPair page i = none := by
  rw [Storage.getKvPair, if_pos]
  right
  rw [h.keyCount]
  exact hi

end Holds

section

variable (a b : Bytes)

theorem memcmp_take_min :
    memcmp (a.take (min a.length b.length)) (b.take (min a.length b.length)) = memcmp a b := by
  induction a generalizing b with
  | nil => simp [memcmp]
  | cons x a ih =>
    cases b with
    | nil => simp [memcmp]
    | cons y b =>
      rw [length_cons, length_cons, Nat.succ_min_succ]
      simp only [Nat.succ_eq_add_one, take_succ_cons, memcmp]
      rw [ih b]

theorem memcmp_swap : memcmp b a = -memcmp a b := by
  induction a generalizing b with
  | nil => simp [memcmp]
  | cons x a ih =>
    cases b with
    | nil => simp [memcmp]
    | cons y b =>
      rw [memcmp, memcmp]
      rcases lt_trichotomy x y with hxy | rfl | hxy
      · simp [hxy, hxy.not_gt]
      · simp [ih b]
      · simp [hxy, hxy.not_gt]

/-- `memcmp` with the length as tie-break is the lexicographic order. -/
theorem lt_iff_memcmp :
    a < b ↔ memcmp a b < 0 ∨ (memcmp a b = 0 ∧ a.length < b.length) := by
  induction a generalizing b with
  | nil =>
    cases b with
    | nil => simp [memcmp]
    | cons y b => simp [memcmp]
  | cons x a ih =>
    cases b with
    | nil => simp [memcmp]
    | cons y b =>
      rw [cons_lt_cons_iff, ih b, memcmp]
      rcases lt_trichotomy x y with hxy | rfl | hxy
      · simp [hxy]
      · simp
      · simp [hxy, hxy.not_gt, hxy.ne']

theorem compareKeys_eq :
    compareKeys a b =
      if memcmp a b = 0 then
        if a.length < b.length then -1
        else if b.length < a.length then 1
        else 0
      else
        memcmp a b := by
  simp only [compareKeys, memcmp_take_min]

theorem compareKeys_swap : compareKeys b a = -compareKeys a b := by
  rw [compareKeys_eq, compareKeys_eq, memcmp_swap a b]
  by_cases hzero : memcmp a b = 0
  · rcases lt_trichotomy a.length b.length with hlen | hlen | hlen
    · simp [hzero, hlen, hlen.not_gt]
    · simp [hzero, hlen]
    · simp [hzero, hlen, hlen.not_gt]
  · simp [hzero]

theorem compareKeys_neg_iff : compareKeys a b < 0 ↔ a < b := by
  rw [compareKeys_eq, lt_iff_memcmp]
  by_cases hzero : memcmp a b = 0
  · rcases lt_trichotomy a.length b.length with hlen | hlen | hlen
    · simp [hzero, hlen]
    · simp [hzero, hlen]
    · simp [hzero, hlen, hlen.not_gt]
  · simp [hzero]

theorem compareKeys_pos_iff : 0 < compareKeys a b ↔ b < a := by
  rw [← compareKeys_neg_iff, compareKeys_swap]
  omega

theorem compareKeys_eq_zero_iff : compareKeys a b = 0 ↔ a = b := by
  have hneg := compareKeys_neg_iff a b
  have hpos := compareKeys_pos_iff a b
  constructor
  · intro hzero
    apply le_antisymm
    · exact not_lt.mp fun hlt => by
        have := hpos.mpr hlt
        omega
    · exact not_lt.mp fun hlt => by
        have := hneg.mpr hlt
        omega
  · rintro rfl
    have hirrefl : ¬a < a := lt_irrefl a
    have := mt hneg.mp hirrefl
    have := mt hpos.mp hirrefl
    omega

end

/-! ## Binary search -/

/-- Strictly increasing keys. -/
def SortedPairs (ps : List KvPair) : Prop :=
  ps.Pairwise fun p q => p.key < q.key

/-- The number of leading pairs whose key is below `key`. -/
def lowerBound (ps : List KvPair) (key : Bytes) : ℕ :=
  (ps.takeWhile fun p => decide (p.key < key)).length

theorem lowerBound_le (ps : List KvPair) (key : Bytes) : lowerBound ps key ≤ ps.length :=
  (List.takeWhile_prefix _).length_le

theorem exists_split_lowerBound (ps : List KvPair) (key : Bytes) (hsorted : SortedPairs ps) :
    ∃ xs ys, ps = xs ++ ys ∧ xs.length = lowerBound ps key ∧
      (∀ p ∈ xs, p.key < key) ∧ (∀ p ∈ ys, key ≤ p.key) := by
  refine ⟨ps.takeWhile fun p => decide (p.key < key), ps.dropWhile fun p => decide (p.key < key),
    (takeWhile_append_dropWhile ..).symm, rfl, ?_, ?_⟩
  · intro p hp
    simpa using mem_takeWhile_imp hp
  · intro p hp
    induction ps with
    | nil => simp at hp
    | cons q ps ih =>
      rw [SortedPairs, pairwise_cons] at hsorted
      by_cases hq : q.key < key
      · rw [dropWhile_cons_of_pos (by simpa using hq)] at hp
        exact ih hsorted.2 hp
      · rw [dropWhile_cons_of_neg (by simpa using hq)] at hp
        rcases mem_cons.mp hp with rfl | hp
        · exact not_lt.mp hq
        · exact (not_lt.mp hq).trans (hsorted.1 p hp).le

theorem lt_lowerBound_iff (key : Bytes) (hsorted : SortedPairs ps) (hps : ps = xs ++ p :: ys) :
    xs.length < lowerBound ps key ↔ p.key < key := by
  obtain ⟨us, vs, hsplit, hlen, hus, hvs⟩ := exists_split_lowerBound ps key hsorted
  have hget : (us ++ vs)[xs.length]? = some p := by
    rw [← hsplit, hps]
    simp
  rw [← hlen]
  constructor
  · intro hlt
    rw [List.getElem?_append_left hlt] at hget
    exact hus p (mem_of_getElem? hget)
  · intro hkey
    by_contra hle
    rw [List.getElem?_append_right (not_lt.mp hle)] at hget
    exact (hvs p (mem_of_getElem? hget)).not_gt hkey

theorem lowerBound_append {key : Bytes}
    (hxs : ∀ p ∈ xs, p.key < key) (hys : ∀ p ∈ ys, key ≤ p.key) :
    lowerBound (xs ++ ys) key = xs.length := by
  rw [lowerBound, takeWhile_append_of_pos (by simpa using hxs)]
  cases ys with
  | nil => simp
  | cons p ys =>
    have hp : key ≤ p.key := hys p (by simp)
    rw [takeWhile_cons_of_neg (by simpa using hp), append_nil]

namespace Holds

theorem exists_getKvPair (h : Holds page ps) {i : ℕ} (hi : i < ps.length) :
    ∃ xs p ys, ps = xs ++ p :: ys ∧ xs.length = i ∧ Storage.getKvPair page i = some (totalSize xs) ∧
      PairAt page (totalSize xs) p := by
  have hsplit : ps = ps.take i ++ ps[i] :: ps.drop (i + 1) := by
    rw [← drop_eq_getElem_cons hi, take_append_drop]
  have hlen : (ps.take i).length = i := by
    rw [length_take]
    omega
  have h' := h
  rw [hsplit] at h'
  refine ⟨ps.take i, ps[i], ps.drop (i + 1), hsplit, hlen, ?_, h'.pairAt⟩
  have hget := h'.getKvPair
  rwa [hlen] at hget

/-- The binary search keeps the answer between `left` and `right + 1`. -/
theorem findKeyPositionLoop_eq (h : Holds page ps) (hsorted : SortedPairs ps)
    (key : Bytes) (fuel : ℕ) (left right : ℤ) (hleft : 0 ≤ left) (hright : right < ps.length)
    (hlow : left ≤ lowerBound ps key) (hhigh : lowerBound ps key ≤ right + 1)
    (hfuel : right + 1 - left < fuel) :
    findKeyPositionLoop page key fuel left right = lowerBound ps key := by
  induction fuel generalizing left right with
  | zero => omega
  | succ fuel ih =>
    rw [findKeyPositionLoop]
    by_cases hle : left ≤ right
    · rw [if_pos hle]
      have hmid : left ≤ (left + right) / 2 ∧ (left + right) / 2 ≤ right := by omega
      generalize (left + right) / 2 = mid at hmid
      lift mid to ℕ using by omega
      obtain ⟨xs, p, ys, hps, hlen, hget, hat⟩ := h.exists_getKvPair (i := mid) (by omega)
      have hindex := lt_lowerBound_iff key hsorted hps
      simp only [hget, hat.kvKey]
      by_cases hzero : compareKeys key p.key = 0
      · rw [if_pos hzero]
        have hkey := (compareKeys_eq_zero_iff key p.key).mp hzero
        subst hps
        rw [SortedPairs, pairwise_append] at hsorted
        rw [lowerBound_append, hlen]
        · intro q hq
          rw [hkey]
          exact hsorted.2.2 q hq p (by simp)
        · intro q hq
          rw [hkey]
          rcases mem_cons.mp hq with rfl | hq
          · exact le_rfl
          · exact ((pairwise_cons.mp hsorted.2.1).1 q hq).le
      · rw [if_neg hzero]
        by_cases hneg : compareKeys key p.key < 0
        · rw [if_pos hneg]
          have hkey := (compareKeys_neg_iff key p.key).mp hneg
          have hnot := mt hindex.mp hkey.not_gt
          exact ih _ _ hleft (by omega) hlow (by omega) (by omega)
        · rw [if_neg hneg]
          have hkey := (compareKeys_pos_iff key p.key).mp (by omega)
          have hlt := hindex.mpr hkey
          exact ih _ _ (by omega) hright (by omega) hhigh (by omega)
    · rw [if_neg hle]
      omega

/-- `find_key_position` returns the first pair whose key is not below `key`. -/
theorem findKeyPosition_eq (h : Holds page ps) (hsorted : SortedPairs ps)
    (key : Bytes) : findKeyPosition page key = lowerBound ps key := by
  have hle := lowerBound_le ps key
  have hcount := h.keyCount
  rw [findKeyPosition, hcount]
  exact h.findKeyPositionLoop_eq hsorted key _ _ _ le_rfl (by omega)
    (by omega) (by omega) (by push_cast; omega)

end Holds

namespace Holds

theorem length_lt (h : Holds page ps) : ps.length < 504 := by
  have hfree := h.freeSpace
  have hlen := length_le_totalSize ps
  rw [btreePageCapacity_eq] at hfree
  omega

theorem drop_totalSize (h : Holds page (xs ++ ys)) :
    ∃ tail, page.data.bytes = encodePairs xs ++ (encodePairs ys ++ tail) ∧
      page.data.bytes.drop (totalSize xs) = encodePairs ys ++ tail := by
  obtain ⟨tail, htail⟩ := h.data
  rw [encodePairs_append, append_assoc] at htail
  refine ⟨tail, htail, ?_⟩
  rw [htail, ← length_encodePairs, drop_left]

theorem slice_totalSize (h : Holds page (xs ++ ys)) :
    slice page.data.bytes (totalSize xs) (totalSize ys) = encodePairs ys := by
  obtain ⟨tail, -, hdrop⟩ := h.drop_totalSize
  rw [← length_encodePairs ys]
  exact slice_of_drop_eq hdrop

theorem insertKvPair_eq_some (h : Holds page (xs ++ ys)) (hroom : p.size ≤ page.freeSpace) :
    insertKvPair page xs.length p.key p.value p.child = some
        { header :=
            { page.header with
              keyCount := page.header.keyCount + 1
              freeSpace := UInt16.ofNat (page.freeSpace - p.size) }
          data := (page.data.blit (totalSize xs + p.size)
            (encodePairs ys)).blit (totalSize xs) p.encode } := by
  have hslice := h.slice_totalSize
  have hmoveSize : totalSize (xs ++ ys) - totalSize xs = totalSize ys := by
    rw [totalSize_append]
    omega
  have hguard : kvPairSize + p.key.length + p.value.length ≤
      page.freeSpace := hroom
  simp only [insertKvPair, hguard, guard_true, h.btreeUsedBytes,
    h.entryOffset, hmoveSize, hslice, Option.bind_eq_bind, Option.pure_def, Option.bind_some]
  rfl

theorem exists_insertKvPair (h : Holds page (xs ++ ys)) (hfits : p.Fits)
    (hroom : p.size ≤ page.freeSpace) :
    ∃ page', insertKvPair page xs.length p.key p.value p.child = some page' ∧
      Holds page' (xs ++ p :: ys) ∧ page'.header.pageType = page.header.pageType ∧
      page'.header.nextPageId = page.header.nextPageId := by
  obtain ⟨tail, htail, -⟩ := h.drop_totalSize
  have hfree := h.freeSpace
  have hlength := h.length_lt
  have hcount := h.keyCount
  rw [totalSize_append] at hfree
  rw [length_append] at hcount hlength
  obtain ⟨tail', htail'⟩ := Block.exists_tail_blit_insert p.encode htail (by
    rw [length_encodePairs, length_encodePairs, p.length_encode]
    omega)
  rw [length_encodePairs, p.length_encode] at htail'
  refine ⟨_, h.insertKvPair_eq_some hroom, ⟨?_, ?_, ?_, ?_⟩, rfl, rfl⟩
  · intro q hq
    rcases mem_append.mp hq with hq | hq
    · exact h.fits q (by simp [hq])
    · rcases mem_cons.mp hq with rfl | hq
      · exact hfits
      · exact h.fits q (by simp [hq])
  · refine ⟨tail', htail'.trans ?_⟩
    simp
  · change (page.header.keyCount + 1).toNat = _
    have hone : (1 : UInt16).toNat = 1 := rfl
    change page.header.keyCount.toNat = _ at hcount
    rw [UInt16.toNat_add, hcount, hone, length_append, length_cons]
    omega
  · change (UInt16.ofNat (page.freeSpace - p.size)).toNat + _ = _
    have hlt := page.header.freeSpace.toNat_lt
    change page.freeSpace < _ at hlt
    rw [UInt16.toNat_ofNat', totalSize_append, totalSize_cons]
    omega

theorem deleteKvPair_eq_some (h : Holds page (xs ++ p :: ys)) :
    deleteKvPair page xs.length = some
        { header :=
            { page.header with
              keyCount := page.header.keyCount - 1
              freeSpace := UInt16.ofNat (page.freeSpace + p.size) }
          data := page.data.blit (totalSize xs) (encodePairs ys) } := by
  have hcount : page.keyCount = xs.length + (ys.length + 1) := by simpa using h.keyCount
  have h' : Holds page ((xs ++ [p]) ++ ys) := by simpa using h
  have hslice := h'.slice_totalSize
  have hoffset : totalSize (xs ++ [p]) = totalSize xs + p.size := by simp
  rw [hoffset] at hslice
  have hguard : (0 : ℤ) ≤ xs.length ∧ (xs.length : ℤ) < page.keyCount := by omega
  have hused : totalSize xs + p.size ≤ totalSize (xs ++ p :: ys) := by
    rw [totalSize_append, totalSize_cons]
    omega
  have hmoveSize : totalSize (xs ++ p :: ys) - (totalSize xs + p.size) = totalSize ys := by
    rw [totalSize_append, totalSize_cons]
    omega
  simp only [deleteKvPair, hguard, and_self, guard_true, h.getKvPair,
    h.pairAt.pairSize, h.btreeUsedBytes, hused, hmoveSize, hslice,
    Option.bind_eq_bind, Option.pure_def, Option.bind_some]

theorem exists_deleteKvPair (h : Holds page (xs ++ p :: ys)) :
    ∃ page', deleteKvPair page xs.length = some page' ∧ Holds page' (xs ++ ys) ∧
      page'.header.pageType = page.header.pageType ∧
      page'.header.nextPageId = page.header.nextPageId := by
  obtain ⟨tail, htail, -⟩ := h.drop_totalSize
  have hfree := h.freeSpace
  have hlength := h.length_lt
  have hcount := h.keyCount
  rw [totalSize_append, totalSize_cons] at hfree
  rw [length_append, length_cons] at hcount hlength
  rw [encodePairs_cons, append_assoc] at htail
  obtain ⟨tail', htail'⟩ := Block.exists_tail_blit_remove htail
  rw [length_encodePairs] at htail'
  refine ⟨_, h.deleteKvPair_eq_some, ⟨?_, ?_, ?_, ?_⟩, rfl, rfl⟩
  · intro q hq
    rcases mem_append.mp hq with hq | hq <;> exact h.fits q (by simp [hq])
  · refine ⟨tail', htail'.trans ?_⟩
    simp
  · change (page.header.keyCount - 1).toNat = _
    change page.header.keyCount.toNat = _ at hcount
    have hone : (1 : UInt16).toNat = 1 := rfl
    rw [UInt16.toNat_sub, hcount, hone, length_append]
    omega
  · change (UInt16.ofNat (page.freeSpace + p.size)).toNat + _ = _
    rw [UInt16.toNat_ofNat', totalSize_append]
    rw [btreePageCapacity_eq] at hfree ⊢
    omega

/-- Writing `child_page_id` redirects one pair and nothing else. -/
theorem setKvChild (h : Holds page (xs ++ p :: ys)) (id : UInt32) :
    Holds (page.setKvChild (totalSize xs) id) (xs ++ { p with child := id } :: ys) := by
  obtain ⟨tail, htail, -⟩ := h.drop_totalSize
  have hfree := h.freeSpace
  have hsize : ({ p with child := id } : KvPair).size = p.size := rfl
  have hfront : page.data.bytes =
      (encodePairs xs ++ leBytes 2 p.key.length ++ leBytes 2 p.value.length) ++
        (leBytes 4 p.child.toNat ++ (p.key ++ p.value ++ encodePairs ys ++ tail)) := by
    rw [htail]
    simp [KvPair.encode]
  have hlen : (encodePairs xs ++ leBytes 2 p.key.length ++
      leBytes 2 p.value.length).length = totalSize xs + 4 := by
    simp [length_encodePairs]
  have hblit := Block.blit_front (leBytes 4 id.toNat) hfront (by
    have hp : p.size = 8 + p.key.length + p.value.length := rfl
    rw [hlen, length_leBytes]
    rw [totalSize_append, totalSize_cons] at hfree
    omega)
  rw [hlen, length_leBytes, drop_left' (length_leBytes _ _)] at hblit
  refine ⟨?_, ⟨tail, ?_⟩, ?_, ?_⟩
  · intro q hq
    rcases mem_append.mp hq with hq | hq
    · exact h.fits q (by simp [hq])
    · rcases mem_cons.mp hq with rfl | hq
      · exact h.fits p (by simp)
      · exact h.fits q (by simp [hq])
  · refine hblit.trans ?_
    simp [KvPair.encode]
  · change page.keyCount = _
    simpa using h.keyCount
  · change page.freeSpace + _ = _
    simpa [hsize] using hfree

end Holds

theorem insertKvPair_eq_none (position : ℕ) (hfull : page.freeSpace < p.size) :
    insertKvPair page position p.key p.value p.child = none := by
  have hguard : ¬kvPairSize + p.key.length + p.value.length ≤
      page.freeSpace := not_le.mpr hfull
  simp [insertKvPair, hguard, guard_false]

/-! ## Decoding a page -/

/-- The pair stored at a byte offset. -/
def BtreePage.readPair (page : BtreePage) (offset : ℕ) : KvPair where
  key := page.kvKey offset
  value := page.kvValue offset
  child := page.kvChildPageId offset

/-- The pairs of a page as `get_kv_pair` delivers them. -/
def BtreePage.pairs (page : BtreePage) : List KvPair :=
  (List.range page.keyCount).map fun i : ℕ => page.readPair ((getKvPair page i).getD 0)

theorem PairAt.readPair {offset : ℕ} (h : PairAt page offset p) : page.readPair offset = p := by
  rw [BtreePage.readPair, h.kvKey, h.kvValue, h.kvChildPageId]

theorem Holds.pairs_eq (h : Holds page ps) : page.pairs = ps := by
  apply ext_getElem
  · simp [BtreePage.pairs, h.keyCount]
  · intro i hi hi'
    obtain ⟨xs, p, ys, hps, hlen, hget, hat⟩ := h.exists_getKvPair hi'
    simp only [BtreePage.pairs, getElem_map, getElem_range, hget, Option.getD_some, hat.readPair]
    subst hps hlen
    simp

/-! ## Encoding a page -/

/-- A page of the given type that stores `ps`. -/
def pageOf (pageType : UInt32) (ps : List KvPair) : BtreePage where
  header :=
    { BtreePage.zero.header with
      pageType := pageType
      keyCount := UInt16.ofNat ps.length
      freeSpace := UInt16.ofNat (btreePageCapacity - totalSize ps) }
  data := Block.ofBytes btreePageCapacity (encodePairs ps)

/-- Every list of pairs that fits into a page is held by one. -/
theorem holds_pageOf (pageType : UInt32) (hfits : ∀ p ∈ ps, p.Fits)
    (hsize : totalSize ps ≤ btreePageCapacity) : Holds (pageOf pageType ps) ps := by
  have hlength := length_le_totalSize ps
  have hencode := length_encodePairs ps
  rw [btreePageCapacity_eq] at hsize
  refine ⟨hfits, ⟨(List.replicate btreePageCapacity 0).take
    (btreePageCapacity - (encodePairs ps).length), ?_⟩, ?_, ?_⟩
  · change (encodePairs ps ++ List.replicate btreePageCapacity 0).take btreePageCapacity = _
    rw [take_append, take_of_length_le (by
      rw [hencode, btreePageCapacity_eq]
      exact hsize)]
  · change (UInt16.ofNat ps.length).toNat = _
    rw [UInt16.toNat_ofNat']
    omega
  · change (UInt16.ofNat (btreePageCapacity - totalSize ps)).toNat + _ = _
    rw [UInt16.toNat_ofNat', btreePageCapacity_eq]
    omega

/-! ## The key search -/

/-- `compare_keys` is the strict lexicographic order of byte strings, with a
proper prefix first, and `find_key_position` counts the stored keys below the
search key. -/
theorem findKeyPosition_eq_countP (h : Holds page ps)
    (hsorted : ps.Pairwise fun p q => compareKeys p.key q.key < 0)
    (key : Bytes) :
    findKeyPosition page key =
        ps.countP (fun p => decide (compareKeys p.key key < 0)) ∧
      (∀ i (hi : i < ps.length), (i : ℤ) < findKeyPosition page key ↔
        compareKeys ps[i].key key < 0) ∧
      (∀ a b, compareKeys a b < 0 ↔ List.Lex (· < ·) a b) ∧
      (∀ a x b, compareKeys a (a ++ x :: b) < 0) ∧
      (∀ a b, compareKeys a b = 0 ↔ a = b) ∧
      IsStrictTotalOrder Bytes (fun a b => compareKeys a b < 0) := by
  simp only [compareKeys_neg_iff] at hsorted ⊢
  obtain ⟨xs, ys, rfl, hlen, hxs, hys⟩ := exists_split_lowerBound ps key hsorted
  rw [h.findKeyPosition_eq hsorted]
  refine ⟨?_, ?_, fun _ _ => Iff.rfl, ?_, compareKeys_eq_zero_iff,
    inferInstance⟩
  · have hbelow : xs.countP (fun p => decide (p.key < key)) = xs.length :=
      countP_eq_length.mpr (by simpa using hxs)
    have habove : ys.countP (fun p => decide (p.key < key)) = 0 :=
      countP_eq_zero.mpr (by simpa using hys)
    rw [countP_append, hbelow, habove, hlen]
    rfl
  · intro i hi
    have hsplit : xs ++ ys = (xs ++ ys).take i ++ (xs ++ ys)[i] :: (xs ++ ys).drop (i + 1) := by
      rw [← drop_eq_getElem_cons hi, take_append_drop]
    have hindex := lt_lowerBound_iff key hsorted hsplit
    rw [length_take_of_le hi.le] at hindex
    exact_mod_cast hindex
  · intro a x b
    induction a with
    | nil => exact nil_lt_cons x b
    | cons y a ih => exact cons_lt_cons_self.mpr ih

/-- Two keys, one a proper prefix of the other, and a search between them. -/
theorem findKeyPosition_between_prefixes :
    findKeyPosition
      (pageOf pageTypeLeaf [⟨[107], [], 0⟩, ⟨[107, 50], [], 0⟩]) [107, 49] = 1 := by
  have hholds : Holds (pageOf pageTypeLeaf [⟨[107], [], 0⟩, ⟨[107, 50], [], 0⟩]) _ :=
    holds_pageOf pageTypeLeaf (by decide) (by decide)
  exact (findKeyPosition_eq_countP hholds (by decide) [107, 49]).1

end Codo.Storage
