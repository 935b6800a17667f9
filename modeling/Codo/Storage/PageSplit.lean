import Codo.Storage.PageLayout

/-!
# Splitting a page

`btree_split_page` cuts the pair list of a well-formed page at the index
`choose_split_index` picks.  A leaf keeps its separator as its last pair; an
internal page gives the middle pair up.  The cut lies close to the middle of
the used bytes, which bounds both halves from above and from below.
-/

namespace Codo.Storage

open Support List

variable {src : BtreePage} {ps : List KvPair} {mid m : ℕ} {p : KvPair}

/-! ## The split index -/

/-- `mid` is where `choose_split_index` cuts `ps`: the first cut past the
halfway point, or the last pair when every cut lies before it. -/
def IsSplitIndex (ps : List KvPair) (mid : ℕ) : Prop :=
  0 < mid ∧ mid < ps.length ∧ ((totalSize ps / 2 ≤ totalSize (ps.take mid) ∧
        (mid = 1 ∨ totalSize (ps.take (mid - 1)) < totalSize ps / 2)) ∨
      (mid + 1 = ps.length ∧ totalSize (ps.take mid) < totalSize ps / 2))

theorem Holds.chooseSplitIndexFrom {page : BtreePage} (h : Holds page ps)
    (xs ys : List KvPair) (hps : ps = xs ++ ys) (hlen : 2 ≤ ps.length)
    (hbefore : ∀ j, 0 < j → j < xs.length → totalSize (ps.take j) < totalSize ps / 2) :
    ∃ mid, chooseSplitIndexFrom page (totalSize ps) (totalSize ps / 2)
        ys.length xs.length (totalSize xs) = some mid ∧ IsSplitIndex ps mid := by
  induction ys generalizing xs with
  | nil =>
    have hxs : xs = ps := by simpa using hps.symm
    subst hxs
    refine ⟨xs.length - 1, ?_, by omega, by omega, .inr ⟨by omega, ?_⟩⟩
    · rw [length_nil, Storage.chooseSplitIndexFrom, h.keyCount, if_pos (by omega)]
    · exact hbefore _ (by omega) (by omega)
  | cons p ys ih =>
    have hlength := congrArg List.length hps
    have htotal := congrArg totalSize hps
    have htake : ps.take xs.length = xs := by rw [hps, take_left]
    rw [length_append, length_cons] at hlength
    rw [totalSize_append, totalSize_cons] at htotal
    by_cases hcut : totalSize ps / 2 ≤ totalSize xs ∧ 0 < xs.length
    · refine ⟨xs.length, ?_, hcut.2, by omega, .inl ⟨?_, ?_⟩⟩
      · rw [length_cons, Storage.chooseSplitIndexFrom, if_pos hcut]
      · rw [htake]
        exact hcut.1
      · by_cases hone : xs.length = 1
        · exact .inl hone
        · exact .inr (hbefore _ (by omega) (by omega))
    · have hat : PairAt page (totalSize xs) p := by
        rw [hps] at h
        exact h.pairAt
      have hsize : (p : KvPair).size = kvPairSize + p.key.length +
          p.value.length := rfl
      have hstep := ih (xs ++ [p]) (by simpa using hps) (by
        intro j hj hjlt
        rw [length_append, length_singleton] at hjlt
        by_cases hjx : j < xs.length
        · exact hbefore j hj hjx
        · have hjeq : j = xs.length := by omega
          rw [hjeq, htake]
          omega)
      obtain ⟨mid, hmid, hindex⟩ := hstep
      refine ⟨mid, ?_, hindex⟩
      rw [length_cons, Storage.chooseSplitIndexFrom, if_neg hcut,
        hat.pairSize, if_neg (by omega), if_neg (by omega)]
      simpa using hmid

theorem Holds.chooseSplitIndex {page : BtreePage} (h : Holds page ps) (hlen : 2 ≤ ps.length) :
    ∃ mid, chooseSplitIndex page (totalSize ps) = some mid ∧ IsSplitIndex ps mid := by
  have hstart := h.chooseSplitIndexFrom [] ps rfl hlen (by
    intro j _ hj
    simp at hj)
  rwa [Storage.chooseSplitIndex, h.keyCount]

theorem IsSplitIndex.exists_take (h : IsSplitIndex ps mid) :
    ∃ q ∈ ps, ps.take mid = ps.take (mid - 1) ++ [q] := by
  obtain ⟨hpos, hlt, -⟩ := h
  refine ⟨ps[mid - 1], getElem_mem _, ?_⟩
  rw [← take_succ_eq_append_getElem (by omega)]
  congr 1
  omega

theorem IsSplitIndex.exists_leaf_parts (h : IsSplitIndex ps mid) :
    ∃ ls q rs, ps = ls ++ [q] ++ rs ∧ (ls ++ [q]).length = mid ∧ rs ≠ [] := by
  obtain ⟨q, -, htake⟩ := h.exists_take
  obtain ⟨hpos, hlt, -⟩ := h
  refine ⟨ps.take (mid - 1), q, ps.drop mid, ?_, ?_, ?_⟩
  · rw [← htake, take_append_drop]
  · rw [← htake, length_take]
    omega
  · rw [Ne, drop_eq_nil_iff]
    omega

theorem IsSplitIndex.exists_internal_parts (h : IsSplitIndex ps mid) :
    ∃ ls q rs, ps = ls ++ q :: rs ∧ ls.length = mid := by
  obtain ⟨-, hlt, -⟩ := h
  refine ⟨ps.take mid, ps[mid], ps.drop (mid + 1), ?_, ?_⟩
  · rw [← drop_eq_getElem_cons hlt, take_append_drop]
  · rw [length_take]
    omega

/-! ## Bounds on the two sides -/

theorem totalSize_le_of_forall (ps : List KvPair) (hps : ∀ p ∈ ps, p.size ≤ m) :
    totalSize ps ≤ m * ps.length := by
  induction ps with
  | nil => simp
  | cons p ps ih =>
    have hp := hps p (by simp)
    have hrest := ih fun q hq => hps q (by simp [hq])
    rw [totalSize_cons, length_cons, Nat.mul_succ]
    omega

/-- The left side of a cut exceeds half of the used bytes by less than one
pair. -/
theorem IsSplitIndex.totalSize_take_le (h : IsSplitIndex ps mid)
    (hps : ∀ p ∈ ps, p.size ≤ m) (hm : 0 < m) :
    totalSize (ps.take mid) ≤ totalSize ps / 2 + m - 1 ∨ mid = 1 := by
  obtain ⟨q, hq, htake⟩ := h.exists_take
  obtain ⟨hpos, hlt, hcut⟩ := h
  have hstep : totalSize (ps.take mid) ≤ totalSize (ps.take (mid - 1)) + m := by
    have hsize := hps q hq
    rw [htake, totalSize_append, totalSize_cons, totalSize_nil]
    omega
  rcases hcut with ⟨_, hone | hprev⟩ | ⟨_, hlast⟩
  · exact .inr hone
  · left
    omega
  · left
    omega

/-- When no pair takes up half of the used bytes, the cut lies past the
halfway point. -/
theorem IsSplitIndex.half_le_totalSize_take (h : IsSplitIndex ps mid)
    (hps : ∀ p ∈ ps, p.size ≤ m) (hbig : 2 * m ≤ totalSize ps) :
    totalSize ps / 2 ≤ totalSize (ps.take mid) := by
  obtain ⟨hpos, hlt, hcut⟩ := h
  rcases hcut with ⟨hhalf, _⟩ | ⟨hlast, hsmall⟩
  · exact hhalf
  · have hsplit : ps = ps.take mid ++ [ps[mid]] := by
      rw [← take_succ_eq_append_getElem hlt, hlast, take_length]
    have hp := hps ps[mid] (getElem_mem _)
    have htotal := congrArg totalSize hsplit
    rw [totalSize_append, totalSize_cons, totalSize_nil] at htotal
    omega

/-- The left side of a cut has at most half of the used bytes and one pair. -/
theorem IsSplitIndex.exists_left_le (h : IsSplitIndex ps mid) :
    ∃ p ∈ ps, totalSize (ps.take mid) ≤ totalSize ps / 2 + p.size := by
  obtain ⟨q, hq, htake⟩ := h.exists_take
  obtain ⟨hpos, hlt, hcut⟩ := h
  have hsize := congrArg totalSize htake
  rw [totalSize_append, totalSize_cons, totalSize_nil] at hsize
  refine ⟨q, hq, ?_⟩
  rcases hcut with ⟨_, hone | hprev⟩ | ⟨_, hlast⟩
  · have hnil : totalSize (ps.take (mid - 1)) = 0 := by
      rw [hone, Nat.sub_self, take_zero, totalSize_nil]
    omega
  · omega
  · omega

theorem IsSplitIndex.exists_right_le (h : IsSplitIndex ps mid) :
    ∃ p ∈ ps, totalSize (ps.drop mid) ≤ totalSize ps / 2 + p.size := by
  obtain ⟨hpos, hlt, hcut⟩ := h
  have hsplit := congrArg totalSize (take_append_drop mid ps)
  rw [totalSize_append] at hsplit
  refine ⟨ps[mid], getElem_mem _, ?_⟩
  rcases hcut with ⟨hhalf, _⟩ | ⟨hlast, _⟩
  · have hpair : 8 ≤ ps[mid].size := by
      simp only [KvPair.size, kvPairSize]
      omega
    omega
  · rw [drop_eq_getElem_cons hlt, drop_eq_nil_of_le (by omega), totalSize_cons, totalSize_nil]
    omega

/-! ## The two pages -/

/-- The page that stays, with the pairs `ps` at its front. -/
def keptPage (src : BtreePage) (next : UInt32) (ps : List KvPair) : BtreePage :=
  { src with
    header :=
      { src.header with
        nextPageId := next
        keyCount := UInt16.ofNat ps.length
        freeSpace := UInt16.ofNat (btreePageCapacity - totalSize ps) } }

/-- The page that takes over the pairs `rs` behind the pairs `xs` of `src`. -/
def movedPage (src dst : BtreePage) (dstPageId : UInt32) (xs rs : List KvPair) : BtreePage where
  header :=
    { dst.header with
      pageId := dstPageId
      pageType := src.header.pageType
      keyCount := UInt16.ofNat rs.length
      freeSpace := UInt16.ofNat (btreePageCapacity - totalSize rs)
      nextPageId := src.header.nextPageId }
  data := dst.data.blit 0 (slice src.data.bytes (totalSize xs) (totalSize rs))

theorem Holds.take_holds (h : Holds src ps) (mid : ℕ) (next : UInt32) :
    Holds (keptPage src next (ps.take mid)) (ps.take mid) := by
  obtain ⟨tail, htail⟩ := h.data
  have hfree := h.freeSpace
  have hlength := h.length_lt
  have htotal := congrArg totalSize (take_append_drop mid ps).symm
  rw [totalSize_append] at htotal
  rw [keptPage]
  rw [btreePageCapacity_eq] at hfree ⊢
  refine ⟨?_, ⟨encodePairs (ps.drop mid) ++ tail, ?_⟩, ?_, ?_⟩
  · intro p hp
    exact h.fits p (mem_of_mem_take hp)
  · rw [← append_assoc, ← encodePairs_append, take_append_drop]
    exact htail
  · change (UInt16.ofNat (ps.take mid).length).toNat = _
    have hle := length_take_le' mid ps
    rw [UInt16.toNat_ofNat']
    omega
  · change (UInt16.ofNat _).toNat + _ = _
    rw [UInt16.toNat_ofNat', btreePageCapacity_eq]
    omega

theorem Holds.drop_holds {xs rs : List KvPair} (h : Holds src (xs ++ rs))
    (dst : BtreePage) (dstPageId : UInt32) : Holds (movedPage src dst dstPageId xs rs) rs := by
  have hfree := h.freeSpace
  have hlength := h.length_lt
  rw [totalSize_append] at hfree
  rw [length_append] at hlength
  rw [movedPage, h.slice_totalSize]
  refine ⟨?_, ⟨dst.data.bytes.drop (encodePairs rs).length, ?_⟩, ?_, ?_⟩
  · intro p hp
    exact h.fits p (by simp [hp])
  · have hlen := length_encodePairs rs
    have hblit := Block.blit_bytes (b := dst.data) (i := 0)
      (show 0 + (encodePairs rs).length ≤ btreePageCapacity by omega)
    simpa using hblit
  · change (UInt16.ofNat rs.length).toNat = _
    rw [UInt16.toNat_ofNat']
    omega
  · change (UInt16.ofNat _).toNat + _ = _
    rw [btreePageCapacity_eq] at hfree ⊢
    rw [UInt16.toNat_ofNat']
    omega

section Equations

variable {ls rs : List KvPair} {q : KvPair} {sepOutSize : ℕ}

theorem Holds.split_numbers (h : Holds src (ls ++ q :: rs)) :
    totalSize (ls ++ q :: rs) = totalSize ls + q.size + totalSize rs ∧
      totalSize (ls ++ [q]) = totalSize ls + q.size ∧ src.keyCount = ls.length + 1 + rs.length ∧
      totalSize ls + q.size + totalSize rs - (totalSize ls + q.size) =
        totalSize rs ∧ totalSize rs ≤ btreePageCapacity ∧
      q.size = kvPairSize + q.key.length + q.value.length := by
  have hcount := h.keyCount
  have hfree := h.freeSpace
  have htotal : totalSize (ls ++ q :: rs) = totalSize ls + q.size + totalSize rs := by
    simp [Nat.add_assoc]
  rw [length_append, length_cons] at hcount
  exact ⟨htotal, by simp, by omega, by omega, by omega, rfl⟩

theorem btreeSplitPage_leaf_eq (h : Holds src (ls ++ [q] ++ rs))
    (htype : src.header.pageType = pageTypeLeaf) (hrs : rs ≠ [])
    (hmid : chooseSplitIndex src (totalSize (ls ++ [q] ++ rs)) = some (ls ++ [q]).length)
    (hkey : q.key.length ≤ sepOutSize) (dst : BtreePage) (dstPageId : UInt32) :
    btreeSplitPage src dst dstPageId sepOutSize = some (keptPage src dstPageId (ls ++ [q]),
        movedPage src dst dstPageId (ls ++ [q]) rs, q.key) := by
  have hsplitOffset := h.entryOffset
  rw [append_assoc, singleton_append] at h hmid hsplitOffset
  obtain ⟨htotal, hleft, hcount, hrightBytes, hcapacity, hsize⟩ := h.split_numbers
  have hat := h.pairAt
  have hsepOffset := h.entryOffset
  have hrsPos : 0 < rs.length := length_pos_iff.mpr hrs
  have hlength : (ls ++ [q]).length = ls.length + 1 := by simp
  rw [keptPage, movedPage]
  rw [hlength] at hmid hsplitOffset ⊢
  rw [hleft] at hsplitOffset ⊢
  rw [htotal] at hmid hsepOffset hsplitOffset
  have hrightCount : src.keyCount - (ls.length + 1) = rs.length := by omega
  simp only [btreeSplitPage, htype, h.btreeUsedBytes, htotal, hmid,
    beq_self_eq_true, if_true, Nat.add_sub_cancel, hsepOffset, hsplitOffset,
    hat.kvKeyLength, hat.kvKey, hrightCount, hrightBytes, hcapacity,
    Option.bind_eq_bind, Option.pure_def, Option.bind_some]
  rw [guard_bind_of_pos (by omega), guard_bind_of_pos (by omega),
    guard_bind_of_pos (by omega), guard_bind_of_pos (by omega),
    guard_bind_of_pos (by omega), guard_bind_of_pos (.inl trivial),
    guard_bind_of_pos (by omega), guard_bind_of_pos trivial]

theorem btreeSplitPage_internal_eq (h : Holds src (ls ++ q :: rs))
    (htype : src.header.pageType ≠ pageTypeLeaf)
    (hmid : chooseSplitIndex src (totalSize (ls ++ q :: rs)) = some ls.length)
    (hkey : q.key.length ≤ sepOutSize) (dst : BtreePage) (dstPageId : UInt32) :
    btreeSplitPage src dst dstPageId sepOutSize = some (keptPage src q.child ls,
        movedPage src dst dstPageId (ls ++ [q]) rs, q.key) := by
  obtain ⟨htotal, hleft, hcount, hrightBytes, hcapacity, hsize⟩ := h.split_numbers
  have hat := h.pairAt
  have hoffset := h.entryOffset
  rw [keptPage, movedPage, hleft]
  rw [htotal] at hmid hoffset
  have hrightCount : src.keyCount - ls.length - 1 = rs.length := by omega
  have hbeq : (src.header.pageType == pageTypeLeaf) = false := by simpa using htype
  simp only [btreeSplitPage, hbeq, h.btreeUsedBytes, htotal, hmid,
    Bool.false_eq_true, if_false, hoffset, hat.kvKeyLength, hat.kvKey,
    hat.kvChildPageId, hat.pairSize, hrightCount, hrightBytes, hcapacity,
    Option.bind_eq_bind, Option.pure_def, Option.bind_some]
  rw [guard_bind_of_pos (by omega), guard_bind_of_pos (by omega),
    guard_bind_of_pos (by omega), guard_bind_of_pos (by omega),
    guard_bind_of_pos (by omega), guard_bind_of_pos (by omega),
    guard_bind_of_pos (by omega), guard_bind_of_pos trivial]

end Equations

/-! ## Splitting a full page -/

/-- A pair `db_insert` may store in a leaf. -/
def KvPair.LeafLegal (p : KvPair) : Prop :=
  0 < p.key.length ∧ p.key.length ≤ maxKeySize ∧ p.value.length ≤ maxValueSize

/-- A separator as `insert_separator` stores it: a key and no value. -/
def KvPair.SepLegal (p : KvPair) : Prop :=
  p.key.length ≤ maxKeySize ∧ p.value = []

theorem KvPair.LeafLegal.size_le (h : p.LeafLegal) : p.size ≤ 1288 := by
  obtain ⟨-, hkey, hvalue⟩ := h
  simp only [maxKeySize, maxValueSize] at hkey hvalue
  simp only [KvPair.size, kvPairSize]
  omega

theorem KvPair.LeafLegal.fits (h : p.LeafLegal) : p.Fits := by
  obtain ⟨-, hkey, hvalue⟩ := h
  simp only [maxKeySize, maxValueSize] at hkey hvalue
  exact ⟨by omega, by omega⟩

theorem KvPair.SepLegal.size_le (h : p.SepLegal) : p.size ≤ 264 := by
  obtain ⟨hkey, hvalue⟩ := h
  simp only [maxKeySize] at hkey
  simp only [KvPair.size, kvPairSize, hvalue, length_nil]
  omega

theorem KvPair.SepLegal.fits (h : p.SepLegal) : p.Fits := by
  obtain ⟨hkey, hvalue⟩ := h
  simp only [maxKeySize] at hkey
  refine ⟨by omega, ?_⟩
  simp [hvalue]

/-- A leaf without room for some legal pair can be split; its right part is
not empty and takes at most half of the bytes. -/
theorem exists_btreeSplitPage_leaf (h : Holds src ps) (htype : src.header.pageType = pageTypeLeaf)
    (hlegal : ∀ p ∈ ps, p.LeafLegal) (hfull : src.freeSpace < 1288)
    (dst : BtreePage) (dstPageId : UInt32) :
    ∃ ls q rs src' dst', ps = ls ++ [q] ++ rs ∧ rs ≠ [] ∧
      btreeSplitPage src dst dstPageId maxKeySize = some (src', dst', q.key) ∧
      Holds src' (ls ++ [q]) ∧ Holds dst' rs ∧ src'.header.pageType = pageTypeLeaf ∧
      dst'.header.pageType = pageTypeLeaf ∧ src'.header.nextPageId = dstPageId ∧
      dst'.header.nextPageId = src.header.nextPageId ∧
      2 * totalSize (ls ++ [q]) ≤ totalSize ps + 2574 ∧ 2 * totalSize rs ≤ totalSize ps + 1 := by
  have hsizes : ∀ p ∈ ps, p.size ≤ 1288 := fun p hp => (hlegal p hp).size_le
  have hfree := h.freeSpace
  rw [btreePageCapacity_eq] at hfree
  have hlen : 2 ≤ ps.length := by
    have hle := totalSize_le_of_forall ps hsizes
    omega
  obtain ⟨mid, hmid, hindex⟩ := h.chooseSplitIndex hlen
  have hhalf := hindex.half_le_totalSize_take hsizes (by omega)
  have hupper := hindex.totalSize_take_le hsizes (by omega)
  obtain ⟨ls, q, rs, rfl, rfl, hrs⟩ := hindex.exists_leaf_parts
  have htake := @take_left _ (ls ++ [q]) rs
  have hq : q ∈ ls ++ [q] ++ rs := by simp
  have hqSize := hsizes q hq
  have htotal : totalSize (ls ++ [q] ++ rs) =
      totalSize (ls ++ [q]) + totalSize rs := totalSize_append _ _
  have hone : (ls ++ [q]).length = 1 → totalSize (ls ++ [q]) ≤ 1288 := by
    intro hlength
    have hls : ls = [] := by
      rw [length_append, length_singleton] at hlength
      exact length_eq_zero_iff.mp (by omega)
    simpa [hls] using hqSize
  rw [htake] at hhalf hupper
  have hsrc := h.take_holds (ls ++ [q]).length dstPageId
  rw [htake] at hsrc
  refine ⟨ls, q, rs, _, _, rfl, hrs,
    btreeSplitPage_leaf_eq h htype hrs hmid (hlegal q hq).2.1 dst dstPageId,
    hsrc, h.drop_holds dst dstPageId, htype, htype, rfl, rfl, ?_, by omega⟩
  rcases hupper with hupper | hupper
  · omega
  · have hsmall := hone hupper
    omega

/-- A full internal page can be split; both parts keep at least six
separators and have room for many more. -/
theorem exists_btreeSplitPage_internal (h : Holds src ps)
    (htype : src.header.pageType = pageTypeInternal)
    (hlegal : ∀ p ∈ ps, p.SepLegal) (hfull : src.freeSpace < 264)
    (dst : BtreePage) (dstPageId : UInt32) :
    ∃ ls q rs src' dst', ps = ls ++ q :: rs ∧ btreeSplitPage src dst dstPageId maxKeySize =
        some (src', dst', q.key) ∧ Holds src' ls ∧ Holds dst' rs ∧
      src'.header.pageType = pageTypeInternal ∧ dst'.header.pageType = pageTypeInternal ∧
      src'.header.nextPageId = q.child ∧ dst'.header.nextPageId = src.header.nextPageId ∧
      6 ≤ ls.length ∧ 6 ≤ rs.length ∧ 1748 ≤ src'.freeSpace ∧ 1748 ≤ dst'.freeSpace := by
  have hsizes : ∀ p ∈ ps, p.size ≤ 264 := fun p hp => (hlegal p hp).size_le
  have hfree := h.freeSpace
  rw [btreePageCapacity_eq] at hfree
  have hlen : 2 ≤ ps.length := by
    have hle := totalSize_le_of_forall ps hsizes
    omega
  obtain ⟨mid, hmid, hindex⟩ := h.chooseSplitIndex hlen
  have hhalf := hindex.half_le_totalSize_take hsizes (by omega)
  have hupper := hindex.totalSize_take_le hsizes (by omega)
  obtain ⟨ls, q, rs, rfl, rfl⟩ := hindex.exists_internal_parts
  have htake := @take_left _ ls (q :: rs)
  have hleft := totalSize_le_of_forall ls fun p hp => hsizes p (by simp [hp])
  have hright := totalSize_le_of_forall rs fun p hp => hsizes p (by simp [hp])
  have hqSize := hsizes q (by simp)
  have htotal : totalSize (ls ++ q :: rs) = totalSize ls + (q.size + totalSize rs) := by simp
  have htypeNe : src.header.pageType ≠ pageTypeLeaf := by
    rw [htype]
    decide
  rw [htake] at hhalf hupper
  have hsrc := h.take_holds ls.length q.child
  rw [htake] at hsrc
  have hdst := (show Holds src ((ls ++ [q]) ++ rs) by simpa using h).drop_holds dst dstPageId
  have hroom : ∀ {page : BtreePage} {ps : List KvPair}, Holds page ps →
      totalSize ps ≤ 2276 → 1748 ≤ page.freeSpace := by
    intro page ps hpage hle
    have hpageFree := hpage.freeSpace
    rw [btreePageCapacity_eq] at hpageFree
    omega
  exact ⟨ls, q, rs, _, _, rfl, btreeSplitPage_internal_eq h htypeNe hmid (hlegal q (by simp)).1 dst
      dstPageId, hsrc, hdst, htype, htype, rfl, rfl, by omega, by omega,
    hroom hsrc (by omega), hroom hdst (by omega)⟩

/-! ## No pair is lost -/

/-- A split of a page with at least two pairs succeeds and loses nothing.  A
leaf's pairs are shared out between the two pages, and the separator is the last
key that stays.  An internal page gives up one pair: its key is the separator,
its child becomes the rightmost child of the page that stays, and the old
rightmost child goes to the new page. -/
theorem btreeSplitPage_keeps_pairs {src : BtreePage} {ps : List KvPair}
    (h : Holds src ps) (hkeys : ∀ p ∈ ps, p.key.length ≤ maxKeySize)
    (hlen : 2 ≤ ps.length) (dst : BtreePage) (dstPageId : UInt32) :
    ∃ src' dst' sep left right,
      btreeSplitPage src dst dstPageId maxKeySize = some (src', dst', sep) ∧
      Holds src' left ∧ Holds dst' right ∧
      dst'.header.nextPageId = src.header.nextPageId ∧
      (src.header.pageType = pageTypeLeaf →
        left ++ right = ps ∧ left ≠ [] ∧ right ≠ [] ∧
          left.getLast?.map KvPair.key = some sep ∧
          src'.header.nextPageId = dstPageId) ∧
      (src.header.pageType ≠ pageTypeLeaf →
        ∃ q, left ++ q :: right = ps ∧ q.key = sep ∧
          q.child = src'.header.nextPageId) ∧
      (∃ p ∈ ps, totalSize left ≤ totalSize ps / 2 + p.size) ∧
      ∃ p ∈ ps, totalSize right ≤ totalSize ps / 2 + p.size := by
  obtain ⟨mid, hmid, hindex⟩ := h.chooseSplitIndex hlen
  have hleft := hindex.exists_left_le
  have hright := hindex.exists_right_le
  by_cases htype : src.header.pageType = pageTypeLeaf
  · obtain ⟨ls, q, rs, rfl, rfl, hrs⟩ := hindex.exists_leaf_parts
    rw [take_left] at hleft
    rw [drop_left] at hright
    have hsrc := h.take_holds (ls ++ [q]).length dstPageId
    rw [take_left] at hsrc
    refine ⟨_, _, _, ls ++ [q], rs, btreeSplitPage_leaf_eq h htype hrs hmid
      (hkeys q (by simp)) dst dstPageId, hsrc, h.drop_holds dst dstPageId, rfl,
      ?_, fun hne => absurd htype hne, hleft, hright⟩
    intro _
    refine ⟨rfl, by simp, hrs, ?_, rfl⟩
    rw [List.getLast?_concat]
    rfl
  · obtain ⟨ls, q, rs, rfl, rfl⟩ := hindex.exists_internal_parts
    rw [take_left] at hleft
    rw [drop_left] at hright
    have hsrc := h.take_holds ls.length q.child
    rw [take_left] at hsrc
    have h' : Holds src ((ls ++ [q]) ++ rs) := by simpa using h
    obtain ⟨p, hp, hsize⟩ := hright
    rw [totalSize_cons] at hsize
    exact ⟨_, _, _, ls, rs, btreeSplitPage_internal_eq h htype hmid
      (hkeys q (by simp)) dst dstPageId, hsrc, h'.drop_holds dst dstPageId, rfl,
      fun heq => absurd heq htype, fun _ => ⟨q, rfl, rfl, rfl⟩, hleft, p, hp, by omega⟩

theorem btreeSplitPage_keeps_two_pairs :
    let ps : List KvPair := [⟨[97], [1], 0⟩, ⟨[98], [2, 3], 0⟩]
    Holds (pageOf pageTypeLeaf ps) ps ∧
      ∃ src' dst' sep left right,
        btreeSplitPage (pageOf pageTypeLeaf ps) BtreePage.zero 7 maxKeySize =
          some (src', dst', sep) ∧
        Holds src' left ∧ Holds dst' right ∧ left ++ right = ps := by
  intro ps
  have hholds : Holds (pageOf pageTypeLeaf ps) ps :=
    holds_pageOf pageTypeLeaf (by decide) (by decide)
  obtain ⟨src', dst', sep, left, right, hrun, hsrc, hdst, -, hleaf, -⟩ :=
    btreeSplitPage_keeps_pairs hholds (by decide) (by decide) BtreePage.zero 7
  exact ⟨hholds, src', dst', sep, left, right, hrun, hsrc, hdst, (hleaf rfl).1⟩

end Codo.Storage
