import Codo.Storage.Page
import Codo.Support.File

/-!
# Page images on disk

The bytes of a `btree_page_t`, field after field in the layout of the
structure, and the place of page `id` in the data file.
-/

namespace Codo.Storage

open Codo.Support

namespace BtreePage

/-- The bytes of `page_header_t`. -/
def headerBytes (page : BtreePage) : Bytes :=
  leBytes 4 page.header.pageId.toNat ++ (leBytes 4 page.header.pageType.toNat ++
      (leBytes 2 page.header.keyCount.toNat ++ (leBytes 2 page.header.freeSpace.toNat ++
          (leBytes 4 page.header.reserved0.toNat ++ (leBytes 4 page.header.nextPageId.toNat ++
              (leBytes 4 page.header.prevPageId.toNat ++ (leBytes 8 page.header.lsn.toNat ++
                  (leBytes 4 page.header.checksum.toNat ++ page.header.reserved.bytes))))))))

def toBytes (page : BtreePage) : Bytes :=
  page.headerBytes ++ page.data.bytes

def ofBytes (bs : Bytes) : BtreePage where
  header :=
    { pageId := UInt32.ofNat (leValue (slice bs 0 4))
      pageType := UInt32.ofNat (leValue (slice bs 4 4))
      keyCount := UInt16.ofNat (leValue (slice bs 8 2))
      freeSpace := UInt16.ofNat (leValue (slice bs 10 2))
      reserved0 := UInt32.ofNat (leValue (slice bs 12 4))
      nextPageId := UInt32.ofNat (leValue (slice bs 16 4))
      prevPageId := UInt32.ofNat (leValue (slice bs 20 4))
      lsn := UInt64.ofNat (leValue (slice bs 24 8))
      checksum := UInt32.ofNat (leValue (slice bs 32 4))
      reserved := Block.ofBytes 36 (slice bs 36 36) }
  data := Block.ofBytes btreePageCapacity (slice bs 72 btreePageCapacity)

@[simp] theorem length_toBytes (page : BtreePage) : page.toBytes.length = pageSize := by
  have hreserved := page.header.reserved.length_eq
  have hdata := page.data.length_eq
  rw [toBytes, headerBytes]
  simp only [List.length_append, length_leBytes, hreserved, hdata]
  rfl

theorem toBytes_ne_nil (page : BtreePage) : page.toBytes ≠ [] := by
  intro hnil
  have hlen := page.length_toBytes
  rw [hnil] at hlen
  cases hlen

theorem ofBytes_toBytes (page : BtreePage) : ofBytes page.toBytes = page := by
  obtain ⟨⟨pageId, pageType, keyCount, freeSpace, reserved0, nextPageId,
    prevPageId, lsn, checksum, reserved⟩, data⟩ := page
  generalize hbs : toBytes _ = bs
  have h0 : bs.drop 0 = leBytes 4 pageId.toNat ++
      (leBytes 4 pageType.toNat ++ (leBytes 2 keyCount.toNat ++
        (leBytes 2 freeSpace.toNat ++ (leBytes 4 reserved0.toNat ++
          (leBytes 4 nextPageId.toNat ++ (leBytes 4 prevPageId.toNat ++
            (leBytes 8 lsn.toNat ++ (leBytes 4 checksum.toNat ++
              (reserved.bytes ++ (data.bytes ++ [])))))))))) := by
    rw [← hbs, toBytes, headerBytes]
    simp
  obtain ⟨e0, h4⟩ := word_of_drop_eq h0
  obtain ⟨e4, h8⟩ := word_of_drop_eq h4
  obtain ⟨e8, h10⟩ := word_of_drop_eq h8
  obtain ⟨e10, h12⟩ := word_of_drop_eq h10
  obtain ⟨e12, h16⟩ := word_of_drop_eq h12
  obtain ⟨e16, h20⟩ := word_of_drop_eq h16
  obtain ⟨e20, h24⟩ := word_of_drop_eq h20
  obtain ⟨e24, h32⟩ := word_of_drop_eq h24
  obtain ⟨e32, h36⟩ := word_of_drop_eq h32
  have h72 := drop_add_of_drop_eq h36
  have e36 := slice_of_drop_eq h36
  have e72 := slice_of_drop_eq h72
  simp only [reserved.length_eq, data.length_eq, Nat.zero_add, Nat.reduceAdd]
    at e0 e4 e8 e10 e12 e16 e20 e24 e32 e36 e72
  have h32bit : ∀ n : UInt32, UInt32.ofNat (leValue (leBytes 4 n.toNat)) = n := by
    intro n
    rw [leValue_leBytes_of_lt n.toNat_lt, UInt32.ofNat_toNat]
  have h16bit : ∀ n : UInt16, UInt16.ofNat (leValue (leBytes 2 n.toNat)) = n := by
    intro n
    rw [leValue_leBytes_of_lt n.toNat_lt, UInt16.ofNat_toNat]
  have h64bit : ∀ n : UInt64, UInt64.ofNat (leValue (leBytes 8 n.toNat)) = n := by
    intro n
    rw [leValue_leBytes_of_lt n.toNat_lt, UInt64.ofNat_toNat]
  simp only [ofBytes, e0, e4, e8, e10, e12, e16, e20, e24, e32, e36, e72,
    h32bit, h16bit, h64bit, Block.ofBytes_bytes]

theorem toBytes_ofBytes {bs : Bytes} (h : bs.length = pageSize) : (ofBytes bs).toBytes = bs := by
  have hlen : ∀ i w, i + w ≤ pageSize → (slice bs i w).length = w := by
    intro i w hle
    exact length_slice_of_le (h ▸ hle)
  have hword : ∀ i w, i + w ≤ pageSize → leBytes w (leValue (slice bs i w)) = slice bs i w := by
    intro i w hle
    have hback := leBytes_leValue (slice bs i w)
    rwa [hlen i w hle] at hback
  have hlt : ∀ i w, i + w ≤ pageSize → leValue (slice bs i w) < 256 ^ w := by
    intro i w hle
    have hbound := leValue_lt (slice bs i w)
    rwa [hlen i w hle] at hbound
  have h16 : ∀ i, i + 2 ≤ pageSize → leBytes 2
      (UInt16.ofNat (leValue (slice bs i 2))).toNat = slice bs i 2 := by
    intro i hle
    rw [UInt16.toNat_ofNat_of_lt' (hlt i 2 hle), hword i 2 hle]
  have h32 : ∀ i, i + 4 ≤ pageSize → leBytes 4
      (UInt32.ofNat (leValue (slice bs i 4))).toNat = slice bs i 4 := by
    intro i hle
    rw [UInt32.toNat_ofNat_of_lt' (hlt i 4 hle), hword i 4 hle]
  have h64 : ∀ i, i + 8 ≤ pageSize → leBytes 8
      (UInt64.ofNat (leValue (slice bs i 8))).toNat = slice bs i 8 := by
    intro i hle
    rw [UInt64.toNat_ofNat_of_lt' (hlt i 8 hle), hword i 8 hle]
  have hreserved := Block.bytes_ofBytes (hlen 36 36 (by decide))
  have hdata := Block.bytes_ofBytes (hlen 72 btreePageCapacity (by decide))
  have hall : slice bs 0 pageSize = bs := by rw [slice, List.drop_zero, ← h, List.take_length]
  rw [toBytes, headerBytes]
  simp only [ofBytes]
  rw [h32 0 (by decide), h32 4 (by decide), h16 8 (by decide),
    h16 10 (by decide), h32 12 (by decide), h32 16 (by decide),
    h32 20 (by decide), h64 24 (by decide), h32 32 (by decide), hreserved,
    hdata, slice_append_slice bs 32, slice_append_slice bs 24,
    slice_append_slice bs 20, slice_append_slice bs 16,
    slice_append_slice bs 12, slice_append_slice bs 10,
    slice_append_slice bs 8, slice_append_slice bs 4,
    slice_append_slice bs 0, slice_append_slice bs 0]
  exact hall

end BtreePage

/-- The offset of page `id`, computed in an `off_t`. -/
def pageOffset (id : UInt32) : ℕ :=
  id.toNat * pageSize

/-- The data file holds `page` as page `id`. -/
def OnDisk (file : Bytes) (id : UInt32) (page : BtreePage) : Prop :=
  HoldsAt file (pageOffset id) page.toBytes

section OnDisk

variable {file : Bytes} {id id' : UInt32} {page page' : BtreePage}

theorem pageOffset_apart (h : id' ≠ id) :
    pageOffset id' + pageSize ≤ pageOffset id ∨ pageOffset id + pageSize ≤ pageOffset id' := by
  have hne : id'.toNat ≠ id.toNat := fun heq => h (UInt32.toNat.inj heq)
  rw [pageOffset, pageOffset, pageSize]
  omega

theorem OnDisk.length_le (h : OnDisk file id page) : pageOffset id + pageSize ≤ file.length := by
  have hle := HoldsAt.length_le h page.toBytes_ne_nil
  rwa [page.length_toBytes] at hle

theorem OnDisk.ofBytes_slice (h : OnDisk file id page) :
    BtreePage.ofBytes (slice file (pageOffset id) pageSize) = page := by
  rw [OnDisk, HoldsAt, page.length_toBytes] at h
  rw [h, BtreePage.ofBytes_toBytes]

theorem OnDisk.pwriteLoop_of_ne (h : OnDisk file id' page') (hne : id' ≠ id)
    (page : BtreePage) (results : List WriteResult) :
    OnDisk (pwriteLoop results file (pageOffset id) page.toBytes).file id' page' := by
  refine .pwriteLoop h ?_
  rw [page'.length_toBytes, page.length_toBytes]
  exact pageOffset_apart hne

theorem OnDisk.pwriteOnce_of_ne (h : OnDisk file id' page') (hne : id' ≠ id)
    (page : BtreePage) (results : List WriteResult) :
    OnDisk (pwriteOnce results file (pageOffset id) page.toBytes).file id' page' := by
  refine .pwriteOnce h ?_
  rw [page'.length_toBytes, page.length_toBytes]
  exact pageOffset_apart hne

theorem onDisk_ofBytes_slice (h : pageOffset id + pageSize ≤ file.length) :
    OnDisk file id (BtreePage.ofBytes (slice file (pageOffset id) pageSize)) := by
  have hlen : (slice file (pageOffset id) pageSize).length = pageSize := length_slice_of_le h
  rw [OnDisk, HoldsAt, BtreePage.toBytes_ofBytes hlen, hlen]

end OnDisk

end Codo.Storage
