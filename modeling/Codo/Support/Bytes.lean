import Mathlib.Data.List.Basic
import Mathlib.Data.List.Lex
import Mathlib.Data.List.TakeDrop
import Mathlib.Data.UInt
import Mathlib.Tactic.Ring
import Mathlib.Tactic.NormNum

/-!
# Byte strings, little-endian words and fixed-size memory blocks

Memory is modelled by byte lists.  A word of `w` bytes is stored least
significant byte first.  A `Block n` is a region of exactly `n` bytes; its
only update is `Block.blit`, which overwrites a range and keeps the size.
Bytes are compared as unsigned numbers, byte strings lexicographically.
-/

namespace Codo.Support

open List

variable {bs : Bytes} {w n i : ℕ}

abbrev Bytes := List UInt8

instance linearOrderUInt8 : LinearOrder UInt8 where
  le_refl _ := UInt8.le_refl _
  le_trans _ _ _ := UInt8.le_trans
  lt_iff_le_not_ge a b := by
    rw [UInt8.lt_iff_toNat_lt, UInt8.le_iff_toNat_le, UInt8.le_iff_toNat_le]
    omega
  le_antisymm _ _ := UInt8.le_antisymm
  le_total := UInt8.le_total
  toDecidableLE := inferInstance

theorem forall_mem_of_all {p : UInt8 → Prop} [DecidablePred p]
    (h : bs.all (fun b => decide (p b)) = true) : ∀ b ∈ bs, p b := by
  simpa only [all_eq_true, decide_eq_true_eq] using h

/-- The `w` low-order bytes of `n`, least significant first. -/
def leBytes : ℕ → ℕ → Bytes
  | 0, _ => []
  | w + 1, n => UInt8.ofNat n :: leBytes w (n / 256)

/-- The number a little-endian byte string denotes. -/
def leValue : Bytes → ℕ
  | [] => 0
  | b :: bs => b.toNat + 256 * leValue bs

@[simp] theorem length_leBytes (w n : ℕ) : (leBytes w n).length = w := by
  induction w generalizing n with
  | zero => rfl
  | succ w ih => simp [leBytes, ih]

theorem leValue_leBytes (w n : ℕ) : leValue (leBytes w n) = n % 256 ^ w := by
  induction w generalizing n with
  | zero => simp [leBytes, leValue, Nat.mod_one]
  | succ w ih =>
    have hsplit : n % 256 ^ (w + 1) = n % 256 + 256 * (n / 256 % 256 ^ w) := by
      rw [pow_succ', Nat.mod_mul]
    rw [leBytes, leValue, ih, UInt8.toNat_ofNat', hsplit]

theorem leValue_leBytes_of_lt (hn : n < 256 ^ w) : leValue (leBytes w n) = n := by
  rw [leValue_leBytes, Nat.mod_eq_of_lt hn]

theorem leValue_lt (bs : Bytes) : leValue bs < 256 ^ bs.length := by
  induction bs with
  | nil => simp [leValue]
  | cons b bs ih =>
    have hb : b.toNat < 256 := b.toNat_lt
    rw [leValue, length_cons, pow_succ]
    omega

theorem leBytes_leValue (bs : Bytes) : leBytes bs.length (leValue bs) = bs := by
  induction bs with
  | nil => rfl
  | cons b bs ih =>
    have hb : b.toNat < 256 := b.toNat_lt
    have hlow : UInt8.ofNat (b.toNat + 256 * leValue bs) = b := by
      apply UInt8.toNat_inj.mp
      rw [UInt8.toNat_ofNat']
      omega
    have hhigh : (b.toNat + 256 * leValue bs) / 256 = leValue bs := by omega
    rw [leValue, length_cons, leBytes, hlow, hhigh, ih]

/-- The `w` low-order bytes of `n`, most significant first. -/
def beBytes : ℕ → ℕ → Bytes
  | 0, _ => []
  | w + 1, n => UInt8.ofNat (n / 256 ^ w) :: beBytes w n

@[simp] theorem length_beBytes (w n : ℕ) : (beBytes w n).length = w := by
  induction w with
  | zero => rfl
  | succ w ih => simp [beBytes, ih]

/-- The number that bytes denote, most significant first. -/
def beValue (bs : Bytes) : ℕ :=
  bs.foldl (fun n b => n * 256 + b.toNat) 0

theorem foldl_beBytes (w n k : ℕ) :
    (beBytes w n).foldl (fun n b => n * 256 + b.toNat) k = k * 256 ^ w + n % 256 ^ w := by
  induction w generalizing k with
  | zero => simp [beBytes, Nat.mod_one]
  | succ w ih =>
    rw [beBytes, foldl_cons, ih]
    have hbyte : (UInt8.ofNat (n / 256 ^ w)).toNat = n / 256 ^ w % 256 := by simp
    have hsplit : n % 256 ^ (w + 1) = n % 256 ^ w + 256 ^ w * (n / 256 ^ w % 256) := by
      rw [pow_succ, Nat.mod_mul]
    rw [hbyte, hsplit]
    ring

theorem beValue_beBytes (hn : n < 256 ^ w) : beValue (beBytes w n) = n := by
  rw [beValue, foldl_beBytes, Nat.zero_mul, Nat.zero_add, Nat.mod_eq_of_lt hn]

/-- Big-endian words are ordered like the numbers, whatever follows them. -/
theorem beBytes_append_lt {j : ℕ} (h : i % 256 ^ w < j % 256 ^ w) (u v : Bytes) :
    beBytes w i ++ u < beBytes w j ++ v := by
  induction w with
  | zero => simp [Nat.mod_one] at h
  | succ w ih =>
    rw [pow_succ, Nat.mod_mul, Nat.mod_mul] at h
    rw [beBytes, beBytes, cons_append, cons_append, cons_lt_cons_iff]
    rcases Nat.lt_trichotomy (i / 256 ^ w % 256) (j / 256 ^ w % 256) with
      hlt | heq | hgt
    · left
      rw [UInt8.lt_iff_toNat_lt, UInt8.toNat_ofNat', UInt8.toNat_ofNat']
      exact hlt
    · right
      constructor
      · apply UInt8.toNat_inj.mp
        rw [UInt8.toNat_ofNat', UInt8.toNat_ofNat']
        exact heq
      · apply ih
        rw [heq] at h
        exact Nat.lt_of_add_lt_add_right h
    · exfalso
      have hlow : i % 256 ^ w < 256 ^ w := Nat.mod_lt _ (by positivity)
      have hlow' : j % 256 ^ w < 256 ^ w := Nat.mod_lt _ (by positivity)
      have hstep : 256 ^ w * (j / 256 ^ w % 256) + 256 ^ w ≤ 256 ^ w * (i / 256 ^ w % 256) := by
        rw [← Nat.mul_succ]
        exact Nat.mul_le_mul_left _ hgt
      omega

/-- The `n` bytes from offset `i` on (fewer at the end of the string). -/
def slice (bs : Bytes) (i n : ℕ) : Bytes :=
  (bs.drop i).take n

theorem length_slice_of_le (h : i + n ≤ bs.length) : (slice bs i n).length = n := by
  simp only [slice, length_take, length_drop]
  omega

theorem slice_append_slice (bs : Bytes) (i m n : ℕ) :
    slice bs i m ++ slice bs (i + m) n = slice bs i (m + n) := by
  rw [slice, slice, slice, take_add, drop_drop]

theorem slice_of_drop_eq {front rest : Bytes} (h : bs.drop i = front ++ rest) :
    slice bs i front.length = front := by
  rw [slice, h, take_left]

theorem drop_add_of_drop_eq {front rest : Bytes} (h : bs.drop i = front ++ rest) :
    bs.drop (i + front.length) = rest := by
  rw [← drop_drop, h, drop_left]

theorem word_of_drop_eq {k : ℕ} {rest : Bytes} (h : bs.drop i = leBytes n k ++ rest) :
    slice bs i n = leBytes n k ∧ bs.drop (i + n) = rest := by
  have hslice := slice_of_drop_eq h
  have hdrop := drop_add_of_drop_eq h
  rw [length_leBytes] at hslice hdrop
  exact ⟨hslice, hdrop⟩

theorem guard_bind_of_pos {α : Type} {P : Prop} [Decidable P] (h : P)
    (f : Unit → Option α) : (guard P : Option Unit).bind f = f () := by
  simp [guard, h]

/-- A memory region of exactly `n` bytes. -/
structure Block (n : ℕ) where
  bytes : Bytes
  length_eq : bytes.length = n
  deriving DecidableEq

namespace Block

variable {n : ℕ}
variable {b : Block n} {src front : Bytes}

@[ext] theorem ext {a b : Block n} (h : a.bytes = b.bytes) : a = b := by
  cases a
  cases b
  subst h
  rfl

theorem bytes_ne_nil (hn : n ≠ 0) (b : Block n) : b.bytes ≠ [] := by
  intro hnil
  exact hn (b.length_eq.symm.trans (congrArg List.length hnil))

/-- A block filled with zeros, as left by `memset(_, 0, n)`. -/
def zero (n : ℕ) : Block n where
  bytes := List.replicate n 0
  length_eq := length_replicate

/-- The first `n` bytes of a byte string, filled up with zeros. -/
def ofBytes (n : ℕ) (bs : Bytes) : Block n where
  bytes := (bs ++ List.replicate n 0).take n
  length_eq := by
    rw [length_take, length_append, length_replicate]
    omega

theorem ofBytes_bytes (b : Block n) : ofBytes n b.bytes = b := by
  apply ext
  rw [ofBytes]
  exact take_left' b.length_eq

theorem bytes_ofBytes (h : bs.length = n) : (ofBytes n bs).bytes = bs :=
  take_left' h

/-- Overwrite the bytes from offset `i` on by `src`.  A range that does not
lie inside the block is not written. -/
def blit (b : Block n) (i : ℕ) (src : Bytes) : Block n :=
  if h : i + src.length ≤ n then
    { bytes := b.bytes.take i ++ src ++ b.bytes.drop (i + src.length)
      length_eq := by
        have hb := b.length_eq
        simp only [length_append, length_take, length_drop]
        omega }
  else
    b

theorem blit_bytes (h : i + src.length ≤ n) :
    (b.blit i src).bytes = b.bytes.take i ++ src ++ b.bytes.drop (i + src.length) := by
  rw [blit, dif_pos h]

theorem take_blit_of_le {j : ℕ} (hji : j ≤ i) : (b.blit i src).bytes.take j = b.bytes.take j := by
  by_cases h : i + src.length ≤ n
  · have hb := b.length_eq
    rw [blit_bytes h, append_assoc, take_append_of_le_length, take_take, Nat.min_eq_left hji]
    rw [length_take]
    omega
  · rw [blit, dif_neg h]

theorem take_add_blit (h : i + src.length ≤ n) :
    (b.blit i src).bytes.take (i + src.length) = b.bytes.take i ++ src := by
  have hb := b.length_eq
  rw [blit_bytes h]
  apply take_left'
  simp only [length_append, length_take]
  omega

theorem drop_blit_of_le {j : ℕ} (h : i + src.length ≤ n) (hj : i + src.length ≤ j) :
    (b.blit i src).bytes.drop j = b.bytes.drop j := by
  have hb := b.length_eq
  have hlen : (b.bytes.take i ++ src).length = i + src.length := by
    simp only [length_append, length_take]
    omega
  rw [blit_bytes h, drop_append, hlen, drop_eq_nil_of_le (hlen.le.trans hj), nil_append,
    drop_drop, Nat.add_sub_cancel' hj]

theorem drop_self_blit (h : i + src.length ≤ n) :
    (b.blit i src).bytes.drop i = src ++ b.bytes.drop (i + src.length) := by
  have hb := b.length_eq
  rw [blit_bytes h, append_assoc]
  apply drop_left'
  rw [length_take]
  omega

theorem blit_front {rest : Bytes} (src : Bytes) (hb : b.bytes = front ++ rest)
    (h : front.length + src.length ≤ n) :
    (b.blit front.length src).bytes = front ++ src ++ rest.drop src.length := by
  rw [blit_bytes h, hb, take_left, ← drop_drop, drop_left]

/-- Opening a gap behind `front` and filling it keeps what follows. -/
theorem exists_tail_blit_insert {back tail : Bytes} (new : Bytes)
    (hb : b.bytes = front ++ (back ++ tail)) (h : front.length + new.length + back.length ≤ n) :
    ∃ tail', ((b.blit (front.length + new.length) back).blit
      front.length new).bytes = front ++ (new ++ (back ++ tail')) := by
  have hfront : (b.blit (front.length + new.length) back).bytes =
      front ++ (b.blit (front.length + new.length) back).bytes.drop front.length := by
    have htake : (b.blit (front.length + new.length) back).bytes.take front.length = front := by
      rw [take_blit_of_le (Nat.le_add_right _ _), hb, take_left]
    have hsplit := (take_append_drop front.length
      (b.blit (front.length + new.length) back).bytes).symm
    rwa [htake] at hsplit
  refine ⟨b.bytes.drop (front.length + new.length + back.length), ?_⟩
  rw [blit_front new hfront (by omega), drop_drop, drop_self_blit h, append_assoc]

/-- Closing the gap left by `old` keeps what follows. -/
theorem exists_tail_blit_remove {old back tail : Bytes}
    (hb : b.bytes = front ++ (old ++ (back ++ tail))) :
    ∃ tail', (b.blit front.length back).bytes = front ++ (back ++ tail') := by
  have hlen := congrArg List.length hb
  rw [b.length_eq] at hlen
  simp only [length_append] at hlen
  refine ⟨(old ++ (back ++ tail)).drop back.length, ?_⟩
  rw [blit_front back hb (by omega), append_assoc]

end Block

end Codo.Support
