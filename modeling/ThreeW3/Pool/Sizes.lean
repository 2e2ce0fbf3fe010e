/-
# Sizes of blocks and chunks

The arithmetic of `allocd`, `allocdz` and `mempool_new` on `size_t`, where additions wrap:
of which sizes the block or the chunk is large enough. A block from malloc(3) has the bytes
that were asked for, and no more is relied on.
-/

import ThreeW3.Pool.Model

namespace ThreeW3.Pool.Sizes

open ThreeW3.Lib

/-! ## Objects -/

/-- `sizeof(alloc_t)`: a counter, two functions, the attributes, and the data. -/
def sizeofAlloc : ℕ := 5 * ptrSize

/-- `sizeof(tca->data)` -/
def sizeofData : ℕ := ptrSize

/-- `offsetof(alloc_t, data)` -/
def allocDataOffset : ℕ := 4 * ptrSize

/-- A block from malloc(3): its bytes, and how many are cleared from `data` on. -/
structure Block where
  bytes : ℕ
  cleared : ℕ
  deriving DecidableEq, Repr

/-- `a - b` on `size_t` -/
def sizeSub (a b : ℕ) : ℕ := (a + (sizeModulus - b)) % sizeModulus

/-- `allocd`, where malloc(3) succeeds or not. -/
def allocd (size : ℕ) (succeeds : Bool) : Option Block :=
  if succeeds then some ⟨sizeSub ((size + sizeofAlloc) % sizeModulus) sizeofData, 0⟩ else none

/-- `allocdz` -/
def allocdz (size : ℕ) (succeeds : Bool) : Option Block :=
  (allocd size succeeds).map fun p => { p with cleared := size }

/-! ## Pools -/

/-- `offsetof(mempool_page_t, data)` -/
def pageDataOffset : ℕ := 6 * ptrSize

/-- `sizeof(mempool_t)`, with a mutex of 40 bytes. -/
def sizeofMempool : ℕ := 4 * ptrSize + 40

/-- What `mempool_new` writes to a `mempool_t`. -/
structure Mempool where
  size : ℕ
  cpp : ℕ
  deriving DecidableEq, Repr

/-- `mempool_new`. The outer `none` is a write through a null pointer or a division by zero,
the inner one the null pointer for a size that no page can hold. -/
def mempoolNew (pagesize size : ℕ) (succeeds : Bool) : Option (Option Mempool) :=
  let size := align size ptrSize
  if sizeSub pagesize pageDataOffset < size then some none
  else do
    let _ ← allocdz sizeofMempool succeeds
    if size = 0 then none else some (some ⟨size, sizeSub pagesize pageDataOffset / size⟩)

/-! ## Rounding -/

/-- Masking clears the low bits. -/
theorem and_not_low {n : ℕ} (hn : n < sizeModulus) : n &&& (sizeModulus - 8) = n / 8 * 8 := by
  have hmask : sizeModulus - 8 = (2 ^ 61 - 1) <<< 3 := by decide
  have hshift : n / 8 * 8 = (n >>> 3) <<< 3 := by
    rw [Nat.shiftLeft_eq, Nat.shiftRight_eq_div_pow]
  rw [hmask, hshift]
  refine Nat.eq_of_testBit_eq fun i => ?_
  rw [Nat.testBit_and, Nat.testBit_shiftLeft, Nat.testBit_shiftLeft, Nat.testBit_two_pow_sub_one,
    Nat.testBit_shiftRight]
  by_cases hi : 3 ≤ i
  · rw [Nat.add_sub_cancel' hi]
    by_cases hlt : i < 64
    · have hlow : i - 3 < 61 := by omega
      simp [hi, hlow]
    · have hbit : n.testBit i = false :=
        Nat.testBit_lt_two_pow (lt_of_lt_of_le hn (Nat.pow_le_pow_right (by omega) (by omega)))
      simp [hbit]
  · simp [hi]

theorem align_eq {size : ℕ} (hsize : size ≤ sizeModulus - 8) :
    align size ptrSize = (size + 7) / 8 * 8 := by
  have hlt : size + 7 < sizeModulus := by
    rw [sizeModulus] at *
    omega
  change (size + 7) % sizeModulus &&& (sizeModulus - 8) = _
  rw [Nat.mod_eq_of_lt hlt, and_not_low hlt]

/-- The largest sizes are rounded to zero. -/
theorem align_wraps {size : ℕ} (hlarge : sizeModulus - 8 < size) (hsize : size < sizeModulus) :
    align size ptrSize = 0 := by
  have hmod : (size + 7) % sizeModulus < 8 := by
    rw [sizeModulus] at *
    omega
  change (size + 7) % sizeModulus &&& (sizeModulus - 8) = _
  rw [and_not_low (lt_trans hmod (by decide)), Nat.div_eq_of_lt hmod]

theorem sizeSub_eq {a b : ℕ} (ha : a < sizeModulus) (hb : b ≤ a) : sizeSub a b = a - b := by
  rw [sizeSub, sizeModulus] at *
  omega

/-! ## What is large enough -/

/-- A null pointer, or enough bytes from `data` on. -/
def Enough (size : ℕ) (p : Option Block) : Prop := ∀ b ∈ p, allocDataOffset + size ≤ b.bytes

theorem allocd_enough_iff {size : ℕ} (hsize : size < sizeModulus) (succeeds : Bool) :
    Enough size (allocd size succeeds) ↔
      succeeds = false ∨ size + allocDataOffset < sizeModulus := by
  have hbytes : allocDataOffset + size ≤ sizeSub ((size + sizeofAlloc) % sizeModulus) sizeofData ↔
      size + allocDataOffset < sizeModulus := by
    simp only [sizeSub, allocDataOffset, sizeofAlloc, sizeofData, ptrSize, sizeModulus] at *
    omega
  cases succeeds <;> simp [Enough, allocd, hbytes]

theorem allocdz_enough_iff {size : ℕ} (hsize : size < sizeModulus) (succeeds : Bool) :
    Enough size (allocdz size succeeds) ↔
      succeeds = false ∨ size + allocDataOffset < sizeModulus := by
  rw [← allocd_enough_iff hsize]
  cases succeeds <;> simp [Enough, allocdz, allocd]

/-- A null pointer, or a pool with chunks that are large enough and fit into a page. -/
structure Sound (pagesize size : ℕ) (r : Option (Option Mempool)) : Prop where
  returns : r ≠ none
  aligned : ∀ mp ∈ r.join, ptrSize ∣ mp.size
  enough : ∀ mp ∈ r.join, size ≤ mp.size ∧ ptrSize ≤ mp.size
  fits : ∀ mp ∈ r.join, 1 ≤ mp.cpp ∧ pageDataOffset + mp.cpp * mp.size ≤ pagesize

/-- The cases of `mempool_new` -/
theorem mempoolNew_eq {pagesize : ℕ} (hpage : pageDataOffset < pagesize) (hlong : pagesize < 2 ^ 63)
    (size : ℕ) (succeeds : Bool) :
    mempoolNew pagesize size succeeds =
      if pagesize - pageDataOffset < align size ptrSize then some none
      else if succeeds = false ∨ align size ptrSize = 0 then none
      else some (some ⟨align size ptrSize,
        (pagesize - pageDataOffset) / align size ptrSize⟩) := by
  have hroom : sizeSub pagesize pageDataOffset = pagesize - pageDataOffset :=
    sizeSub_eq (lt_trans hlong (by decide)) hpage.le
  rw [mempoolNew]
  simp only [hroom]
  cases succeeds <;> simp [allocdz, allocd]

theorem mempoolNew_sound_iff {pagesize size : ℕ} (hsize : size < sizeModulus)
    (hpage : pageDataOffset < pagesize) (hlong : pagesize < 2 ^ 63) (succeeds : Bool) :
    Sound pagesize size (mempoolNew pagesize size succeeds) ↔
      0 < size ∧ size ≤ sizeModulus - 8 ∧
        (pagesize - pageDataOffset < (size + 7) / 8 * 8 ∨ succeeds = true) := by
  rw [mempoolNew_eq hpage hlong]
  have hfail : ¬ Sound pagesize size none := fun h => h.returns rfl
  by_cases hround : size ≤ sizeModulus - 8
  · rw [align_eq hround]
    by_cases hlarge : pagesize - pageDataOffset < (size + 7) / 8 * 8
    · rw [if_pos hlarge]
      refine ⟨fun _ => ⟨by omega, hround, .inl hlarge⟩, fun _ => ⟨by simp, ?_, ?_, ?_⟩⟩ <;> simp
    · rw [if_neg hlarge]
      by_cases hnone : succeeds = false ∨ (size + 7) / 8 * 8 = 0
      · rw [if_pos hnone, iff_false_left hfail]
        rintro ⟨hpos, -, hcase⟩
        rcases hnone with hnone | hnone
        · exact hcase.elim hlarge (by simp [hnone])
        · omega
      · rw [if_neg hnone]
        rw [not_or, Bool.not_eq_false] at hnone
        have hcpp : 1 ≤ (pagesize - pageDataOffset) / ((size + 7) / 8 * 8) :=
          Nat.div_pos (Nat.le_of_not_lt hlarge) (Nat.pos_of_ne_zero hnone.2)
        have hfits := Nat.div_mul_le_self (pagesize - pageDataOffset) ((size + 7) / 8 * 8)
        refine ⟨fun _ => ⟨by omega, hround, .inr hnone.1⟩, fun _ => ⟨by simp, ?_, ?_, ?_⟩⟩
        · simp [ptrSize]
        · simp [ptrSize]
          omega
        · simp
          omega
  · have hzero := align_wraps (Nat.lt_of_not_le hround) hsize
    rw [hzero, if_neg (Nat.not_lt_zero _), if_pos (.inr rfl)]
    exact ⟨fun h => absurd h hfail, fun h => absurd h.2.1 hround⟩

/-- With pages of a power of two this is `mempool_new` of the pool, where there is memory for
the pool. -/
theorem mempoolNew_layout {L : Layout} (hoffset : L.dataOffset = pageDataOffset)
    (hlong : L.pagesize < 2 ^ 63) (size : ℕ) :
    mempoolNew L.pagesize size true =
      (Pool.mempoolNew L size).map (Option.map fun G => ⟨G.size, G.cpp⟩) := by
  have hpage : pageDataOffset < L.pagesize := hoffset ▸ L.header_fits
  rw [mempoolNew_eq hpage hlong, Pool.mempoolNew]
  simp only [hoffset]
  split_ifs <;> simp_all

/-- Blocks and pools are large enough unless the sizes wrap. -/
theorem sizes_iff {pagesize size : ℕ} (hsize : size < sizeModulus)
    (hpage : pageDataOffset < pagesize) (hlong : pagesize < 2 ^ 63) (succeeds : Bool) :
    (Enough size (allocd size succeeds) ↔
      succeeds = false ∨ size + allocDataOffset < sizeModulus) ∧
    (Enough size (allocdz size succeeds) ↔
      succeeds = false ∨ size + allocDataOffset < sizeModulus) ∧
    (Sound pagesize size (mempoolNew pagesize size succeeds) ↔
      0 < size ∧ size ≤ sizeModulus - 8 ∧
        (pagesize - pageDataOffset < (size + 7) / 8 * 8 ∨ succeeds = true)) :=
  ⟨allocd_enough_iff hsize succeeds, allocdz_enough_iff hsize succeeds,
    mempoolNew_sound_iff hsize hpage hlong succeeds⟩

/-- Entries of 32 bytes in pages of 4096. -/
theorem entry_sizes :
    Enough 32 (allocd 32 true) ∧ Enough 32 (allocdz 32 true) ∧
      Sound 4096 32 (mempoolNew 4096 32 true) := by
  obtain ⟨hallocd, hallocdz, hpool⟩ :=
    @sizes_iff 4096 32 (by decide) (by decide) (by decide) true
  exact ⟨hallocd.mpr (by decide), hallocdz.mpr (by decide), hpool.mpr (by decide)⟩

/-- A request that wraps gets a block of no bytes, and chunks of almost 2^64 bytes and chunks
of none divide by zero. -/
theorem sizes_wrap :
    ¬ Enough (sizeModulus - 32) (allocd (sizeModulus - 32) true) ∧
      ¬ Enough (sizeModulus - 32) (allocdz (sizeModulus - 32) true) ∧
      ¬ Sound 4096 (sizeModulus - 1) (mempoolNew 4096 (sizeModulus - 1) true) ∧
      ¬ Sound 4096 0 (mempoolNew 4096 0 true) ∧
      ¬ Sound 4096 32 (mempoolNew 4096 32 false) := by
  refine ⟨fun h => ?_, fun h => ?_, fun h => h.returns rfl, fun h => h.returns rfl,
    fun h => h.returns rfl⟩
  · exact absurd (h ⟨0, 0⟩ (by decide)) (by decide)
  · exact absurd (h ⟨0, sizeModulus - 32⟩ (by decide)) (by decide)

end ThreeW3.Pool.Sizes
