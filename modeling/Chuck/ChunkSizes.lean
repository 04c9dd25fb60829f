import Chuck.ByteChunkModel
import Mathlib.Data.Nat.Bitwise

/-!
# Powers of two

`chk_size_of_pow2` spreads the highest bit of a number over all lower ones and
adds one. A chunk for such a size has exactly that capacity.
-/

namespace Chuck.ChunkSizes

open ByteChunkModel

def Spread (n y z : Nat) : Prop := ∀ i, z.testBit i = true ↔ ∃ j < n, y.testBit (i + j) = true

theorem spread_one (y : Nat) : Spread 1 y y := by
  intro i
  constructor
  · intro bit
    exact ⟨0, Nat.one_pos, bit⟩
  · rintro ⟨j, small, bit⟩
    obtain rfl : j = 0 := by omega
    exact bit

theorem Spread.shift {n y z m : Nat} (spread : Spread n y z) (near : m ≤ n) :
    Spread (n + m) y (z ||| z >>> m) := by
  intro i
  rw [Nat.testBit_or, Nat.testBit_shiftRight, Bool.or_eq_true, spread i, spread (m + i)]
  constructor
  · rintro (⟨j, small, bit⟩ | ⟨j, small, bit⟩)
    · exact ⟨j, by omega, bit⟩
    · exact ⟨m + j, by omega, by rwa [show i + (m + j) = m + i + j by omega]⟩
  · rintro ⟨j, small, bit⟩
    by_cases low : j < n
    · exact .inl ⟨j, low, bit⟩
    · exact .inr ⟨j - m, by omega, by rwa [show m + i + (j - m) = i + j by omega]⟩

theorem Spread.fills {y z : Nat} (spread : Spread 32 y z) (positive : y ≠ 0)
    (small : y < 2 ^ 32) : z = 2 ^ (Nat.log2 y + 1) - 1 := by
  have top : Nat.log2 y < 32 := (Nat.log2_lt positive).mpr small
  apply Nat.eq_of_testBit_eq
  intro i
  rw [Nat.testBit_two_pow_sub_one, Bool.eq_iff_iff, spread i, decide_eq_true_iff]
  constructor
  · rintro ⟨j, -, bit⟩
    by_contra high
    have above : y < 2 ^ (i + j) :=
      Nat.lt_log2_self.trans_le (Nat.pow_le_pow_right Nat.two_pos (by omega))
    rw [Nat.testBit_lt_two_pow above] at bit
    exact Bool.false_ne_true bit
  · intro low
    refine ⟨Nat.log2 y - i, by omega, ?_⟩
    rw [show i + (Nat.log2 y - i) = Nat.log2 y by omega]
    exact Nat.testBit_log2 positive

theorem is_pow2_two_pow (k : Nat) : isPow2 (2 ^ k) = true := by
  rw [isPow2, Nat.and_two_pow_sub_one_eq_mod, Nat.mod_self]
  rfl

/-- The least power of two that is not below a size, as a 32-bit number. -/
theorem size_of_pow2_eq {size : Nat} (positive : 1 ≤ size) (small : size < 2 ^ 32) :
    ∃ k ≤ 32, size ≤ 2 ^ k ∧ 2 ^ k < 2 * size ∧ sizeOfPow2 size = 2 ^ k % 2 ^ 32 := by
  by_cases already : isPow2 size
  · rw [sizeOfPow2, if_pos already]
    rw [isPow2, beq_iff_eq, Nat.and_sub_one_eq_zero_iff_isPowerOfTwo (by omega)] at already
    obtain ⟨k, rfl⟩ := already
    have top : k < 32 := (Nat.pow_lt_pow_iff_right (by omega)).mp small
    exact ⟨k, by omega, le_rfl, by omega, (Nat.mod_eq_of_lt small).symm⟩
  · have least : size - 1 ≠ 0 := by
      intro none
      obtain rfl : size = 1 := by omega
      exact already rfl
    have below : size - 1 < 2 ^ 32 := by omega
    have filled := (((((spread_one (size - 1)).shift (by omega)).shift
      (by omega)).shift (by omega)).shift
      (by omega)).shift (show 16 ≤ 1 + 1 + 2 + 4 + 8 by omega)
    have value := Spread.fills filled least below
    have low := Nat.log2_self_le least
    have high := @Nat.lt_log2_self (size - 1)
    refine ⟨Nat.log2 (size - 1) + 1, (Nat.log2_lt least).mpr below, by omega, ?_, ?_⟩
    · rw [Nat.pow_succ]
      omega
    · rw [sizeOfPow2, if_neg already]
      dsimp only
      rw [value, Nat.sub_add_cancel Nat.one_le_two_pow]

theorem is_pow2_size_of_pow2 {size : Nat} (small : size < 2 ^ 32) :
    isPow2 (sizeOfPow2 size) = true := by
  by_cases none : size = 0
  · rw [none]
    rfl
  · obtain ⟨k, top, -, -, rounded⟩ := size_of_pow2_eq (by omega) small
    rw [rounded]
    by_cases full : k = 32
    · rw [full, Nat.mod_self]
      rfl
    · rw [Nat.mod_eq_of_lt (Nat.pow_lt_pow_right (by omega) (by omega))]
      exact is_pow2_two_pow k

theorem chunk_cap_of_pow2 {size : Nat} (pow2 : isPow2 size = true) (large : minBufLen ≤ size) :
    chunkCap size = size := by
  rw [chunkCap, chunkSize, sizeOfPow2, if_pos pow2, if_neg (not_lt.mpr large),
    Nat.add_sub_cancel]

theorem chunk_cap_ge {size k : Nat} (rounded : sizeOfPow2 size = 2 ^ k) :
    2 ^ k ≤ chunkCap size := by
  rw [chunkCap, chunkSize, rounded, minBufLen, chunkHeader]
  split_ifs with few
  · have low : k < 6 := (Nat.pow_lt_pow_iff_right (by omega)).mp few
    have : 2 ^ k ≤ 2 ^ 5 := Nat.pow_le_pow_right Nat.two_pos (by omega)
    omega
  · omega

/-- Above `2 ^ 31` the power of two wraps around, and the chunk is a smallest one. -/
theorem le_chunk_cap_iff {size : Nat} (small : size < 2 ^ 32) :
    size ≤ chunkCap size ↔ size ≤ 2 ^ 31 := by
  by_cases none : size = 0
  · simp [none]
  obtain ⟨k, top, low, high, rounded⟩ := size_of_pow2_eq (by omega) small
  by_cases full : k = 32
  · rw [full] at high rounded
    rw [chunkCap, chunkSize, rounded, Nat.mod_self, if_pos (by decide), minBufLen, chunkHeader]
    omega
  · have bound : 2 ^ k ≤ 2 ^ 31 := Nat.pow_le_pow_right Nat.two_pos (by omega)
    rw [Nat.mod_eq_of_lt (by omega)] at rounded
    have room := chunk_cap_ge rounded
    omega

/-- A chunk has room for the bytes it is made for, and the sum with its header is no more
than a 32-bit number, for lengths up to `2 ^ 31`. -/
theorem chunk_roomy_iff {len : Nat} (small : len < 2 ^ 32) :
    ((1 ≤ len → ∃ k, sizeOfPow2 len = 2 ^ k ∧ len ≤ 2 ^ k ∧ ∀ j, len ≤ 2 ^ j → 2 ^ k ≤ 2 ^ j) ∧
      chunkSize len < 2 ^ 32 ∧ max len 1 ≤ chunkCap len) ↔ len ≤ 2 ^ 31 := by
  constructor
  · rintro ⟨-, -, room⟩
    exact (le_chunk_cap_iff small).mp (Nat.le_trans (Nat.le_max_left ..) room)
  · intro few
    have room := (le_chunk_cap_iff small).mpr few
    by_cases none : len = 0
    · subst none
      exact ⟨fun positive => absurd positive (by decide), by decide, by decide⟩
    obtain ⟨k, -, low, high, rounded⟩ := size_of_pow2_eq (by omega) small
    rw [Nat.mod_eq_of_lt (by omega)] at rounded
    refine ⟨fun _ => ⟨k, rounded, low, fun j above => ?_⟩, ?_, by omega⟩
    · have : 2 ^ k < 2 ^ (j + 1) := by
        rw [Nat.pow_succ]
        omega
      exact Nat.pow_le_pow_right Nat.two_pos
        (Nat.le_of_lt_succ ((Nat.pow_lt_pow_iff_right (by omega)).mp this))
    · have top : k < 32 := (Nat.pow_lt_pow_iff_right (by omega)).mp (show 2 ^ k < 2 ^ 32 by omega)
      have : 2 ^ k ≤ 2 ^ 31 := Nat.pow_le_pow_right Nat.two_pos (by omega)
      rw [chunkSize, rounded, minBufLen, chunkHeader]
      split_ifs <;> omega

theorem hundred_bytes_roomy : max 100 1 ≤ chunkCap 100 :=
  ((chunk_roomy_iff (by decide)).mpr (by decide)).2.2

/-- The chunk for one byte more than `2 ^ 31` has room for 48. -/
theorem wrapped_chunk_short : sizeOfPow2 (2 ^ 31 + 1) = 0 ∧ chunkCap (2 ^ 31 + 1) = 48 := by
  decide +kernel

end Chuck.ChunkSizes
