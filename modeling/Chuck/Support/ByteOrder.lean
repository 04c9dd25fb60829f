import Mathlib.Data.List.Basic
import Mathlib.Tactic.Ring

/-!
# Numbers as bytes

A number is stored in a fixed number of bytes, the least significant one first
or last. Storing keeps the number up to the capacity of the bytes, and exchanging
the two halves of a number exchanges the two halves of its bytes.
-/

namespace Chuck.Support.ByteOrder

def littleEndian : Nat → Nat → List UInt8
  | 0, _ => []
  | width + 1, value => UInt8.ofNat value :: littleEndian width (value / 256)

def bigEndian (width value : Nat) : List UInt8 := (littleEndian width value).reverse

def littleValue : List UInt8 → Nat
  | [] => 0
  | byte :: rest => byte.toNat + 256 * littleValue rest

def bigValue (bytes : List UInt8) : Nat := littleValue bytes.reverse

@[simp] theorem length_little_endian (width value : Nat) :
    (littleEndian width value).length = width := by
  induction width generalizing value with
  | zero => rfl
  | succ width ih => rw [littleEndian, List.length_cons, ih]

@[simp] theorem length_big_endian (width value : Nat) : (bigEndian width value).length = width := by
  rw [bigEndian, List.length_reverse, length_little_endian]

theorem little_value_endian (width value : Nat) :
    littleValue (littleEndian width value) = value % 256 ^ width := by
  induction width generalizing value with
  | zero => simp [littleEndian, littleValue, Nat.mod_one]
  | succ width ih =>
    have power : 256 ^ (width + 1) = 256 * 256 ^ width := Nat.pow_succ'
    rw [littleEndian, littleValue, ih, UInt8.toNat_ofNat', power, Nat.mod_mul]

theorem little_value_of_lt {width value : Nat} (small : value < 256 ^ width) :
    littleValue (littleEndian width value) = value := by
  rw [little_value_endian, Nat.mod_eq_of_lt small]

theorem little_endian_mod (width value : Nat) :
    littleEndian width (value % 256 ^ width) = littleEndian width value := by
  induction width generalizing value with
  | zero => rfl
  | succ width ih =>
    have digit : UInt8.ofNat (value % 256 ^ (width + 1)) = UInt8.ofNat value := by
      apply UInt8.toNat_inj.mp
      rw [UInt8.toNat_ofNat', UInt8.toNat_ofNat', Nat.pow_succ']
      exact Nat.mod_mul_right_mod value 256 (256 ^ width)
    have rest : value % 256 ^ (width + 1) / 256 = value / 256 % 256 ^ width := by
      rw [Nat.pow_succ', Nat.mod_mul_right_div_self]
    rw [littleEndian, littleEndian, digit, rest, ih]

theorem little_endian_append (low high value : Nat) :
    littleEndian (low + high) value =
      littleEndian low value ++ littleEndian high (value / 256 ^ low) := by
  induction low generalizing value with
  | zero => simp [littleEndian]
  | succ low ih =>
    rw [Nat.succ_add, littleEndian, littleEndian, ih, List.cons_append, Nat.div_div_eq_div_mul,
      Nat.pow_succ']

theorem little_endian_halves {width low high : Nat} (small : low < 256 ^ width) :
    littleEndian (width + width) (high * 256 ^ width + low) =
      littleEndian width low ++ littleEndian width high := by
  have positive : 0 < 256 ^ width := Nat.pow_pos (by decide)
  rw [little_endian_append]
  congr 1
  · rw [← little_endian_mod, Nat.mul_comm, Nat.mul_add_mod, Nat.mod_eq_of_lt small]
  · rw [Nat.add_comm, Nat.add_mul_div_right _ _ positive, Nat.div_eq_of_lt small, Nat.zero_add]

/-- A function that exchanges the bytes of the numbers of a width. -/
def Swaps (width : Nat) (swap : Nat → Nat) : Prop :=
  ∀ value < 256 ^ width,
    swap value < 256 ^ width ∧ littleEndian width (swap value) = bigEndian width value

section Swaps

variable {width : Nat} {swap : Nat → Nat} (swaps : Swaps width swap)

include swaps

theorem Swaps.little_value {value : Nat} (small : value < 256 ^ width) :
    littleValue (bigEndian width value) = swap value := by
  obtain ⟨bound, bytes⟩ := swaps value small
  rw [← bytes, little_value_of_lt bound]

theorem Swaps.involutive {value : Nat} (small : value < 256 ^ width) :
    swap (swap value) = value := by
  obtain ⟨bound, bytes⟩ := swaps value small
  rw [← swaps.little_value bound, bigEndian, bytes, bigEndian, List.reverse_reverse,
    little_value_of_lt small]

theorem Swaps.halves :
    Swaps (width + width) fun value =>
      (swap (value % 256 ^ width) <<< (8 * width)) ||| swap (value / 256 ^ width) := by
  intro value small
  have positive : 0 < 256 ^ width := Nat.pow_pos (by decide)
  have power : 2 ^ (8 * width) = 256 ^ width := by
    rw [Nat.pow_mul]
  have square : 256 ^ (width + width) = 256 ^ width * 256 ^ width := Nat.pow_add _ _ _
  rw [square] at small ⊢
  obtain ⟨lowBound, low⟩ := swaps (value % 256 ^ width) (Nat.mod_lt _ positive)
  obtain ⟨highBound, high⟩ := swaps (value / 256 ^ width) (Nat.div_lt_of_lt_mul small)
  have sum : (swap (value % 256 ^ width) <<< (8 * width)) ||| swap (value / 256 ^ width) =
      swap (value % 256 ^ width) * 256 ^ width + swap (value / 256 ^ width) := by
    rw [← Nat.shiftLeft_add_eq_or_of_lt (power ▸ highBound), Nat.shiftLeft_eq, power]
  dsimp only
  rw [sum]
  constructor
  · calc
      swap (value % 256 ^ width) * 256 ^ width + swap (value / 256 ^ width) <
          swap (value % 256 ^ width) * 256 ^ width + 256 ^ width := Nat.add_lt_add_left highBound _
      _ = (swap (value % 256 ^ width) + 1) * 256 ^ width := (Nat.succ_mul _ _).symm
      _ ≤ 256 ^ width * 256 ^ width := Nat.mul_le_mul_right _ lowBound
  · rw [little_endian_halves highBound, high, low, bigEndian, bigEndian, little_endian_mod,
      ← List.reverse_append, ← little_endian_append, bigEndian]

end Swaps

end Chuck.Support.ByteOrder
