import Mathlib.Data.Nat.Log
import Mathlib.Data.Int.Basic
import Mathlib.Tactic.Ring

/-!
# Binary floating-point formats

A format with a biased exponent field above its fraction field, a sign bit above
both, subnormal numbers, infinities and NaNs. The magnitude of a finite datum is
a natural number in units of the smallest positive one, and conversions round to
nearest with ties to even. Payloads of NaNs are not kept.
-/

namespace Chuck.Support.BinaryFloat

/-- The exponent field goes up to `2 * bias + 1`. -/
structure Format where
  fraction : Nat
  bias : Nat

def single : Format := ⟨23, 127⟩

def double : Format := ⟨52, 1023⟩

def Format.scale (f : Format) : Nat := f.bias - 1 + f.fraction

def Format.infinity (f : Format) : Nat := (2 * f.bias + 1) * 2 ^ f.fraction

def Format.signBit (f : Format) : Nat := (2 * f.bias + 2) * 2 ^ f.fraction

inductive Number where
  | nan
  | infinite (negative : Bool)
  | finite (negative : Bool) (magnitude : Nat)
  deriving DecidableEq

def magnitudeBits (f : Format) (m : Nat) : Nat :=
  if m < 2 ^ f.fraction then m
  else (m.log2 - f.fraction) * 2 ^ f.fraction + m / 2 ^ (m.log2 - f.fraction)

def bitsMagnitude (f : Format) (bits : Nat) : Nat :=
  if bits < 2 ^ f.fraction then bits
  else (2 ^ f.fraction + bits % 2 ^ f.fraction) * 2 ^ (bits / 2 ^ f.fraction - 1)

def nearestEven (m quantum : Nat) : Nat :=
  if quantum < 2 * (m % quantum) ∨ (2 * (m % quantum) = quantum ∧ m / quantum % 2 = 1) then
    m / quantum + 1
  else m / quantum

def quantise (f : Format) (extra m : Nat) : Nat :=
  nearestEven m (2 ^ max (m.log2 - f.fraction) extra) * 2 ^
    (max (m.log2 - f.fraction) extra - extra)

def signOf (f : Format) (negative : Bool) : Nat := if negative then f.signBit else 0

def encode (f : Format) (extra : Nat) : Number → Nat
  | .nan => f.infinity + 2 ^ (f.fraction - 1)
  | .infinite negative => f.infinity + signOf f negative
  | .finite negative m => min (magnitudeBits f (quantise f extra m)) f.infinity + signOf f negative

def decode (f : Format) (bits : Nat) : Number :=
  if f.infinity < bits % f.signBit then .nan
  else if bits % f.signBit = f.infinity then .infinite (decide (f.signBit ≤ bits))
  else .finite (decide (f.signBit ≤ bits)) (bitsMagnitude f (bits % f.signBit))

def ofInt (f : Format) (v : Int) : Nat :=
  encode f 0 (.finite (decide (v < 0)) (v.natAbs * 2 ^ f.scale))

def truncate (f : Format) (bits : Nat) : Option Int :=
  match decode f bits with
  | .finite negative m =>
    let size : Int := (m / 2 ^ f.scale : Nat)
    some (if negative then -size else size)
  | _ => none

def convert (source target : Format) (bits : Nat) : Nat :=
  match decode source bits with
  | .finite negative m =>
    encode target (source.scale - target.scale)
      (.finite negative (m * 2 ^ (target.scale - source.scale)))
  | other => encode target 0 other

def same (f : Format) (left right : Nat) : Bool :=
  match decode f left, decode f right with
  | .finite negative m, .finite negative' m' =>
    decide (m = m') && (decide (m = 0) || negative == negative')
  | .infinite negative, .infinite negative' => negative == negative'
  | _, _ => false

example : convert double single (ofInt double 3) = 0x40400000 := by decide +kernel

example : (decode double (convert single double 0x40490fdb) =
    .finite false (13176795 * 2 ^ 1052)) := by
  decide +kernel

/-! ## Integers -/

theorem nearest_even_exact {m quantum : Nat} (exact : quantum ∣ m) :
    nearestEven m quantum = m / quantum := by
  have zero : m % quantum = 0 := Nat.mod_eq_zero_of_dvd exact
  rw [nearestEven, zero, Nat.mul_zero]
  split_ifs with up
  · rcases up with above | ⟨rfl, odd⟩
    · exact absurd above (Nat.not_lt_zero _)
    · rw [Nat.div_zero] at odd
      exact absurd odd (by decide)
  · rfl

theorem quantise_exact (f : Format) {m : Nat} (exact : 2 ^ (m.log2 - f.fraction) ∣ m) :
    quantise f 0 m = m := by
  rw [quantise, Nat.max_zero, Nat.sub_zero, nearest_even_exact exact, Nat.div_mul_cancel exact]

theorem leading_bits (f : Format) {m : Nat} (normal : 2 ^ f.fraction ≤ m) :
    2 ^ f.fraction ≤ m / 2 ^ (m.log2 - f.fraction) ∧
      m / 2 ^ (m.log2 - f.fraction) < 2 * 2 ^ f.fraction := by
  have positive : 0 < 2 ^ f.fraction := Nat.two_pow_pos _
  have nonzero : m ≠ 0 := by omega
  have top : f.fraction ≤ m.log2 := (Nat.le_log2 nonzero).mpr normal
  generalize exponent : m.log2 - f.fraction = e
  have sum : f.fraction + e = m.log2 := by omega
  constructor
  · rw [Nat.le_div_iff_mul_le (Nat.two_pow_pos e), ← Nat.pow_add, sum]
    exact Nat.log2_self_le nonzero
  · rw [Nat.div_lt_iff_lt_mul (Nat.two_pow_pos e), Nat.mul_assoc, ← Nat.pow_add, sum,
      ← Nat.pow_succ']
    exact Nat.lt_log2_self

section Exact

variable (f : Format) {m : Nat} (exact : 2 ^ (m.log2 - f.fraction) ∣ m)

include exact

theorem bits_magnitude_exact : bitsMagnitude f (magnitudeBits f m) = m := by
  have positive : 0 < 2 ^ f.fraction := Nat.two_pow_pos _
  rw [magnitudeBits]
  by_cases small : m < 2 ^ f.fraction
  · rw [if_pos small, bitsMagnitude, if_pos small]
  obtain ⟨low, high⟩ := leading_bits f (not_lt.mp small)
  generalize m.log2 - f.fraction = e at *
  obtain ⟨rest, part⟩ := Nat.exists_eq_add_of_le low
  have field : (e * 2 ^ f.fraction + m / 2 ^ e) / 2 ^ f.fraction = e + 1 := by
    rw [part, ← Nat.add_assoc, ← Nat.succ_mul, Nat.add_comm, Nat.add_mul_div_right _ _ positive,
      Nat.div_eq_of_lt (by omega), Nat.zero_add]
  have fraction : (e * 2 ^ f.fraction + m / 2 ^ e) % 2 ^ f.fraction = rest := by
    rw [part, ← Nat.add_assoc, ← Nat.succ_mul, Nat.add_comm, Nat.add_mul_mod_self_right,
      Nat.mod_eq_of_lt (by omega)]
  rw [if_neg small, bitsMagnitude, if_neg (by omega), field, fraction, ← part,
    Nat.add_sub_cancel, Nat.div_mul_cancel exact]

theorem decode_encode_exact (negative : Bool) (range : magnitudeBits f m < f.infinity) :
    decode f (encode f 0 (.finite negative m)) = .finite negative m := by
  have top : f.infinity < f.signBit := by
    rw [Format.infinity, Format.signBit]
    exact Nat.mul_lt_mul_of_pos_right (by omega) (Nat.two_pow_pos _)
  have bits : (magnitudeBits f m + signOf f negative) % f.signBit = magnitudeBits f m := by
    cases negative with
    | false => exact Nat.mod_eq_of_lt (by rw [signOf]; simp; omega)
    | true =>
      rw [signOf, if_pos rfl, Nat.add_mod_right]
      exact Nat.mod_eq_of_lt (by omega)
  have sign : decide (f.signBit ≤ magnitudeBits f m + signOf f negative) = negative := by
    cases negative with
    | false => simp [signOf]; omega
    | true => simp [signOf]
  rw [encode, quantise_exact f exact, Nat.min_eq_left range.le, decode, bits,
    if_neg (by omega), if_neg (by omega), sign, bits_magnitude_exact f exact]

end Exact

theorem log2_scaled {m : Nat} (nonzero : m ≠ 0) (k : Nat) : (m * 2 ^ k).log2 = m.log2 + k := by
  induction k with
  | zero => rw [Nat.pow_zero, Nat.mul_one, Nat.add_zero]
  | succ k ih =>
    have scaled : m * 2 ^ k ≠ 0 := Nat.mul_ne_zero nonzero (Nat.two_pow_pos k).ne'
    rw [Nat.log2_eq_log_two] at *
    rw [Nat.pow_succ, ← Nat.mul_assoc, Nat.log_mul_base (by decide) scaled, ih, Nat.add_assoc]

/-- An integer of at most `fraction + 2` bits, the last of them 0 if there are as
many, has a magnitude of the format. -/
theorem integer_exact (f : Format) {m : Nat} (small : m ≤ 2 ^ (f.fraction + 1)) :
    2 ^ ((m * 2 ^ f.scale).log2 - f.fraction) ∣ m * 2 ^ f.scale := by
  by_cases zero : m = 0
  · rw [zero, Nat.zero_mul]
    exact Nat.dvd_zero _
  rw [log2_scaled zero]
  by_cases top : m.log2 ≤ f.fraction
  · exact Nat.dvd_mul_left_of_dvd (Nat.pow_dvd_pow 2 (by omega)) m
  · have least := Nat.log2_self_le zero
    have power : 2 ^ (f.fraction + 1) ≤ 2 ^ m.log2 := Nat.pow_le_pow_right (by decide) (by omega)
    obtain rfl : m = 2 ^ (f.fraction + 1) := by omega
    rw [Nat.log2_two_pow, ← Nat.pow_add]
    exact Nat.pow_dvd_pow 2 (by omega)

theorem integer_range (f : Format) {m : Nat} (small : m ≤ 2 ^ (f.fraction + 1))
    (range : f.fraction + 2 ≤ f.bias) : magnitudeBits f (m * 2 ^ f.scale) < f.infinity := by
  have positive : 0 < 2 ^ f.fraction := Nat.two_pow_pos _
  rw [magnitudeBits, Format.infinity]
  split_ifs with subnormal
  · calc
      m * 2 ^ f.scale < 2 ^ f.fraction := subnormal
      _ ≤ (2 * f.bias + 1) * 2 ^ f.fraction := Nat.le_mul_of_pos_left _ (by omega)
  have high := (leading_bits f (not_lt.mp subnormal)).2
  have zero : m ≠ 0 := by
    rintro rfl
    rw [Nat.zero_mul] at subnormal
    omega
  have top : m.log2 ≤ f.fraction + 1 := by
    have strict : 2 ^ (f.fraction + 1) < 2 ^ (f.fraction + 2) :=
      Nat.pow_lt_pow_right (by decide) (by omega)
    exact Nat.le_of_lt_succ ((Nat.log2_lt zero).mpr (small.trans_lt strict))
  have exponent : (m * 2 ^ f.scale).log2 - f.fraction + 2 ≤ 2 * f.bias + 1 := by
    rw [log2_scaled zero, Format.scale]
    omega
  calc
    ((m * 2 ^ f.scale).log2 - f.fraction) * 2 ^ f.fraction +
          m * 2 ^ f.scale / 2 ^ ((m * 2 ^ f.scale).log2 - f.fraction) <
        ((m * 2 ^ f.scale).log2 - f.fraction) * 2 ^ f.fraction + 2 * 2 ^ f.fraction :=
      Nat.add_lt_add_left high _
    _ = ((m * 2 ^ f.scale).log2 - f.fraction + 2) * 2 ^ f.fraction := (Nat.add_mul _ _ _).symm
    _ ≤ (2 * f.bias + 1) * 2 ^ f.fraction := Nat.mul_le_mul_right _ exponent

section Integers

variable (f : Format) {v : Int} (small : v.natAbs ≤ 2 ^ (f.fraction + 1))
  (range : f.fraction + 2 ≤ f.bias)

include small range

theorem decode_of_int : decode f (ofInt f v) = .finite (decide (v < 0)) (v.natAbs * 2 ^ f.scale) :=
  decode_encode_exact f (integer_exact f small) _ (integer_range f small range)

theorem truncate_of_int : truncate f (ofInt f v) = some v := by
  rw [truncate, decode_of_int f small range]
  simp only [Nat.mul_div_cancel _ (Nat.two_pow_pos f.scale)]
  by_cases negative : v < 0
  · rw [decide_eq_true negative, if_pos rfl]
    congr 1
    omega
  · rw [decide_eq_false negative, if_neg Bool.false_ne_true]
    congr 1
    omega

theorem same_of_int : same f (ofInt f v) (ofInt f v) = true := by
  rw [same, decode_of_int f small range]
  simp

end Integers

end Chuck.Support.BinaryFloat
