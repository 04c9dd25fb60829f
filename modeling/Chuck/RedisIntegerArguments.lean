import Chuck.ByteBufferRefinement
import Chuck.RedisCommandModel
import Mathlib.Data.Nat.Digits.Lemmas

/-!
# Integer arguments of Redis commands

The length that `intlen` computes ahead is the length of the decimal text, so
`append_int` writes a bulk string that holds the number. The one number that is
its own 64-bit negation makes `intlen` call itself without end.
-/

namespace Chuck.RedisIntegerArguments

open Chuck.ByteChunkModel
open Chuck.ByteBufferRefinement
open Chuck.RedisParserModel (toInt64 minus)
open Chuck.RedisReplyCodec
open Chuck.RedisCommandModel

theorem decimal_length {n k : Nat} (low : 10 ^ k ≤ n) (high : n < 10 ^ (k + 1)) :
    (decimal n).length = k + 1 := by
  have positive : n ≠ 0 := by
    have := Nat.one_le_pow k 10 (by decide)
    omega
  have below : (Nat.digits 10 n).length ≤ k + 1 :=
    (Nat.digits_length_le_iff (by decide) n).mpr high
  have above : k < (Nat.digits 10 n).length := (Nat.lt_digits_length_iff (by decide) n).mpr low
  rw [decimal, if_neg positive, List.length_map, List.length_reverse]
  omega

theorem ladder_rung {n k rest : Nat} {bound : Int} (power : bound = 10 ^ (k + 1))
    (low : 10 ^ k ≤ n) (above : 10 ^ (k + 1) ≤ n → rest = (decimal n).length) :
    (if (n : Int) < bound then k + 1 else rest) = (decimal n).length := by
  subst power
  split_ifs with taken
  · exact (decimal_length low (by exact_mod_cast taken)).symm
  · apply above
    exact_mod_cast Int.not_lt.mp taken

theorem digit_ladder_length {n : Nat} (small : n < 10 ^ 19) :
    digitLadder n = (decimal n).length := by
  rcases Nat.eq_zero_or_pos n with rfl | low
  · rfl
  · have low : 10 ^ 0 ≤ n := low
    unfold digitLadder
    iterate 18
      refine ladder_rung (by norm_num) low fun next => ?_
      clear low
      rename _ => low
    exact (decimal_length low small).symm

theorem intlen_decimal (stack : Nat) {n : Nat} (small : n < 10 ^ 19) :
    intlen (stack + 1) n = some (decimal n).length := by
  rw [intlen, if_neg (by omega), digit_ladder_length small]

theorem intlen_signed (stack : Nat) {num : Int} (low : -2 ^ 63 < num) (high : num < 2 ^ 63) :
    intlen (stack + 2) num = some (signed num).length := by
  have magnitude : num.natAbs < 10 ^ 19 := by omega
  rw [signed]
  split_ifs with negative
  · have flipped : toInt64 (-num) = (num.natAbs : Int) := by
      rw [to_int64_small (by omega) (by omega)]
      omega
    rw [intlen, if_pos negative, flipped, intlen_decimal stack magnitude, Option.map_some,
      List.length_cons, Nat.add_comm]
  · have kept : num = (num.natAbs : Int) := by omega
    rw [kept, Int.natAbs_natCast]
    exact intlen_decimal (stack + 1) magnitude

theorem intlen_minimum (stack : Nat) : intlen stack (-2 ^ 63) = none := by
  induction stack with
  | zero => rfl
  | succ stack ih =>
    have wrapped : toInt64 (-(-2 ^ 63)) = -2 ^ 63 := by decide
    rw [intlen, if_pos (by decide), wrapped, ih, Option.map_none]

/-- `append_int` writes the bulk string of `num`, and `intlen` returns the number of
characters in it, from some depth of the call stack on. -/
def EncodesInteger (num : Int) : Prop :=
  ∃ enough, ∀ stack, enough ≤ stack →
    intlen stack num = some (signed num).length ∧
      ∀ (junk : Nat → Nat → Byte) (mem : Memory) (b : ByteBuffer) (L : List Byte),
        Owns mem b L → (L ++ encode (.bulk (signed num))).length < 2 ^ 32 →
          ∃ after grown, appendInt junk mem b stack num = some (.ok, after, grown) ∧
            Owns after grown (L ++ encode (.bulk (signed num)))

theorem int_text_bulk (num : Int) :
    intText (signed num).length num = encode (.bulk (signed num)) := by
  have digits : signed ((signed num).length : Int) = decimal (signed num).length := by
    rw [signed, if_neg (by omega), Int.natAbs_natCast]
  rw [intText, digits, encode]

/-- Every 64-bit integer becomes its bulk, except the least one, for which `intlen` never
returns. -/
theorem integer_encoded_iff (num : Int) (low : -2 ^ 63 ≤ num) (high : num < 2 ^ 63) :
    EncodesInteger num ↔ num ≠ -2 ^ 63 := by
  constructor
  · rintro ⟨enough, encodes⟩ rfl
    have measured := (encodes enough le_rfl).1
    rw [intlen_minimum] at measured
    nomatch measured
  · intro other
    refine ⟨2, fun stack deep => ?_⟩
    obtain ⟨rest, rfl⟩ := Nat.exists_eq_add_of_le' deep
    have measured := intlen_signed rest (lt_of_le_of_ne low other.symm) high
    refine ⟨measured, fun junk mem b L owns fits => ?_⟩
    have appended := append_owns junk owns (encode (.bulk (signed num))) fits
    rw [appendInt, measured, Option.bind_eq_bind, Option.bind_some, int_text_bulk]
    exact appended

/-- Both ends of the range that can be measured. -/
theorem extreme_integers_encoded : EncodesInteger (2 ^ 63 - 1) ∧ EncodesInteger (-2 ^ 63 + 1) :=
  ⟨(integer_encoded_iff (2 ^ 63 - 1) (by decide) (by decide)).mpr (by decide),
    (integer_encoded_iff (-2 ^ 63 + 1) (by decide) (by decide)).mpr (by decide)⟩

/-- `append_int` of the smallest number never returns. -/
theorem minimum_never_encoded :
    (∀ stack, intlen stack (-2 ^ 63) = none) ∧
      ∀ junk mem b stack, appendInt junk mem b stack (-2 ^ 63) = none := by
  refine ⟨intlen_minimum, fun junk mem b stack => ?_⟩
  rw [appendInt, intlen_minimum, Option.bind_eq_bind, Option.bind_none]

end Chuck.RedisIntegerArguments
