import Chuck.PacketModel
import Chuck.PacketFraming

/-!
# Network order

The exchanges of `chk_order.h` reverse the bytes of a number, so a number stored
after `chk_hton` lies in memory with its most significant byte first, and
`chk_ntoh` of such bytes is the number.
-/

namespace Chuck.NetworkOrder

open Support.ByteOrder ByteChunkModel StreamRecvModel PacketFraming PacketModel

/-! ## The exchanges -/

theorem swap16_sum {num : Nat} (small : num < 2 ^ 16) :
    chkSwap16 num = num % 256 * 256 + num / 256 := by
  have low : (num <<< 8) &&& 0xFF00 = (num % 256) <<< 8 := by
    rw [show 0xFF00 = (2 ^ 8 - 1) <<< 8 from rfl, ← Nat.shiftLeft_and_distrib,
      Nat.and_two_pow_sub_one_eq_mod]
  have high : (num &&& 0xFF00) >>> 8 = num / 256 := by
    rw [Nat.shiftRight_and_distrib, show 0xFF00 >>> 8 = 2 ^ 8 - 1 from rfl,
      Nat.and_two_pow_sub_one_eq_mod, Nat.shiftRight_eq_div_pow]
    exact Nat.mod_eq_of_lt (by omega)
  rw [chkSwap16, low, high, ← Nat.shiftLeft_add_eq_or_of_lt (by omega),
    Nat.shiftLeft_eq]

theorem swaps16 : Swaps 2 chkSwap16 := by
  intro num small
  rw [swap16_sum small]
  constructor
  · omega
  · have first : UInt8.ofNat (num % 256 * 256 + num / 256) = UInt8.ofNat (num / 256) := by
      apply UInt8.toNat_inj.mp
      simp only [UInt8.toNat_ofNat']
      omega
    have quotient : (num % 256 * 256 + num / 256) / 256 = num % 256 := by omega
    have second : UInt8.ofNat ((num % 256 * 256 + num / 256) / 256) = UInt8.ofNat num := by
      apply UInt8.toNat_inj.mp
      rw [quotient, UInt8.toNat_ofNat', UInt8.toNat_ofNat', Nat.mod_mod]
    simp only [bigEndian, littleEndian, first, second]
    rfl

theorem swaps32 : Swaps 4 chkSwap32 := swaps16.halves

theorem swaps64 : Swaps 8 chkSwap64 := swaps32.halves

/-! ## Numbers on the wire -/

theorem hton16_bytes (x : UInt16) : littleEndian 2 (chkHton16 x).toNat = bigEndian 2 x.toNat := by
  obtain ⟨bound, bytes⟩ := swaps16 x.toNat x.toNat_lt
  rw [chkHton16, UInt16.toNat_ofNat',
    Nat.mod_eq_of_lt (show _ < 2 ^ 16 from bound), bytes]

theorem hton32_bytes (x : UInt32) : littleEndian 4 (chkHton32 x).toNat = bigEndian 4 x.toNat := by
  obtain ⟨bound, bytes⟩ := swaps32 x.toNat x.toNat_lt
  rw [chkHton32, UInt32.toNat_ofNat',
    Nat.mod_eq_of_lt (show _ < 2 ^ 32 from bound), bytes]

theorem hton64_bytes (x : UInt64) : littleEndian 8 (chkHton64 x).toNat = bigEndian 8 x.toNat := by
  obtain ⟨bound, bytes⟩ := swaps64 x.toNat x.toNat_lt
  rw [chkHton64, UInt64.toNat_ofNat',
    Nat.mod_eq_of_lt (show _ < 2 ^ 64 from bound), bytes]

theorem ntoh16_value (x : UInt16) : chkNtoh16 (.ofNat (littleValue (bigEndian 2 x.toNat))) = x := by
  obtain ⟨bound, -⟩ := swaps16 x.toNat x.toNat_lt
  rw [swaps16.little_value x.toNat_lt, chkNtoh16, UInt16.toNat_ofNat',
    Nat.mod_eq_of_lt (show _ < 2 ^ 16 from bound),
    swaps16.involutive x.toNat_lt, UInt16.ofNat_toNat]

theorem ntoh32_value (x : UInt32) : chkNtoh32 (.ofNat (littleValue (bigEndian 4 x.toNat))) = x := by
  obtain ⟨bound, -⟩ := swaps32 x.toNat x.toNat_lt
  rw [swaps32.little_value x.toNat_lt, chkNtoh32, UInt32.toNat_ofNat',
    Nat.mod_eq_of_lt (show _ < 2 ^ 32 from bound),
    swaps32.involutive x.toNat_lt, UInt32.ofNat_toNat]

theorem ntoh64_value (x : UInt64) : chkNtoh64 (.ofNat (littleValue (bigEndian 8 x.toNat))) = x := by
  obtain ⟨bound, -⟩ := swaps64 x.toNat x.toNat_lt
  rw [swaps64.little_value x.toNat_lt, chkNtoh64, UInt64.toNat_ofNat',
    Nat.mod_eq_of_lt (show _ < 2 ^ 64 from bound),
    swaps64.involutive x.toNat_lt, UInt64.ofNat_toNat]

theorem ntoh8_value (x : UInt8) : UInt8.ofNat (littleValue (bigEndian 1 x.toNat)) = x := by
  have small : x.toNat < 256 ^ 1 := x.toNat_lt
  have one : bigEndian 1 x.toNat = littleEndian 1 x.toNat := rfl
  rw [one, little_value_of_lt small, UInt8.ofNat_toNat]

/-! ## The length of a packet -/

theorem encode_length_big (n : Nat) : encodeLength n = bigEndian 4 n := by
  simp only [encodeLength, bigEndian, littleEndian, List.reverse_cons, List.reverse_nil,
    List.nil_append, List.cons_append, Nat.div_div_eq_div_mul]
  rfl

theorem encode_packet_big (payload : List Byte) :
    encodePacket payload = bigEndian 4 payload.length ++ payload := by
  rw [encodePacket, encode_length_big]

end Chuck.NetworkOrder
