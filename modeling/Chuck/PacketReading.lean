import Chuck.NetworkOrder
import Chuck.ByteChainReading

/-!
# The packet reader walks a list of bytes

A `lua_rpacket` at any position of any chain of chunks behaves as the list of the
bytes it has left. Reading takes bytes off the front, wherever the chunks end.
-/

namespace Chuck.PacketReading

open Support.ByteOrder Support.SharedChain ByteChunkModel ByteChainReading PacketModel
open NetworkOrder List Option

/-- A reader at a position of chunk `i` with the bytes `L` before it. -/
structure ReadsAt (addr : Nat → Nat) (payload : Nat → List Byte) (mem : Memory) (lo hi : Nat)
    (holders : List Nat) (i : Nat) (r : RPacket) (L : List Byte) : Prop where
  chain : Chain addr payload mem lo hi holders
  lower : lo ≤ i
  upper : i < hi
  cur : r.cur = some (addr i)
  inside : r.readpos ≤ (payload i).length
  counted : r.dataRemain = L.length
  view : L <+: (bytesFrom payload i hi).drop r.readpos

def Reads (mem : Memory) (r : RPacket) (L : List Byte) : Prop :=
  ∃ addr payload lo hi holders i, ReadsAt addr payload mem lo hi holders i r L

section Bytes

variable {mem : Memory} {r : RPacket} {L : List Byte}

theorem Reads.counted (reads : Reads mem r L) : r.dataRemain = L.length := by
  obtain ⟨_, _, _, _, _, _, at_⟩ := reads
  exact at_.counted

theorem Reads.read (reads : Reads mem r L) (size : Nat) (enough : size ≤ L.length) :
    ∃ next, rpacketRead mem r size = some (some (L.take size), next) ∧
      Reads mem next (L.drop size) := by
  obtain ⟨addr, payload, lo, hi, holders, i, chain, lower, upper, cur, inside, counted,
    rest, whole⟩ := reads
  have lengths := congrArg List.length whole
  rw [length_append, length_drop] at lengths
  have first := first_chunk_le payload upper
  have fuel := chain.segment.length_le
  obtain ⟨j, last, ran, later, reached, short, same⟩ := chunk_read_loop chain.segment
    (mem.fresh + 1) i r.readpos size lower (fun _ => inside) (by omega) (by omega)
  have here := reached upper
  have taken : ((bytesFrom payload i hi).drop r.readpos).take size = L.take size := by
    rw [← whole, take_append_of_le_length enough]
  rw [taken, link_inside addr upper, link_inside addr here] at ran
  refine ⟨{ r with
    cur := some (addr j), readpos := last, dataRemain := r.dataRemain - (L.take size).length },
    ?_, addr, payload, lo, hi, holders, j, chain, by omega, here, rfl, short here, ?_, rest, ?_⟩
  · rw [rpacketRead, readerRead, if_neg (by omega), bytechunkRead, cur, ran]
    rfl
  · simp only [length_take, length_drop]
    omega
  · simp only
    rw [← same, ← drop_drop, ← whole, drop_append_of_le_length enough]

theorem Reads.short (reads : Reads mem r L) {size : Nat} (beyond : L.length < size) :
    rpacketRead mem r size = some (none, r) :=
  if_pos (reads.counted ▸ beyond)

theorem Reads.readValue {bytes rest : List Byte} (reads : Reads mem r (bytes ++ rest)) :
    ∃ next, rpacketReadValue mem r bytes.length = some (littleValue bytes, next) ∧
      Reads mem next rest := by
  obtain ⟨next, ran, left⟩ := reads.read bytes.length (by simp)
  rw [take_left] at ran
  rw [drop_left] at left
  exact ⟨next, by simp only [rpacketReadValue, ran, bind_eq_bind, bind_some,
    getD_some], left⟩

end Bytes

/-! ## The methods -/

section Methods

variable {mem : Memory} {r : RPacket} {rest : List Byte}

theorem Reads.readI8 {v : Int8} (reads : Reads mem r (bigEndian 1 v.toUInt8.toNat ++ rest)) :
    ∃ next, rpacketReadI8 mem r = some (v.toInt64, next) ∧ Reads mem next rest := by
  obtain ⟨next, ran, left⟩ := reads.readValue
  rw [length_big_endian] at ran
  refine ⟨next, ?_, left⟩
  simp only [rpacketReadI8, ran, bind_eq_bind, bind_some, ntoh8_value]
  rfl

theorem Reads.readI16 {v : Int16} (reads : Reads mem r (bigEndian 2 v.toUInt16.toNat ++ rest)) :
    ∃ next, rpacketReadI16 mem r = some (v.toInt64, next) ∧ Reads mem next rest := by
  obtain ⟨next, ran, left⟩ := reads.readValue
  rw [length_big_endian] at ran
  refine ⟨next, ?_, left⟩
  simp only [rpacketReadI16, ran, bind_eq_bind, bind_some, ntoh16_value]
  rfl

theorem Reads.readI32 {v : Int32} (reads : Reads mem r (bigEndian 4 v.toUInt32.toNat ++ rest)) :
    ∃ next, rpacketReadI32 mem r = some (v.toInt64, next) ∧ Reads mem next rest := by
  obtain ⟨next, ran, left⟩ := reads.readValue
  rw [length_big_endian] at ran
  refine ⟨next, ?_, left⟩
  simp only [rpacketReadI32, ran, bind_eq_bind, bind_some, ntoh32_value]
  rfl

theorem Reads.readI64 {v : Int64} (reads : Reads mem r (bigEndian 8 v.toUInt64.toNat ++ rest)) :
    ∃ next, rpacketReadI64 mem r = some (v, next) ∧ Reads mem next rest := by
  obtain ⟨next, ran, left⟩ := reads.readValue
  rw [length_big_endian] at ran
  refine ⟨next, ?_, left⟩
  simp only [rpacketReadI64, ran, bind_eq_bind, bind_some, ntoh64_value]
  rfl

theorem Reads.readSize {size : Nat} (small : size < 2 ^ 32)
    (reads : Reads mem r (bigEndian 4 size ++ rest)) :
    ∃ n next, rpacketReadValue mem r 4 = some (n, next) ∧ (chkNtoh32 (.ofNat n)).toNat = size ∧
      Reads mem next rest := by
  have number : (UInt32.ofNat size).toNat = size := by
    rw [UInt32.toNat_ofNat', Nat.mod_eq_of_lt small]
  obtain ⟨next, ran, left⟩ := reads.readValue
  rw [length_big_endian] at ran
  refine ⟨_, next, ran, ?_, left⟩
  rw [← number, ntoh32_value]

theorem Reads.readString (beyond broken : LuaError) {s : List Byte} (small : s.length < 2 ^ 32)
    (reads : Reads mem r (bigEndian 4 s.length ++ (s ++ rest))) :
    ∃ next, readString mem beyond broken r = some (.ok (s, next)) ∧ Reads mem next rest := by
  obtain ⟨n, behind, ran, size, left⟩ := reads.readSize small
  have remain := left.counted
  rw [length_append] at remain
  rw [PacketModel.readString, ran]
  simp only [bind_some, size]
  rw [if_neg (by omega)]
  by_cases empty : s.length = 0
  · obtain rfl := length_eq_zero_iff.mp empty
    rw [if_pos empty]
    exact ⟨behind, rfl, left⟩
  · obtain ⟨next, read, last⟩ := left.read s.length (by simp)
    rw [take_left] at read
    rw [drop_left] at last
    rw [if_neg empty, read]
    exact ⟨next, by simp, last⟩

end Methods

/-! ## A new reader -/

theorem new_rpacket {least : Nat} {mem : Memory} {b : ByteBuffer} {header L : List Byte}
    (wide : 3 ≤ least) (layout : Layout least mem b (header ++ L)) (four : header.length = 4)
    (small : (header ++ L).length < 2 ^ 32) : ∃ r, newRpacket mem b = some r ∧ Reads mem r L := by
  obtain ⟨addr, payload, lo, hi, holders, i, chain, lower, upper, widths, head, start, counted,
    rest, whole⟩ := layout
  have lengths := congrArg List.length whole
  simp only [length_append, length_drop] at lengths counted small
  have cut : (bytesFrom payload i hi).drop (b.spos + 4) = L ++ rest := by
    rw [← drop_drop, ← whole, append_assoc, ← four, drop_left]
  obtain ⟨count, cell⟩ := cell_at chain.segment lower upper
  rw [bytes_from_cons payload upper] at lengths cut
  rw [length_append] at lengths
  have remain : (b.datasize + 2 ^ 32 - 4) % 2 ^ 32 = L.length := by omega
  rw [newRpacket, packetReaderInit, head]
  simp only [bind_eq_bind, bind_some, cell, remain]
  -- With one to three bytes in the first chunk the length ends in the second.
  have crossed : ∀ left, (payload i).length - b.spos = left → left < 4 →
      Reads mem ⟨linkTo addr hi (i + 1), 4 - left, L.length, b.datasize⟩ L := by
    intro left size few
    have more : i + 1 < hi := bytes_from_lt payload (by omega)
    refine ⟨addr, payload, lo, hi, holders, i + 1, chain, by omega, more, link_inside addr more,
      ?_, rfl, rest, ?_⟩
    · have := widths (i + 1) (by omega) more
      simp only
      omega
    · have behind : b.spos + 4 - (payload i).length = 4 - left := by omega
      rw [← cut, drop_append, drop_of_length_le (by omega), nil_append, behind]
  split
  case h_1 one => exact ⟨_, rfl, crossed 1 one (by decide)⟩
  case h_2 two => exact ⟨_, rfl, crossed 2 two (by decide)⟩
  case h_3 three => exact ⟨_, rfl, crossed 3 three (by decide)⟩
  case h_4 not1 not2 not3 =>
    refine ⟨_, rfl, addr, payload, lo, hi, holders, i, chain, lower, upper, rfl, ?_, rfl, rest, ?_⟩
    · have one : (payload i).length - b.spos ≠ 1 := not1
      have two : (payload i).length - b.spos ≠ 2 := not2
      have three : (payload i).length - b.spos ≠ 3 := not3
      simp only
      omega
    · rw [bytes_from_cons payload upper]
      exact cut.symm

/-! ## Sequences of reads -/

def readMany (mem : Memory) : RPacket → List Nat → Option (List Byte × RPacket)
  | r, [] => some ([], r)
  | r, size :: sizes => do
      let (out, next) ← rpacketRead mem r size
      let (rest, last) ← readMany mem next sizes
      some (out.getD [] ++ rest, last)

/-- All reads together give a first part of `L`, `data_remain` counts no more than what
is left of it, and a read that fails changes nothing. -/
def StaysInside (mem : Memory) (r : RPacket) (L : List Byte) : Prop :=
  ∀ sizes, ∃ out last, readMany mem r sizes = some (out, last) ∧ out <+: L ∧
    last.dataRemain ≤ L.length - out.length ∧
    ∀ size next, rpacketRead mem last size = some (none, next) → next = last

theorem Reads.many {mem : Memory} (sizes : List Nat) {r : RPacket} {L : List Byte}
    (reads : Reads mem r L) : ∃ out last rest, readMany mem r sizes = some (out, last) ∧
      out ++ rest = L ∧ Reads mem last rest := by
  induction sizes generalizing r L with
  | nil => exact ⟨[], r, L, rfl, rfl, reads⟩
  | cons size sizes ih =>
    by_cases enough : size ≤ L.length
    · obtain ⟨next, ran, left⟩ := reads.read size enough
      obtain ⟨out, last, rest, more, whole, final⟩ := ih left
      refine ⟨L.take size ++ out, last, rest, ?_, ?_, final⟩
      · simp only [readMany, ran, more, bind_eq_bind, bind_some, getD_some]
      · rw [append_assoc, whole, take_append_drop]
    · obtain ⟨out, last, rest, more, whole, final⟩ := ih reads
      refine ⟨out, last, rest, ?_, whole, final⟩
      simp only [readMany, reads.short (not_le.mp enough), more, bind_eq_bind,
        bind_some, getD_none, nil_append]

/-- A reader stays inside its buffer if the buffer has the four bytes of a length. With
fewer of them the number of bytes left wraps around. -/
theorem stays_inside_iff {least : Nat} {mem : Memory} {b : ByteBuffer} {bytes : List Byte}
    (wide : 3 ≤ least) (layout : Layout least mem b bytes) (small : bytes.length < 2 ^ 32) :
    (∃ r, newRpacket mem b = some r ∧ StaysInside mem r (bytes.drop 4)) ↔ 4 ≤ b.datasize := by
  have counted : b.datasize = bytes.length := by
    obtain ⟨_, _, _, _, _, _, laid⟩ := layout
    exact laid.counted
  constructor
  · rintro ⟨r, made, inside⟩
    obtain ⟨out, last, ran, -, remain, -⟩ := inside []
    obtain ⟨rfl, rfl⟩ := Prod.mk.inj (Option.some.inj ran)
    have wraps : r.dataRemain = (b.datasize + 2 ^ 32 - 4) % 2 ^ 32 := by
      simp only [newRpacket, packetReaderInit, bind_eq_bind, bind_eq_some_iff] at made
      obtain ⟨head, -, chunk, -, made⟩ := made
      split at made <;> exact Option.some.inj made ▸ rfl
    rw [length_drop, length_nil] at remain
    omega
  · intro enough
    rw [← take_append_drop 4 bytes] at layout small
    obtain ⟨r, made, reads⟩ := new_rpacket wide layout (by rw [length_take]; omega) small
    refine ⟨r, made, fun sizes => ?_⟩
    obtain ⟨out, last, rest, ran, whole, left⟩ := reads.many sizes
    refine ⟨out, last, ran, ⟨rest, whole⟩, ?_, fun size next failed => ?_⟩
    · rw [left.counted, ← whole, length_append, Nat.add_sub_cancel_left]
    · rw [rpacketRead, readerRead] at failed
      split_ifs at failed with beyond
      · exact (Prod.mk.inj (Option.some.inj failed)).2.symm
      · simp [bind_eq_some_iff] at failed

/-- A length that ends in the second chunk, and two bytes. -/
theorem six_bytes_stay_inside :
    ∃ r, newRpacket (twoChunks [0, 0, 0] [2, 8, 9])
        { blankBuffer with datasize := 6, head := some 0, tail := some 1 } = some r ∧
      StaysInside (twoChunks [0, 0, 0] [2, 8, 9]) r [8, 9] := by
  have layout : Layout 3 (twoChunks [0, 0, 0] [2, 8, 9])
      { blankBuffer with datasize := 6, head := some 0, tail := some 1 } [0, 0, 0, 2, 8, 9] :=
    ⟨_, _, 0, 2, [0], 0, two_chunks_chain _ _, le_rfl, by decide, by decide, rfl, by decide,
      rfl, by decide⟩
  exact (stays_inside_iff (Nat.le_refl 3) layout (by decide)).mpr (by decide)

/-- The reader of a new buffer returns bytes that nobody stored. -/
theorem empty_buffer_overread : ∃ mem b r next,
    bytebufferNew (fun _ _ => 7) ⟨fun _ => none, 0⟩ 64 = some (mem, b) ∧ b.datasize = 0 ∧
      newRpacket mem b = some r ∧ r.dataRemain = 2 ^ 32 - 4 ∧
      rpacketRead mem r 8 = some (some (List.replicate 8 7), next) ∧ ¬StaysInside mem r [] := by
  refine ⟨_, _, _, _, rfl, rfl, rfl, rfl, rfl, fun inside => ?_⟩
  obtain ⟨out, last, ran, -, remain, -⟩ := inside []
  obtain ⟨rfl, rfl⟩ := Prod.mk.inj (Option.some.inj ran)
  exact absurd remain (by decide)

end Chuck.PacketReading
