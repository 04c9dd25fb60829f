import Chuck.PacketWriting
import Chuck.PacketReading
import Chuck.ProcessRead

/-!
# Typed packets survive the wire

The methods of the writer store each value in network order, and the methods of
the reader take it off again. Between them the packet goes through the decoder,
which delivers it on the chunks of the receive buffer, wherever these cut it.
-/

namespace Chuck.PacketRoundTrip

open Support.ByteOrder ByteChunkModel ByteChainReading StreamRecvModel PacketFraming ReceiveTape
open ProcessRead PacketModel NetworkOrder PacketWriting PacketReading List

def fieldBytes : Field → List Byte
  | .i8 v => bigEndian 1 v.toUInt8.toNat
  | .i16 v => bigEndian 2 v.toUInt16.toNat
  | .i32 v => bigEndian 4 v.toUInt32.toNat
  | .i64 v => bigEndian 8 v.toUInt64.toNat
  | .str s => bigEndian 4 s.length ++ s

def fieldsPayload (fields : List Field) : List Byte := fields.flatMap fieldBytes

theorem field_bytes_nonempty (field : Field) : 1 ≤ (fieldBytes field).length := by
  cases field with
  | str s =>
    rw [fieldBytes, length_append, length_big_endian]
    omega
  | _ => simp [fieldBytes]

theorem fields_payload_nonempty {fields : List Field} (some : fields ≠ []) :
    1 ≤ (fieldsPayload fields).length := by
  obtain ⟨field, rest, rfl⟩ := exists_cons_of_ne_nil some
  have first := field_bytes_nonempty field
  rw [fieldsPayload, flatMap_cons, length_append]
  omega

/-! ## Writing -/

section Writing

variable (junk : Nat → Nat → Byte) {marks : List Mark} {mem : Memory} {b : ByteBuffer}
  {p : List Byte}

theorem string_writes_bytes {s : List Byte} (small : s.length < 2 ^ 32) :
    (stringWrites s).flatten = bigEndian 4 s.length ++ s := by
  have number : (UInt32.ofNat s.length).toNat = s.length := by
    rw [UInt32.toNat_ofNat', Nat.mod_eq_of_lt small]
  rw [stringWrites, flatten_cons, hton32_bytes, number, Nat.mod_eq_of_lt small,
    take_length]
  split_ifs with some
  · rw [flatten_singleton]
  · obtain rfl : s = [] := length_eq_zero_iff.mp (by omega)
    rfl

theorem write_field (field : Field) (writes : Writes marks mem b p)
    (fits : headerSize + (p ++ fieldBytes field).length < 2 ^ 32) :
    ∃ after grown, writeField junk mem b field = some (.ok (after, grown)) ∧
      Writes marks after grown (p ++ fieldBytes field) := by
  have all : ∀ vs : List (List Byte), vs.flatten = fieldBytes field →
      ∃ after grown, (wpacketWriteAll junk mem b vs).map checkWritten = some (.ok (after, grown)) ∧
        Writes marks after grown (p ++ fieldBytes field) := by
    intro vs bytes
    obtain ⟨after, grown, ran, written⟩ := Writes.writeAll junk vs mem b p writes (bytes ▸ fits)
    rw [bytes] at written
    exact ⟨after, grown, by rw [ran]; rfl, written⟩
  cases field with
  | i8 v =>
    apply all
    rw [Int8.toInt8_toInt64]
    rfl
  | i16 v =>
    apply all
    rw [Int16.toInt16_toInt64, hton16_bytes]
    rfl
  | i32 v =>
    apply all
    rw [Int32.toInt32_toInt64, hton32_bytes]
    rfl
  | i64 v =>
    apply all
    rw [hton64_bytes]
    rfl
  | str s =>
    apply all
    rw [fieldBytes, length_append, length_append] at fits
    exact string_writes_bytes (by omega)

theorem write_fields (fields : List Field) (mem : Memory) (b : ByteBuffer) (p : List Byte)
    (writes : Writes marks mem b p)
    (fits : headerSize + (p ++ fieldsPayload fields).length < 2 ^ 32) :
    ∃ after grown, writeFields junk mem b fields = some (.ok (after, grown)) ∧
      Writes marks after grown (p ++ fieldsPayload fields) := by
  induction fields generalizing mem b p with
  | nil =>
    rw [fieldsPayload, flatMap_nil, append_nil]
    exact ⟨mem, b, rfl, writes⟩
  | cons field fields ih =>
    have split : p ++ fieldsPayload (field :: fields) =
        p ++ fieldBytes field ++ fieldsPayload fields := by
      rw [fieldsPayload, flatMap_cons, append_assoc]
      rfl
    rw [split] at fits ⊢
    have first : headerSize + (p ++ fieldBytes field).length < 2 ^ 32 := by
      rw [length_append] at fits
      omega
    obtain ⟨middle, grown, ran, written⟩ := write_field junk field writes first
    obtain ⟨after, last, rest, all⟩ := ih middle grown _ written fits
    refine ⟨after, last, ?_, all⟩
    rw [writeFields, ran]
    exact rest

theorem write_packet (mem : Memory) (initcap : Nat) (fields : List Field)
    (fits : headerSize + (fieldsPayload fields).length < 2 ^ 32) :
    ∃ after b, writePacket junk mem initcap fields = some (.ok (after, b)) ∧
      bytebufferRead after b 0 b.datasize =
        some (bigEndian 4 (fieldsPayload fields).length ++ fieldsPayload fields) := by
  obtain ⟨start, b, opened, writer, made, new, writes⟩ := new_writer junk mem initcap
  obtain ⟨after, grown, ran, written⟩ := write_fields junk fields opened writer [] writes fits
  refine ⟨after, grown, ?_, written.read⟩
  rw [writePacket, made, Option.bind_some]
  simp only [new]
  exact ran

end Writing

/-! ## Reading -/

section Reading

variable {mem : Memory}

theorem read_kind (field : Field) {r : RPacket} {rest : List Byte}
    (small : (fieldBytes field).length < 2 ^ 32) (reads : Reads mem r (fieldBytes field ++ rest)) :
    ∃ next, readKind mem r field.kind = some (.ok (field.datum, next)) ∧ Reads mem next rest := by
  cases field with
  | i8 v =>
    obtain ⟨next, ran, left⟩ := reads.readI8
    exact ⟨next, by simp only [Field.kind, readKind, ran]; rfl, left⟩
  | i16 v =>
    obtain ⟨next, ran, left⟩ := reads.readI16
    exact ⟨next, by simp only [Field.kind, readKind, ran]; rfl, left⟩
  | i32 v =>
    obtain ⟨next, ran, left⟩ := reads.readI32
    exact ⟨next, by simp only [Field.kind, readKind, ran]; rfl, left⟩
  | i64 v =>
    obtain ⟨next, ran, left⟩ := reads.readI64
    exact ⟨next, by simp only [Field.kind, readKind, ran]; rfl, left⟩
  | str s =>
    rw [fieldBytes, append_assoc] at reads
    rw [fieldBytes, length_append] at small
    obtain ⟨next, ran, left⟩ := reads.readString .stringSize .invaildPacket (by omega)
    exact ⟨next, by simp only [Field.kind, readKind, rpacketReadStr, ran]; rfl, left⟩

theorem read_kinds (fields : List Field) (r : RPacket) (rest : List Byte)
    (small : (fieldsPayload fields).length < 2 ^ 32)
    (reads : Reads mem r (fieldsPayload fields ++ rest)) :
    ∃ next, readKinds mem r (fields.map Field.kind) = some (.ok (fields.map Field.datum, next)) ∧
      Reads mem next rest := by
  induction fields generalizing r with
  | nil => exact ⟨r, rfl, reads⟩
  | cons field fields ih =>
    rw [fieldsPayload, flatMap_cons] at small reads
    rw [append_assoc] at reads
    rw [length_append] at small
    obtain ⟨middle, ran, left⟩ := read_kind field (by omega) reads
    obtain ⟨next, others, last⟩ := ih middle (Nat.lt_of_le_of_lt (Nat.le_add_left _ _) small) left
    refine ⟨next, ?_, last⟩
    rw [map_cons, readKinds, ran]
    simp only [LuaResult.next]
    rw [others]
    rfl

theorem read_packet {least : Nat} {b : ByteBuffer} {fields : List Field} (wide : 3 ≤ least)
    (small : headerSize + (fieldsPayload fields).length < 2 ^ 32)
    (layout : Layout least mem b (encodePacket (fieldsPayload fields))) :
    ∃ r, readPacket mem b (fields.map Field.kind) = some (.ok (fields.map Field.datum, r)) ∧
      r.dataRemain = 0 := by
  have size : (encodePacket (fieldsPayload fields)).length < 2 ^ 32 := by
    rw [length_encode_packet]
    exact small
  obtain ⟨start, new, reads⟩ := new_rpacket wide layout rfl size
  rw [← append_nil (fieldsPayload fields)] at reads
  obtain ⟨r, ran, left⟩ := read_kinds fields start [] (by omega) reads
  refine ⟨r, ?_, left.counted⟩
  rw [readPacket, new]
  exact ran

end Reading

/-! ## Through the decoder -/

theorem packet_bytes_packets (payloads : List (List Byte)) :
    packetBytes (packets payloads) = payloads.map encodePacket := by
  rw [packetBytes, packets, filterMap_map, ← filterMap_eq_map]
  rfl

theorem recv_buffer_wide (recvBufferSize max : Nat) :
    3 ≤ (recvSocketNew recvBufferSize max).recvBufferSize := by
  rw [recvSocketNew]
  dsimp only
  split_ifs <;> omega

/-- However a stream of packets is cut into reads, each of them is delivered, on
chunks of the socket's size. -/
theorem packets_delivered (junk : Nat → Nat → Byte) (mem : Memory)
    {recvBufferSize max limit step fuel : Nat} {payloads reads : List (List Byte)}
    (small : recvBufferSize < 2 ^ 32) (bounded : max < 2 ^ 32) (sufficient : limit ≤ max)
    (room : limit + step < 2 ^ 32) (limits : WithinLimit limit payloads)
    (sizes : ∀ bytes ∈ reads, bytes.length ≤ step) (cut : reads.flatten = wire payloads)
    (readable : Readable junk (fun _ => []) fuel (newSession mem recvBufferSize max) reads)
    (fueled : payloads.length < fuel) :
    List.Forall₂ (fun delivery bytes =>
        Layout (recvSocketNew recvBufferSize max).recvBufferSize delivery.1 delivery.2 bytes)
      (processReadsDeliveries junk (fun _ => []) fuel (newSession mem recvBufferSize max) reads)
      (payloads.map encodePacket) := by
  have careful :=
    quiet_reads max (recvSocketNew recvBufferSize max).recvBufferSize fuel newFlow reads
  have space := (new_readable_iff junk mem fuel small careful).mp readable
  obtain ⟨last, -, events, delivers⟩ := reads_flow junk mem fuel small careful readable
  obtain ⟨final, returns, all⟩ :=
    flow_reads_wire bounded (fun _ => step) (fun _ => Nat.le_refl step)
    sufficient room reads payloads fuel newFlow limits (space.bounded sizes) le_rfl
    (fun payload _ => by rw [length_encode_packet]; exact Nat.add_pos_left (by decide) _) cut fueled
  rw [returns, all] at events
  rw [events, Delivers, newFlow, nil_append, packet_bytes_packets] at delivers
  exact delivers

theorem wire_fields (written : List (List Field)) :
    wire (written.map fieldsPayload) =
      written.flatMap fun fields =>
        bigEndian 4 (fieldsPayload fields).length ++ fieldsPayload fields := by
  rw [wire, flatMap_map]
  apply flatMap_congr
  intro fields _
  exact encode_packet_big _

/-- A packet of values is its payload behind the length of it. However packets
with at least one value travel through the decoder, a reader on each delivered
buffer returns the values in order and has nothing left. A read brings less than
`2 ^ 31` bytes, as `process_read` counts them in an `int32_t`. -/
theorem typed_packets_survive (junk : Nat → Nat → Byte) (mem : Memory)
    (recvBufferSize max fuel : Nat) (written : List (List Field)) (reads : List (List Byte))
    (buffers : recvBufferSize < 2 ^ 32) (bounded : max < 2 ^ 32)
    (small : ∀ fields ∈ written, headerSize + (fieldsPayload fields).length < 2 ^ 31)
    (filled : ∀ fields ∈ written, fields ≠ [])
    (sufficient : ∀ fields ∈ written, headerSize + (fieldsPayload fields).length ≤ max)
    (cut : reads.flatten = written.flatMap fun fields =>
      bigEndian 4 (fieldsPayload fields).length ++ fieldsPayload fields)
    (counts : ∀ bytes ∈ reads, bytes.length < 2 ^ 31)
    (readable : Readable junk (fun _ => []) fuel (newSession mem recvBufferSize max) reads)
    (fueled : written.length < fuel) :
    (∀ fields ∈ written, ∀ writerJunk writerMem initcap, ∃ after b,
      writePacket writerJunk writerMem initcap fields = some (.ok (after, b)) ∧
      bytebufferRead after b 0 b.datasize =
        some (bigEndian 4 (fieldsPayload fields).length ++ fieldsPayload fields)) ∧
    List.Forall₂ (fun fields delivery => ∃ r,
        readPacket delivery.1 delivery.2 (fields.map Field.kind) =
          some (.ok (fields.map Field.datum, r)) ∧ r.dataRemain = 0) written
      (processReadsDeliveries junk (fun _ => []) fuel (newSession mem recvBufferSize max)
        reads) := by
  constructor
  · intro fields member writerJunk writerMem initcap
    have := small fields member
    exact write_packet writerJunk writerMem initcap fields (by omega)
  · have limits : WithinLimit (min max (2 ^ 31)) (written.map fieldsPayload) := by
      intro payload member
      obtain ⟨fields, inside, rfl⟩ := mem_map.mp member
      have less := small fields inside
      have fits := sufficient fields inside
      exact ⟨fields_payload_nonempty (filled fields inside), by omega⟩
    have delivered := packets_delivered junk mem buffers bounded (Nat.min_le_left max (2 ^ 31))
      (show min max (2 ^ 31) + (2 ^ 31 - 1) < 2 ^ 32 by omega) limits
      (fun bytes member => Nat.le_pred_of_lt (counts bytes member))
      (cut.trans (wire_fields written).symm) readable (by rw [length_map]; exact fueled)
    rw [map_map, List.forall₂_map_right_iff] at delivered
    have checked := (List.forall₂_and_left written _).mpr ⟨small, delivered.flip⟩
    refine checked.imp ?_
    rintro fields delivery ⟨less, layout⟩
    exact read_packet (recv_buffer_wide recvBufferSize max) (by omega) layout

/-- Two packets in three reads that end inside a header and inside a number. -/
theorem two_typed_packets_survive :
    (∀ fields ∈ [[Field.i16 (-2), .str [7]], [.i8 5]], ∀ writerJunk writerMem initcap,
      ∃ after b, writePacket writerJunk writerMem initcap fields = some (.ok (after, b)) ∧
        bytebufferRead after b 0 b.datasize =
          some (bigEndian 4 (fieldsPayload fields).length ++ fieldsPayload fields)) ∧
    List.Forall₂ (fun fields delivery => ∃ r,
        readPacket delivery.1 delivery.2 (fields.map Field.kind) =
          some (.ok (fields.map Field.datum, r)) ∧ r.dataRemain = 0)
      [[Field.i16 (-2), .str [7]], [.i8 5]]
      (processReadsDeliveries (fun _ _ => 0) (fun _ => []) 3 (newSession ⟨fun _ => none, 0⟩ 1 100)
        [[0, 0], [0, 7, 255], [254, 0, 0, 0, 1, 7, 0, 0, 0, 1, 5]]) := by
  have space : WithinSpace (exposed 1024) 100 3 newFlow
      [[0, 0], [0, 7, 255], [254, 0, 0, 0, 1, 7, 0, 0, 0, 1, 5]] :=
    ⟨⟨by decide, by decide⟩, fun _ => ⟨⟨by decide, by decide⟩, fun _ =>
      ⟨⟨by decide, by decide⟩, fun _ => trivial⟩⟩⟩
  have readable := (new_readable_iff (fun _ _ => 0) ⟨fun _ => none, 0⟩ 3 (by decide)
    (quiet_reads 100 (recvSocketNew 1 100).recvBufferSize 3 newFlow _)).mpr space
  exact typed_packets_survive (fun _ _ => 0) ⟨fun _ => none, 0⟩ 1 100 3 _ _ (by decide) (by decide)
    (by decide) (by decide) (by decide) (by decide) (by decide) readable (by decide)

/-- A packet without values is only its length, 0, and the decoder waits for
more. -/
theorem empty_packet_undelivered :
    ((writePacket (fun _ _ => 0) ⟨fun _ => none, 0⟩ 64 []).bind fun
      | .ok (after, b) => bytebufferRead after b 0 b.datasize
      | .error _ => none) = some [0, 0, 0, 0] ∧
    (processReadsDeliveries (fun _ _ => 0) (fun _ => []) 3 (newSession ⟨fun _ => none, 0⟩ 1 100)
      [[0, 0, 0, 0]]).length = 0 := by
  constructor <;> decide +kernel

end Chuck.PacketRoundTrip
