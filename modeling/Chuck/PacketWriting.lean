import Chuck.NetworkOrder
import Chuck.ByteBufferRefinement

/-!
# The packet writer extends a payload

A writer's buffer always holds its payload behind the length of it. A position
behind the last byte can be kept as chunk and offset in it, as `_lua_pack_table`
does, and stays valid while the buffer grows; bytes can be replaced there later.
-/

namespace Chuck.PacketWriting

open Support.ByteOrder Support.SharedChain ByteChunkModel ByteChainReading ByteChainAppending
open ByteBufferRefinement ByteChainWriting StreamRecvModel PacketFraming PacketModel
open NetworkOrder List

/-! ## Buffers with positions kept -/

/-- A position kept: the chunk's address, the position in it and the offset in
the buffer. -/
structure Mark where
  chunk : Nat
  pos : Nat
  offset : Nat

def Mark.Points (mark : Mark) (addr : Nat → Nat) (payload : Nat → List Byte) (lo hi : Nat) : Prop :=
  ∃ j, lo ≤ j ∧ j < hi ∧ mark.chunk = addr j ∧ mark.pos ≤ (payload j).length ∧
    (bytesFrom payload lo j).length + mark.pos = mark.offset

/-- A buffer that nobody shares, whose bytes `L` begin at its first chunk. -/
def Keeps (marks : List Mark) (mem : Memory) (b : ByteBuffer) (L : List Byte) : Prop :=
  b.needCopyOnWrite = false ∧ b.readOnly = false ∧ b.spos = 0 ∧
    ∃ addr payload lo hi, Holding addr payload mem lo hi lo [] b L ∧
      headerSize ≤ (payload lo).length ∧ ∀ mark ∈ marks, mark.Points addr payload lo hi

section Marks

variable {addr addr' : Nat → Nat} {payload payload' : Nat → List Byte} {lo hi hi' : Nat}

theorem Mark.Points.moved {mark : Mark} (points : mark.Points addr payload lo hi)
    (longer : hi ≤ hi') (places : ∀ k, k < hi → addr' k = addr k)
    (sizes : ∀ k, k < hi → (payload' k).length = (payload k).length) :
    mark.Points addr' payload' lo hi' := by
  obtain ⟨j, low, high, chunk, inside, offset⟩ := points
  refine ⟨j, low, high.trans_le longer, ?_, ?_, ?_⟩
  · rw [chunk, places j high]
  · rw [sizes j high]
    exact inside
  · rw [← offset, length_bytes_same lo fun k _ below => sizes k (by omega)]

end Marks

theorem cap_holds_header (len : Nat) : headerSize ≤ chunkCap len := by
  unfold chunkCap chunkSize chunkHeader minBufLen headerSize
  split_ifs <;> omega

section Buffers

variable (junk : Nat → Nat → Byte) {marks : List Mark} {mem : Memory} {b : ByteBuffer}
  {L : List Byte}

theorem new_keeps (mem : Memory) (initcap : Nat) :
    ∃ after b, bytebufferNew junk mem initcap = some (after, b) ∧ Keeps [] after b [] := by
  refine ⟨_, _, rfl, rfl, rfl, rfl, _, _, 0, 1, new_chunk_holding junk mem blankBuffer initcap,
    ?_, nofun⟩
  rw [length_raw_data]
  exact cap_holds_header initcap

theorem Keeps.counted (keeps : Keeps marks mem b L) : b.datasize = L.length := by
  obtain ⟨-, -, -, _, _, _, _, holding, -⟩ := keeps
  exact holding.counted

theorem Keeps.read (keeps : Keeps marks mem b L) : bytebufferRead mem b 0 b.datasize = some L := by
  have counted := keeps.counted
  obtain ⟨-, -, -, _, _, _, _, holding, -⟩ := keeps
  rw [holding.read, drop_zero, counted, take_length]

theorem Keeps.append (keeps : Keeps marks mem b L) (v : List Byte)
    (fits : (L ++ v).length < 2 ^ 32) :
    ∃ after grown, bytebufferAppend junk mem b v = some (.ok, after, grown) ∧
      Keeps marks after grown (L ++ v) := by
  obtain ⟨copy, locked, start, addr, payload, lo, hi, holding, wide, points⟩ := keeps
  obtain ⟨addr', payload', hi', after, grown, ran, appended, held⟩ := holding.append junk v fits
  have tail : openTail junk mem b v.length = some (mem, b) := by
    rw [openTail, holding.tail.tail, if_neg (by simp)]
  have copied : copyOnWrite junk mem b = some (mem, b) := by
    rw [copyOnWrite, copy, if_neg Bool.false_ne_true]
  refine ⟨after, grown, ?_, ?_, ?_, ?_, addr', payload', lo, hi', held, ?_, ?_⟩
  · rw [bytebufferAppend, locked, if_neg Bool.false_ne_true]
    simp only [Option.bind_eq_bind, Option.bind_some, copied, tail, ran]
  · rw [appended.buffer]
    exact copy
  · rw [appended.buffer]
    exact locked
  · rw [appended.buffer]
    exact start
  · rw [appended.chain.sizes lo holding.bounds.2]
    exact wide
  · intro mark member
    exact (points mark member).moved appended.chain.longer appended.chain.places
      appended.chain.sizes

theorem Keeps.mark (keeps : Keeps marks mem b L) :
    ∃ chunk, b.tail = some chunk ∧ Keeps (⟨chunk, b.appendPos, L.length⟩ :: marks) mem b L := by
  obtain ⟨copy, locked, start, addr, payload, lo, hi, holding, wide, points⟩ := keeps
  have upper := holding.bounds.2
  refine ⟨addr (hi - 1), holding.tail.tail, copy, locked, start, addr, payload, lo, hi, holding,
    wide, ?_⟩
  intro mark member
  rcases mem_cons.mp member with rfl | older
  · have room := holding.tail.room
    refine ⟨hi - 1, by omega, by omega, rfl, room, ?_⟩
    rw [← holding.content, start, drop_zero, storedFrom, length_append, length_take,
      Nat.min_eq_left room]
  · exact points mark older

theorem Keeps.write {mark : Mark} (keeps : Keeps (mark :: marks) mem b L) (v : List Byte)
    (fits : mark.offset + v.length ≤ L.length) :
    ∃ after, bytechunkWrite mem (some mark.chunk) mark.pos v = some (after, []) ∧
      Keeps marks after b (overwrite L mark.offset v) := by
  obtain ⟨copy, locked, start, addr, payload, lo, hi, holding, wide, points⟩ := keeps
  obtain ⟨j, low, high, chunk, inside, offset⟩ := points mark mem_cons_self
  obtain ⟨payload', after, ran, held, written⟩ := Holding.write holding low high inside
    (by rw [start, offset, Nat.zero_add]) fits
  rw [← chunk] at ran
  refine ⟨after, ran, copy, locked, start, addr, payload', lo, hi, held, ?_, ?_⟩
  · rw [written.sizes]
    exact wide
  · intro other member
    exact (points other (mem_cons_of_mem _ member)).moved (Nat.le_refl hi) (fun _ _ => rfl)
      fun k _ => written.sizes k

end Buffers

/-! ## Writers -/

def Writes (marks : List Mark) (mem : Memory) (b : ByteBuffer) (p : List Byte) : Prop :=
  Keeps marks mem b (encodePacket p)

section Writers

variable (junk : Nat → Nat → Byte) {marks : List Mark} {mem : Memory} {b : ByteBuffer}
  {p : List Byte}

theorem Writes.counted (writes : Writes marks mem b p) : b.datasize = headerSize + p.length := by
  rw [Keeps.counted writes, length_encode_packet]

theorem Writes.small (writes : Writes marks mem b p) : headerSize + p.length < 2 ^ 32 := by
  obtain ⟨-, -, -, _, _, _, _, holding, -⟩ := writes
  have small := holding.small
  rw [length_encode_packet] at small
  exact small

theorem store_length {old : List Byte} (keeps : Keeps marks mem b (old ++ p))
    (four : old.length = headerSize) (small : headerSize + p.length < 2 ^ 32) :
    ∃ after, storeLength mem b = some after ∧ Writes marks after b p := by
  have counted := keeps.counted
  rw [length_append, four] at counted
  have number : (UInt32.ofNat (b.datasize + 2 ^ 32 - 4)).toNat = p.length := by
    have four : headerSize = 4 := rfl
    rw [UInt32.toNat_ofNat', counted]
    omega
  have bytes : littleEndian 4 (chkHton32 (.ofNat (b.datasize + 2 ^ 32 - 4))).toNat =
      encodeLength p.length := by
    rw [hton32_bytes, number, encode_length_big]
  obtain ⟨copy, locked, start, addr, payload, lo, hi, holding, wide, points⟩ := keeps
  have upper := holding.bounds.2
  obtain ⟨count, cell⟩ := cell_at holding.tail.chain.segment (Nat.le_refl lo) upper
  have size : (encodeLength p.length).length = headerSize := rfl
  have inside : 0 + (encodeLength p.length).length ≤ (payload lo).length := by
    rw [size, Nat.zero_add]
    exact wide
  have marked : Keeps (⟨addr lo, 0, 0⟩ :: marks) mem b (old ++ p) := by
    refine ⟨copy, locked, start, addr, payload, lo, hi, holding, wide, ?_⟩
    intro mark member
    rcases mem_cons.mp member with rfl | older
    · refine ⟨lo, Nat.le_refl lo, upper, rfl, Nat.zero_le _, ?_⟩
      rw [bytes_from_empty payload (Nat.le_refl lo)]
      rfl
    · exact points mark older
  have room : 0 + (encodeLength p.length).length ≤ (old ++ p).length := by
    rw [length_append, four, size]
    omega
  have direct := chunk_write_inside cell (ne_nil_of_length_pos (by rw [size]; decide)) inside
  obtain ⟨after, ran, kept⟩ := marked.write (encodeLength p.length) room
  rw [overwrite_start old p _ (four.trans size.symm)] at kept
  rw [direct] at ran
  obtain rfl := (Prod.mk.inj (Option.some.inj ran)).1
  refine ⟨_, ?_, kept⟩
  rw [storeLength, holding.head]
  simp only [Option.bind_eq_bind, Option.bind_some, cell, bytes, splice_overwrite inside]

theorem new_writer (mem : Memory) (initcap : Nat) :
    ∃ start b after writer, bytebufferNew junk mem initcap = some (start, b) ∧
      newWpacket junk start b = some (.ok (after, writer)) ∧ Writes [] after writer [] := by
  obtain ⟨start, b, made, keeps⟩ := new_keeps junk mem initcap
  obtain ⟨after, writer, ran, kept⟩ := keeps.append junk (littleEndian 4 0) (by simp)
  refine ⟨start, b, after, writer, made, ?_, kept⟩
  rw [newWpacket, keeps.2.1, if_neg Bool.false_ne_true, ran]
  rfl

theorem Writes.write (writes : Writes marks mem b p) (v : List Byte)
    (fits : headerSize + (p ++ v).length < 2 ^ 32) :
    ∃ after grown, wpacketWrite junk mem b v = some (true, after, grown) ∧
      Writes marks after grown (p ++ v) := by
  have counted := writes.counted
  have size : (encodePacket p ++ v).length = headerSize + (p ++ v).length := by
    rw [length_append, length_encode_packet, length_append, Nat.add_assoc]
  obtain ⟨stored, grown, ran, keeps⟩ := Keeps.append junk writes v (size ▸ fits)
  rw [encodePacket, append_assoc] at keeps
  obtain ⟨after, header, kept⟩ := store_length keeps rfl fits
  refine ⟨after, grown, ?_, kept⟩
  rw [length_append] at fits
  rw [wpacketWrite, if_neg (by omega), ran]
  simp only [Option.bind_eq_bind, Option.bind_some, header]

theorem Writes.refused (writes : Writes marks mem b p) (v : List Byte) (short : v.length < 2 ^ 32)
    (beyond : 2 ^ 32 ≤ headerSize + (p ++ v).length) :
    wpacketWrite junk mem b v = some (false, mem, b) := by
  have counted := writes.counted
  have small := writes.small
  rw [length_append] at beyond
  exact if_pos (by omega)

theorem Writes.writeAll (vs : List (List Byte)) (mem : Memory) (b : ByteBuffer) (p : List Byte)
    (writes : Writes marks mem b p) (fits : headerSize + (p ++ vs.flatten).length < 2 ^ 32) :
    ∃ after grown, wpacketWriteAll junk mem b vs = some (true, after, grown) ∧
      Writes marks after grown (p ++ vs.flatten) := by
  induction vs generalizing mem b p with
  | nil =>
    rw [flatten_nil, append_nil]
    exact ⟨mem, b, rfl, writes⟩
  | cons v vs ih =>
    rw [flatten_cons, ← append_assoc] at fits ⊢
    have first : headerSize + (p ++ v).length < 2 ^ 32 := by
      rw [length_append] at fits
      omega
    obtain ⟨middle, grown, ran, written⟩ := writes.write junk v first
    obtain ⟨after, last, rest, all⟩ := ih middle grown (p ++ v) written fits
    refine ⟨after, last, ?_, all⟩
    rw [wpacketWriteAll, ran]
    exact rest

theorem Writes.refusedAll (vs : List (List Byte)) (short : ∀ v ∈ vs, v.length < 2 ^ 32)
    (mem : Memory) (b : ByteBuffer) (p : List Byte) (writes : Writes marks mem b p)
    (beyond : 2 ^ 32 ≤ headerSize + (p ++ vs.flatten).length) :
    ∃ after last, wpacketWriteAll junk mem b vs = some (false, after, last) := by
  induction vs generalizing mem b p with
  | nil =>
    have small := writes.small
    rw [flatten_nil, append_nil] at beyond
    omega
  | cons v vs ih =>
    rw [wpacketWriteAll]
    by_cases fits : headerSize + (p ++ v).length < 2 ^ 32
    · obtain ⟨middle, grown, ran, written⟩ := writes.write junk v fits
      rw [flatten_cons, ← append_assoc] at beyond
      rw [ran]
      exact ih (forall_mem_cons.mp short).2 middle grown _
        written beyond
    · rw [writes.refused junk v (short v mem_cons_self) (not_lt.mp fits)]
      exact ⟨mem, b, rfl⟩

theorem Writes.mark (writes : Writes marks mem b p) :
    ∃ chunk, b.tail = some chunk ∧
      Writes (⟨chunk, b.appendPos, headerSize + p.length⟩ :: marks) mem b p := by
  obtain ⟨chunk, tail, kept⟩ := Keeps.mark writes
  rw [length_encode_packet] at kept
  exact ⟨chunk, tail, kept⟩

theorem Writes.replace {chunk pos : Nat} {before old after : List Byte} (v : List Byte)
    (writes : Writes (⟨chunk, pos, headerSize + before.length⟩ :: marks) mem b
      (before ++ (old ++ after))) (same : old.length = v.length) :
    ∃ last, bytechunkWrite mem (some chunk) pos v = some (last, []) ∧
      Writes marks last b (before ++ (v ++ after)) := by
  have size : (before ++ (old ++ after)).length = (before ++ (v ++ after)).length := by
    simp only [length_append, same]
  have front : (encodeLength (before ++ (old ++ after)).length ++ before).length + 0 =
      headerSize + before.length := by
    rw [length_append]
    rfl
  have whole : encodePacket (before ++ (old ++ after)) =
      (encodeLength (before ++ (old ++ after)).length ++ before) ++ (old ++ after) := by
    rw [encodePacket, append_assoc]
  obtain ⟨last, ran, kept⟩ := Keeps.write writes v (by
    rw [length_encode_packet]
    simp only [length_append]
    omega)
  refine ⟨last, ran, ?_⟩
  have bytes : overwrite (encodePacket (before ++ (old ++ after)))
      (headerSize + before.length) v = encodePacket (before ++ (v ++ after)) := by
    rw [whole, ← front, overwrite_behind, overwrite_start old after v same, encodePacket, size,
      append_assoc]
  rw [bytes] at kept
  exact kept

theorem Writes.read (writes : Writes marks mem b p) :
    bytebufferRead mem b 0 b.datasize = some (bigEndian 4 p.length ++ p) := by
  rw [Keeps.read writes, encode_packet_big]

end Writers

end Chuck.PacketWriting
