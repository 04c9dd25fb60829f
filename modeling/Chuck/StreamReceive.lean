import Chuck.PacketFraming
import Chuck.ReceiveTape

/-!
# The receive path refines the abstract receiver

The decoder, the socket and the delivered packet walk one chain of chunks. Each
of them stands at a position of the stream, and each operation of the source
moves one of them. Draining a packet cuts the links of the chunks it leaves, so
it must not leave the chunk that the socket still receives into while there is
another one behind it.
-/

namespace Chuck.StreamReceive

open Support.SharedChain ByteChunkModel ByteChainReading StreamRecvModel PacketFraming
open ReceiveTape List Option

variable {rbs : Nat}

variable {consumed : Nat} {holds : List Nat} {stream : List Byte}

/-! ## Packets off a chain of chunks -/

/-- From position `start` of chunk `i` it is `total` bytes to position `spos` of chunk `j`,
which is the end of the chain if `j` is `hi`. -/
structure Moved (payload : Nat → List Byte) (hi i start total j spos : Nat) : Prop where
  lower : i ≤ j
  upper : j ≤ hi
  place : (bytesFrom payload i j).length + spos = start + total
  inside : spos = 0 ∨ j < hi ∧ spos < (payload j).length

section Chains

variable {addr : Nat → Nat} {payload : Nat → List Byte} {hi : Nat} {others : List Nat}

theorem skip_chain (fuel i total : Nat) (mem : Memory) (d : PacketDecoder)
    (held : Held addr payload mem hi (i :: others)) (b : d.b = some (addr i))
    (inside : d.spos ≤ (payload i).length)
    (enough : d.spos + total ≤ (bytesFrom payload i hi).length) (fueled : hi - i ≤ fuel) :
    ∃ after j spos, skipLoop fuel mem d total =
        some (after, { d with b := linkTo addr hi j, spos := spos, size := d.size - total }) ∧
      Moved payload hi i d.spos total j spos ∧
        Held addr payload after hi (link hi j ++ others) := by
  have upper := held.inside mem_cons_self
  induction fuel generalizing i total mem d with
  | zero => omega
  | succ fuel ih =>
    obtain ⟨count, cell⟩ := held.cell mem_cons_self le_rfl upper
    rw [bytes_from_cons payload upper, length_append] at enough
    rw [skipLoop]
    simp only [b, bind_eq_bind, bind_some, cell, cellAt]
    by_cases within : d.spos + total < (payload i).length
    · rw [Nat.min_eq_right (by omega), if_neg (by omega), Nat.sub_self, if_pos rfl]
      refine ⟨mem, i, d.spos + total, ?_,
        ⟨Nat.le_refl i, Nat.le_of_lt upper, ?_, .inr ⟨upper, within⟩⟩, link_of_lt upper ▸ held⟩
      · rw [link_inside addr upper]
      · rw [bytes_from_empty payload (Nat.le_refl i), length_nil, Nat.zero_add]
    · rw [Nat.min_eq_left (by omega), if_pos (by omega)]
      have first : (bytesFrom payload i (i + 1)).length = (payload i).length := by
        rw [bytes_from_cons payload (Nat.lt_succ_self i), bytes_from_empty payload le_rfl,
          append_nil]
      by_cases more : i + 1 < hi
      · obtain ⟨both, retained, heldBoth⟩ := held.retain mem_cons_self (Nat.le_succ _) more
        obtain ⟨moved, released, heldNext⟩ := (heldBoth.perm (List.Perm.swap _ _ _)).release
        simp only [if_pos more, bytechunkRetain, retained, bytechunkRelease, released,
          bind_some]
        by_cases done : total - ((payload i).length - d.spos) = 0
        · obtain rfl : total = (payload i).length - d.spos := by omega
          rw [if_pos (.inr done), ← link_inside addr more]
          exact ⟨moved, i + 1, 0, rfl, ⟨Nat.le_succ i, more.le, by omega, .inl rfl⟩,
            link_of_lt more ▸ heldNext⟩
        · rw [if_neg (by simp [done])]
          obtain ⟨after, j, spos, ran, there, holding⟩ := ih (i + 1)
            (total - ((payload i).length - d.spos)) moved { d with
              b := some (addr (i + 1)), spos := 0
              size := d.size - ((payload i).length - d.spos) }
            heldNext rfl (Nat.zero_le _) (by simp only; omega) (by omega) more
          have lower := there.lower
          have place := there.place
          refine ⟨after, j, spos, ?_, ⟨by omega, there.upper, ?_, there.inside⟩, holding⟩
          · rw [ran, Nat.sub_sub, Nat.add_sub_cancel' (by omega)]
          · rw [bytes_from_cons payload (by omega), length_append]
            dsimp only at place
            omega
      · -- The packet ends with the last chunk: the decoder is left without one.
        obtain rfl : hi = i + 1 := by omega
        rw [bytes_from_empty payload le_rfl, length_nil] at enough
        obtain rfl : total = (payload i).length - d.spos := by omega
        obtain ⟨moved, released, left⟩ := held.release
        simp only [if_neg more, bytechunkRetain, bytechunkRelease, released, bind_some,
          true_or, if_true]
        refine ⟨moved, i + 1, 0, ?_, ⟨Nat.le_succ i, le_rfl, by omega, .inl rfl⟩,
          link_end (i + 1) ▸ left⟩
        rw [linkTo, if_neg (Nat.lt_irrefl _)]

variable {i : Nat} {mem : Memory} {d : PacketDecoder} {pending : List Byte}

theorem take_chain (junk : Nat → Nat → Byte) {total : Nat}
    (held : Held addr payload mem hi (i :: others))
    (b : d.b = some (addr i)) (inside : d.spos ≤ (payload i).length)
    (enough : d.spos + total ≤ (bytesFrom payload i hi).length) :
    ∃ after j spos, takePacket junk mem d total =
        some (.packet { blankBuffer with
            head := some (addr i), tail := some (addr i), spos := d.spos, datasize := total },
          after, { d with b := linkTo addr hi j, spos := spos, size := d.size - total }) ∧
      Moved payload hi i d.spos total j spos ∧
      Held addr payload after hi (i :: (link hi j ++ others)) := by
  have upper := held.inside mem_cons_self
  obtain ⟨shared, retained, heldShared⟩ := held.retain mem_cons_self le_rfl upper
  obtain ⟨lo, chain⟩ := heldShared.chain mem_cons_self
  have lower := (chain.segment.inside _ mem_cons_self).1
  have fuel := chain.segment.length_le
  obtain ⟨after, j, spos, skipped, moved, holding⟩ := skip_chain (shared.fresh + 1) i total shared d
    heldShared b inside enough (by omega)
  refine ⟨after, j, spos, ?_, moved, holding.perm perm_middle⟩
  rw [takePacket, bytebufferNewBychunk, b]
  simp only [bytebufferInit, retained, map_some, bind_eq_bind, bind_some,
    skipped]
  rfl

/-- The decoder reads the header of what it has, wherever the chunks end. -/
theorem header_read (some : headerSize < d.size) (counted : d.size ≤ pending.length)
    (place : pending = [] ∨ ∃ addr payload hi i others,
      Held addr payload mem hi (i :: others) ∧ d.b = .some (addr i) ∧
        d.spos ≤ (payload i).length ∧ pending <+: (bytesFrom payload i hi).drop d.spos) :
    ∃ reached last, bytechunkRead mem d.b d.spos headerSize =
      .some (pending.take headerSize, reached, last) := by
  rcases place with none | ⟨addr, payload, hi, i, others, held, b, inside, ⟨rest, whole⟩⟩
  · rw [none, length_nil] at counted
    omega
  have lengths := congrArg List.length whole
  rw [length_append, length_drop] at lengths
  obtain ⟨lo, chain⟩ := held.chain mem_cons_self
  obtain ⟨lower, upper⟩ := chain.segment.inside _ mem_cons_self
  have fuel := chain.segment.length_le
  obtain ⟨reached, last, header, -⟩ := chunk_read_loop chain.segment (mem.fresh + 1) i d.spos
    headerSize lower (fun _ => inside) (by omega) (by omega)
  rw [← whole, take_append_of_le_length (by omega), link_inside addr upper, ← b] at header
  exact ⟨_, last, header⟩

end Chains

/-! ## The decoder -/

/-- A decoder that has handed out `consumed` of `received` bytes. `holds` are the
chunks it holds: one, or none once everything is handed out. -/
structure DecoderAt (rbs : Nat) (tape : Tape) (d : PacketDecoder) (received consumed : Nat)
    (holds : List Nat) : Prop where
  size : d.size = (received - consumed) % 2 ^ 32
  inside : consumed ≤ received
  place : (d.b = none ∧ consumed = received ∧ holds = []) ∨
    (d.b = some (tape.addr (consumed / rbs)) ∧ d.spos = consumed % rbs ∧
      consumed / rbs < tape.hi ∧ holds = [consumed / rbs])

section Decoder

variable {tape : Tape} {mem : Memory} {others : List Nat} {d : PacketDecoder}

theorem DecoderAt.extend {longer : Tape} {received : Nat}
    (decoder : DecoderAt rbs tape d received consumed holds) (extends_ : tape.Extends longer) :
    DecoderAt rbs longer d received consumed holds := by
  refine ⟨decoder.size, decoder.inside, ?_⟩
  rcases decoder.place with none | ⟨b, spos, inside, holding⟩
  · exact .inl none
  · refine .inr ⟨?_, spos, inside.trans_le extends_.hi, holding⟩
    rw [b, extends_.addr _ inside]

theorem DecoderAt.view (decoder : DecoderAt rbs tape d stream.length consumed holds)
    (stores : tape.Stores rbs stream consumed) (kept : tape.Kept rbs mem (holds ++ others))
    (some : consumed < stream.length) :
    holds = [consumed / rbs] ∧ consumed / rbs < tape.hi ∧ d.b = .some (tape.addr (consumed / rbs)) ∧
      d.spos = consumed % rbs ∧ d.spos ≤ (tape.payload (consumed / rbs)).length ∧
      stream.drop consumed <+: (bytesFrom tape.payload (consumed / rbs) tape.hi).drop d.spos := by
  rcases decoder.place with ⟨-, all, -⟩ | ⟨b, spos, inside, holding⟩
  · exact absurd all some.ne
  · have positive : 0 < rbs := Nat.pos_of_ne_zero fun zero => by
      have := stores.fits
      rw [zero, Nat.mul_zero] at this
      omega
    rw [spos, kept.sized _ inside]
    exact ⟨holding, inside, b, rfl, (Nat.mod_lt _ positive).le, stores.view kept.sized le_rfl⟩

theorem unpack_parse (junk : Nat → Nat → Byte)
    (decoder : DecoderAt rbs tape d stream.length consumed holds)
    (stores : tape.Stores rbs stream consumed) (kept : tape.Kept rbs mem (holds ++ others)) :
    packetDecoderUnpack junk mem d =
      match parse d.max (stream.drop consumed) with
      | .incomplete => some (.incomplete, mem, d)
      | .bad code => some (.error code, mem, d)
      | .frame total => takePacket junk mem d total := by
  rw [packetDecoderUnpack, parse, length_drop, ← decoder.size]
  by_cases empty : d.size ≤ headerSize
  · rw [if_pos empty, if_pos empty]
  have size : d.size ≤ stream.length - consumed := decoder.size ▸ Nat.mod_le _ _
  obtain ⟨rfl, -, b, -, inside, view⟩ := decoder.view stores kept (by omega)
  obtain ⟨reached, last, header⟩ := header_read (not_le.mp empty)
    (length_drop ▸ size) (.inr ⟨_, _, _, _, others, kept.held, b, inside, view⟩)
  rw [if_neg empty, if_neg empty, header]
  simp only [bind_eq_bind, bind_some]
  rw [if_neg (by rw [length_take, length_drop]; omega)]
  split_ifs <;> rfl

def packetAt (rbs : Nat) (tape : Tape) (o total : Nat) : ByteBuffer :=
  { blankBuffer with
    head := some (tape.addr (o / rbs)), tail := some (tape.addr (o / rbs))
    spos := o % rbs, datasize := total }

theorem take_packet (junk : Nat → Nat → Byte) (positive : 0 < rbs) {total : Nat}
    (decoder : DecoderAt rbs tape d stream.length consumed holds)
    (stores : tape.Stores rbs stream consumed) (kept : tape.Kept rbs mem (holds ++ others))
    (parsed : parse d.max (stream.drop consumed) = .frame total) :
    ∃ after next, takePacket junk mem d total =
        some (.packet (packetAt rbs tape consumed total), after, next) ∧ next.max = d.max ∧
      DecoderAt rbs tape next stream.length (consumed + total)
        (link tape.hi ((consumed + total) / rbs)) ∧ consumed / rbs < tape.hi ∧
      tape.Kept rbs after
        (consumed / rbs :: (link tape.hi ((consumed + total) / rbs) ++ others)) := by
  obtain ⟨long, less, enough⟩ := parse_frame_fits parsed
  rw [length_drop] at long less enough
  have sized := kept.sized
  obtain ⟨rfl, inside, b, spos, within, view⟩ := decoder.view stores kept (by omega)
  have size := view.length_le
  rw [length_drop, length_drop] at size
  obtain ⟨after, j, pos, ran, moved, holding⟩ := take_chain junk kept.held b within
    (show d.spos + total ≤ _ by omega)
  have split := Nat.div_add_mod consumed rbs
  have there : pos < rbs ∧ consumed + total = j * rbs + pos := by
    have place := moved.place
    have lower : consumed / rbs * rbs ≤ j * rbs := Nat.mul_le_mul_right _ moved.lower
    rw [length_bytes_from sized _ moved.upper, Nat.sub_mul, spos] at place
    rw [Nat.mul_comm] at split
    refine ⟨?_, by omega⟩
    rcases moved.inside with rfl | ⟨upper, below⟩
    · exact positive
    · exact sized j upper ▸ below
  obtain ⟨chunk, rest⟩ := place_of j there.1
  rw [← there.2] at chunk rest
  refine ⟨after, { d with b := linkTo tape.addr tape.hi j, spos := pos, size := d.size - total },
    ?_, rfl, ⟨?_, by omega, ?_⟩, inside, chunk ▸ holding, sized⟩
  · rw [ran, packetAt, spos]
  · dsimp only
    rw [decoder.size]
    omega
  · rw [chunk]
    by_cases more : j < tape.hi
    · exact .inr ⟨link_inside _ more, rest.symm, more, link_of_lt more⟩
    · have fits := stores.fits
      have last : j = tape.hi := Nat.le_antisymm moved.upper (not_lt.mp more)
      have all : tape.hi * rbs ≤ consumed + total := by
        rw [there.2, last]
        omega
      exact .inl ⟨if_neg more, by omega, if_neg more⟩

end Decoder

/-! ## The callback -/

def drained (left : Nat) : List Nat → Nat
  | [] => 0
  | size :: sizes =>
    if size ≤ left then size + drained (left - size) sizes else drained left sizes

/-- A packet from position `o` on, of which `left` bytes are left. -/
structure PacketFrom (rbs : Nat) (tape : Tape) (b : ByteBuffer) (o left : Nat) : Prop where
  head : b.head = linkTo tape.addr tape.hi (o / rbs)
  spos : b.spos = o % rbs
  counted : b.datasize = left

section Draining

variable {tape : Tape} {mem : Memory} {others : List Nat} {stream : List Byte} {start : Nat}

/-- The links that a reader cuts when it goes from position `o` to `last` are
needed by nobody else. -/
def Clear (rbs : Nat) (tape : Tape) (others : List Nat) (o last : Nat) : Prop :=
  ∀ j, o / rbs ≤ j → (j + 1) * rbs ≤ last → j + 1 < tape.hi → ∀ k ∈ others, j < k

theorem Clear.less {o last later less : Nat} (clear : Clear rbs tape others o last)
    (from_ : o ≤ later) (fewer : less ≤ last) : Clear rbs tape others later less :=
  fun j lower reached => clear j (Nat.le_trans (Nat.div_le_div_right from_) lower)
    (reached.trans fewer)

theorem PacketFrom.stands {b : ByteBuffer} {o left : Nat} (positive : 0 < rbs)
    (packet : PacketFrom rbs tape b o left) (fits : o ≤ tape.hi * rbs)
    (kept : tape.Kept rbs mem (link tape.hi (o / rbs) ++ others)) :
    StandsAt tape.addr tape.payload tape.hi others mem b (o / rbs) := by
  have split := Nat.div_add_mod o rbs
  refine ⟨packet.head, ?_, fun inside => ?_, fun last => ?_, kept.held⟩
  · exact Nat.div_le_of_le_mul (Nat.mul_comm _ _ ▸ fits)
  · rw [packet.spos, kept.sized _ inside]
    exact Nat.mod_lt _ positive
  · rw [last, Nat.mul_comm] at split
    rw [packet.spos]
    omega

theorem drain_packet (positive : 0 < rbs) {b : ByteBuffer} {o left size : Nat}
    (stores : tape.Stores rbs stream start) (lower : start ≤ o)
    (within : o + left ≤ stream.length) (packet : PacketFrom rbs tape b o left)
    (kept : tape.Kept rbs mem (link tape.hi (o / rbs) ++ others)) (enough : size ≤ left)
    (clear : Clear rbs tape others o (o + size)) :
    ∃ out after next, bytebufferReadDrain mem b size = some (out, after, next) ∧
      PacketFrom rbs tape next (o + size) (left - size) ∧
      tape.Kept rbs after (link tape.hi ((o + size) / rbs) ++ others) := by
  have fits := stores.fits
  have stands := packet.stands positive (by omega) kept
  have split := Nat.div_add_mod o rbs
  rw [Nat.mul_comm] at split
  by_cases upper : o / rbs < tape.hi
  · have taken : ((stream.drop o).take left).length = left := by
      rw [length_take, length_drop]
      omega
    have sized := kept.sized
    obtain ⟨after, next, j, ran, same, standing, later, rest⟩ := drain_view stands upper
      (fun j _ inside => by rw [sized j inside]; exact positive)
      (packet.counted.trans taken.symm)
      ((List.take_prefix _ _).trans (packet.spos ▸ stores.view sized lower))
      (taken.symm ▸ enough) (fun j low high reached => by
        refine clear j low ?_ high
        rw [length_bytes_from sized _ high.le, packet.spos, Nat.sub_mul] at reached
        have : o / rbs * rbs ≤ (j + 1) * rbs := Nat.mul_le_mul_right _ (by omega)
        omega)
    -- The end of the chain is as far from the new position as it should be.
    have lengths := congrArg List.length rest
    rw [length_drop, length_drop, length_bytes_from sized _ le_rfl,
      length_bytes_from sized _ le_rfl, packet.spos, Nat.sub_mul, Nat.sub_mul] at lengths
    have bounded : j * rbs ≤ tape.hi * rbs := Nat.mul_le_mul_right _ standing.bounded
    have place : next.spos < rbs ∧ o + size = j * rbs + next.spos := by
      by_cases last : j = tape.hi
      · have zero := standing.ended last
        rw [last] at lengths ⊢
        omega
      · have inside := Nat.lt_of_le_of_ne standing.bounded last
        have spos := standing.inside inside
        have room : (j + 1) * rbs ≤ tape.hi * rbs := Nat.mul_le_mul_right _ inside
        rw [sized j inside] at spos
        rw [Nat.succ_mul] at room
        omega
    obtain ⟨chunk, pos⟩ := place_of j place.1
    rw [← place.2] at chunk pos
    refine ⟨_, after, next, ran, ⟨?_, pos.symm, ?_⟩, ?_⟩
    · rw [chunk]
      exact standing.head
    · rw [same, packet.counted]
    · rw [chunk]
      exact ⟨standing.held, sized⟩
  · -- Nothing is left and the packet has no chunk any more.
    have ended : o / rbs = tape.hi := Nat.le_antisymm stands.bounded (not_lt.mp upper)
    have zero := stands.ended ended
    rw [packet.spos] at zero
    rw [ended, zero] at split
    obtain rfl : size = 0 := by omega
    refine ⟨[], mem, b, ?_, packet, kept⟩
    rw [bytebufferReadDrain, if_pos (.inl (packet.head.trans (if_neg upper)))]

theorem drain_all (positive : 0 < rbs) (sizes : List Nat) (mem : Memory) (b : ByteBuffer)
    (o left : Nat) (stores : tape.Stores rbs stream start) (lower : start ≤ o)
    (within : o + left ≤ stream.length) (packet : PacketFrom rbs tape b o left)
    (kept : tape.Kept rbs mem (link tape.hi (o / rbs) ++ others))
    (clear : Clear rbs tape others o (o + drained left sizes)) :
    ∃ after next, drainAll mem b sizes = some (after, next) ∧
      PacketFrom rbs tape next (o + drained left sizes) (left - drained left sizes) ∧
      tape.Kept rbs after (link tape.hi ((o + drained left sizes) / rbs) ++ others) := by
  induction sizes generalizing mem b o left with
  | nil => exact ⟨mem, b, rfl, packet, kept⟩
  | cons size sizes ih =>
    rw [drained] at clear ⊢
    by_cases enough : size ≤ left
    · rw [if_pos enough] at clear ⊢
      obtain ⟨out, moved, next, ran, packet', kept'⟩ := drain_packet positive stores lower within
        packet kept enough (clear.less (Nat.le_refl o) (by omega))
      obtain ⟨after, last, rest, final, keptLast⟩ := ih moved next (o + size) (left - size)
        (by omega) (by omega) packet' kept' (clear.less (by omega) (by omega))
      rw [Nat.add_assoc] at final keptLast
      refine ⟨after, last, ?_, ?_, keptLast⟩
      · rw [drainAll, ran]
        exact rest
      · rw [← Nat.sub_sub]
        exact final
    · rw [if_neg enough] at clear ⊢
      obtain ⟨after, last, rest, final, keptLast⟩ := ih mem b o left lower within packet kept clear
      refine ⟨after, last, ?_, final, keptLast⟩
      have refused : bytebufferReadDrain mem b size = some ([], mem, b) :=
        if_pos (.inr (packet.counted ▸ not_le.mp enough))
      rw [drainAll, refused]
      exact rest

end Draining

end Chuck.StreamReceive
