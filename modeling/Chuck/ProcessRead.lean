import Chuck.StreamReceive

/-!
# Runs of `process_read`

Every read is stored behind the stream, and the packets that are complete are
handed to the callback. As long as the callback drains its packets with care,
the events are those of the abstract receiver, however the stream is cut.
-/

namespace Chuck.ProcessRead

open Support.SharedChain ByteChunkModel ByteChainReading ChunkSizes StreamRecvModel
open PacketFraming ReceiveTape StreamReceive List Option

variable {rbs : Nat}

/-! ## Care -/

/-- Draining `size` bytes of a packet from position `o` on, while a read is
processed that was stored from position `start` on: the drain does not cross the
end of the chunk that `next_recv_buf` still points to, unless that chunk was the
last one. -/
def Harmless (rbs start o size : Nat) : Prop :=
  start % rbs = 0 ∨ o + size < (start / rbs + 1) * rbs ∨ (start / rbs + 1) * rbs ≤ o

def CarefulLoop (rbs max : Nat) (callback : List Event → List Nat) (start : Nat) : Nat → Flow → Prop
  | 0, _ => True
  | fuel + 1, flow =>
    match parse max flow.pending with
    | .frame total =>
      Harmless rbs start flow.consumed (drained total (callback (flow.take total).events)) ∧
        CarefulLoop rbs max callback start fuel (flow.take total)
    | .bad _ => True
    | .incomplete => True

def CarefulReads (rbs max : Nat) (callback : List Event → List Nat) (fuel : Nat) :
    Flow → List (List Byte) → Prop
  | _, [] => True
  | flow, bytes :: reads =>
    CarefulLoop rbs max callback flow.stream.length fuel (flow.receive bytes) ∧
      ((flowLoop max fuel (flow.receive bytes)).2 = true →
        CarefulReads rbs max callback fuel (flowLoop max fuel (flow.receive bytes)).1 reads)

/-- The reads the kernel can make: at least one byte, and at most what
`prepare_recv` exposes. -/
def Readable (junk : Nat → Nat → Byte) (callback : List Event → List Nat) (fuel : Nat) :
    Session → List (List Byte) → Prop
  | _, [] => True
  | session, bytes :: reads =>
    (1 ≤ bytes.length ∧
      ∃ mem s iovecs, prepareRecv junk session.mem session.socket = some (mem, s, iovecs) ∧
        bytes.length ≤ (iovecs.map Iovec.len).sum) ∧
      ∀ next, processRead junk callback fuel session bytes = some (next, true) →
        Readable junk callback fuel next reads

theorem drained_le (left : Nat) (sizes : List Nat) : drained left sizes ≤ left := by
  induction sizes generalizing left with
  | nil => exact Nat.zero_le _
  | cons size sizes ih =>
    rw [drained]
    split_ifs with enough
    · have := ih (left - size)
      omega
    · exact ih left

section Delivery

variable {tape : Tape}

theorem harmless_clear {start o total size : Nat} (positive : 0 < rbs)
    (hi : tape.hi = exposedEnd rbs start) (less : size ≤ total)
    (harmless : Harmless rbs start o size) :
    Clear rbs tape (link tape.hi ((o + total) / rbs) ++ [start / rbs]) o (o + size) := by
  intro j lower reached inside k member
  rcases mem_append.mp member with decoder | socket
  · have next : j + 1 ≤ (o + total) / rbs :=
      (Nat.le_div_iff_mul_le positive).mpr (by omega)
    rw [link] at decoder
    split_ifs at decoder
    · rw [mem_singleton.mp decoder]
      exact next
    · cases decoder
  · rw [mem_singleton.mp socket]
    rw [hi, exposedEnd] at inside
    rcases harmless with whole | before | behind
    · rw [if_pos whole] at inside
      omega
    · exact Nat.lt_of_succ_lt_succ
        (Nat.lt_of_mul_lt_mul_right (reached.trans_lt before))
    · have := (Nat.le_div_iff_mul_le positive).mpr behind
      split_ifs at inside <;> omega

theorem packet_layout (positive : 0 < rbs) {mem : Memory} {stream : List Byte} {others : List Nat}
    {o total : Nat} (stores : tape.Stores rbs stream o) (inside : o / rbs < tape.hi)
    (within : o + total ≤ stream.length) (kept : tape.Kept rbs mem (o / rbs :: others)) :
    Layout rbs mem (packetAt rbs tape o total) ((stream.drop o).take total) := by
  obtain ⟨lo, chain⟩ := kept.held.chain mem_cons_self
  refine ⟨tape.addr, tape.payload, lo, tape.hi, _, o / rbs, chain,
    (chain.segment.inside _ mem_cons_self).1, inside, ?_, rfl, ?_, ?_, ?_⟩
  · intro k _ small
    exact Nat.le_of_eq (kept.sized k small).symm
  · rw [kept.sized _ inside]
    exact Nat.mod_lt o positive
  · rw [length_take, length_drop, Nat.min_eq_left (by omega)]
    rfl
  · exact (List.take_prefix _ _).trans (stores.view kept.sized (Nat.le_refl o))

theorem deliver_packet (callback : List Event → List Nat) (positive : 0 < rbs) (session : Session)
    {stream : List Byte} {others : List Nat} {o total : Nat} (stores : tape.Stores rbs stream o)
    (inside : o / rbs < tape.hi) (within : o + total ≤ stream.length)
    (kept : tape.Kept rbs session.mem (o / rbs :: others))
    (clear : Clear rbs tape others o (o + drained total
      (callback (session.events ++ [.packet ((stream.drop o).take total)])))) :
    ∃ after, deliver callback session (packetAt rbs tape o total) =
        some { session with
          mem := after
          events := session.events ++ [.packet ((stream.drop o).take total)] } ∧
      tape.Kept rbs after others := by
  have taken : ((stream.drop o).take total).length = total := by
    rw [length_take, length_drop]
    omega
  have read : bytebufferRead session.mem (packetAt rbs tape o total) 0 total =
      some ((stream.drop o).take total) := by
    have whole := (packet_layout positive stores inside within kept).read 0 total
    rwa [drop_zero, take_of_length_le (Nat.le_of_eq taken)] at whole
  have packet : PacketFrom rbs tape (packetAt rbs tape o total) o total :=
    ⟨(link_inside _ inside).symm, rfl, rfl⟩
  obtain ⟨left, b, ran, rest, keptLeft⟩ := drain_all positive
    (callback (session.events ++ [.packet ((stream.drop o).take total)])) session.mem _ o total
    stores (Nat.le_refl o) within packet (by rw [link_of_lt inside]; exact kept) clear
  have deleted : ∃ after none, bytebufferFinalize left b = some (after, none) ∧
      tape.Kept rbs after others := by
    rw [bytebufferFinalize, rest.head, linkTo]
    rw [link] at keptLeft
    split_ifs at keptLeft ⊢
    · obtain ⟨after, released, keptAfter⟩ := keptLeft.release
      refine ⟨after, { b with head := none }, ?_, keptAfter⟩
      simp only [bytechunkRelease, released, map_some]
    · exact ⟨left, b, rfl, keptLeft⟩
  obtain ⟨after, none, finalized, keptAfter⟩ := deleted
  refine ⟨after, ?_, keptAfter⟩
  rw [deliver, show (packetAt rbs tape o total).datasize = total from rfl, read]
  simp only [bind_eq_bind, bind_some, ran, finalized]

end Delivery

/-! ## Deliveries -/

abbrev Delivery := Memory × ByteBuffer

section Deliveries

variable (junk : Nat → Nat → Byte) (callback : List Event → List Nat)

def unpackLoopDeliveries : Nat → Session → List Delivery
  | 0, _ => []
  | fuel + 1, session =>
    match packetDecoderUnpack junk session.mem session.socket.decoder with
    | some (.packet b, mem, d) =>
      (mem, b) ::
        match deliver callback
          { session with mem := mem, socket := { session.socket with decoder := d } } b with
        | some next => unpackLoopDeliveries fuel next
        | none => []
    | _ => []

def processReadDeliveries (fuel : Nat) (session : Session) (bytes : List Byte) : List Delivery :=
  let unpacking := do
    let (mem, s, iovecs) ← prepareRecv junk session.mem session.socket
    let mem ← readv mem iovecs bytes
    let (mem, d) ← packetDecoderUpdate mem s.decoder s.nextRecvBuf s.nextRecvPos bytes.length
    some { session with mem := mem, socket := { s with decoder := d } }
  match unpacking with
  | some session => unpackLoopDeliveries junk callback fuel session
  | none => []

def processReadsDeliveries (fuel : Nat) : Session → List (List Byte) → List Delivery
  | _, [] => []
  | session, bytes :: reads =>
    processReadDeliveries junk callback fuel session bytes ++
      match processRead junk callback fuel session bytes with
      | some (next, true) => processReadsDeliveries fuel next reads
      | _ => []

end Deliveries

def packetBytes (events : List Event) : List (List Byte) :=
  events.filterMap fun
    | .packet bytes => some bytes
    | .error _ => none

def Delivers (rbs : Nat) (deliveries : List Delivery) (events : List Event) : Prop :=
  List.Forall₂ (fun delivery bytes => Layout rbs delivery.1 delivery.2 bytes) deliveries
    (packetBytes events)

theorem Delivers.append {first second : List Delivery} {early late : List Event}
    (left : Delivers rbs first early) (right : Delivers rbs second late) :
    Delivers rbs (first ++ second) (early ++ late) := by
  rw [Delivers, packetBytes, filterMap_append]
  exact rel_append left right

/-! ## The loop -/

structure Reading (rbs max : Nat) (tape : Tape) (start : Nat) (session : Session) (flow : Flow)
    (holds : List Nat) : Prop where
  size : session.socket.recvBufferSize = rbs
  buf : session.socket.nextRecvBuf = some (tape.addr (start / rbs))
  pos : session.socket.nextRecvPos = start % rbs
  hi : tape.hi = exposedEnd rbs start
  limit : session.socket.decoder.max = max
  decoder : DecoderAt rbs tape session.socket.decoder flow.stream.length flow.consumed holds
  kept : tape.Kept rbs session.mem (holds ++ [start / rbs])
  stores : tape.Stores rbs flow.stream flow.consumed
  events : session.events = flow.events

section Loop

variable (junk : Nat → Nat → Byte) (callback : List Event → List Nat) {max : Nat}

theorem unpack_loop (positive : 0 < rbs) {tape : Tape} {start : Nat} (fuel : Nat)
    (session : Session) (flow : Flow) (holds : List Nat)
    (reading : Reading rbs max tape start session flow holds)
    (careful : CarefulLoop rbs max callback start fuel flow) :
    ∃ next after, unpackLoop junk callback fuel session =
        some (next, (flowLoop max fuel flow).2) ∧
      Reading rbs max tape start next (flowLoop max fuel flow).1 after ∧
      ∃ told, next.events = session.events ++ told ∧
        Delivers rbs (unpackLoopDeliveries junk callback fuel session) told := by
  induction fuel generalizing session flow holds with
  | zero => exact ⟨session, holds, rfl, reading, [], (append_nil _).symm, .nil⟩
  | succ fuel ih =>
    have unpacked := unpack_parse junk reading.decoder reading.stores reading.kept
    rw [reading.limit, ← Flow.pending] at unpacked
    rw [unpackLoop, flowLoop, unpackLoopDeliveries]
    rw [CarefulLoop] at careful
    cases parsed : parse max flow.pending with
    | frame total =>
      rw [parsed] at unpacked careful
      have framed := parsed
      rw [Flow.pending, ← reading.limit] at framed
      obtain ⟨taken, d, took, limit, decoder, inside, kept⟩ := take_packet junk positive
        reading.decoder reading.stores reading.kept framed
      have within := decoder.inside
      have told : session.events ++ [.packet ((flow.stream.drop flow.consumed).take total)] =
          (flow.take total).events := by
        rw [reading.events]
        rfl
      have clear := harmless_clear positive reading.hi (drained_le total _) careful.1
      rw [← told] at clear
      obtain ⟨after, delivered, keptAfter⟩ := deliver_packet callback positive
        { session with mem := taken, socket := { session.socket with decoder := d } }
        reading.stores inside within kept clear
      obtain ⟨next, later, ran, rest, told, events, delivers⟩ := ih
        { session with
          mem := after, socket := { session.socket with decoder := d }
          events := session.events ++
            [.packet ((flow.stream.drop flow.consumed).take total)] }
        (flow.take total) (link tape.hi ((flow.consumed + total) / rbs))
        ⟨reading.size, reading.buf, reading.pos, reading.hi, limit.trans reading.limit, decoder,
          keptAfter, reading.stores.later (Nat.le_add_right _ _), told⟩ careful.2
      simp only [unpacked, took, delivered, ran, bind_eq_bind, bind_some]
      refine ⟨next, later, rfl, rest,
        .packet ((flow.stream.drop flow.consumed).take total) :: told, ?_,
        .cons (packet_layout positive reading.stores inside within kept) delivers⟩
      rw [events, append_assoc]
      rfl
    | bad code =>
      rw [parsed] at unpacked
      simp only [unpacked, bind_eq_bind, bind_some]
      exact ⟨_, holds, rfl, { reading with events := by rw [reading.events] },
        [.error code], rfl, .nil⟩
    | incomplete =>
      rw [parsed] at unpacked
      simp only [unpacked, bind_eq_bind, bind_some]
      exact ⟨_, holds, rfl, reading, [], (append_nil _).symm, .nil⟩

end Loop

/-! ## Reads -/

structure Aligned (rbs max : Nat) (tape : Tape) (session : Session) (flow : Flow)
    (holds : List Nat) : Prop where
  recv : RecvAt rbs tape session.socket flow.stream.length
    (link tape.hi (flow.stream.length / rbs) ++ holds)
  kept : tape.Kept rbs session.mem (link tape.hi (flow.stream.length / rbs) ++ holds)
  limit : session.socket.decoder.max = max
  decoder : DecoderAt rbs tape session.socket.decoder flow.stream.length flow.consumed holds
  stores : tape.Stores rbs flow.stream flow.consumed
  events : session.events = flow.events

section Reads

variable (junk : Nat → Nat → Byte) (callback : List Event → List Nat) {max : Nat}

theorem decoder_update (tape : Tape) {mem : Memory} {d : PacketDecoder}
    {received consumed n : Nat} {holds : List Nat} (inside : received / rbs < tape.hi)
    (decoder : DecoderAt rbs tape d received consumed holds)
    (kept : tape.Kept rbs mem (received / rbs :: holds)) :
    ∃ after next later, packetDecoderUpdate mem d (some (tape.addr (received / rbs)))
        (received % rbs) n = some (after, next) ∧ next.max = d.max ∧
      DecoderAt rbs tape next (received + n) consumed later ∧
      tape.Kept rbs after (later ++ [received / rbs]) := by
  have reached := decoder.inside
  rw [packetDecoderUpdate]
  rcases decoder.place with ⟨b, all, rfl⟩ | ⟨b, spos, within, rfl⟩
  · obtain ⟨after, retained, keptAfter⟩ := kept.retain mem_cons_self le_rfl inside
    subst all
    rw [b]
    simp only [bytechunkRetain, retained, map_some]
    refine ⟨after, _, [consumed / rbs], rfl, rfl, ⟨?_, by omega, .inr ⟨rfl, rfl, inside, rfl⟩⟩,
      keptAfter⟩
    rw [Nat.add_sub_cancel_left]
  · rw [b]
    refine ⟨mem, _, [consumed / rbs], rfl, rfl, ⟨?_, by omega, .inr ⟨rfl, spos, within, rfl⟩⟩,
      kept.perm (List.Perm.swap _ _ _)⟩
    simp only
    rw [decoder.size]
    omega

theorem exposed_end_mono (positive : 0 < rbs) (start n : Nat) :
    exposedEnd rbs start ≤ exposedEnd rbs (start + n) := by
  have before := Nat.div_add_mod start rbs
  have after := Nat.div_add_mod (start + n) rbs
  have below := Nat.mod_lt start positive
  have later : start / rbs ≤ (start + n) / rbs := Nat.div_le_div_right (Nat.le_add_right _ _)
  rw [exposedEnd, exposedEnd]
  by_cases same : (start + n) / rbs = start / rbs
  · rw [same] at after ⊢
    split_ifs <;> omega
  · split_ifs <;> omega

theorem process_read (cap : chunkCap rbs = rbs) (positive : 0 < rbs) {fuel : Nat} {tape : Tape}
    {session : Session} {flow : Flow} {holds : List Nat} {bytes : List Byte}
    (aligned : Aligned rbs max tape session flow holds)
    (room : bytes.length ≤ exposed rbs flow.stream.length)
    (careful : CarefulLoop rbs max callback flow.stream.length fuel (flow.receive bytes)) :
    ∃ next, processRead junk callback fuel session bytes =
        some (next, (flowLoop max fuel (flow.receive bytes)).2) ∧
      next.events = (flowLoop max fuel (flow.receive bytes)).1.events ∧
      (∃ told, next.events = session.events ++ told ∧
        Delivers rbs (processReadDeliveries junk callback fuel session bytes) told) ∧
      ((flowLoop max fuel (flow.receive bytes)).2 = true → ∃ longer later,
        Aligned rbs max longer next (flowLoop max fuel (flow.receive bytes)).1 later) := by
  obtain ⟨prepared, longer, iovecs, preparing, extends_, hi, kept, window, space⟩ :=
    prepare_recv junk cap positive aligned.recv aligned.kept
  have inside : flow.stream.length / rbs < longer.hi := kept.held.inside mem_cons_self
  obtain ⟨filled, payload, reading, keptFilled, stores⟩ := readv_window positive iovecs bytes
    flow.stream prepared longer window (space ▸ room) kept mem_cons_self le_rfl
    (aligned.stores.extend extends_)
  have decoder := aligned.decoder.extend extends_
  obtain ⟨updated, d, decoderHolds, updating, limit, decoderNow, keptUpdated⟩ :=
    decoder_update { longer with payload := payload } (n := bytes.length) inside
      ⟨decoder.size, decoder.inside, decoder.place⟩ keptFilled
  rw [← length_append] at decoderNow
  have started : Reading rbs max { longer with payload := payload } flow.stream.length
      { session with
        mem := updated
        socket := { session.socket with
          nextRecvBuf := some (longer.addr (flow.stream.length / rbs)), decoder := d } }
      (flow.receive bytes) decoderHolds :=
    ⟨aligned.recv.size, rfl, aligned.recv.pos, hi, limit.trans aligned.limit, decoderNow,
      keptUpdated, stores, aligned.events⟩
  obtain ⟨looped, loopHolds, loop, state, told⟩ :=
    unpack_loop junk callback positive fuel _ _ decoderHolds started careful
  obtain ⟨stream, -⟩ := flow_loop_inside max fuel (flow.receive bytes) decoderNow.inside
  have received : (flowLoop max fuel (flow.receive bytes)).1.stream.length =
      flow.stream.length + bytes.length := by
    rw [stream, Flow.receive, length_append]
  obtain ⟨moved, final, moving, extended, finalHi, keptFinal⟩ := update_next_recv_pos junk cap
    positive bytes.length bytes.length flow.stream.length looped.mem looped.socket _
    le_rfl state.size state.buf state.pos inside
    (state.kept.perm perm_append_comm)
  rw [processRead, processReadDeliveries]
  simp only [aligned.recv.pos] at loop told
  simp only [preparing, reading, aligned.recv.pos, updating, loop, bind_eq_bind,
    bind_some]
  cases left : (flowLoop max fuel (flow.receive bytes)).2 with
  | false => exact ⟨looped, rfl, state.events, told, fun absurd => Bool.noConfusion absurd⟩
  | true =>
    simp only [if_true, moving, bind_some]
    have reached : (flow.stream.length + bytes.length) / rbs < final.hi := by omega
    refine ⟨_, rfl, state.events, told, fun _ => ⟨final, loopHolds, ?_, ?_, state.limit,
      state.decoder.extend extended, state.stores.extend extended, state.events⟩⟩
    · rw [received, link_of_lt reached]
      refine ⟨state.size, rfl, .inr ⟨rfl, reached, mem_cons_self⟩, ?_⟩
      have mono := exposed_end_mono positive flow.stream.length bytes.length
      have more : (flow.stream.length + bytes.length) / rbs + 1 ≤
          exposedEnd rbs (flow.stream.length + bytes.length) := by
        rw [exposedEnd]
        split_ifs <;> omega
      simp only at finalHi
      omega
    · rw [received, link_of_lt reached]
      exact keptFinal

section

variable (cap : chunkCap rbs = rbs) (positive : 0 < rbs) (fuel : Nat) (reads : List (List Byte))
  (tape : Tape) (session : Session) (flow : Flow) (holds : List Nat)
  (aligned : Aligned rbs max tape session flow holds)

include cap positive tape holds aligned

/-- Runs of `process_read` are runs of the abstract receiver. -/
theorem process_reads (space : WithinSpace (exposed rbs) max fuel flow reads)
    (careful : CarefulReads rbs max callback fuel flow reads) :
    ∃ last, processReads junk callback fuel session reads =
        some (last, (flowReads max fuel flow reads).2) ∧
      last.events = (flowReads max fuel flow reads).1.events ∧
      ∃ told, last.events = session.events ++ told ∧
        Delivers rbs (processReadsDeliveries junk callback fuel session reads) told := by
  induction reads generalizing tape session flow holds with
  | nil => exact ⟨session, rfl, aligned.events, [], (append_nil _).symm, .nil⟩
  | cons bytes reads ih =>
    obtain ⟨next, ran, events, ⟨told, grown, delivers⟩, onward⟩ :=
      process_read junk callback cap positive aligned
      space.1.2 careful.1
    have split : flowLoop max fuel (flow.receive bytes) =
      ((flowLoop max fuel (flow.receive bytes)).1, (flowLoop max fuel (flow.receive bytes)).2) :=
      rfl
    cases left : (flowLoop max fuel (flow.receive bytes)).2 with
    | false =>
      rw [left] at ran split
      rw [processReads, processReadsDeliveries, ran, flowReads, split]
      refine ⟨next, rfl, events, told, grown, ?_⟩
      rw [append_nil]
      exact delivers
    | true =>
      obtain ⟨longer, later, alignedNext⟩ := onward left
      rw [left] at ran split
      rw [processReads, processReadsDeliveries, ran, flowReads, split]
      obtain ⟨last, rest, final, more, events, deliversMore⟩ :=
        ih longer next _ later alignedNext (space.2 left) (careful.2 left)
      refine ⟨last, rest, final, told ++ more, ?_, delivers.append deliversMore⟩
      rw [events, grown, append_assoc]

theorem readable_iff (careful : CarefulReads rbs max callback fuel flow reads) :
    Readable junk callback fuel session reads ↔ WithinSpace (exposed rbs) max fuel flow reads := by
  induction reads generalizing tape session flow holds with
  | nil => exact Iff.rfl
  | cons bytes reads ih =>
    obtain ⟨prepared, longer, iovecs, preparing, -, -, -, -, space⟩ :=
      prepare_recv junk cap positive aligned.recv aligned.kept
    have first : (1 ≤ bytes.length ∧ ∃ mem s iovecs,
          prepareRecv junk session.mem session.socket = some (mem, s, iovecs) ∧
            bytes.length ≤ (iovecs.map Iovec.len).sum) ↔
        1 ≤ bytes.length ∧ bytes.length ≤ exposed rbs flow.stream.length := by
      rw [preparing, ← space]
      constructor
      · rintro ⟨nonempty, mem, s, others, same, fits⟩
        obtain ⟨-, -, rfl⟩ := Prod.mk.inj (Option.some.inj same)
        exact ⟨nonempty, fits⟩
      · rintro ⟨nonempty, fits⟩
        exact ⟨nonempty, _, _, iovecs, rfl, fits⟩
    rw [Readable, WithinSpace, first]
    refine and_congr_right fun fits => ?_
    obtain ⟨next, ran, -, -, onward⟩ := process_read junk callback cap positive aligned fits.2
      careful.1
    rw [ran]
    cases left : (flowLoop max fuel (flow.receive bytes)).2 with
    | false => simp
    | true =>
      obtain ⟨longer, later, alignedNext⟩ := onward left
      rw [← ih longer next _ later alignedNext (careful.2 left)]
      simp

end

end Reads

/-! ## From a new socket on -/

section Sockets

variable (junk : Nat → Nat → Byte) (mem : Memory) {recvBufferSize : Nat} (max : Nat)

theorem normalised_size (small : recvBufferSize < 2 ^ 32) :
    chunkCap (recvSocketNew recvBufferSize max).recvBufferSize =
        (recvSocketNew recvBufferSize max).recvBufferSize ∧
      0 < (recvSocketNew recvBufferSize max).recvBufferSize := by
  have pow2 := is_pow2_size_of_pow2 small
  rw [recvSocketNew]
  dsimp only
  split_ifs with little
  · exact ⟨by decide, by decide⟩
  · exact ⟨chunk_cap_of_pow2 pow2 (by unfold minBufLen; omega), by omega⟩

theorem new_aligned (recvBufferSize : Nat) :
    Aligned (recvSocketNew recvBufferSize max).recvBufferSize max ⟨fun _ => 0, fun _ => [], 0⟩
      (newSession mem recvBufferSize max) newFlow [] := by
  refine ⟨⟨rfl, (Nat.zero_mod _).symm, .inl ⟨rfl, rfl, rfl, ?_⟩, Nat.zero_le _⟩,
    ⟨.inl ?_, fun i small => absurd small (Nat.not_lt_zero i)⟩, rfl,
    ⟨rfl, le_rfl, .inl ⟨rfl, rfl, rfl⟩⟩,
    ⟨Nat.zero_le _, fun p _ upper => absurd upper (Nat.not_lt_zero p)⟩, rfl⟩
  · simp [link, newFlow]
  · simp [link, newFlow]

theorem quiet_loop (rbs start fuel : Nat) (flow : Flow) :
    CarefulLoop rbs max (fun _ => []) start fuel flow := by
  induction fuel generalizing flow with
  | zero => trivial
  | succ fuel ih =>
    rw [CarefulLoop]
    cases parse max flow.pending with
    | frame total => exact ⟨.inr (Nat.lt_or_ge _ _), ih _⟩
    | bad code => trivial
    | incomplete => trivial

theorem quiet_reads (rbs fuel : Nat) (flow : Flow) (reads : List (List Byte)) :
    CarefulReads rbs max (fun _ => []) fuel flow reads := by
  induction reads generalizing flow with
  | nil => trivial
  | cons bytes reads ih => exact ⟨quiet_loop max rbs _ fuel _, fun _ => ih _⟩

theorem exposed_le (rbs received : Nat) : exposed rbs received ≤ 2 * rbs := by
  rw [exposed]
  split_ifs <;> omega

end Sockets

section New

variable (junk : Nat → Nat → Byte) (mem : Memory) {recvBufferSize max : Nat}
  {callback : List Event → List Nat} {reads : List (List Byte)} (fuel : Nat)
  (small : recvBufferSize < 2 ^ 32)
  (careful : CarefulReads (recvSocketNew recvBufferSize max).recvBufferSize max callback fuel
    newFlow reads)

include small careful

theorem new_readable_iff :
    Readable junk callback fuel (newSession mem recvBufferSize max) reads ↔
      WithinSpace (exposed (recvSocketNew recvBufferSize max).recvBufferSize) max fuel newFlow
        reads := by
  obtain ⟨cap, positive⟩ := normalised_size max small
  exact readable_iff junk callback cap positive fuel reads _ _ _ _
    (new_aligned mem max recvBufferSize) careful

theorem reads_flow
    (readable : Readable junk callback fuel (newSession mem recvBufferSize max) reads) :
    ∃ last, processReads junk callback fuel (newSession mem recvBufferSize max) reads =
        some (last, (flowReads max fuel newFlow reads).2) ∧
      last.events = (flowReads max fuel newFlow reads).1.events ∧
      Delivers (recvSocketNew recvBufferSize max).recvBufferSize
        (processReadsDeliveries junk callback fuel (newSession mem recvBufferSize max) reads)
        last.events := by
  obtain ⟨cap, positive⟩ := normalised_size max small
  obtain ⟨last, ran, events, told, grown, delivers⟩ := process_reads junk callback cap positive fuel
    reads _ _ _ _ (new_aligned mem max recvBufferSize)
    ((new_readable_iff junk mem fuel small careful).mp readable) careful
  exact ⟨last, ran, events, grown ▸ delivers⟩

end New

/-- However a stream of packets is cut into reads, the callback is handed exactly
these packets in order, and no error. -/
theorem packets_framed (junk : Nat → Nat → Byte) (mem : Memory) (recvBufferSize max fuel : Nat)
    (payloads reads : List (List Byte)) (small : recvBufferSize < 2 ^ 32)
    (limits : WithinLimit max payloads)
    (room : max + 2 * (recvSocketNew recvBufferSize max).recvBufferSize < 2 ^ 32)
    (cut : reads.flatten = wire payloads)
    (readable : Readable junk (fun _ => []) fuel (newSession mem recvBufferSize max) reads)
    (fueled : payloads.length < fuel) :
    ∃ last, processReads junk (fun _ => []) fuel (newSession mem recvBufferSize max) reads =
        some (last, true) ∧ last.events = packets payloads := by
  have careful :=
    quiet_reads max (recvSocketNew recvBufferSize max).recvBufferSize fuel newFlow reads
  have space := (new_readable_iff junk mem fuel small careful).mp readable
  obtain ⟨last, ran, events, -⟩ := reads_flow junk mem fuel small careful readable
  obtain ⟨final, returns, all⟩ := flow_reads_wire (by omega) (exposed _) (exposed_le _)
    (Nat.le_refl max) room reads payloads fuel newFlow limits space le_rfl
    (fun payload _ => by rw [length_encode_packet]; exact Nat.add_pos_left (by decide) _) cut fueled
  rw [returns] at ran events
  exact ⟨last, ran, events.trans all⟩

/-- Two packets in three reads that end inside a header and behind the second
packet's length. -/
theorem two_packets_framed :
    ∃ last, processReads (fun _ _ => 0) (fun _ => []) 3 (newSession ⟨fun _ => none, 0⟩ 1 100)
        [[0, 0], [0, 3, 1, 2, 3, 0, 0, 0, 1], [4]] = some (last, true) ∧
      last.events = [.packet [0, 0, 0, 3, 1, 2, 3], .packet [0, 0, 0, 1, 4]] := by
  have space : WithinSpace (exposed 1024) 100 3 newFlow
      [[0, 0], [0, 3, 1, 2, 3, 0, 0, 0, 1], [4]] :=
    ⟨⟨by decide, by decide⟩, fun _ => ⟨⟨by decide, by decide⟩, fun _ =>
      ⟨⟨by decide, by decide⟩, fun _ => trivial⟩⟩⟩
  have readable := (new_readable_iff (fun _ _ => 0) ⟨fun _ => none, 0⟩ 3 (by decide)
    (quiet_reads 100 (recvSocketNew 1 100).recvBufferSize 3 newFlow _)).mpr space
  exact packets_framed (fun _ _ => 0) ⟨fun _ => none, 0⟩ 1 100 3 [[1, 2, 3], [4]] _ (by decide)
    (by unfold WithinLimit; decide) (by decide) (by decide) readable (by decide)

/-- A callback that drains its packets harmlessly changes nothing in what is
delivered, for any bytes on the wire and however long the loops are watched. -/
theorem harmless_drains_transparent (junk : Nat → Nat → Byte) (mem : Memory)
    (recvBufferSize max fuel : Nat) (reads : List (List Byte)) (callback : List Event → List Nat)
    (small : recvBufferSize < 2 ^ 32)
    (readable : Readable junk (fun _ => []) fuel (newSession mem recvBufferSize max) reads)
    (careful : CarefulReads (recvSocketNew recvBufferSize max).recvBufferSize max callback fuel
      newFlow reads) :
    ∃ alone drained returned,
      processReads junk (fun _ => []) fuel (newSession mem recvBufferSize max) reads =
        some (alone, returned) ∧
      processReads junk callback fuel (newSession mem recvBufferSize max) reads =
        some (drained, returned) ∧
      drained.events = alone.events := by
  have quiet := quiet_reads max (recvSocketNew recvBufferSize max).recvBufferSize fuel newFlow reads
  have space := (new_readable_iff junk mem fuel small quiet).mp readable
  obtain ⟨alone, first, told, -⟩ := reads_flow junk mem fuel small quiet readable
  obtain ⟨drained, second, same, -⟩ := reads_flow junk mem fuel small careful
    ((new_readable_iff junk mem fuel small careful).mpr space)
  exact ⟨alone, drained, _, first, second, same.trans told.symm⟩

/-- The callback reads the first packet out, and three bytes of the second, which
was received in two parts. -/
theorem drains_within_chunk_transparent :
    ∃ alone drained returned,
      processReads (fun _ _ => 0) (fun _ => []) 3 (newSession ⟨fun _ => none, 0⟩ 1 100)
        [[0, 0, 0, 1, 9, 0, 0], [0, 3, 1, 2, 3]] = some (alone, returned) ∧
      processReads (fun _ _ => 0) (fun events => if events.length = 1 then [4, 1, 7] else [3]) 3
        (newSession ⟨fun _ => none, 0⟩ 1 100) [[0, 0, 0, 1, 9, 0, 0], [0, 3, 1, 2, 3]] =
        some (drained, returned) ∧
      drained.events = alone.events := by
  have space : WithinSpace (exposed 1024) 100 3 newFlow
      [[0, 0, 0, 1, 9, 0, 0], [0, 3, 1, 2, 3]] :=
    ⟨⟨by decide, by decide⟩, fun _ => ⟨⟨by decide, by decide⟩, fun _ => trivial⟩⟩
  have readable := (new_readable_iff (fun _ _ => 0) ⟨fun _ => none, 0⟩ 3 (by decide)
    (quiet_reads 100 (recvSocketNew 1 100).recvBufferSize 3 newFlow _)).mpr space
  refine harmless_drains_transparent _ _ 1 100 3 _ _ (by decide) readable ?_
  exact ⟨⟨.inl rfl, trivial⟩, fun _ => ⟨⟨.inr (.inl (by decide)), trivial⟩, fun _ => trivial⟩⟩

/-- A packet that spans two chunks is read out by the callback. The drain cuts the
link from the chunk that `next_recv_buf` points to, the socket goes on in a new
chunk, and the decoder waits in the old one: instead of the next packet it finds
whatever memory the chunk was made of. -/
theorem drain_across_chunks_diverges :
    (processReads (fun _ _ => 0) (fun _ => []) 9 (newSession ⟨fun _ => none, 0⟩ 1024 2000)
        [[0, 0, 0, 6, 1, 2, 3, 4, 5, 6], [0, 0, 3, 252] ++ List.replicate 1020 7,
          [0, 0, 0, 4, 1, 2, 3, 4]]).map (fun run => (run.1.events, run.2)) =
      some ([.packet [0, 0, 0, 6, 1, 2, 3, 4, 5, 6],
        .packet ([0, 0, 3, 252] ++ List.replicate 1020 7),
        .packet [0, 0, 0, 4, 1, 2, 3, 4]], true) ∧
    (processReads (fun _ _ => 0) (fun events => if events.length = 2 then [1024] else []) 9
        (newSession ⟨fun _ => none, 0⟩ 1024 2000)
        [[0, 0, 0, 6, 1, 2, 3, 4, 5, 6], [0, 0, 3, 252] ++ List.replicate 1020 7,
          [0, 0, 0, 4, 1, 2, 3, 4]]).map (fun run => (run.1.events, run.2)) =
      some ([.packet [0, 0, 0, 6, 1, 2, 3, 4, 5, 6],
        .packet ([0, 0, 3, 252] ++ List.replicate 1020 7),
        .error .invaildPacketSize], true) := by
  constructor <;> decide +kernel

end Chuck.ProcessRead
