import Chuck.ProcessRead

/-!
# Progress of the unpack loop

A packet takes the decoder forward by `pk_total` bytes. That sum is computed in
32 bits before it is compared with the limit, so a length of four below 2^32
makes an empty packet: the decoder stays where it is and `process_read` never
leaves its loop.
-/

namespace Chuck.UnpackProgress

open Support.SharedChain ByteChunkModel ByteChainReading StreamRecvModel PacketFraming
open StreamReceive ProcessRead Option

/-! ## One packet -/

/-- A decoder that was given `pending` and has not handed it out, over chunks of
any sizes and whoever else holds them. -/
structure Pending (mem : Memory) (d : PacketDecoder) (pending : List Byte) : Prop where
  counted : d.size = pending.length
  place : pending = [] ∨ ∃ addr payload hi i others,
    Held addr payload mem hi (i :: others) ∧ d.b = some (addr i) ∧
      d.spos ≤ (payload i).length ∧ pending <+: (bytesFrom payload i hi).drop d.spos

theorem Pending.unpack {mem : Memory} {d : PacketDecoder} {pending : List Byte}
    (state : Pending mem d pending) (junk : Nat → Nat → Byte) :
    (∃ unpacked, packetDecoderUnpack junk mem d = some (unpacked, mem, d) ∧
      ∀ b, unpacked ≠ .packet b) ∨
    ∃ total, total = (headerSize + networkOrder (pending.take headerSize)) % 2 ^ 32 ∧
      0 < networkOrder (pending.take headerSize) ∧ total ≤ d.max ∧ total ≤ d.size ∧
      ∃ addr payload hi i others, Held addr payload mem hi (i :: others) ∧ d.b = some (addr i) ∧
        d.spos ≤ (payload i).length ∧ pending <+: (bytesFrom payload i hi).drop d.spos ∧
        ∃ after j spos, packetDecoderUnpack junk mem d =
            some (.packet { blankBuffer with
                head := some (addr i), tail := some (addr i), spos := d.spos, datasize := total },
              after, { d with b := linkTo addr hi j, spos := spos, size := d.size - total }) ∧
          Moved payload hi i d.spos total j spos ∧
          Held addr payload after hi (i :: (link hi j ++ others)) := by
  by_cases empty : d.size ≤ headerSize
  · exact .inl ⟨.incomplete, if_pos empty, by simp⟩
  have long := not_le.mp empty
  obtain ⟨reached, last, header⟩ := header_read long state.counted.le state.place
  rw [packetDecoderUnpack, if_neg empty, header]
  simp only [bind_eq_bind, bind_some]
  rw [if_neg (by rw [List.length_take, ← state.counted]; omega)]
  split_ifs with zero large more
  · exact .inl ⟨_, rfl, by simp⟩
  · exact .inl ⟨_, rfl, by simp⟩
  · exact .inl ⟨_, rfl, by simp⟩
  · rcases state.place with none | ⟨addr, payload, hi, i, others, held, b, inside, view⟩
    · rw [state.counted, none] at long
      exact absurd long (Nat.not_lt_zero _)
    · have size := view.length_le
      rw [List.length_drop, ← state.counted] at size
      exact .inr ⟨_, rfl, Nat.pos_of_ne_zero zero, not_lt.mp large, not_lt.mp more,
        addr, payload, hi, i, others, held, b, inside, view,
        take_chain junk held b inside (by omega)⟩

/-! ## The loop, whatever the callback does -/

section Rounds

variable (junk : Nat → Nat → Byte) (callback : List Event → List Nat)

inductive Round : Session → Session → Prop where
  | packet {session next : Session} {b : ByteBuffer} {mem : Memory} {d : PacketDecoder}
      (unpacked : packetDecoderUnpack junk session.mem session.socket.decoder =
        some (.packet b, mem, d))
      (delivered : deliver callback
        { session with mem := mem, socket := { session.socket with decoder := d } } b = some next) :
      Round session next

/-- The length in the header that the decoder stands at does not wrap. -/
def HeaderFits (session : Session) : Prop :=
  ∀ header reached last,
    bytechunkRead session.mem session.socket.decoder.b session.socket.decoder.spos headerSize =
      some (header, reached, last) → headerSize + networkOrder header < 2 ^ 32

theorem skip_size (fuel total : Nat) (mem after : Memory) (d next : PacketDecoder)
    (ran : skipLoop fuel mem d total = some (after, next)) :
    next.size = d.size - total ∨ next.b = none := by
  induction fuel generalizing mem d total with
  | zero => exact absurd ran (by simp [skipLoop])
  | succ fuel ih =>
    rw [skipLoop] at ran
    simp only [bind_eq_bind, bind_eq_some_iff] at ran
    obtain ⟨head, -, chunk, -, ran⟩ := ran
    split_ifs at ran with across ended done
    · simp only [bind_eq_some_iff, Option.some.injEq, Prod.mk.injEq] at ran
      obtain ⟨_, -, _, -, -, rfl⟩ := ran
      refine ended.symm.imp (fun all => ?_) id
      simp only
      omega
    · simp only [bind_eq_some_iff] at ran
      obtain ⟨_, -, _, -, ran⟩ := ran
      refine (ih _ _ _ ran).imp (fun size => ?_) id
      simp only at size
      omega
    · simp only [Option.some.injEq, Prod.mk.injEq] at ran
      obtain ⟨-, rfl⟩ := ran
      refine .inl ?_
      simp only
      omega
    · refine (ih _ _ _ ran).imp (fun size => ?_) id
      simp only at size
      omega

theorem packet_advances {session : Session} {b : ByteBuffer} {mem : Memory} {d : PacketDecoder}
    (fits : HeaderFits session)
    (unpacked : packetDecoderUnpack junk session.mem session.socket.decoder =
      some (.packet b, mem, d)) :
    d.size < session.socket.decoder.size ∨ session.socket.decoder.size ≠ 0 ∧ d.b = none := by
  rw [packetDecoderUnpack] at unpacked
  split_ifs at unpacked with empty
  · simp at unpacked
  simp only [bind_eq_bind, bind_eq_some_iff] at unpacked
  obtain ⟨⟨header, reached, last⟩, read, unpacked⟩ := unpacked
  have small := fits _ _ _ read
  split_ifs at unpacked with short zero large more
  · simp at unpacked
  · simp at unpacked
  · simp at unpacked
  · simp only [takePacket, bind_eq_bind, bind_eq_some_iff, Option.some.injEq,
      Prod.mk.injEq, Prod.exists] at unpacked
    obtain ⟨_, _, -, _, next, skipped, -, -, rfl⟩ := unpacked
    rcases skip_size _ _ _ _ _ _ skipped with size | none
    · rw [Nat.mod_eq_of_lt small] at size
      exact .inl (by unfold headerSize at empty size; omega)
    · exact .inr ⟨by omega, none⟩

theorem deliver_socket {session next : Session} {b : ByteBuffer}
    (delivered : deliver callback session b = some next) : next.socket = session.socket := by
  rw [deliver] at delivered
  simp only [bind_eq_bind, bind_eq_some_iff, Prod.exists, Option.some.injEq]
    at delivered
  obtain ⟨_, -, _, _, -, _, _, -, rfl⟩ := delivered
  rfl

theorem loop_without_chunk (fuel : Nat) (session : Session) (none : session.socket.decoder.b = none)
    (last : Session) : unpackLoop junk callback (fuel + 1) session ≠ some (last, false) := by
  rw [unpackLoop, packetDecoderUnpack, none]
  by_cases empty : session.socket.decoder.size ≤ headerSize
  · simp [if_pos empty]
  · rw [if_neg empty]
    simp [bytechunkRead, headerSize, bytechunkReadLoop]

/-- With lengths that do not wrap the loop is left after as many rounds as there
are bytes. -/
theorem loop_left (fuel : Nat) (session : Session)
    (fits : ∀ later, Relation.ReflTransGen (Round junk callback) session later → HeaderFits later)
    (fueled : session.socket.decoder.size < fuel) (last : Session) :
    unpackLoop junk callback fuel session ≠ some (last, false) := by
  induction fuel generalizing session with
  | zero => exact absurd fueled (Nat.not_lt_zero _)
  | succ fuel ih =>
    intro running
    rw [unpackLoop] at running
    simp only [bind_eq_bind, bind_eq_some_iff, Prod.exists] at running
    obtain ⟨unpacked, mem, d, unpacking, running⟩ := running
    cases unpacked with
    | packet b =>
      obtain ⟨next, delivered, running⟩ := bind_eq_some_iff.mp running
      have socket := deliver_socket callback delivered
      rcases packet_advances junk (fits session .refl) unpacking with less | ⟨some, none⟩
      · refine ih next (fun later rounds => fits later (.head ⟨unpacking, delivered⟩ rounds)) ?_
          running
        rw [socket]
        simp only
        omega
      · obtain ⟨fuel, rfl⟩ := Nat.exists_eq_succ_of_ne_zero (show fuel ≠ 0 by omega)
        refine loop_without_chunk junk callback fuel next ?_ last running
        rw [socket]
        exact none
    | error code => simp at running
    | incomplete => simp at running

end Rounds

/-! ## Runs of `process_read` -/

/-- The unpack loop comes to a length that wraps to an empty packet. -/
inductive Stalls (max : Nat) : List Byte → Prop where
  | here {pending : List Byte} (some : headerSize < pending.length % 2 ^ 32)
      (length : networkOrder (pending.take headerSize) = 2 ^ 32 - headerSize) : Stalls max pending
  | later {pending : List Byte} {total : Nat} (framed : parse max pending = .frame total)
      (rest : Stalls max (pending.drop total)) : Stalls max pending

def settle (max : Nat) (flow : Flow) : Flow := (flowLoop max (flow.pending.length + 1) flow).1

def StallingReads (max : Nat) : Flow → List (List Byte) → Prop
  | _, [] => False
  | flow, bytes :: reads =>
    Stalls max (flow.receive bytes).pending ∨
      StallingReads max (settle max (flow.receive bytes)) reads

section Flows

variable {max : Nat}

theorem parse_empty {pending : List Byte} (some : headerSize < pending.length % 2 ^ 32)
    (length : networkOrder (pending.take headerSize) = 2 ^ 32 - headerSize) :
    parse max pending = .frame 0 := by
  unfold parse
  rw [length, if_neg (Nat.not_le_of_lt some), if_neg (by decide),
    show (headerSize + (2 ^ 32 - headerSize)) % 2 ^ 32 = 0 by decide, if_neg (Nat.not_lt_zero _),
    if_neg (Nat.not_lt_zero _)]

theorem network_order_bound (bytes : List Byte) : networkOrder bytes < 256 ^ bytes.length := by
  induction bytes using List.reverseRecOn with
  | nil => exact Nat.one_pos
  | append_singleton bytes byte ih =>
    have digit := byte.toNat_lt
    rw [networkOrder] at ih ⊢
    rw [List.foldl_append, List.length_append, List.length_singleton, Nat.pow_succ]
    simp only [List.foldl_cons, List.foldl_nil]
    omega

theorem stalls_of_empty {pending : List Byte} (framed : parse max pending = .frame 0) :
    Stalls max pending := by
  have bound := network_order_bound (pending.take headerSize)
  have power : 256 ^ (pending.take headerSize).length ≤ 256 ^ headerSize :=
    Nat.pow_le_pow_right (by decide) (List.length_take_le _ _)
  unfold parse at framed
  dsimp only at framed
  split_ifs at framed with empty zero large more
  have total := Parsed.frame.inj framed
  refine .here (not_le.mp empty) ?_
  rw [show 256 ^ headerSize = 2 ^ 32 by decide] at power
  rw [show headerSize = 4 from rfl] at total bound power ⊢
  omega

theorem pending_take (flow : Flow) (total : Nat) :
    (flow.take total).pending = flow.pending.drop total := by
  rw [Flow.pending, Flow.pending, List.drop_drop]
  rfl

theorem flow_loop_stalls (fuel : Nat) (flow : Flow) (stalls : Stalls max flow.pending) :
    (flowLoop max fuel flow).2 = false := by
  induction fuel generalizing flow with
  | zero => rfl
  | succ fuel ih =>
    rw [flowLoop]
    cases stalls with
    | here some length =>
      rw [parse_empty some length]
      apply ih
      rw [pending_take, List.drop_zero]
      exact .here some length
    | later framed rest =>
      rw [framed]
      apply ih
      rw [pending_take]
      exact rest

theorem flow_loop_left (fuel : Nat) (flow : Flow) (runs : ¬Stalls max flow.pending)
    (fueled : flow.pending.length < fuel) : (flowLoop max fuel flow).2 = true := by
  induction fuel generalizing flow with
  | zero => exact absurd fueled (Nat.not_lt_zero _)
  | succ fuel ih =>
    rw [flowLoop]
    cases parsed : parse max flow.pending with
    | frame total =>
      have some : total ≠ 0 := fun zero => runs (stalls_of_empty (zero ▸ parsed))
      have fits := (parse_frame_fits parsed).2.2
      apply ih
      · rw [pending_take]
        exact fun rest => runs (.later parsed rest)
      · rw [pending_take, List.length_drop]
        omega
    | bad code => rfl
    | incomplete => rfl

theorem flow_loop_more (fuel more : Nat) (flow : Flow) (left : (flowLoop max fuel flow).2 = true) :
    flowLoop max (fuel + more) flow = flowLoop max fuel flow := by
  induction fuel generalizing flow with
  | zero => nomatch left
  | succ fuel ih =>
    rw [Nat.add_right_comm]
    rw [flowLoop] at left ⊢
    rw [flowLoop]
    cases parsed : parse max flow.pending with
    | frame total =>
      rw [parsed] at left
      exact ih _ left
    | bad code => rfl
    | incomplete => rfl

theorem flow_loop_settles {fuel : Nat} {flow : Flow} (left : (flowLoop max fuel flow).2 = true) :
    flowLoop max fuel flow = (settle max flow, true) := by
  have runs : ¬Stalls max flow.pending := fun stalls =>
    Bool.false_ne_true ((flow_loop_stalls fuel flow stalls).symm.trans left)
  have whole := flow_loop_left (flow.pending.length + 1) flow runs (Nat.lt_succ_self _)
  refine Prod.ext ?_ left
  rw [settle, ← flow_loop_more fuel (flow.pending.length + 1) flow left,
    ← flow_loop_more (flow.pending.length + 1) fuel flow whole, Nat.add_comm]

theorem flow_reads_stall (fuel : Nat) (flow : Flow) (reads : List (List Byte))
    (stalling : StallingReads max flow reads) : (flowReads max fuel flow reads).2 = false := by
  induction reads generalizing flow with
  | nil => exact stalling.elim
  | cons bytes reads ih =>
    rw [flowReads]
    cases left : (flowLoop max fuel (flow.receive bytes)).2 with
    | false => rw [← Prod.mk.eta (p := flowLoop max fuel (flow.receive bytes)), left]
    | true =>
      rw [flow_loop_settles left]
      rcases stalling with now | later
      · rw [flow_loop_stalls fuel _ now] at left
        cases left
      · exact ih _ later

theorem flow_reads_left (flow : Flow) (reads : List (List Byte))
    (runs : ¬StallingReads max flow reads) :
    ∃ enough, ∀ fuel, enough ≤ fuel → (flowReads max fuel flow reads).2 = true := by
  induction reads generalizing flow with
  | nil => exact ⟨0, fun _ _ => rfl⟩
  | cons bytes reads ih =>
    obtain ⟨now, later⟩ := not_or.mp runs
    obtain ⟨enough, returns⟩ := ih _ later
    refine ⟨enough + ((flow.receive bytes).pending.length + 1), fun fuel fueled => ?_⟩
    rw [flowReads, flow_loop_settles (flow_loop_left fuel _ now (by omega))]
    exact returns fuel (by omega)

end Flows

/-- A packet is as long as its header says, is within the limit and takes the
decoder forward by just that, unless its length is so large that the sum with
the header wraps. The loop of `process_read` then ends: whatever the callback
drains it is never still running after a round for every byte, and with a
callback that drains with care every read returns, unless a length wraps to an
empty packet. -/
theorem unpack_progress (junk : Nat → Nat → Byte) :
    (∀ mem d pending, Pending mem d pending →
      ∃ unpacked after next, packetDecoderUnpack junk mem d = some (unpacked, after, next) ∧
        ∀ b, unpacked = .packet b → b.head = d.b ∧ b.spos = d.spos ∧
          (b.datasize = headerSize + networkOrder (pending.take headerSize) ∧
            5 ≤ b.datasize ∧ b.datasize ≤ d.max ∧ next.size + b.datasize = d.size ↔
          headerSize + networkOrder (pending.take headerSize) < 2 ^ 32)) ∧
    (∀ callback session,
      (∀ later, Relation.ReflTransGen (Round junk callback) session later → HeaderFits later) →
      ∀ last, unpackLoop junk callback (session.socket.decoder.size + 1) session ≠
        some (last, false)) ∧
    (∀ mem recvBufferSize max callback reads, recvBufferSize < 2 ^ 32 →
      (∀ fuel, Readable junk callback fuel (newSession mem recvBufferSize max) reads) →
      (∀ fuel, CarefulReads (recvSocketNew recvBufferSize max).recvBufferSize max callback fuel
        newFlow reads) →
      ((∃ fuel last, processReads junk callback fuel (newSession mem recvBufferSize max) reads =
          some (last, true)) ↔ ¬StallingReads max newFlow reads)) := by
  refine ⟨fun mem d pending state => ?_, fun callback session fits => ?_,
    fun mem recvBufferSize max callback reads small readable careful => ?_⟩
  · rcases state.unpack junk with ⟨unpacked, ran, none⟩ |
      ⟨total, size, some, limit, less, _, _, _, _, _, -, b, -, -, after, j, spos, ran, -⟩
    · exact ⟨unpacked, mem, d, ran, fun b packet => absurd packet (none b)⟩
    refine ⟨_, after, _, ran, ?_⟩
    rintro _ ⟨⟩
    have four : headerSize = 4 := rfl
    refine ⟨b.symm, rfl, fun progress => ?_, fun fits => ?_⟩
    · rw [← progress.1, size]
      exact Nat.mod_lt _ (Nat.two_pow_pos 32)
    · rw [Nat.mod_eq_of_lt fits] at size
      exact ⟨size, by dsimp only; omega, limit, Nat.sub_add_cancel less⟩
  · exact loop_left junk callback _ session fits (Nat.lt_succ_self _)
  · have runs := fun fuel => reads_flow junk mem fuel small (careful fuel) (readable fuel)
    constructor
    · rintro ⟨fuel, last, returned⟩ stalling
      obtain ⟨same, ran, -⟩ := runs fuel
      rw [flow_reads_stall fuel newFlow reads stalling, returned] at ran
      exact Bool.false_ne_true (Prod.mk.inj (Option.some.inj ran)).2.symm
    · intro returns
      obtain ⟨enough, left⟩ := flow_reads_left newFlow reads returns
      obtain ⟨last, ran, -⟩ := runs enough
      exact ⟨enough, last, by rw [ran, left enough le_rfl]⟩

theorem first_read_readable (junk : Nat → Nat → Byte) (mem : Memory) (max fuel : Nat)
    (bytes : List Byte) (some : 1 ≤ bytes.length) (fits : bytes.length ≤ 1024) :
    Readable junk (fun _ => []) fuel (newSession mem 1024 max) [bytes] := by
  exact (new_readable_iff junk mem fuel (by decide)
    (quiet_reads max (recvSocketNew 1024 max).recvBufferSize fuel newFlow _)).mpr
    ⟨⟨some, fits⟩, fun _ => trivial⟩

/-- A packet of one byte: it is handed out, and the loop and the read return. -/
theorem one_byte_packet_progress :
    let mem : Memory := (Heap.alloc ⟨fun _ => none, 0⟩ [0, 0, 0, 1, 9]).2
    let d : PacketDecoder := { b := some 0, spos := 0, size := 5, max := 100 }
    let session : Session := ⟨mem, { recvSocketNew 1024 100 with decoder := d }, []⟩
    (∃ unpacked after next, packetDecoderUnpack (fun _ _ => 0) mem d =
        some (unpacked, after, next) ∧
      ∀ b, unpacked = .packet b → b.head = d.b ∧ b.spos = d.spos ∧
        (b.datasize = 5 ∧ 5 ≤ b.datasize ∧ b.datasize ≤ 100 ∧ next.size + b.datasize = 5 ↔
          5 < 2 ^ 32)) ∧
    (∀ last, unpackLoop (fun _ _ => 0) (fun _ => []) 6 session ≠ some (last, false)) ∧
    ∃ fuel last, processReads (fun _ _ => 0) (fun _ => []) fuel (newSession mem 1024 100)
      [[0, 0, 0, 1, 9]] = some (last, true) := by
  obtain ⟨packet, loop, reads⟩ := unpack_progress (fun _ _ => 0)
  refine ⟨packet _ _ [0, 0, 0, 1, 9] ⟨rfl, .inr ?_⟩, loop _ _ ?_,
    (reads _ 1024 100 (fun _ => []) _ (by decide)
      (fun fuel => first_read_readable _ _ 100 fuel _ (by decide) (by decide))
      (fun fuel => quiet_reads 100 _ fuel newFlow _)).mpr ?_⟩
  · exact ⟨fun _ => 0, fun _ => [0, 0, 0, 1, 9], 1, 0, [],
      .inr ⟨0, Chain.alloc ⟨fun _ => none, 0⟩ 0 _⟩, rfl, by decide, by decide⟩
  · intro later rounds
    rcases rounds.cases_head with rfl | ⟨next, ⟨unpacked, delivered⟩, rest⟩
    · rintro header reached last read
      obtain ⟨rfl, -⟩ : [0, 0, 0, 1] = header ∧ _ := Prod.mk.inj (Option.some.inj read)
      decide
    have emptied : (packetDecoderUnpack (fun _ _ => 0)
        (Heap.alloc ⟨fun _ => none, 0⟩ [0, 0, 0, 1, 9]).2
        { b := some 0, spos := 0, size := 5, max := 100 }).map (·.2.2) =
        some { b := none, spos := 0, size := 0, max := 100 } := by decide +kernel
    rw [unpacked] at emptied
    obtain rfl := Option.some.inj emptied
    have socket := deliver_socket _ delivered
    rcases rest.cases_head with rfl | ⟨again, ⟨nothing, -⟩, -⟩
    · rintro header reached last read
      rw [socket] at read
      obtain ⟨rfl, -⟩ : [] = header ∧ _ := Prod.mk.inj (Option.some.inj read)
      decide
    · rw [socket] at nothing
      simp [packetDecoderUnpack] at nothing
  · rintro (stalls | none)
    · exact absurd (flow_loop_stalls 6 _ stalls) (by decide)
    · exact none

/-- A length of four below 2^32: the packet is empty, the decoder stays where it
is, and the loop is still running however long it is watched. -/
theorem wrapped_length_spins :
    (∀ fuel, ∃ last, processReads (fun _ _ => 0) (fun _ => []) fuel
        (newSession ⟨fun _ => none, 0⟩ 1024 2000) [[255, 255, 255, 252, 7]] = some (last, false)) ∧
    (processReads (fun _ _ => 0) (fun _ => []) 3 (newSession ⟨fun _ => none, 0⟩ 1024 2000)
        [[255, 255, 255, 252, 7]]).map (fun run => (run.1.events, run.1.socket.decoder.size)) =
      some ([.packet [], .packet [], .packet []], 5) := by
  refine ⟨fun fuel => ?_, by decide +kernel⟩
  obtain ⟨last, ran, -⟩ := reads_flow (fun _ _ => 0) ⟨fun _ => none, 0⟩ fuel (by decide)
    (quiet_reads 2000 _ fuel newFlow _)
    (first_read_readable (fun _ _ => 0) _ 2000 fuel [255, 255, 255, 252, 7] (by decide) (by decide))
  have stalling : StallingReads 2000 newFlow [[255, 255, 255, 252, 7]] :=
    .inl (.here (by decide) (by decide))
  rw [flow_reads_stall fuel newFlow _ stalling] at ran
  exact ⟨last, ran⟩

end Chuck.UnpackProgress
