import Chuck.StreamRecvModel

/-!
# What framing means

The abstract receiver keeps the whole stream as one list, and how much of it
has been handed out. A packet is a four-byte length in network order and as
many bytes; the limits are those of 32-bit arithmetic.
-/

namespace Chuck.PacketFraming

open ByteChunkModel StreamRecvModel List

/-- What stands at the front of the bytes not handed out yet. -/
inductive Parsed where
  | frame (total : Nat)
  | bad (code : UnpackError)
  | incomplete
  deriving DecidableEq

def parse (max : Nat) (pending : List Byte) : Parsed :=
  let size := pending.length % 2 ^ 32
  let pkLen := networkOrder (pending.take headerSize)
  let pkTotal := (headerSize + pkLen) % 2 ^ 32
  if size ≤ headerSize then .incomplete
  else if pkLen = 0 then .bad .invaildPacketSize
  else if pkTotal > max then .bad .packetTooLarge
  else if pkTotal > size then .incomplete
  else .frame pkTotal

structure Flow where
  stream : List Byte
  consumed : Nat
  events : List Event

def Flow.pending (flow : Flow) : List Byte := flow.stream.drop flow.consumed

def Flow.take (flow : Flow) (total : Nat) : Flow :=
  { flow with
    consumed := flow.consumed + total
    events := flow.events ++ [.packet (flow.pending.take total)] }

def flowLoop (max : Nat) : Nat → Flow → Flow × Bool
  | 0, flow => (flow, false)
  | fuel + 1, flow =>
    match parse max flow.pending with
    | .frame total => flowLoop max fuel (flow.take total)
    | .bad code => ({ flow with events := flow.events ++ [.error code] }, true)
    | .incomplete => (flow, true)

def Flow.receive (flow : Flow) (bytes : List Byte) : Flow :=
  { flow with stream := flow.stream ++ bytes }

def flowReads (max fuel : Nat) : Flow → List (List Byte) → Flow × Bool
  | flow, [] => (flow, true)
  | flow, bytes :: reads =>
    match flowLoop max fuel (flow.receive bytes) with
    | (next, true) => flowReads max fuel next reads
    | (next, false) => (next, false)

/-- Every read brings at least one byte and at most as many as there is space for
behind the bytes received. -/
def WithinSpace (space : Nat → Nat) (max fuel : Nat) : Flow → List (List Byte) → Prop
  | _, [] => True
  | flow, bytes :: reads =>
    (1 ≤ bytes.length ∧ bytes.length ≤ space flow.stream.length) ∧
      ((flowLoop max fuel (flow.receive bytes)).2 = true →
        WithinSpace space max fuel (flowLoop max fuel (flow.receive bytes)).1 reads)

theorem WithinSpace.bounded {space : Nat → Nat} {max fuel step : Nat} {flow : Flow}
    {reads : List (List Byte)} (spaced : WithinSpace space max fuel flow reads)
    (sizes : ∀ bytes ∈ reads, bytes.length ≤ step) :
    WithinSpace (fun _ => step) max fuel flow reads := by
  induction reads generalizing flow with
  | nil => trivial
  | cons bytes reads ih =>
    obtain ⟨⟨nonempty, -⟩, onward⟩ := spaced
    refine ⟨⟨nonempty, sizes bytes mem_cons_self⟩, fun returned => ?_⟩
    exact ih (onward returned) fun other member => sizes other (mem_cons_of_mem _ member)

def newFlow : Flow where
  stream := []
  consumed := 0
  events := []

theorem parse_frame_fits {max total : Nat} {pending : List Byte}
    (framed : parse max pending = .frame total) :
    headerSize < pending.length ∧ total ≤ pending.length % 2 ^ 32 ∧ total ≤ pending.length := by
  have small := Nat.mod_le pending.length (2 ^ 32)
  unfold parse at framed
  dsimp only at framed
  split_ifs at framed with empty zero large more
  obtain rfl := Parsed.frame.inj framed
  omega

theorem flow_loop_inside (max fuel : Nat) (flow : Flow)
    (inside : flow.consumed ≤ flow.stream.length) :
    (flowLoop max fuel flow).1.stream = flow.stream ∧
      (flowLoop max fuel flow).1.consumed ≤ flow.stream.length := by
  induction fuel generalizing flow with
  | zero => exact ⟨rfl, inside⟩
  | succ fuel ih =>
    rw [flowLoop]
    cases parsed : parse max flow.pending with
    | frame total =>
      have fits := (parse_frame_fits parsed).2.2
      rw [Flow.pending, length_drop] at fits
      apply ih (flow.take total)
      show flow.consumed + total ≤ flow.stream.length
      omega
    | bad code => exact ⟨rfl, inside⟩
    | incomplete => exact ⟨rfl, inside⟩

/-! ## Well-formed streams -/

def encodeLength (n : Nat) : List Byte :=
  [.ofNat (n / 256 ^ 3), .ofNat (n / 256 ^ 2), .ofNat (n / 256), .ofNat n]

def encodePacket (payload : List Byte) : List Byte := encodeLength payload.length ++ payload

theorem network_order_length {n : Nat} (small : n < 2 ^ 32) :
    networkOrder (encodeLength n) = n := by
  simp only [networkOrder, encodeLength, foldl_cons, foldl_nil, UInt8.toNat_ofNat']
  omega

theorem length_encode_packet (payload : List Byte) :
    (encodePacket payload).length = headerSize + payload.length := by
  rw [encodePacket, length_append]
  rfl

theorem parse_packet {max : Nat} {payload rest : List Byte} (some : 1 ≤ payload.length)
    (fits : headerSize + payload.length ≤ max) (bounded : max < 2 ^ 32)
    (small : (encodePacket payload ++ rest).length < 2 ^ 32) :
    parse max (encodePacket payload ++ rest) = .frame (headerSize + payload.length) := by
  have header : (encodePacket payload ++ rest).take headerSize = encodeLength payload.length := by
    rw [encodePacket, append_assoc]
    exact take_left' rfl
  have size : (encodePacket payload ++ rest).length = headerSize + payload.length +
      rest.length := by
    rw [length_append, length_encode_packet]
  have total : (headerSize + payload.length) % 2 ^ 32 = headerSize + payload.length :=
    Nat.mod_eq_of_lt (by omega)
  unfold parse
  dsimp only
  rw [Nat.mod_eq_of_lt small, header, network_order_length (by omega), total, size]
  rw [if_neg (by omega), if_neg (by omega), if_neg (by omega), if_neg (by omega)]

theorem parse_partial {max : Nat} {payload pending missing : List Byte}
    (whole : pending ++ missing = encodePacket payload) (short : missing ≠ [])
    (some : 1 ≤ payload.length) (fits : headerSize + payload.length ≤ max)
    (bounded : max < 2 ^ 32) : parse max pending = .incomplete := by
  have lengths := congrArg List.length whole
  rw [length_append, length_encode_packet] at lengths
  have left := length_pos_iff.mpr short
  unfold parse
  rw [Nat.mod_eq_of_lt (by omega)]
  by_cases empty : pending.length ≤ headerSize
  · rw [if_pos empty]
  have header : pending.take headerSize = encodeLength payload.length := by
    have front := congrArg (List.take headerSize) whole
    rw [take_append_of_le_length (by omega)] at front
    rw [front, encodePacket]
    exact take_left' rfl
  rw [if_neg empty, header, network_order_length (by omega),
    Nat.mod_eq_of_lt (by omega), if_neg (by omega),
    if_neg (by omega), if_pos (by omega)]

def wire (payloads : List (List Byte)) : List Byte := payloads.flatMap encodePacket

def packets (payloads : List (List Byte)) : List Event :=
  payloads.map fun payload => .packet (encodePacket payload)

def WithinLimit (max : Nat) (payloads : List (List Byte)) : Prop :=
  ∀ payload ∈ payloads, 1 ≤ payload.length ∧ payload.length + headerSize ≤ max

theorem WithinLimit.mono {limit max : Nat} {payloads : List (List Byte)}
    (limits : WithinLimit limit payloads) (sufficient : limit ≤ max) :
    WithinLimit max payloads := by
  intro payload member
  obtain ⟨nonempty, fits⟩ := limits payload member
  exact ⟨nonempty, fits.trans sufficient⟩

theorem wire_cons (payload : List Byte) (payloads : List (List Byte)) :
    wire (payload :: payloads) = encodePacket payload ++ wire payloads :=
  flatMap_cons

section Wire

variable {max : Nat} (bounded : max < 2 ^ 32)

include bounded

theorem flow_loop_wire (payloads : List (List Byte)) (fuel : Nat) (flow : Flow)
    (missing : List Byte) (limits : WithinLimit max payloads) (small : flow.pending.length < 2 ^ 32)
    (whole : flow.pending ++ missing = wire payloads) (fueled : payloads.length < fuel) :
    ∃ done rest next, payloads = done ++ rest ∧ flowLoop max fuel flow = (next, true) ∧
      next.stream = flow.stream ∧ next.events = flow.events ++ packets done ∧
      next.pending ++ missing = wire rest ∧
      ∀ payload ∈ rest.head?, next.pending.length < (encodePacket payload).length := by
  induction payloads generalizing fuel flow with
  | nil =>
    have none : flow.pending = [] := (append_eq_nil_iff.mp whole).1
    obtain ⟨fuel, rfl⟩ := Nat.exists_eq_succ_of_ne_zero fueled.ne'
    refine ⟨[], [], flow, rfl, ?_, rfl, (append_nil _).symm, whole, by simp⟩
    rw [flowLoop, none]
    rfl
  | cons payload payloads ih =>
    obtain ⟨fuel, rfl⟩ := Nat.exists_eq_succ_of_ne_zero (Nat.ne_zero_of_lt fueled)
    obtain ⟨nonempty, fits⟩ := limits payload mem_cons_self
    rw [wire_cons] at whole
    by_cases complete : (encodePacket payload).length ≤ flow.pending.length
    · obtain ⟨rest, split⟩ := prefix_of_prefix_length_le ⟨_, rfl⟩
        (whole ▸ prefix_append flow.pending missing) complete
      rw [← split, append_assoc] at whole
      have onward := append_cancel_left whole
      have parsed := parse_packet nonempty (by omega) bounded (split ▸ small)
      rw [split, ← length_encode_packet] at parsed
      have left : (flow.take (encodePacket payload).length).pending = rest := by
        have dropped : flow.pending.drop (encodePacket payload).length = rest := by
          rw [← split, drop_left]
        rw [← dropped, Flow.pending, Flow.pending, drop_drop]
        rfl
      obtain ⟨done, later, next, parts, ran, stream, events, remain, short⟩ :=
        ih fuel (flow.take (encodePacket payload).length)
          (forall_mem_cons.mp limits).2
          (by rw [left]; have := congrArg List.length split; rw [length_append] at this; omega)
          (left ▸ onward) (Nat.lt_of_succ_lt_succ fueled)
      refine ⟨payload :: done, later, next, by rw [parts, cons_append], ?_, stream, ?_, remain,
        short⟩
      · rw [flowLoop, parsed]
        exact ran
      · rw [events, Flow.take, ← split, take_left]
        simp [packets]
    · obtain ⟨rest, split⟩ := prefix_of_prefix_length_le
        (whole ▸ prefix_append flow.pending missing) ⟨_, rfl⟩ (Nat.le_of_not_le complete)
      have short : rest ≠ [] := by
        rintro rfl
        rw [append_nil] at split
        exact complete (Nat.le_of_eq (congrArg List.length split).symm)
      refine ⟨[], payload :: payloads, flow, rfl, ?_, rfl, (append_nil _).symm,
        by rw [wire_cons, whole], fun other member => ?_⟩
      · rw [flowLoop, parse_partial split short nonempty (by omega) bounded]
      · obtain rfl := Option.some.inj member
        exact not_le.mp complete

theorem flow_reads_wire (space : Nat → Nat) {limit step : Nat}
    (bound : ∀ received, space received ≤ step) (sufficient : limit ≤ max)
    (room : limit + step < 2 ^ 32) (reads payloads : List (List Byte)) (fuel : Nat) (flow : Flow)
    (limits : WithinLimit limit payloads) (spaced : WithinSpace space max fuel flow reads)
    (inside : flow.consumed ≤ flow.stream.length)
    (short : ∀ payload ∈ payloads.head?, flow.pending.length < (encodePacket payload).length)
    (whole : flow.pending ++ reads.flatten = wire payloads) (fueled : payloads.length < fuel) :
    ∃ last, flowReads max fuel flow reads = (last, true) ∧
      last.events = flow.events ++ packets payloads := by
  induction reads generalizing payloads flow with
  | nil =>
    rw [flatten_nil, append_nil] at whole
    cases payloads with
    | nil => exact ⟨flow, rfl, by simp [packets]⟩
    | cons payload payloads =>
      have lengths := congrArg List.length whole
      rw [wire_cons, length_append] at lengths
      have := short payload rfl
      omega
  | cons read reads ih =>
    have pending : (flow.receive read).pending = flow.pending ++ read := by
      rw [Flow.pending, Flow.pending, Flow.receive, drop_append_of_le_length inside]
    have few : flow.pending.length ≤ limit := by
      cases payloads with
      | nil =>
        rw [(append_eq_nil_iff.mp whole).1]
        exact Nat.zero_le _
      | cons payload payloads =>
        have less := short payload rfl
        have fits := (limits payload mem_cons_self).2
        rw [length_encode_packet] at less
        omega
    have size := spaced.1.2.trans (bound _)
    rw [flatten_cons, ← append_assoc, ← pending] at whole
    have small : (flow.receive read).pending.length < 2 ^ 32 := by
      rw [pending, length_append]
      omega
    obtain ⟨done, rest, next, parts, ran, stream, events, remain, less⟩ :=
      flow_loop_wire bounded payloads fuel (flow.receive read) reads.flatten
        (limits.mono sufficient) small whole fueled
    have inside' : (flow.receive read).consumed ≤ (flow.receive read).stream.length := by
      rw [Flow.receive, length_append]
      exact Nat.le_add_right_of_le inside
    have kept := flow_loop_inside max fuel _ inside'
    rw [ran] at kept
    subst parts
    rw [length_append] at fueled
    obtain ⟨last, final, all⟩ := ih rest next
      (forall_mem_append.mp limits).2
      (by have onward := spaced.2; rw [ran] at onward; exact onward rfl)
      (by rw [kept.1]; exact kept.2) less remain (by omega)
    refine ⟨last, ?_, ?_⟩
    · rw [flowReads, ran]
      exact final
    · rw [all, events, packets, packets, packets, map_append, append_assoc]
      rfl

end Wire

end Chuck.PacketFraming
