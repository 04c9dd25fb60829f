import Chuck.ByteChainAppending

/-!
# A private buffer is a byte list

A buffer that shares its chunks with nobody behaves as the list of its bytes
under `append`, `read` and `read_drain`. Draining may leave it inside a chunk,
at the end of what is stored, or without any chunk; the next append then makes
a new one.
-/

namespace Chuck.ByteBufferRefinement

open Support.SharedChain ByteChunkModel ByteChainReading ByteChainWriting ByteChainAppending
open List Option

/-! ## Operations, on buffers and on lists -/

inductive Op where
  | append (v : List Byte)
  | read (offset size : Nat)
  | readDrain (size : Nat)

/-- What an operation returns: a code, or the bytes it copied, whose number is
the return value. -/
inductive Reply where
  | code (error : ChkError)
  | bytes (out : List Byte)
  deriving DecidableEq

section Operations

variable (junk : Nat → Nat → Byte)

def perform (mem : Memory) (b : ByteBuffer) : Op → Option (Reply × Memory × ByteBuffer)
  | .append v => do
      let (error, mem, b) ← bytebufferAppend junk mem b v
      some (.code error, mem, b)
  | .read offset size => do
      let out ← bytebufferRead mem b offset size
      some (.bytes out, mem, b)
  | .readDrain size => do
      let (out, mem, b) ← bytebufferReadDrain mem b size
      some (.bytes out, mem, b)

def runBuffer : Memory → ByteBuffer → List Op → Option (List (Reply × Nat) × Memory × ByteBuffer)
  | mem, b, [] => some ([], mem, b)
  | mem, b, op :: ops => do
      let (reply, mem, b) ← perform junk mem b op
      let (replies, after, last) ← runBuffer mem b ops
      some ((reply, b.datasize) :: replies, after, last)

end Operations

def answer (L : List Byte) : Op → Reply × List Byte
  | .append v => (.code .ok, L ++ v)
  | .read offset size =>
    (.bytes (if offset > L.length then []
      else (L.drop offset).take (min size (L.length - offset))), L)
  | .readDrain size =>
    if size ≤ L.length then (.bytes (L.take size), L.drop size) else (.bytes [], L)

def runList : List Byte → List Op → List (Reply × Nat) × List Byte
  | L, [] => ([], L)
  | L, op :: ops =>
    let (reply, next) := answer L op
    let (replies, last) := runList next ops
    ((reply, next.length) :: replies, last)

def Fits : List Byte → List Op → Prop
  | _, [] => True
  | L, op :: ops => (answer L op).2.length < 2 ^ 32 ∧ Fits (answer L op).2 ops

theorem slice_answer (L : List Byte) (offset size : Nat) :
    (if offset > L.length then [] else (L.drop offset).take (min size (L.length - offset))) =
      (L.drop offset).take size := by
  split_ifs with beyond
  · rw [drop_of_length_le beyond.le, take_nil]
  · rw [take_eq_take_iff, length_drop]
    omega

/-! ## The representation -/

/-- A buffer that appends to a chain and reads the bytes `L` off it from chunk
`i` on; `others` are the chunks anybody else holds. -/
structure Holding (addr : Nat → Nat) (payload : Nat → List Byte) (mem : Memory) (lo hi i : Nat)
    (others : List Nat) (b : ByteBuffer) (L : List Byte) : Prop where
  tail : AtTail addr payload mem lo hi (i :: others) b
  head : b.head = some (addr i)
  start : b.spos < (payload i).length
  reach : b.spos ≤ (storedFrom payload i hi b.appendPos).length
  content : (storedFrom payload i hi b.appendPos).drop b.spos = L
  counted : b.datasize = L.length
  small : L.length < 2 ^ 32

def Owns (mem : Memory) (b : ByteBuffer) (L : List Byte) : Prop :=
  b.needCopyOnWrite = false ∧ b.readOnly = false ∧
    ((b.head = none ∧ b.tail = none ∧ b.datasize = 0 ∧ L = []) ∨
      ∃ addr payload lo hi, Holding addr payload mem lo hi lo [] b L)

theorem stored_append (payload : Nat → List Byte) {i hi : Nat} (inside : i < hi) (pos : Nat) :
    storedFrom payload i hi pos ++ (payload (hi - 1)).drop pos = bytesFrom payload i hi := by
  have last := bytes_from_single payload (hi - 1)
  rw [show hi - 1 + 1 = hi by omega] at last
  rw [storedFrom, append_assoc, take_append_drop,
    bytes_from_append payload (by omega) (Nat.sub_le hi 1), last]

section Holding

variable {addr : Nat → Nat} {payload : Nat → List Byte} {mem : Memory} {lo hi i : Nat}
  {others : List Nat} {b : ByteBuffer} {L : List Byte}

section

variable (holding : Holding addr payload mem lo hi i others b L)

include holding

theorem Holding.bounds : lo ≤ i ∧ i < hi :=
  holding.tail.chain.segment.inside i mem_cons_self

theorem Holding.whole :
    L ++ (payload (hi - 1)).drop b.appendPos = (bytesFrom payload i hi).drop b.spos := by
  rw [← stored_append payload holding.bounds.2 b.appendPos,
    drop_append_of_le_length holding.reach, holding.content]

theorem Holding.view : L <+: (bytesFrom payload i hi).drop b.spos :=
  ⟨_, holding.whole⟩

theorem Holding.read
    (offset size : Nat) : bytebufferRead mem b offset size = some ((L.drop offset).take size) :=
  read_view holding.tail.chain.segment holding.bounds.1 holding.bounds.2 holding.head
    holding.start.le holding.counted holding.view offset size

theorem Holding.stands : StandsAt addr payload hi others mem b i := by
  have upper := holding.bounds.2
  refine ⟨holding.head.trans (link_inside addr upper).symm, Nat.le_of_lt upper,
    fun _ => holding.start, fun last => absurd last upper.ne, ?_⟩
  rw [link_of_lt upper]
  exact .inr ⟨lo, holding.tail.chain⟩

end

theorem Holding.append (junk : Nat → Nat → Byte)
    (holding : Holding addr payload mem lo hi i others b L) (v : List Byte)
    (fits : (L ++ v).length < 2 ^ 32) :
    ∃ addr' payload' hi' after grown, appendLoop junk v.length mem b v = some (after, grown) ∧
      Appended addr payload mem lo hi (i :: others) b v addr' payload' after hi' grown ∧
      Holding addr' payload' after lo hi' i others grown (L ++ v) := by
  obtain ⟨lower, upper⟩ := holding.bounds
  have counted := holding.counted
  rw [length_append] at fits
  obtain ⟨addr', payload', hi', after, grown, ran, appended⟩ := append_loop junk v.length v
    le_rfl addr payload mem hi b holding.tail (by omega)
  have stored := appended.chain.stored i lower upper
  have reach := holding.reach
  have spos : grown.spos = b.spos := by rw [appended.buffer]
  refine ⟨addr', payload', hi', after, grown, ran, appended, appended.tail, ?_, ?_, ?_, ?_, ?_, ?_⟩
  · rw [appended.buffer, appended.chain.places i upper]
    exact holding.head
  · rw [spos, appended.chain.sizes i upper]
    exact holding.start
  · rw [spos, stored, length_append]
    omega
  · rw [spos, stored, drop_append_of_le_length reach, holding.content]
  · rw [appended.buffer, length_append]
    simp only
    rw [counted, Nat.mod_eq_of_lt fits]
  · rwa [length_append]

theorem Holding.drain (holding : Holding addr payload mem lo hi lo [] b L) {size : Nat}
    (fits : size ≤ L.length) :
    ∃ after drained, bytebufferReadDrain mem b size = some (L.take size, after, drained) ∧
      drained = { b with
        head := drained.head, spos := drained.spos, tail := drained.tail
        datasize := b.datasize - size } ∧
      ((drained.head = none ∧ drained.tail = none ∧ L.drop size = []) ∨
        ∃ first, Holding addr payload after first hi first [] drained (L.drop size)) := by
  obtain ⟨after, drained, j, ran, same, stands, later, left⟩ :=
    drain_view holding.stands holding.bounds.2 holding.tail.solid holding.counted holding.view
      fits nofun
  refine ⟨after, drained, ran, ?_, ?_⟩
  · rw [same]
  · -- What is left of the chain are the bytes not drained and the room behind them.
    rw [← drop_drop, ← holding.whole, drop_append_of_le_length fits] at left
    have lengths := congrArg List.length left
    simp only [length_append, length_drop] at lengths
    by_cases last : j = hi
    · rw [last, bytes_from_empty payload (Nat.le_refl hi), drop_nil] at left
      refine .inl ⟨?_, ?_, (append_eq_nil_iff.mp left.symm).1⟩
      · rw [stands.head, last, linkTo, if_neg (Nat.lt_irrefl hi)]
      · rw [same]
        exact if_pos last
    · have upper : j < hi := Nat.lt_of_le_of_ne stands.bounded last
      have start := stands.inside upper
      have held := stands.held
      rw [link_of_lt upper] at held
      obtain ⟨first, chain⟩ := held.chain mem_cons_self
      obtain rfl : first = j := mem_singleton.mp chain.first
      have append : drained.appendPos = b.appendPos := by rw [same]
      have parts := stored_append payload upper b.appendPos
      have total := congrArg List.length parts
      have short := first_chunk_le payload upper
      rw [length_append, length_drop] at total
      have reach : drained.spos ≤ (storedFrom payload first hi b.appendPos).length := by
        have room := holding.tail.room
        omega
      rw [← parts, drop_append_of_le_length reach] at left
      refine .inr ⟨first, ⟨chain, fun k low high => holding.tail.solid k (by omega) high, ?_, ?_⟩,
        stands.head.trans (link_inside addr upper), start, ?_, ?_, ?_, ?_⟩
      · rw [same]
        exact (if_neg last).trans holding.tail.tail
      · rw [append]
        exact holding.tail.room
      · rw [append]
        exact reach
      · rw [append]
        exact append_cancel_right left
      · rw [same, length_drop, ← holding.counted]
      · rw [length_drop]
        have := holding.small
        omega

theorem stored_take (payload : Nat → List Byte) {i hi : Nat} (inside : i < hi) (pos : Nat) :
    storedFrom payload i hi pos =
      (bytesFrom payload i hi).take (storedFrom payload i hi pos).length := by
  rw [← stored_append payload inside pos, take_left]

/-- A write from the offset `q` of a buffer on, through the bytes of the buffer and the
room behind them. The chunk and the position are those of the offset. -/
theorem Holding.write_cut (holding : Holding addr payload mem lo hi i others b L) {j pos q : Nat}
    (v : List Byte) (low : i ≤ j) (high : j < hi) (inside : pos ≤ (payload j).length)
    (place : (bytesFrom payload i j).length + pos = b.spos + q) :
    ∃ payload' after, bytechunkWrite mem (some (addr j)) pos v =
        some (after, v.drop ((bytesFrom payload i hi).length - (b.spos + q))) ∧
      Holding addr payload' after lo hi i others b
        ((overwrite ((bytesFrom payload i hi).drop b.spos) q
          (v.take ((bytesFrom payload i hi).length - (b.spos + q)))).take L.length) ∧
      Overwritten addr payload mem lo hi (i :: others) j pos
        (v.take ((bytesFrom payload i hi).length - (b.spos + q))) payload' after := by
  obtain ⟨lower, upper⟩ := holding.bounds
  have parts := bytes_from_append payload low high.le
  have lengths := congrArg List.length parts
  rw [length_append] at lengths
  have chain := holding.tail.chain
  have fuel := chain.segment.length_le
  have behind : (payload j).length ≤ (bytesFrom payload j hi).length := by
    rw [bytes_from_cons payload high, length_append]
    omega
  obtain ⟨payload', after, ran, written⟩ := chunk_write_cut (mem.fresh + 1) j pos v payload mem
    chain (lower.trans low) (fun _ => inside) (by omega)
  rw [link_inside addr high] at ran
  have room : (bytesFrom payload j hi).length - pos =
      (bytesFrom payload i hi).length - (b.spos + q) := by omega
  rw [room] at ran written
  generalize cut : v.take ((bytesFrom payload i hi).length - (b.spos + q)) = w at written
  have short : w.length ≤ (bytesFrom payload i hi).length - (b.spos + q) := by
    rw [← cut, length_take]
    omega
  have size := written.sizes
  have view : (bytesFrom payload' i hi).drop b.spos =
      overwrite ((bytesFrom payload i hi).drop b.spos) q w := by
    have front : bytesFrom payload' i j = bytesFrom payload i j :=
      bytes_from_congr _ fun k _ small => written.earlier k small
    rw [bytes_from_append payload' low high.le, front, written.bytes,
      ← overwrite_behind, ← parts, place, drop_overwrite (Nat.le_add_right _ _) (by omega),
      Nat.add_sub_cancel_left]
  have same : (storedFrom payload' i hi b.appendPos).length =
      (storedFrom payload i hi b.appendPos).length := by
    simp only [storedFrom, length_append, length_take,
      length_bytes_same i fun k _ _ => size k, size]
  have stored := congrArg List.length holding.content
  rw [length_drop] at stored
  have content : (storedFrom payload' i hi b.appendPos).drop b.spos =
      (overwrite ((bytesFrom payload i hi).drop b.spos) q w).take L.length := by
    rw [stored_take payload' upper, same, drop_take, view, stored]
  have kept := congrArg List.length content
  rw [length_drop, same, stored] at kept
  refine ⟨payload', after, ran, ⟨⟨written.chain, ?_, holding.tail.tail, ?_⟩, holding.head, ?_, ?_,
    content, ?_, ?_⟩, written⟩
  · intro k below above
    rw [size]
    exact holding.tail.solid k below above
  · rw [size]
    exact holding.tail.room
  · rw [size]
    exact holding.start
  · rw [same]
    exact holding.reach
  · rw [← kept]
    exact holding.counted
  · rw [← kept]
    exact holding.small

theorem Holding.write (holding : Holding addr payload mem lo hi i others b L) {j pos q : Nat}
    {v : List Byte} (low : i ≤ j) (high : j < hi) (inside : pos ≤ (payload j).length)
    (place : (bytesFrom payload i j).length + pos = b.spos + q) (fits : q + v.length ≤ L.length) :
    ∃ payload' after, bytechunkWrite mem (some (addr j)) pos v = some (after, []) ∧
      Holding addr payload' after lo hi i others b (overwrite L q v) ∧
      Overwritten addr payload mem lo hi (i :: others) j pos v payload' after := by
  obtain ⟨payload', after, ran, held, written⟩ := holding.write_cut v low high inside place
  have whole := congrArg List.length holding.whole
  rw [length_append, length_drop, length_drop] at whole
  have all : v.take ((bytesFrom payload i hi).length - (b.spos + q)) = v :=
    take_of_length_le (by omega)
  have none : v.drop ((bytesFrom payload i hi).length - (b.spos + q)) = [] :=
    drop_of_length_le (by omega)
  rw [all] at held written
  rw [none] at ran
  rw [take_overwrite fits, ← holding.whole, take_left] at held
  exact ⟨payload', after, ran, held, written⟩

end Holding

/-! ## The operations keep the representation -/

section Owned

variable (junk : Nat → Nat → Byte) {mem : Memory} {b : ByteBuffer} {L : List Byte}

theorem new_chunk_holding (mem : Memory) (b : ByteBuffer) (len : Nat) :
    Holding (fun _ => (bytechunkNew junk mem len).1) (fun _ => rawData junk mem len)
      (bytechunkNew junk mem len).2 0 1 0 []
      { b with
        head := some (bytechunkNew junk mem len).1
        tail := some (bytechunkNew junk mem len).1
        spos := 0, datasize := 0, appendPos := 0 } [] := by
  have solid : 0 < (rawData junk mem len).length := by
    rw [length_raw_data]
    exact chunk_cap_pos len
  exact ⟨⟨Chain.alloc mem 0 _, fun _ _ _ => solid, rfl, Nat.zero_le _⟩, rfl, solid, Nat.zero_le _,
    by simp [storedFrom, bytesFrom], rfl, by decide⟩

theorem new_owns (mem : Memory) (initcap : Nat) :
    ∃ after b, bytebufferNew junk mem initcap = some (after, b) ∧ Owns after b [] :=
  ⟨_, _, rfl, rfl, rfl, .inr ⟨_, _, 0, 1, new_chunk_holding junk mem blankBuffer initcap⟩⟩

theorem Owns.counted (owns : Owns mem b L) : b.datasize = L.length := by
  obtain ⟨-, -, ⟨-, -, counted, rfl⟩ | ⟨_, _, _, _, holding⟩⟩ := owns
  · exact counted
  · exact holding.counted

theorem append_owns (owns : Owns mem b L) (v : List Byte) (fits : (L ++ v).length < 2 ^ 32) :
    ∃ after grown, bytebufferAppend junk mem b v = some (.ok, after, grown) ∧
      Owns after grown (L ++ v) := by
  have started : ∃ start fresh, openTail junk mem b v.length = some (start, fresh) ∧
      fresh.needCopyOnWrite = b.needCopyOnWrite ∧ fresh.readOnly = b.readOnly ∧
      ∃ addr payload lo hi, Holding addr payload start lo hi lo [] fresh L := by
    obtain ⟨-, -, ⟨-, tail, -, rfl⟩ | ⟨addr, payload, lo, hi, holding⟩⟩ := owns
    · rw [openTail, if_pos tail]
      exact ⟨_, _, rfl, rfl, rfl, _, _, 0, 1, new_chunk_holding junk mem b v.length⟩
    · rw [openTail, holding.tail.tail, if_neg (by simp)]
      exact ⟨mem, b, rfl, rfl, rfl, addr, payload, lo, hi, holding⟩
  obtain ⟨start, fresh, init, copy, locked, addr, payload, lo, hi, holding⟩ := started
  obtain ⟨addr', payload', hi', after, grown, ran, appended, held⟩ := holding.append junk v fits
  refine ⟨after, grown, ?_, ?_, ?_, .inr ⟨addr', payload', lo, hi', held⟩⟩
  · have copied : copyOnWrite junk mem b = some (mem, b) := by
      rw [copyOnWrite, owns.1, if_neg Bool.false_ne_true]
    rw [bytebufferAppend, owns.2.1, if_neg Bool.false_ne_true]
    simp only [bind_eq_bind, bind_some, copied, init, ran]
  · rw [appended.buffer]
    exact copy.trans owns.1
  · rw [appended.buffer]
    exact locked.trans owns.2.1

theorem read_owns (owns : Owns mem b L) (offset size : Nat) :
    bytebufferRead mem b offset size = some ((L.drop offset).take size) := by
  obtain ⟨-, -, ⟨head, -, -, rfl⟩ | ⟨_, _, _, _, holding⟩⟩ := owns
  · rw [bytebufferRead, if_pos head, ite_self, drop_nil, take_nil]
  · exact holding.read offset size

theorem drain_owns (owns : Owns mem b L) {size : Nat} (fits : size ≤ L.length) :
    ∃ after drained, bytebufferReadDrain mem b size = some (L.take size, after, drained) ∧
      Owns after drained (L.drop size) := by
  obtain ⟨copy, locked, ⟨head, tail, counted, rfl⟩ | ⟨addr, payload, lo, hi, holding⟩⟩ := owns
  · refine ⟨mem, b, ?_, copy, locked, .inl ⟨head, tail, counted, drop_nil⟩⟩
    rw [bytebufferReadDrain, if_pos (.inl head), take_nil]
  obtain ⟨after, drained, ran, same, left⟩ := holding.drain fits
  refine ⟨after, drained, ran, ?_, ?_, ?_⟩
  · rw [same]
    exact copy
  · rw [same]
    exact locked
  · rcases left with ⟨head, tail, empty⟩ | ⟨first, held⟩
    · refine .inl ⟨head, tail, ?_, empty⟩
      rw [same, ← length_eq_zero_iff, length_drop] at *
      rw [← empty, holding.counted]
    · exact .inr ⟨addr, payload, first, hi, held⟩

theorem drain_beyond (owns : Owns mem b L) {size : Nat} (beyond : L.length < size) :
    bytebufferReadDrain mem b size = some ([], mem, b) := by
  rw [bytebufferReadDrain, if_pos (.inr (owns.counted ▸ beyond))]

theorem perform_owns (owns : Owns mem b L) (op : Op) (fits : (answer L op).2.length < 2 ^ 32) :
    ∃ after next, perform junk mem b op = some ((answer L op).1, after, next) ∧
      Owns after next (answer L op).2 := by
  cases op with
  | append v =>
    obtain ⟨after, grown, ran, held⟩ := append_owns junk owns v fits
    refine ⟨after, grown, ?_, held⟩
    simp only [perform, ran, bind_eq_bind, bind_some, answer]
  | read offset size =>
    refine ⟨mem, b, ?_, owns⟩
    simp only [perform, read_owns owns, bind_eq_bind, bind_some, answer,
      slice_answer]
  | readDrain size =>
    rw [answer]
    by_cases enough : size ≤ L.length
    · obtain ⟨after, drained, ran, held⟩ := drain_owns owns enough
      rw [if_pos enough]
      refine ⟨after, drained, ?_, held⟩
      simp only [perform, ran, bind_eq_bind, bind_some]
    · rw [if_neg enough]
      refine ⟨mem, b, ?_, owns⟩
      simp only [perform, drain_beyond owns (not_le.mp enough), bind_eq_bind,
        bind_some]

theorem run_owns (ops : List Op) (mem : Memory) (b : ByteBuffer) (L : List Byte)
    (owns : Owns mem b L) (fits : Fits L ops) :
    ∃ after last, runBuffer junk mem b ops = some ((runList L ops).1, after, last) ∧
      Owns after last (runList L ops).2 := by
  induction ops generalizing mem b L with
  | nil => exact ⟨mem, b, rfl, owns⟩
  | cons op ops ih =>
    obtain ⟨between, next, ran, held⟩ := perform_owns junk owns op fits.1
    obtain ⟨after, last, rest, kept⟩ := ih between next _ held fits.2
    refine ⟨after, last, ?_, kept⟩
    simp only [runBuffer, ran, rest, bind_eq_bind, bind_some, runList, held.counted]

end Owned

/-- From `chk_bytebuffer_new` on, every sequence of appends, reads and drains
gives what a list of bytes gives, never faults, and `datasize` is the length of
the list all the way. At the end the whole list can be read. -/
theorem private_buffer_refines (junk : Nat → Nat → Byte) (mem : Memory) (initcap : Nat)
    (ops : List Op) (fits : Fits [] ops) :
    ∃ start b after last, bytebufferNew junk mem initcap = some (start, b) ∧ b.datasize = 0 ∧
      runBuffer junk start b ops = some ((runList [] ops).1, after, last) ∧
      last.datasize = (runList [] ops).2.length ∧
      bytebufferRead after last 0 last.datasize = some (runList [] ops).2 := by
  obtain ⟨start, b, made, owns⟩ := new_owns junk mem initcap
  obtain ⟨after, last, ran, held⟩ := run_owns junk ops start b [] owns fits
  refine ⟨start, b, after, last, made, owns.counted, ran, held.counted, ?_⟩
  rw [read_owns held, drop_zero, held.counted, take_length]

/-- Draining up to the end of the first chunk, asking for too much, appending
and reading across what was there before. -/
theorem buffer_session_refines :
    Fits [] [.append (List.replicate 50 7), .readDrain 48, .readDrain 3, .append [1, 2],
      .read 1 9] ∧
    ∃ start b after last,
      bytebufferNew (fun _ _ => 0) ⟨fun _ => none, 0⟩ 1 = some (start, b) ∧ b.datasize = 0 ∧
      runBuffer (fun _ _ => 0) start b [.append (List.replicate 50 7), .readDrain 48,
        .readDrain 3, .append [1, 2], .read 1 9] =
        some ([(.code .ok, 50), (.bytes (List.replicate 48 7), 2), (.bytes [], 2),
          (.code .ok, 4), (.bytes [7, 1, 2], 4)], after, last) ∧
      last.datasize = 4 ∧
      bytebufferRead after last 0 last.datasize = some [7, 7, 1, 2] := by
  have fits : Fits [] [.append (List.replicate 50 7), .readDrain 48, .readDrain 3,
      .append [1, 2], .read 1 9] :=
    ⟨by decide, by decide, by decide, by decide, by decide, trivial⟩
  exact ⟨fits, private_buffer_refines _ _ 1 _ fits⟩

end Chuck.ByteBufferRefinement
