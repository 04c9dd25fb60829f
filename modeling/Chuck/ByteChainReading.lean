import Chuck.ByteChunkModel
import Chuck.Support.PartialQueue

/-!
# Reading along a chain of chunks

The bytes of a chain are the contents of its chunks one after another. Reading
from a position in a chunk gives the bytes from there on, and draining gives
them too and moves the buffer to the chunk where it ends.
-/

namespace Chuck.ByteChainReading

open Support.SharedChain Support.PartialQueue ByteChunkModel List Option

def bytesFrom (payload : Nat → List Byte) (lo hi : Nat) : List Byte :=
  (List.range' lo (hi - lo)).flatMap payload

def linkTo (addr : Nat → Nat) (hi i : Nat) : Option Nat := if i < hi then some (addr i) else none

theorem link_inside (addr : Nat → Nat) {hi i : Nat} (upper : i < hi) :
    linkTo addr hi i = some (addr i) :=
  if_pos upper

section Bytes

variable (payload : Nat → List Byte)

theorem bytes_from_empty {lo hi : Nat} (none : hi ≤ lo) : bytesFrom payload lo hi = [] := by
  rw [bytesFrom, Nat.sub_eq_zero_of_le none]
  rfl

theorem bytes_from_lt {lo hi : Nat} (some : 0 < (bytesFrom payload lo hi).length) : lo < hi := by
  by_contra none
  rw [bytes_from_empty payload (Nat.not_lt.mp none), length_nil] at some
  exact Nat.lt_irrefl 0 some

theorem bytes_from_cons {lo hi : Nat} (some : lo < hi) :
    bytesFrom payload lo hi = payload lo ++ bytesFrom payload (lo + 1) hi := by
  rw [bytesFrom, show hi - lo = hi - (lo + 1) + 1 by omega, range'_succ]
  simp [bytesFrom]

theorem first_chunk_le {lo hi : Nat} (some : lo < hi) :
    (payload lo).length ≤ (bytesFrom payload lo hi).length := by
  rw [bytes_from_cons payload some, length_append]
  exact Nat.le_add_right _ _

theorem bytes_from_append {lo mid hi : Nat} (low : lo ≤ mid) (high : mid ≤ hi) :
    bytesFrom payload lo hi = bytesFrom payload lo mid ++ bytesFrom payload mid hi := by
  rw [bytesFrom, bytesFrom, bytesFrom, ← flatMap_append,
    show hi - lo = (mid - lo) + (hi - mid) by omega, ← range'_append_1]
  rw [show lo + (mid - lo) = mid by omega]

theorem bytes_from_single (i : Nat) : bytesFrom payload i (i + 1) = payload i := by
  rw [bytes_from_cons payload (Nat.lt_succ_self i), bytes_from_empty payload le_rfl,
    append_nil]

theorem bytes_from_congr {other : Nat → List Byte} {lo hi : Nat}
    (same : ∀ i, lo ≤ i → i < hi → payload i = other i) :
    bytesFrom payload lo hi = bytesFrom other lo hi := by
  refine flatMap_congr fun i member => ?_
  have bounds := mem_range'_1.mp member
  exact same i bounds.1 (by omega)

end Bytes

theorem slice_inside {data : List Byte} {pos size : Nat} (inside : pos + size ≤ data.length) :
    slice data pos size = some ((data.drop pos).take size) :=
  if_pos inside

section Reading

variable {addr : Nat → Nat} {payload : Nat → List Byte} {mem : Memory} {lo hi : Nat}
  {holders : List Nat} {extra : Nat}

theorem cell_at (segment : Segment addr payload mem lo hi holders extra) {i : Nat}
    (lower : lo ≤ i) (upper : i < hi) : ∃ count, mem.cells (addr i) =
      some { refcount := count, next := linkTo addr hi (i + 1), payload := payload i } :=
  ⟨_, segment.cell i lower upper⟩

variable (segment : Segment addr payload mem lo hi holders extra)

include segment

theorem copy_out_loop (fuel i pos size : Nat) (lower : lo ≤ i)
    (inside : i < hi → pos ≤ (payload i).length)
    (enough : pos + size ≤ (bytesFrom payload i hi).length) (fueled : hi - i ≤ fuel) :
    copyOutLoop mem fuel (linkTo addr hi i) pos size =
      some (((bytesFrom payload i hi).drop pos).take size) := by
  induction fuel generalizing i pos size with
  | zero =>
    rw [bytes_from_empty payload (by omega), length_nil] at enough
    obtain rfl : size = 0 := by omega
    simp [copyOutLoop]
  | succ fuel ih =>
    cases size with
    | zero => simp [copyOutLoop]
    | succ size =>
      have upper : i < hi := bytes_from_lt payload (by omega)
      obtain ⟨count, cell⟩ := cell_at segment lower upper
      have inside := inside upper
      rw [bytes_from_cons payload upper] at enough ⊢
      rw [length_append] at enough
      rw [copyOutLoop, link_inside addr upper]
      simp only [bind_eq_bind, bind_some, cell]
      rw [slice_inside (by omega), ih (i + 1) 0 _ (by omega) (fun _ => Nat.zero_le _)
        (by omega) (by omega), take_drop_append _ _ inside]
      simp

theorem seek_loop (fuel i pos offset : Nat) (lower : lo ≤ i)
    (inside : i < hi → pos ≤ (payload i).length)
    (enough : pos + offset ≤ (bytesFrom payload i hi).length) (fueled : hi - i ≤ fuel) :
    ∃ j last, seekLoop mem fuel (linkTo addr hi i) pos offset = some (linkTo addr hi j, last) ∧
      lo ≤ j ∧ (j < hi → last ≤ (payload j).length) ∧ last ≤ (bytesFrom payload j hi).length ∧
      (bytesFrom payload i hi).drop (pos + offset) = (bytesFrom payload j hi).drop last := by
  induction fuel generalizing i pos offset with
  | zero =>
    have none := bytes_from_empty payload (show hi ≤ i by omega)
    rw [none, length_nil] at enough
    obtain rfl : offset = 0 := by omega
    exact ⟨i, pos, by simp [seekLoop], lower, inside, by omega, rfl⟩
  | succ fuel ih =>
    cases offset with
    | zero => exact ⟨i, pos, by simp [seekLoop], lower, inside, by omega, rfl⟩
    | succ offset =>
      have upper : i < hi := bytes_from_lt payload (by omega)
      obtain ⟨count, cell⟩ := cell_at segment lower upper
      have inside := inside upper
      rw [seekLoop]
      simp only [link_inside addr upper, bind_eq_bind, bind_some, cell]
      by_cases crossed : pos + (offset + 1) ≥ (payload i).length
      · -- The offset lies behind this chunk.
        rw [bytes_from_cons payload upper, length_append] at enough
        rw [if_pos (by omega)]
        obtain ⟨j, last, sought, low, short, within, same⟩ := ih (i + 1) 0
          (offset + 1 - min ((payload i).length - pos) (offset + 1)) (by omega)
          (fun _ => Nat.zero_le _) (by omega) (by omega)
        refine ⟨j, last, sought, low, short, within, ?_⟩
        rw [← same, bytes_from_cons payload upper, drop_append,
          drop_of_length_le (by omega), nil_append]
        congr 1
        omega
      · rw [if_neg (by omega)]
        rw [Nat.min_eq_right (by omega), Nat.sub_self]
        exact ⟨i, pos + (offset + 1), by simp [seekLoop, link_inside addr upper], lower,
          fun _ => by omega, by omega, rfl⟩

theorem chunk_read_loop (fuel i pos size : Nat) (lower : lo ≤ i)
    (inside : i < hi → pos ≤ (payload i).length)
    (enough : pos + size ≤ (bytesFrom payload i hi).length) (fueled : hi - i ≤ fuel) :
    ∃ j last, bytechunkReadLoop mem fuel (linkTo addr hi i) pos size =
        some (((bytesFrom payload i hi).drop pos).take size, linkTo addr hi j, last) ∧
      i ≤ j ∧ (i < hi → j < hi) ∧ (j < hi → last ≤ (payload j).length) ∧
      (bytesFrom payload i hi).drop (pos + size) = (bytesFrom payload j hi).drop last := by
  induction fuel generalizing i pos size with
  | zero =>
    rw [bytes_from_empty payload (by omega), length_nil] at enough
    obtain rfl : size = 0 := by omega
    exact ⟨i, pos, by simp [bytechunkReadLoop], Nat.le_refl i, id, inside, rfl⟩
  | succ fuel ih =>
    cases size with
    | zero => exact ⟨i, pos, by simp [bytechunkReadLoop], Nat.le_refl i, id, inside, rfl⟩
    | succ size =>
      have upper : i < hi := bytes_from_lt payload (by omega)
      obtain ⟨count, cell⟩ := cell_at segment lower upper
      have inside := inside upper
      rw [bytes_from_cons payload upper] at enough ⊢
      rw [length_append] at enough
      rw [link_inside addr upper, bytechunkReadLoop]
      simp only [bind_eq_bind, bind_some, cell]
      rw [slice_inside (by omega), take_drop_append _ _ inside]
      simp only [bind_some]
      by_cases done : size + 1 - min ((payload i).length - pos) (size + 1) = 0
      · rw [if_pos done, done, take_zero, append_nil, ← link_inside addr upper,
          ← bytes_from_cons payload upper]
        refine ⟨i, _, rfl, Nat.le_refl i, id, fun _ => by omega, ?_⟩
        congr 1
        omega
      · obtain ⟨j, last, ran, later, last_, short, same⟩ := ih (i + 1) 0
          (size + 1 - min ((payload i).length - pos) (size + 1)) (by omega)
          (fun _ => Nat.zero_le _) (by omega) (by omega)
        have more : i + 1 < hi := bytes_from_lt payload (by omega)
        rw [if_neg done, ran]
        refine ⟨j, last, rfl, by omega, fun _ => last_ more, short, ?_⟩
        rw [← same, drop_append, drop_of_length_le (by omega), nil_append]
        congr 1
        omega

theorem read_view {b : ByteBuffer} {i : Nat} {L : List Byte} (lower : lo ≤ i) (upper : i < hi)
    (head : b.head = some (addr i)) (inside : b.spos ≤ (payload i).length)
    (counted : b.datasize = L.length) (view : L <+: (bytesFrom payload i hi).drop b.spos)
    (offset size : Nat) : bytebufferRead mem b offset size = some ((L.drop offset).take size) := by
  obtain ⟨rest, whole⟩ := view
  rw [bytebufferRead, counted]
  by_cases beyond : offset > L.length
  · rw [if_pos beyond, drop_of_length_le beyond.le, take_nil]
  have bytes := congrArg List.length whole
  rw [length_append, length_drop] at bytes
  have first := first_chunk_le payload upper
  have long := segment.length_le
  obtain ⟨j, last, sought, low, short, within, same⟩ := seek_loop segment (mem.fresh + 1) i
    b.spos offset lower (fun _ => inside) (by omega) (by omega)
  have left := congrArg List.length same
  rw [length_drop, length_drop] at left
  rw [link_inside addr upper] at sought
  rw [if_neg beyond, head, if_neg (by simp), sought]
  refine (copy_out_loop segment (mem.fresh + 1) j last (min size (L.length - offset)) low short
    (by omega) (by omega)).trans ?_
  rw [← same, ← drop_drop, ← whole, drop_append_of_le_length (by omega),
    take_append_of_le_length (by rw [length_drop]; omega), Option.some.injEq,
    take_eq_take_iff, length_drop]
  omega

end Reading

/-- A buffer that reads `bytes` off a chain from chunk `i` on, whoever holds the
chunks; each of them has at least `least` bytes. -/
structure LaidOut (addr : Nat → Nat) (payload : Nat → List Byte) (mem : Memory) (lo hi : Nat)
    (holders : List Nat) (least i : Nat) (b : ByteBuffer) (bytes : List Byte) : Prop where
  chain : Chain addr payload mem lo hi holders
  lower : lo ≤ i
  upper : i < hi
  wide : ∀ k, lo ≤ k → k < hi → least ≤ (payload k).length
  head : b.head = some (addr i)
  start : b.spos < (payload i).length
  counted : b.datasize = bytes.length
  view : bytes <+: (bytesFrom payload i hi).drop b.spos

def Layout (least : Nat) (mem : Memory) (b : ByteBuffer) (bytes : List Byte) : Prop :=
  ∃ addr payload lo hi holders i, LaidOut addr payload mem lo hi holders least i b bytes

theorem Layout.read {least : Nat} {mem : Memory} {b : ByteBuffer} {bytes : List Byte}
    (layout : Layout least mem b bytes) (offset size : Nat) :
    bytebufferRead mem b offset size = some ((bytes.drop offset).take size) := by
  obtain ⟨addr, payload, lo, hi, holders, i, laid⟩ := layout
  exact read_view laid.chain.segment laid.lower laid.upper laid.head laid.start.le
    laid.counted laid.view offset size

/-! ## Draining -/

section DrainSteps

variable {mem : Memory} {b : ByteBuffer} {address size : Nat} {chunk : Cell (List Byte)}
  (head : b.head = some address) (cell : mem.cells address = some chunk)

include head cell

theorem drain_inside (fuel : Nat) (inside : b.spos + (size + 1) < chunk.payload.length) :
    drainLoop (fuel + 1) mem b (size + 1) =
      some ((chunk.payload.drop b.spos).take (size + 1), mem,
        { b with spos := b.spos + (size + 1), datasize := b.datasize - (size + 1) }) := by
  rw [drainLoop]
  simp only [head, cell, bind_eq_bind, bind_some]
  rw [Nat.min_eq_right (by omega), slice_inside (by omega)]
  simp only [bind_some]
  rw [if_neg (by omega)]

theorem drain_across (fuel : Nat) (start : b.spos ≤ chunk.payload.length)
    (crossed : chunk.payload.length ≤ b.spos + (size + 1)) {moved : Memory}
    (released : bytechunkRelease (mem.set address (some { chunk with next := none })) address =
      some moved) {rest : List Byte} {after : Memory} {drained : ByteBuffer}
    (onward : drainLoop fuel moved
      { b with
        head := chunk.next, spos := 0
        datasize := b.datasize - (chunk.payload.length - b.spos) }
      (size + 1 - (chunk.payload.length - b.spos)) = some (rest, after, drained)) :
    drainLoop (fuel + 1) mem b (size + 1) =
      some (chunk.payload.drop b.spos ++ rest, after, drained) := by
  rw [drainLoop]
  simp only [head, cell, bind_eq_bind, bind_some]
  rw [Nat.min_eq_left (by omega), slice_inside (by omega), take_of_length_le (by simp)]
  simp only [bind_some]
  rw [if_pos (.inr (by omega))]
  simp only [released, onward, bind_some]

end DrainSteps

section Draining

variable {addr : Nat → Nat} {payload : Nat → List Byte} {mem : Memory} {hi : Nat}
  {others : List Nat}

structure StandsAt (addr : Nat → Nat) (payload : Nat → List Byte) (hi : Nat) (others : List Nat)
    (mem : Memory) (b : ByteBuffer) (i : Nat) : Prop where
  head : b.head = linkTo addr hi i
  bounded : i ≤ hi
  inside : i < hi → b.spos < (payload i).length
  ended : i = hi → b.spos = 0
  held : Held addr payload mem hi (link hi i ++ others)

/-- The loop gives the bytes from the buffer's position on, if no link it cuts is
needed by anybody else. -/
theorem drain_loop (fuel i size : Nat) (mem : Memory) (b : ByteBuffer)
    (stands : StandsAt addr payload hi others mem b i)
    (enough : b.spos + size ≤ (bytesFrom payload i hi).length) (fueled : hi - i ≤ fuel)
    (solid : ∀ j, i ≤ j → j < hi → 0 < (payload j).length)
    (clear : ∀ j, i ≤ j → j + 1 < hi →
      (bytesFrom payload i (j + 1)).length ≤ b.spos + size → ∀ k ∈ others, j < k) :
    ∃ after drained j, drainLoop fuel mem b size =
        some (((bytesFrom payload i hi).drop b.spos).take size, after, drained) ∧
      drained = { b with
        head := drained.head, spos := drained.spos, datasize := b.datasize - size } ∧
      StandsAt addr payload hi others after drained j ∧ i ≤ j ∧
      (bytesFrom payload j hi).drop drained.spos =
        (bytesFrom payload i hi).drop (b.spos + size) := by
  induction fuel generalizing i size mem b with
  | zero =>
    rw [bytes_from_empty payload (by omega), length_nil] at enough
    obtain rfl : size = 0 := by omega
    exact ⟨mem, b, i, by simp [drainLoop], rfl, stands, le_rfl, rfl⟩
  | succ fuel ih =>
    cases size with
    | zero => exact ⟨mem, b, i, by simp [drainLoop], rfl, stands, le_rfl, rfl⟩
    | succ size =>
      have upper : i < hi := bytes_from_lt payload (by omega)
      have head := stands.head.trans (link_inside addr upper)
      have inside := stands.inside upper
      have held := stands.held
      rw [link_of_lt upper] at held
      obtain ⟨count, cell⟩ := held.cell mem_cons_self (Nat.le_refl i) upper
      have split := bytes_from_cons payload upper
      rw [split, length_append] at enough
      by_cases crossed : (payload i).length ≤ b.spos + (size + 1)
      · have single := congrArg List.length (bytes_from_single payload i)
        obtain ⟨moved, released, next⟩ := held.cross
          (fun more => clear i (Nat.le_refl i) more (by omega)) cell
        obtain ⟨after, drained, j, ran, same, standing, later, rest⟩ := ih (i + 1)
          (size + 1 - ((payload i).length - b.spos)) moved
          { b with
            head := linkTo addr hi (i + 1)
            spos := 0
            datasize := b.datasize - ((payload i).length - b.spos) }
          ⟨rfl, upper, fun more => solid (i + 1) (by omega) more, fun _ => rfl, next⟩
          (by simp only; omega) (by omega) (fun j low => solid j (by omega))
          (fun j low high reached => by
            refine clear j (by omega) high ?_
            rw [bytes_from_cons payload (by omega), length_append]
            simp only at reached
            omega)
        refine ⟨after, drained, j, ?_, ?_, standing, by omega, ?_⟩
        · rw [split, take_drop_append _ _ inside.le, Nat.min_eq_left (by omega),
            take_of_length_le (by simp)]
          exact drain_across head cell fuel inside.le crossed released ran
        · rw [same]
          simp only [ByteBuffer.mk.injEq, true_and, and_true]
          omega
        · rw [rest, split, drop_append, drop_of_length_le crossed, nil_append]
          congr 1
          simp only
          omega
      · refine ⟨mem, { b with
          spos := b.spos + (size + 1)
          datasize := b.datasize - (size + 1) }, i, ?_, rfl,
          ⟨stands.head, stands.bounded, fun _ => not_le.mp crossed,
            fun last => absurd last upper.ne, stands.held⟩, Nat.le_refl i, rfl⟩
        rw [split, take_drop_append _ _ inside.le, Nat.min_eq_right (by omega),
          Nat.sub_self, take_zero, append_nil]
        exact drain_inside head cell fuel (not_le.mp crossed)

theorem drain_view {b : ByteBuffer} {i : Nat} {L : List Byte}
    (stands : StandsAt addr payload hi others mem b i) (upper : i < hi)
    (solid : ∀ j, i ≤ j → j < hi → 0 < (payload j).length) (counted : b.datasize = L.length)
    (view : L <+: (bytesFrom payload i hi).drop b.spos) {size : Nat} (fits : size ≤ L.length)
    (clear : ∀ j, i ≤ j → j + 1 < hi →
      (bytesFrom payload i (j + 1)).length ≤ b.spos + size → ∀ k ∈ others, j < k) :
    ∃ after drained j, bytebufferReadDrain mem b size = some (L.take size, after, drained) ∧
      drained = { b with
        head := drained.head, spos := drained.spos, datasize := b.datasize - size
        tail := if j = hi then none else b.tail } ∧
      StandsAt addr payload hi others after drained j ∧ i ≤ j ∧
      (bytesFrom payload j hi).drop drained.spos =
        (bytesFrom payload i hi).drop (b.spos + size) := by
  obtain ⟨rest, whole⟩ := view
  have bytes := congrArg List.length whole
  rw [length_append, length_drop] at bytes
  have inside := stands.inside upper
  have held := stands.held
  rw [link_of_lt upper] at held
  obtain ⟨lo, chain⟩ := held.chain mem_cons_self
  have lower := (chain.segment.inside i mem_cons_self).1
  have first := first_chunk_le payload upper
  have long := chain.segment.length_le
  obtain ⟨after, drained, j, ran, same, standing, later, left⟩ :=
    drain_loop (mem.fresh + 1) i size mem b stands (by omega) (by omega) solid clear
  rw [← whole, take_append_of_le_length fits] at ran
  have started : ¬(b.head = none ∨ size > b.datasize) := by
    rw [stands.head, link_inside addr upper]
    simp
    omega
  rw [bytebufferReadDrain, if_neg started, ran]
  have ended : drained.head = none ↔ j = hi := by
    have bounded := standing.bounded
    rw [standing.head, linkTo]
    split_ifs <;> simp <;> omega
  by_cases last : j = hi
  · refine ⟨after, { drained with tail := none }, j, ?_, ?_, ?_, later, left⟩
    · simp only [bind_eq_bind, bind_some, if_pos (ended.mpr last)]
    · rw [same]
      simp only [if_pos last]
    · exact { standing with }
  · refine ⟨after, drained, j, ?_, ?_, standing, later, left⟩
    · simp only [bind_eq_bind, bind_some, if_neg (mt ended.mp last)]
    · rw [same]
      simp only [if_neg last]

end Draining

/-! ## Two chunks -/

def twoChunks (first second : List Byte) : Memory where
  cells
    | 0 => some ⟨1, some 1, first⟩
    | 1 => some ⟨1, none, second⟩
    | _ => none
  fresh := 2

def eitherPayload (first second : List Byte) (i : Nat) : List Byte :=
  if i = 0 then first else second

theorem two_chunks_chain (first second : List Byte) :
    Chain id (eitherPayload first second) (twoChunks first second) 0 2 [0] := by
  refine ⟨⟨fun i _ upper => ?_, fun i j _ _ _ _ same => same, fun i _ upper => upper, by simp⟩,
    mem_singleton.mpr rfl⟩
  match i with
  | 0 => rfl
  | 1 => rfl

end Chuck.ByteChainReading
