import Chuck.ByteChainReading
import Chuck.ChunkSizes
import Chuck.StreamRecvModel

/-!
# The receive chunks as one tape

The chunks a socket receives into all have the size of its receive buffer, so
position `p` of the stream is byte `p % size` of chunk `p / size`. A pointer
into the chain is a position on that tape.
-/

namespace Chuck.ReceiveTape

open Support.SharedChain ByteChunkModel ByteChainReading StreamRecvModel Function List Option

variable {start i first : Nat} {stream : List Byte}

/-- The places and contents of the chunks made so far, freed ones included. -/
structure Tape where
  addr : Nat → Nat
  payload : Nat → List Byte
  hi : Nat

variable {rbs : Nat}

def Tape.byte (rbs : Nat) (tape : Tape) (p : Nat) : Option Byte :=
  (tape.payload (p / rbs))[p % rbs]?

structure Tape.Kept (rbs : Nat) (tape : Tape) (mem : Memory) (holders : List Nat) : Prop where
  held : Held tape.addr tape.payload mem tape.hi holders
  sized : ∀ i, i < tape.hi → (tape.payload i).length = rbs

structure Tape.Extends (tape longer : Tape) : Prop where
  hi : tape.hi ≤ longer.hi
  addr : ∀ i, i < tape.hi → longer.addr i = tape.addr i
  payload : ∀ i, i < tape.hi → longer.payload i = tape.payload i

structure Tape.Stores (rbs : Nat) (tape : Tape) (stream : List Byte) (start : Nat) : Prop where
  fits : stream.length ≤ tape.hi * rbs
  same : ∀ p, start ≤ p → p < stream.length → tape.byte rbs p = stream[p]?

theorem Tape.Extends.refl (tape : Tape) : tape.Extends tape :=
  ⟨le_rfl, fun _ _ => rfl, fun _ _ => rfl⟩

theorem Tape.Extends.trans {first second third : Tape} (one : first.Extends second)
    (two : second.Extends third) : first.Extends third := by
  refine ⟨one.hi.trans two.hi, fun i inside => ?_, fun i inside => ?_⟩
  · rw [two.addr i (inside.trans_le one.hi), one.addr i inside]
  · rw [two.payload i (inside.trans_le one.hi), one.payload i inside]

theorem Tape.Stores.extend {tape longer : Tape} (stores : tape.Stores rbs stream start)
    (extends_ : tape.Extends longer) : longer.Stores rbs stream start := by
  refine ⟨stores.fits.trans (Nat.mul_le_mul_right _ extends_.hi), fun p lower upper => ?_⟩
  have inside : p / rbs < tape.hi :=
    Nat.div_lt_of_lt_mul (Nat.mul_comm _ _ ▸ upper.trans_le stores.fits)
  rw [Tape.byte, extends_.payload _ inside]
  exact stores.same p lower upper

theorem Tape.Stores.later {tape : Tape} {again : Nat} (stores : tape.Stores rbs stream start)
    (later : start ≤ again) : tape.Stores rbs stream again :=
  ⟨stores.fits, fun p lower => stores.same p (later.trans lower)⟩

section Views

variable {tape : Tape} (sized : ∀ i, i < tape.hi → (tape.payload i).length = rbs)

include sized

theorem length_bytes_from (i : Nat) {mid : Nat} (inside : mid ≤ tape.hi) :
    (bytesFrom tape.payload i mid).length = (mid - i) * rbs := by
  rw [bytesFrom, length_flatMap]
  have all : ∀ j ∈ List.range' i (mid - i), (tape.payload j).length = rbs := by
    intro j member
    have bounds := mem_range'_1.mp member
    exact sized j (by omega)
  rw [map_congr_left all, map_const', sum_replicate_nat, length_range']

theorem bytes_from_get (count i k : Nat) (rest : tape.hi - i = count) (inside : k < count * rbs) :
    (bytesFrom tape.payload i tape.hi)[k]? = tape.byte rbs (i * rbs + k) := by
  induction count generalizing i k with
  | zero => omega
  | succ count ih =>
    have upper : i < tape.hi := by omega
    have size := sized i upper
    have positive : 0 < rbs := by
      rcases Nat.eq_zero_or_pos rbs with rfl | positive
      · simp at inside
      · exact positive
    rw [bytes_from_cons tape.payload upper]
    by_cases here : k < rbs
    · rw [getElem?_append_left (by omega), Tape.byte, Nat.mul_comm,
        Nat.mul_add_div positive, Nat.mul_add_mod, Nat.div_eq_of_lt here, Nat.mod_eq_of_lt here,
        Nat.add_zero]
    · rw [getElem?_append_right (by omega), size, ih (i + 1) (k - rbs) (by omega)
        (by rw [Nat.succ_mul] at inside; omega)]
      congr 1
      rw [Nat.succ_mul]
      omega

theorem Tape.Stores.view {o : Nat} (stores : tape.Stores rbs stream start) (lower : start ≤ o) :
    stream.drop o <+: (bytesFrom tape.payload (o / rbs) tape.hi).drop (o % rbs) := by
  rw [prefix_iff_getElem?]
  intro k inside
  rw [length_drop] at inside
  have fits := stores.fits
  have place := Nat.div_add_mod o rbs
  have chunk : o / rbs ≤ tape.hi := by
    apply Nat.div_le_of_le_mul
    rw [Nat.mul_comm]
    omega
  have room : o % rbs + k < (tape.hi - o / rbs) * rbs := by
    rw [Nat.sub_mul, Nat.mul_comm (o / rbs)]
    omega
  rw [getElem?_drop, bytes_from_get sized _ _ _ rfl room, getElem_drop,
    ← getElem?_eq_getElem, ← stores.same (o + k) (by omega) (by omega)]
  congr 1
  rw [Nat.mul_comm]
  omega

end Views

/-! ## Positions -/

theorem place_inside {k : Nat} (inside : start % rbs + k < rbs) :
    (start + k) / rbs = start / rbs ∧ (start + k) % rbs = start % rbs + k := by
  have split : start + k = rbs * (start / rbs) + (start % rbs + k) := by
    have := Nat.div_add_mod start rbs
    omega
  constructor
  · rw [split, Nat.mul_add_div (by omega), Nat.div_eq_of_lt inside, Nat.add_zero]
  · rw [split, Nat.mul_add_mod, Nat.mod_eq_of_lt inside]

theorem place_across {k : Nat} (positive : 0 < rbs) (across : start % rbs + k = rbs) :
    (start + k) / rbs = start / rbs + 1 ∧ (start + k) % rbs = 0 := by
  have split : start + k = rbs * (start / rbs + 1) := by
    have := Nat.div_add_mod start rbs
    rw [Nat.mul_add_one]
    omega
  exact ⟨by rw [split, Nat.mul_div_cancel_left _ positive], by rw [split, Nat.mul_mod_right]⟩

theorem place_of (i : Nat) {r : Nat} (inside : r < rbs) :
    (i * rbs + r) / rbs = i ∧ (i * rbs + r) % rbs = r := by
  rw [Nat.mul_comm]
  exact ⟨by rw [Nat.mul_add_div (by omega), Nat.div_eq_of_lt inside, Nat.add_zero],
    by rw [Nat.mul_add_mod, Nat.mod_eq_of_lt inside]⟩

/-! ## More chunks -/

section Chunks

variable (junk : Nat → Nat → Byte) {tape : Tape} {mem : Memory} {holders : List Nat}

theorem next_chunk (cap : chunkCap rbs = rbs) (kept : tape.Kept rbs mem holders)
    (member : first ∈ holders) (later : first ≤ i) (inside : i < tape.hi) :
    ∃ after longer, nextChunk junk mem (tape.addr i) rbs = some (after, longer.addr (i + 1)) ∧
      tape.Extends longer ∧ longer.hi = max tape.hi (i + 2) ∧ longer.Kept rbs after holders := by
  obtain ⟨count, cell⟩ := kept.held.cell member later inside
  rw [nextChunk]
  simp only [cell, bind_eq_bind, bind_some, cellAt]
  by_cases more : i + 1 < tape.hi
  · rw [if_pos more]
    exact ⟨mem, tape, rfl, Tape.Extends.refl tape, by omega, kept⟩
  rw [if_neg more]
  obtain ⟨after, extended, held⟩ := kept.held.extend member (rawData junk mem rbs)
  rw [show tape.hi - 1 = i by omega] at extended
  refine ⟨after, ⟨update tape.addr tape.hi mem.fresh,
    update tape.payload tape.hi (rawData junk mem rbs), tape.hi + 1⟩, ?_,
    ⟨Nat.le_succ _, fun j small => ?_, fun j small => ?_⟩, ?_, held, fun j small => ?_⟩
  · simp only [extended, map_some]
    rw [show i + 1 = tape.hi by omega, update_self]
  · exact update_of_ne small.ne _ _
  · exact update_of_ne small.ne _ _
  · simp only
    omega
  · simp only at small
    by_cases new : j = tape.hi
    · rw [new]
      simp only [update_self]
      rw [rawData, length_map, length_range, cap]
    · simp only [update_of_ne new]
      exact kept.sized j (by omega)

theorem first_chunk (cap : chunkCap rbs = rbs) (mem : Memory) :
    ∃ tape : Tape, tape.hi = 1 ∧ tape.addr 0 = (bytechunkNew junk mem rbs).1 ∧
      tape.Kept rbs (bytechunkNew junk mem rbs).2 [0] := by
  refine ⟨⟨fun _ => (bytechunkNew junk mem rbs).1, fun _ => rawData junk mem rbs, 1⟩, rfl, rfl,
    .inr ⟨0, Chain.alloc mem 0 _⟩, fun _ _ => ?_⟩
  rw [rawData, length_map, length_range, cap]

theorem Tape.Kept.retain (kept : tape.Kept rbs mem holders)
    (member : first ∈ holders) (later : first ≤ i) (inside : i < tape.hi) :
    ∃ after, mem.retain (tape.addr i) = some after ∧ tape.Kept rbs after (i :: holders) := by
  obtain ⟨after, retained, held⟩ := kept.held.retain member later inside
  exact ⟨after, retained, held, kept.sized⟩

theorem Tape.Kept.release (kept : tape.Kept rbs mem (i :: holders)) :
    ∃ after, mem.release (tape.addr i) = some after ∧ tape.Kept rbs after holders := by
  obtain ⟨after, released, held⟩ := kept.held.release
  exact ⟨after, released, held, kept.sized⟩

theorem Tape.Kept.perm {others : List Nat} (kept : tape.Kept rbs mem holders)
    (same : holders.Perm others) : tape.Kept rbs mem others :=
  ⟨kept.held.perm same, kept.sized⟩

theorem update_next_recv_pos (cap : chunkCap rbs = rbs) (positive : 0 < rbs) (fuel n start : Nat)
    (mem : Memory) (s : RecvSocket) (tape : Tape) (fueled : n ≤ fuel)
    (size : s.recvBufferSize = rbs) (buf : s.nextRecvBuf = some (tape.addr (start / rbs)))
    (pos : s.nextRecvPos = start % rbs) (inside : start / rbs < tape.hi)
    (kept : tape.Kept rbs mem (start / rbs :: holders)) :
    ∃ after longer, updateNextRecvPos junk fuel mem s n =
        some (after, { s with
          nextRecvBuf := some (longer.addr ((start + n) / rbs))
          nextRecvPos := (start + n) % rbs }) ∧
      tape.Extends longer ∧ longer.hi = max tape.hi ((start + n) / rbs + 1) ∧
      longer.Kept rbs after ((start + n) / rbs :: holders) := by
  induction fuel generalizing n start mem s tape with
  | zero =>
    obtain rfl : n = 0 := by omega
    refine ⟨mem, tape, ?_, Tape.Extends.refl tape, by simp only [Nat.add_zero]; omega, kept⟩
    rw [updateNextRecvPos, Nat.add_zero, ← buf, ← pos]
  | succ fuel ih =>
    cases n with
    | zero =>
      refine ⟨mem, tape, ?_, Tape.Extends.refl tape, by simp only [Nat.add_zero]; omega, kept⟩
      rw [updateNextRecvPos, Nat.add_zero, ← buf, ← pos]
    | succ n =>
      have below := Nat.mod_lt start positive
      have sized := kept.sized _ inside
      obtain ⟨count, cell⟩ := kept.held.cell mem_cons_self le_rfl inside
      rw [updateNextRecvPos]
      simp only [buf, bind_eq_bind, bind_some, cell, cellAt, sized, pos, size]
      by_cases across : start % rbs + (n + 1) < rbs
      · obtain ⟨place, place'⟩ := place_inside across
        rw [Nat.min_eq_right (by omega), if_neg (by omega), Nat.sub_self, place, place']
        refine ⟨mem, tape, ?_, Tape.Extends.refl tape, by omega, kept⟩
        rw [updateNextRecvPos]
      · have reached : start % rbs + (rbs - start % rbs) = rbs := by omega
        obtain ⟨place, place'⟩ := place_across positive reached
        obtain ⟨grown, longer, made, extends_, longerHi, keptGrown⟩ :=
          next_chunk junk cap kept mem_cons_self le_rfl inside
        obtain ⟨retained, retaining, keptBoth⟩ := keptGrown.retain mem_cons_self
          (Nat.le_succ _) (by omega : start / rbs + 1 < longer.hi)
        obtain ⟨moved, released, keptNext⟩ :=
          (keptBoth.perm (List.Perm.swap _ _ _)).release
        rw [extends_.addr _ inside] at released
        rw [Nat.min_eq_left (by omega), if_pos (by omega)]
        simp only [made, bytechunkRetain, retaining, bytechunkRelease, released,
          bind_some]
        obtain ⟨after, final, ran, extended, finalHi, keptFinal⟩ := ih
          (n + 1 - (rbs - start % rbs)) (start + (rbs - start % rbs)) moved
          { s with nextRecvBuf := some (longer.addr (start / rbs + 1)), nextRecvPos := 0 }
          longer (by omega) size (by rw [place]) place'.symm (by rw [place]; omega)
          (by rw [place]; exact keptNext)
        rw [show start + (rbs - start % rbs) + (n + 1 - (rbs - start % rbs)) = start + (n + 1)
          by omega] at ran finalHi keptFinal
        simp only [size] at ran
        refine ⟨after, final, ran, extends_.trans extended, ?_, keptFinal⟩
        have : start / rbs + 1 ≤ (start + (n + 1)) / rbs := by
          rw [← place]
          exact Nat.div_le_div_right (by omega)
        omega

end Chunks

/-! ## The window offered to the kernel -/

/-- The iovecs show the tape from a position on, each to the end of its chunk. -/
def Window (rbs : Nat) (addr : Nat → Nat) (hi : Nat) : Nat → List Iovec → Prop
  | _, [] => True
  | start, io :: iovecs =>
    io = { chunk := addr (start / rbs), pos := start % rbs, len := rbs - start % rbs } ∧
      start / rbs < hi ∧ Window rbs addr hi (start + (rbs - start % rbs)) iovecs

/-- The space that `prepare_recv` exposes when `start` bytes have been received:
the rest of a chunk, and another chunk if that is not a whole one. -/
def exposed (rbs start : Nat) : Nat :=
  rbs - start % rbs + if start % rbs = 0 then 0 else rbs

def exposedEnd (rbs start : Nat) : Nat := start / rbs + if start % rbs = 0 then 1 else 2

section Window

variable (junk : Nat → Nat → Byte) {tape : Tape} {mem : Memory} {holders : List Nat}

structure RecvAt (rbs : Nat) (tape : Tape) (s : RecvSocket) (start : Nat) (holders : List Nat) :
    Prop where
  size : s.recvBufferSize = rbs
  pos : s.nextRecvPos = start % rbs
  buf : (s.nextRecvBuf = none ∧ tape.hi = 0 ∧ start = 0 ∧ holders = []) ∨
    (s.nextRecvBuf = some (tape.addr (start / rbs)) ∧ start / rbs < tape.hi ∧
      start / rbs ∈ holders)
  hi : tape.hi ≤ exposedEnd rbs start

theorem open_recv_buf (cap : chunkCap rbs = rbs) {s : RecvSocket}
    (recv : RecvAt rbs tape s start (link tape.hi (start / rbs) ++ holders))
    (kept : tape.Kept rbs mem (link tape.hi (start / rbs) ++ holders)) :
    ∃ after longer, openRecvBuf junk mem s =
        (after, { s with nextRecvBuf := some (longer.addr (start / rbs)) },
          longer.addr (start / rbs)) ∧
      tape.Extends longer ∧ start / rbs < longer.hi ∧ longer.hi ≤ exposedEnd rbs start ∧
      longer.Kept rbs after (start / rbs :: holders) := by
  rw [openRecvBuf]
  rcases recv.buf with ⟨buf, hi, rfl, none⟩ | ⟨buf, inside, -⟩
  · obtain ⟨longer, one, place, held⟩ := first_chunk junk cap mem
    obtain rfl := (append_eq_nil_iff.mp none).2
    have pos := recv.pos
    rw [Nat.zero_mod] at pos
    rw [buf, Nat.zero_div]
    simp only
    rw [recv.size, ← place]
    refine ⟨_, longer, ?_, ⟨by omega, fun i small => by omega, fun i small => by omega⟩, by omega,
      ?_, held⟩
    · rw [← pos]
    · rw [exposedEnd, Nat.zero_mod, Nat.zero_div, if_pos rfl]
      omega
  · rw [link_of_lt inside] at kept
    rw [buf]
    simp only
    refine ⟨mem, tape, ?_, Tape.Extends.refl tape, inside, recv.hi, kept⟩
    rw [← buf]

theorem prepare_recv (cap : chunkCap rbs = rbs) (positive : 0 < rbs) {s : RecvSocket}
    (recv : RecvAt rbs tape s start (link tape.hi (start / rbs) ++ holders))
    (kept : tape.Kept rbs mem (link tape.hi (start / rbs) ++ holders)) :
    ∃ after longer iovecs, prepareRecv junk mem s =
        some (after, { s with nextRecvBuf := some (longer.addr (start / rbs)) }, iovecs) ∧
      tape.Extends longer ∧ longer.hi = exposedEnd rbs start ∧
      longer.Kept rbs after (start / rbs :: holders) ∧
      Window rbs longer.addr longer.hi start iovecs ∧
      (iovecs.map Iovec.len).sum = exposed rbs start := by
  obtain ⟨opened, first, open_, extends_, inside, hi, keptFirst⟩ := open_recv_buf junk cap recv kept
  have below := Nat.mod_lt start positive
  obtain ⟨count, cell⟩ := keptFirst.held.cell mem_cons_self le_rfl inside
  have sized := keptFirst.sized _ inside
  rw [prepareRecv, open_]
  simp only [recv.size, recv.pos]
  rw [prepareLoop]
  simp only [cell, bind_eq_bind, bind_some, cellAt, sized]
  by_cases whole : start % rbs = 0
  · rw [if_neg (by omega)]
    rw [exposedEnd, if_pos whole] at hi
    refine ⟨opened, first, _, rfl, extends_, ?_, keptFirst, ⟨rfl, inside, trivial⟩, ?_⟩
    · rw [exposedEnd, if_pos whole]
      omega
    · rw [exposed, if_pos whole]
      simp
  · rw [if_pos (by omega)]
    rw [exposedEnd, if_neg whole] at hi
    obtain ⟨grown, second, made, extends_', secondHi, keptSecond⟩ :=
      next_chunk junk cap keptFirst mem_cons_self le_rfl inside
    have next : start / rbs + 1 < second.hi := by omega
    obtain ⟨count', cell'⟩ := keptSecond.held.cell mem_cons_self (Nat.le_succ _) next
    have sized' := keptSecond.sized _ next
    obtain ⟨place, place'⟩ := place_across positive
      (show start % rbs + (rbs - start % rbs) = rbs by omega)
    simp only [made, bind_some]
    rw [prepareLoop]
    simp only [cell', bind_eq_bind, bind_some, cellAt, sized', Nat.sub_zero]
    rw [if_neg (Nat.lt_irrefl _)]
    refine ⟨grown, second,
      [{ chunk := first.addr (start / rbs), pos := start % rbs, len := rbs - start % rbs },
        { chunk := second.addr (start / rbs + 1), pos := 0, len := rbs }],
      ?_, extends_.trans extends_', ?_, keptSecond, ⟨?_, by omega, ?_⟩, ?_⟩
    · simp only [bind_some, map_some]
      rw [extends_'.addr _ inside]
    · rw [exposedEnd, if_neg whole]
      omega
    · rw [extends_'.addr _ inside]
    · rw [Window, place, place', Nat.sub_zero]
      exact ⟨rfl, next, trivial⟩
    · rw [exposed, if_neg whole]
      simp

def Tape.write (tape : Tape) (i : Nat) (data : List Byte) : Tape :=
  { tape with payload := update tape.payload i data }

theorem byte_write {pos : Nat} {v : List Byte} (inside : pos + v.length ≤ rbs)
    (sized : (tape.payload i).length = rbs) (p : Nat) :
    (tape.write i ((tape.payload i).take pos ++ v ++
        (tape.payload i).drop (pos + v.length))).byte rbs p =
      if p / rbs = i ∧ pos ≤ p % rbs ∧ p % rbs < pos + v.length then v[p % rbs - pos]?
      else tape.byte rbs p := by
  rw [Tape.byte, Tape.write]
  by_cases here : p / rbs = i
  · rw [here]
    simp only [update_self]
    have start : ((tape.payload i).take pos).length = pos := by
      rw [length_take]
      omega
    by_cases before : p % rbs < pos
    · rw [if_neg (by omega), append_assoc, getElem?_append_left (by omega),
        getElem?_take_of_lt before, Tape.byte, here]
    · rw [append_assoc, getElem?_append_right (by omega), start]
      by_cases within : p % rbs < pos + v.length
      · rw [if_pos ⟨trivial, by omega, within⟩, getElem?_append_left (by omega)]
      · rw [if_neg (by omega), getElem?_append_right (by omega), getElem?_drop,
          Tape.byte, here]
        congr 1
        omega
  · rw [if_neg (fun both => here both.1)]
    simp only [update_of_ne here]
    rfl

theorem Tape.Stores.write {v : List Byte}
    (stores : tape.Stores rbs stream start) (inside : stream.length / rbs < tape.hi)
    (sized : (tape.payload (stream.length / rbs)).length = rbs)
    (fits : stream.length % rbs + v.length ≤ rbs) :
    (tape.write (stream.length / rbs) ((tape.payload (stream.length / rbs)).take
        (stream.length % rbs) ++ v ++ (tape.payload (stream.length / rbs)).drop
        (stream.length % rbs + v.length))).Stores rbs (stream ++ v) start := by
  have split := Nat.div_add_mod stream.length rbs
  refine ⟨?_, fun p lower upper => ?_⟩
  · rw [length_append]
    have : (stream.length / rbs + 1) * rbs ≤ tape.hi * rbs := Nat.mul_le_mul_right _ inside
    rw [Nat.add_mul, Nat.one_mul, Nat.mul_comm] at this
    exact Nat.le_trans (by omega) this
  · rw [byte_write fits sized]
    rw [length_append] at upper
    have place := Nat.div_add_mod p rbs
    by_cases old : p < stream.length
    · rw [if_neg ?_, getElem?_append_left old]
      · exact stores.same p lower old
      · rintro ⟨same, above, -⟩
        rw [same] at place
        omega
    · obtain ⟨k, rfl⟩ := Nat.exists_eq_add_of_le (not_lt.mp old)
      obtain ⟨chunk, pos⟩ := place_inside (show stream.length % rbs + k < rbs by omega)
      rw [chunk, pos, if_pos ⟨rfl, by omega, by omega⟩, getElem?_append_right (by omega)]
      congr 1
      omega

theorem Tape.Kept.write (kept : tape.Kept rbs mem holders) (member : first ∈ holders)
    (later : first ≤ i) (inside : i < tape.hi) (data : List Byte) (sized : data.length = rbs)
    {cell : Cell (List Byte)} (here : mem.cells (tape.addr i) = some cell) :
    (tape.write i data).Kept rbs
      (mem.set (tape.addr i) (some { cell with payload := data })) holders := by
  refine ⟨kept.held.store member later inside data here, fun j small => ?_⟩
  by_cases this : j = i
  · rw [this, Tape.write]
    simp only [update_self, sized]
  · rw [Tape.write]
    simp only [update_of_ne this]
    exact kept.sized j small

theorem readv_window (positive : 0 < rbs) (iovecs : List Iovec) (bytes stream : List Byte)
    (mem : Memory) (tape : Tape) (window : Window rbs tape.addr tape.hi stream.length iovecs)
    (room : bytes.length ≤ (iovecs.map Iovec.len).sum) (kept : tape.Kept rbs mem holders)
    (member : first ∈ holders) (later : first ≤ stream.length / rbs)
    (stores : tape.Stores rbs stream start) :
    ∃ after payload, readv mem iovecs bytes = some after ∧
      Tape.Kept rbs { tape with payload := payload } after holders ∧
      Tape.Stores rbs { tape with payload := payload } (stream ++ bytes) start := by
  induction iovecs generalizing bytes stream mem tape with
  | nil =>
    obtain rfl : bytes = [] := length_eq_zero_iff.mp (Nat.le_zero.mp room)
    exact ⟨mem, tape.payload, by simp [readv], kept, by rwa [append_nil]⟩
  | cons io iovecs ih =>
    cases bytes with
    | nil => exact ⟨mem, tape.payload, by simp [readv], kept, by rwa [append_nil]⟩
    | cons byte rest =>
      generalize whole : byte :: rest = bytes at room
      obtain ⟨rfl, inside, onward⟩ := window
      have below := Nat.mod_lt stream.length positive
      have sized := kept.sized _ inside
      obtain ⟨count, cell⟩ := kept.held.cell member later inside
      generalize taken : bytes.take (rbs - stream.length % rbs) = v
      have short : v.length ≤ rbs - stream.length % rbs := by
        rw [← taken, length_take]
        omega
      generalize new : (tape.payload (stream.length / rbs)).take (stream.length % rbs) ++ v ++
        (tape.payload (stream.length / rbs)).drop (stream.length % rbs + v.length) = data
      have spliced : splice (tape.payload (stream.length / rbs)) (stream.length % rbs) v =
          some data := by
        rw [splice, if_pos (by omega), new]
      have written := stores.write inside sized (v := v) (by omega)
      rw [new] at written
      have size : data.length = rbs := by
        rw [← new]
        simp only [length_append, length_take, length_drop]
        omega
      have keptNew := kept.write member later inside data size cell
      have step : readv mem (⟨tape.addr (stream.length / rbs), stream.length % rbs,
          rbs - stream.length % rbs⟩ :: iovecs) bytes =
          readv (mem.set (tape.addr (stream.length / rbs)) (some
            { cellAt tape.addr tape.payload tape.hi (stream.length / rbs) count with
              payload := data })) iovecs (bytes.drop (rbs - stream.length % rbs)) := by
        rw [← whole, readv]
        · simp only [cell, bind_eq_bind, bind_some, whole, taken]
          rw [cellAt] at *
          simp only [spliced, bind_some]
        · exact cons_ne_nil _ _
      rw [step]
      by_cases ended : bytes.length ≤ rbs - stream.length % rbs
      · rw [take_of_length_le ended] at taken
        rw [drop_of_length_le ended, taken]
        exact ⟨_, _, by rw [readv], keptNew, written⟩
      have full : v.length = rbs - stream.length % rbs := by
        rw [← taken, length_take]
        omega
      have longer : (stream ++ v).length = stream.length + (rbs - stream.length % rbs) := by
        rw [length_append, full]
      rw [map_cons, sum_cons] at room
      simp only at room
      obtain ⟨after, payload, ran, keptAll, stored⟩ := ih
        (bytes.drop (rbs - stream.length % rbs)) (stream ++ v) _
        (tape.write (stream.length / rbs) data) (longer ▸ onward)
        (by rw [length_drop]; omega) keptNew
        (later.trans (Nat.div_le_div_right (by omega))) written
      rw [append_assoc, ← taken, take_append_drop] at stored
      exact ⟨after, payload, ran, keptAll, stored⟩

end Window

end Chuck.ReceiveTape
