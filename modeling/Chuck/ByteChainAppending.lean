import Chuck.ByteChainWriting

/-!
# Appending to a chain of chunks

A buffer appends at a position of its chain, whoever holds the chunks. What has been
stored before that position stays, and what is appended follows it: over the bytes
behind the position, and then in new chunks.
-/

namespace Chuck.ByteChainAppending

open Support.SharedChain ByteChunkModel ByteChainReading ByteChainWriting Function List

def storedFrom (payload : Nat → List Byte) (i hi pos : Nat) : List Byte :=
  bytesFrom payload i (hi - 1) ++ (payload (hi - 1)).take pos

structure AtTail (addr : Nat → Nat) (payload : Nat → List Byte) (mem : Memory) (lo hi : Nat)
    (holders : List Nat) (b : ByteBuffer) : Prop where
  chain : Chain addr payload mem lo hi holders
  solid : ∀ i, lo ≤ i → i < hi → 0 < (payload i).length
  tail : b.tail = some (addr (hi - 1))
  room : b.appendPos ≤ (payload (hi - 1)).length

/-- A chain that has grown: the old chunks keep their places and sizes, and
`added` follows what they stored. -/
structure Grown (addr : Nat → Nat) (payload : Nat → List Byte) (lo hi pos : Nat)
    (addr' : Nat → Nat) (payload' : Nat → List Byte) (hi' pos' : Nat) (added : List Byte) :
    Prop where
  longer : hi ≤ hi'
  places : ∀ i, i < hi → addr' i = addr i
  sizes : ∀ i, i < hi → (payload' i).length = (payload i).length
  stored : ∀ i, lo ≤ i → i < hi →
    storedFrom payload' i hi' pos' = storedFrom payload i hi pos ++ added

structure Appended (addr : Nat → Nat) (payload : Nat → List Byte) (mem : Memory) (lo hi : Nat)
    (holders : List Nat) (b : ByteBuffer) (v : List Byte) (addr' : Nat → Nat)
    (payload' : Nat → List Byte) (after : Memory) (hi' : Nat) (grown : ByteBuffer) : Prop where
  buffer : grown = { b with
    tail := grown.tail, appendPos := grown.appendPos
    datasize := (b.datasize + v.length) % 2 ^ 32 }
  tail : AtTail addr' payload' after lo hi' holders grown
  chain : Grown addr payload lo hi b.appendPos addr' payload' hi' grown.appendPos v
  spares : Spares addr lo hi mem after
  fresh : ∀ i, hi ≤ i → i < hi' → mem.fresh ≤ addr' i

theorem chunk_cap_pos (len : Nat) : 0 < chunkCap len := by
  unfold chunkCap chunkSize chunkHeader minBufLen
  split_ifs <;> omega

/-! ## Anywhere in a chain -/

structure Strand where
  addr : Nat → Nat
  payload : Nat → List Byte
  mem : Memory
  hi : Nat

def Strand.bytes (s : Strand) (lo : Nat) : List Byte := bytesFrom s.payload lo s.hi

def Strand.offset (s : Strand) (lo j pos : Nat) : Nat := (bytesFrom s.payload lo j).length + pos

structure Cursor (lo : Nat) (holders : List Nat) (s : Strand) (b : ByteBuffer) (j : Nat) :
    Prop where
  chain : Chain s.addr s.payload s.mem lo s.hi holders
  solid : ∀ i, lo ≤ i → i < s.hi → 0 < (s.payload i).length
  lower : lo ≤ j
  upper : j < s.hi
  tail : b.tail = some (s.addr j)
  room : b.appendPos ≤ (s.payload j).length

/-- The bytes `v` have been stored from the offset `at_` on. -/
structure Placed (lo : Nat) (holders : List Nat) (s : Strand) (b : ByteBuffer) (at_ : Nat)
    (v : List Byte) (t : Strand) (grown : ByteBuffer) (k : Nat) : Prop where
  buffer : grown = { b with
    tail := grown.tail, appendPos := grown.appendPos
    datasize := (b.datasize + v.length) % 2 ^ 32 }
  cursor : Cursor lo holders t grown k
  place : t.offset lo k grown.appendPos = at_ + v.length
  longer : s.hi ≤ t.hi
  places : ∀ i, i < s.hi → t.addr i = s.addr i
  sizes : ∀ i, i < s.hi → (t.payload i).length = (s.payload i).length
  front : (t.bytes lo).take (at_ + v.length) = (s.bytes lo).take at_ ++ v
  behind : (s.bytes lo).drop (at_ + v.length) <+: (t.bytes lo).drop (at_ + v.length)
  spares : Spares s.addr lo s.hi s.mem t.mem
  fresh : ∀ i, s.hi ≤ i → i < t.hi → s.mem.fresh ≤ t.addr i

section Placing

variable {lo : Nat} {holders : List Nat} {s t u : Strand} {b b' b'' : ByteBuffer} {j k l at_ : Nat}
  {v w : List Byte}

theorem Cursor.offset_le (cursor : Cursor lo holders s b j) :
    s.offset lo j b.appendPos ≤ (s.bytes lo).length := by
  have room := cursor.room
  rw [Strand.offset, Strand.bytes, bytes_from_append s.payload cursor.lower cursor.upper.le,
    bytes_from_cons s.payload cursor.upper]
  simp only [length_append]
  omega

/-- The position stays, in the same chunk or at the start of the next one. -/
theorem Cursor.still (cursor : Cursor lo holders s b' k) (small : b.datasize < 2 ^ 32)
    (same : b' = { b with tail := b'.tail, appendPos := b'.appendPos }) :
    Placed lo holders s b (s.offset lo k b'.appendPos) [] s b' k := by
  refine ⟨?_, cursor, rfl, le_rfl, fun _ _ => rfl, fun _ _ => rfl, (append_nil _).symm,
    prefix_rfl, Spares.refl, fun i low high => absurd high (not_lt.mpr low)⟩
  rw [length_nil, Nat.add_zero, Nat.mod_eq_of_lt small]
  exact same

theorem Placed.trans (one : Placed lo holders s b at_ v t b' k)
    (two : Placed lo holders t b' (at_ + v.length) w u b'' l) :
    Placed lo holders s b at_ (v ++ w) u b'' l := by
  have longer := one.longer
  have total : at_ + (v ++ w).length = at_ + v.length + w.length := by
    rw [length_append, Nat.add_assoc]
  refine ⟨?_, two.cursor, ?_, longer.trans two.longer, fun i upper => ?_, fun i upper => ?_,
    ?_, ?_, one.spares.trans two.spares fun i lower upper old => ?_, fun i lower upper => ?_⟩
  · rw [two.buffer, one.buffer]
    simp only [ByteBuffer.mk.injEq, true_and, and_true, length_append]
    omega
  · rw [two.place, total]
  · rw [two.places i (by omega), one.places i upper]
  · rw [two.sizes i (by omega), one.sizes i upper]
  · rw [total, two.front, one.front, append_assoc]
  · rw [total, ← drop_drop]
    have first := one.behind.drop w.length
    rw [drop_drop (l := t.bytes lo)] at first
    exact first.trans two.behind
  · have small : i < s.hi := by
      by_contra large
      have := one.fresh i (by omega) upper
      omega
    exact ⟨i, lower, small, (one.places i small).symm⟩
  · by_cases old : i < t.hi
    · rw [two.places i old]
      exact one.fresh i lower old
    · exact one.spares.1.trans (two.fresh i (by omega) upper)

end Placing

section Appending

variable (junk : Nat → Nat → Byte) {lo : Nat} {holders : List Nat}

theorem length_raw_data {mem : Memory} (size : Nat) :
    (rawData junk mem size).length = chunkCap size := by
  simp [rawData]

variable {s : Strand} {b : ByteBuffer} {j : Nat}

/-- A full chunk is left for the next one; a new one is made behind the last. -/
theorem expand_tail (cursor : Cursor lo holders s b j) (small : b.datasize < 2 ^ 32) (size : Nat) :
    ∃ t grown k, expandTail junk s.mem b size = some (t.mem, grown) ∧
      Placed lo holders s b (s.offset lo j b.appendPos) [] t grown k ∧
      grown.appendPos < (t.payload k).length ∧
      (s.offset lo j b.appendPos < (s.bytes lo).length → t.hi = s.hi) ∧
      (j + 1 = s.hi → k + 1 = t.hi) := by
  obtain ⟨lower, upper⟩ := And.intro cursor.lower cursor.upper
  obtain ⟨count, cell⟩ := cell_at cursor.chain.segment lower upper
  rw [expandTail]
  simp only [cursor.tail, Option.bind_eq_bind, Option.bind_some, cell]
  by_cases full : b.appendPos ≥ (s.payload j).length
  · have end_ : s.offset lo j b.appendPos = (bytesFrom s.payload lo (j + 1)).length := by
      have room := cursor.room
      rw [Strand.offset, bytes_from_append s.payload lower (Nat.le_succ j), bytes_from_single,
        length_append]
      omega
    rw [if_pos full]
    by_cases more : j + 1 < s.hi
    · have there := cursor.solid (j + 1) (by omega) more
      have moved : Cursor lo holders s { b with tail := some (s.addr (j + 1)), appendPos := 0 }
          (j + 1) :=
        ⟨cursor.chain, cursor.solid, Nat.le_succ_of_le lower, more, rfl, Nat.zero_le _⟩
      have still := moved.still (b := b) small rfl
      rw [Strand.offset, Nat.add_zero, ← end_] at still
      rw [link_inside s.addr more]
      exact ⟨s, _, j + 1, rfl, still, there, fun _ => rfl, fun last => absurd last (by omega)⟩
    · have last : j + 1 = s.hi := by omega
      obtain ⟨after, extended, -, spares, longer⟩ := cursor.chain.extend (rawData junk s.mem size)
      rw [← last, Nat.add_sub_cancel] at extended
      have raw : (rawData junk s.mem size).length = chunkCap size := length_raw_data junk size
      have solid := chunk_cap_pos size
      generalize rawData junk s.mem size = data at extended longer raw
      have old (i : Nat) (inside : i < s.hi) : update s.payload s.hi data i = s.payload i :=
        update_of_ne inside.ne _ _
      have bytes : bytesFrom (update s.payload s.hi data) lo (s.hi + 1) =
          s.bytes lo ++ data := by
        rw [bytes_from_append _ (by omega) (Nat.le_succ _), bytes_from_single,
          update_self, bytes_from_congr _ fun i _ inside => old i inside]
        rfl
      have all : (s.bytes lo).length = s.offset lo j b.appendPos := by
        rw [end_, last]
        rfl
      rw [linkTo, if_neg more]
      refine ⟨⟨update s.addr s.hi s.mem.fresh, update s.payload s.hi data, after,
        s.hi + 1⟩, { b with tail := some s.mem.fresh, appendPos := 0 }, s.hi, ?_,
        ⟨?_, ⟨longer, fun i low (high : i < s.hi + 1) => ?_, by omega, Nat.lt_succ_self _,
          ?_, Nat.zero_le _⟩, ?_, Nat.le_succ _, fun i inside => update_of_ne inside.ne _ _,
          fun i inside => congrArg List.length (old i inside), ?_, ?_, spares,
          fun i low (high : i < s.hi + 1) => ?_⟩,
        ?_, fun short => absurd short (by omega), fun _ => rfl⟩
      · simp only [extended, Option.map_some]
      · rw [length_nil, Nat.add_zero, Nat.mod_eq_of_lt small]
      · by_cases this : i = s.hi
        · simp only [this, update_self]
          omega
        · dsimp only
          rw [old i (by omega)]
          exact cursor.solid i low (by omega)
      · simp only [update_self]
      · rw [end_, last]
        exact congrArg List.length (bytes_from_congr _ fun i _ inside => old i inside)
      · rw [Strand.bytes, bytes, length_nil, Nat.add_zero, append_nil, ← all,
          take_left, take_length]
      · rw [length_nil, Nat.add_zero, ← all, drop_length]
        exact nil_prefix
      · obtain rfl : i = s.hi := by omega
        simp only [update_self, Nat.le_refl]
      · simp only [update_self]
        omega
  · rw [if_neg full]
    exact ⟨s, b, j, rfl, cursor.still small rfl, by omega, fun _ => rfl, id⟩

theorem store_tail (cursor : Cursor lo holders s b j) {v : List Byte}
    (fits : b.appendPos + v.length ≤ (s.payload j).length) {chunk : Cell (List Byte)}
    (cell : s.mem.cells (s.addr j) = some chunk) :
    ∃ payload, splice chunk.payload b.appendPos v = some (overwrite (s.payload j) b.appendPos v) ∧
      Placed lo holders s b (s.offset lo j b.appendPos) v
        ⟨s.addr, payload, s.mem.set (s.addr j) (some
          { chunk with payload := overwrite (s.payload j) b.appendPos v }), s.hi⟩
        { b with
          appendPos := b.appendPos + v.length
          datasize := (b.datasize + v.length) % 2 ^ 32 } j := by
  have known : chunk.payload = s.payload j :=
    congrArg Cell.payload (Option.some.inj (cell.symm.trans
      (cursor.chain.segment.cell j cursor.lower cursor.upper)))
  have stored := store_chunk cursor.chain cursor.lower cursor.upper fits cell
  generalize update s.payload j (overwrite (s.payload j) b.appendPos v) = payload at stored
  have upper := cursor.upper.le
  have start : bytesFrom payload lo j = bytesFrom s.payload lo j :=
    bytes_from_congr _ fun i _ before => stored.earlier i before
  have bytes : bytesFrom payload lo s.hi =
      overwrite (s.bytes lo) (s.offset lo j b.appendPos) v := by
    rw [bytes_from_append payload cursor.lower upper, start, stored.bytes, ← overwrite_behind,
      ← bytes_from_append s.payload cursor.lower upper]
    rfl
  have long := cursor.offset_le
  refine ⟨payload, known ▸ splice_overwrite (known ▸ fits), rfl,
    ⟨stored.chain, fun i low high => ?_, cursor.lower, cursor.upper, cursor.tail, ?_⟩, ?_,
    le_rfl, fun _ _ => rfl, fun i _ => stored.sizes i, ?_, ?_, stored.spares,
    fun i low high => absurd high (not_lt.mpr low)⟩
  · rw [stored.sizes]
    exact cursor.solid i low high
  · rw [stored.sizes]
    exact fits
  · rw [Strand.offset, Strand.offset, start, Nat.add_assoc]
  · rw [Strand.bytes, bytes, overwrite, take_left' (by
      rw [length_append, length_take, Nat.min_eq_left long])]
  · change _ <+: (bytesFrom payload lo s.hi).drop _
    rw [bytes, overwrite, drop_left' (by
      rw [length_append, length_take, Nat.min_eq_left long])]

/-- What is appended lies in the chain as far as that goes. -/
theorem append_anywhere (fuel : Nat) (v : List Byte) (fueled : v.length ≤ fuel) (s : Strand)
    (b : ByteBuffer) (j : Nat) (cursor : Cursor lo holders s b j) (small : b.datasize < 2 ^ 32) :
    ∃ t grown k, appendLoop junk fuel s.mem b v = some (t.mem, grown) ∧
      Placed lo holders s b (s.offset lo j b.appendPos) v t grown k ∧
      (s.offset lo j b.appendPos + v.length ≤ (s.bytes lo).length → t.hi = s.hi) ∧
      (j + 1 = s.hi → k + 1 = t.hi) := by
  induction fuel generalizing v s b j with
  | zero =>
    obtain rfl : v = [] := length_eq_zero_iff.mp (by omega)
    exact ⟨s, b, j, by simp [appendLoop], cursor.still small rfl, fun _ => rfl, id⟩
  | succ fuel ih =>
    cases v with
    | nil => exact ⟨s, b, j, by simp [appendLoop], cursor.still small rfl, fun _ => rfl, id⟩
    | cons byte rest =>
      generalize bytes : byte :: rest = v at fueled
      have nonzero : 0 < v.length := by
        rw [← bytes]
        exact Nat.succ_pos _
      obtain ⟨t, b₁, k, expanded, first, room, within, last⟩ :=
        expand_tail junk cursor small v.length
      obtain ⟨count, cell⟩ :=
        cell_at first.cursor.chain.segment first.cursor.lower first.cursor.upper
      generalize copied : min ((t.payload k).length - b₁.appendPos) v.length = size
      have taken : (v.take size).length = size := by
        rw [length_take]
        omega
      obtain ⟨payload, spliced, second⟩ :=
        store_tail first.cursor (v := v.take size) (by omega) cell
      rw [first.place, length_nil, Nat.add_zero] at second
      obtain ⟨u, grown, l, ran, third, inside, ends⟩ := ih (v.drop size)
        (by rw [length_drop]; omega) _ _ k second.cursor (Nat.mod_lt _ (Nat.two_pow_pos 32))
      rw [second.place] at third inside
      have stored := first.trans second
      have whole := stored.trans third
      rw [nil_append, take_append_drop] at whole
      refine ⟨u, grown, l, ?_, whole, fun enough => ?_, fun final => ends (last final)⟩
      · simp only [first.cursor.tail, taken] at ran
        rw [appendLoop]
        · simp only [expanded, Option.bind_eq_bind, Option.bind_some, first.cursor.tail, cell,
            copied, spliced, ran]
        · rw [← bytes]
          exact cons_ne_nil _ _
      · have same := within (by omega)
        have size_ : (bytesFrom payload lo t.hi).length = (s.bytes lo).length := by
          rw [same]
          exact length_bytes_same lo fun i _ high => stored.sizes i high
        refine (inside ?_).trans same
        rw [Strand.bytes, size_, taken, length_drop]
        omega

theorem stored_within (payload : Nat → List Byte) {i hi : Nat} (low : lo ≤ i) (high : i < hi)
    (pos : Nat) : storedFrom payload i hi pos =
      ((bytesFrom payload lo hi).take ((bytesFrom payload lo (hi - 1)).length + pos)).drop
        (bytesFrom payload lo i).length := by
  have last := bytes_from_single payload (hi - 1)
  rw [show hi - 1 + 1 = hi by omega] at last
  rw [bytes_from_append payload (by omega) (Nat.sub_le hi 1), last,
    take_length_add_append, bytes_from_append payload low (show i ≤ hi - 1 by omega),
    append_assoc, drop_left, storedFrom]

theorem append_loop (fuel : Nat) (v : List Byte) (fueled : v.length ≤ fuel)
    (addr : Nat → Nat) (payload : Nat → List Byte) (mem : Memory) (hi : Nat) (b : ByteBuffer)
    (tail : AtTail addr payload mem lo hi holders b) (counted : b.datasize < 2 ^ 32) :
    ∃ addr' payload' hi' after grown, appendLoop junk fuel mem b v = some (after, grown) ∧
      Appended addr payload mem lo hi holders b v addr' payload' after hi' grown := by
  have nonempty := tail.chain.nonempty
  have final : hi - 1 + 1 = hi := by omega
  have cursor : Cursor lo holders ⟨addr, payload, mem, hi⟩ b (hi - 1) :=
    { tail with lower := by omega, upper := show hi - 1 < hi by omega }
  obtain ⟨t, grown, k, ran, placed, -, last⟩ :=
    append_anywhere junk fuel v fueled ⟨addr, payload, mem, hi⟩ b (hi - 1) cursor counted
  obtain rfl : k = t.hi - 1 := by
    have := last final
    omega
  refine ⟨t.addr, t.payload, t.hi, t.mem, grown, ran, placed.buffer,
    { placed.cursor with },
    { placed with stored := fun i low high => ?_ }, placed.spares, placed.fresh⟩
  have before : (bytesFrom t.payload lo i).length = (bytesFrom payload lo i).length :=
    length_bytes_same lo fun k _ small => placed.sizes k (Nat.lt_trans small high)
  have short : (bytesFrom payload lo i).length ≤
      ((bytesFrom payload lo hi).take
        ((bytesFrom payload lo (hi - 1)).length + b.appendPos)).length := by
    have within := cursor.offset_le
    have more := congrArg List.length (bytes_from_append payload low (show i ≤ hi - 1 by omega))
    simp only [Strand.offset, Strand.bytes, length_append] at within more
    rw [length_take]
    omega
  have place := placed.place
  have front := placed.front
  simp only [Strand.offset, Strand.bytes] at place front
  rw [stored_within t.payload low (high.trans_le placed.longer), place, front, before,
    drop_append_of_le_length short, stored_within payload low high]

end Appending

end Chuck.ByteChainAppending
