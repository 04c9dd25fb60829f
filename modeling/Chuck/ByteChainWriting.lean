import Chuck.ByteChainReading

/-!
# Writing into a chain of chunks

`chk_bytechunk_write` replaces bytes in place, from a position of a chunk on and
across the chunks that follow. The chunks keep their places and their sizes, so
every other position of the chain stays where it is.
-/

namespace Chuck.ByteChainWriting

open Support.SharedChain ByteChunkModel ByteChainReading Function List

variable {v data : List Byte} {pos : Nat} {payload : Nat → List Byte}

def overwrite (data : List Byte) (pos : Nat) (v : List Byte) : List Byte :=
  data.take pos ++ v ++ data.drop (pos + v.length)

section Lists

theorem splice_overwrite (inside : pos + v.length ≤ data.length) :
    splice data pos v = some (overwrite data pos v) :=
  if_pos inside

theorem overwrite_nil (data : List Byte) (pos : Nat) : overwrite data pos [] = data := by
  simp [overwrite]

theorem length_overwrite (inside : pos + v.length ≤ data.length) :
    (overwrite data pos v).length = data.length := by
  simp only [overwrite, length_append, length_take, length_drop]
  omega

theorem overwrite_start (old rest v : List Byte) (same : old.length = v.length) :
    overwrite (old ++ rest) 0 v = v ++ rest := by
  simp [overwrite, ← same]

theorem take_overwrite {size : Nat} (inside : pos + v.length ≤ size) :
    (overwrite data pos v).take size = overwrite (data.take size) pos v := by
  have first : min pos size = pos := by omega
  by_cases long : pos ≤ data.length
  · have start : (data.take pos ++ v).length = pos + v.length := by
      rw [length_append, length_take, Nat.min_eq_left long]
    rw [overwrite, overwrite, take_append, start, take_of_length_le (by omega),
      take_take, first, drop_take]
  · have start : data.take pos = data := take_of_length_le (by omega)
    have cut : data.take size = data := take_of_length_le (by omega)
    have none : data.drop (pos + v.length) = [] := drop_of_length_le (by omega)
    rw [overwrite, overwrite, cut, start, none, append_nil,
      take_of_length_le (by rw [length_append]; omega)]

theorem drop_overwrite {size : Nat} (before : size ≤ pos) (inside : pos ≤ data.length) :
    (overwrite data pos v).drop size = overwrite (data.drop size) (pos - size) v := by
  have start : size ≤ (data.take pos).length := by
    rw [length_take]
    omega
  rw [overwrite, overwrite, append_assoc, drop_append_of_le_length start,
    drop_take, drop_drop, ← append_assoc]
  congr 2
  omega

theorem overwrite_behind (first second v : List Byte) (pos : Nat) :
    overwrite (first ++ second) (first.length + pos) v = first ++ overwrite second pos v := by
  rw [overwrite, overwrite, take_length_add_append, Nat.add_assoc,
    drop_length_add_append]
  simp

theorem overwrite_before {first second : List Byte} (inside : pos + v.length ≤ first.length) :
    overwrite (first ++ second) pos v = overwrite first pos v ++ second := by
  rw [overwrite, overwrite, take_append_of_le_length (by omega),
    drop_append_of_le_length inside]
  simp only [append_assoc]

theorem overwrite_across {first second : List Byte} (start : pos ≤ first.length)
    (across : first.length ≤ pos + v.length) :
    overwrite (first ++ second) pos v =
      overwrite first pos (v.take (first.length - pos)) ++
        overwrite second 0 (v.drop (first.length - pos)) := by
  have taken : (v.take (first.length - pos)).length = first.length - pos := by
    rw [length_take]
    omega
  have full : pos + (first.length - pos) = first.length := by omega
  rw [overwrite, overwrite, overwrite, taken, full, drop_length, append_nil,
    take_append_of_le_length start, take_zero, nil_append, Nat.zero_add,
    length_drop]
  have rest : (first ++ second).drop (pos + v.length) =
      second.drop (v.length - (first.length - pos)) := by
    rw [drop_append, drop_of_length_le across, nil_append]
    congr 1
    omega
  rw [rest]
  generalize second.drop (v.length - (first.length - pos)) = tail
  conv_lhs => rw [← take_append_drop (first.length - pos) v]
  simp only [append_assoc]

end Lists

/-- The chain after a write at position `pos` behind chunk `i`. -/
structure Overwritten (addr : Nat → Nat) (payload : Nat → List Byte) (mem : Memory)
    (lo hi : Nat) (holders : List Nat) (i pos : Nat) (v : List Byte)
    (payload' : Nat → List Byte) (after : Memory) : Prop where
  chain : Chain addr payload' after lo hi holders
  spares : Spares addr lo hi mem after
  sizes : ∀ k, (payload' k).length = (payload k).length
  earlier : ∀ k, k < i → payload' k = payload k
  bytes : bytesFrom payload' i hi = overwrite (bytesFrom payload i hi) pos v

section Chains

variable {addr : Nat → Nat} {lo hi : Nat} {holders : List Nat}

theorem length_bytes_same {payload' : Nat → List Byte} (lo : Nat) {hi : Nat}
    (sizes : ∀ k, lo ≤ k → k < hi → (payload' k).length = (payload k).length) :
    (bytesFrom payload' lo hi).length = (bytesFrom payload lo hi).length := by
  rw [bytesFrom, bytesFrom, length_flatMap, length_flatMap]
  congr 1
  apply map_congr_left
  intro k member
  obtain ⟨low, high⟩ := mem_range'_1.mp member
  exact sizes k low (by omega)

/-- A write that stays in one chunk. -/
theorem store_chunk {mem : Memory} (chain : Chain addr payload mem lo hi holders) {i : Nat}
    (lower : lo ≤ i) (upper : i < hi) (fits : pos + v.length ≤ (payload i).length)
    {chunk : Cell (List Byte)} (cell : mem.cells (addr i) = some chunk) :
    Overwritten addr payload mem lo hi holders i pos v
      (update payload i (overwrite (payload i) pos v))
      (mem.set (addr i) (some { chunk with payload := overwrite (payload i) pos v })) := by
  have others (k : Nat) (different : k ≠ i) :
      update payload i (overwrite (payload i) pos v) k = payload k :=
    update_of_ne different _ _
  refine ⟨chain.store lower upper _ cell, Spares.set lower upper _, fun k => ?_,
    fun k small => others k small.ne, ?_⟩
  · by_cases this : k = i
    · rw [this, update_self, length_overwrite fits]
    · rw [others k this]
  · rw [bytes_from_cons _ upper, bytes_from_cons payload upper, update_self,
      overwrite_before fits]
    congr 1
    exact bytes_from_congr _ fun k above _ => others k (by omega)

/-- A write that goes on in the next chunk. -/
theorem Overwritten.across {payload₁ payload₂ : Nat → List Byte} {mem between after : Memory}
    {i : Nat} {w : List Byte} (upper : i < hi) (start : pos ≤ (payload i).length)
    (full : v.length = (payload i).length - pos)
    (first : Overwritten addr payload mem lo hi holders i pos v payload₁ between)
    (second : Overwritten addr payload₁ between lo hi holders (i + 1) 0 w payload₂ after) :
    Overwritten addr payload mem lo hi holders i pos (v ++ w) payload₂ after := by
  refine ⟨second.chain, first.spares.trans second.spares fun k low high _ => ⟨k, low, high, rfl⟩,
    fun k => (second.sizes k).trans (first.sizes k), fun k small => ?_, ?_⟩
  · rw [second.earlier k (by omega), first.earlier k small]
  · have whole := first.bytes
    rw [bytes_from_cons payload₁ upper, bytes_from_cons payload upper,
      overwrite_before (by omega)] at whole
    obtain ⟨here, behind⟩ := append_inj whole (by
      rw [first.sizes, length_overwrite (by omega)])
    rw [bytes_from_cons payload₂ upper, bytes_from_cons payload upper, second.bytes,
      second.earlier i (Nat.lt_succ_self i), here, behind, overwrite_across start (by
        rw [length_append]; omega), ← full, take_left, drop_left]

/-- `chk_bytechunk_write` stores as many bytes as the chain has room for, and keeps
the others. -/
theorem chunk_write_cut (fuel i pos : Nat) (v : List Byte) (payload : Nat → List Byte)
    (mem : Memory) (chain : Chain addr payload mem lo hi holders) (lower : lo ≤ i)
    (inside : i < hi → pos ≤ (payload i).length) (fueled : hi - i ≤ fuel) :
    ∃ payload' after, bytechunkWriteLoop fuel mem (linkTo addr hi i) pos v =
        some (after, v.drop ((bytesFrom payload i hi).length - pos)) ∧
      Overwritten addr payload mem lo hi holders i pos
        (v.take ((bytesFrom payload i hi).length - pos)) payload' after := by
  have unchanged (payload : Nat → List Byte) (mem : Memory) (i pos : Nat)
      (chain : Chain addr payload mem lo hi holders) :
      Overwritten addr payload mem lo hi holders i pos [] payload mem :=
    ⟨chain, Spares.refl, fun _ => rfl, fun _ _ => rfl, (overwrite_nil _ _).symm⟩
  induction fuel generalizing i pos v payload mem with
  | zero =>
    have none : hi ≤ i := by omega
    rw [bytes_from_empty payload none, length_nil, Nat.zero_sub, drop_zero,
      take_zero, linkTo, if_neg (by omega)]
    refine ⟨payload, mem, ?_, unchanged payload mem i pos chain⟩
    cases v <;> rfl
  | succ fuel ih =>
    by_cases upper : i < hi
    · cases v with
      | nil =>
        rw [drop_nil, take_nil]
        exact ⟨payload, mem, by simp [bytechunkWriteLoop], unchanged payload mem i pos chain⟩
      | cons byte rest =>
        generalize bytes : byte :: rest = v
        have start := inside upper
        obtain ⟨count, cell⟩ := cell_at chain.segment lower upper
        have total : (bytesFrom payload i hi).length - pos =
            (payload i).length - pos + (bytesFrom payload (i + 1) hi).length := by
          rw [bytes_from_cons payload upper, length_append]
          omega
        have round (w : List Byte) (is : v.take (min ((payload i).length - pos) v.length) = w)
            (fits : pos + w.length ≤ (payload i).length) :
            bytechunkWriteLoop (fuel + 1) mem (linkTo addr hi i) pos v =
              bytechunkWriteLoop fuel (mem.set (addr i) (some
                { refcount := count, next := linkTo addr hi (i + 1)
                  payload := overwrite (payload i) pos w })) (linkTo addr hi (i + 1)) 0
                (v.drop (min ((payload i).length - pos) v.length)) := by
          rw [link_inside addr upper, bytechunkWriteLoop]
          · simp only [Option.bind_eq_bind, Option.bind_some, cell, is, splice_overwrite fits]
          · rw [← bytes]
            exact cons_ne_nil _ _
        rw [total]
        by_cases short : pos + v.length ≤ (payload i).length
        · -- The write ends in this chunk.
          have all : min ((payload i).length - pos) v.length = v.length := by omega
          rw [all] at round
          rw [round v take_length short, drop_length, drop_of_length_le (by omega),
            take_of_length_le (by omega)]
          exact ⟨_, _, by simp [bytechunkWriteLoop], store_chunk chain lower upper short cell⟩
        · have part : min ((payload i).length - pos) v.length = (payload i).length - pos := by omega
          have taken : (v.take ((payload i).length - pos)).length = (payload i).length - pos := by
            rw [length_take]
            omega
          rw [part] at round
          have first := store_chunk chain lower upper
            (show pos + (v.take ((payload i).length - pos)).length ≤ (payload i).length by omega)
              cell
          obtain ⟨payload₂, after, ran, second⟩ :=
            ih (i + 1) 0 (v.drop ((payload i).length - pos)) _
            _ first.chain (by omega) (fun _ => Nat.zero_le _) (by omega)
          have behind : (bytesFrom (update payload i
              (overwrite (payload i) pos (v.take ((payload i).length - pos)))) (i + 1) hi).length =
              (bytesFrom payload (i + 1) hi).length :=
            length_bytes_same _ fun k _ _ => first.sizes k
          rw [behind, Nat.sub_zero] at ran second
          refine ⟨payload₂, after, ?_, ?_⟩
          · rw [round _ rfl (by omega), ran, drop_drop]
          · rw [take_add]
            exact first.across upper start taken second
    · rw [bytes_from_empty payload (by omega), length_nil, Nat.zero_sub, drop_zero,
        take_zero, linkTo, if_neg upper]
      refine ⟨payload, mem, ?_, unchanged payload mem i pos chain⟩
      cases v <;> rfl

theorem chunk_write_inside {mem : Memory} {address : Nat} {chunk : Cell (List Byte)}
    (cell : mem.cells address = some chunk) (some_ : v ≠ [])
    (inside : pos + v.length ≤ chunk.payload.length) :
    bytechunkWrite mem (some address) pos v =
      some (mem.set address (some { chunk with payload := overwrite chunk.payload pos v }),
        []) := by
  have all : min (chunk.payload.length - pos) v.length = v.length := by omega
  have none : bytechunkWriteLoop mem.fresh
      (mem.set address (some { chunk with payload := overwrite chunk.payload pos v }))
      chunk.next 0 [] =
      some (mem.set address (some { chunk with payload := overwrite chunk.payload pos v }),
        []) := by
    simp [bytechunkWriteLoop]
  rw [bytechunkWrite, bytechunkWriteLoop]
  · simp only [Option.bind_eq_bind, Option.bind_some, cell, all, take_length,
      splice_overwrite inside, drop_length, none]
  · exact some_

end Chains

end Chuck.ByteChainWriting
