import Chuck.ByteBufferRefinement

/-!
# Rewriting bytes of a buffer

`chk_bytebuffer_rewrite` walks from the first chunk to the offset and writes there.
The walk sets the index only if it makes a step, so a rewrite at offset 0 starts at
whatever the uninitialised variable holds; and it gives up at the end of the chain
even if there is nothing to write. The range check is made modulo `2 ^ 32`, so a
range that wraps around passes it. Everywhere else the rewrite does what it should.
-/

namespace Chuck.ByteBufferRewrite

open Support.SharedChain ByteChunkModel ByteChainReading ByteChainAppending ByteBufferRefinement
open ByteChainWriting List

def chainRoom (mem : Memory) : Nat → Option Nat → Nat
  | _, none => 0
  | 0, some _ => 0
  | fuel + 1, some c =>
    match mem.cells c with
    | none => 0
    | some chunk => chunk.payload.length + chainRoom mem fuel chunk.next

def roomFrom (mem : Memory) (b : ByteBuffer) : Nat :=
  chainRoom mem (mem.fresh + 1) b.head - b.spos

section Chains

variable {addr : Nat → Nat} {payload : Nat → List Byte} {mem : Memory} {lo hi : Nat}
  {holders : List Nat} {extra : Nat}
  (segment : Segment addr payload mem lo hi holders extra)

include segment

theorem chain_room (fuel i : Nat) (lower : lo ≤ i) (fueled : hi - i ≤ fuel) :
    chainRoom mem fuel (linkTo addr hi i) = (bytesFrom payload i hi).length := by
  induction fuel generalizing i with
  | zero =>
    rw [bytes_from_empty payload (by omega), linkTo, if_neg (by omega)]
    rfl
  | succ fuel ih =>
    by_cases upper : i < hi
    · obtain ⟨count, cell⟩ := cell_at segment lower upper
      rw [link_inside addr upper, chainRoom, cell, bytes_from_cons payload upper,
        length_append]
      dsimp only
      rw [ih (i + 1) (by omega) (by omega)]
    · rw [bytes_from_empty payload (by omega), linkTo, if_neg upper]
      rfl

/-- The walk finds every offset inside the chain. Its index is right from the start,
or set by a step. -/
theorem rewrite_seek_found (fuel i pos index c : Nat) (lower : lo ≤ i) (upper : i < hi)
    (inside : pos ≤ (payload i).length) (start : c = 0 → index = pos)
    (within : c = 0 ∨ pos + c < (bytesFrom payload i hi).length) (fueled : hi - i ≤ fuel) :
    ∃ j last, rewriteSeek mem fuel (addr i) pos index c = some (some (addr j, last)) ∧
      i ≤ j ∧ j < hi ∧ last ≤ (payload j).length ∧
      (bytesFrom payload i j).length + last = pos + c := by
  induction fuel generalizing i pos index c with
  | zero => exact absurd fueled (by omega)
  | succ fuel ih =>
    cases c with
    | zero =>
      refine ⟨i, index, by simp [rewriteSeek], Nat.le_refl i, upper, start rfl ▸ inside, ?_⟩
      rw [bytes_from_empty payload (Nat.le_refl i), start rfl]
      simp
    | succ c =>
      obtain ⟨count, cell⟩ := cell_at segment lower upper
      have within := within.resolve_left (Nat.succ_ne_zero c)
      rw [bytes_from_cons payload upper, length_append] at within
      rw [rewriteSeek]
      simp only [cell, Option.bind_eq_bind, Option.bind_some]
      by_cases crossed : (payload i).length - pos ≤ c + 1
      · have next : i + 1 < hi := bytes_from_lt payload (by omega)
        rw [if_pos crossed, link_inside addr next]
        obtain ⟨j, last, sought, low, high, short, place⟩ := ih (i + 1) 0 0
          (c + 1 - ((payload i).length - pos)) (by omega) next (Nat.zero_le _)
          (fun _ => rfl) (.inr (by omega)) (by omega)
        refine ⟨j, last, sought, by omega, high, short, ?_⟩
        rw [bytes_from_cons payload (by omega), length_append]
        omega
      · rw [if_neg crossed]
        refine ⟨i, pos + (c + 1), rfl, Nat.le_refl i, upper, by omega, ?_⟩
        rw [bytes_from_empty payload (Nat.le_refl i), length_nil, Nat.zero_add]

theorem rewrite_seek_missed (fuel i pos index c : Nat) (lower : lo ≤ i) (upper : i < hi)
    (inside : pos ≤ (payload i).length) (positive : 0 < c)
    (beyond : (bytesFrom payload i hi).length ≤ pos + c)
    (solid : ∀ k, lo ≤ k → k < hi → 0 < (payload k).length) (fueled : hi - i ≤ fuel) :
    rewriteSeek mem fuel (addr i) pos index c = some none := by
  induction fuel generalizing i pos index c with
  | zero => exact absurd fueled (by omega)
  | succ fuel ih =>
    obtain ⟨c, rfl⟩ := Nat.exists_eq_succ_of_ne_zero positive.ne'
    obtain ⟨count, cell⟩ := cell_at segment lower upper
    rw [bytes_from_cons payload upper, length_append] at beyond
    rw [rewriteSeek]
    simp only [cell, Option.bind_eq_bind, Option.bind_some]
    rw [if_pos (by omega)]
    by_cases next : i + 1 < hi
    · have full := solid (i + 1) (by omega) next
      have some : (payload (i + 1)).length ≤ (bytesFrom payload (i + 1) hi).length := by
        rw [bytes_from_cons payload next, length_append]
        omega
      rw [link_inside addr next]
      exact ih (i + 1) 0 0 _ (by omega) next (Nat.zero_le _) (by omega) (by omega) (by omega)
    · rw [linkTo, if_neg next]

end Chains

/-! ## One rewrite -/

section Buffers

variable (junk : Nat → Nat → Byte) {mem : Memory} {b : ByteBuffer} {L : List Byte}

theorem owns_of_holding (owns : Owns mem b L) {addr : Nat → Nat} {payload : Nat → List Byte}
    {lo hi : Nat} {after : Memory} {content : List Byte}
    (holding : Holding addr payload after lo hi lo [] b content) : Owns after b content :=
  ⟨owns.1, owns.2.1, .inr ⟨addr, payload, lo, hi, holding⟩⟩

theorem owns_unique {content : List Byte} (owns : Owns mem b L) (other : Owns mem b content) :
    content = L := by
  have first := read_owns owns 0 L.length
  have second := read_owns other 0 L.length
  have same : content.length = L.length := other.counted.symm.trans owns.counted
  rw [first, drop_zero, drop_zero, take_length,
    take_of_length_le (Nat.le_of_eq same)] at second
  exact (Option.some.inj second).symm

theorem rewrite_refused (owns : Owns mem b L) (stale offset : Nat) (v : List Byte)
    (beyond : L.length < (offset + v.length) % 2 ^ 32) :
    bytebufferRewrite junk stale mem b offset v = some (.invaildPos, mem, b) := by
  rw [bytebufferRewrite, owns.2.1, if_neg Bool.false_ne_true, owns.counted, if_pos beyond]

theorem rewrite_checked (owns : Owns mem b L) (stale offset : Nat) (v : List Byte)
    (within : (offset + v.length) % 2 ^ 32 ≤ L.length) :
    bytebufferRewrite junk stale mem b offset v =
      match b.head with
      | none => some (.invaildPos, mem, b)
      | some head => (rewriteSeek mem (mem.fresh + 1) head b.spos stale offset).bind fun found =>
        match found with
        | none => some (.invaildPos, mem, b)
        | some (chunk, index) => (bytechunkWrite mem (some chunk) index v).bind fun (after, rest) =>
          some (if rest = [] then .ok else .invaildPos, after, b) := by
  rw [bytebufferRewrite, owns.2.1, if_neg Bool.false_ne_true, owns.counted,
    if_neg (not_lt.mpr within), copyOnWrite, owns.1, if_neg Bool.false_ne_true]
  rfl

theorem rewrite_empty (owns : Owns mem b L) (stale offset : Nat) (v : List Byte)
    (none : b.head = none) (within : (offset + v.length) % 2 ^ 32 ≤ L.length) :
    bytebufferRewrite junk stale mem b offset v = some (.invaildPos, mem, b) := by
  rw [rewrite_checked junk owns stale offset v within, none]

section Holding

variable {addr : Nat → Nat} {payload : Nat → List Byte} {lo hi : Nat}

theorem Holding.room (holding : Holding addr payload mem lo hi lo [] b L) :
    roomFrom mem b = (bytesFrom payload lo hi).length - b.spos := by
  have segment := holding.tail.chain.segment
  have fuel := segment.length_le
  have capacity := chain_room segment (mem.fresh + 1) lo (Nat.le_refl lo) (by omega)
  rw [link_inside addr holding.bounds.2, ← holding.head] at capacity
  rw [roomFrom, capacity]

section

variable (owns : Owns mem b L) (holding : Holding addr payload mem lo hi lo [] b L)
  (stale offset : Nat) (v : List Byte) (within : (offset + v.length) % 2 ^ 32 ≤ L.length)
  (positive : 0 < offset)

include owns holding within positive

theorem rewrite_missed (beyond : roomFrom mem b ≤ offset) :
    bytebufferRewrite junk stale mem b offset v = some (.invaildPos, mem, b) := by
  have segment := holding.tail.chain.segment
  have fuel := segment.length_le
  rw [Holding.room holding] at beyond
  have missed := rewrite_seek_missed segment (mem.fresh + 1) lo b.spos stale offset
    (Nat.le_refl lo) holding.bounds.2 holding.start.le positive (by omega)
    holding.tail.solid (by omega)
  rw [rewrite_checked junk owns stale offset v within, holding.head]
  dsimp only
  rw [missed]
  rfl

theorem rewrite_found (inside : offset < roomFrom mem b) :
    ∃ after, bytebufferRewrite junk stale mem b offset v =
        some (if v.drop (roomFrom mem b - offset) = [] then .ok else .invaildPos, after, b) ∧
      Owns after b ((overwrite ((bytesFrom payload lo hi).drop b.spos) offset
        (v.take (roomFrom mem b - offset))).take L.length) := by
  have segment := holding.tail.chain.segment
  have fuel := segment.length_le
  have room := Holding.room holding
  obtain ⟨j, last, sought, low, high, short, place⟩ := rewrite_seek_found segment (mem.fresh + 1)
    lo b.spos stale offset (Nat.le_refl lo) holding.bounds.2 holding.start.le
    (fun zero => absurd zero positive.ne') (.inr (by omega)) (by omega)
  obtain ⟨payload', after, ran, held, -⟩ := Holding.write_cut holding v low high short place
  rw [← Nat.sub_sub, ← room] at ran held
  refine ⟨after, ?_, owns_of_holding owns held⟩
  rw [rewrite_checked junk owns stale offset v within, holding.head]
  dsimp only
  rw [sought, Option.bind_some]
  dsimp only
  rw [ran, Option.bind_some]

end

theorem rewrite_start (owns : Owns mem b L) (holding : Holding addr payload mem lo hi lo [] b L)
    (stale : Nat) (v : List Byte) (within : v.length ≤ L.length) :
    bytebufferRewrite junk stale mem b 0 v =
      (bytechunkWrite mem (some (addr lo)) stale v).bind fun (after, rest) =>
        some (if rest = [] then .ok else .invaildPos, after, b) := by
  have small := holding.small
  rw [rewrite_checked junk owns stale 0 v
    (by rw [Nat.zero_add, Nat.mod_eq_of_lt (by omega)]; omega), holding.head]
  simp [rewriteSeek]

end Holding

/-! ## Where a rewrite does what it should -/

/-- What every rewrite of `size` bytes at `offset` has to do, whatever the bytes are
and whatever the uninitialised index holds. -/
def Replaces (mem : Memory) (b : ByteBuffer) (L : List Byte) (offset size : Nat) : Prop :=
  ∀ v : List Byte, v.length = size → ∀ stale, stale < 2 ^ 32 →
    if offset + size ≤ L.length then
      ∃ after, bytebufferRewrite junk stale mem b offset v = some (.ok, after, b) ∧
        Owns after b (overwrite L offset v)
    else
      ∃ error after, error ≠ .ok ∧
        bytebufferRewrite junk stale mem b offset v = some (error, after, b) ∧ Owns after b L

/-- In range: there is a chunk, a rewrite of nothing stays inside the chain, and a
rewrite of something does not start at 0. Out of range: the range does not wrap into
the data, or it lies behind the data and does not fit the chain. -/
def Careful (mem : Memory) (b : ByteBuffer) (offset size : Nat) : Prop :=
  if offset + size ≤ b.datasize then
    b.head ≠ none ∧ (size = 0 → offset = 0 ∨ offset < roomFrom mem b) ∧ (size ≠ 0 → offset ≠ 0)
  else
    b.datasize < (offset + size) % 2 ^ 32 ∨
      (b.datasize ≤ offset ∧ roomFrom mem b < offset + size)

instance (mem : Memory) (b : ByteBuffer) (offset size : Nat) :
    Decidable (Careful mem b offset size) :=
  inferInstanceAs (Decidable (if offset + size ≤ b.datasize then _ ∧ _ ∧ _ else _ ∨ _ ∧ _))

theorem take_overwrite_before {data v : List Byte} {pos size : Nat} (before : size ≤ pos)
    (inside : pos ≤ data.length) : (overwrite data pos v).take size = data.take size := by
  rw [overwrite, append_assoc, take_append_of_le_length, take_take,
    Nat.min_eq_left before]
  rw [length_take]
  omega

theorem overwritten_first {data rest : List Byte} {byte : Byte} {pos : Nat}
    (inside : pos ≤ data.length) : (overwrite data pos (byte :: rest))[pos]? = some byte := by
  have start : (data.take pos).length = pos := by
    rw [length_take]
    omega
  rw [overwrite, append_assoc, getElem?_append_right (Nat.le_of_eq start), start,
    Nat.sub_self]
  rfl

theorem empty_replaces_iff (owns : Owns mem b L) (none : b.head = none) (offset size : Nat) :
    Replaces junk mem b L offset size ↔ Careful mem b offset size := by
  have nothing : L = [] := by
    obtain ⟨-, -, ⟨-, -, -, empty⟩ | ⟨_, _, _, _, holding⟩⟩ := owns
    · exact empty
    · nomatch holding.head.symm.trans none
  have refused : ∀ v : List Byte, ∀ stale,
      bytebufferRewrite junk stale mem b offset v = some (.invaildPos, mem, b) := by
    intro v stale
    by_cases beyond : L.length < (offset + v.length) % 2 ^ 32
    · exact rewrite_refused junk owns stale offset v beyond
    · exact rewrite_empty junk owns stale offset v none (not_lt.mp beyond)
  have room : roomFrom mem b = 0 := by
    rw [roomFrom, none, chainRoom, Nat.zero_sub]
  rw [Careful, owns.counted]
  constructor
  · intro replaces
    split_ifs with inside
    · have shown := replaces (List.replicate size 0) length_replicate 0 (by decide)
      rw [if_pos inside] at shown
      obtain ⟨after, ran, -⟩ := shown
      rw [refused] at ran
      cases ran
    · rw [room]
      rw [nothing, length_nil] at inside ⊢
      omega
  · intro careful v size' stale _
    split_ifs at careful ⊢ with inside
    · exact absurd none careful.1
    · exact ⟨.invaildPos, mem, nofun, refused v stale, owns⟩

section Ranges

variable {addr : Nat → Nat} {payload : Nat → List Byte} {lo hi : Nat}
  (owns : Owns mem b L) (holding : Holding addr payload mem lo hi lo [] b L) {offset size : Nat}

include holding

theorem length_le_room : L.length ≤ roomFrom mem b := by
  have whole := congrArg List.length holding.whole
  rw [length_append, length_drop, length_drop] at whole
  rw [Holding.room holding]
  omega

include owns

theorem rewrite_in_range (positive : 0 < offset) (v : List Byte)
    (inside : offset + v.length ≤ L.length) (found : offset < roomFrom mem b) (stale : Nat) :
    ∃ after, bytebufferRewrite junk stale mem b offset v = some (.ok, after, b) ∧
      Owns after b (overwrite L offset v) := by
  have small := holding.small
  have room := length_le_room holding
  obtain ⟨after, ran, owned⟩ := rewrite_found junk owns holding stale offset v
    (by rw [Nat.mod_eq_of_lt (by omega)]; exact inside) positive found
  have all : v.take (roomFrom mem b - offset) = v := take_of_length_le (by omega)
  rw [drop_of_length_le (by omega), if_pos rfl] at ran
  rw [all, take_overwrite inside, ← holding.whole, take_left] at owned
  exact ⟨after, ran, owned⟩

theorem rewrite_stale_faults {v : List Byte} (given : v ≠ []) (inside : v.length ≤ L.length) :
    bytebufferRewrite junk ((payload lo).length + 1) mem b 0 v = none := by
  obtain ⟨count, cell⟩ := cell_at holding.tail.chain.segment (Nat.le_refl lo) holding.bounds.2
  rw [rewrite_start junk owns holding _ v inside, bytechunkWrite, bytechunkWriteLoop]
  · simp [cell, splice]
  · exact given

theorem in_range_iff (narrow : (payload lo).length + 1 < 2 ^ 32)
    (inside : offset + size ≤ L.length) :
    Replaces junk mem b L offset size ↔ Careful mem b offset size := by
  have small := holding.small
  have head : b.head ≠ none := by
    rw [holding.head]
    exact nofun
  rw [Careful, owns.counted, if_pos inside]
  constructor
  · intro replaces
    have shown := fun v given stale word => by
      have here := replaces v given stale word
      rw [if_pos inside] at here
      exact here
    refine ⟨head, fun none => ?_, fun some zero => ?_⟩
    · by_contra missed
      push Not at missed
      obtain ⟨after, ran, -⟩ := shown [] none.symm 0 (by decide)
      rw [rewrite_missed junk owns holding 0 offset []
        (by rw [length_nil, Nat.mod_eq_of_lt (by omega)]; omega)
        (Nat.pos_of_ne_zero missed.1) missed.2] at ran
      cases ran
    · subst zero
      obtain ⟨after, ran, -⟩ := shown (List.replicate size 0) length_replicate _ narrow
      have given : List.replicate size (0 : Byte) ≠ [] := by
        rw [Ne, replicate_eq_nil_iff]
        exact some
      rw [rewrite_stale_faults junk owns holding given (by rw [length_replicate]; omega)] at ran
      cases ran
  · rintro ⟨-, empty, nonempty⟩ v given stale -
    rw [if_pos inside]
    subst given
    by_cases start : offset = 0
    · have none : v = [] := by
        by_contra some
        exact nonempty (fun zero => some (length_eq_zero_iff.mp zero)) start
      subst none start
      refine ⟨mem, ?_, ?_⟩
      · rw [rewrite_start junk owns holding stale [] (Nat.zero_le _)]
        simp [bytechunkWrite, bytechunkWriteLoop]
      · rw [overwrite_nil]
        exact owns
    · have found : offset < roomFrom mem b := by
        have room := length_le_room holding
        by_cases none : v.length = 0
        · exact (empty none).resolve_left start
        · omega
      exact rewrite_in_range junk owns holding (Nat.pos_of_ne_zero start) v inside found stale

theorem out_of_range_iff (word : offset < 2 ^ 32) (words : size < 2 ^ 32)
    (outside : ¬offset + size ≤ L.length) :
    Replaces junk mem b L offset size ↔ Careful mem b offset size := by
  have small := holding.small
  have room := length_le_room holding
  rw [Careful, owns.counted, if_neg outside]
  by_cases beyond : L.length < (offset + size) % 2 ^ 32
  · refine ⟨fun _ => .inl beyond, fun _ v given stale _ => ?_⟩
    rw [if_neg outside]
    exact ⟨.invaildPos, mem, nofun,
      rewrite_refused junk owns stale offset v (given ▸ beyond), owns⟩
  · -- the sum has wrapped around
    have positive : 0 < offset ∧ 0 < size := by omega
    have within : (offset + size) % 2 ^ 32 ≤ L.length := not_lt.mp beyond
    by_cases missed : roomFrom mem b ≤ offset
    · refine ⟨fun _ => .inr ⟨by omega, by omega⟩, fun _ v given stale _ => ?_⟩
      rw [if_neg outside]
      exact ⟨.invaildPos, mem, nofun, rewrite_missed junk owns holding stale offset v
        (given ▸ within) positive.1 missed, owns⟩
    · have found : offset < roomFrom mem b := not_le.mp missed
      have view : ((bytesFrom payload lo hi).drop b.spos).length = roomFrom mem b := by
        rw [length_drop, Holding.room holding]
      constructor
      · intro replaces
        refine .inr ?_
        -- a byte that differs from the one at the offset, if there is one
        obtain ⟨byte, different⟩ : ∃ byte : Byte, L[offset]? ≠ some byte := by
          by_cases zero : L[offset]? = some 0
          · exact ⟨1, by rw [zero]; decide⟩
          · exact ⟨0, zero⟩
        have length : (List.replicate size byte).length = size := length_replicate
        have shown := replaces (List.replicate size byte) length 0 (by decide)
        rw [if_neg outside] at shown
        obtain ⟨error, after, failed, ran, kept⟩ := shown
        obtain ⟨after', ran', owned⟩ := rewrite_found junk owns holding 0 offset
          (List.replicate size byte) (length.symm ▸ within) positive.1 found
        rw [ran'] at ran
        simp only [Option.some.injEq, Prod.mk.injEq, and_true] at ran
        obtain ⟨code, rfl⟩ := ran
        have cut : roomFrom mem b < offset + size := by
          by_contra enough
          rw [drop_of_length_le (by omega), if_pos rfl] at code
          exact failed code.symm
        refine ⟨?_, cut⟩
        by_contra inside
        have inside : offset < L.length := not_le.mp inside
        have same := owns_unique kept owned
        apply different
        obtain ⟨more, count⟩ := Nat.exists_eq_succ_of_ne_zero
          (show min (roomFrom mem b - offset) size ≠ 0 by omega)
        rw [← same, getElem?_take_of_lt inside, take_replicate, count,
          replicate_succ, overwritten_first (by omega)]
      · intro careful v given stale _
        obtain ⟨behind, cut⟩ := careful.resolve_left beyond
        rw [if_neg outside]
        subst given
        obtain ⟨after, ran, owned⟩ := rewrite_found junk owns holding stale offset v within
          positive.1 found
        have left : v.drop (roomFrom mem b - offset) ≠ [] := by
          rw [Ne, drop_eq_nil_iff]
          omega
        rw [if_neg left] at ran
        rw [take_overwrite_before behind (by omega), ← holding.whole, take_left] at owned
        exact ⟨.invaildPos, after, nofun, ran, owned⟩

end Ranges

/-- Which rewrites of a private buffer replace exactly the addressed bytes, or refuse
and change nothing. Capacities are 32-bit numbers, and so are the offset and the size. -/
theorem rewrite_replaces_iff (owns : Owns mem b L) (offset size : Nat) (word : offset < 2 ^ 32)
    (words : size < 2 ^ 32)
    (narrow : ∀ address chunk, mem.cells address = some chunk → chunk.payload.length + 1 < 2 ^ 32) :
    Replaces junk mem b L offset size ↔ Careful mem b offset size := by
  cases head : b.head with
  | none => exact empty_replaces_iff junk owns head offset size
  | some first =>
    obtain ⟨-, -, ⟨none, -⟩ | ⟨addr, payload, lo, hi, holding⟩⟩ := id owns
    · nomatch none.symm.trans head
    · by_cases inside : offset + size ≤ L.length
      · obtain ⟨count, cell⟩ := cell_at holding.tail.chain.segment (Nat.le_refl lo)
          holding.bounds.2
        exact in_range_iff junk owns holding (narrow _ _ cell) inside
      · exact out_of_range_iff junk owns holding word words inside

end Buffers

def threeBytes : Memory := (Heap.alloc ⟨fun _ => none, 0⟩ [1, 2, 3, 0]).2

def threeBuffer : ByteBuffer :=
  { blankBuffer with head := some 0, tail := some 0, datasize := 3, appendPos := 3 }

theorem three_owns : Owns threeBytes threeBuffer [1, 2, 3] :=
  ⟨rfl, rfl, .inr ⟨_, _, 0, 1, ⟨Chain.alloc _ 0 _, fun _ _ _ => by decide, rfl, by decide⟩, rfl,
    by decide, by decide, rfl, rfl, by decide⟩⟩

theorem rewrite_replaces_last_two :
    Replaces (fun _ _ => 0) threeBytes threeBuffer [1, 2, 3] 1 2 := by
  refine (rewrite_replaces_iff (fun _ _ => 0) three_owns 1 2 (by decide) (by decide) ?_).mpr
    (by decide)
  intro address chunk found
  by_cases first : address = 0
  · subst first
    cases found
    decide
  · rw [show threeBytes.cells address = none from if_neg first] at found
    cases found

/-- With 1 in the uninitialised index, a rewrite of the first byte changes the second one
and reports success. -/
theorem stale_index_misplaces :
    ((bytebufferRewrite (fun _ _ => 0) 1 threeBytes threeBuffer 0 [9]).bind
      fun (error, after, b) => (bytebufferRead after b 0 3).map fun out => (error, out)) =
      some (.ok, [1, 9, 3]) := by
  decide +kernel

end Chuck.ByteBufferRewrite
