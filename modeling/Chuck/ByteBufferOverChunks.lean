import Chuck.ByteBufferRefinement
import Chuck.UnpackProgress

/-!
# Appending to a buffer over existing chunks

`chk_bytebuffer_init` over a chunk sets the tail to that chunk and leaves
`append_pos` at zero, wherever the data lies. Such a buffer therefore appends at the
start of its first chunk: it writes over the chain from there on, and only behind
the end of the chain does it store anything new. The packets of the decoder and the
buffers that Lua makes of a string are built that way.
-/

namespace Chuck.ByteBufferOverChunks

open Support.SharedChain ByteChunkModel ByteChainReading ByteChainAppending ByteBufferRefinement
open ByteChainWriting StreamRecvModel UnpackProgress List Option

section Model

variable (junk : Nat → Nat → Byte)

/-- `chk_bytechunk_new(ptr,len)` of the first `len` bytes at `ptr`. -/
def bytechunkNewFrom (mem : Memory) (ptr : List Byte) (len : Nat) : Option (Nat × Memory) :=
  (splice (rawData junk mem len) 0 (ptr.take len)).map mem.alloc

inductive NewArgument where
  | text (str : List Byte)
  | capacity (size : Nat)
  deriving DecidableEq, Repr

def luaNewBytebuffer (mem : Memory) : NewArgument → Option (Memory × ByteBuffer)
  | .text str => do
      let size := str.length % 2 ^ 32
      let (chunk, mem) ← bytechunkNewFrom junk mem str size
      let (mem, b) ← bytebufferInit junk mem blankBuffer (some chunk) 0 size false false
      let mem ← bytechunkRelease mem chunk
      some (mem, b)
  | .capacity size => bytebufferInit junk mem blankBuffer none 0 (size % 2 ^ 32) false false

end Model

/-! ## Appending along a chain -/

section Chains

variable {addr : Nat → Nat} {payload : Nat → List Byte} {mem : Memory} {lo hi : Nat}
  {holders : List Nat}

theorem copy_out_prefix {extra : Nat} (segment : Segment addr payload mem lo hi holders extra)
    (fuel i pos size : Nat) (out : List Byte) (lower : lo ≤ i)
    (inside : i < hi → pos ≤ (payload i).length)
    (copied : copyOutLoop mem fuel (linkTo addr hi i) pos size = some out) :
    out <+: (bytesFrom payload i hi).drop pos := by
  induction fuel generalizing i pos size out with
  | zero =>
    cases size with
    | zero =>
      rw [copyOutLoop, Option.some.injEq] at copied
      exact copied ▸ nil_prefix
    | succ size => cases copied
  | succ fuel ih =>
    cases size with
    | zero =>
      rw [copyOutLoop, Option.some.injEq] at copied
      exact copied ▸ nil_prefix
    | succ size =>
      by_cases upper : i < hi
      · obtain ⟨count, cell⟩ := cell_at segment lower upper
        have start := inside upper
        rw [copyOutLoop, link_inside addr upper] at copied
        simp only [bind_eq_bind, bind_some, cell] at copied
        rw [slice_inside (by omega), bind_some, bind_eq_some_iff] at copied
        obtain ⟨rest, more, joined⟩ := copied
        rw [← Option.some.inj joined, bytes_from_cons payload upper,
          drop_append_of_le_length start]
        by_cases ends : size + 1 ≤ (payload i).length - pos
        · have none : rest = [] := by
            rw [Nat.min_eq_right ends, Nat.sub_self] at more
            cases fuel <;> exact (Option.some.inj more).symm
          rw [none, append_nil]
          exact (List.take_prefix _ _).trans (prefix_append _ _)
        · have behind := ih (i + 1) 0 _ rest (by omega) (fun _ => Nat.zero_le _) more
          rw [Nat.min_eq_left (by omega),
            take_of_length_le (by rw [length_drop])]
          exact (prefix_append_right_inj _).mpr behind
      · rw [linkTo, if_neg upper] at copied
        cases copied

end Chains

/-! ## Buffers over existing chunks -/

/-- A buffer as `chk_bytebuffer_init` leaves it over chunk `i` of a chain. -/
structure Spans (addr : Nat → Nat) (payload : Nat → List Byte) (mem : Memory) (lo hi : Nat)
    (holders : List Nat) (i : Nat) (b : ByteBuffer) (L : List Byte) : Prop where
  chain : Chain addr payload mem lo hi holders
  solid : ∀ k, lo ≤ k → k < hi → 0 < (payload k).length
  lower : lo ≤ i
  upper : i < hi
  head : b.head = some (addr i)
  tail : b.tail = some (addr i)
  appendPos : b.appendPos = 0
  writable : b.needCopyOnWrite = false ∧ b.readOnly = false
  inside : b.spos ≤ (payload i).length
  counted : b.datasize = L.length
  small : b.datasize < 2 ^ 32
  view : L <+: (bytesFrom payload i hi).drop b.spos

/-- The chain after `v` has been stored over its bytes `old`, from chunk `i` on. -/
structure Overlaid (b : ByteBuffer) (i size : Nat) (old v : List Byte) (after : Memory)
    (grown : ByteBuffer) : Prop where
  head : grown.head = b.head
  spos : grown.spos = b.spos
  datasize : grown.datasize = (b.datasize + v.length) % 2 ^ 32
  chain : ∃ addr payload lo hi holders, Chain addr payload after lo hi holders ∧ lo ≤ i ∧
    i < hi ∧ b.head = some (addr i) ∧ (payload i).length = size ∧
    v ++ old.drop v.length <+: bytesFrom payload i hi ∧
    (v.length ≤ old.length → bytesFrom payload i hi = v ++ old.drop v.length)

section Appending

variable (junk : Nat → Nat → Byte) {addr : Nat → Nat} {payload : Nat → List Byte} {mem : Memory}
  {lo hi : Nat} {holders : List Nat} {i : Nat} {b : ByteBuffer} {L : List Byte}

theorem append_overlays (spans : Spans addr payload mem lo hi holders i b L) (v : List Byte) :
    ∃ after grown, bytebufferAppend junk mem b v = some (.ok, after, grown) ∧
      Overlaid b i (payload i).length (bytesFrom payload i hi) v after grown := by
  have called : bytebufferAppend junk mem b v =
      (appendLoop junk v.length mem b v).bind fun (after, grown) => some (.ok, after, grown) := by
    have opened : openTail junk mem b v.length = some (mem, b) := by
      rw [openTail, spans.tail, if_neg (by simp)]
    rw [bytebufferAppend, spans.writable.2, if_neg Bool.false_ne_true, copyOnWrite,
      spans.writable.1, if_neg Bool.false_ne_true]
    simp only [bind_eq_bind, bind_some, opened]
  have cursor : Cursor lo holders ⟨addr, payload, mem, hi⟩ b i :=
    { spans with room := spans.appendPos ▸ Nat.zero_le _ }
  obtain ⟨t, grown, k, ran, placed, inside, -⟩ := append_anywhere junk v.length v le_rfl
    ⟨addr, payload, mem, hi⟩ b i cursor spans.small
  have whole (s : Strand) (upper : i ≤ s.hi) :
      s.bytes lo = bytesFrom s.payload lo i ++ bytesFrom s.payload i s.hi :=
    bytes_from_append s.payload spans.lower upper
  have upper := spans.upper.trans_le placed.longer
  have old := whole ⟨addr, payload, mem, hi⟩ spans.upper.le
  have new := whole t upper.le
  have before : (bytesFrom t.payload lo i).length = (bytesFrom payload lo i).length :=
    length_bytes_same lo fun k _ small => placed.sizes k (Nat.lt_trans small spans.upper)
  have place : Strand.offset ⟨addr, payload, mem, hi⟩ lo i b.appendPos =
      (bytesFrom payload lo i).length := by
    rw [Strand.offset, spans.appendPos, Nat.add_zero]
  have front := placed.front
  have behind := placed.behind
  rw [place, old, new, ← before, take_length_add_append, before, take_left] at front
  rw [place, old, new, ← drop_drop, ← drop_drop, drop_left, ← before,
    drop_left] at behind
  have taken := (append_inj front before).2
  have stored := take_append_drop v.length (bytesFrom t.payload i t.hi)
  rw [taken] at stored
  rw [called, ran]
  refine ⟨t.mem, grown, rfl, by rw [placed.buffer], by rw [placed.buffer], by rw [placed.buffer],
    t.addr, t.payload, lo, t.hi, holders, placed.cursor.chain, spans.lower, upper, ?_, ?_, ?_,
    fun fits => ?_⟩
  · rw [placed.places i spans.upper, spans.head]
  · exact placed.sizes i spans.upper
  · rw [← stored]
    exact (prefix_append_right_inj v).mpr behind
  · rw [old, length_append, place, Nat.add_le_add_iff_left] at inside
    have same : (bytesFrom t.payload i t.hi).length = (bytesFrom payload i hi).length := by
      rw [inside fits]
      exact length_bytes_same i fun k _ small => placed.sizes k small
    rw [← stored, behind.eq_of_length (by rw [length_drop, length_drop, same])]

theorem Overlaid.read_prefix {size : Nat} {old v out : List Byte} {after : Memory}
    {grown : ByteBuffer} (overlaid : Overlaid b i size old v after grown)
    (inside : b.spos ≤ size) {count : Nat} (read : bytebufferRead after grown 0 count = some out) :
    ∃ more, out <+: (v ++ old.drop v.length ++ more).drop b.spos ∧
      (v.length ≤ old.length → more = []) := by
  obtain ⟨addr, payload, lo, hi, holders, chain, lower, upper, head, length,
    ⟨more, whole⟩, exact_⟩ := overlaid.chain
  refine ⟨more, ?_, fun fits => ?_⟩
  · rw [bytebufferRead, if_neg (Nat.not_lt_zero _), overlaid.head, head, if_neg (by simp),
      overlaid.spos] at read
    have sought : seekLoop after (after.fresh + 1) (some (addr i)) b.spos 0 =
        some (some (addr i), b.spos) := by
      simp [seekLoop]
    rw [sought, ← link_inside addr upper] at read
    have copied := copy_out_prefix chain.segment (after.fresh + 1) i b.spos _ out lower
      (fun _ => length ▸ inside) read
    rwa [whole]
  · have all := exact_ fits
    rw [← whole] at all
    exact append_right_eq_self.mp all

theorem view_end_fixed {n spos : Nat} {old : List Byte} (positive : 0 < n)
    (shows : ∀ v : List Byte, v.length = n → L ++ v <+: (v ++ old.drop n).drop spos) :
    spos = 0 ∧ L = [] := by
  have last : 0 < spos + L.length → ∀ x : Byte, (old.drop n)[spos + L.length - 1]? = some x := by
    intro some_ x
    have seen := prefix_iff_getElem?.mp (shows (List.replicate n x) length_replicate)
      (L.length + n - 1) (by rw [length_append, length_replicate]; omega)
    rw [getElem_append_right (by omega), getElem_replicate, getElem?_drop,
      getElem?_append_right (by rw [length_replicate]; omega),
      length_replicate] at seen
    rw [← seen]
    congr 1
    omega
  rcases Nat.eq_zero_or_pos (spos + L.length) with none | some_
  · exact ⟨by omega, length_eq_zero_iff.mp (by omega)⟩
  · exact absurd ((last some_ 0).symm.trans (last some_ 1)) (by decide)

theorem view_start_moved {n spos : Nat} (inside : spos + L.length < n)
    (shows : ∀ v : List Byte, v.length = n → ∃ more, L ++ v <+: (v ++ more).drop spos) :
    spos = 0 ∧ L = [] := by
  have first : ∀ x y : Byte, (L ++ [x])[0]? = if spos = 0 then some x else some y := by
    intro x y
    obtain ⟨more, seen⟩ := shows (x :: List.replicate (n - 1) y) (by
      rw [length_cons, length_replicate]; omega)
    have start := prefix_iff_getElem?.mp seen 0 (by
      rw [length_append, length_cons]; omega)
    rw [getElem?_drop, getElem?_append_left (by
      rw [length_cons, length_replicate]; omega), Nat.add_zero] at start
    have same : (L ++ [x])[0]? = (x :: List.replicate (n - 1) y)[spos]? := by
      rw [start]
      cases L <;> rfl
    rw [same]
    cases spos with
    | zero => rfl
    | succ spos =>
      rw [getElem?_cons_succ, getElem?_replicate, if_pos (by omega), if_neg nofun]
  cases L with
  | nil =>
    refine ⟨?_, rfl⟩
    by_contra moved
    have := first 0 1
    rw [if_neg moved] at this
    exact absurd this (by decide)
  | cons byte rest =>
    have one := first 0 0
    have two := first 1 1
    rw [ite_self] at one two
    exact absurd (one.symm.trans two) (by decide)

def Appends (mem : Memory) (b : ByteBuffer) (L : List Byte) (n : Nat) : Prop :=
  ∀ v : List Byte, v.length = n → ∃ after grown,
    bytebufferAppend junk mem b v = some (.ok, after, grown) ∧
      grown.datasize = (L ++ v).length ∧
      bytebufferRead after grown 0 (L ++ v).length = some (L ++ v)

theorem Spans.read (spans : Spans addr payload mem lo hi holders i b L) :
    bytebufferRead mem b 0 b.datasize = some L := by
  rw [read_view spans.chain.segment spans.lower spans.upper spans.head spans.inside spans.counted
    spans.view, spans.counted, drop_zero, take_length]

theorem spans_appends_iff (spans : Spans addr payload mem lo hi holders i b L) {n : Nat}
    (sized : n < 2 ^ 32) : Appends junk mem b L n ↔ n = 0 ∨ b.spos = 0 ∧ L = [] := by
  constructor
  · intro appends
    rcases Nat.eq_zero_or_pos n with none | positive
    · exact .inl none
    refine .inr ?_
    have shows : ∀ v : List Byte, v.length = n → ∃ more,
        L ++ v <+: (v ++ (bytesFrom payload i hi).drop n ++ more).drop b.spos ∧
          (n ≤ (bytesFrom payload i hi).length → more = []) := by
      intro v size
      obtain ⟨after, grown, ran, -, read⟩ := appends v size
      obtain ⟨after', grown', ran', overlaid⟩ := append_overlays junk spans v
      rw [ran, Option.some.injEq, Prod.mk.injEq, Prod.mk.injEq] at ran'
      obtain ⟨-, rfl, rfl⟩ := ran'
      rw [← size]
      exact overlaid.read_prefix spans.inside read
    by_cases fits : n ≤ (bytesFrom payload i hi).length
    · apply view_end_fixed positive
      intro v size
      obtain ⟨more, seen, none⟩ := shows v size
      rwa [none fits, append_nil] at seen
    · have view := spans.view.length_le
      have first : (payload i).length ≤ (bytesFrom payload i hi).length := by
        rw [bytes_from_cons payload spans.upper, length_append]
        omega
      have inside := spans.inside
      rw [length_drop] at view
      have narrow : b.spos + L.length < n := by omega
      apply view_start_moved narrow
      intro v size
      obtain ⟨more, seen, -⟩ := shows v size
      rw [append_assoc] at seen
      exact ⟨_, seen⟩
  · intro empty v size
    obtain ⟨after, grown, ran, overlaid⟩ := append_overlays junk spans v
    obtain ⟨addr', payload', lo', hi', holders', chain, lower, upper, head, length,
      whole, exact_⟩ := overlaid.chain
    refine ⟨after, grown, ran, ?_⟩
    have counted : grown.datasize = (L ++ v).length := by
      have small := spans.small
      rw [overlaid.datasize, length_append, ← spans.counted]
      refine Nat.mod_eq_of_lt ?_
      rcases empty with none | ⟨-, rfl⟩
      · omega
      · rw [spans.counted, length_nil]
        omega
    have view : L ++ v <+: (bytesFrom payload' i hi').drop grown.spos := by
      rw [overlaid.spos]
      rcases empty with none | ⟨start, rfl⟩
      · obtain rfl : v = [] := length_eq_zero_iff.mp (size.trans none)
        rw [exact_ (Nat.zero_le _), append_nil, nil_append]
        exact spans.view
      · rw [start, drop_zero]
        exact (prefix_append _ _).trans whole
    refine ⟨counted, ?_⟩
    rw [read_view chain.segment lower upper (overlaid.head.trans head)
      (by rw [overlaid.spos, length]; exact spans.inside) counted view, drop_zero,
      take_length]

end Appending

/-! ## The ways to build one -/

def Roomy (mem : Memory) : Prop :=
  ∀ address chunk, mem.cells address = some chunk → 0 < chunk.payload.length

/-- A writable buffer made over existing chunks, and its content. A buffer starts inside
its first chunk. -/
inductive BuiltOver (junk : Nat → Nat → Byte) : Memory → ByteBuffer → List Byte → Prop where
  | byChunk {addr : Nat → Nat} {payload : Nat → List Byte} {mem after : Memory} {lo hi : Nat}
      {holders : List Nat} {i spos datasize : Nat} {b : ByteBuffer} (roomy : Roomy mem)
      (chain : Chain addr payload mem lo hi holders) (lower : lo ≤ i) (upper : i < hi)
      (inside : spos ≤ (payload i).length)
      (within : spos + datasize ≤ (bytesFrom payload i hi).length) (small : datasize < 2 ^ 32)
      (made : bytebufferNewBychunk junk mem (some (addr i)) spos datasize = some (after, b)) :
      BuiltOver junk after b (((bytesFrom payload i hi).drop spos).take datasize)
  | packet {mem after : Memory} {d next : PacketDecoder} {pending : List Byte} {b : ByteBuffer}
      (roomy : Roomy mem) (state : Pending mem d pending)
      (unpacked : packetDecoderUnpack junk mem d = some (.packet b, after, next)) :
      BuiltOver junk after b (pending.take b.datasize)
  | text {mem after : Memory} {str : List Byte} {b : ByteBuffer}
      (made : luaNewBytebuffer junk mem (.text str) = some (after, b)) :
      BuiltOver junk after b (str.take (str.length % 2 ^ 32))

section Building

variable {junk : Nat → Nat → Byte}

theorem Roomy.solid {mem : Memory} (roomy : Roomy mem) {addr : Nat → Nat}
    {payload : Nat → List Byte} {lo hi : Nat} {holders : List Nat} {extra : Nat}
    (segment : Segment addr payload mem lo hi holders extra) (k : Nat) (lower : lo ≤ k)
    (upper : k < hi) : 0 < (payload k).length :=
  roomy _ _ (segment.cell k lower upper)

theorem packet_spans {mem after : Memory} {d next : PacketDecoder} {pending : List Byte}
    {b : ByteBuffer} (roomy : Roomy mem) (state : Pending mem d pending)
    (unpacked : packetDecoderUnpack junk mem d = some (.packet b, after, next)) :
    ∃ addr payload lo hi holders i,
      Spans addr payload after lo hi holders i b (pending.take b.datasize) := by
  rcases state.unpack junk with ⟨other, ran, none⟩ |
    ⟨total, size, -, -, less, addr, payload, hi, i, others, held, -, inside, view, moved, j, spos,
      ran, past, holding⟩
  · rw [unpacked] at ran
    exact absurd (congrArg Prod.fst (Option.some.inj ran)).symm (none b)
  simp only [unpacked, Option.some.injEq, Prod.mk.injEq, Unpacked.packet.injEq] at ran
  obtain ⟨rfl, rfl, -⟩ := ran
  obtain ⟨lo, chain⟩ := held.chain mem_cons_self
  obtain ⟨least, finalChain⟩ := holding.chain mem_cons_self
  have above : lo ≤ least := by
    have first := (chain.segment.inside i mem_cons_self).1
    rcases mem_cons.mp finalChain.first with rfl | later
    · exact first
    · rcases mem_append.mp later with ahead | kept
      · rw [link] at ahead
        rw [mem_ite_nil_right, mem_singleton] at ahead
        rw [ahead.2]
        exact first.trans past.lower
      · exact (chain.segment.inside least (mem_cons_of_mem i kept)).1
  refine ⟨addr, payload, least, hi, _, i, finalChain, fun k low high => ?_,
    (finalChain.segment.inside i mem_cons_self).1, held.inside mem_cons_self, rfl, rfl,
    rfl, ⟨rfl, rfl⟩, inside, ?_, ?_, (List.take_prefix _ _).trans view⟩
  · exact roomy.solid chain.segment k (above.trans low) high
  · rw [length_take, ← state.counted, Nat.min_eq_left less]
  · exact size ▸ Nat.mod_lt _ (Nat.two_pow_pos 32)

theorem text_spans {mem after : Memory} {str : List Byte} {b : ByteBuffer}
    (made : luaNewBytebuffer junk mem (.text str) = some (after, b)) :
    ∃ addr payload lo hi holders i,
      Spans addr payload after lo hi holders i b (str.take (str.length % 2 ^ 32)) := by
  rw [luaNewBytebuffer] at made
  generalize cut : str.length % 2 ^ 32 = size at made ⊢
  have taken : (str.take size).length = size := by
    rw [length_take]
    omega
  by_cases fits : size ≤ (rawData junk mem size).length
  · have copied : splice (rawData junk mem size) 0 (str.take size) =
        some (str.take size ++ (rawData junk mem size).drop size) := by
      rw [splice, if_pos (by omega), take_zero, nil_append, Nat.zero_add, taken]
    generalize content : str.take size ++ (rawData junk mem size).drop size = data at copied
    obtain ⟨both, retained, -, -, heldBoth⟩ :=
      (Chain.alloc mem 0 data).retain (Nat.le_refl 0) Nat.zero_lt_one
    obtain ⟨left, released, -, -, rest⟩ := heldBoth.release
    have alone := rest 0 mem_cons_self (fun _ _ => Nat.zero_le _)
    simp only [bytechunkNewFrom, copied, map_some, bind_eq_bind, bind_some,
      bytebufferInit, retained, bytechunkRelease, released, Option.some.injEq,
      Prod.mk.injEq] at made
    obtain ⟨rfl, rfl⟩ := made
    have bytes : bytesFrom (fun _ => data) 0 1 = data := bytes_from_single _ 0
    refine ⟨_, _, 0, 1, [0], 0, alone, fun k _ _ => ?_, Nat.le_refl 0, Nat.zero_lt_one, rfl, rfl,
      rfl, ⟨rfl, rfl⟩, Nat.zero_le _, taken.symm, ?_, ?_⟩
    · have room := chunk_cap_pos size
      rw [← content, length_append, length_drop, taken, length_raw_data]
      omega
    · rw [← cut]
      exact Nat.mod_lt _ (Nat.two_pow_pos 32)
    · rw [bytes, drop_zero, ← content]
      exact prefix_append _ _
  · have none : splice (rawData junk mem size) 0 (str.take size) = Option.none :=
      if_neg (by omega)
    rw [bytechunkNewFrom, none] at made
    cases made

theorem built_spans {mem : Memory} {b : ByteBuffer} {L : List Byte}
    (built : BuiltOver junk mem b L) :
    ∃ addr payload lo hi holders i, Spans addr payload mem lo hi holders i b L := by
  cases built with
  | @byChunk addr payload mem after lo hi holders i spos datasize b roomy chain lower upper inside
      within small made =>
      obtain ⟨shared, retained, -, -, held⟩ := chain.retain lower upper
      rw [bytebufferNewBychunk, bytebufferInit] at made
      simp only [retained, map_some, Option.some.injEq, Prod.mk.injEq] at made
      obtain ⟨rfl, rfl⟩ := made
      refine ⟨addr, payload, lo, hi, _, i, held, roomy.solid chain.segment, lower, upper, rfl, rfl,
        rfl, ⟨rfl, rfl⟩, inside, ?_, small, take_prefix _ _⟩
      rw [length_take, length_drop]
      dsimp only
      omega
  | packet roomy state unpacked => exact packet_spans roomy state unpacked
  | text made => exact text_spans made

/-- Appending to a buffer over existing chunks puts the bytes behind its content only if
there are none, or if the buffer is empty and stands at the start of its first chunk. -/
theorem append_over_chunks_iff (junk : Nat → Nat → Byte) {mem : Memory} {b : ByteBuffer}
    {L : List Byte} (built : BuiltOver junk mem b L) {n : Nat} (sized : n < 2 ^ 32) :
    b.readOnly = false ∧ bytebufferRead mem b 0 b.datasize = some L ∧
      (Appends junk mem b L n ↔ n = 0 ∨ b.spos = 0 ∧ b.datasize = 0) := by
  obtain ⟨addr, payload, lo, hi, holders, i, spans⟩ := built_spans built
  refine ⟨spans.writable.2, spans.read, (spans_appends_iff junk spans sized).trans ?_⟩
  rw [spans.counted, length_eq_zero_iff]

/-- A buffer made of the empty string. -/
theorem empty_text_appends :
    ∃ mem b, BuiltOver (fun _ _ => 0) mem b [] ∧ Appends (fun _ _ => 0) mem b [] 5 := by
  have made : ((luaNewBytebuffer (fun _ _ => 0) ⟨fun _ => none, 0⟩ (.text [])).map
      fun made => (made.2.spos, made.2.datasize)) = some (0, 0) := by decide +kernel
  obtain ⟨⟨mem, b⟩, built, fields⟩ := map_eq_some_iff.mp made
  have empty : b.spos = 0 ∧ b.datasize = 0 := Prod.mk.inj fields
  have over_ := BuiltOver.text built
  have appends := (append_over_chunks_iff (fun _ _ => 0) over_ (n := 5) (by decide)).2.2
  exact ⟨mem, b, over_, appends.mpr (.inr empty)⟩

/-- `buffer.New("ab")` followed by an append of `c`. -/
theorem append_overwrites_text :
    ((luaNewBytebuffer (fun _ _ => 0) ⟨fun _ => none, 0⟩ (.text [97, 98])).bind fun (mem, b) =>
      bytebufferRead mem b 0 b.datasize) = some [97, 98] ∧
    ((luaNewBytebuffer (fun _ _ => 0) ⟨fun _ => none, 0⟩ (.text [97, 98])).bind fun (mem, b) =>
      (bytebufferAppend (fun _ _ => 0) mem b [99]).bind fun (code, mem, b) =>
        (bytebufferRead mem b 0 b.datasize).map fun out => (code, out)) =
      some (.ok, [99, 98, 0]) := by
  decide +kernel

end Building

end Chuck.ByteBufferOverChunks
