import Chuck.ByteBufferRefinement
import Chuck.ChunkSizes

/-!
# Copies on write

`chk_bytebuffer_do_copy` takes `cap` bytes from the first chunk too, where only
`cap - spos` are left behind the start of the content. The copy is right if the content
starts with its chunk or ends in it.
-/

namespace Chuck.ByteBufferCopies

open Support.SharedChain Support.PartialQueue ByteChunkModel ByteChainReading ByteChainAppending
open ByteBufferRefinement ChunkSizes List

section Copying

variable {addr : Nat → Nat} {payload : Nat → List Byte} {mem : Memory} {lo hi : Nat}
  {holders : List Nat} {extra : Nat}

theorem splice_behind (front back v : List Byte) (room : v.length ≤ back.length) :
    splice (front ++ back) front.length v = some (front ++ v ++ back.drop v.length) := by
  rw [splice, if_pos (by rw [length_append]; omega), take_left,
    drop_length_add_append]

/-- `out` is stored behind `front` in the new chunk, if it finds place there. -/
def Stores (curr : Nat) (done : Memory) (front back out : List Byte) (result : Option Memory) :
    Prop :=
  (out.length ≤ back.length → ∃ after, result = some after ∧
    after.cells curr = some ⟨1, none, front ++ (out ++ back.drop out.length)⟩ ∧
      after.fresh = done.fresh ∧ ∀ a, a ≠ curr → after.cells a = done.cells a) ∧
  (back.length < out.length → result = none)

theorem stores_nothing {curr fuel i spos n : Nat} {done : Memory} {front back : List Byte}
    (ended : hi ≤ i) (target : done.cells curr = some ⟨1, none, front ++ back⟩) :
    Stores curr done front back (((bytesFrom payload i hi).drop spos).take n)
      (copyLoop mem curr fuel done (linkTo addr hi i) front.length spos n) := by
  rw [bytes_from_empty payload ended, drop_nil, take_nil, linkTo,
    if_neg (not_lt.mpr ended)]
  exact ⟨fun _ => ⟨done, by cases fuel <;> rfl, target, rfl, fun _ _ => rfl⟩,
    fun full => absurd full (Nat.not_lt_zero _)⟩

section Loop

variable (segment : Segment addr payload mem lo hi holders extra) {curr : Nat}

include segment

theorem copy_loop (fuel i spos n : Nat) (done : Memory) (front back : List Byte) (lower : lo ≤ i)
    (inside : i < hi → spos = 0 ∨ spos + n ≤ (payload i).length) (fueled : hi - i ≤ fuel)
    (target : done.cells curr = some ⟨1, none, front ++ back⟩) :
    Stores curr done front back (((bytesFrom payload i hi).drop spos).take n)
      (copyLoop mem curr fuel done (linkTo addr hi i) front.length spos n) := by
  induction fuel generalizing i spos n done front back with
  | zero => exact stores_nothing (by omega) target
  | succ fuel ih =>
    by_cases upper : i < hi
    · obtain ⟨count, cell⟩ := cell_at segment lower upper
      have size : min (payload i).length n = min ((payload i).length - spos) n := by
        rcases inside upper with rfl | short
        · rfl
        · omega
      have start : spos ≤ (payload i).length := by
        rcases inside upper with rfl | short <;> omega
      rw [link_inside addr upper, copyLoop, bytes_from_cons payload upper,
        take_drop_append _ _ start, ← size]
      simp only [cell, Option.bind_eq_bind, Option.bind_some, target]
      rw [slice_inside (by omega), Option.bind_some]
      generalize out : ((payload i).drop spos).take (min (payload i).length n) = v
      have length : min (payload i).length n = v.length := by
        rw [← out, length_take, length_drop]
        omega
      rw [length]
      by_cases room : v.length ≤ back.length
      · obtain ⟨success, failure⟩ := ih (i + 1) 0 (n - v.length)
          (done.set curr (some ⟨1, none, front ++ v ++ back.drop v.length⟩)) (front ++ v)
          (back.drop v.length) (by omega) (fun _ => .inl rfl) (by omega) (Heap.set_same ..)
        rw [drop_zero, @length_append _ front, length_drop] at success failure
        rw [splice_behind _ _ _ room, Stores, length_append]
        refine ⟨fun fits => ?_, fun full => failure (by omega)⟩
        obtain ⟨after, ran, filled, fresh, others⟩ := success (by omega)
        refine ⟨after, ran, ?_, fresh, fun a other => ?_⟩
        · rw [filled, drop_drop]
          simp only [append_assoc]
        · rw [others a other, Heap.set_other _ _ other]
      · rw [splice, if_neg (by rw [length_append]; omega), Stores, length_append]
        exact ⟨fun fits => absurd fits (by omega), fun _ => rfl⟩
    · exact stores_nothing (by omega) target

end Loop

variable (junk : Nat → Nat → Byte) {i : Nat} {b : ByteBuffer} {L : List Byte}

/-- `copy` holds the bytes `L` from the start of a new chunk of its own on. -/
structure Duplicates (mem : Memory) (b : ByteBuffer) (L : List Byte) (after : Memory)
    (copy : ByteBuffer) : Prop where
  data : ∃ back, (L ++ back).length = chunkCap L.length ∧
    Holding (fun _ => mem.fresh) (fun _ => L ++ back) after 0 1 0 [] copy L
  buffer : copy = { b with
    spos := 0, head := some mem.fresh, tail := some mem.fresh, appendPos := L.length
    needCopyOnWrite := false }
  others : ∀ a, a ≠ mem.fresh → after.cells a = mem.cells a

/-- The new chunk after the loop. -/
theorem duplicates_stored {after : Memory} {back : List Byte} (counted : b.datasize = L.length)
    (small : L.length < 2 ^ 32) (fresh : after.fresh = mem.fresh + 1)
    (filled : after.cells mem.fresh = some ⟨1, none, L ++ back⟩)
    (room : (L ++ back).length = chunkCap L.length)
    (others : ∀ a, a ≠ mem.fresh → after.cells a = mem.cells a) :
    Duplicates mem b L after { b with
      spos := 0, head := some mem.fresh, tail := some mem.fresh, appendPos := b.datasize
      needCopyOnWrite := false } := by
  have solid : 0 < (L ++ back).length := room ▸ chunk_cap_pos _
  have stored : storedFrom (fun _ => L ++ back) 0 1 L.length = L := by
    rw [storedFrom, bytes_from_empty _ (Nat.le_refl 0), nil_append, take_left]
  refine ⟨⟨back, room, ⟨⟨⟨⟨fun k _ below => ?_, fun _ _ _ _ _ _ _ => by omega, fun _ _ _ => ?_, ?_⟩,
    mem_singleton_self 0⟩, fun _ _ _ => solid, rfl, ?_⟩, rfl, solid, Nat.zero_le _, ?_, counted,
    small⟩⟩, by rw [counted], others⟩
  · obtain rfl : k = 0 := by omega
    exact filled
  · rw [fresh]
    exact Nat.lt_succ_self _
  · intro k member
    rw [mem_singleton.mp member]
    omega
  · rw [length_append, counted]
    exact Nat.le_add_right _ _
  · rw [counted]
    exact stored

/-- The loop takes a whole capacity from the first chunk too, so a buffer that starts inside
it must end there; and the new chunk is large enough up to `2 ^ 31` bytes. -/
theorem do_copy_iff (laid : LaidOut addr payload mem lo hi holders 0 i b L)
    (small : L.length < 2 ^ 32) :
    (∃ after copy, bytebufferDoCopy junk mem b = some (after, copy) ∧
      Duplicates mem b L after copy) ↔
    (b.spos = 0 ∨ b.spos + b.datasize ≤ (payload i).length) ∧ b.datasize ≤ 2 ^ 31 := by
  obtain ⟨start, grown⟩ : ∃ start, start = (mem.alloc (rawData junk mem b.datasize)).2 := ⟨_, rfl⟩
  have counted := laid.counted
  have raw : (rawData junk mem b.datasize).length = chunkCap b.datasize := length_raw_data junk _
  have fits := le_chunk_cap_iff small
  have segment := laid.chain.segment.alloc (rawData junk mem b.datasize)
  have fuel := segment.length_le
  have lower := laid.lower
  have content : ((bytesFrom payload i hi).drop b.spos).take b.datasize = L := by
    rw [counted]
    exact (prefix_iff_eq_take.mp laid.view).symm
  have target : start.cells mem.fresh = some ⟨1, none, [] ++ rawData junk mem b.datasize⟩ := by
    rw [grown]
    exact Heap.set_same ..
  have copied : bytebufferDoCopy junk mem b =
      (copyLoop start mem.fresh (start.fresh + 1) start (linkTo addr hi i) 0 b.spos b.datasize).bind
        fun done => some (done, { b with
          spos := 0, head := some mem.fresh, tail := some mem.fresh, appendPos := b.datasize
          needCopyOnWrite := false }) := by
    rw [link_inside addr laid.upper, ← laid.head, grown]
    rfl
  rw [← grown] at segment fuel
  rw [← counted] at fits
  have loop (inside : b.spos = 0 ∨ b.spos + b.datasize ≤ (payload i).length) :=
    copy_loop segment (start.fresh + 1) i b.spos b.datasize start [] (rawData junk mem b.datasize)
      lower (fun _ => inside) (by omega) target
  rw [content, length_nil] at loop
  rw [copied]
  constructor
  · rintro ⟨after, copy, ran, -⟩
    by_cases inside : b.spos = 0 ∨ b.spos + b.datasize ≤ (payload i).length
    · refine ⟨inside, fits.mp (not_lt.mp fun full => ?_)⟩
      rw [(loop inside).2 (by omega)] at ran
      cases ran
    · -- the first round reads beyond its chunk
      obtain ⟨count, cell⟩ := cell_at segment lower laid.upper
      rw [link_inside addr laid.upper, copyLoop] at ran
      simp only [cell, Option.bind_eq_bind, Option.bind_some] at ran
      rw [slice, if_neg (by omega)] at ran
      cases ran
  · rintro ⟨inside, few⟩
    have room := fits.mpr few
    obtain ⟨after, ran, filled, fresh, others⟩ := (loop inside).1 (by omega)
    refine ⟨after, _, by rw [ran]; rfl, duplicates_stored counted small ?_ filled ?_ fun a other =>
      ?_⟩
    · rw [fresh, grown]
      rfl
    · rw [length_append, length_drop, ← counted]
      omega
    · rw [others a other, grown]
      exact Heap.set_other _ _ other

/-- The copy can be appended to and rewritten like any private buffer. -/
theorem Duplicates.owns {after : Memory} {copy : ByteBuffer}
    (copied : Duplicates mem b L after copy) (writable : b.readOnly = false) :
    Owns after copy L := by
  obtain ⟨back, -, holding⟩ := copied.data
  refine ⟨?_, ?_, .inr ⟨_, _, 0, 1, holding⟩⟩
  · rw [copied.buffer]
  · rw [copied.buffer]
    exact writable

def partlyReadClone : Option (Memory × ByteBuffer) := do
  let (mem, b) ← bytebufferNew (fun _ _ => 0) ⟨fun _ => none, 0⟩ 0
  let (_, mem, b) ← bytebufferAppend (fun _ _ => 0) mem b (List.replicate 60 7)
  let (_, mem, b) ← bytebufferReadDrain mem b 1
  bytebufferClone (fun _ _ => 0) mem b

/-- The clone can be read, but not copied. -/
theorem partly_read_clone_overread :
    (partlyReadClone.bind fun (mem, b) => bytebufferRead mem b 0 b.datasize) =
      some (List.replicate 59 7) ∧
    (partlyReadClone.map fun (mem, b) => (bytebufferDoCopy (fun _ _ => 0) mem b).isNone) =
      some true := by
  decide +kernel

/-- A chunk and a byte of the next one. -/
theorem two_chunks_copied :
    ∃ after copy, bytebufferDoCopy (fun _ _ => 0) (twoChunks [1, 2, 3] [4, 5, 6])
        ⟨0, 4, 0, 0, some 0, some 1, true, false⟩ = some (after, copy) ∧
      Duplicates (twoChunks [1, 2, 3] [4, 5, 6]) ⟨0, 4, 0, 0, some 0, some 1, true, false⟩
        [1, 2, 3, 4] after copy :=
  (do_copy_iff (fun _ _ => 0) ⟨two_chunks_chain _ _, Nat.le_refl 0, by decide,
    fun _ _ _ => Nat.zero_le _, rfl, by decide, rfl, by decide⟩ (by decide)).mpr
    ⟨.inl rfl, by decide⟩

end Copying

end Chuck.ByteBufferCopies
