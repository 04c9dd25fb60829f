import Chuck.Support.PartialQueue
import Chuck.StreamSocketModel

/-!
# Send lists as queues of bytes

`prepare_send` offers the first bytes of one list, cut off by the limits on
iovecs and bytes, and `update_send_list` takes the bytes that were written off
the front of a list, chunk by chunk.
-/

namespace Chuck.StreamSendList

open Support.PartialQueue StreamSocketModel List

variable {Data : Type}

/-- A buffer with something to send: its bytes lie in its chunks, the first one
in the first chunk. -/
structure Sound (b : SendBuffer Data) : Prop where
  some : 0 < b.datasize
  inside : b.spos + b.datasize ≤ b.chunks.flatten.length
  first : ∀ chunk ∈ b.chunks.head?, b.spos < chunk.length
  full : ∀ chunk ∈ b.chunks, chunk ≠ []

def contents (list : List (SendBuffer Data)) : List (List Data) := list.map SendBuffer.content

/-- A list of which `used` has been sent of the first buffer; `internal` keeps the
size it had. -/
structure Queued (used : List Data) (list : List (SendBuffer Data)) : Prop where
  sound : ∀ b ∈ list, Sound b
  counted : list.map SendBuffer.internal = (wholes used (contents list)).map List.length
  started : used ≠ [] → list ≠ []

variable {b : SendBuffer Data}

theorem Sound.length_content (sound : Sound b) : b.content.length = b.datasize := by
  have inside := sound.inside
  rw [SendBuffer.content, length_take, length_drop]
  omega

theorem Sound.content_ne (sound : Sound b) : b.content ≠ [] := by
  have some := sound.some
  rw [← sound.length_content] at some
  exact length_pos_iff.mp some

/-! ## Taking bytes off -/

theorem advance_inside (chunks : List (List Data)) (spos bytes : Nat)
    (first : ∀ chunk ∈ chunks.head?, spos < chunk.length) (full : ∀ chunk ∈ chunks, chunk ≠ [])
    (less : spos + bytes < chunks.flatten.length) :
    ∃ rest pos, advance chunks spos bytes = some (rest, pos) ∧
      rest.flatten.drop pos = chunks.flatten.drop (spos + bytes) ∧
      (∀ chunk ∈ rest.head?, pos < chunk.length) ∧ ∀ chunk ∈ rest, chunk ≠ [] := by
  induction chunks generalizing spos bytes with
  | nil => exact absurd less (Nat.not_lt_zero _)
  | cons head next ih =>
    cases bytes with
    | zero => exact ⟨head :: next, spos, by simp [advance], rfl, first, full⟩
    | succ bytes =>
      have inside := first head rfl
      have later : ∀ chunk ∈ next, chunk ≠ [] := (forall_mem_cons.mp full).2
      rw [flatten_cons, length_append] at less
      rw [advance]
      by_cases across : spos + (bytes + 1) ≥ head.length
      · rw [Nat.min_eq_left (by omega), if_pos (by omega)]
        have start : ∀ chunk ∈ next.head?, 0 < chunk.length := fun chunk member =>
          length_pos_iff.mpr (later chunk (mem_of_mem_head? member))
        obtain ⟨rest, pos, ran, same, ahead, solid⟩ :=
          ih 0 (bytes + 1 - (head.length - spos)) start later (by omega)
        refine ⟨rest, pos, ran, ?_, ahead, solid⟩
        rw [same, flatten_cons, drop_append, drop_of_length_le across,
          nil_append]
        congr 1
        omega
      · rw [Nat.min_eq_right (by omega), if_neg (by omega)]
        refine ⟨head :: next, spos + (bytes + 1), rfl, rfl, fun chunk member => ?_, full⟩
        obtain rfl := Option.some.inj member
        omega

theorem advance_buffer (sound : Sound b) {n : Nat} (less : n < b.datasize) :
    ∃ rest pos, advance b.chunks b.spos n = some (rest, pos) ∧
      Sound { b with chunks := rest, spos := pos, datasize := b.datasize - n } ∧
      SendBuffer.content { b with chunks := rest, spos := pos, datasize := b.datasize - n } =
        b.content.drop n := by
  have inside := sound.inside
  obtain ⟨rest, pos, ran, same, ahead, full⟩ :=
    advance_inside b.chunks b.spos n sound.first sound.full (by omega)
  have lengths := congrArg List.length same
  rw [length_drop, length_drop] at lengths
  refine ⟨rest, pos, ran, ⟨?_, ?_, ahead, full⟩, ?_⟩
  · simp only
    omega
  · simp only
    omega
  · rw [SendBuffer.content, SendBuffer.content, same, ← drop_drop, drop_take]

section Popping

variable {used : List Data} {list : List (SendBuffer Data)}

theorem Queued.full (queued : Queued used list) : ∀ item ∈ contents list, item ≠ [] := by
  intro item member
  obtain ⟨b, here, rfl⟩ := mem_map.mp member
  exact (queued.sound b here).content_ne

theorem Queued.nil : Queued ([] : List Data) [] :=
  ⟨nofun, rfl, fun some => absurd rfl some⟩

variable {b : SendBuffer Data}

theorem Queued.head (queued : Queued used (b :: list)) : b.internal = used.length + b.datasize := by
  have counted := (List.cons.inj queued.counted).1
  rw [counted, length_append, (queued.sound b mem_cons_self).length_content]

theorem Queued.tail (queued : Queued used (b :: list)) : Queued [] list := by
  refine ⟨fun c member => queued.sound c (mem_cons_of_mem _ member), ?_,
    fun some => absurd rfl some⟩
  rw [wholes_unused]
  exact (List.cons.inj queued.counted).2

theorem Queued.push (queued : Queued used list) (sound : Sound b) :
    Queued used (list ++ [{ b with internal := b.datasize }]) := by
  have again : Sound { b with internal := b.datasize } :=
    { sound with }
  refine ⟨fun c member => ?_, ?_, fun _ => by simp⟩
  · rcases mem_append.mp member with old | new
    · exact queued.sound c old
    · rw [mem_singleton.mp new]
      exact again
  · have started : used ≠ [] → contents list ≠ [] := fun some =>
      fun none => queued.started some (map_eq_nil_iff.mp none)
    rw [contents, map_append, map_append, ← contents, map_singleton,
      map_singleton, wholes_push used _ started, map_append, ← queued.counted,
      map_singleton, again.length_content]

theorem pop_sent (queued : Queued used list) {n : Nat}
    (enough : n ≤ (contents list).flatten.length) :
    ∃ rest, popSent list n = some rest ∧ contents rest = (spend n used (contents list)).2.2 ∧
      Queued (spend n used (contents list)).2.1 rest := by
  induction list generalizing n used with
  | nil =>
    obtain rfl : n = 0 := Nat.le_zero.mp enough
    exact ⟨[], rfl, rfl, queued⟩
  | cons b list ih =>
    cases n with
    | zero =>
      rw [spend_zero used queued.full]
      exact ⟨b :: list, rfl, rfl, queued⟩
    | succ n =>
      have sound := queued.sound b mem_cons_self
      have long := sound.length_content
      rw [contents, map_cons, ← contents] at enough ⊢
      rw [flatten_cons, length_append] at enough
      rw [popSent, spend, long]
      by_cases whole : n + 1 ≥ b.datasize
      · rw [if_pos whole, if_neg (by omega)]
        exact ih queued.tail (by omega)
      obtain ⟨rest, pos, ran, again, left⟩ :=
        advance_buffer sound (show n + 1 < b.datasize by omega)
      have taken : (b.content.take (n + 1)).length = n + 1 := by
        rw [length_take]
        omega
      rw [if_neg whole, if_pos (by omega), ran]
      refine ⟨_, rfl, ?_, fun c member => ?_, ?_, fun _ => by simp⟩
      · rw [contents, map_cons, left]
        rfl
      · rcases mem_cons.mp member with rfl | member
        · exact again
        · exact queued.sound c (mem_cons_of_mem _ member)
      · have head := queued.head
        have tail := queued.tail.counted
        rw [wholes_unused, contents] at tail
        simp only [contents, map_cons, wholes, left, tail, length_append,
          length_drop, taken, long, List.cons.injEq, and_true]
        omega

end Popping

/-! ## Offering bytes -/

section Gathering

theorem within_limit_le (limit : Option Nat) (sendSize size : Nat) :
    withinLimit limit sendSize size ≤ size := by
  cases limit with
  | none => exact le_rfl
  | some limit => exact Nat.min_le_left _ _

theorem gather_beyond (limit room : Nat) (chunks : List (List Data)) (pos datasize sendSize : Nat)
    (beyond : limit ≤ sendSize) :
    (gatherChunks false (some limit) room chunks pos datasize sendSize).flatten = [] := by
  induction room generalizing chunks pos datasize sendSize with
  | zero => rfl
  | succ room ih =>
    cases chunks with
    | nil => rfl
    | cons chunk chunks =>
      have nothing : withinLimit (some limit) sendSize
          (min (chunk.length - pos) datasize) = 0 := by
        rw [withinLimit, Nat.sub_eq_zero_of_le beyond, Nat.min_zero]
      simp only [gatherChunks, nothing, Bool.false_eq_true, if_false, take_zero]
      split_ifs with none
      · rfl
      · rw [flatten_cons, nil_append]
        exact ih chunks 0 _ _ beyond

theorem gather_chunks (ssl : Bool) (limit : Option Nat) (room : Nat) (chunks : List (List Data))
    (pos datasize sendSize : Nat) (first : ∀ chunk ∈ chunks.head?, pos ≤ chunk.length) :
    (gatherChunks ssl limit room chunks pos datasize sendSize).flatten <+:
      (chunks.flatten.drop pos).take datasize := by
  induction room generalizing chunks pos datasize sendSize with
  | zero => exact nil_prefix
  | succ room ih =>
    cases chunks with
    | nil => exact nil_prefix
    | cons chunk chunks =>
      have inside := first chunk rfl
      have little := within_limit_le limit sendSize (min (chunk.length - pos) datasize)
      rw [gatherChunks, flatten_cons, take_drop_append _ _ inside]
      have front := take_prefix_take_left (l := chunk.drop pos) little
      split_ifs with none only
      · exact nil_prefix
      · simp only [flatten_cons, flatten_nil, append_nil]
        exact front.trans (prefix_append _ _)
      rw [flatten_cons]
      by_cases whole : withinLimit limit sendSize (min (chunk.length - pos) datasize) =
          min (chunk.length - pos) datasize
      · rw [whole, prefix_append_right_inj]
        exact ih chunks 0 _ _ fun _ _ => Nat.zero_le _
      -- The limit cuts this iovec off, and the rest is empty.
      cases limit with
      | none => exact absurd rfl whole
      | some limit =>
        rw [Bool.not_eq_true] at only
        rw [withinLimit] at whole little front ⊢
        rw [only, gather_beyond limit room chunks _ _ _ (by omega), append_nil]
        exact front.trans (prefix_append _ _)

theorem gather_all (limit room : Nat) (chunks : List (List Data)) (pos datasize sendSize : Nat)
    (first : ∀ chunk ∈ chunks.head?, pos ≤ chunk.length)
    (inside : pos + datasize ≤ chunks.flatten.length)
    (left : (gatherChunks false (some limit) room chunks pos datasize sendSize).length < room)
    (below : sendSize +
      (gatherChunks false (some limit) room chunks pos datasize sendSize).flatten.length < limit) :
    (gatherChunks false (some limit) room chunks pos datasize sendSize).flatten =
      (chunks.flatten.drop pos).take datasize := by
  induction room generalizing chunks pos datasize sendSize with
  | zero => exact absurd left (Nat.not_lt_zero _)
  | succ room ih =>
    cases chunks with
    | nil =>
      obtain rfl : datasize = 0 := by
        rw [flatten_nil, length_nil] at inside
        omega
      rfl
    | cons chunk chunks =>
      have start := first chunk rfl
      rw [gatherChunks] at left below ⊢
      by_cases none : datasize = 0
      · rw [if_pos none, none]
        rfl
      simp only [if_neg none, Bool.false_eq_true, if_false, length_cons,
        flatten_cons, length_append, length_take, length_drop]
        at left below inside ⊢
      have size : withinLimit (some limit) sendSize (min (chunk.length - pos) datasize) =
          min (chunk.length - pos) datasize := by
        rw [withinLimit] at below ⊢
        omega
      rw [size] at left below ⊢
      rw [take_drop_append _ _ start,
        ih chunks 0 _ _ (fun _ _ => Nat.zero_le _) (by omega) (by omega) (by omega)]
      rfl

variable {b : SendBuffer Data}

theorem gather_first (ssl : Bool) (sound : Sound b) (room : Nat) {limit : Option Nat}
    {sendSize : Nat} (below : ∀ most ∈ limit, sendSize < most) :
    ∃ iovec more, gatherChunks ssl limit (room + 1) b.chunks b.spos b.datasize sendSize =
      iovec :: more ∧ iovec ≠ [] := by
  have some := sound.some
  have inside := sound.inside
  cases chunks : b.chunks with
  | nil =>
    rw [chunks, flatten_nil, length_nil] at inside
    omega
  | cons chunk more =>
    have start := sound.first chunk (by rw [chunks]; rfl)
    have size : 0 < withinLimit limit sendSize (min (chunk.length - b.spos) b.datasize) := by
      cases limit with
      | none =>
        rw [withinLimit]
        omega
      | some most =>
        have less := below most rfl
        rw [withinLimit]
        omega
    have filled : (chunk.drop b.spos).take
        (withinLimit limit sendSize (min (chunk.length - b.spos) b.datasize)) ≠ [] := by
      rw [← length_pos_iff, length_take, length_drop]
      omega
    rw [gatherChunks, if_neg (by omega)]
    cases ssl with
    | true => exact ⟨_, [], rfl, filled⟩
    | false => exact ⟨_, _, rfl, filled⟩

theorem gather_buffers (room : Nat) (list : List (SendBuffer Data)) (sendSize : Nat)
    (sound : ∀ b ∈ list, Sound b) :
    (gatherBuffers false room list sendSize).flatten <+: (contents list).flatten := by
  induction list generalizing room sendSize with
  | nil => exact nil_prefix
  | cons b list ih =>
    have here := sound b mem_cons_self
    have first : ∀ chunk ∈ b.chunks.head?, b.spos ≤ chunk.length := fun chunk member =>
      Nat.le_of_lt (here.first chunk member)
    rw [gatherBuffers, contents, map_cons, flatten_cons, ← contents]
    have front := gather_chunks false (some maxSendSize) room b.chunks b.spos b.datasize sendSize
      first
    dsimp only
    split_ifs with none less
    · exact nil_prefix
    · by_cases left : (gatherChunks false (some maxSendSize) room b.chunks b.spos b.datasize
          sendSize).length < room
      · have all := gather_all maxSendSize room b.chunks b.spos b.datasize sendSize first
          here.inside left less
        rw [flatten_append, all]
        apply (prefix_append_right_inj _).mpr
        apply ih
        exact (forall_mem_cons.mp sound).2
      · -- There is no iovec left for the next buffer.
        rw [Nat.sub_eq_zero_of_le (not_lt.mp left)]
        have stop : gatherBuffers false 0 list (sendSize + (gatherChunks false (some maxSendSize)
            room b.chunks b.spos b.datasize sendSize).flatten.length) = [] := by
          cases list with
          | nil => rfl
          | cons c list => simp [gatherBuffers]
        rw [stop, append_nil]
        exact front.trans (prefix_append _ _)
    · exact front.trans (prefix_append _ _)

theorem offered_list (ssl : Bool) {list : List (SendBuffer Data)}
    (sound : ∀ c ∈ b :: list, Sound c) :
    gatherBuffers ssl maxWbaf (b :: list) 0 ≠ [] ∧
      offered ssl (gatherBuffers ssl maxWbaf (b :: list) 0) ≠ [] ∧
      offered ssl (gatherBuffers ssl maxWbaf (b :: list) 0) <+: (contents (b :: list)).flatten := by
  have here := sound b mem_cons_self
  obtain ⟨iovec, more, gathered, filled⟩ := gather_first ssl here (maxWbaf - 1)
    (show ∀ most ∈ some maxSendSize, 0 < most by decide)
  have shape : ∃ rest, gatherBuffers ssl maxWbaf (b :: list) 0 = iovec :: rest := by
    rw [gatherBuffers, if_neg (by decide)]
    rw [show maxWbaf - 1 + 1 = maxWbaf from rfl] at gathered
    simp only [gathered]
    split_ifs
    · exact ⟨_, rfl⟩
    · exact ⟨_, rfl⟩
  obtain ⟨rest, shape⟩ := shape
  cases ssl with
  | true =>
    have front := gather_chunks true (some maxSendSize) maxWbaf b.chunks b.spos b.datasize 0
      fun chunk member => Nat.le_of_lt (here.first chunk member)
    rw [show maxWbaf - 1 + 1 = maxWbaf from rfl] at gathered
    rw [gathered, flatten_cons] at front
    rw [shape]
    refine ⟨cons_ne_nil _ _, filled, ?_⟩
    rw [contents, map_cons, flatten_cons]
    exact ((prefix_append _ _).trans front).trans (prefix_append _ _)
  | false =>
    have front := gather_buffers maxWbaf (b :: list) 0 sound
    rw [offered, if_neg Bool.false_ne_true]
    rw [shape] at front ⊢
    exact ⟨cons_ne_nil _ _, by simp [filled], front⟩

theorem offered_buffer (ssl : Bool) (sound : Sound b) :
    gatherChunks ssl none maxWbaf b.chunks b.spos b.datasize 0 ≠ [] ∧
      offered ssl (gatherChunks ssl none maxWbaf b.chunks b.spos b.datasize 0) ≠ [] ∧
      offered ssl (gatherChunks ssl none maxWbaf b.chunks b.spos b.datasize 0) <+: b.content := by
  obtain ⟨iovec, more, gathered, filled⟩ := gather_first ssl sound (maxWbaf - 1)
    (show ∀ most ∈ (none : Option Nat), 0 < most from fun _ none => nomatch none)
  have front := gather_chunks ssl none maxWbaf b.chunks b.spos b.datasize 0
    fun chunk member => Nat.le_of_lt (sound.first chunk member)
  rw [show maxWbaf - 1 + 1 = maxWbaf from rfl] at gathered
  rw [gathered] at front ⊢
  refine ⟨cons_ne_nil _ _, ?_⟩
  cases ssl with
  | true =>
    rw [flatten_cons] at front
    exact ⟨filled, (prefix_append _ _).trans front⟩
  | false =>
    rw [offered, if_neg Bool.false_ne_true]
    exact ⟨by simp [filled], front⟩

end Gathering

end Chuck.StreamSendList
