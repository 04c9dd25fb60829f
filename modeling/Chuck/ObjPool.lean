import Chuck.ObjPoolModel
import Chuck.Support.FaultFreeRuns
import Mathlib.Data.List.ProdSigma

/-!
# The object pool never hands out a live object twice

`Layout` describes a pool by the entries of `freechunk` and the chain of every chunk:
together they are the holders of no live object. One lemma for every operation says
how they change; everything else about runs follows from these.
-/

namespace Chuck.ObjPool

open Support.LinkedItems Support.FaultFreeRuns ChkListModel ObjPoolModel Function List Option

variable {T : Type}

/-- The indices chained in a chunk are `slots`, and its holders know their places. -/
structure Chained (chunk : Chunk T) (k : Nat) (slots : List Nat) : Prop where
  linked : Linked (fun i => (chunk.data i).next) chunk.head slots
  idx : ∀ i, i < chunkObjsize → (chunk.data i).idx = i
  chunkidx : ∀ i, i < chunkObjsize → (chunk.data i).chunkidx = k

structure Layout (pool : Pool T) (live : List Obj) (free : List Nat) (slots : Nat → List Nat) :
    Prop where
  table : pool.chunks.Nodup
  used : ∀ c ∈ pool.chunks, c < pool.made
  bounded : pool.chunks.length ≤ maxChunk
  counted : pool.chunkcount = pool.chunks.length
  chunk : ∀ k c, pool.chunks[k]? = some c →
    ∃ chunk, pool.memory c = some chunk ∧ Chained chunk k (slots c)
  listed : Listed pool.entries pool.freechunk free
  nonfull : ∀ c, c ∈ free ↔ c ∈ pool.chunks ∧ slots c ≠ []
  distinct : ∀ c, (slots c).Nodup
  vacant : ∀ c ∈ pool.chunks, ∀ i, i ∈ slots c ↔ i < chunkObjsize ∧ (c, i) ∉ live
  inside : ∀ obj ∈ live, obj.1 ∈ pool.chunks ∧ obj.2 < chunkObjsize
  once : live.Nodup
  usedcount : pool.usedcount = live.length
  balance : pool.usedcount + pool.freecount = chunkObjsize * pool.chunks.length

section Counting

variable {pool : Pool T} {live : List Obj} {free : List Nat} {slots : Nat → List Nat}

def objects (pool : Pool T) : List Obj := pool.chunks ×ˢ List.range chunkObjsize

theorem mem_objects {obj : Obj} :
    obj ∈ objects pool ↔ obj.1 ∈ pool.chunks ∧ obj.2 < chunkObjsize := by
  rw [objects, mem_product, mem_range]

theorem length_objects : (objects pool).length = chunkObjsize * pool.chunks.length := by
  rw [objects, length_product, length_range, Nat.mul_comm]

theorem capacity_small (layout : Layout pool live free slots) :
    chunkObjsize * pool.chunks.length < 2 ^ 32 := by
  have bounded := layout.bounded
  unfold maxChunk at bounded
  unfold chunkObjsize
  omega

theorem freecount_pos (layout : Layout pool live free slots) {obj : Obj}
    (here : obj ∈ objects pool) (vacant : obj ∉ live) : 0 < pool.freecount := by
  have nodup : (obj :: live).Nodup := nodup_cons.mpr ⟨vacant, layout.once⟩
  have subset : obj :: live ⊆ objects pool := by
    intro other member
    rcases mem_cons.mp member with same | old
    · rw [same]
      exact here
    · exact mem_objects.mpr (layout.inside other old)
  have bound := (subperm_of_subset nodup subset).length_le
  rw [length_objects, length_cons, ← layout.balance, layout.usedcount] at bound
  omega

end Counting

def dataOf (pool : Pool T) (obj : Obj) : Option T :=
  (pool.memory obj.1).map fun chunk => (chunk.data obj.2).data

/-! ## A new chunk -/

section Growing

variable (zero : T)

theorem new_chunk_linked (idx n k : Nat) (last : k + n + 1 = chunkObjsize) :
    Linked (fun i => ((newChunk zero idx).data i).next) (some k) (List.range' k (n + 1)) := by
  induction n generalizing k with
  | zero =>
    refine ⟨rfl, if_pos ?_⟩
    omega
  | succ n ih =>
    have next : ((newChunk zero idx).data k).next = some (k + 1) := if_neg (by omega)
    have rest := ih (k + 1) (by omega)
    rw [← next] at rest
    exact ⟨rfl, rest⟩

theorem new_chunk_chained (idx : Nat) :
    Chained (newChunk zero idx) idx (List.range chunkObjsize) := by
  refine ⟨?_, fun _ _ => rfl, fun _ _ => rfl⟩
  rw [range_eq_range']
  exact new_chunk_linked zero idx (chunkObjsize - 1) 0 rfl

variable {pool : Pool T} {live : List Obj} {free : List Nat} {slots : Nat → List Nat}

theorem add_chunk {count : Nat}
    (layout : Layout { pool with chunkcount := count } live free slots) (room : count < maxChunk) :
    ∃ after, addChunk zero pool count = some after ∧
      Layout { after with chunkcount := count + 1 } live (free ++ [pool.made])
        (update slots pool.made (List.range chunkObjsize)) ∧
      ∀ obj ∈ live, dataOf after obj = dataOf pool obj := by
  have fresh : ∀ c ∈ pool.chunks, c ≠ pool.made := fun c member =>
    Nat.ne_of_lt (layout.used c member)
  have unlisted : pool.made ∉ free := fun member =>
    fresh _ ((layout.nonfull _).mp member).1 rfl
  have size : count = pool.chunks.length := layout.counted
  obtain ⟨entries, freechunk, pushed, listed⟩ := layout.listed.pushback unlisted
  have small := capacity_small layout
  have balance := layout.balance
  have bound : chunkObjsize * (pool.chunks.length + 1) < 2 ^ 32 := by
    unfold maxChunk at room
    unfold chunkObjsize
    omega
  dsimp only at small balance
  rw [Nat.mul_add] at bound
  refine ⟨_, congrArg (Option.map _) pushed, ⟨?_, ?_, ?_, ?_, ?_, listed, ?_, ?_, ?_, ?_,
    layout.once, layout.usedcount, ?_⟩, ?_⟩
  · apply List.Nodup.append layout.table (nodup_singleton _)
    rw [disjoint_singleton]
    exact fun member => fresh _ member rfl
  · intro c member
    rcases mem_append.mp member with old | new
    · exact Nat.lt_succ_of_lt (layout.used c old)
    · rw [mem_singleton.mp new]
      exact Nat.lt_succ_self _
  · rw [length_append, ← size]
    exact room
  · rw [length_append, ← size]
    rfl
  · intro k c found
    dsimp only at found ⊢
    by_cases old : k < pool.chunks.length
    · rw [getElem?_append_left old] at found
      have other := fresh c (mem_of_getElem? found)
      rw [update_of_ne other, update_of_ne other]
      exact layout.chunk k c found
    · rw [getElem?_append_right (not_lt.mp old), getElem?_singleton] at found
      split_ifs at found with here
      rw [← Option.some.inj found, update_self, update_self]
      refine ⟨_, rfl, ?_⟩
      rw [show k = count by omega]
      exact new_chunk_chained zero count
  · intro c
    rw [mem_append, mem_append, mem_singleton]
    by_cases same : c = pool.made
    · subst same
      rw [update_self]
      simp [chunkObjsize]
    · rw [update_of_ne same, layout.nonfull c]
      simp [same]
  · intro c
    by_cases same : c = pool.made
    · rw [same, update_self]
      exact nodup_range
    · rw [update_of_ne same]
      exact layout.distinct c
  · intro c member i
    rcases mem_append.mp member with old | new
    · rw [update_of_ne (fresh c old)]
      exact layout.vacant c old i
    · rw [mem_singleton.mp new, update_self, mem_range]
      refine ⟨fun below => ⟨below, fun used => ?_⟩, And.left⟩
      exact fresh _ (layout.inside _ used).1 rfl
  · intro obj used
    obtain ⟨member, below⟩ := layout.inside obj used
    exact ⟨mem_append_left _ member, below⟩
  · dsimp only
    rw [length_append, length_singleton, Nat.mul_add, Nat.mod_eq_of_lt (by omega)]
    omega
  · intro obj used
    rw [dataOf, dataOf]
    dsimp only
    rw [update_of_ne (fresh _ (layout.inside obj used).1)]

theorem fill_chunks (alloc : Nat → Bool) (n count : Nat) (pool : Pool T) (free : List Nat)
    (slots : Nat → List Nat) (layout : Layout { pool with chunkcount := count } live free slots)
    (room : count + n ≤ maxChunk) :
    ∃ after free' slots', fillChunks zero alloc n count pool = some after ∧
      Layout after live free' slots' ∧ (∀ obj ∈ live, dataOf after obj = dataOf pool obj) ∧
      free <+: free' ∧
      (free' = free → after = { pool with chunkcount := count } ∧
        (n = 0 ∨ alloc count = false)) := by
  induction n generalizing count pool free slots with
  | zero =>
    exact ⟨_, free, slots, rfl, layout, fun _ _ => rfl, prefix_rfl, fun _ => ⟨rfl, .inl rfl⟩⟩
  | succ n ih =>
    rw [fillChunks]
    cases allocated : alloc count with
    | false =>
      exact ⟨_, free, slots, rfl, layout, fun _ _ => rfl, prefix_rfl,
        fun _ => ⟨rfl, .inr rfl⟩⟩
    | true =>
      obtain ⟨added, ran, grown, same⟩ := add_chunk zero layout (by omega)
      obtain ⟨after, free', slots', filled, kept, later, longer, -⟩ :=
        ih (count + 1) added _ _ grown (by omega)
      rw [if_pos rfl, ran, bind_some]
      refine ⟨after, free', slots', filled, kept, fun obj used => ?_,
        (prefix_append _ _).trans longer, fun unchanged => ?_⟩
      · rw [later obj used, same obj used]
      · have size := longer.length_le
        rw [unchanged, length_append, length_singleton] at size
        omega

end Growing

/-! ## One object -/

section Chains

variable {chunk : Chunk T} {k i : Nat} {slots : List Nat}

/-- One holder changes its `next` or its data, and the chain its head. -/
theorem Chained.relink (chained : Chained chunk k slots) (holder : ObjHolder T)
    (idx : holder.idx = (chunk.data i).idx) (chunkidx : holder.chunkidx = (chunk.data i).chunkidx)
    {head : Option Nat} {chain : List Nat}
    (linked : Linked (fun j => (update chunk.data i holder j).next) head chain) :
    Chained ⟨head, update chunk.data i holder⟩ k chain := by
  have places (j : Nat) : (update chunk.data i holder j).idx = (chunk.data j).idx ∧
      (update chunk.data i holder j).chunkidx = (chunk.data j).chunkidx := by
    by_cases same : j = i
    · rw [same, update_self]
      exact ⟨idx, chunkidx⟩
    · rw [update_of_ne same]
      exact ⟨rfl, rfl⟩
  exact ⟨linked, fun j below => (places j).1.trans (chained.idx j below),
    fun j below => (places j).2.trans (chained.chunkidx j below)⟩

theorem linked_elsewhere {head : Option Nat} (absent : i ∉ slots) (holder : ObjHolder T)
    (linked : Linked (fun j => (chunk.data j).next) head slots) :
    Linked (fun j => (update chunk.data i holder j).next) head slots := by
  apply linked.congr
  intro j member
  have different : j ≠ i := fun same => absent (same ▸ member)
  exact congrArg ObjHolder.next (update_of_ne different _ _)

end Chains

section Objects

variable (zero : T) {pool : Pool T} {live : List Obj} {free : List Nat} {slots : Nat → List Nat}

theorem Layout.chunk_of_mem (layout : Layout pool live free slots) {c : Nat}
    (here : c ∈ pool.chunks) : ∃ chunk k, pool.memory c = some chunk ∧
      pool.chunks[k]? = some c ∧ Chained chunk k (slots c) := by
  obtain ⟨k, found⟩ := mem_iff_getElem?.mp here
  obtain ⟨chunk, stored, chained⟩ := layout.chunk k c found
  exact ⟨chunk, k, stored, found, chained⟩

theorem Layout.change (layout : Layout pool live free slots) {c : Nat} (here : c ∈ pool.chunks)
    {old chunk : Chunk T} (stored : pool.memory c = some old) {chain : List Nat} {free' : List Nat}
    {live' : List Obj}
    {entries : Nat → Option Nat} {freechunk : ChkList} {freecount usedcount : Nat}
    (chained : ∀ k, Chained old k (slots c) → Chained chunk k chain)
    (listed : Listed entries freechunk free')
    (nonfull : ∀ d, d ∈ free' ↔ if d = c then chain ≠ [] else d ∈ free)
    (distinct : chain.Nodup) (vacant : ∀ i, i ∈ chain ↔ i < chunkObjsize ∧ (c, i) ∉ live')
    (others : ∀ obj : Obj, obj.1 ≠ c → (obj ∈ live' ↔ obj ∈ live))
    (inside : ∀ i, (c, i) ∈ live' → i < chunkObjsize) (once : live'.Nodup)
    (used : usedcount = live'.length)
    (balance : usedcount + freecount = chunkObjsize * pool.chunks.length) :
    Layout { pool with
      memory := update pool.memory c (some chunk), entries := entries
      freechunk := freechunk, freecount := freecount, usedcount := usedcount } live' free'
      (update slots c chain) := by
  refine ⟨layout.table, layout.used, layout.bounded, layout.counted, fun k d found => ?_, listed,
    fun d => ?_, fun d => ?_, fun d member i => ?_, fun obj member => ?_, once, used, balance⟩
  · dsimp only at found ⊢
    by_cases same : d = c
    · subst same
      rw [update_self, update_self]
      obtain ⟨chunk', stored', chained'⟩ := layout.chunk k d found
      obtain rfl : old = chunk' := Option.some.inj (stored.symm.trans stored')
      exact ⟨chunk, rfl, chained k chained'⟩
    · rw [update_of_ne same, update_of_ne same]
      exact layout.chunk k d found
  · rw [nonfull]
    by_cases same : d = c
    · subst same
      rw [if_pos rfl, update_self]
      exact ⟨fun some_ => ⟨here, some_⟩, And.right⟩
    · rw [if_neg same, update_of_ne same]
      exact layout.nonfull d
  · by_cases same : d = c
    · rw [same, update_self]
      exact distinct
    · rw [update_of_ne same]
      exact layout.distinct d
  · by_cases same : d = c
    · subst same
      rw [update_self]
      exact vacant i
    · rw [update_of_ne same, others (d, i) same]
      exact layout.vacant d member i
  · by_cases same : obj.1 = c
    · obtain ⟨d, i⟩ := obj
      subst same
      exact ⟨here, inside i member⟩
    · exact layout.inside obj ((others obj same).mp member)

/-- The first free holder of the first chunk that has one is handed out. -/
theorem take_head {c : Nat} {rest : List Nat} (layout : Layout pool live (c :: rest) slots) :
    ∃ obj after free' slots', takeHead zero pool c = some (obj, after) ∧ obj ∉ live ∧
      Layout after (obj :: live) free' slots' ∧ dataOf after obj = some zero ∧
      ∀ other ∈ live, dataOf after other = dataOf pool other := by
  obtain ⟨here, some_⟩ := (layout.nonfull c).mp mem_cons_self
  obtain ⟨chunk, k, stored, found, chained⟩ := layout.chunk_of_mem here
  obtain ⟨i, chain, split⟩ := exists_cons_of_ne_nil some_
  have vacant := layout.vacant c here
  have distinct := layout.distinct c
  rw [split] at vacant distinct
  obtain ⟨absent, apart⟩ := nodup_cons.mp distinct
  obtain ⟨below, unused⟩ := (vacant i).mp mem_cons_self
  have linked := (split ▸ chained).linked
  have next : (chunk.data i).next = chain.head? := linked.2.head_eq
  have positive := freecount_pos layout (mem_objects.mpr ⟨here, below⟩) unused
  have small := capacity_small layout
  have balance := layout.balance
  have used := layout.usedcount
  -- The chunk leaves the list with its last free holder.
  have popped : ∃ entries freechunk free',
      (if (chunk.data i).next = none then (listPop pool.entries pool.freechunk).2
        else (pool.entries, pool.freechunk)) = (entries, freechunk) ∧
      Listed entries freechunk free' ∧
      ∀ d, d ∈ free' ↔ if d = c then chain ≠ [] else d ∈ c :: rest := by
    obtain ⟨left, alone⟩ := nodup_cons.mp layout.listed.nodup
    cases chain with
    | nil =>
      obtain ⟨entries, freechunk, ran, listed⟩ := layout.listed.pop
      refine ⟨entries, freechunk, rest, ?_, listed, fun d => ?_⟩
      · rw [next, ran]
        rfl
      · by_cases same : d = c
        · subst same
          simpa using left
        · simp [same]
    | cons j chain =>
      refine ⟨_, _, c :: rest, ?_, layout.listed, fun d => ?_⟩
      · rw [next]
        rfl
      · by_cases same : d = c
        · simp [same]
        · simp [same]
  obtain ⟨entries, freechunk, free', taken, listed, nonfull⟩ := popped
  have ran : takeHead zero pool c = some ((c, i), { pool with
      memory := update pool.memory c (some
        ⟨(chunk.data i).next, update chunk.data i { chunk.data i with data := zero }⟩)
      entries := entries, freechunk := freechunk
      freecount := (pool.freecount + (2 ^ 32 - 1)) % 2 ^ 32
      usedcount := (pool.usedcount + 1) % 2 ^ 32 }) := by
    rw [takeHead, stored]
    simp only [bind_eq_bind, bind_some, linked.1, if_pos below, taken]
  refine ⟨_, _, free', update slots c chain, ran, unused, ?_, ?_, ?_⟩
  · apply layout.change here stored _ listed nonfull apart _ _ _
      (nodup_cons.mpr ⟨unused, layout.once⟩)
    · rw [length_cons, Nat.mod_eq_of_lt (by omega), used]
    · rw [Nat.mod_eq_of_lt (by omega)]
      omega
    · exact fun k chained => chained.relink { chunk.data i with data := zero } rfl rfl
        (linked_elsewhere absent _ linked.2)
    · intro j
      rw [mem_cons, Prod.mk.injEq, not_or, not_and]
      constructor
      · intro member
        obtain ⟨inside, unused'⟩ := (vacant j).mp (mem_cons_of_mem i member)
        exact ⟨inside, fun _ same => absent (same ▸ member), unused'⟩
      · intro conditions
        rcases mem_cons.mp ((vacant j).mpr ⟨conditions.1, conditions.2.2⟩) with same | later
        · exact absurd same (conditions.2.1 rfl)
        · exact later
    · intro obj other
      rw [mem_cons]
      refine ⟨fun member => member.resolve_left fun same => other ?_, .inr⟩
      rw [same]
    · intro j member
      rcases mem_cons.mp member with same | old
      · rw [(Prod.mk.inj same).2]
        exact below
      · exact (layout.inside _ old).2
  · rw [dataOf]
    simp only [update_self, map_some]
  · intro other member
    rw [dataOf, dataOf]
    dsimp only
    by_cases same : other.1 = c
    · have different : other.2 ≠ i := by
        intro equal
        apply unused
        rw [← same, ← equal]
        exact member
      rw [same, update_self, stored, map_some, map_some]
      dsimp only
      rw [update_of_ne different]
    · rw [update_of_ne same]

/-- A holder goes back to the front of its chain, and a full chunk back to the list. -/
theorem release_obj (layout : Layout pool live free slots) {obj : Obj} (member : obj ∈ live) :
    ∃ after free' slots', releaseObj pool obj = some after ∧
      Layout after (live.erase obj) free' slots' ∧
      ∀ other, dataOf after other = dataOf pool other := by
  obtain ⟨c, i⟩ := obj
  obtain ⟨here, below⟩ := layout.inside _ member
  obtain ⟨chunk, k, stored, found, chained⟩ := layout.chunk_of_mem here
  have vacant := layout.vacant c here
  have absent : i ∉ slots c := fun free_ => ((vacant i).mp free_).2 member
  have balance := layout.balance
  have used := layout.usedcount
  have small := capacity_small layout
  have positive := length_pos_of_mem member
  have remaining := length_erase_of_mem member
  have other : ∀ obj, obj ∈ live.erase (c, i) ↔ obj ≠ (c, i) ∧ obj ∈ live := fun obj =>
    layout.once.mem_erase_iff
  -- A full chunk comes back to the list.
  have pushed : ∃ entries freechunk free',
      relist pool c chunk.head = some (entries, freechunk) ∧ Listed entries freechunk free' ∧
        ∀ d, d ∈ free' ↔ if d = c then i :: slots c ≠ [] else d ∈ free := by
    by_cases full : slots c = []
    · have unlisted : c ∉ free := fun inside => ((layout.nonfull c).mp inside).2 full
      obtain ⟨entries, freechunk, ran, listed⟩ := layout.listed.pushback unlisted
      refine ⟨entries, freechunk, _, ?_, listed, fun d => ?_⟩
      · rw [relist, if_pos (chained.linked.nil_iff.mpr full), ran]
      · by_cases same : d = c
        · simp [same]
        · simp [same]
    · refine ⟨_, _, free, if_neg fun none => full (chained.linked.nil_iff.mp none), layout.listed,
        fun d => ?_⟩
      by_cases same : d = c
      · subst same
        simpa using (layout.nonfull d).mpr ⟨here, full⟩
      · simp [same]
  obtain ⟨entries, freechunk, free', given, listed, nonfull⟩ := pushed
  have ran : releaseObj pool (c, i) = some { pool with
      memory := update pool.memory c (some
        ⟨some i, update chunk.data i { chunk.data i with next := chunk.head }⟩)
      entries := entries, freechunk := freechunk
      freecount := (pool.freecount + 1) % 2 ^ 32
      usedcount := (pool.usedcount + (2 ^ 32 - 1)) % 2 ^ 32 } := by
    rw [releaseObj]
    simp only [stored, bind_eq_bind, bind_some, if_pos below, chained.chunkidx i below,
      found, chained.idx i below, given, update_self, update_idem]
  refine ⟨_, free', update slots c (i :: slots c), ran, ?_, ?_⟩
  · apply layout.change here stored _ listed nonfull
      (nodup_cons.mpr ⟨absent, layout.distinct c⟩) _ _ _ (layout.once.erase _)
    · rw [remaining, used]
      omega
    · rw [Nat.mod_eq_of_lt (show pool.freecount + 1 < 2 ^ 32 by omega)]
      omega
    · refine fun k chained => chained.relink { chunk.data i with next := chunk.head } rfl rfl
        ⟨rfl, ?_⟩
      dsimp only
      rw [update_self]
      exact linked_elsewhere absent _ chained.linked
    · intro j
      rw [mem_cons, other, vacant j]
      by_cases same : j = i
      · simp [same, below]
      · simp [same]
    · intro obj different
      rw [other]
      refine ⟨And.right, fun old => ⟨fun same => different ?_, old⟩⟩
      rw [same]
    · intro j inside
      exact (layout.inside _ ((other _).mp inside).2).2
  · intro obj
    rw [dataOf, dataOf]
    dsimp only
    by_cases same : obj.1 = c
    · rw [same, update_self, stored, map_some, map_some]
      dsimp only
      by_cases equal : obj.2 = i
      · rw [equal, update_self]
      · rw [update_of_ne equal]
    · rw [update_of_ne same]

theorem new_obj (layout : Layout pool live free slots) (table chunk : Bool) :
    ∃ answer after free' slots', newObj zero pool table chunk = some (answer, after) ∧
      Layout after (answer.toList ++ live) free' slots' ∧
      (∀ obj, answer = some obj → obj ∉ live ∧ dataOf after obj = some zero) ∧
      (answer = none →
        after = pool ∧ (pool.chunkcount = maxChunk ∨ table = false ∨ chunk = false)) ∧
      ∀ obj ∈ live, dataOf after obj = dataOf pool obj := by
  -- Growing gives a layout of the same live objects.
  have grow : ∃ grown free' slots', growPool zero pool table chunk = some grown ∧
      Layout grown live free' slots' ∧ (∀ obj ∈ live, dataOf grown obj = dataOf pool obj) ∧
      (free' = [] →
        grown = pool ∧ (pool.chunkcount = maxChunk ∨ table = false ∨ chunk = false)) := by
    have counted := layout.counted
    have bounded := layout.bounded
    rw [growPool]
    by_cases some_ : pool.freechunk.head ≠ none
    · rw [if_pos some_]
      refine ⟨pool, free, slots, rfl, layout, fun _ _ => rfl, fun none => absurd ?_ some_⟩
      exact layout.listed.linked.nil_iff.mpr none
    have empty := layout.listed.linked.nil_iff.mp (not_not.mp some_)
    rw [if_neg some_]
    by_cases full : pool.chunkcount + 1 > maxChunk
    · rw [if_pos full]
      exact ⟨pool, free, slots, rfl, layout, fun _ _ => rfl, fun _ => ⟨rfl, .inl (by omega)⟩⟩
    rw [if_neg full]
    cases table with
    | false =>
      exact ⟨pool, free, slots, rfl, layout, fun _ _ => rfl, fun _ => ⟨rfl, .inr (.inl rfl)⟩⟩
    | true =>
      have copied : ({ pool with chunks := pool.chunks.take pool.chunkcount } : Pool T) =
          pool := by
        rw [take_of_length_le (Nat.le_of_eq counted.symm)]
      obtain ⟨after, free', slots', filled, kept, same, -, unchanged⟩ := fill_chunks zero
        (fun _ => chunk) 1 pool.chunkcount pool free slots layout (by omega)
      rw [if_pos rfl, copied]
      refine ⟨after, free', slots', filled, kept, same, fun none => ?_⟩
      obtain ⟨equal, failed⟩ := unchanged (none.trans empty.symm)
      exact ⟨equal, .inr (.inr (failed.resolve_left Nat.one_ne_zero))⟩
  obtain ⟨grown, free', slots', grew, kept, same, unchanged⟩ := grow
  rw [newObj, grew, bind_some]
  cases free' with
  | nil =>
    have none : grown.freechunk.head = none := kept.listed.linked
    rw [none]
    obtain ⟨equal, failed⟩ := unchanged rfl
    exact ⟨Option.none, grown, _, _, rfl, kept,
      fun obj some_ => absurd some_ (some_ne_none obj).symm,
      fun _ => ⟨equal, failed⟩, same⟩
  | cons c rest =>
    have head : grown.freechunk.head = some c := kept.listed.linked.1
    obtain ⟨obj, after, free'', slots'', took, fresh, final, cleared, others⟩ := take_head zero kept
    rw [head]
    refine ⟨some obj, after, free'', slots'', ?_, final, fun other same_ => ?_,
      fun none => absurd none (some_ne_none obj), fun other member => ?_⟩
    · dsimp only
      rw [took, map_some]
    · rw [← Option.some.inj same_]
      exact ⟨fresh, cleared⟩
    · rw [others other member, same other member]

end Objects

/-! ## Runs -/

structure Session (T : Type) where
  pool : Pool T
  live : List Obj

inductive Call where
  | newObj (table chunk : Bool)
  | releaseObj (ptr : Obj)
  deriving DecidableEq, Repr

section Runs

variable (zero : T)

def step (s : Session T) : Call → Option (Session T)
  | .newObj table chunk =>
    (newObj zero s.pool table chunk).map fun (answer, pool) => ⟨pool, answer.toList ++ s.live⟩
  | .releaseObj ptr => (releaseObj s.pool ptr).map fun pool => ⟨pool, s.live.erase ptr⟩

def Allowed (s : Session T) : Call → Prop
  | .newObj _ _ => True
  | .releaseObj ptr => ptr ∈ s.live

instance (s : Session T) : ∀ call, Decidable (Allowed s call)
  | .newObj _ _ => inferInstanceAs (Decidable True)
  | .releaseObj ptr => inferInstanceAs (Decidable (ptr ∈ s.live))

/-- What holds between any two calls. -/
structure Sound (s : Session T) : Prop where
  once : s.live.Nodup
  inside : ∀ obj ∈ s.live, obj.1 ∈ s.pool.chunks ∧ obj.2 < chunkObjsize
  usedcount : s.pool.usedcount = s.live.length
  balance : s.pool.usedcount + s.pool.freecount = chunkObjsize * s.pool.chunkcount
  table : s.pool.chunks.Nodup ∧ s.pool.chunks.length = s.pool.chunkcount
  freechunk : ∃ free, Linked s.pool.entries s.pool.freechunk.head free ∧ free.Nodup ∧
    ∀ c, c ∈ free ↔
      c ∈ s.pool.chunks ∧ ∃ chunk, s.pool.memory c = some chunk ∧ chunk.head ≠ none
  chains : ∀ c ∈ s.pool.chunks, ∃ chunk slots, s.pool.memory c = some chunk ∧
    Linked (fun i => (chunk.data i).next) chunk.head slots ∧ slots.Nodup ∧
    ∀ i, i ∈ slots ↔ i < chunkObjsize ∧ (c, i) ∉ s.live

theorem sound_of_layout {s : Session T} {free : List Nat} {slots : Nat → List Nat}
    (layout : Layout s.pool s.live free slots) : Sound s := by
  refine ⟨layout.once, layout.inside, layout.usedcount, ?_, ⟨layout.table, layout.counted.symm⟩,
    ⟨free, layout.listed.linked, layout.listed.nodup, fun c => ?_⟩, fun c here => ?_⟩
  · rw [layout.counted]
    exact layout.balance
  · rw [layout.nonfull c]
    refine and_congr_right fun here => ?_
    obtain ⟨chunk, k, stored, -, chained⟩ := layout.chunk_of_mem here
    have empty := chained.linked.nil_iff
    rw [stored]
    constructor
    · exact fun some_ => ⟨chunk, rfl, fun none => some_ (empty.mp none)⟩
    · intro found none
      obtain ⟨other, same, some_⟩ := found
      rw [← Option.some.inj same] at some_
      exact some_ (empty.mpr none)
  · obtain ⟨chunk, k, stored, -, chained⟩ := layout.chunk_of_mem here
    exact ⟨chunk, slots c, stored, chained.linked, layout.distinct c, layout.vacant c here⟩

theorem blank_layout : Layout (blankPool : Pool T) [] [] fun _ => [] :=
  ⟨nodup_nil, nofun, Nat.zero_le _, rfl,
    fun _ _ found => absurd found (by simp [blankPool]), listed_init,
    fun _ => by simp, fun _ => nodup_nil, nofun,
    nofun, nodup_nil, rfl, rfl⟩

theorem pool_new (initnum : Nat) (pool table : Bool) (chunk : Nat → Bool) :
    ∃ created, poolNew zero initnum pool table chunk = some created ∧
      ∀ p, created = .pool p → ∃ free slots, Layout p [] free slots := by
  rw [poolNew]
  by_cases large : initnum / chunkObjsize > maxChunk
  · rw [if_pos large]
    exact ⟨.null, rfl, nofun⟩
  rw [if_neg large]
  cases pool && table with
  | false => exact ⟨.null, rfl, nofun⟩
  | true =>
    obtain ⟨after, free, slots, filled, layout, -⟩ := fill_chunks zero chunk
      (initnum / chunkObjsize) 0 blankPool [] _ blank_layout (by omega)
    rw [if_pos rfl, filled]
    refine ⟨.pool after, rfl, fun p same => ⟨free, slots, ?_⟩⟩
    rw [← Created.pool.inj same]
    exact layout

theorem pool_carries {p : Pool T} {free : List Nat} {slots : Nat → List Nat}
    (layout : Layout p [] free slots) :
    Carries (step zero) Allowed ⟨p, []⟩
      fun s => ∃ free slots, Layout s.pool s.live free slots := by
  refine ⟨⟨free, slots, layout⟩, fun s call holds allowed => ?_⟩
  obtain ⟨free, slots, layout⟩ := holds
  cases call with
  | newObj table chunk =>
    obtain ⟨answer, after, free', slots', ran, kept, -⟩ := new_obj zero layout table chunk
    refine ⟨⟨after, answer.toList ++ s.live⟩, ?_, free', slots', kept⟩
    rw [step, ran, map_some]
  | releaseObj ptr =>
    obtain ⟨after, free', slots', ran, kept, -⟩ := release_obj layout allowed
    refine ⟨⟨after, s.live.erase ptr⟩, ?_, free', slots', kept⟩
    rw [step, ran, map_some]

/-- In every run of a pool the objects handed out are apart, the counters and the free
chains describe them, and a call that returns NULL changes nothing. -/
theorem pool_never_reissues (initnum : Nat) (pool table : Bool) (chunk : Nat → Bool) :
    ∃ created, poolNew zero initnum pool table chunk = some created ∧
      ∀ p, created = .pool p → ∀ s, Reaches (step zero) Allowed ⟨p, []⟩ s → Sound s ∧
        (∀ table chunk, ∃ answer after, newObj zero s.pool table chunk = some (answer, after) ∧
          (∀ obj, answer = some obj → obj ∉ s.live ∧ dataOf after obj = some zero) ∧
          (answer = none → after = s.pool ∧
            (s.pool.chunkcount = maxChunk ∨ table = false ∨ chunk = false)) ∧
          ∀ obj ∈ s.live, dataOf after obj = dataOf s.pool obj) ∧
        ∀ ptr ∈ s.live, ∃ after, releaseObj s.pool ptr = some after ∧
          ∀ obj, dataOf after obj = dataOf s.pool obj := by
  obtain ⟨created, made, start⟩ := pool_new zero initnum pool table chunk
  refine ⟨created, made, fun p is s reached => ?_⟩
  obtain ⟨free, slots, layout⟩ := start p is
  obtain ⟨free, slots, layout⟩ := (pool_carries zero layout).invariant reached
  refine ⟨sound_of_layout layout, fun table chunk => ?_, fun ptr member => ?_⟩
  · obtain ⟨answer, after, -, -, ran, -, fresh, failed, others⟩ := new_obj zero layout table chunk
    exact ⟨answer, after, ran, fresh, failed, others⟩
  · obtain ⟨after, -, -, ran, -, others⟩ := release_obj layout member
    exact ⟨after, ran, others⟩

end Runs

/-- Three objects, the second of them released and handed out again. -/
theorem pool_session_sound : ∃ s : Session Nat, Sound s ∧ s.live = [(0, 1), (0, 2), (0, 0)] := by
  have ran : ((poolNew 0 64 true true fun _ => true).bind fun created =>
      match created with
      | .null => none
      | .pool p => (run (step 0) ⟨p, []⟩ [.newObj true true, .newObj true true, .newObj true true,
          .releaseObj (0, 1), .newObj true true]).map Session.live) =
      some [(0, 1), (0, 2), (0, 0)] := by decide +kernel
  have allowed : ((poolNew 0 64 true true fun _ => true).map fun created =>
      match created with
      | .null => false
      | .pool p => runAllowed (step 0) Allowed ⟨p, []⟩ [.newObj true true, .newObj true true,
          .newObj true true, .releaseObj (0, 1), .newObj true true]) = some true := by
    decide +kernel
  obtain ⟨created, made, sound⟩ := pool_never_reissues 0 64 true true fun _ => true
  rw [made] at ran allowed
  cases created with
  | null => nomatch ran
  | pool p =>
    obtain ⟨s, reached, live⟩ := map_eq_some_iff.mp ran
    exact ⟨s, (sound p rfl s (Reaches.run _ .start (Option.some.inj allowed) reached)).1, live⟩

end Chuck.ObjPool
