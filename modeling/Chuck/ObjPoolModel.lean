import Chuck.ChkListModel
import Mathlib.Algebra.Group.Nat.Defs

/-!
# Source-shaped `chk_obj_pool.h`

A pool hands out objects of one type from chunks of `CHUNK_OBJSIZE` holders. The free
holders of a chunk are chained through 16-bit indices, the chunks that have one are
in the list `freechunk`. Indices are `Option Nat`, where `none` is -1. A chunk is
known by its address; its `list_entry` is its first member, so the entry has the same
address. Whether an allocation succeeds is an input. Functions return `none` where the
source would leave the memory it owns.
-/

namespace Chuck.ObjPoolModel

open ChkListModel Function

def chunkObjsize : Nat := 64

def maxChunk : Nat := 0x3FFFFF

structure ObjHolder (T : Type) where
  next : Option Nat
  idx : Nat
  chunkidx : Nat
  data : T

structure Chunk (T : Type) where
  head : Option Nat
  data : Nat → ObjHolder T

/-- The memory and `TYPE##_pool`. `entries` are the `list_entry.next` of all chunks;
addresses from `made` on have never been used. `initnum` is never set and left out. -/
structure Pool (T : Type) where
  memory : Nat → Option (Chunk T)
  entries : Nat → Option Nat
  made : Nat
  chunks : List Nat
  chunkcount : Nat
  freechunk : ChkList
  freecount : Nat
  usedcount : Nat

abbrev Obj := Nat × Nat

section Operations

variable {T : Type} (zero : T)

def newChunk (idx : Nat) : Chunk T where
  head := some 0
  data := fun i =>
    { next := if i = chunkObjsize - 1 then none else some (i + 1)
      idx := i
      chunkidx := idx
      data := zero }

def addChunk (pool : Pool T) (idx : Nat) : Option (Pool T) :=
  (listPushback pool.entries pool.freechunk pool.made).map fun (entries, freechunk) =>
    { pool with
      memory := update pool.memory pool.made (some (newChunk zero idx))
      entries := entries
      made := pool.made + 1
      chunks := pool.chunks ++ [pool.made]
      freechunk := freechunk
      freecount := (pool.freecount + chunkObjsize) % 2 ^ 32 }

/-- The loop that makes chunks until `chunkcount` or a failure, and sets
`pool->chunkcount` behind it. -/
def fillChunks (alloc : Nat → Bool) : Nat → Nat → Pool T → Option (Pool T)
  | 0, i, pool => some { pool with chunkcount := i }
  | n + 1, i, pool =>
    if alloc i then (addChunk zero pool i).bind fun pool => fillChunks alloc n (i + 1) pool
    else some { pool with chunkcount := i }

def takeHead (pool : Pool T) (c : Nat) : Option (Obj × Pool T) := do
  let chunk ← pool.memory c
  let i ← chunk.head
  if i < chunkObjsize then
    let obj := chunk.data i
    let (entries, freechunk) :=
      if obj.next = none then (listPop pool.entries pool.freechunk).2
      else (pool.entries, pool.freechunk)
    some ((c, i), { pool with
      memory := update pool.memory c (some
        { head := obj.next, data := update chunk.data i { obj with data := zero } })
      entries := entries
      freechunk := freechunk
      freecount := (pool.freecount + (2 ^ 32 - 1)) % 2 ^ 32
      usedcount := (pool.usedcount + 1) % 2 ^ 32 })
  else none

/-- The part of `TYPE##_new_obj` that looks for a chunk. The new table holds the same
chunks as the old one. -/
def growPool (pool : Pool T) (table chunk : Bool) : Option (Pool T) :=
  if pool.freechunk.head ≠ none then some pool
  else if pool.chunkcount + 1 > maxChunk then some pool
  else if table then
    fillChunks zero (fun _ => chunk) 1 pool.chunkcount
      { pool with chunks := pool.chunks.take pool.chunkcount }
  else some pool

/-- `TYPE##_new_obj`; `table` and `chunk` tell whether its allocations succeed. -/
def newObj (pool : Pool T) (table chunk : Bool) : Option (Option Obj × Pool T) :=
  (growPool zero pool table chunk).bind fun pool =>
    match pool.freechunk.head with
    | none => some (none, pool)
    | some c => (takeHead zero pool c).map fun (obj, pool) => (some obj, pool)

def relist (pool : Pool T) (c : Nat) (head : Option Nat) : Option ((Nat → Option Nat) × ChkList) :=
  if head = none then listPushback pool.entries pool.freechunk c
  else some (pool.entries, pool.freechunk)

def releaseObj (pool : Pool T) (ptr : Obj) : Option (Pool T) := do
  let holding ← pool.memory ptr.1
  if ptr.2 < chunkObjsize then
    let obj := holding.data ptr.2
    let c ← pool.chunks[obj.chunkidx]?
    let chunk ← pool.memory c
    if obj.idx < chunkObjsize then
      let memory := update pool.memory ptr.1 (some
        { holding with data := update holding.data ptr.2 { obj with next := chunk.head } })
      let (entries, freechunk) ← relist pool c chunk.head
      let target ← memory c
      some { pool with
        memory := update memory c (some { target with head := some obj.idx })
        entries := entries
        freechunk := freechunk
        freecount := (pool.freecount + 1) % 2 ^ 32
        usedcount := (pool.usedcount + (2 ^ 32 - 1)) % 2 ^ 32 }
    else none
  else none

def blankPool : Pool T where
  memory := fun _ => none
  entries := fun _ => none
  made := 0
  chunks := []
  chunkcount := 0
  freechunk := listInit
  freecount := 0
  usedcount := 0

inductive Created (T : Type) where
  | null
  | pool (p : Pool T)

def poolNew (initnum : Nat) (pool table : Bool) (chunk : Nat → Bool) : Option (Created T) :=
  let chunkcount := initnum / chunkObjsize
  if chunkcount > maxChunk then some .null
  else if pool && table then (fillChunks zero chunk chunkcount 0 blankPool).map .pool
  else some .null

end Operations

end Chuck.ObjPoolModel
