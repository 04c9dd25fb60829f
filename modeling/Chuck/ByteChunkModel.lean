import Chuck.Support.SharedChain

/-!
# Source-shaped byte chunks and byte buffers

`chk_bytechunk.c` over an explicit heap of reference-counted chunks. A chunk is
a cell whose payload are its `cap` data bytes. Functions return `none` where
the source would leave the memory it owns: a NULL or freed chunk is used, bytes
outside a chunk are copied, or an assertion fails. `malloc` succeeds; `junk`
says what a new chunk holds.

Loops over a chain carry fuel, which the number of chunks ever allocated
bounds.
-/

namespace Chuck.ByteChunkModel

open Support.SharedChain

abbrev Byte := UInt8

abbrev Memory := Heap (List Byte)

inductive ChkError where
  | ok
  | bufferReadOnly
  | invaildPos
  deriving DecidableEq, Repr

/-! ## Sizes -/

def isPow2 (size : Nat) : Bool := size &&& (size - 1) == 0

def sizeOfPow2 (size : Nat) : Nat :=
  if isPow2 size then size
  else
    let size := size - 1
    let size := size ||| (size >>> 1)
    let size := size ||| (size >>> 2)
    let size := size ||| (size >>> 4)
    let size := size ||| (size >>> 8)
    let size := size ||| (size >>> 16)
    (size + 1) % 2 ^ 32

def minBufLen : Nat := 64

def chunkHeader : Nat := 16

/-- `MAX(min_buf_len,chk_size_of_pow2(len)) + sizeof(*b)`: the macro has no
parentheses, so the header is added in its second branch only. -/
def chunkSize (len : Nat) : Nat :=
  if minBufLen > sizeOfPow2 len then minBufLen else sizeOfPow2 len + chunkHeader

def chunkCap (len : Nat) : Nat := chunkSize len - chunkHeader

/-! ## Chunks -/

def slice (data : List Byte) (pos size : Nat) : Option (List Byte) :=
  if pos + size ≤ data.length then some ((data.drop pos).take size) else none

def splice (data : List Byte) (pos : Nat) (v : List Byte) : Option (List Byte) :=
  if pos + v.length ≤ data.length then some (data.take pos ++ v ++ data.drop (pos + v.length))
  else none

def bytechunkRetain (mem : Memory) : Option Nat → Option Memory
  | some b => mem.retain b
  | none => some mem

def bytechunkRelease (mem : Memory) (b : Nat) : Option Memory := mem.release b

def bytechunkReadLoop (mem : Memory) :
    Nat → Option Nat → Nat → Nat → Option (List Byte × Option Nat × Nat)
  | _, b, pos, 0 => some ([], b, pos)
  | _, none, pos, _ + 1 => some ([], none, pos)
  | 0, some _, _, _ + 1 => none
  | fuel + 1, some b, pos, size + 1 => do
      let chunk ← mem.cells b
      let copySize := min (chunk.payload.length - pos) (size + 1)
      let out ← slice chunk.payload pos copySize
      if size + 1 - copySize = 0 then some (out, some b, pos + copySize)
      else
        let (rest, reached, last) ←
          bytechunkReadLoop mem fuel chunk.next 0 (size + 1 - copySize)
        some (out ++ rest, reached, last)

def bytechunkRead (mem : Memory) (b : Option Nat) (pos size : Nat) :
    Option (List Byte × Option Nat × Nat) :=
  bytechunkReadLoop mem (mem.fresh + 1) b pos size

def bytechunkWriteLoop : Nat → Memory → Option Nat → Nat → List Byte → Option (Memory × List Byte)
  | _, mem, _, _, [] => some (mem, [])
  | _, mem, none, _, v => some (mem, v)
  | 0, _, some _, _, _ :: _ => none
  | fuel + 1, mem, some b, pos, v => do
      let chunk ← mem.cells b
      let copySize := min (chunk.payload.length - pos) v.length
      let data ← splice chunk.payload pos (v.take copySize)
      bytechunkWriteLoop fuel (mem.set b (some { chunk with payload := data })) chunk.next 0
        (v.drop copySize)

def bytechunkWrite (mem : Memory) (b : Option Nat) (pos : Nat) (v : List Byte) :
    Option (Memory × List Byte) :=
  bytechunkWriteLoop (mem.fresh + 1) mem b pos v

/-! ## Buffers -/

/-- `chk_bytebuffer`; `CREATE_BY_NEW` only tells how the object is freed and is
left out. -/
structure ByteBuffer where
  internal : Nat
  datasize : Nat
  spos : Nat
  appendPos : Nat
  head : Option Nat
  tail : Option Nat
  needCopyOnWrite : Bool
  readOnly : Bool
  deriving DecidableEq, Repr

def blankBuffer : ByteBuffer where
  internal := 0
  datasize := 0
  spos := 0
  appendPos := 0
  head := none
  tail := none
  needCopyOnWrite := false
  readOnly := false

section Buffers

variable (junk : Nat → Nat → Byte)

def rawData (mem : Memory) (len : Nat) : List Byte :=
  (List.range (chunkCap len)).map (junk mem.fresh)

def bytechunkNew (mem : Memory) (len : Nat) : Nat × Memory := mem.alloc (rawData junk mem len)

/-- `chk_bytebuffer_init`. An existing chunk leaves `append_pos` as it was. -/
def bytebufferInit (mem : Memory) (b : ByteBuffer) (o : Option Nat) (spos datasize : Nat)
    (needCopyOnWrite readOnly : Bool) : Option (Memory × ByteBuffer) :=
  let b := { b with needCopyOnWrite := needCopyOnWrite, readOnly := readOnly }
  match o with
  | some chunk =>
    (mem.retain chunk).map fun mem =>
      (mem, { b with head := o, tail := o, datasize := datasize, spos := spos })
  | none =>
    let (chunk, mem) := bytechunkNew junk mem datasize
    some (mem, { b with
      head := some chunk, tail := some chunk, spos := 0, datasize := 0, appendPos := 0 })

def bytebufferFinalize (mem : Memory) (b : ByteBuffer) : Option (Memory × ByteBuffer) :=
  match b.head with
  | some head => (bytechunkRelease mem head).map fun mem => (mem, { b with head := none })
  | none => some (mem, b)

def bytebufferNew (mem : Memory) (initcap : Nat) : Option (Memory × ByteBuffer) :=
  bytebufferInit junk mem blankBuffer none 0 initcap false false

def bytebufferNewBychunk (mem : Memory) (b : Option Nat) (spos datasize : Nat) :
    Option (Memory × ByteBuffer) :=
  bytebufferInit junk mem blankBuffer b spos datasize false false

def bytebufferClone (mem : Memory) (o : ByteBuffer) : Option (Memory × ByteBuffer) :=
  bytebufferInit junk mem blankBuffer o.head o.spos o.datasize true false

/-- The loop of `chk_bytebuffer_do_copy`. Whole chunks are copied from `spos`
on, whatever lies behind them. -/
def copyLoop (mem : Memory) (curr : Nat) :
    Nat → Memory → Option Nat → Nat → Nat → Nat → Option Memory
  | _, done, none, _, _, _ => some done
  | 0, _, some _, _, _, _ => none
  | fuel + 1, done, some c, pos, spos, dataremain => do
      let chunk ← mem.cells c
      let copysize := min chunk.payload.length dataremain
      let out ← slice chunk.payload spos copysize
      let target ← done.cells curr
      let data ← splice target.payload pos out
      copyLoop mem curr fuel (done.set curr (some { target with payload := data })) chunk.next
        (pos + copysize) 0 (dataremain - copysize)

def bytebufferDoCopy (mem : Memory) (b : ByteBuffer) : Option (Memory × ByteBuffer) := do
  let (curr, grown) := bytechunkNew junk mem b.datasize
  let done ← copyLoop grown curr (grown.fresh + 1) grown b.head 0 b.spos b.datasize
  some (done, { b with
    spos := 0, head := some curr, tail := some curr, appendPos := b.datasize
    needCopyOnWrite := false })

/-- The expansion at the start of a round of `chk_bytebuffer_append`: a full
tail is followed by the next chunk, or by a new one. -/
def expandTail (mem : Memory) (b : ByteBuffer) (size : Nat) : Option (Memory × ByteBuffer) := do
  let tail ← b.tail
  let chunk ← mem.cells tail
  if b.appendPos ≥ chunk.payload.length then
    match chunk.next with
    | some next => some (mem, { b with tail := some next, appendPos := 0 })
    | none =>
      (mem.extend tail (rawData junk mem size)).map fun grown =>
        (grown, { b with tail := some mem.fresh, appendPos := 0 })
  else some (mem, b)

/-- The loop of `chk_bytebuffer_append`; every round stores at least one byte. -/
def appendLoop : Nat → Memory → ByteBuffer → List Byte → Option (Memory × ByteBuffer)
  | _, mem, b, [] => some (mem, b)
  | 0, _, _, _ :: _ => none
  | fuel + 1, mem, b, v => do
      let (mem, b) ← expandTail junk mem b v.length
      let tail ← b.tail
      let chunk ← mem.cells tail
      let copysize := min (chunk.payload.length - b.appendPos) v.length
      let data ← splice chunk.payload b.appendPos (v.take copysize)
      appendLoop fuel (mem.set tail (some { chunk with payload := data }))
        { b with
          appendPos := b.appendPos + copysize
          datasize := (b.datasize + copysize) % 2 ^ 32 }
        (v.drop copysize)

/-- The copy that `chk_bytebuffer_append` and `chk_bytebuffer_rewrite` make of a
buffer marked `NEED_COPY_ON_WRITE`. -/
def copyOnWrite (mem : Memory) (b : ByteBuffer) : Option (Memory × ByteBuffer) :=
  if b.needCopyOnWrite then bytebufferDoCopy junk mem b else some (mem, b)

/-- The first chunk that `chk_bytebuffer_append` gives to a buffer without any. -/
def openTail (mem : Memory) (b : ByteBuffer) (size : Nat) : Option (Memory × ByteBuffer) :=
  if b.tail = none then bytebufferInit junk mem b none 0 size b.needCopyOnWrite b.readOnly
  else some (mem, b)

def bytebufferAppend (mem : Memory) (b : ByteBuffer) (v : List Byte) :
    Option (ChkError × Memory × ByteBuffer) :=
  if b.readOnly then some (.bufferReadOnly, mem, b)
  else do
    let (mem, b) ← copyOnWrite junk mem b
    let (mem, b) ← openTail junk mem b v.length
    let (mem, b) ← appendLoop junk v.length mem b v
    some (.ok, mem, b)

/-- The loop of `chk_bytebuffer_rewrite`: the chunk and the index of an offset, or
nothing if the chain ends before it. -/
def rewriteSeek (mem : Memory) : Nat → Nat → Nat → Nat → Nat → Option (Option (Nat × Nat))
  | _, chunk, _, index, 0 => some (some (chunk, index))
  | 0, _, _, _, _ + 1 => none
  | fuel + 1, chunk, spos, _, c + 1 => do
      let cell ← mem.cells chunk
      let tmp := cell.payload.length - spos
      if tmp ≤ c + 1 then
        match cell.next with
        | none => some none
        | some next => rewriteSeek mem fuel next 0 0 (c + 1 - tmp)
      else some (some (chunk, spos + (c + 1)))

/-- `chk_bytebuffer_rewrite`. The loop leaves `index` as it is when the offset is 0;
`stale` is what it holds then. -/
def bytebufferRewrite (stale : Nat) (mem : Memory) (b : ByteBuffer) (offset : Nat)
    (v : List Byte) : Option (ChkError × Memory × ByteBuffer) :=
  if b.readOnly then some (.bufferReadOnly, mem, b)
  else if (offset + v.length) % 2 ^ 32 > b.datasize then some (.invaildPos, mem, b)
  else do
    let (mem, b) ← copyOnWrite junk mem b
    match b.head with
    | none => some (.invaildPos, mem, b)
    | some head =>
      match ← rewriteSeek mem (mem.fresh + 1) head b.spos stale offset with
      | none => some (.invaildPos, mem, b)
      | some (chunk, index) =>
        let (mem, rest) ← bytechunkWrite mem (some chunk) index v
        some (if rest = [] then .ok else .invaildPos, mem, b)

end Buffers

def seekLoop (mem : Memory) : Nat → Option Nat → Nat → Nat → Option (Option Nat × Nat)
  | _, c, pos, 0 => some (c, pos)
  | 0, _, _, _ + 1 => none
  | fuel + 1, c, pos, offset + 1 => do
      let address ← c
      let chunk ← mem.cells address
      let skipsize := min (chunk.payload.length - pos) (offset + 1)
      if pos + skipsize ≥ chunk.payload.length then
        seekLoop mem fuel chunk.next 0 (offset + 1 - skipsize)
      else seekLoop mem fuel c (pos + skipsize) (offset + 1 - skipsize)

def copyOutLoop (mem : Memory) : Nat → Option Nat → Nat → Nat → Option (List Byte)
  | _, _, _, 0 => some []
  | 0, _, _, _ + 1 => none
  | fuel + 1, c, pos, remain + 1 => do
      let address ← c
      let chunk ← mem.cells address
      let copysize := min (chunk.payload.length - pos) (remain + 1)
      let out ← slice chunk.payload pos copysize
      let rest ← copyOutLoop mem fuel chunk.next 0 (remain + 1 - copysize)
      some (out ++ rest)

def bytebufferRead (mem : Memory) (b : ByteBuffer) (offset size : Nat) : Option (List Byte) :=
  if offset > b.datasize then some []
  else if b.head = none then some []
  else do
    let (c, pos) ← seekLoop mem (mem.fresh + 1) b.head b.spos offset
    copyOutLoop mem (mem.fresh + 1) c pos (min size (b.datasize - offset))

def drainLoop : Nat → Memory → ByteBuffer → Nat → Option (List Byte × Memory × ByteBuffer)
  | _, mem, b, 0 => some ([], mem, b)
  | 0, _, _, _ + 1 => none
  | fuel + 1, mem, b, remain + 1 => do
      let head ← b.head
      let chunk ← mem.cells head
      let copysize := min (chunk.payload.length - b.spos) (remain + 1)
      let out ← slice chunk.payload b.spos copysize
      let b := { b with spos := b.spos + copysize, datasize := b.datasize - copysize }
      if remain + 1 - copysize ≠ 0 ∨ b.spos ≥ chunk.payload.length then
        let mem ← bytechunkRelease (mem.set head (some { chunk with next := none })) head
        let (rest, mem, b) ←
          drainLoop fuel mem { b with head := chunk.next, spos := 0 } (remain + 1 - copysize)
        some (out ++ rest, mem, b)
      else some (out, mem, b)

def bytebufferReadDrain (mem : Memory) (b : ByteBuffer) (size : Nat) :
    Option (List Byte × Memory × ByteBuffer) :=
  if b.head = none ∨ size > b.datasize then some ([], mem, b)
  else do
    let (out, mem, b) ← drainLoop (mem.fresh + 1) mem b size
    some (out, mem, if b.head = none then { b with tail := none } else b)

end Chuck.ByteChunkModel
