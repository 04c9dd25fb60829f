import Chuck.ByteChunkModel
import Chuck.Support.ByteOrder

/-!
# Source-shaped packet writer and reader

`lua_wpacket` and `lua_rpacket` of `luabind/packet.h` with their integer and
string methods, the reader of `chk_buffer_reader.c`, whose code `lua_rpacket` repeats, and the byte
order of `chk_order.h`, on a little-endian host: a
number lies in memory with its least significant byte first, and `htons` and
`htonl` exchange its bytes. The arguments and results are the values the Lua
script sees.

As in `ByteChunkModel` a function returns `none` where the source would leave
the memory it owns or use an uninitialised value.
-/

namespace Chuck.PacketModel

open Support.ByteOrder ByteChunkModel

/-! ## Byte order -/

def chkSwap16 (num : Nat) : Nat := ((num <<< 8) &&& 0xFF00) ||| ((num &&& 0xFF00) >>> 8)

def chkSwap32 (num : Nat) : Nat :=
  (chkSwap16 (num % 2 ^ 16) <<< 16) ||| chkSwap16 (num / 2 ^ 16)

def chkSwap64 (num : Nat) : Nat :=
  (chkSwap32 (num % 2 ^ 32) <<< 32) ||| chkSwap32 (num / 2 ^ 32)

def chkHton16 (x : UInt16) : UInt16 := .ofNat (chkSwap16 x.toNat)

def chkNtoh16 (x : UInt16) : UInt16 := .ofNat (chkSwap16 x.toNat)

def chkHton32 (x : UInt32) : UInt32 := .ofNat (chkSwap32 x.toNat)

def chkNtoh32 (x : UInt32) : UInt32 := .ofNat (chkSwap32 x.toNat)

def chkHton64 (num : UInt64) : UInt64 := .ofNat (chkSwap64 num.toNat)

def chkNtoh64 (num : UInt64) : UInt64 := .ofNat (chkSwap64 num.toNat)

/-! ## Errors -/

inductive LuaError where
  /-- `buffer is readonly` -/
  | readonly
  /-- `write beyond limited` -/
  | beyondLimited
  /-- `lua_rpacket_readstr invaild packet size > r->data_remain || size == 0` -/
  | stringSize
  /-- `lua_rpacket_readstr invaild packet` -/
  | invaildPacket
  /-- `check_cycle() table has cycle ref` -/
  | tableCycle
  /-- `write table error` -/
  | writeTable
  /-- `argumen 2 of wpacket_writeTable must be table` -/
  | notTable
  /-- `size > rpk->data_remain` -/
  | tableString
  /-- `invaild packet` -/
  | tablePacket
  /-- `table index is NaN`, raised by Lua itself -/
  | indexNaN
  deriving DecidableEq, Repr

abbrev LuaResult (Result : Type) := Option (Except LuaError Result)

def LuaResult.next {First Second : Type} (first : LuaResult First)
    (second : First → LuaResult Second) : LuaResult Second :=
  match first with
  | some (.ok result) => second result
  | some (.error error) => some (.error error)
  | none => none

/-! ## The writer -/

section Writing

variable (junk : Nat → Nat → Byte)

/-- The length stored at the start of the first chunk, whatever `spos` is. -/
def storeLength (mem : Memory) (b : ByteBuffer) : Option Memory := do
  let head ← b.head
  let chunk ← mem.cells head
  let data ← splice chunk.payload 0
    (littleEndian 4 (chkHton32 (.ofNat (b.datasize + 2 ^ 32 - 4))).toNat)
  some (mem.set head (some { chunk with payload := data }))

/-- `lua_wpacket_write`; the flag tells whether it returned 0. The result of the
append is not looked at. -/
def wpacketWrite (mem : Memory) (b : ByteBuffer) (v : List Byte) :
    Option (Bool × Memory × ByteBuffer) :=
  if (b.datasize + v.length) % 2 ^ 32 < b.datasize then some (false, mem, b)
  else do
    let (_, mem, b) ← bytebufferAppend junk mem b v
    let mem ← storeLength mem b
    some (true, mem, b)

def wpacketWriteAll : Memory → ByteBuffer → List (List Byte) → Option (Bool × Memory × ByteBuffer)
  | mem, b, [] => some (true, mem, b)
  | mem, b, v :: rest => do
      let (written, mem, b) ← wpacketWrite junk mem b v
      if written then wpacketWriteAll mem b rest else some (false, mem, b)

def checkWritten : Bool × Memory × ByteBuffer → Except LuaError (Memory × ByteBuffer)
  | (true, mem, b) => .ok (mem, b)
  | (false, _, _) => .error .beyondLimited

def newWpacket (mem : Memory) (b : ByteBuffer) : LuaResult (Memory × ByteBuffer) :=
  if b.readOnly then some (.error .readonly)
  else (bytebufferAppend junk mem b (littleEndian 4 0)).map fun (_, mem, b) => .ok (mem, b)

def wpacketWriteI8 (mem : Memory) (b : ByteBuffer) (v : Int64) : LuaResult (Memory × ByteBuffer) :=
  (wpacketWriteAll junk mem b [littleEndian 1 v.toInt8.toUInt8.toNat]).map checkWritten

def wpacketWriteI16 (mem : Memory) (b : ByteBuffer) (v : Int64) : LuaResult (Memory × ByteBuffer) :=
  (wpacketWriteAll junk mem b
    [littleEndian 2 (chkHton16 v.toInt16.toUInt16).toNat]).map checkWritten

def wpacketWriteI32 (mem : Memory) (b : ByteBuffer) (v : Int64) : LuaResult (Memory × ByteBuffer) :=
  (wpacketWriteAll junk mem b
    [littleEndian 4 (chkHton32 v.toInt32.toUInt32).toNat]).map checkWritten

def wpacketWriteI64 (mem : Memory) (b : ByteBuffer) (v : Int64) : LuaResult (Memory × ByteBuffer) :=
  (wpacketWriteAll junk mem b [littleEndian 8 (chkHton64 v.toUInt64).toNat]).map checkWritten

/-- The writes that store a string: its length, then its bytes if there are any.
The length is converted to 32 bits on the way. -/
def stringWrites (str : List Byte) : List (List Byte) :=
  littleEndian 4 (chkHton32 (.ofNat str.length)).toNat ::
    if str.length > 0 then [str.take (str.length % 2 ^ 32)] else []

def wpacketWriteStr (mem : Memory) (b : ByteBuffer) (str : List Byte) :
    LuaResult (Memory × ByteBuffer) :=
  (wpacketWriteAll junk mem b (stringWrites str)).map checkWritten

end Writing

/-! ## The reader -/

/-- `lua_rpacket`; the buffer only keeps the chunks alive. -/
structure RPacket where
  cur : Option Nat
  readpos : Nat
  dataRemain : Nat
  totalPacketSize : Nat
  deriving DecidableEq, Repr

/-- `packet_reader_init` of `chk_buffer_reader.c`. The length is skipped; fewer than four bytes
in the first chunk put the reader into the next one. -/
def packetReaderInit (mem : Memory) (b : ByteBuffer) : Option RPacket := do
  let head ← b.head
  let chunk ← mem.cells head
  let r : RPacket :=
    { cur := some head
      readpos := b.spos + 4
      dataRemain := (b.datasize + 2 ^ 32 - 4) % 2 ^ 32
      totalPacketSize := b.datasize }
  match chunk.payload.length - b.spos with
  | 1 => some { r with cur := chunk.next, readpos := 3 }
  | 2 => some { r with cur := chunk.next, readpos := 2 }
  | 3 => some { r with cur := chunk.next, readpos := 1 }
  | _ => some r

def newRpacket (mem : Memory) (b : ByteBuffer) : Option RPacket := packetReaderInit mem b

section Reading

variable (mem : Memory)

/-- `reader_read`: the bytes copied to `out`, or nothing if it returned -1. -/
def readerRead (r : RPacket) (size : Nat) : Option (Option (List Byte) × RPacket) :=
  if size > r.dataRemain then some (none, r)
  else do
    let (out, cur, pos) ← bytechunkRead mem r.cur r.readpos size
    some (some out,
      { r with cur := cur, readpos := pos, dataRemain := r.dataRemain - out.length })

def rpacketRead (r : RPacket) (size : Nat) : Option (Option (List Byte) × RPacket) :=
  readerRead mem r size

/-- `LUA_RPACKET_READ` of a number of `size` bytes. It starts as zero and keeps
the bytes that are not read. -/
def rpacketReadValue (r : RPacket) (size : Nat) : Option (Nat × RPacket) := do
  let (out, r) ← rpacketRead mem r size
  some (littleValue (out.getD []), r)

def rpacketReadI8 (r : RPacket) : Option (Int64 × RPacket) := do
  let (n, r) ← rpacketReadValue mem r 1
  some ((UInt8.ofNat n).toInt8.toInt64, r)

def rpacketReadI16 (r : RPacket) : Option (Int64 × RPacket) := do
  let (n, r) ← rpacketReadValue mem r 2
  some ((chkNtoh16 (.ofNat n)).toInt16.toInt64, r)

def rpacketReadI32 (r : RPacket) : Option (Int64 × RPacket) := do
  let (n, r) ← rpacketReadValue mem r 4
  some ((chkNtoh32 (.ofNat n)).toInt32.toInt64, r)

def rpacketReadI64 (r : RPacket) : Option (Int64 × RPacket) := do
  let (n, r) ← rpacketReadValue mem r 8
  some ((chkNtoh64 (.ofNat n)).toInt64, r)

/-- A length and as many bytes, with the errors for a length beyond the packet
and for a read that fails. A chain that ends inside the string would leave part of
it uninitialised. -/
def readString (beyond broken : LuaError) (r : RPacket) : LuaResult (List Byte × RPacket) :=
  (rpacketReadValue mem r 4).bind fun (n, r) =>
    let size := (chkNtoh32 (.ofNat n)).toNat
    if size > r.dataRemain then some (.error beyond)
    else if size = 0 then some (.ok ([], r))
    else
      (rpacketRead mem r size).bind fun
        | (none, _) => some (.error broken)
        | (some out, r) => if out.length < size then none else some (.ok (out, r))

def rpacketReadStr (r : RPacket) : LuaResult (List Byte × RPacket) :=
  readString mem .stringSize .invaildPacket r

end Reading

/-! ## Sessions -/

inductive Field where
  | i8 (v : Int8)
  | i16 (v : Int16)
  | i32 (v : Int32)
  | i64 (v : Int64)
  | str (s : List Byte)
  deriving DecidableEq

inductive Kind where
  | i8
  | i16
  | i32
  | i64
  | str
  deriving DecidableEq, Repr

inductive Datum where
  | integer (v : Int64)
  | string (s : List Byte)
  deriving DecidableEq

def Field.kind : Field → Kind
  | .i8 _ => .i8
  | .i16 _ => .i16
  | .i32 _ => .i32
  | .i64 _ => .i64
  | .str _ => .str

def Field.datum : Field → Datum
  | .i8 v => .integer v.toInt64
  | .i16 v => .integer v.toInt64
  | .i32 v => .integer v.toInt64
  | .i64 v => .integer v
  | .str s => .string s

section Sessions

variable (junk : Nat → Nat → Byte)

def writeField (mem : Memory) (b : ByteBuffer) : Field → LuaResult (Memory × ByteBuffer)
  | .i8 v => wpacketWriteI8 junk mem b v.toInt64
  | .i16 v => wpacketWriteI16 junk mem b v.toInt64
  | .i32 v => wpacketWriteI32 junk mem b v.toInt64
  | .i64 v => wpacketWriteI64 junk mem b v
  | .str s => wpacketWriteStr junk mem b s

def writeFields : Memory → ByteBuffer → List Field → LuaResult (Memory × ByteBuffer)
  | mem, b, [] => some (.ok (mem, b))
  | mem, b, field :: fields =>
    LuaResult.next (writeField junk mem b field) fun (mem, b) => writeFields mem b fields

def writePacket (mem : Memory) (initcap : Nat) (fields : List Field) :
    LuaResult (Memory × ByteBuffer) :=
  (bytebufferNew junk mem initcap).bind fun (mem, b) =>
    LuaResult.next (newWpacket junk mem b) fun (mem, b) => writeFields junk mem b fields

def readKind (mem : Memory) (r : RPacket) : Kind → LuaResult (Datum × RPacket)
  | .i8 => (rpacketReadI8 mem r).map fun (v, r) => .ok (.integer v, r)
  | .i16 => (rpacketReadI16 mem r).map fun (v, r) => .ok (.integer v, r)
  | .i32 => (rpacketReadI32 mem r).map fun (v, r) => .ok (.integer v, r)
  | .i64 => (rpacketReadI64 mem r).map fun (v, r) => .ok (.integer v, r)
  | .str => (rpacketReadStr mem r).map fun result => result.map fun (s, r) => (.string s, r)

def readKinds (mem : Memory) : RPacket → List Kind → LuaResult (List Datum × RPacket)
  | r, [] => some (.ok ([], r))
  | r, kind :: kinds =>
    LuaResult.next (readKind mem r kind) fun (datum, r) =>
      LuaResult.next (readKinds mem r kinds) fun (data, r) => some (.ok (datum :: data, r))

def readPacket (mem : Memory) (b : ByteBuffer) (kinds : List Kind) :
    LuaResult (List Datum × RPacket) :=
  (newRpacket mem b).bind fun r => readKinds mem r kinds

end Sessions

end Chuck.PacketModel
