import Chuck.PacketModel
import Chuck.Support.BinaryFloat
import Chuck.Support.EntryList

/-!
# Source-shaped table serialisation

`WriteTable` and `ReadTable` of `luabind/packet.h` over Lua 5.3 values. A table is
the list of its entries in the order in which `lua_next` returns them. Tables that
are written carry their identity, which `check_cycle` looks at; the identity of
tables that are read plays no role. A function that returns -1 makes its caller do
so, up to the method, which raises an error.

`malloc` succeeds. Nobody calls `lua_checkstack`: `slots` is the number of free places on
the Lua stack, and a function that leaves the stack returns `none`.
-/

namespace Chuck.PacketTableModel

open Support.ByteOrder Support.BinaryFloat Support.EntryList ByteChunkModel PacketModel

/-! ## Values -/

inductive LuaNum where
  | integer (v : Int64)
  | float (bits : UInt64)
  deriving DecidableEq

inductive Key where
  | string (s : List Byte)
  | number (n : LuaNum)
  | other (id : Nat)
  deriving DecidableEq

inductive Value (Id : Type) where
  | string (s : List Byte)
  | boolean (b : Bool)
  | number (n : LuaNum)
  | other
  | table (id : Id) (metatable : Bool) (entries : List (Key × Value Id))

def Key.vaild : Key → Bool
  | .other _ => false
  | _ => true

def Value.vaild {Id : Type} : Value Id → Bool
  | .other => false
  | _ => true

inductive Tag where
  | table
  | string
  | bool
  | float
  | double
  | uint8
  | uint16
  | uint32
  | int8
  | int16
  | int32
  | int64
  deriving DecidableEq, Repr

def Tag.code : Tag → Byte
  | .table => 1
  | .string => 2
  | .bool => 3
  | .float => 4
  | .double => 5
  | .uint8 => 6
  | .uint16 => 7
  | .uint32 => 8
  | .int8 => 9
  | .int16 => 10
  | .int32 => 11
  | .int64 => 12

def Tag.ofCode : Byte → Option Tag
  | 1 => some .table
  | 2 => some .string
  | 3 => some .bool
  | 4 => some .float
  | 5 => some .double
  | 6 => some .uint8
  | 7 => some .uint16
  | 8 => some .uint32
  | 9 => some .int8
  | 10 => some .int16
  | 11 => some .int32
  | 12 => some .int64
  | _ => none

/-! ## Numbers -/

def luaNumber (v : Int64) : UInt64 := .ofNat (ofInt double v.toInt)

def toNumber : LuaNum → UInt64
  | .integer v => luaNumber v
  | .float bits => bits

def castInteger (v : UInt64) : Option Int64 :=
  (truncate double v.toNat).bind fun i =>
    if -2 ^ 63 ≤ i ∧ i < 2 ^ 63 then some (.ofInt i) else none

def encodeDouble (d : UInt64) : List Byte :=
  let f := convert double single d.toNat
  if same double d.toNat (convert single double f) then Tag.float.code :: bigEndian 4 f
  else Tag.double.code :: bigEndian 8 d.toNat

def positiveWrites (vu64 : UInt64) : List (List Byte) :=
  if vu64 ≤ 0xFF then [[Tag.uint8.code], littleEndian 1 vu64.toUInt8.toNat]
  else if vu64 ≤ 0xFFFF then
    [[Tag.uint16.code], littleEndian 2 (chkHton16 vu64.toUInt16).toNat]
  else if vu64 ≤ 0xFFFFFFFF then
    [[Tag.uint32.code], littleEndian 4 (chkHton32 vu64.toUInt32).toNat]
  else [[Tag.int64.code], littleEndian 8 (chkHton64 vu64).toNat]

/-- The writes of `_lua_pack_number` for a number that is not above 0. The bounds
are those for numbers above 0, so the first branch is always taken. -/
def negativeWrites (vi64 : Int64) : List (List Byte) :=
  if vi64 ≤ 0x80 then [[Tag.int8.code], littleEndian 1 vi64.toInt8.toUInt8.toNat]
  else if vi64 ≤ 0x8000 then
    [[Tag.int16.code], littleEndian 2 (chkHton16 vi64.toInt16.toUInt16).toNat]
  else if vi64 < 0x80000000 then
    [[Tag.int32.code], littleEndian 4 (chkHton32 vi64.toInt32.toUInt32).toNat]
  else [[Tag.int64.code], littleEndian 8 (chkHton64 vi64.toUInt64).toNat]

def numberWrites (v : UInt64) : Option (List (List Byte)) := do
  let i ← castInteger v
  if !same double v.toNat (luaNumber i).toNat then some [encodeDouble v]
  else if i > 0 then some (positiveWrites i.toUInt64)
  else some (negativeWrites i)

/-! ## Writing -/

structure PackState where
  checked : List Nat
  mem : Memory
  b : ByteBuffer

section Writing

variable (junk : Nat → Nat → Byte)

def packWrites (st : PackState) (vs : List (List Byte)) : Option (Bool × PackState) :=
  (wpacketWriteAll junk st.mem st.b vs).map fun (written, mem, b) =>
    (written, { st with mem := mem, b := b })

def packString (st : PackState) (s : List Byte) : LuaResult (Bool × PackState) :=
  (packWrites junk st ([Tag.string.code] :: stringWrites s)).map .ok

/-- `_lua_pack_boolean`; the value is also the number of its bytes. -/
def packBoolean (st : PackState) (value : Bool) : LuaResult (Bool × PackState) :=
  (packWrites junk st [[Tag.bool.code], [value.toUInt8].take value.toNat]).map .ok

def packNumber (st : PackState) (n : LuaNum) : LuaResult (Bool × PackState) :=
  (numberWrites (toNumber n)).bind fun writes =>
    (packWrites junk st writes).map fun
      | (true, st) => .ok (true, st)
      | (false, _) => .error .beyondLimited

def packKey (st : PackState) : Key → LuaResult (Bool × PackState)
  | .string s => packString junk st s
  | .number n => packNumber junk st n
  | .other _ => some (.ok (false, st))

/-- `_lua_pack_table` around its loop. The number of entries is written last, over
four bytes kept for it. -/
def packCounted (slots id : Nat) (entries : PackState → LuaResult (Bool × Nat × PackState))
    (st : PackState) : LuaResult (Bool × PackState) :=
  if id ∈ st.checked then some (.error .tableCycle)
  else
    (packWrites junk { st with checked := st.checked ++ [id] } [[Tag.table.code]]).bind fun
      | (false, st) => some (.ok (false, st))
      | (true, st) =>
        let chunk := st.b.tail
        let pos := st.b.appendPos
        (packWrites junk st [littleEndian 4 0]).bind fun
          | (false, st) => some (.ok (false, st))
          | (true, st) =>
            if slots = 0 then none
            else
              LuaResult.next (entries st) fun
                | (false, _, st) => some (.ok (false, st))
                | (true, c, st) =>
                  (bytechunkWrite st.mem chunk pos
                    (littleEndian 4 (chkHton32 (.ofNat c)).toNat)).map fun (mem, _) =>
                      .ok (true, { st with mem := mem })

mutual

def packValue (slots : Nat) : Value Nat → PackState → LuaResult (Bool × PackState)
  | .string s, st => packString junk st s
  | .number n, st => packNumber junk st n
  | .boolean b, st => packBoolean junk st b
  | .table id metatable entries, st =>
    if metatable then if slots = 0 then none else some (.ok (false, st))
    else packCounted junk slots id (packEntries slots entries 0) st
  | .other, st => some (.ok (false, st))

/-- The key and the value lie on the stack while they are written. -/
def packEntries (slots : Nat) :
    List (Key × Value Nat) → Nat → PackState → LuaResult (Bool × Nat × PackState)
  | [], c, st => some (.ok (true, c, st))
  | (key, value) :: rest, c, st =>
    if slots < 2 then none
    else if key.vaild && value.vaild then
      LuaResult.next (packKey junk st key) fun
        | (false, st) => some (.ok (false, c, st))
        | (true, st) =>
          LuaResult.next (packValue (slots - 2) value st) fun
            | (false, st) => some (.ok (false, c, st))
            | (true, st) => packEntries slots rest (c + 1) st
    else packEntries slots rest c st

end

/-- `lua_wpacket_writeTable`; `checked` is what an earlier error left on
`cycle_check_list`. -/
def wpacketWriteTable (slots : Nat) (checked : List Nat) (mem : Memory) (b : ByteBuffer) :
    Value Nat → LuaResult (Memory × ByteBuffer)
  | .table id _ entries =>
    let packed := packCounted junk slots id (packEntries junk slots entries 0) ⟨checked, mem, b⟩
    LuaResult.next packed fun
      | (true, st) => some (.ok (st.mem, st.b))
      | (false, _) => some (.error .writeTable)
  | _ => some (.error .notTable)

end Writing

/-! ## Reading -/

/-- The key under which `lua_rawset` stores an entry: a float with an integer value is that
integer, and there is no key for a NaN. -/
def normalKey : Key → Option Key
  | .number (.float bits) =>
    match decode double bits.toNat, castInteger bits with
    | .nan, _ => none
    | _, some i =>
      if same double bits.toNat (luaNumber i).toNat then some (.number (.integer i))
      else some (.number (.float bits))
    | _, none => some (.number (.float bits))
  | key => some key

section Reading

variable (mem : Memory)

def readTag (r : RPacket) : Option (Option Tag × RPacket) := do
  let (n, r) ← rpacketReadValue mem r 1
  some (Tag.ofCode (.ofNat n), r)

def readFloat (r : RPacket) (size : Nat) : Option (Nat × RPacket) := do
  let (out, r) ← rpacketRead mem r size
  let bytes ← out
  if bytes.length < size then none else some (bigValue bytes, r)

/-- `_lua_unpack_number`. The 16 and 32 bits of `L_INT16` and `L_INT32` come
unsigned from `chk_ntoh16` and `chk_ntoh32`. -/
def unpackNumber (r : RPacket) : Tag → Option (LuaNum × RPacket)
  | .float => do
      let (f, r) ← readFloat mem r 4
      some (.float (.ofNat (convert single double f)), r)
  | .double => do
      let (d, r) ← readFloat mem r 8
      some (.float (.ofNat d), r)
  | .uint8 => do
      let (n, r) ← rpacketReadValue mem r 1
      some (.integer (UInt8.ofNat n).toUInt64.toInt64, r)
  | .uint16 | .int16 => do
      let (n, r) ← rpacketReadValue mem r 2
      some (.integer (chkNtoh16 (.ofNat n)).toUInt64.toInt64, r)
  | .uint32 | .int32 => do
      let (n, r) ← rpacketReadValue mem r 4
      some (.integer (chkNtoh32 (.ofNat n)).toUInt64.toInt64, r)
  | .int8 => do
      let (n, r) ← rpacketReadValue mem r 1
      some (.integer (UInt8.ofNat n).toInt8.toInt64, r)
  | .int64 => do
      let (n, r) ← rpacketReadValue mem r 8
      some (.integer (chkNtoh64 (.ofNat n)).toInt64, r)
  | .table | .string | .bool => none

/-- `LUAL_BUFFERSIZE`; a longer string is built in a userdata on the stack. -/
def lualBuffersize : Nat := 8192

def stringSlots (s : List Byte) : Nat := if s.length > lualBuffersize then 2 else 1

def unpackString (slots : Nat) (r : RPacket) : LuaResult (List Byte × RPacket) :=
  LuaResult.next (readString mem .tableString .tablePacket r) fun (s, r) =>
    if slots < stringSlots s then none else some (.ok (s, r))

def unpackBoolean (r : RPacket) : Option (Bool × RPacket) := do
  let (n, r) ← rpacketReadValue mem r 1
  some (n != 0, r)

def unpackKey (slots : Nat) (r : RPacket) : Option Tag → LuaResult (Key × RPacket)
  | some .string =>
    (unpackString mem slots r).map fun result => result.map fun (s, r) => (.string s, r)
  | some .table | some .bool | none => some (.error .tablePacket)
  | some tag =>
    if slots = 0 then none else (unpackNumber mem r tag).map fun (n, r) => .ok (.number n, r)

def unpackValue (slots : Nat) (inner : RPacket → LuaResult (Value Unit × RPacket)) (r : RPacket) :
    Option Tag → LuaResult (Value Unit × RPacket)
  | some .string =>
    (unpackString mem slots r).map fun result => result.map fun (s, r) => (.string s, r)
  | some .bool =>
    if slots = 0 then none else (unpackBoolean mem r).map fun (b, r) => .ok (.boolean b, r)
  | some .table => inner r
  | none => some (.error .tablePacket)
  | some tag =>
    if slots = 0 then none else (unpackNumber mem r tag).map fun (n, r) => .ok (.number n, r)

/-- The value is pushed behind the key. -/
def unpackEntry (slots : Nat) (inner : RPacket → LuaResult (Value Unit × RPacket)) (r : RPacket) :
    LuaResult (Key × Value Unit × RPacket) :=
  (readTag mem r).bind fun (keyType, r) =>
    LuaResult.next (unpackKey mem slots r keyType) fun (key, r) =>
      (readTag mem r).bind fun (valueType, r) =>
        LuaResult.next (unpackValue mem (slots - 1) inner r valueType) fun (value, r) =>
          match normalKey key with
          | some key => some (.ok (key, value, r))
          | none => some (.error .indexNaN)

def unpackEntries (slots : Nat) (inner : RPacket → LuaResult (Value Unit × RPacket)) :
    Nat → RPacket → List (Key × Value Unit) → LuaResult (List (Key × Value Unit) × RPacket)
  | 0, r, entries => some (.ok (entries, r))
  | n + 1, r, entries =>
    LuaResult.next (unpackEntry mem slots inner r) fun (key, value, r) =>
      unpackEntries slots inner n r (store entries key value)

/-- `_lua_unpack_table`. The size is compared as an unsigned number and counted as a signed
one. A table inside this one is pushed behind it and its key. -/
def unpackTable : Nat → RPacket → LuaResult (Value Unit × RPacket)
  | slots, r =>
    (rpacketReadValue mem r 4).bind fun (n, r) =>
      let size := chkNtoh32 (.ofNat n)
      if size.toNat > r.dataRemain then some (.error .tablePacket)
      else
        match slots with
        | 0 => none
        | slots + 1 =>
          let inner := match slots with
            | 0 => fun _ => none
            | slots + 1 => unpackTable slots
          LuaResult.next (unpackEntries mem slots inner size.toInt32.toInt.toNat r [])
            fun (entries, r) => some (.ok (.table () false entries, r))

def rpacketReadTable (slots : Nat) (r : RPacket) : LuaResult (Value Unit × RPacket) :=
  (readTag mem r).bind fun
    | (some .table, r) => unpackTable mem slots r
    | _ => some (.error .tablePacket)

end Reading

end Chuck.PacketTableModel
