import Chuck.PacketTableWriting
import Chuck.PacketReading

/-!
# What `ReadTable` reads

As long as no `false` is among them, the reader takes entries off as they were
written; integers that are not above 0 come back from one byte, and a string comes
back with its length modulo `2 ^ 32`. A round of its loop stores one entry, whatever
the bytes are. Each level of a table takes two places on the Lua stack.
-/

namespace Chuck.PacketTableReading

open Support.ByteOrder Support.EntryList ByteChunkModel PacketModel NetworkOrder PacketReading
open PacketTableModel PacketTableValues PacketTableWriting
open List hiding lookup_cons

variable (v : Value Nat) (es : List (Key × Value Nat))

/-! ## What comes back -/

def stringBack (s : List Byte) : List Byte := s.take (s.length % 2 ^ 32)

def integerBack (v : Int64) : Int64 := if v > 0 then v else v.toInt8.toInt64

def keyBack : Key → Key
  | .string s => .string (stringBack s)
  | .number (.integer v) => .number (.integer (integerBack v))
  | key => key

mutual

def valueBack : Value Nat → Value Unit
  | .string s => .string (stringBack s)
  | .boolean b => .boolean b
  | .number (.integer v) => .number (.integer (integerBack v))
  | .number (.float bits) => .number (.float bits)
  | .other => .other
  | .table _ _ es => .table () false (entriesBack es [])

def entriesBack : List (Key × Value Nat) → List (Key × Value Unit) → List (Key × Value Unit)
  | [], stored => stored
  | (key, value) :: rest, stored =>
    entriesBack rest (store stored (keyBack key) (valueBack value))

end

/-- The userdata in which a long string is built is on the stack as well. -/
def leafSlots : Value Nat → Nat
  | .string s => stringSlots (stringBack s)
  | _ => 1

def keySlots : Key → Nat
  | .string s => stringSlots (stringBack s)
  | _ => 1

/-- The table, its key and its value lie on the stack, and a table inside it behind its key. -/
def readSlots : Value Nat → Nat := places (fun key => keySlots key + 1) leafSlots

def entriesReadSlots : List (Key × Value Nat) → Nat :=
  entriesPlaces (fun key => keySlots key + 1) leafSlots

theorem read_slots_table (id : Nat) (metatable : Bool) (es : List (Key × Value Nat)) :
    readSlots (.table id metatable es) = max 1 (entriesReadSlots es) := by
  rw [readSlots, places]
  rfl

theorem entries_read_slots_cons (key : Key) (v : Value Nat) (es : List (Key × Value Nat)) :
    entriesReadSlots ((key, v) :: es) =
      max (max (keySlots key + 1) (readSlots v + 2)) (entriesReadSlots es) := by
  rw [entriesReadSlots, entriesPlaces]
  rfl

/-! ## Reading in step -/

section Steps

variable {mem : Memory} {r : RPacket} {rest : List Byte}

theorem of_code_code (tag : Tag) : Tag.ofCode tag.code = some tag := by
  cases tag <;> rfl

theorem read_tag {byte : Byte} (reads : Reads mem r (byte :: rest)) :
    ∃ next, readTag mem r = some (Tag.ofCode byte, next) ∧ Reads mem next rest := by
  have one : Reads mem r ([byte] ++ rest) := reads
  obtain ⟨next, ran, left⟩ := one.readValue
  rw [length_singleton] at ran
  have value : UInt8.ofNat (littleValue [byte]) = byte := by
    rw [littleValue, littleValue, Nat.mul_zero, Nat.add_zero, UInt8.ofNat_toNat]
  exact ⟨next, by simp only [readTag, ran, Option.bind_eq_bind, Option.bind_some, value], left⟩

theorem to_int64_narrow {v : Int64} {n : UInt64} (same : n.toNat = v.toUInt64.toNat) :
    n.toInt64 = v := by
  rw [UInt64.toNat_inj.mp same]
  rfl

theorem read_integer (v : Int64) (reads : Reads mem r ((integerWrites v).flatten ++ rest)) :
    ∃ tag middle next, readTag mem r = some (some tag, middle) ∧
      unpackNumber mem middle tag = some (.integer (integerBack v), next) ∧
      (tag ≠ .string ∧ tag ≠ .table ∧ tag ≠ .bool) ∧ Reads mem next rest := by
  have start : ∀ (tag : Tag) (bytes : List Byte),
      Reads mem r ([[tag.code], bytes].flatten ++ rest) → ∃ middle,
        readTag mem r = some (some tag, middle) ∧ Reads mem middle (bytes ++ rest) := by
    intro tag bytes reads
    rw [flatten_cons, flatten_singleton, append_assoc] at reads
    obtain ⟨middle, ran, left⟩ := read_tag reads
    rw [of_code_code] at ran
    exact ⟨middle, ran, left⟩
  have narrow : ∀ n : Nat, v.toUInt64.toNat ≤ n → v.toUInt64.toNat % (n + 1) = v.toUInt64.toNat :=
    fun n small => Nat.mod_eq_of_lt (by omega)
  rw [integerWrites] at reads
  rw [integerBack]
  by_cases positive : v > 0
  · rw [if_pos positive, positiveWrites] at reads
    rw [if_pos positive]
    split_ifs at reads with byte short word
    · obtain ⟨middle, tagged, left⟩ := start .uint8 _ reads
      obtain ⟨next, ran, last⟩ := left.readValue
      rw [length_little_endian, little_value_of_lt (UInt8.toNat_lt _)] at ran
      refine ⟨_, middle, next, tagged, ?_, by decide, last⟩
      simp only [unpackNumber, ran, Option.bind_eq_bind, Option.bind_some, UInt8.ofNat_toNat]
      rw [to_int64_narrow (v := v)]
      have := UInt64.le_iff_toNat_le.mp byte
      simp only [UInt8.toNat_toUInt64, UInt64.toNat_toUInt8]
      exact narrow 255 this
    · rw [hton16_bytes] at reads
      obtain ⟨middle, tagged, left⟩ := start .uint16 _ reads
      obtain ⟨next, ran, last⟩ := left.readValue
      rw [length_big_endian] at ran
      refine ⟨_, middle, next, tagged, ?_, by decide, last⟩
      simp only [unpackNumber, ran, Option.bind_eq_bind, Option.bind_some, ntoh16_value]
      rw [to_int64_narrow (v := v)]
      have := UInt64.le_iff_toNat_le.mp short
      simp only [UInt16.toNat_toUInt64, UInt64.toNat_toUInt16]
      exact narrow 65535 this
    · rw [hton32_bytes] at reads
      obtain ⟨middle, tagged, left⟩ := start .uint32 _ reads
      obtain ⟨next, ran, last⟩ := left.readValue
      rw [length_big_endian] at ran
      refine ⟨_, middle, next, tagged, ?_, by decide, last⟩
      simp only [unpackNumber, ran, Option.bind_eq_bind, Option.bind_some, ntoh32_value]
      rw [to_int64_narrow (v := v)]
      have := UInt64.le_iff_toNat_le.mp word
      simp only [UInt32.toNat_toUInt64, UInt64.toNat_toUInt32]
      exact narrow 4294967295 this
    · rw [hton64_bytes] at reads
      obtain ⟨middle, tagged, left⟩ := start .int64 _ reads
      obtain ⟨next, ran, last⟩ := left.readValue
      rw [length_big_endian] at ran
      refine ⟨_, middle, next, tagged, ?_, by decide, last⟩
      simp only [unpackNumber, ran, Option.bind_eq_bind, Option.bind_some, ntoh64_value]
      rfl
  · have low : v ≤ 0x80 := by
      apply Int64.le_iff_toInt_le.mpr
      have := Int64.le_iff_toInt_le.mp (Int64.not_lt.mp positive)
      exact Int.le_trans this (by decide)
    rw [if_neg positive, negativeWrites, if_pos low] at reads
    rw [if_neg positive]
    obtain ⟨middle, tagged, left⟩ := start .int8 _ reads
    obtain ⟨next, ran, last⟩ := left.readValue
    rw [length_little_endian, little_value_of_lt (UInt8.toNat_lt _)] at ran
    refine ⟨_, middle, next, tagged, ?_, by decide, last⟩
    simp only [unpackNumber, ran, Option.bind_eq_bind, Option.bind_some, UInt8.ofNat_toNat]
    rfl

theorem read_string (s : List Byte) (reads : Reads mem r (stringBytes s ++ rest)) :
    ∃ middle next, readTag mem r = some (some .string, middle) ∧
      (∀ slots, unpackString mem slots middle =
        if slots < stringSlots (stringBack s) then none else some (.ok (stringBack s, next))) ∧
      Reads mem next rest := by
  have positive : 0 < 2 ^ 32 := by decide
  have size : (stringBack s).length = s.length % 2 ^ 32 := by
    rw [stringBack, length_take]
    exact Nat.min_eq_left (Nat.mod_le _ _)
  have number : bigEndian 4 s.length = bigEndian 4 (stringBack s).length := by
    rw [size, bigEndian, bigEndian, ← little_endian_mod 4 s.length]
    rfl
  rw [stringBytes, cons_append, append_assoc, number] at reads
  obtain ⟨middle, tagged, left⟩ := read_tag reads
  obtain ⟨next, ran, last⟩ := left.readString .tableString .tablePacket
    (by rw [size]; exact Nat.mod_lt _ positive)
  exact ⟨middle, next, tagged, fun slots => by rw [unpackString, ran]; rfl, last⟩

theorem unpack_key_number {tag : Tag} (number : tag ≠ .string ∧ tag ≠ .table ∧ tag ≠ .bool)
    (slots : Nat) (middle : RPacket) : unpackKey mem slots middle (some tag) =
      if slots = 0 then none else (unpackNumber mem middle tag).map fun (n, r) =>
        .ok (.number n, r) := by
  cases tag <;> first | rfl | exact absurd rfl number.1 | exact absurd rfl number.2.1 |
    exact absurd rfl number.2.2

theorem unpack_value_number {tag : Tag} (number : tag ≠ .string ∧ tag ≠ .table ∧ tag ≠ .bool)
    (slots : Nat) (inner : RPacket → LuaResult (Value Unit × RPacket)) (middle : RPacket) :
    unpackValue mem slots inner middle (some tag) =
      if slots = 0 then none else (unpackNumber mem middle tag).map fun (n, r) =>
        .ok (.number n, r) := by
  cases tag <;> first | rfl | exact absurd rfl number.1 | exact absurd rfl number.2.1 |
    exact absurd rfl number.2.2

theorem read_key {key : Key} (plain : PlainKey key) (reads : Reads mem r (keyBytes key ++ rest)) :
    ∃ tag middle next, readTag mem r = some (tag, middle) ∧ Reads mem next rest ∧
      ∀ slots, unpackKey mem slots middle tag =
        if slots < keySlots key then none else some (.ok (keyBack key, next)) := by
  cases key with
  | string s =>
    obtain ⟨middle, next, tagged, ran, left⟩ := read_string s reads
    refine ⟨_, middle, next, tagged, left, fun slots => ?_⟩
    rw [unpackKey, ran, apply_ite (Option.map _)]
    rfl
  | number n =>
    cases n with
    | integer v =>
      obtain ⟨tag, middle, next, tagged, ran, number, left⟩ := read_integer v reads
      refine ⟨_, middle, next, tagged, left, fun slots => ?_⟩
      have one : keySlots (.number (.integer v)) = 1 := rfl
      rw [unpack_key_number number, ran, one]
      simp only [Nat.lt_one_iff]
      rfl
    | float bits => exact absurd plain id
  | other i => exact absurd plain id

theorem normal_key_back {key : Key} (plain : PlainKey key) :
    normalKey (keyBack key) = some (keyBack key) := by
  cases key with
  | string s => rfl
  | number n =>
    cases n with
    | integer v => rfl
    | float bits => exact absurd plain id
  | other i => exact absurd plain id

def taggedValue (mem : Memory) (slots : Nat) (r : RPacket) : LuaResult (Value Unit × RPacket) :=
  (readTag mem r).bind fun (tag, r) => unpackValue mem slots (unpackTable mem slots) r tag

/-- What `unpackTable` gives its loop for the tables inside. -/
def innerTable (mem : Memory) : Nat → RPacket → LuaResult (Value Unit × RPacket)
  | 0 => fun _ => none
  | slots + 1 => unpackTable mem slots

theorem key_slots_pos (key : Key) : 0 < keySlots key := by
  rw [keySlots.eq_def]
  cases key with
  | string s =>
    simp only [stringSlots]
    split_ifs <;> omega
  | _ => exact Nat.one_pos

theorem read_entry_key {key : Key} (plain : PlainKey key)
    (reads : Reads mem r (keyBytes key ++ rest)) :
    ∃ next, Reads mem next rest ∧ ∀ slots, unpackEntry mem slots (innerTable mem slots) r =
      if slots < keySlots key then none
      else LuaResult.next (taggedValue mem (slots - 1) next) fun (value, r) =>
        some (.ok (keyBack key, value, r)) := by
  obtain ⟨tag, middle, next, tagged, left, ran⟩ := read_key plain reads
  refine ⟨next, left, fun slots => ?_⟩
  have positive := key_slots_pos key
  rw [unpackEntry, tagged]
  simp only [Option.bind_some, ran]
  split_ifs with less
  · rfl
  obtain ⟨slots, rfl⟩ := Nat.exists_eq_succ_of_ne_zero (show slots ≠ 0 by omega)
  simp only [LuaResult.next, normal_key_back plain, taggedValue, innerTable, Nat.succ_sub_one]
  cases readTag mem next with
  | none => rfl
  | some result => rfl

end Steps

/-! ## Sizes -/

theorem integer_writes_length (v : Int64) : 2 ≤ (integerWrites v).flatten.length := by
  rw [integerWrites, positiveWrites, negativeWrites]
  split_ifs <;> simp

theorem key_bytes_length {key : Key} (plain : PlainKey key) : 2 ≤ (keyBytes key).length := by
  cases key with
  | string s =>
    rw [keyBytes, stringBytes, length_cons, length_append, length_big_endian]
    omega
  | number n =>
    cases n with
    | integer v => exact integer_writes_length v
    | float bits => exact absurd plain id
  | other i => exact absurd plain id

theorem value_bytes_length {v : Value Nat} (plain : Plain v) : 1 ≤ (valueBytes v).length := by
  cases v with
  | string s => rw [valueBytes, stringBytes, length_cons]; omega
  | boolean b => rw [valueBytes, length_cons]; omega
  | number n =>
    cases n with
    | integer v => exact Nat.le_of_succ_le (integer_writes_length v)
    | float bits => exact absurd plain id
  | other => exact absurd plain id
  | table id metatable es => rw [valueBytes, length_cons]; omega

theorem entries_bytes_length (parts : ∀ key v, (key, v) ∈ es → PlainKey key ∧ Plain v) :
    3 * es.length ≤ (entriesBytes es).length := by
  induction es with
  | nil => exact Nat.le_refl 0
  | cons entry es ih =>
    obtain ⟨key, v⟩ := entry
    obtain ⟨plainKey, plain⟩ := parts key v mem_cons_self
    have first := key_bytes_length plainKey
    have second := value_bytes_length plain
    have rest := ih fun k w member => parts k w (mem_cons_of_mem _ member)
    rw [entriesBytes, length_append, length_append, length_cons]
    omega

/-! ## Values without `false` -/

section Values

def ReadsValue (v : Value Nat) : Prop :=
  ∀ mem r rest, (valueBytes v).length < 2 ^ 32 → Reads mem r (valueBytes v ++ rest) →
    ∃ next, Reads mem next rest ∧ ∀ slots, taggedValue mem slots r =
      if slots < readSlots v then none else some (.ok (valueBack v, next))

variable {mem : Memory}

theorem read_entries (parts : ∀ key v, (key, v) ∈ es → PlainKey key ∧ Plain v)
    (reading : ∀ key v, (key, v) ∈ es → ReadsValue v) (r : RPacket) (rest : List Byte)
    (stored : List (Key × Value Unit)) (small : (entriesBytes es).length < 2 ^ 32)
    (reads : Reads mem r (entriesBytes es ++ rest)) :
    ∃ next, Reads mem next rest ∧ ∀ slots,
      unpackEntries mem slots (innerTable mem slots) es.length r stored =
        if slots + 1 < entriesReadSlots es then none
        else some (.ok (entriesBack es stored, next)) := by
  induction es generalizing r stored with
  | nil => exact ⟨r, reads, fun slots => (if_neg (Nat.not_lt_zero (slots + 1))).symm⟩
  | cons entry es ih =>
    obtain ⟨key, v⟩ := entry
    rw [entriesBytes, length_append, length_append] at small
    rw [entriesBytes, append_assoc, append_assoc] at reads
    obtain ⟨middle, valueReads, entry⟩ := read_entry_key (parts key v mem_cons_self).1 reads
    obtain ⟨next, left, ran⟩ := reading key v mem_cons_self mem middle _ (by omega) valueReads
    obtain ⟨last, final, others⟩ := ih
      (fun k w member => parts k w (mem_cons_of_mem _ member))
      (fun k w member => reading k w (mem_cons_of_mem _ member)) next
      (store stored (keyBack key) (valueBack v)) (by omega) left
    refine ⟨last, final, fun slots => ?_⟩
    rw [length_cons, unpackEntries, entry, ran, entries_read_slots_cons]
    by_cases first : slots < keySlots key
    · rw [if_pos first, if_pos (by omega)]
      rfl
    by_cases second : slots - 1 < readSlots v
    · rw [if_neg first, if_pos second, if_pos (by omega)]
      rfl
    have positive := key_slots_pos key
    have more : slots + 1 < max (max (keySlots key + 1) (readSlots v + 2)) (entriesReadSlots es) ↔
        slots + 1 < entriesReadSlots es := by
      omega
    rw [if_neg first, if_neg second]
    exact (others slots).trans (if_congr more.symm rfl rfl)

theorem signed_size {n : Nat} (small : n < 2 ^ 31) {size : UInt32} (same : size.toNat = n) :
    size.toInt32.toInt.toNat = n := by
  have signed : size.toInt32.toInt = size.toNat := by
    apply BitVec.toInt_eq_toNat_of_lt
    exact (show 2 * size.toNat < 2 ^ 32 by omega)
  rw [signed, same]
  rfl

theorem read_table {es : List (Key × Value Nat)}
    (parts : ∀ key v, (key, v) ∈ es → PlainKey key ∧ Plain v)
    {r : RPacket} {rest : List Byte} (small : (entriesBytes es).length < 2 ^ 32)
    (reads : Reads mem r (bigEndian 4 es.length ++ (entriesBytes es ++ rest))) :
    ∃ next, Reads mem next (entriesBytes es ++ rest) ∧ unpackTable mem 0 r = none ∧
      ∀ slots, unpackTable mem (slots + 1) r =
        LuaResult.next (unpackEntries mem slots (innerTable mem slots) es.length next [])
          fun (entries, r) => some (.ok (.table () false entries, r)) := by
  have count := entries_bytes_length es parts
  obtain ⟨n, next, ran, size, left⟩ := reads.readSize (by omega)
  have remain := left.counted
  rw [length_append] at remain
  refine ⟨next, left, ?_, fun slots => ?_⟩
  · rw [unpackTable, ran]
    simp only [Option.bind_some]
    rw [if_neg (by omega)]
  · rw [unpackTable, ran]
    simp only [Option.bind_some]
    rw [if_neg (by omega), signed_size (by omega) size]
    cases slots <;> rfl

theorem read_value (plain : Plain v) (clean : NoFalse v) : ReadsValue v := by
  induction v using value_induction with
  | string s =>
    intro mem r rest _ reads
    obtain ⟨middle, next, tagged, ran, left⟩ := read_string s reads
    refine ⟨next, left, fun slots => ?_⟩
    rw [taggedValue, tagged, Option.bind_some]
    simp only [unpackValue, ran, apply_ite (Option.map _)]
    rfl
  | boolean b =>
    obtain rfl : b = true := clean
    intro mem r rest _ reads
    obtain ⟨middle, tagged, left⟩ := read_tag reads
    have one : Reads mem middle ([1] ++ rest) := left
    obtain ⟨next, ran, last⟩ := one.readValue
    refine ⟨next, last, fun slots => ?_⟩
    rw [length_singleton] at ran
    rw [taggedValue, tagged, of_code_code, Option.bind_some]
    simp only [unpackValue, unpackBoolean, ran, Option.bind_eq_bind, Option.bind_some, readSlots,
      places, leafSlots, Nat.lt_one_iff]
    rfl
  | number n =>
    cases n with
    | integer v =>
      intro mem r rest _ reads
      obtain ⟨tag, middle, next, tagged, ran, number, left⟩ := read_integer v reads
      refine ⟨next, left, fun slots => ?_⟩
      rw [taggedValue, tagged, Option.bind_some]
      simp only [unpack_value_number number, ran, readSlots, places, leafSlots, Nat.lt_one_iff]
      rfl
    | float bits => exact absurd plain id
  | other => exact absurd plain id
  | table id metatable es ih =>
    obtain ⟨-, parts⟩ := plain_table_iff.mp plain
    have cleanParts := no_false_table_iff.mp clean
    intro mem r rest small reads
    rw [valueBytes, length_cons, length_append, length_big_endian] at small
    rw [valueBytes, cons_append, append_assoc] at reads
    obtain ⟨middle, tagged, left⟩ := read_tag reads
    obtain ⟨inside, entriesReads, full, ran⟩ := read_table parts (by omega) left
    have reading : ∀ key v, (key, v) ∈ es → ReadsValue v :=
      fun key v member => ih (key, v) member (parts key v member).2 (cleanParts key v member)
    obtain ⟨next, last, entries⟩ := read_entries es parts reading inside rest [] (by omega)
      entriesReads
    refine ⟨next, last, fun slots => ?_⟩
    rw [taggedValue, tagged, of_code_code, Option.bind_some, read_slots_table]
    simp only [unpackValue]
    cases slots with
    | zero => rw [full, if_pos (by omega)]
    | succ slots =>
      rw [ran, entries]
      by_cases less : slots + 1 < entriesReadSlots es
      · rw [if_pos less, if_pos (by omega)]
        rfl
      · rw [if_neg less, if_neg (by omega)]
        rfl

end Values

/-! ## What comes back is in range -/

theorem string_back_length (s : List Byte) : (stringBack s).length < 2 ^ 32 := by
  have positive : 0 < 2 ^ 32 := by decide
  rw [stringBack, length_take]
  exact Nat.lt_of_le_of_lt (Nat.min_le_left _ _) (Nat.mod_lt _ positive)

theorem integer_back_range (v : Int64) : -128 ≤ (integerBack v).toInt := by
  rw [integerBack]
  split_ifs with positive
  · have := Int64.lt_iff_toInt_lt.mp positive
    have zero : (0 : Int64).toInt = 0 := rfl
    omega
  · rw [Int8.toInt_toInt64]
    exact Int8.le_toInt _

theorem key_back_range {key : Key} : KeyInRange (keyBack key) := by
  cases key with
  | string s => exact string_back_length s
  | number n =>
    cases n with
    | integer v => exact integer_back_range v
    | float bits => trivial
  | other i => trivial

theorem value_back_range : InRange (valueBack v) := by
  induction v using value_induction with
  | string s => exact string_back_length s
  | boolean b => trivial
  | number n =>
    cases n with
    | integer v => exact integer_back_range v
    | float bits => trivial
  | other => trivial
  | table id metatable es ih =>
    have stored : ∀ (es : List (Key × Value Nat)) (stored : List (Key × Value Unit)),
        (∀ entry ∈ es, InRange (valueBack entry.2)) →
        (∀ key v, (key, v) ∈ stored → KeyInRange key ∧ InRange v) →
        ∀ key v, (key, v) ∈ entriesBack es stored → KeyInRange key ∧ InRange v := by
      intro es
      induction es with
      | nil => exact fun _ _ old => old
      | cons entry es inner =>
        obtain ⟨key, v⟩ := entry
        intro stored parts old
        rw [entriesBack]
        apply inner _ fun entry member => parts entry (mem_cons_of_mem _ member)
        intro k w member
        rcases mem_store member with ⟨rfl, rfl⟩ | before
        · exact ⟨key_back_range, parts (key, v) mem_cons_self⟩
        · exact old k w before
    rw [valueBack, in_range_table_iff]
    exact stored es [] ih nofun

/-! ## Values in range come back -/

theorem string_back_same {s : List Byte} (small : s.length < 2 ^ 32) : stringBack s = s := by
  rw [stringBack, Nat.mod_eq_of_lt small, take_length]

theorem integer_back_same {v : Int64} (range : -128 ≤ v.toInt) : integerBack v = v := by
  rw [integerBack]
  split_ifs with positive
  · rfl
  · have low := Int64.le_iff_toInt_le.mp (Int64.not_lt.mp positive)
    have zero : (0 : Int64).toInt = 0 := rfl
    apply Int64.toInt_inj.mp
    rw [Int8.toInt_toInt64, Int64.toInt_toInt8, Int.bmod_eq_of_le (by omega) (by omega)]

theorem key_back_same {key : Key} (range : KeyInRange key) : keyBack key = key := by
  cases key with
  | string s => rw [keyBack, string_back_same range]
  | number n =>
    cases n with
    | integer v => rw [keyBack, integer_back_same range]
    | float bits => rfl
  | other i => rfl

theorem entries_back_lookup
    (same : ∀ key v, (key, v) ∈ es → keyBack key = key) (distinct : (keys es).Nodup)
    (stored : List (Key × Value Unit)) (apart : ∀ key ∈ keys es, key ∉ keys stored) :
    (entriesBack es stored).length = stored.length + es.length ∧
      ∀ key, (entriesBack es stored).lookup key =
        ((es.lookup key).map valueBack).or (stored.lookup key) := by
  induction es generalizing stored with
  | nil =>
    rw [entriesBack]
    exact ⟨rfl, fun key => rfl⟩
  | cons entry es ih =>
    obtain ⟨key, v⟩ := entry
    rw [Support.EntryList.keys, map_cons, nodup_cons] at distinct
    have here := same key v mem_cons_self
    have new := apart key (mem_keys mem_cons_self)
    have rest := ih (fun k w member => same k w (mem_cons_of_mem _ member)) distinct.2
      (store stored key (valueBack v)) (by
        intro k member old
        obtain ⟨⟨k', w⟩, inside, rfl⟩ := mem_map.mp old
        rcases mem_store inside with ⟨rfl, -⟩ | before
        · exact distinct.1 member
        · exact apart k' (mem_cons_of_mem _ member) (mem_keys before))
    rw [entriesBack, here]
    constructor
    · rw [rest.1, length_store, if_neg new, length_cons]
      omega
    · intro k
      rw [rest.2, lookup_store, lookup_cons]
      by_cases this : k = key
      · subst this
        rw [if_pos rfl, if_pos rfl, lookup_none_iff.mpr distinct.1]
        rfl
      · rw [if_neg this, if_neg this]

theorem value_back_equal (plain : Plain v) (range : InRange v) :
    equalValue v (valueBack v) = true := by
  induction v using value_induction with
  | string s =>
    rw [valueBack, string_back_same range]
    simp [equalValue]
  | boolean b => simp [valueBack, equalValue]
  | number n =>
    cases n with
    | integer v =>
      rw [valueBack, integer_back_same range]
      simp [equalValue]
    | float bits => exact absurd plain id
  | other => exact absurd plain id
  | table id metatable es ih =>
    obtain ⟨⟨-, distinct⟩, parts⟩ := plain_table_iff.mp plain
    have ranges := in_range_table_iff.mp range
    obtain ⟨length, found⟩ := entries_back_lookup es
      (fun key v member => key_back_same (ranges key v member).1) distinct []
      fun _ _ => not_mem_nil
    rw [valueBack, equal_table_iff]
    constructor
    · rw [length, length_nil, Nat.zero_add]
    · intro key v member
      refine ⟨valueBack v, ?_, ih (key, v) member (parts key v member).2 (ranges key v member).2⟩
      rw [found, lookup_of_mem distinct member]
      rfl

/-! ## Any bytes -/

theorem next_ok {First Second : Type} {first : LuaResult First}
    {rest : First → LuaResult Second} {result : Second}
    (ran : LuaResult.next first rest = some (.ok result)) :
    ∃ middle, first = some (.ok middle) ∧ rest middle = some (.ok result) := by
  match first, ran with
  | some (.ok middle), ran => exact ⟨middle, rfl, ran⟩

theorem unpack_entries_grow {mem : Memory} {slots : Nat}
    {inner : RPacket → LuaResult (Value Unit × RPacket)} (n : Nat) (r : RPacket)
    (stored : List (Key × Value Unit)) {entries : List (Key × Value Unit)} {last : RPacket}
    (ran : unpackEntries mem slots inner n r stored = some (.ok (entries, last))) :
    entries.length ≤ stored.length + n ∧
      (entries.length = stored.length + n →
        ∀ key x, stored.lookup key = some x → entries.lookup key = some x) := by
  induction n generalizing r stored with
  | zero =>
    obtain ⟨rfl, -⟩ := Prod.mk.inj (Except.ok.inj (Option.some.inj ran))
    exact ⟨le_rfl, fun _ _ _ found => found⟩
  | succ n ih =>
    obtain ⟨⟨key, value, next⟩, -, ran⟩ := next_ok ran
    obtain ⟨bound, kept⟩ := ih next (store stored key value) ran
    have size := length_store stored key value
    constructor
    · split_ifs at size <;> omega
    · intro all k x found
      have longer : (store stored key value).length = stored.length + 1 := by
        split_ifs at size <;> omega
      exact kept (by omega) k x (lookup_store_new longer found)

/-! ## Integers -/

/-- The bytes that `_lua_pack_number` writes for a number give `v` in `_lua_unpack_number`,
which takes them all and nothing behind them. -/
def Restores (number : LuaNum) (v : Int64) : Prop :=
  ∃ writes, numberWrites (toNumber number) = some writes ∧
    ∀ mem r rest, Reads mem r (writes.flatten ++ rest) →
      ∃ tag middle next, readTag mem r = some (some tag, middle) ∧
        unpackNumber mem middle tag = some (.integer v, next) ∧ Reads mem next rest

theorem reader_alone (bytes : List Byte) : ∃ mem r, Reads mem r bytes := by
  refine ⟨_, ⟨some 0, 0, bytes.length, 0⟩, _, _, 0, 1, [0], 0,
    Support.SharedChain.Chain.alloc ⟨fun _ => none, 0⟩ 0 bytes, Nat.le_refl 0, Nat.zero_lt_one, rfl,
    Nat.zero_le _, rfl, [], ?_⟩
  rw [ByteChainReading.bytes_from_single, append_nil, drop_zero]

/-- An integer that a `lua_Number` can hold, as one or as a `lua_Integer`, comes back if and only
if it fits into the one byte that negative integers are written with. -/
theorem integer_restored_iff (v : Int64) (exact : Exact v) (number : LuaNum)
    (is : toNumber number = luaNumber v) : Restores number v ↔ -128 ≤ v.toInt := by
  have writes : numberWrites (toNumber number) = some (integerWrites v) := by
    rw [is, number_writes_exact exact]
  constructor
  · rintro ⟨written, same, restores⟩
    obtain rfl := Option.some.inj (writes.symm.trans same)
    obtain ⟨mem, r, reads⟩ := reader_alone ((integerWrites v).flatten ++ [])
    obtain ⟨tag, middle, next, tagged, read, -⟩ := restores mem r [] reads
    obtain ⟨tag', middle', next', tagged', read', -⟩ := read_integer v reads
    rw [tagged] at tagged'
    obtain ⟨sameTag, rfl⟩ := Prod.mk.inj (Option.some.inj tagged')
    rw [← Option.some.inj sameTag, read] at read'
    have back := LuaNum.integer.inj (Prod.mk.inj (Option.some.inj read')).1
    rw [back]
    exact integer_back_range v
  · intro range
    refine ⟨_, writes, fun mem r rest reads => ?_⟩
    obtain ⟨tag, middle, next, tagged, read, -, left⟩ := read_integer v reads
    rw [integer_back_same range] at read
    exact ⟨tag, middle, next, tagged, read, left⟩

theorem least_integer_restored : Exact (-128) ∧ Restores (.integer (-128)) (-128) := by
  have exact : Exact (-128) := ⟨by decide, by decide⟩
  refine ⟨exact, (integer_restored_iff (-128) exact (.integer (-128)) ?_).mpr (by decide)⟩
  rw [toNumber]

/-- `-129` is written as the byte `127`. -/
theorem integer_below_wraps :
    numberWrites (toNumber (.integer (-129))) = some [[Tag.int8.code], [127]] ∧
      unpackNumber ⟨fun _ => some ⟨1, none, [Tag.int8.code, 127]⟩, 1⟩ ⟨some 0, 1, 1, 2⟩ .int8 =
        some (.integer 127, ⟨some 0, 2, 0, 2⟩) := by
  decide +kernel

end Chuck.PacketTableReading
