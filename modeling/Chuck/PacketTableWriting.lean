import Chuck.PacketTableValues
import Chuck.PacketWriting

/-!
# What `WriteTable` writes

The bytes of a table of the considered kind, as the source writes them: `false`
is its type alone, and an integer that is not above 0 is one byte. The writer
appends exactly these bytes, or refuses if the packet would reach `2 ^ 32` bytes. Each level
of a table takes two places on the Lua stack.
-/

namespace Chuck.PacketTableWriting

open Support.ByteOrder Support.BinaryFloat Support.EntryList ByteChunkModel StreamRecvModel
open PacketFraming PacketModel NetworkOrder PacketWriting PacketTableModel PacketTableValues
open List Option

/-! ## The bytes -/

def stringBytes (s : List Byte) : List Byte :=
  Tag.string.code :: (bigEndian 4 s.length ++ s.take (s.length % 2 ^ 32))

def integerWrites (v : Int64) : List (List Byte) :=
  if v > 0 then positiveWrites v.toUInt64 else negativeWrites v

def keyBytes : Key → List Byte
  | .string s => stringBytes s
  | .number (.integer v) => (integerWrites v).flatten
  | _ => []

mutual

def valueBytes : Value Nat → List Byte
  | .string s => stringBytes s
  | .boolean b => Tag.bool.code :: [b.toUInt8].take b.toNat
  | .number (.integer v) => (integerWrites v).flatten
  | .number (.float _) => []
  | .other => []
  | .table _ _ es => Tag.table.code :: (bigEndian 4 es.length ++ entriesBytes es)

def entriesBytes : List (Key × Value Nat) → List Byte
  | [] => []
  | (key, value) :: rest => (keyBytes key ++ valueBytes value) ++ entriesBytes rest

end

mutual

def tableIds : Value Nat → List Nat
  | .table id _ es => id :: entriesIds es
  | .string _ => []
  | .boolean _ => []
  | .number _ => []
  | .other => []

def entriesIds : List (Key × Value Nat) → List Nat
  | [] => []
  | (_, value) :: rest => tableIds value ++ entriesIds rest

end

theorem entries_bytes_flat (es : List (Key × Value Nat)) :
    entriesBytes es = es.flatMap fun entry => keyBytes entry.1 ++ valueBytes entry.2 := by
  induction es with
  | nil => rfl
  | cons entry es ih => rw [entriesBytes, ih, flatMap_cons]

theorem entries_ids_flat (es : List (Key × Value Nat)) :
    entriesIds es = es.flatMap fun entry => tableIds entry.2 := by
  induction es with
  | nil => rfl
  | cons entry es ih => rw [entriesIds, ih, flatMap_cons]

/-! ## Places on the Lua stack -/

section Places

variable (onKey : Key → Nat) (onLeaf : Value Nat → Nat)

mutual

/-- The places for a value: a table, its key and then the value, if `onKey` is what the table
and a key take and `onLeaf` what a value that is no table takes. -/
def places : Value Nat → Nat
  | .table _ _ es => max 1 (entriesPlaces es)
  | .string s => onLeaf (.string s)
  | .boolean b => onLeaf (.boolean b)
  | .number n => onLeaf (.number n)
  | .other => onLeaf .other

def entriesPlaces : List (Key × Value Nat) → Nat
  | [] => 0
  | (key, value) :: rest => max (max (onKey key) (places value + 2)) (entriesPlaces rest)

end

variable {onKey onLeaf} {n : Nat}

theorem entries_places_le_iff {es : List (Key × Value Nat)} :
    entriesPlaces onKey onLeaf es ≤ n ↔
      ∀ key v, (key, v) ∈ es → onKey key ≤ n ∧ places onKey onLeaf v + 2 ≤ n := by
  induction es with
  | nil => simp [entriesPlaces]
  | cons entry es ih =>
    obtain ⟨key, v⟩ := entry
    rw [entriesPlaces, Nat.max_le, Nat.max_le, ih, forall_entries_cons]

theorem table_places_le_iff {id : Nat} {metatable : Bool} {es : List (Key × Value Nat)} :
    places onKey onLeaf (.table id metatable es) ≤ n ↔
      1 ≤ n ∧ entriesPlaces onKey onLeaf es ≤ n := by
  rw [places, Nat.max_le]

theorem places_of_equal : ∀ v v' : Value Nat, equalValue v v' = true → ∀ n,
    places onKey onLeaf v' ≤ n → places onKey onLeaf v ≤ n := by
  refine equal_induction (fun _ _ => id) (fun _ _ => id) (fun _ _ => id) ?_
  intro id metatable es id' metatable' es' _ found n room
  rw [table_places_le_iff, entries_places_le_iff] at room ⊢
  refine ⟨room.1, fun key v member => ?_⟩
  obtain ⟨w, here, -, inside⟩ := found key v member
  obtain ⟨left, right⟩ := room.2 key w (mem_of_lookup here)
  exact ⟨left, Nat.add_le_of_le_sub (by omega) (inside (n - 2) (by omega))⟩

end Places

/-- The key and the value of a table lie on the stack, and the key and the value of a table
inside it behind them. -/
def writeSlots : Value Nat → Nat := places (fun _ => 0) fun _ => 0

theorem write_slots_le_iff {id n : Nat} {metatable : Bool} {es : List (Key × Value Nat)} :
    writeSlots (.table id metatable es) ≤ n ↔
      n ≠ 0 ∧ ∀ key v, (key, v) ∈ es → writeSlots v + 2 ≤ n := by
  rw [writeSlots, table_places_le_iff, entries_places_le_iff, Nat.one_le_iff_ne_zero]
  simp only [Nat.zero_le, true_and]

/-! ## Exact integers -/

theorem of_int_lt (v : Int) : ofInt double v < 2 ^ 64 := by
  have top : double.infinity + double.signBit < 2 ^ 64 := by decide +kernel
  have sign : signOf double (decide (v < 0)) ≤ double.signBit := by
    rw [signOf]
    split_ifs <;> omega
  have size := Nat.min_le_right
    (magnitudeBits double (quantise double 0 (v.natAbs * 2 ^ double.scale))) double.infinity
  rw [ofInt, encode]
  omega

theorem lua_number_bits (v : Int64) : (luaNumber v).toNat = ofInt double v.toInt := by
  rw [luaNumber, UInt64.toNat_ofNat', Nat.mod_eq_of_lt (of_int_lt _)]

section Exact

variable {v : Int64} (exact : Exact v)

include exact

theorem exact_small : v.toInt.natAbs ≤ 2 ^ (double.fraction + 1) := by
  obtain ⟨low, high⟩ := exact
  have power : 2 ^ (double.fraction + 1) = 2 ^ 53 := rfl
  rw [power]
  omega

theorem cast_integer_exact : castInteger (luaNumber v) = some v := by
  obtain ⟨low, high⟩ := id exact
  have number := truncate_of_int double (exact_small exact) (by decide)
  have range : -2 ^ 63 ≤ v.toInt ∧ v.toInt < 2 ^ 63 := by omega
  rw [castInteger, lua_number_bits, number, bind_some, if_pos range, Int64.ofInt_toInt]

theorem number_writes_exact : numberWrites (luaNumber v) = some (integerWrites v) := by
  have equal : same double (luaNumber v).toNat (luaNumber v).toNat = true := by
    rw [lua_number_bits]
    exact same_of_int double (exact_small exact) (by decide)
  have integral : ¬((!same double (luaNumber v).toNat (luaNumber v).toNat) = true) := by
    rw [equal]
    exact Bool.false_ne_true
  rw [numberWrites, cast_integer_exact exact, bind_eq_bind, bind_some,
    if_neg integral, integerWrites, apply_ite some]

end Exact

/-! ## Steps of the writer -/

section Packing

variable (junk : Nat → Nat → Byte)

/-- A step that appends `bytes` to the payload `p` if the packet stays small enough and the
stack has room, and is refused if the packet does not. -/
structure Packs {R : Type} (flag : R → Bool) (done : PackState → R) (marks : List Mark)
    (p bytes : List Byte) (checked : List Nat) (room : Prop) (result : LuaResult R) : Prop where
  appended : headerSize + (p ++ bytes).length < 2 ^ 32 → room →
    ∃ st, result = some (.ok (done st)) ∧ Writes marks st.mem st.b (p ++ bytes) ∧
      st.checked = checked
  overflows : headerSize + (p ++ bytes).length < 2 ^ 32 → ¬room → result = none
  refused : 2 ^ 32 ≤ headerSize + (p ++ bytes).length → room →
    result = some (.error .beyondLimited) ∨ ∃ r, result = some (.ok r) ∧ flag r = false

variable {marks : List Mark} {st : PackState} {p : List Byte}

theorem pack_writes (writes : Writes marks st.mem st.b p) {vs : List (List Byte)}
    (short : ∀ v ∈ vs, v.length < 2 ^ 32) :
    (headerSize + (p ++ vs.flatten).length < 2 ^ 32 →
      ∃ next, packWrites junk st vs = some (true, next) ∧
        Writes marks next.mem next.b (p ++ vs.flatten) ∧ next.checked = st.checked) ∧
    (2 ^ 32 ≤ headerSize + (p ++ vs.flatten).length →
      ∃ next, packWrites junk st vs = some (false, next)) := by
  constructor
  · intro fits
    obtain ⟨after, grown, ran, written⟩ := Writes.writeAll junk vs st.mem st.b p writes fits
    exact ⟨⟨st.checked, after, grown⟩, by rw [packWrites, ran]; rfl, written, rfl⟩
  · intro beyond
    obtain ⟨after, last, ran⟩ := Writes.refusedAll junk vs short st.mem st.b p writes beyond
    exact ⟨⟨st.checked, after, last⟩, by rw [packWrites, ran]; rfl⟩

variable {junk}

theorem pack_plain (writes : Writes marks st.mem st.b p) {vs : List (List Byte)}
    (short : ∀ v ∈ vs, v.length < 2 ^ 32) :
    Packs Prod.fst (fun st => (true, st)) marks p vs.flatten st.checked True
      ((packWrites junk st vs).map .ok) := by
  obtain ⟨success, failure⟩ := pack_writes junk writes short
  constructor
  · intro fits _
    obtain ⟨next, ran, written, kept⟩ := success fits
    exact ⟨next, by rw [ran]; rfl, written, kept⟩
  · exact fun _ full => absurd trivial full
  · intro beyond _
    obtain ⟨next, ran⟩ := failure beyond
    exact .inr ⟨_, by rw [ran]; rfl, rfl⟩

theorem Packs.andThen {R : Type} {flag : R → Bool} {done : PackState → R} {here later : Prop}
    {one two : List Byte} {checked last : List Nat} {first : LuaResult (Bool × PackState)}
    {rest : Bool × PackState → LuaResult R}
    (packs : Packs Prod.fst (fun st => (true, st)) marks p one checked here first)
    (halts : ∀ st, ∃ r, rest (false, st) = some (.ok r) ∧ flag r = false)
    (second : ∀ st, Writes marks st.mem st.b (p ++ one) → st.checked = checked →
      Packs flag done marks (p ++ one) two last later (rest (true, st))) :
    Packs flag done marks p (one ++ two) last (here ∧ later) (LuaResult.next first rest) := by
  by_cases fits : headerSize + (p ++ one).length < 2 ^ 32
  · by_cases room : here
    · obtain ⟨st, ran, written, kept⟩ := packs.appended fits room
      rw [ran, and_iff_right room]
      obtain ⟨appended, overflows, refused⟩ := second st written kept
      rw [append_assoc] at appended overflows refused
      exact ⟨appended, overflows, refused⟩
    · rw [packs.overflows fits room]
      exact ⟨fun _ both => absurd both.1 room, fun _ _ => rfl, fun _ both => absurd both.1 room⟩
  · have beyond : ¬headerSize + (p ++ (one ++ two)).length < 2 ^ 32 := by
      rw [← append_assoc, length_append]
      omega
    refine ⟨fun all => absurd all beyond, fun all => absurd all beyond, fun _ both => ?_⟩
    rcases packs.refused (not_lt.mp fits) both.1 with ran | ⟨⟨flag', st⟩, ran, rfl⟩
    · exact .inl (by rw [ran]; rfl)
    · obtain ⟨r, stopped, failed⟩ := halts st
      exact .inr ⟨r, by rw [ran]; exact stopped, failed⟩

theorem string_writes_short (s : List Byte) : ∀ v ∈ stringWrites s, v.length < 2 ^ 32 := by
  intro v member
  rw [stringWrites] at member
  rcases mem_cons.mp member with rfl | data
  · rw [length_little_endian]
    decide
  · split_ifs at data with some
    · obtain rfl := mem_singleton.mp data
      have := Nat.mod_lt s.length (show 0 < 2 ^ 32 by decide)
      rw [length_take]
      omega
    · cases data

theorem string_writes_flat (s : List Byte) :
    ([Tag.string.code] :: stringWrites s).flatten = stringBytes s := by
  have number : bigEndian 4 (UInt32.ofNat s.length).toNat = bigEndian 4 s.length := by
    rw [UInt32.toNat_ofNat', bigEndian, bigEndian, ← little_endian_mod 4 s.length]
    rfl
  rw [stringBytes, stringWrites, flatten_cons, flatten_cons, hton32_bytes, number]
  split_ifs with some
  · rw [flatten_singleton]
    rfl
  · obtain rfl : s = [] := length_eq_zero_iff.mp (by omega)
    rfl

theorem pack_string (writes : Writes marks st.mem st.b p) (s : List Byte) :
    Packs Prod.fst (fun st => (true, st)) marks p (stringBytes s) st.checked True
      (packString junk st s) := by
  rw [← string_writes_flat]
  apply pack_plain writes
  intro v member
  rcases mem_cons.mp member with rfl | later
  · decide
  · exact string_writes_short s v later

theorem pack_boolean (writes : Writes marks st.mem st.b p) (b : Bool) :
    Packs Prod.fst (fun st => (true, st)) marks p (Tag.bool.code :: [b.toUInt8].take b.toNat)
      st.checked True (packBoolean junk st b) := by
  have flat : [[Tag.bool.code], [b.toUInt8].take b.toNat].flatten =
      Tag.bool.code :: [b.toUInt8].take b.toNat := by
    simp
  rw [← flat]
  apply pack_plain writes
  intro v member
  cases b with
  | false =>
    rcases mem_pair.mp member with rfl | rfl <;> decide
  | true =>
    rcases mem_pair.mp member with rfl | rfl <;> decide

theorem integer_writes_short (v : Int64) : ∀ w ∈ integerWrites v, w.length < 2 ^ 32 := by
  intro w member
  rw [integerWrites, positiveWrites, negativeWrites] at member
  split_ifs at member <;> rcases mem_pair.mp member with rfl | rfl <;> simp

theorem pack_integer (writes : Writes marks st.mem st.b p) {v : Int64} (exact_ : Exact v) :
    Packs Prod.fst (fun st => (true, st)) marks p (integerWrites v).flatten st.checked True
      (packNumber junk st (.integer v)) := by
  obtain ⟨success, failure⟩ := pack_writes junk writes (integer_writes_short v)
  rw [packNumber, toNumber, number_writes_exact exact_, bind_some]
  constructor
  · intro fits _
    obtain ⟨next, ran, written, kept⟩ := success fits
    exact ⟨next, by rw [ran]; rfl, written, kept⟩
  · exact fun _ full => absurd trivial full
  · intro beyond _
    obtain ⟨next, ran⟩ := failure beyond
    exact .inl (by rw [ran]; rfl)

theorem pack_key (writes : Writes marks st.mem st.b p) {key : Key} (plain : PlainKey key) :
    Packs Prod.fst (fun st => (true, st)) marks p (keyBytes key) st.checked True
      (packKey junk st key) := by
  cases key with
  | string s => exact pack_string writes s
  | number n =>
    cases n with
    | integer v => exact pack_integer writes plain
    | float bits => exact absurd plain id
  | other i => exact absurd plain id

theorem four_bytes (n : Nat) : littleEndian 4 (chkHton32 (.ofNat n)).toNat = bigEndian 4 n := by
  rw [hton32_bytes, UInt32.toNat_ofNat', bigEndian, bigEndian, ← little_endian_mod 4 n]
  rfl

theorem pack_writes_next {R : Type} (vs : List (List Byte))
    (rest : Bool × PackState → LuaResult R) :
    (packWrites junk st vs).bind rest = LuaResult.next ((packWrites junk st vs).map .ok) rest := by
  cases packWrites junk st vs <;> rfl

/-- The number of entries, which is written over the place kept for it. -/
theorem pack_numbered (writes : Writes marks st.mem st.b p) {slots n : Nat} {ids : List Nat}
    {bytes : List Byte} {room : Prop} {entries : PackState → LuaResult (Bool × Nat × PackState)}
    (packs : ∀ marks st' p', Writes marks st'.mem st'.b p' → st'.checked = st.checked →
      Packs Prod.fst (fun st => (true, n, st)) marks p' bytes (st'.checked ++ ids) room
        (entries st')) :
    Packs Prod.fst (fun st => (true, st)) marks p (bigEndian 4 n ++ bytes) (st.checked ++ ids)
      (slots ≠ 0 ∧ room)
      ((packWrites junk st [littleEndian 4 0]).bind fun
        | (false, st) => some (.ok (false, st))
        | (true, st') =>
          if slots = 0 then none
          else
            LuaResult.next (entries st') fun
              | (false, _, st) => some (.ok (false, st))
              | (true, c, st'') =>
                (bytechunkWrite st''.mem st.b.tail st.b.appendPos
                  (littleEndian 4 (chkHton32 (.ofNat c)).toNat)).map fun (mem, _) =>
                    .ok (true, { st'' with mem := mem })) := by
  obtain ⟨chunk, tail, marked⟩ := writes.mark
  obtain ⟨kept, refused⟩ := pack_writes junk marked
    (show ∀ v ∈ [littleEndian 4 0], v.length < 2 ^ 32 by decide)
  rw [flatten_singleton] at kept refused
  have size : (p ++ (bigEndian 4 n ++ bytes)).length = (p ++ littleEndian 4 0 ++ bytes).length := by
    simp only [length_append, length_big_endian, length_little_endian]
    omega
  by_cases first : headerSize + (p ++ littleEndian 4 0).length < 2 ^ 32
  · obtain ⟨st₁, ran₁, writes₁, kept₁⟩ := kept first
    rw [ran₁, bind_some]
    by_cases full : slots = 0
    · simp only [if_pos full]
      exact ⟨fun _ both => absurd full both.1, fun _ _ => rfl, fun _ both => absurd full both.1⟩
    simp only [if_neg full]
    obtain ⟨appended, overflows, refuses⟩ := packs _ st₁ _ writes₁ kept₁
    rw [← size] at appended overflows refuses
    constructor
    · intro fits both
      obtain ⟨st₂, ran₂, writes₂, kept₂⟩ := appended fits both.2
      rw [append_assoc] at writes₂
      obtain ⟨last, ran₃, writes₃⟩ := writes₂.replace (bigEndian 4 n)
        (by rw [length_little_endian, length_big_endian])
      refine ⟨{ st₂ with mem := last }, ?_, writes₃, kept₂.trans (by rw [kept₁])⟩
      rw [ran₂]
      simp only [LuaResult.next, tail, four_bytes, ran₃]
      rfl
    · intro fits less
      rw [overflows fits fun inside => less ⟨full, inside⟩]
      rfl
    · intro beyond both
      rcases refuses beyond both.2 with ran₂ | ⟨⟨flag, m, st₂⟩, ran₂, rfl⟩
      · exact .inl (by rw [ran₂]; rfl)
      · exact .inr ⟨(false, st₂), by rw [ran₂]; rfl, rfl⟩
  · obtain ⟨st₁, ran₁⟩ := refused (not_lt.mp first)
    rw [ran₁, bind_some]
    have beyond : ¬headerSize + (p ++ (bigEndian 4 n ++ bytes)).length < 2 ^ 32 := by
      rw [size, length_append]
      omega
    exact ⟨fun fits => absurd fits beyond, fun fits => absurd fits beyond,
      fun _ _ => .inr ⟨(false, st₁), rfl, rfl⟩⟩

theorem pack_counted (writes : Writes marks st.mem st.b p) {slots id n : Nat} {ids : List Nat}
    {bytes : List Byte} {room : Prop} (fresh : id ∉ st.checked)
    {entries : PackState → LuaResult (Bool × Nat × PackState)}
    (packs : ∀ marks st' p', Writes marks st'.mem st'.b p' → st'.checked = st.checked ++ [id] →
      Packs Prod.fst (fun st => (true, n, st)) marks p' bytes (st'.checked ++ ids) room
        (entries st')) :
    Packs Prod.fst (fun st => (true, st)) marks p (Tag.table.code :: (bigEndian 4 n ++ bytes))
      (st.checked ++ id :: ids) (slots ≠ 0 ∧ room) (packCounted junk slots id entries st) := by
  have opened := @pack_plain junk marks { st with checked := st.checked ++ [id] } p writes
    [[Tag.table.code]] (by decide)
  have all : (True ∧ slots ≠ 0 ∧ room) = (slots ≠ 0 ∧ room) := true_and _
  rw [packCounted, if_neg fresh, pack_writes_next, ← all]
  apply opened.andThen
  · exact fun st => ⟨_, rfl, rfl⟩
  · intro st' writes' kept
    have numbered := @pack_numbered junk marks st' _ writes' slots n ids bytes room entries
      fun marks st'' p' writes'' kept' => packs marks st'' p' writes'' (kept'.trans kept)
    rw [kept, append_assoc] at numbered
    exact numbered

end Packing

/-! ## Values -/

section Values

variable (junk : Nat → Nat → Byte)

/-- The writer appends the bytes of a value, and puts its tables on the list. -/
def PacksValue (v : Value Nat) : Prop :=
  ∀ slots marks st p, Writes marks st.mem st.b p → (tableIds v).Nodup →
    (∀ i ∈ tableIds v, i ∉ st.checked) →
    Packs Prod.fst (fun st => (true, st)) marks p (valueBytes v) (st.checked ++ tableIds v)
      (writeSlots v ≤ slots) (packValue junk slots v st)

variable {junk}

theorem plain_vaild {v : Value Nat} (plain : Plain v) : v.vaild = true := by
  cases v with
  | other => exact absurd plain id
  | _ => rfl

theorem plain_key_vaild {key : Key} (plain : PlainKey key) : key.vaild = true := by
  cases key with
  | other i => exact absurd plain id
  | _ => rfl

theorem Packs.iff {R : Type} {flag : R → Bool} {done : PackState → R} {marks : List Mark}
    {p bytes : List Byte} {checked : List Nat} {room room' : Prop} {result : LuaResult R}
    (packs : Packs flag done marks p bytes checked room result) (same : room ↔ room') :
    Packs flag done marks p bytes checked room' result := by
  rw [← propext same]
  exact packs

theorem pack_entries (slots : Nat) (es : List (Key × Value Nat))
    (parts : ∀ key v, (key, v) ∈ es → PlainKey key ∧ Plain v)
    (packs : ∀ key v, (key, v) ∈ es → PacksValue junk v) (c : Nat) (marks : List Mark)
    (st : PackState) (p : List Byte) (writes : Writes marks st.mem st.b p)
    (tree : (entriesIds es).Nodup) (fresh : ∀ i ∈ entriesIds es, i ∉ st.checked) :
    Packs Prod.fst (fun st => (true, c + es.length, st)) marks p (entriesBytes es)
      (st.checked ++ entriesIds es) (∀ key v, (key, v) ∈ es → writeSlots v + 2 ≤ slots)
      (packEntries junk slots es c st) := by
  induction es generalizing c st p with
  | nil =>
    have small := writes.small
    rw [entriesBytes, entriesIds, append_nil, packEntries]
    constructor
    · exact fun _ _ => ⟨st, rfl, by rw [append_nil]; exact writes, rfl⟩
    · exact fun _ less => absurd (fun _ _ member => absurd member not_mem_nil) less
    · rw [append_nil]
      omega
  | cons entry es ih =>
    obtain ⟨key, v⟩ := entry
    obtain ⟨plainKey, plain⟩ := parts key v mem_cons_self
    rw [entriesIds, nodup_append] at tree
    obtain ⟨here, later, apart⟩ := tree
    have valid : (key.vaild && v.vaild) = true := by
      rw [plain_key_vaild plainKey, plain_vaild plain]
      rfl
    rw [packEntries, forall_entries_cons]
    by_cases two : slots < 2
    · rw [if_pos two]
      have less : ¬writeSlots v + 2 ≤ slots := by omega
      exact ⟨fun _ both => absurd both.1 less, fun _ _ => rfl, fun _ both => absurd both.1 less⟩
    rw [if_neg two, if_pos valid, entriesBytes, append_assoc,
      ← Nat.le_sub_iff_add_le (not_lt.mp two)]
    refine Packs.iff ?_ (and_iff_right trivial)
    apply (pack_key writes plainKey).andThen
    · exact fun st => ⟨_, rfl, rfl⟩
    · intro st₁ writes₁ kept₁
      have fresh₁ : ∀ i ∈ tableIds v, i ∉ st₁.checked := by
        intro i member
        rw [kept₁]
        exact fresh i (mem_append_left _ member)
      apply (packs key v mem_cons_self (slots - 2) marks st₁ _ writes₁ here fresh₁).andThen
      · exact fun st => ⟨_, rfl, rfl⟩
      · intro st₂ writes₂ kept₂
        have fresh₂ : ∀ i ∈ entriesIds es, i ∉ st₂.checked := by
          intro i member
          rw [kept₂, kept₁, mem_append]
          rintro (old | new)
          · exact fresh i (mem_append_right _ member) old
          · exact apart i new i member rfl
        have rest := ih (fun k w member => parts k w (mem_cons_of_mem _ member))
          (fun k w member => packs k w (mem_cons_of_mem _ member)) (c + 1) st₂ _ writes₂
          later fresh₂
        rw [kept₂, kept₁] at rest
        rw [entriesIds, length_cons, Nat.add_comm es.length, ← Nat.add_assoc,
          ← append_assoc st.checked]
        exact rest

theorem pack_table {es : List (Key × Value Nat)} {id : Nat} {metatable : Bool}
    (parts : ∀ key v, (key, v) ∈ es → PlainKey key ∧ Plain v)
    (packs : ∀ key v, (key, v) ∈ es → PacksValue junk v) (slots : Nat) {marks : List Mark}
    {st : PackState} {p : List Byte} (writes : Writes marks st.mem st.b p)
    (tree : (id :: entriesIds es).Nodup) (fresh : ∀ i ∈ id :: entriesIds es, i ∉ st.checked) :
    Packs Prod.fst (fun st => (true, st)) marks p
      (Tag.table.code :: (bigEndian 4 es.length ++ entriesBytes es))
      (st.checked ++ id :: entriesIds es) (writeSlots (.table id metatable es) ≤ slots)
      (packCounted junk slots id (packEntries junk slots es 0) st) := by
  obtain ⟨apart, inner⟩ := nodup_cons.mp tree
  rw [write_slots_le_iff]
  apply pack_counted writes (fresh id mem_cons_self)
  intro marks' st' p' writes' kept
  have entries := pack_entries slots es parts packs 0 marks' st' p' writes' inner (by
    intro i member
    rw [kept, mem_append, mem_singleton]
    rintro (old | rfl)
    · exact fresh i (mem_cons_of_mem _ member) old
    · exact apart member)
  rw [Nat.zero_add] at entries
  exact entries

theorem pack_value (v : Value Nat) (plain : Plain v) : PacksValue junk v := by
  have none_ : ∀ slots, True ↔ 0 ≤ slots := fun slots => (iff_true_intro (Nat.zero_le slots)).symm
  induction v using value_induction with
  | string s =>
    intro slots marks st p writes _ _
    rw [tableIds, append_nil]
    exact (pack_string writes s).iff (none_ slots)
  | boolean b =>
    intro slots marks st p writes _ _
    rw [tableIds, append_nil]
    exact (pack_boolean writes b).iff (none_ slots)
  | number n =>
    intro slots marks st p writes _ _
    rw [tableIds, append_nil]
    cases n with
    | integer v => exact (pack_integer writes plain).iff (none_ slots)
    | float bits => exact absurd plain id
  | other => exact absurd plain id
  | table id metatable es ih =>
    obtain ⟨⟨rfl, -⟩, parts⟩ := plain_table_iff.mp plain
    intro slots marks st p writes tree fresh
    rw [packValue, if_neg Bool.false_ne_true]
    exact pack_table parts (fun key v member => ih (key, v) member (parts key v member).2) slots
      writes tree fresh

variable (junk)

/-- `WriteTable` appends the bytes of a table, runs off the stack, or reports that the packet
is too large. -/
structure WritesTable (slots : Nat) (checked : List Nat) (mem : Memory) (b : ByteBuffer)
    (p : List Byte) (t : Value Nat) : Prop where
  written : headerSize + (p ++ valueBytes t).length < 2 ^ 32 → writeSlots t ≤ slots →
    ∃ after grown, wpacketWriteTable junk slots checked mem b t = some (.ok (after, grown)) ∧
      Writes [] after grown (p ++ valueBytes t)
  overflows : headerSize + (p ++ valueBytes t).length < 2 ^ 32 → ¬writeSlots t ≤ slots →
    wpacketWriteTable junk slots checked mem b t = none
  refused : 2 ^ 32 ≤ headerSize + (p ++ valueBytes t).length → writeSlots t ≤ slots →
    ∃ error ∈ [LuaError.beyondLimited, .writeTable],
      wpacketWriteTable junk slots checked mem b t = some (.error error)

theorem write_table {t : Value Nat} (plain : Plain t) {id : Nat} {metatable : Bool}
    {es : List (Key × Value Nat)} (shape : t = .table id metatable es) (tree : (tableIds t).Nodup)
    (slots : Nat) {checked : List Nat} (fresh : ∀ i ∈ tableIds t, i ∉ checked) {mem : Memory}
    {b : ByteBuffer} {p : List Byte} (writes : Writes [] mem b p) :
    WritesTable junk slots checked mem b p t := by
  subst shape
  obtain ⟨-, parts⟩ := plain_table_iff.mp plain
  have start : Writes [] (PackState.mk checked mem b).mem (PackState.mk checked mem b).b p := writes
  have packs : ∀ key v, (key, v) ∈ es → PacksValue junk v :=
    fun key v member => pack_value v (parts key v member).2
  obtain ⟨appended, overflows, refused⟩ := @pack_table junk es id metatable parts packs slots _ _ _
    start tree fresh
  constructor
  · intro fits room
    obtain ⟨st, ran, written, -⟩ := appended fits room
    exact ⟨st.mem, st.b, by rw [wpacketWriteTable, ran]; rfl, written⟩
  · intro fits less
    rw [wpacketWriteTable, overflows fits less]
    rfl
  · intro beyond room
    rcases refused beyond room with ran | ⟨⟨flag, st⟩, ran, rfl⟩
    · exact ⟨.beyondLimited, mem_cons_self, by rw [wpacketWriteTable, ran]; rfl⟩
    · exact ⟨.writeTable, mem_cons_of_mem _ mem_cons_self, by rw [wpacketWriteTable, ran]; rfl⟩

end Values

end Chuck.PacketTableWriting
