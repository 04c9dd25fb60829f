import Chuck.PacketTableReading

/-!
# Which tables survive `WriteTable` and `ReadTable`

A table comes back equal if no `false` and no integer below -128 is anywhere in it,
its strings are shorter than `2 ^ 32` and the Lua stack has room for its levels.
Otherwise some traversal of it does not: a `false` takes the next byte for its value,
which is never 0 before another entry, and the reader, which stores one entry a round,
cannot correct what it stored.
-/

namespace Chuck.PacketTableRoundTrip

open Support.ByteOrder Support.SharedChain Support.EntryList ByteChunkModel ByteChainReading
open StreamRecvModel PacketFraming PacketModel PacketWriting PacketReading PacketTableModel
open PacketTableValues PacketTableWriting PacketTableReading List

variable {key : Key} {v : Value Nat} {es : List (Key × Value Nat)}

/-! ## Equal tables have equally many bytes -/

/-- The bytes of the entry with a key. -/
def bytesUnder (es : List (Key × Value Nat)) (key : Key) : Nat :=
  (keyBytes key).length + ((es.lookup key).map fun v => (valueBytes v).length).getD 0

theorem bytes_under (distinct : (keys es).Nodup) (member : (key, v) ∈ es) :
    bytesUnder es key = (keyBytes key).length + (valueBytes v).length := by
  rw [bytesUnder, lookup_of_mem distinct member]
  rfl

theorem entries_bytes_sum (distinct : (keys es).Nodup) :
    (entriesBytes es).length = ((keys es).map (bytesUnder es)).sum := by
  rw [entries_bytes_flat, length_flatMap, Support.EntryList.keys, map_map]
  congr 1
  apply map_congr_left
  rintro ⟨key, v⟩ member
  rw [length_append, Function.comp, bytes_under distinct member]

theorem equal_bytes_length : ∀ v v' : Value Nat, equalValue v v' = true → Plain v → Plain v' →
    (valueBytes v).length = (valueBytes v').length := by
  refine equal_induction (fun _ _ _ => rfl) (fun _ _ _ => rfl) (fun _ _ _ => rfl) ?_
  intro id metatable es id' metatable' es' same found plain plain'
  obtain ⟨⟨-, distinct⟩, parts⟩ := plain_table_iff.mp plain
  obtain ⟨⟨-, distinct'⟩, parts'⟩ := plain_table_iff.mp plain'
  have perm := equal_keys distinct same found
  have under : ∀ key ∈ keys es, bytesUnder es key = bytesUnder es' key := by
    intro key member
    obtain ⟨⟨k, v⟩, inside, rfl⟩ := mem_map.mp member
    obtain ⟨w, here, -, long⟩ := found k v inside
    have inside' := mem_of_lookup here
    rw [bytes_under distinct inside, bytes_under distinct' inside',
      long (parts k v inside).2 (parts' k w inside').2]
  rw [valueBytes, valueBytes, length_cons, length_cons, length_append, length_append,
    length_big_endian, length_big_endian, entries_bytes_sum distinct,
    entries_bytes_sum distinct', map_congr_left under, (perm.map _).sum_eq]

theorem no_false_of_equal : ∀ v v' : Value Nat, equalValue v v' = true →
    NoFalse v' → NoFalse v := by
  refine equal_induction (fun _ _ => trivial) (fun _ => id) (fun _ _ => trivial) ?_
  intro id metatable es id' metatable' es' _ found clean
  rw [no_false_table_iff] at clean ⊢
  intro key v member
  obtain ⟨w, here, -, inside⟩ := found key v member
  exact inside (clean key w (mem_of_lookup here))

/-! ## A reader that goes wrong -/

/-- Before a byte that is not 0, whatever is read for the value is not equal to it. -/
def Wrong (v : Value Nat) : Prop :=
  ∀ mem r byte rest slots x last, byte ≠ 0 → (valueBytes v).length < 2 ^ 32 →
    Reads mem r (valueBytes v ++ byte :: rest) →
    taggedValue mem slots r = some (.ok (x, last)) → equalValue v x = false

theorem wrong_false : Wrong (.boolean false) := by
  intro mem r byte rest slots x last nonzero _ reads ran
  obtain ⟨middle, tagged, left⟩ := read_tag reads
  have one : Reads mem middle ([byte] ++ rest) := left
  obtain ⟨next, value, -⟩ := one.readValue
  rw [length_singleton] at value
  have flag : (littleValue [byte] != 0) = true := by
    rw [littleValue, littleValue, Nat.mul_zero, Nat.add_zero, bne_iff_ne]
    exact fun zero => nonzero (UInt8.toNat_inj.mp zero)
  rw [taggedValue, tagged, of_code_code, Option.bind_some] at ran
  simp only [unpackValue, unpackBoolean, value, Option.bind_eq_bind, Option.bind_some, flag,
    ite_eq_iff, reduceCtorEq, and_false, false_or] at ran
  obtain ⟨rfl, -⟩ := Prod.mk.inj (Except.ok.inj (Option.some.inj ran.2))
  rfl

theorem key_bytes_nonzero (plain : PlainKey key) :
    ∃ byte rest, byte ≠ 0 ∧ keyBytes key = byte :: rest := by
  cases key with
  | string s => exact ⟨_, _, by decide, rfl⟩
  | number n =>
    cases n with
    | integer v =>
      rw [keyBytes, integerWrites, positiveWrites, negativeWrites]
      split_ifs <;> exact ⟨_, _, by decide, rfl⟩
    | float bits => exact absurd plain id
  | other i => exact absurd plain id

/-- The byte behind a value is not 0: it is the type of a key, or the byte behind
the table. -/
theorem next_byte_nonzero (parts : ∀ key v, (key, v) ∈ es → PlainKey key ∧ Plain v) {byte : Byte}
    (nonzero : byte ≠ 0) (rest : List Byte) :
    ∃ next others, next ≠ 0 ∧ entriesBytes es ++ byte :: rest = next :: others := by
  cases es with
  | nil => exact ⟨byte, rest, nonzero, rfl⟩
  | cons entry es =>
    obtain ⟨key, v⟩ := entry
    obtain ⟨first, others, nonzero, same⟩ := key_bytes_nonzero (parts key v mem_cons_self).1
    rw [entriesBytes, same]
    exact ⟨first, _, nonzero, rfl⟩

section Rounds

variable {mem : Memory} {r last : RPacket} {rest : List Byte} {slots : Nat}

theorem table_read {id : Nat} {metatable : Bool}
    (parts : ∀ key v, (key, v) ∈ es → PlainKey key ∧ Plain v) {x : Value Unit}
    (small : (valueBytes (.table id metatable es)).length < 2 ^ 32)
    (reads : Reads mem r (valueBytes (.table id metatable es) ++ rest))
    (ran : taggedValue mem slots r = some (.ok (x, last))) :
    ∃ less next entries, Reads mem next (entriesBytes es ++ rest) ∧ x = .table () false entries ∧
      unpackEntries mem less (innerTable mem less) es.length next [] =
        some (.ok (entries, last)) := by
  rw [valueBytes, length_cons, length_append, length_big_endian] at small
  rw [valueBytes, cons_append, append_assoc] at reads
  obtain ⟨middle, tagged, left⟩ := read_tag reads
  obtain ⟨next, inside, full, unpacked⟩ := read_table parts (by omega) left
  rw [taggedValue, tagged, of_code_code, Option.bind_some] at ran
  simp only [unpackValue] at ran
  cases slots with
  | zero => simp [full] at ran
  | succ less =>
    rw [unpacked] at ran
    obtain ⟨⟨stored, final⟩, entries, same⟩ := next_ok ran
    obtain ⟨rfl, rfl⟩ := Prod.mk.inj (Except.ok.inj (Option.some.inj same))
    exact ⟨less, next, stored, inside, rfl, entries⟩

theorem round_read (plain : PlainKey key) {n : Nat}
    {stored entries : List (Key × Value Unit)} (reads : Reads mem r (keyBytes key ++ rest))
    (ran : unpackEntries mem slots (innerTable mem slots) (n + 1) r stored =
      some (.ok (entries, last))) :
    ∃ next y middle, Reads mem next rest ∧
      taggedValue mem (slots - 1) next = some (.ok (y, middle)) ∧
      unpackEntries mem slots (innerTable mem slots) n middle (store stored (keyBack key) y) =
        some (.ok (entries, last)) := by
  obtain ⟨next, left, entry⟩ := read_entry_key plain reads
  obtain ⟨⟨got, y, middle⟩, first, ran⟩ := next_ok ran
  rw [entry] at first
  split_ifs at first
  obtain ⟨⟨read, after⟩, value, same⟩ := next_ok first
  obtain ⟨rfl, rfl, rfl⟩ := same
  exact ⟨next, _, _, left, value, ran⟩

end Rounds

theorem read_in_step {mem : Memory} {r next last : RPacket} {slots : Nat}
    {x : Value Unit} (inStep : ∀ slots, taggedValue mem slots r =
      if slots < readSlots v then none else some (.ok (valueBack v, next)))
    (ran : taggedValue mem slots r = some (.ok (x, last))) :
    readSlots v ≤ slots ∧ x = valueBack v ∧ last = next := by
  rw [inStep] at ran
  split_ifs at ran with less
  obtain ⟨same, rest⟩ := Prod.mk.inj (Except.ok.inj (Option.some.inj ran))
  exact ⟨not_lt.mp less, same.symm, rest.symm⟩

section Fronts

variable {id : Nat} {metatable : Bool} {key : Key} {v : Value Nat} {es : List (Key × Value Nat)}

theorem wrong_value (plain : Plain (.table id metatable ((key, v) :: es)))
    (same : keyBack key = key) (wrong : Wrong v) :
    Wrong (.table id metatable ((key, v) :: es)) := by
  obtain ⟨-, parts⟩ := plain_table_iff.mp plain
  have later : ∀ k w, (k, w) ∈ es → PlainKey k ∧ Plain w :=
    fun k w member => parts k w (mem_cons_of_mem _ member)
  intro mem r byte rest slots x last nonzero small reads ran
  obtain ⟨less, next, entries, inside, rfl, rounds⟩ := table_read parts small reads ran
  rw [valueBytes, length_cons, length_append, length_big_endian, entriesBytes,
    length_append, length_append] at small
  rw [entriesBytes, append_assoc, append_assoc] at inside
  obtain ⟨valueAt, y, middle, left, value, others⟩ :=
    round_read (parts key v mem_cons_self).1 inside rounds
  obtain ⟨byte', rest', nonzero', bytes⟩ := next_byte_nonzero later nonzero rest
  rw [bytes] at left
  have unequal := wrong mem valueAt byte' rest' _ y middle nonzero' (by omega) left value
  refine Bool.eq_false_iff.mpr fun equal => ?_
  obtain ⟨length, found⟩ := equal_table_iff.mp equal
  rw [same] at others
  have kept := (unpack_entries_grow es.length middle _ others).2
    (by rw [← length, length_cons, store]; simp only [length_singleton]; omega) key y
    (by rw [lookup_store, if_pos rfl])
  obtain ⟨w, here, match_⟩ := found key v mem_cons_self
  rw [kept] at here
  obtain rfl := Option.some.inj here
  rw [unequal] at match_
  exact Bool.false_ne_true match_

theorem wrong_stranger (plain : Plain (.table id metatable ((key, v) :: es)))
    (stranger : keyBack key ∉ keys ((key, v) :: es)) :
    Wrong (.table id metatable ((key, v) :: es)) := by
  obtain ⟨⟨-, distinct⟩, parts⟩ := plain_table_iff.mp plain
  intro mem r byte rest slots x last nonzero small reads ran
  obtain ⟨less, next, entries, inside, rfl, rounds⟩ := table_read parts small reads ran
  rw [entriesBytes, append_assoc, append_assoc] at inside
  obtain ⟨valueAt, y, middle, left, value, others⟩ :=
    round_read (parts key v mem_cons_self).1 inside rounds
  refine Bool.eq_false_iff.mpr fun equal => ?_
  obtain ⟨length, found⟩ := equal_table_iff.mp equal
  have kept := (unpack_entries_grow es.length middle _ others).2
    (by rw [← length, length_cons, store]; simp only [length_singleton]; omega)
    (keyBack key) y (by rw [lookup_store, if_pos rfl])
  exact stranger ((equal_keys distinct length found).mem_iff.mpr (mem_keys_of_lookup kept))

theorem wrong_twice {first : Key} {u : Value Nat}
    (plain : Plain (.table id metatable ((first, u) :: (key, v) :: es)))
    (same : keyBack first = first) (clean : NoFalse u) (twice : keyBack key = first) :
    Wrong (.table id metatable ((first, u) :: (key, v) :: es)) := by
  obtain ⟨-, parts⟩ := plain_table_iff.mp plain
  obtain ⟨plainFirst, plainValue⟩ := parts first u mem_cons_self
  have plainKey := (parts key v (mem_cons_of_mem _ mem_cons_self)).1
  intro mem r byte rest slots x last nonzero small reads ran
  obtain ⟨less, next, entries, inside, rfl, rounds⟩ := table_read parts small reads ran
  rw [valueBytes, length_cons, length_append, length_big_endian, entriesBytes,
    length_append, length_append] at small
  rw [entriesBytes, append_assoc, append_assoc] at inside
  obtain ⟨valueAt, y, middle, left, value, others⟩ := round_read plainFirst inside rounds
  obtain ⟨between, following, inStep⟩ :=
    read_value u plainValue clean mem valueAt _ (by omega) left
  obtain ⟨rfl, rfl⟩ := (read_in_step inStep value).2
  rw [entriesBytes, append_assoc, append_assoc] at following
  obtain ⟨secondAt, z, after, -, -, more⟩ := round_read plainKey following others
  refine Bool.eq_false_iff.mpr fun equal => ?_
  obtain ⟨length, -⟩ := equal_table_iff.mp equal
  have bound := (unpack_entries_grow es.length after _ more).1
  have once : (store (store [] (keyBack first) (valueBack u)) (keyBack key) z).length = 1 := by
    rw [length_store, twice, same, if_pos (by simp [store, Support.EntryList.keys])]
    rfl
  rw [once, ← length, length_cons, length_cons] at bound
  omega

end Fronts

/-! ## Every table with a `false` has an order that is read wrong -/

structure Variant (v v' : Value Nat) : Prop where
  plain : Plain v'
  equal : equalValue v v' = true
  ids : (tableIds v').Perm (tableIds v)

theorem Variant.trans {v' v'' : Value Nat} (first : Variant v v') (second : Variant v' v'') :
    Variant v v'' :=
  ⟨second.plain, equal_trans v v' first.equal v'' second.equal, second.ids.trans first.ids⟩

section Orders

variable {id : Nat} {metatable : Bool} {es es' : List (Key × Value Nat)}

theorem perm_variant (plain : Plain (.table id metatable es)) (perm : es.Perm es') :
    Variant (.table id metatable es) (.table id metatable es') := by
  obtain ⟨⟨simple, distinct⟩, parts⟩ := plain_table_iff.mp plain
  have distinct' := nodup_keys_perm distinct perm
  constructor
  · rw [plain_table_iff]
    exact ⟨⟨simple, distinct'⟩, fun key v member => parts key v (perm.mem_iff.mpr member)⟩
  · rw [equal_table_iff]
    refine ⟨perm.length_eq, fun key v member => ⟨v, ?_, equal_refl v (parts key v member).2⟩⟩
    exact lookup_of_mem distinct' (perm.mem_iff.mp member)
  · rw [tableIds, tableIds, entries_ids_flat, entries_ids_flat]
    exact (perm.symm.flatMap_right _).cons id

theorem head_variant {v' : Value Nat}
    (plain : Plain (.table id metatable ((key, v) :: es))) (variant : Variant v v') :
    Variant (.table id metatable ((key, v) :: es)) (.table id metatable ((key, v') :: es)) := by
  obtain ⟨⟨simple, distinct⟩, parts⟩ := plain_table_iff.mp plain
  have distinct' : (keys ((key, v') :: es)).Nodup := distinct
  have later : ∀ k w, (k, w) ∈ es → PlainKey k ∧ Plain w :=
    fun k w member => parts k w (mem_cons_of_mem _ member)
  constructor
  · rw [plain_table_iff]
    refine ⟨⟨simple, distinct'⟩, fun k w member => ?_⟩
    rcases mem_cons.mp member with same | others
    · obtain ⟨rfl, rfl⟩ := Prod.mk.inj same
      exact ⟨(parts k v mem_cons_self).1, variant.plain⟩
    · exact later k w others
  · rw [equal_table_iff]
    refine ⟨rfl, fun k w member => ?_⟩
    rcases mem_cons.mp member with same | others
    · obtain ⟨rfl, rfl⟩ := Prod.mk.inj same
      exact ⟨v', lookup_of_mem distinct' mem_cons_self, variant.equal⟩
    · exact ⟨w, lookup_of_mem distinct' (mem_cons_of_mem _ others),
        equal_refl w (later k w others).2⟩
  · rw [tableIds, tableIds, entriesIds, entriesIds]
    exact (variant.ids.append_right _).cons id

theorem spoil_value (plain : Plain (.table id metatable es)) (member : (key, v) ∈ es)
    (same : keyBack key = key) (spoilt : ∃ v', Variant v v' ∧ Wrong v') :
    ∃ t, Variant (.table id metatable es) t ∧ Wrong t := by
  obtain ⟨v', variant, wrong⟩ := spoilt
  have first := perm_variant plain (perm_front (plain_table_iff.mp plain).1.2 member)
  have second := head_variant first.plain variant
  exact ⟨_, first.trans second, wrong_value second.plain same wrong⟩

theorem spoil_key (plain : Plain (.table id metatable es)) (member : (key, v) ∈ es)
    (changed : keyBack key ≠ key) (clean : ∀ u, (keyBack key, u) ∈ es → NoFalse u) :
    ∃ t, Variant (.table id metatable es) t ∧ Wrong t := by
  have distinct := (plain_table_iff.mp plain).1.2
  by_cases known : keyBack key ∈ keys es
  · obtain ⟨⟨first, u⟩, inside, here⟩ := mem_map.mp known
    obtain rfl : first = keyBack key := here
    have front := perm_front distinct inside
    have later : (key, v) ∈ es.filter fun entry => entry.1 ≠ keyBack key :=
      mem_filter.mpr ⟨member, by simp [Ne.symm changed]⟩
    have sub : (keys (es.filter fun entry => entry.1 ≠ keyBack key)).Nodup :=
      distinct.sublist ((filter_sublist).map Prod.fst)
    have variant := perm_variant plain (front.trans ((perm_front sub later).cons _))
    exact ⟨_, variant, wrong_twice variant.plain (key_back_same key_back_range)
      (clean u inside) rfl⟩
  · have front := perm_front distinct member
    have variant := perm_variant plain front
    refine ⟨_, variant, wrong_stranger variant.plain ?_⟩
    intro stranger
    exact known (((front.map Prod.fst).mem_iff).mpr stranger)

end Orders

theorem spoil (v : Value Nat) (plain : Plain v) (dirty : ¬NoFalse v) :
    ∃ v', Variant v v' ∧ Wrong v' := by
  induction v using value_induction with
  | string s => exact absurd trivial dirty
  | boolean b =>
    cases b with
    | false => exact ⟨_, ⟨plain, rfl, List.Perm.refl _⟩, wrong_false⟩
    | true => exact absurd rfl dirty
  | number n => exact absurd trivial dirty
  | other => exact absurd plain id
  | table id metatable es ih =>
    have parts := (plain_table_iff.mp plain).2
    have spoilt : ∀ key v, (key, v) ∈ es → ¬NoFalse v → keyBack key = key →
        ∃ t, Variant (.table id metatable es) t ∧ Wrong t :=
      fun key v member bad same => spoil_value plain member same
        (ih (key, v) member (parts key v member).2 bad)
    rw [no_false_table_iff] at dirty
    push Not at dirty
    obtain ⟨key, v, member, bad⟩ := dirty
    by_cases same : keyBack key = key
    · exact spoilt key v member bad same
    · by_cases clean : ∀ u, (keyBack key, u) ∈ es → NoFalse u
      · exact spoil_key plain member same clean
      · push Not at clean
        obtain ⟨u, inside, worse⟩ := clean
        exact spoilt (keyBack key) u inside worse (key_back_same key_back_range)

/-! ## Writing and reading -/

/-- A tree-shaped table without metatables whose keys are strings or integers and whose
values are strings, booleans, integers or such tables. -/
structure Tree (t : Value Nat) : Prop where
  plain : Plain t
  tree : (tableIds t).Nodup
  table : ∃ id metatable es, t = .table id metatable es

/-- With `slots` and `slots'` free places on the Lua stack, `WriteTable`, in whatever order the
entries of the table are traversed, adds bytes from which `ReadTable`, on any chunks and with
any bytes behind them, returns an equal table and has the bytes behind them left. Only a packet
that would become too large is refused, with the errors for that. No earlier error has left one
of the tables on `cycle_check_list`. -/
def RoundTrips (slots slots' : Nat) (t : Value Nat) : Prop :=
  ∀ t', Tree t' → equalValue t t' = true → ∀ junk checked mem b p,
    (∀ i ∈ tableIds t', i ∉ checked) → Writes [] mem b p →
    if headerSize + (p ++ valueBytes t').length < 2 ^ 32 then
      ∃ after grown, wpacketWriteTable junk slots checked mem b t' = some (.ok (after, grown)) ∧
        bytebufferRead after grown 0 grown.datasize = some (encodePacket (p ++ valueBytes t')) ∧
        ∀ mem' r following, Reads mem' r (valueBytes t' ++ following) →
          ∃ v last, rpacketReadTable mem' slots' r = some (.ok (v, last)) ∧
            equalValue t v = true ∧ last.dataRemain = following.length
    else
      ∃ error ∈ [LuaError.beyondLimited, .writeTable],
        wpacketWriteTable junk slots checked mem b t' = some (.error error)

theorem read_table_tagged {t : Value Nat} (tree : Tree t) {mem : Memory} {r : RPacket}
    {rest : List Byte} (reads : Reads mem r (valueBytes t ++ rest)) (slots : Nat) :
    rpacketReadTable mem slots r = taggedValue mem slots r := by
  obtain ⟨id, metatable, es, rfl⟩ := tree.table
  rw [valueBytes, cons_append] at reads
  obtain ⟨middle, tagged, left⟩ := read_tag reads
  rw [rpacketReadTable, taggedValue, tagged, of_code_code]
  rfl

section Exact

variable {t t' : Value Nat} {slots slots' : Nat}

theorem tree_bytes (tree : Tree t) (tree' : Tree t') (equal : equalValue t t' = true) :
    (valueBytes t').length = (valueBytes t).length :=
  (equal_bytes_length t t' equal tree.plain tree'.plain).symm

theorem round_trips_beyond (tree : Tree t) (room : writeSlots t ≤ slots)
    (beyond : 2 ^ 32 ≤ headerSize + (valueBytes t).length) : RoundTrips slots slots' t := by
  intro t' tree' equal junk checked mem b p fresh writes
  have length := tree_bytes tree tree' equal
  have back := equal_symm t t' equal tree.plain tree'.plain
  obtain ⟨id, metatable, es, shape⟩ := tree'.table
  have large : ¬headerSize + (p ++ valueBytes t').length < 2 ^ 32 := by
    rw [length_append]
    omega
  rw [if_neg large]
  exact (write_table junk tree'.plain shape tree'.tree slots fresh writes).refused
    (not_lt.mp large) (places_of_equal t' t back slots room)

theorem round_trips_clean (tree : Tree t) (clean : NoFalse t) (range : InRange t)
    (room : writeSlots t ≤ slots) (room' : readSlots t ≤ slots') : RoundTrips slots slots' t := by
  intro t' tree' equal junk checked mem b p fresh writes
  have back := equal_symm t t' equal tree.plain tree'.plain
  have clean' := no_false_of_equal t' t back clean
  have range' := in_range_of_equal t' t back range
  have writing : writeSlots t' ≤ slots := places_of_equal t' t back slots room
  have reading : readSlots t' ≤ slots' := places_of_equal t' t back slots' room'
  obtain ⟨id, metatable, es, shape⟩ := tree'.table
  have table := write_table junk tree'.plain shape tree'.tree slots fresh writes
  split_ifs with fits
  · obtain ⟨after, grown, ran, written⟩ := table.written fits writing
    refine ⟨after, grown, ran, Keeps.read written, ?_⟩
    intro mem' r following reads
    rw [length_append] at fits
    obtain ⟨last, left, value⟩ := read_value t' tree'.plain clean' mem' r following (by omega) reads
    refine ⟨valueBack t', last, ?_, ?_, left.counted⟩
    · rw [read_table_tagged tree' reads, value, if_neg (not_lt.mpr reading)]
    · exact equal_trans t t' equal _ (value_back_equal t' tree'.plain range')
  · exact table.refused (not_lt.mp fits) writing

theorem round_trips_read (trips : RoundTrips slots slots' t) (tree' : Tree t')
    (equal : equalValue t t' = true) (fits : headerSize + (valueBytes t').length < 2 ^ 32)
    (following : List Byte) : writeSlots t' ≤ slots ∧
    ∃ mem r v last, Reads mem r (valueBytes t' ++ following) ∧
      taggedValue mem slots' r = some (.ok (v, last)) ∧ equalValue t v = true := by
  obtain ⟨start, b, mem, writer, -, -, writes⟩ := new_writer (fun _ _ => 0) ⟨fun _ => none, 0⟩ 64
  have fresh : ∀ i ∈ tableIds t', i ∉ [] := fun _ _ => not_mem_nil
  have trip := trips t' tree' equal (fun _ _ => 0) [] mem writer [] fresh writes
  obtain ⟨id, metatable, es, shape⟩ := tree'.table
  rw [nil_append, if_pos fits] at trip
  obtain ⟨after, grown, ran, -, back⟩ := trip
  constructor
  · by_contra less
    have left := (write_table (fun _ _ => 0) tree'.plain shape tree'.tree slots fresh
      writes).overflows fits less
    rw [ran] at left
    cases left
  · obtain ⟨mem', r, reads⟩ := reader_alone (valueBytes t' ++ following)
    obtain ⟨v, last, value, equal, -⟩ := back mem' r following reads
    rw [read_table_tagged tree' reads] at value
    exact ⟨mem', r, v, last, reads, value, equal⟩

theorem round_trips_no_false (tree : Tree t) (trips : RoundTrips slots slots' t)
    (fits : headerSize + (valueBytes t).length < 2 ^ 32) : NoFalse t := by
  by_contra dirty
  obtain ⟨t', variant, wrong⟩ := spoil t tree.plain dirty
  obtain ⟨id, metatable, es, rfl⟩ := tree.table
  have table' : ∃ id metatable es, t' = .table id metatable es := by
    have equal := variant.equal
    cases t' with
    | table id' metatable' es' => exact ⟨id', metatable', es', rfl⟩
    | _ => simp [equalValue] at equal
  have tree' : Tree t' := ⟨variant.plain, variant.ids.nodup_iff.mpr tree.tree, table'⟩
  have length := tree_bytes tree tree' variant.equal
  obtain ⟨-, mem, r, v, last, reads, value, equal⟩ :=
    round_trips_read trips tree' variant.equal (by omega) [1]
  have unequal := wrong mem r 1 [] slots' v last (by decide) (by omega) reads value
  have back := equal_symm _ t' variant.equal tree.plain tree'.plain
  rw [equal_trans t' _ back v equal] at unequal
  exact Bool.false_ne_true unequal.symm

theorem round_trips_in_range (tree : Tree t) (trips : RoundTrips slots slots' t)
    (clean : NoFalse t) (fits : headerSize + (valueBytes t).length < 2 ^ 32) :
    InRange t ∧ writeSlots t ≤ slots ∧ readSlots t ≤ slots' := by
  obtain ⟨room, mem, r, v, last, reads, value, equal⟩ :=
    round_trips_read trips tree (equal_refl t tree.plain) fits []
  obtain ⟨next, -, inStep⟩ := read_value t tree.plain clean mem r [] (by omega) reads
  obtain ⟨room', rfl, -⟩ := read_in_step inStep value
  exact ⟨in_range_of_equal t _ equal (value_back_range t), room, room'⟩

end Exact

/-- A table that fits into a packet survives, in every order of its entries, exactly if it
contains no `false`, no integer below -128 and no string of `2 ^ 32` bytes, and is not nested
deeper than the stack has room for. One that does not fit is refused. -/
theorem table_round_trip_exact (t : Value Nat) (tree : Tree t) (slots slots' : Nat) :
    (headerSize + (valueBytes t).length < 2 ^ 32 → (RoundTrips slots slots' t ↔
      NoFalse t ∧ InRange t ∧ writeSlots t ≤ slots ∧ readSlots t ≤ slots')) ∧
    (2 ^ 32 ≤ headerSize + (valueBytes t).length → writeSlots t ≤ slots →
      RoundTrips slots slots' t) := by
  constructor
  · intro fits
    constructor
    · intro trips
      have clean := round_trips_no_false tree trips fits
      exact ⟨clean, round_trips_in_range tree trips clean fits⟩
    · rintro ⟨clean, range, room, room'⟩
      exact round_trips_clean tree clean range room room'
  · exact fun beyond room => round_trips_beyond tree room beyond

def sampleTable : Value Nat :=
  .table 0 false [(.number (.integer 1), .boolean true),
    (.string [97], .table 1 false [(.number (.integer (-3)), .string [120])])]

theorem sample_table_round_trips : RoundTrips 5 5 sampleTable := by
  have plain : Plain sampleTable := by
    simp only [Plain, sampleTable, EveryPart, EveryEntry, PlainKey, Exact,
      Support.EntryList.keys]
    decide
  have exact_ := table_round_trip_exact sampleTable ⟨plain, by decide, _, _, _, rfl⟩ 5 5
  refine (exact_.1 (by decide)).mpr ⟨?_, ?_, by decide, by decide⟩
  · simp [NoFalse, sampleTable, EveryPart, EveryEntry]
  · simp only [InRange, sampleTable, EveryPart, EveryEntry, KeyInRange, NumInRange]
    decide

def writtenAndRead (slots : Nat) (checked : List Nat) (t : Value Nat) :
    LuaResult (Value Unit × RPacket) :=
  (bytebufferNew (fun _ _ => 0) ⟨fun _ => none, 0⟩ 64).bind fun (start, b) =>
    LuaResult.next (newWpacket (fun _ _ => 0) start b) fun (mem, writer) =>
      LuaResult.next (wpacketWriteTable (fun _ _ => 0) slots checked mem writer t) fun
        (after, grown) => (newRpacket after grown).bind (rpacketReadTable after slots)

def survived (slots : Nat) (checked : List Nat) (t : Value Nat) : Bool :=
  match writtenAndRead slots checked t with
  | some (.ok (v, r)) => equalValue t v && r.dataRemain == 0
  | _ => false

/-- `{[1] = {[1] = ... {} ...}}` with `n` tables around the innermost. -/
def nested : Nat → Value Nat
  | 0 => .table 0 false []
  | n + 1 => .table (n + 1) false [(.number (.integer 1), nested n)]

/-- `{[1] = false, [2] = true}`, `{[1] = -129}`, a table with ten others around it, and a table
that is on `cycle_check_list` since an error. -/
theorem false_and_low_integer_lost :
    survived 20 [] (.table 0 false [(.number (.integer 1), .boolean false),
      (.number (.integer 2), .boolean true)]) = false ∧
    survived 20 [] (.table 0 false [(.number (.integer 1), .number (.integer (-129)))]) = false ∧
    survived 20 [] (nested 10) = false ∧ survived 20 [] (nested 9) = true ∧
    survived 20 [0] (nested 0) = false ∧
    survived 20 [] (.table 0 false [(.number (.integer 1), .boolean true),
      (.number (.integer 2), .number (.integer (-128)))]) = true := by
  refine ⟨?_, ?_, ?_, ?_, ?_, ?_⟩ <;> decide +kernel

end Chuck.PacketTableRoundTrip
