import Chuck.PacketTableModel

/-!
# Tables as values

Two tables are equal if they have the same keys with equal values, whatever the
order of their entries and their identities. The tables considered are trees of
strings, booleans and integers that a `lua_Number` holds exactly.
-/

namespace Chuck.PacketTableValues

open Support.EntryList ByteChunkModel PacketTableModel

/-! ## Induction over nested tables -/

theorem value_induction {Id : Type} {motive : Value Id → Prop} (string : ∀ s, motive (.string s))
    (boolean : ∀ b, motive (.boolean b)) (number : ∀ n, motive (.number n)) (other : motive .other)
    (table : ∀ id metatable es, (∀ entry ∈ es, motive entry.2) → motive (.table id metatable es))
    (v : Value Id) : motive v :=
  @Value.rec Id motive (fun es => ∀ entry ∈ es, motive entry.2) (fun entry => motive entry.2)
    string boolean number other table (List.forall_mem_nil _)
    (fun _ _ first rest => List.forall_mem_cons.mpr ⟨first, rest⟩) (fun _ _ value => value) v

/-! ## Equality -/

section Equality

variable {Id Other Third : Type}

mutual

def equalValue : Value Id → Value Other → Bool
  | .string s, .string s' => s == s'
  | .boolean b, .boolean b' => b == b'
  | .number n, .number n' => n == n'
  | .table _ _ es, .table _ _ es' => es.length == es'.length && equalEntries es es'
  | _, _ => false

def equalEntries : List (Key × Value Id) → List (Key × Value Other) → Bool
  | [], _ => true
  | (key, value) :: rest, es' =>
    (match es'.lookup key with
      | some value' => equalValue value value'
      | none => false) && equalEntries rest es'

end

theorem equal_entries_iff {es : List (Key × Value Id)} {es' : List (Key × Value Other)} :
    equalEntries es es' = true ↔
      ∀ key v, (key, v) ∈ es → ∃ v', es'.lookup key = some v' ∧ equalValue v v' = true := by
  induction es with
  | nil => simp [equalEntries]
  | cons entry es ih =>
    obtain ⟨key, v⟩ := entry
    rw [equalEntries, Bool.and_eq_true, ih, forall_entries_cons]
    cases found : es'.lookup key <;> simp

theorem equal_table_iff {id : Id} {id' : Other} {metatable metatable' : Bool}
    {es : List (Key × Value Id)} {es' : List (Key × Value Other)} :
    equalValue (.table id metatable es) (.table id' metatable' es') = true ↔
      es.length = es'.length ∧
        ∀ key v, (key, v) ∈ es → ∃ v', es'.lookup key = some v' ∧ equalValue v v' = true := by
  rw [equalValue, Bool.and_eq_true, beq_iff_eq, equal_entries_iff]

/-- Induction along two equal values. -/
theorem equal_induction {motive : Value Id → Value Other → Prop}
    (string : ∀ s, motive (.string s) (.string s)) (boolean : ∀ b, motive (.boolean b) (.boolean b))
    (number : ∀ n, motive (.number n) (.number n))
    (table : ∀ id metatable es id' metatable' es', es.length = es'.length →
      (∀ key v, (key, v) ∈ es →
        ∃ v', es'.lookup key = some v' ∧ equalValue v v' = true ∧ motive v v') →
      motive (.table id metatable es) (.table id' metatable' es'))
    (v : Value Id) : ∀ v' : Value Other, equalValue v v' = true → motive v v' := by
  induction v using value_induction with
  | string s =>
    rintro (s' | _ | _ | _ | _) equal
    case string => exact eq_of_beq equal ▸ string s
    all_goals cases equal
  | boolean b =>
    rintro (_ | b' | _ | _ | _) equal
    case boolean => exact eq_of_beq equal ▸ boolean b
    all_goals cases equal
  | number n =>
    rintro (_ | _ | n' | _ | _) equal
    case number => exact eq_of_beq equal ▸ number n
    all_goals cases equal
  | other => rintro (_ | _ | _ | _ | _) equal <;> cases equal
  | table id metatable es ih =>
    rintro (_ | _ | _ | _ | ⟨id', metatable', es'⟩) equal
    case table =>
      obtain ⟨same, found⟩ := equal_table_iff.mp equal
      refine table id metatable es id' metatable' es' same fun key v member => ?_
      obtain ⟨v', here, equal⟩ := found key v member
      exact ⟨v', here, equal, ih (key, v) member v' equal⟩
    all_goals cases equal

theorem equal_trans : ∀ (v : Value Id) (v' : Value Other), equalValue v v' = true →
    ∀ v'' : Value Third, equalValue v' v'' = true → equalValue v v'' = true := by
  refine equal_induction (fun _ v'' => by cases v'' <;> exact id)
    (fun _ v'' => by cases v'' <;> exact id) (fun _ v'' => by cases v'' <;> exact id) ?_
  intro id metatable es id' metatable' es' same found v'' equal
  cases v'' with
  | table id'' metatable'' es'' =>
    rw [equal_table_iff] at *
    refine ⟨same.trans equal.1, fun key v member => ?_⟩
    obtain ⟨w, here, -, onward⟩ := found key v member
    obtain ⟨x, there, right⟩ := equal.2 key w (mem_of_lookup here)
    exact ⟨x, there, onward x right⟩
  | _ => cases equal

end Equality

/-! ## Properties of all parts of a value -/

section Every

variable {Id : Type} (onKey : Key → Prop) (onLeaf : Value Id → Prop)
  (onTable : Bool → List Key → Prop)

mutual

/-- A property of every key, of every value that is not a table, and of every
table's metatable and keys. -/
def EveryPart : Value Id → Prop
  | .table _ metatable es => onTable metatable (keys es) ∧ EveryEntry es
  | .string s => onLeaf (.string s)
  | .boolean b => onLeaf (.boolean b)
  | .number n => onLeaf (.number n)
  | .other => onLeaf .other

def EveryEntry : List (Key × Value Id) → Prop
  | [] => True
  | (key, value) :: rest => onKey key ∧ EveryPart value ∧ EveryEntry rest

end

variable {onKey onLeaf onTable}

theorem every_entry_iff {es : List (Key × Value Id)} :
    EveryEntry onKey onLeaf onTable es ↔
      ∀ key v, (key, v) ∈ es → onKey key ∧ EveryPart onKey onLeaf onTable v := by
  induction es with
  | nil => simp [EveryEntry]
  | cons entry es ih =>
    obtain ⟨key, v⟩ := entry
    rw [EveryEntry, ih, forall_entries_cons, and_assoc]

theorem every_table_iff {id : Id} {metatable : Bool} {es : List (Key × Value Id)} :
    EveryPart onKey onLeaf onTable (.table id metatable es) ↔
      onTable metatable (keys es) ∧
        ∀ key v, (key, v) ∈ es → onKey key ∧ EveryPart onKey onLeaf onTable v := by
  rw [EveryPart, every_entry_iff]

end Every

def Exact (v : Int64) : Prop := -2 ^ 53 ≤ v.toInt ∧ v.toInt ≤ 2 ^ 53

def PlainKey : Key → Prop
  | .string _ => True
  | .number (.integer v) => Exact v
  | .number (.float _) => False
  | .other _ => False

def Plain {Id : Type} : Value Id → Prop :=
  EveryPart PlainKey
    (fun
      | .string _ => True
      | .boolean _ => True
      | .number (.integer v) => Exact v
      | _ => False)
    fun metatable names => metatable = false ∧ names.Nodup

def NumInRange : LuaNum → Prop
  | .integer v => -128 ≤ v.toInt
  | .float _ => True

def KeyInRange : Key → Prop
  | .string s => s.length < 2 ^ 32
  | .number n => NumInRange n
  | .other _ => True

def InRange {Id : Type} : Value Id → Prop :=
  EveryPart KeyInRange
    (fun
      | .string s => s.length < 2 ^ 32
      | .number n => NumInRange n
      | _ => True)
    fun _ _ => True

def NoFalse {Id : Type} : Value Id → Prop :=
  EveryPart (fun _ => True)
    (fun
      | .boolean b => b = true
      | _ => True)
    fun _ _ => True

section Plain

variable {Id Other : Type}
variable {metatable : Bool}

variable {id : Id} {es : List (Key × Value Id)}

theorem plain_table_iff :
    Plain (.table id metatable es) ↔
      (metatable = false ∧ (keys es).Nodup) ∧ ∀ key v, (key, v) ∈ es → PlainKey key ∧ Plain v :=
  every_table_iff

theorem in_range_table_iff :
    InRange (.table id metatable es) ↔ ∀ key v, (key, v) ∈ es → KeyInRange key ∧ InRange v := by
  rw [InRange, every_table_iff, and_iff_right trivial]

theorem no_false_table_iff :
    NoFalse (.table id metatable es) ↔ ∀ key v, (key, v) ∈ es → NoFalse v := by
  rw [NoFalse, every_table_iff, and_iff_right trivial]
  simp only [true_and]

theorem equal_refl (v : Value Id) (plain : Plain v) : equalValue v v = true := by
  induction v using value_induction with
  | string s => simp [equalValue]
  | boolean b => simp [equalValue]
  | number n => simp [equalValue]
  | other => exact absurd plain id
  | table id metatable es ih =>
    obtain ⟨⟨-, distinct⟩, parts⟩ := plain_table_iff.mp plain
    rw [equal_table_iff]
    refine ⟨rfl, fun key v member => ⟨v, lookup_of_mem distinct member, ?_⟩⟩
    exact ih (key, v) member (parts key v member).2

theorem equal_keys {es' : List (Key × Value Other)} {Rel : Value Id → Value Other → Prop}
    (distinct : (keys es).Nodup) (same : es.length = es'.length)
    (found : ∀ key v, (key, v) ∈ es → ∃ v', es'.lookup key = some v' ∧ Rel v v') :
    (keys es).Perm (keys es') := by
  apply keys_of_found distinct _ same
  intro key member
  obtain ⟨⟨k, v⟩, inside, rfl⟩ := List.mem_map.mp member
  obtain ⟨v', here, -⟩ := found k v inside
  rw [here]
  rfl

theorem equal_symm : ∀ (v : Value Id) (v' : Value Other), equalValue v v' = true →
    Plain v → Plain v' → equalValue v' v = true := by
  refine equal_induction (fun _ _ _ => by simp [equalValue]) (fun _ _ _ => by simp [equalValue])
    (fun _ _ _ => by simp [equalValue]) ?_
  intro id metatable es id' metatable' es' same found plain plain'
  obtain ⟨⟨-, distinct⟩, parts⟩ := plain_table_iff.mp plain
  obtain ⟨⟨-, distinct'⟩, parts'⟩ := plain_table_iff.mp plain'
  have perm := equal_keys distinct same found
  refine equal_table_iff.mpr ⟨same.symm, fun key w member => ?_⟩
  obtain ⟨⟨k, v⟩, inside, rfl⟩ := List.mem_map.mp (perm.mem_iff.mpr (mem_keys member))
  obtain ⟨w', here, -, back⟩ := found k v inside
  obtain rfl : w' = w := by
    rw [lookup_of_mem distinct' member] at here
    exact (Option.some.inj here).symm
  exact ⟨v, lookup_of_mem distinct inside, back (parts k v inside).2 (parts' k w' member).2⟩

theorem in_range_of_equal : ∀ (v : Value Id) (v' : Value Other), equalValue v v' = true →
    InRange v' → InRange v := by
  refine equal_induction (fun _ => id) (fun _ _ => trivial) (fun _ => id) ?_
  intro id metatable es id' metatable' es' _ found range
  rw [in_range_table_iff] at range ⊢
  intro key v member
  obtain ⟨w, here, -, inside⟩ := found key v member
  exact (range key w (mem_of_lookup here)).imp_right inside

end Plain

end Chuck.PacketTableValues
