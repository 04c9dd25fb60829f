import Chuck.RedisParserShapes
import Chuck.Support.EntryList

/-!
# Redis replies in Lua

`build_resultset` of `luabind/redis.h` pushes a reply on the Lua stack. A string is
pushed with `lua_pushstring`, which stops at the first zero byte, and no room is
made on the stack before a value is pushed. So a reply reaches Lua as it is exactly
if none of its strings holds a zero byte and the stack is large enough for its
nesting.
-/

namespace Chuck.RedisLuaReplies

open RedisParserModel RedisParserMachine RedisParserFragments RedisParserShapes Support List

/-- A table is the list of its entries that are not nil. -/
inductive LuaValue where
  | nil
  | integer (value : Int)
  | string (bytes : List Byte)
  | table (entries : List (Int × LuaValue))

/-- `lua_pushstring` on the bytes of `reply->str`, which a zero follows. -/
def pushString (str : List Byte) : LuaValue := .string ((str ++ [0]).takeWhile (· ≠ 0))

def rawseti (entries : List (Int × LuaValue)) (key : Int) : LuaValue → List (Int × LuaValue)
  | .nil => entries.filter (·.1 ≠ key)
  | value => EntryList.store entries key value

mutual

/-- `build_resultset`: the value it pushes, with `slots` free places on the Lua
stack, or nothing if it leaves the stack. -/
def buildResultset : Nat → ReplyTree → Option LuaValue
  | 0, _ => none
  | slots + 1, .mk type integer _ bytes elements element =>
    match type with
    | .integer => some (.integer integer)
    | .string | .status => some (pushString bytes)
    | .array => buildElements slots elements 0 element []
    | .none | .nil | .error => some .nil

def buildElements (slots elements : Nat) :
    Nat → List ReplyTree → List (Int × LuaValue) → Option LuaValue
  | i, [], entries => if i < elements then none else some (.table entries)
  | i, reply :: more, entries =>
    if i < elements then
      if i + 1 < 2 ^ 31 then
        match buildResultset slots reply with
        | none => none
        | some value =>
          buildElements slots elements (i + 1) more (rawseti entries (i + 1 : Nat) value)
      else none
    else some (.table entries)

end

def entry (key : Int) : LuaValue → List (Int × LuaValue)
  | .nil => []
  | value => [(key, value)]

mutual

def luaOf : ReplyTree → LuaValue
  | .mk type integer _ bytes _ element =>
    match type with
    | .integer => .integer integer
    | .string | .status => .string bytes
    | .array => .table (entriesOf 1 element)
    | .none | .nil | .error => .nil

def entriesOf : Nat → List ReplyTree → List (Int × LuaValue)
  | _, [] => []
  | key, reply :: more => entry key (luaOf reply) ++ entriesOf (key + 1) more

end

mutual

/-- No string of the reply holds a zero byte, no array is too long for the loop
counter, and the Lua stack has a place for every level. -/
def Faithful : Nat → ReplyTree → Prop
  | 0, _ => False
  | slots + 1, .mk type _ _ bytes _ element =>
    match type with
    | .string | .status => 0 ∉ bytes
    | .array => element.length < 2 ^ 31 ∧ AllFaithful slots element
    | .integer | .none | .nil | .error => True

def AllFaithful : Nat → List ReplyTree → Prop
  | _, [] => True
  | slots, reply :: more => Faithful slots reply ∧ AllFaithful slots more

end

/-! ## Strings -/

theorem push_string_iff (bytes : List Byte) : pushString bytes = .string bytes ↔ 0 ∉ bytes := by
  rw [pushString, LuaValue.string.injEq]
  induction bytes with
  | nil => simp
  | cons c bytes ih =>
    by_cases zero : c = 0
    · simp [zero]
    · rw [cons_append, takeWhile_cons_of_pos (by simp [zero]), List.cons.injEq,
        mem_cons, ih]
      simp [Ne.symm zero]

/-! ## Tables -/

def collected (slots : Nat) : Nat → List ReplyTree → Option (List (Int × LuaValue))
  | _, [] => some []
  | key, reply :: more =>
    match buildResultset slots reply, collected slots (key + 1) more with
    | some value, some entries => some (entry key value ++ entries)
    | _, _ => none

theorem rawseti_new {entries : List (Int × LuaValue)} {key : Int}
    (fresh : ∀ old ∈ entries, old.1 < key) (value : LuaValue) :
    rawseti entries key value = entries ++ entry key value := by
  have stored : ∀ value, EntryList.store entries key value = entries ++ [(key, value)] := by
    intro value
    induction entries with
    | nil => rfl
    | cons old entries ih =>
      have other : old.1 ≠ key := Int.ne_of_lt (fresh old mem_cons_self)
      rw [EntryList.store, if_neg other,
        ih fun old member => fresh old (mem_cons_of_mem _ member)]
      rfl
  cases value with
  | nil =>
    rw [rawseti, entry, append_nil]
    apply filter_eq_self.mpr
    intro old member
    simp [Int.ne_of_lt (fresh old member)]
  | integer value => exact stored _
  | string bytes => exact stored _
  | table inner => exact stored _

theorem entry_key {key : Int} {value : LuaValue} {old : Int × LuaValue}
    (member : old ∈ entry key value) : old.1 = key := by
  cases value with
  | nil => cases member
  | integer value => rw [mem_singleton.mp member]
  | string bytes => rw [mem_singleton.mp member]
  | table inner => rw [mem_singleton.mp member]

theorem entry_inj {key : Int} {value other : LuaValue} (same : entry key value = entry key other) :
    value = other := by
  cases value <;> cases other <;> simp_all [entry]

theorem build_elements (slots elements i : Nat) (rest : List ReplyTree)
    (entries : List (Int × LuaValue)) (fresh : ∀ old ∈ entries, old.1 < (i + 1 : Nat))
    (counted : i + rest.length = elements) :
    buildElements slots elements i rest entries =
      if rest = [] ∨ elements < 2 ^ 31 then
        (collected slots (i + 1) rest).map fun found => .table (entries ++ found)
      else none := by
  induction rest generalizing i entries with
  | nil =>
    have done : ¬i < elements := by
      rw [length_nil] at counted
      omega
    rw [buildElements, if_neg done, if_pos (.inl rfl), collected, Option.map_some,
      append_nil]
  | cons reply more ih =>
    rw [length_cons] at counted
    rw [buildElements, if_pos (by omega)]
    by_cases room : i + 1 < 2 ^ 31
    · rw [if_pos room, collected]
      cases built : buildResultset slots reply with
      | none =>
        simp
      | some value =>
        have later := ih (i + 1) (rawseti entries (i + 1 : Nat) value) (by
          intro old member
          rw [rawseti_new fresh, mem_append] at member
          rcases member with earlier | new
          · have := fresh old earlier
            omega
          · rw [entry_key new]
            omega) (by omega)
        dsimp only
        rw [later]
        have short : (more = [] ∨ elements < 2 ^ 31) ↔ elements < 2 ^ 31 := by
          constructor
          · rintro (rfl | small)
            · rw [length_nil] at counted
              omega
            · exact small
          · exact .inr
        by_cases small : elements < 2 ^ 31
        · rw [if_pos (.inr small), if_pos (.inr small), rawseti_new fresh]
          cases collected slots (i + 1 + 1) more with
          | none => rfl
          | some found => simp
        · rw [if_neg (mt short.mp small), if_neg (not_or.mpr ⟨cons_ne_nil _ _, small⟩)]
    · have long : ¬(reply :: more = [] ∨ elements < 2 ^ 31) := by
        rintro (none | small)
        · cases none
        · omega
      rw [if_neg room, if_neg long]

theorem collected_keys (slots key : Nat) (rest : List ReplyTree) {found : List (Int × LuaValue)}
    (collects : collected slots key rest = some found) : ∀ old ∈ found, (key : Int) ≤ old.1 := by
  induction rest generalizing key found with
  | nil =>
    cases collects
    simp
  | cons reply more ih =>
    rw [collected] at collects
    split at collects
    · rename_i value entries built later
      cases collects
      intro old member
      rcases mem_append.mp member with first | rest
      · exact Int.le_of_eq (entry_key first).symm
      · have := ih (key + 1) later old rest
        omega
    · cases collects

theorem entries_of_keys (key : Nat) (rest : List ReplyTree) :
    ∀ old ∈ entriesOf key rest, (key : Int) ≤ old.1 := by
  induction rest generalizing key with
  | nil => simp [entriesOf]
  | cons reply more ih =>
    intro old member
    rw [entriesOf] at member
    rcases mem_append.mp member with first | rest
    · exact Int.le_of_eq (entry_key first).symm
    · have := ih (key + 1) old rest
      omega

theorem entry_split {key : Int} (value other : LuaValue) {later rest : List (Int × LuaValue)}
    (beyondLater : ∀ old ∈ later, key < old.1) (beyondRest : ∀ old ∈ rest, key < old.1) :
    entry key value ++ later = entry key other ++ rest ↔ value = other ∧ later = rest := by
  constructor
  · intro same
    have keeps : ∀ (value : LuaValue) (later : List (Int × LuaValue)),
        (∀ old ∈ later, key < old.1) →
          (entry key value ++ later).filter (·.1 = key) = entry key value := by
      intro value later beyond
      rw [filter_append, filter_eq_self.mpr, filter_eq_nil_iff.mpr, append_nil]
      · intro old member
        simp [Int.ne_of_gt (beyond old member)]
      · intro old member
        simp [entry_key member]
    have first := congrArg (List.filter (·.1 = key)) same
    rw [keeps value later beyondLater, keeps other rest beyondRest] at first
    have equal := entry_inj first
    rw [equal] at same
    exact ⟨equal, append_cancel_left same⟩
  · rintro ⟨rfl, rfl⟩
    rfl

/-! ## Replies -/

mutual

theorem build_iff (slots : Nat) (reply : ReplyTree) (whole : Whole reply) :
    buildResultset slots reply = some (luaOf reply) ↔ Faithful slots reply := by
  match slots, reply with
  | 0, .mk type integer len bytes elements element => simp [buildResultset, Faithful]
  | slots + 1, .mk type integer len bytes elements element =>
    cases type with
    | none => simp [buildResultset, luaOf, Faithful]
    | nil => simp [buildResultset, luaOf, Faithful]
    | error => simp [buildResultset, luaOf, Faithful]
    | integer => simp [buildResultset, luaOf, Faithful]
    | string => simp only [buildResultset, luaOf, Faithful, Option.some.injEq, push_string_iff]
    | status => simp only [buildResultset, luaOf, Faithful, Option.some.injEq, push_string_iff]
    | array =>
      obtain ⟨counted, inner⟩ := whole
      have counted : elements = element.length := counted rfl
      have loop := build_elements slots elements 0 element [] (by simp) (by omega)
      simp only [buildResultset, luaOf, Faithful]
      rw [loop, ← counted, ← collects_iff slots 1 element inner]
      by_cases small : elements < 2 ^ 31
      · rw [if_pos (.inr small)]
        cases collected slots (0 + 1) element with
        | none => simp
        | some found => simpa using fun _ => small
      · have given : ¬(element = [] ∨ elements < 2 ^ 31) := by
          rintro (rfl | small')
          · rw [counted] at small
            exact small (by simp)
          · exact small small'
        rw [if_neg given]
        simpa using fun few => absurd few small

theorem collects_iff (slots key : Nat) (rest : List ReplyTree) (whole : AllWhole rest) :
    collected slots key rest = some (entriesOf key rest) ↔ AllFaithful slots rest := by
  match rest with
  | [] => simp [collected, entriesOf, AllFaithful]
  | reply :: more =>
    obtain ⟨first, others⟩ := whole
    rw [AllFaithful, ← build_iff slots reply first, ← collects_iff slots (key + 1) more others]
    rw [collected, entriesOf]
    cases built : buildResultset slots reply with
    | none => simp
    | some value =>
      cases later : collected slots (key + 1) more with
      | none => simp
      | some found =>
        have smaller : (key : Int) < (key + 1 : Nat) := by omega
        simp only [Option.some.injEq]
        apply entry_split value (luaOf reply)
        · intro old member
          exact Int.lt_of_lt_of_le smaller
            (collected_keys slots (key + 1) more later old member)
        · intro old member
          exact Int.lt_of_lt_of_le smaller (entries_of_keys (key + 1) more old member)

end

/-- A reply that the parser has read reaches Lua as it is exactly if it holds no zero
byte and fits the loop counter and the Lua stack. -/
theorem reply_reaches_lua_iff (stack slots : Nat) (fragments : List (List Byte))
    (solid : ∀ f ∈ fragments, f ≠ []) (reply : ReplyTree) (consumed : Nat)
    (fed : observe (feed stack parseTreeNew fragments) = (.ok, reply, consumed)) :
    buildResultset slots reply = some (luaOf reply) ↔ Faithful slots reply := by
  have whole : Whole reply := feed_whole fragments (startAt []) (fresh_sound stack)
    (start_whole (by simp)) solid fed
  exact build_iff slots reply whole

/-- The array of `OK`, nil and the array of `-5`, cut behind its first byte. -/
theorem nested_reply_reaches_lua :
    observe (feed 3 parseTreeNew [[42], [51, 13, 10, 43, 79, 75, 13, 10, 36, 45, 49, 13, 10, 42, 49,
        13, 10, 58, 45, 53, 13, 10]]) =
      (.ok, .mk .array 0 0 [] 3 [.mk .status 0 2 [79, 75] 0 [], .mk .nil 0 1 [] 0 [],
        .mk .array 0 0 [] 1 [.mk .integer (-5) 0 [] 0 []]], 23) ∧
    buildResultset 20 (.mk .array 0 0 [] 3 [.mk .status 0 2 [79, 75] 0 [], .mk .nil 0 1 [] 0 [],
        .mk .array 0 0 [] 1 [.mk .integer (-5) 0 [] 0 []]]) =
      some (.table [(1, .string [79, 75]), (3, .table [(1, .integer (-5))])]) := by
  have fed : observe (feed 3 parseTreeNew [[42], [51, 13, 10, 43, 79, 75, 13, 10, 36, 45, 49, 13,
      10, 42, 49, 13, 10, 58, 45, 53, 13, 10]]) =
      (.ok, .mk .array 0 0 [] 3 [.mk .status 0 2 [79, 75] 0 [], .mk .nil 0 1 [] 0 [],
        .mk .array 0 0 [] 1 [.mk .integer (-5) 0 [] 0 []]], 23) := by rfl
  refine ⟨fed, (reply_reaches_lua_iff 3 20 _ (by simp) _ 23 fed).mpr ?_⟩
  simp [Faithful, AllFaithful]

/-- A bulk string of three bytes with a zero in the middle arrives with its first byte only. -/
theorem zero_byte_cuts_reply :
    observe (feed 1 parseTreeNew [[36, 51, 13, 10, 97, 0, 98, 13, 10]]) =
        (.ok, .mk .string 0 3 [97, 0, 98] 0 [], 9) ∧
      buildResultset 20 (.mk .string 0 3 [97, 0, 98] 0 []) = some (.string [97]) ∧
      luaOf (.mk .string 0 3 [97, 0, 98] 0 []) = .string [97, 0, 98] :=
  ⟨rfl, rfl, rfl⟩

end Chuck.RedisLuaReplies
