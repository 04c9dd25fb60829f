import Chuck.RedisParserFragments
import Mathlib.Data.Nat.Digits.Defs

/-!
# Decoding RESP

The values of the Redis serialisation protocol, the bytes a server sends for
them, and what it means for a reply tree to denote a value. The parser decodes
every value that holds no nil array; a nil array is taken for an array of one
element, so that the parser waits for a value more than was sent.
-/

namespace Chuck.RedisReplyCodec

open RedisParserModel RedisParserMachine RedisParserFragments Support.StreamMachine List

inductive Resp where
  | status (text : List Byte)
  | error (text : List Byte)
  | integer (value : Int)
  | bulk (bytes : List Byte)
  | nilBulk
  | array (items : List Resp)
  | nilArray

def digitByte (d : Nat) : Byte := UInt8.ofNat (48 + d)

def decimal (n : Nat) : List Byte :=
  if n = 0 then [48] else (Nat.digits 10 n).reverse.map digitByte

def signed (value : Int) : List Byte :=
  if value < 0 then minus :: decimal value.natAbs else decimal value.natAbs

mutual

def encode : Resp → List Byte
  | .status text => 43 :: (text ++ [cr, lf])
  | .error text => 45 :: (text ++ [cr, lf])
  | .integer value => 58 :: (signed value ++ [cr, lf])
  | .bulk bytes => 36 :: (decimal bytes.length ++ [cr, lf] ++ bytes ++ [cr, lf])
  | .nilBulk => [36, 45, 49, cr, lf]
  | .array items => 42 :: (decimal items.length ++ [cr, lf] ++ encodeAll items)
  | .nilArray => [42, 45, 49, cr, lf]

def encodeAll : List Resp → List Byte
  | [] => []
  | item :: more => encode item ++ encodeAll more

end

def TextLine (text : List Byte) : Prop := text.length ≤ 511 ∧ cr ∉ text ∧ lf ∉ text

mutual

/-- The values a server may send. The pointers to the elements of an array fit
the address space. -/
def WellFormed : Resp → Prop
  | .status text | .error text => TextLine text
  | .integer value => -2 ^ 63 ≤ value ∧ value < 2 ^ 63
  | .bulk bytes => bytes.length < 2 ^ 31 - 2
  | .nilBulk | .nilArray => True
  | .array items => items.length * 8 < 2 ^ 64 ∧ AllWellFormed items

def AllWellFormed : List Resp → Prop
  | [] => True
  | item :: more => WellFormed item ∧ AllWellFormed more

end

mutual

def depth : Resp → Nat
  | .array items => depthAll items + 1
  | _ => 1

def depthAll : List Resp → Nat
  | [] => 0
  | item :: more => max (depth item) (depthAll more)

end

mutual

def nilArrays : Resp → Nat
  | .nilArray => 1
  | .array items => nilArraysAll items
  | _ => 0

def nilArraysAll : List Resp → Nat
  | [] => 0
  | item :: more => nilArrays item + nilArraysAll more

end

mutual

/-- A `redisReply` that a caller reads as the value. -/
def Denotes : Resp → ReplyTree → Prop
  | .status text, .mk type _ len bytes _ _ => type = .status ∧ bytes = text ∧ len = text.length
  | .error text, .mk type _ len bytes _ _ => type = .error ∧ bytes = text ∧ len = text.length
  | .integer value, .mk type integer _ _ _ _ => type = .integer ∧ integer = value
  | .bulk content, .mk type _ len bytes _ _ =>
    type = .string ∧ bytes = content ∧ len = content.length
  | .nilBulk, .mk type _ _ _ _ _ => type = .nil
  | .array items, .mk type _ _ _ elements element =>
    type = .array ∧ elements = items.length ∧ DenoteAll items element
  | .nilArray, .mk type _ _ _ _ _ => type = .nil

def DenoteAll : List Resp → List ReplyTree → Prop
  | [], [] => True
  | item :: more, reply :: rest => Denotes item reply ∧ DenoteAll more rest
  | _, _ => False

end

mutual

def Bare : ReplyTree → Prop
  | .mk type _ _ _ _ element => (type ≠ .array → element = []) ∧ AllBare element

def AllBare : List ReplyTree → Prop
  | [] => True
  | reply :: more => Bare reply ∧ AllBare more

end

theorem bare_leaf (node : Node) : Bare (ParseTree.mk node []).reply :=
  ⟨fun _ => rfl, trivial⟩

/-! ## Numbers on the wire -/

def readDecimal (start : Nat) (bytes : List Byte) : Nat :=
  bytes.foldl (fun value c => value * 10 + digit c) start

theorem digit_byte_num {d : Nat} (small : d < 10) :
    isNum (digitByte d) = true ∧ digit (digitByte d) = d := by
  have value : (digitByte d).toNat = 48 + d := by
    rw [digitByte, UInt8.toNat_ofNat']
    exact Nat.mod_eq_of_lt (by omega)
  refine ⟨?_, by rw [digit, value]; omega⟩
  simp only [isNum, Bool.and_eq_true, decide_eq_true_eq, UInt8.le_iff_toNat_le, value]
  exact ⟨Nat.le_add_right 48 d, show 48 + d ≤ 57 by omega⟩

theorem decimal_num (n : Nat) : ∀ c ∈ decimal n, isNum c = true := by
  intro c member
  unfold decimal at member
  split_ifs at member
  · rw [mem_singleton.mp member]
    rfl
  · obtain ⟨d, inside, rfl⟩ := mem_map.mp member
    exact (digit_byte_num (Nat.digits_lt_base (by decide) (mem_reverse.mp inside))).1

theorem read_decimal (n : Nat) : readDecimal 0 (decimal n) = n := by
  unfold decimal
  split_ifs with zero
  · rw [zero]
    rfl
  have digits : ∀ ds : List Nat, (∀ d ∈ ds, d < 10) →
      ds.foldr (fun d value => value * 10 + digit (digitByte d)) 0 = Nat.ofDigits 10 ds := by
    intro ds small
    induction ds with
    | nil => rfl
    | cons d ds ih =>
      rw [foldr_cons, ih fun d inside => small d (mem_cons_of_mem _ inside),
        Nat.ofDigits_cons, (digit_byte_num (small d mem_cons_self)).2]
      omega
  rw [readDecimal, foldl_map, foldl_reverse,
    digits _ fun d inside => Nat.digits_lt_base (by decide) inside, Nat.ofDigits_digits]

theorem num_plain {c : Byte} (number : isNum c = true) : c ≠ cr ∧ c ≠ minus := by
  refine ⟨?_, ?_⟩ <;>
  · rintro rfl
    exact absurd number (by decide)

/-- A reader that shifts in one digit at a time reads a number back from its text. -/
theorem digits_fold (onByte : Node → Byte → Option Node) (put : Nat → Node)
    (reads : ∀ value c, isNum c = true → onByte (put value) c = some (put (value * 10 + digit c)))
    (n : Nat) : (decimal n).foldlM onByte (put 0) = some (put n) := by
  have folded (bytes : List Byte) (numbers : ∀ c ∈ bytes, isNum c = true) (value : Nat) :
      bytes.foldlM onByte (put value) = some (put (readDecimal value bytes)) := by
    induction bytes generalizing value with
    | nil => rfl
    | cons c bytes ih =>
      rw [foldlM_cons, reads value c (numbers c mem_cons_self)]
      exact ih (forall_mem_cons.mp numbers).2 _
  rw [folded (decimal n) (decimal_num n) 0, read_decimal]

/-! ## Lines -/

/-- A string of known length is never read like a line of text. The results
below hold of every machine that moves like the parser as long as this is so. -/
def Limited (machine : Machine) : Prop :=
  machine.phase = .text → machine.node.type ≠ some .bulk

section Lines

variable {move : Machine → Byte → Step Machine Halt} {frames : List Frame} {phase : Phase}
  {bad : Ret} {finish : Node → Next Machine Halt} {kind : Option OpCode}

theorem line_byte_brk {node next : Node} {c : Byte} (read : lineByte phase node c = some next) :
    next.brk = node.brk ∧ next.type = node.type := by
  cases phase with
  | opcode | body => cases read
  | text =>
    obtain ⟨-, rfl⟩ := store_byte_some read
    exact ⟨rfl, rfl⟩
  | number => rcases integer_byte_some read with ⟨-, rfl⟩ | ⟨-, rfl⟩ <;> exact ⟨rfl, rfl⟩
  | length => rcases len_byte_some read with ⟨-, rfl⟩ | ⟨-, rfl⟩ <;> exact ⟨rfl, rfl⟩
  | count => rcases elements_byte_some read with ⟨-, rfl⟩ | ⟨-, rfl⟩ <;> exact ⟨rfl, rfl⟩

theorem run_whole_line (reads : ∀ node c, node.type = kind →
      move ⟨frames, phase, node⟩ c = lineStep frames phase (lineByte phase) bad finish node c)
    (bytes : List Byte) (node next : Node) (typed : node.type = kind) (start : node.brk = cr)
    (plain : cr ∉ bytes) (folded : bytes.foldlM (lineByte phase) node = some next)
    (rest : List Byte) :
    run move ⟨frames, phase, node⟩ (bytes ++ cr :: lf :: rest) =
      proceed move (finish { next with brk := lf }) rest := by
  induction bytes generalizing node with
  | nil =>
    have same : node = next := Option.some.inj folded
    subst same
    have first := reads node cr typed
    have second := reads { node with brk := lf } lf typed
    simp only [lineStep, start, ne_eq, not_true, if_false, show cr ≠ lf by decide] at first
    simp only [lineStep, ne_eq, not_true, if_false, if_true] at second
    rw [nil_append, run_read _ first, proceed, run_read _ second]
  | cons c bytes ih =>
    have taken := reads node c typed
    have other : c ≠ node.brk := by
      rw [start]
      rintro rfl
      exact plain mem_cons_self
    simp only [lineStep, if_pos other] at taken
    rw [foldlM_cons] at folded
    cases accepted : lineByte phase node c with
    | none => rw [accepted] at folded; cases folded
    | some middle =>
      rw [accepted] at folded taken
      rw [cons_append, run_read _ taken]
      obtain ⟨brk, type⟩ := line_byte_brk accepted
      exact ih middle (type.trans typed) (brk.trans start)
        (fun inside => plain (mem_cons_of_mem _ inside)) folded

end Lines

theorem store_fold (node : Node) (bytes : List Byte)
    (fits : node.pos + bytes.length ≤ node.reply.str.capacity) :
    bytes.foldlM storeByte node = some { node with
      pos := node.pos + bytes.length
      reply := { node.reply with bytes := node.reply.bytes ++ bytes } } := by
  induction bytes generalizing node with
  | nil => simp
  | cons c bytes ih =>
    simp only [length_cons] at fits
    have room : node.pos < node.reply.str.capacity := by omega
    rw [foldlM_cons]
    simp only [storeByte, room, if_true]
    refine (ih { node with
      pos := node.pos + 1
      reply := { node.reply with bytes := node.reply.bytes ++ [c] } } ?_).trans ?_
    · simp only
      omega
    · simp [Nat.add_assoc, Nat.add_comm 1]

theorem to_int32_small {value : Int} (low : -2 ^ 31 ≤ value) (high : value < 2 ^ 31) :
    toInt32 value = value := by
  simp only [to_int32_bmod, Int.bmod]
  omega

theorem to_int64_small {value : Int} (low : -2 ^ 63 ≤ value) (high : value < 2 ^ 63) :
    toInt64 value = value := by
  simp only [to_int64_bmod, Int.bmod]
  omega

theorem to_size_small (n : Nat) (small : n < 2 ^ 64) : toSizeT n = n := by
  unfold toSizeT
  omega

theorem close_string_fits {frames : List Frame} (node : Node) (len : node.reply.len = node.pos)
    (small : node.pos < 2 ^ 64) (fits : node.pos < node.reply.str.capacity) :
    closeString frames node = close frames (.mk node []) := by
  unfold closeString
  rw [if_pos ⟨by rw [len, to_size_small _ small], fits⟩]

theorem bmod_digit (width value d : Nat) :
    ((value : Int).bmod width * 10 + d).bmod width = ((value * 10 + d : Nat) : Int).bmod width := by
  rw [← Int.bmod_add_bmod, Int.bmod_mul_bmod, Int.bmod_add_bmod]
  rfl

theorem to_int64_digit (value d : Nat) :
    toInt64 (toInt64 value * 10 + d) = toInt64 ((value * 10 + d : Nat) : Int) := by
  simp only [to_int64_bmod, bmod_digit]

theorem to_int32_digit (value d : Nat) :
    toInt32 (toInt32 value * 10 + d) = toInt32 ((value * 10 + d : Nat) : Int) := by
  simp only [to_int32_bmod, bmod_digit]

theorem to_int64_neg (value : Int) : toInt64 (-toInt64 value) = toInt64 (-value) := by
  rw [to_int64_bmod, to_int64_bmod, to_int64_bmod, ← Int.mul_neg_one, Int.bmod_mul_bmod,
    Int.mul_neg_one]

theorem integer_digits (node : Node) (n : Nat) :
    (decimal n).foldlM integerByte { node with reply := { node.reply with integer := 0 } } =
      some { node with reply := { node.reply with integer := toInt64 n } } := by
  exact digits_fold integerByte
    (fun value => { node with reply := { node.reply with integer := toInt64 value } })
    (fun value c number => by
      simp only [integerByte, (num_plain number).2, number, if_true, if_false, to_int64_digit]) n

theorem len_digits (node : Node) (n : Nat) :
    (decimal n).foldlM lenByte { node with reply := { node.reply with len := 0 } } =
      some { node with reply := { node.reply with len := toInt32 n } } := by
  exact digits_fold lenByte
    (fun value => { node with reply := { node.reply with len := toInt32 value } })
    (fun value c number => by
      simp only [lenByte, (num_plain number).2, number, if_true, if_false, to_int32_digit]) n

theorem elements_digits (node : Node) (n : Nat) :
    (decimal n).foldlM elementsByte { node with reply := { node.reply with elements := 0 } } =
      some { node with reply := { node.reply with elements := n % 2 ^ 64 } } := by
  have wraps : ∀ value d : Nat, (value % 2 ^ 64 * 10 + d) % 2 ^ 64 = (value * 10 + d) % 2 ^ 64 := by
    intro value d
    omega
  exact digits_fold elementsByte
    (fun value => { node with reply := { node.reply with elements := value % 2 ^ 64 } })
    (fun value c number => by
      simp only [elementsByte, (num_plain number).2, number, if_true, if_false, wraps]) n

def countNode (type : ReplyType) (elements : Nat) : Node :=
  { typedNode .multi newNode with
    brk := lf
    reply := { (typedNode .multi newNode).reply with type := type, elements := elements } }

section Values

variable {stack : Nat} {frames : List Frame} {move : Machine → Byte → Step Machine Halt}
  (moves : ∀ machine c, Limited machine → move machine c = step stack machine c)

include moves

theorem move_other {phase : Phase} (other : phase ≠ .text) (node : Node) (c : Byte) :
    move ⟨frames, phase, node⟩ c = step stack ⟨frames, phase, node⟩ c :=
  moves _ c fun text => absurd text other

section

variable (room : frames.length < stack)

include room

theorem run_opcode {c : Byte} {op : OpCode} (read : opCode c = some op) (rest : List Byte) :
    run move (startAt frames) (c :: rest) =
      run move
        ⟨frames, takePhase op (typedNode op newNode), takeNode op (typedNode op newNode)⟩ rest := by
  have taken := (move_other moves Phase.noConfusion newNode c).trans
    (step_shallow room .opcode newNode c)
  simp only [read] at taken
  exact run_read _ taken rest

theorem run_text (op : OpCode) (text : op = .status ∨ op = .error) {c : Byte}
    (read : opCode c = some op) (bytes : List Byte) (line : TextLine bytes) (rest : List Byte) :
    ∃ node : Node, node.reply.type = opType op ∧ node.reply.bytes = bytes ∧
      node.reply.len = bytes.length ∧
      run move (startAt frames) (c :: (bytes ++ cr :: lf :: rest)) =
        proceed move (close frames (.mk node [])) rest := by
  obtain ⟨short, noCr, -⟩ := line
  let start : Node := readied (typedNode op newNode)
  let stored : Node := { start with
    pos := bytes.length
    brk := lf
    reply := { start.reply with bytes := bytes } }
  have len : (endText stored).reply.len = bytes.length := by
    change toInt32 (bytes.length : Nat) = bytes.length
    exact to_int32_small (by omega) (by omega)
  refine ⟨endText stored, rfl, rfl, len, ?_⟩
  have folded := store_fold start bytes (by
    change 0 + bytes.length ≤ 512
    omega)
  have line : op ≠ .bulk := by rcases text with rfl | rfl <;> exact OpCode.noConfusion
  have reads : ∀ node c, node.type = some op →
      move ⟨frames, .text, node⟩ c =
        lineStep frames .text storeByte .fault (closeText frames) node c := fun node c typed =>
    (moves _ c fun _ => by simp only [typed]; simpa using line).trans
      (step_shallow room .text node c)
  have whole := run_whole_line reads bytes start _ rfl rfl noCr folded rest
  have same : ({ start with
      pos := start.pos + bytes.length
      brk := lf
      reply := { start.reply with bytes := start.reply.bytes ++ bytes } } : Node) = stored := by
    simp [stored, start, readied, typedNode, newNode]
  rw [run_opcode moves room read]
  have entered : Machine.mk frames (takePhase op (typedNode op newNode))
      (takeNode op (typedNode op newNode)) = ⟨frames, .text, start⟩ := by
    rcases text with rfl | rfl <;> rfl
  rw [entered, whole]
  simp only [same]
  rw [closeText, close_string_fits _ len (by
    change bytes.length < 2 ^ 64
    omega) (by
    change bytes.length < 512
    omega)]

theorem run_integer (value : Int) (range : -2 ^ 63 ≤ value ∧ value < 2 ^ 63) (rest : List Byte) :
    ∃ node : Node, node.reply.type = .integer ∧ node.reply.integer = value ∧
      run move (startAt frames) (58 :: (signed value ++ cr :: lf :: rest)) =
        proceed move (close frames (.mk node [])) rest := by
  have plain : cr ∉ signed value := by
    intro inside
    unfold signed at inside
    have digits : cr ∉ decimal value.natAbs := fun inside =>
      (num_plain (decimal_num _ cr inside)).1 rfl
    split_ifs at inside
    · rcases mem_cons.mp inside with same | inside
      · exact absurd same (by decide)
      · exact digits inside
    · exact digits inside
  let start : Node := takeNode .integer (typedNode .integer newNode)
  have ends : ∀ final : Node, (signed value).foldlM integerByte start = some final →
      run move (startAt frames) (58 :: (signed value ++ cr :: lf :: rest)) =
        proceed move (closeNumber frames { final with brk := lf }) rest := by
    intro final folded
    rw [run_opcode moves room rfl]
    exact run_whole_line (fun node c _ =>
        (move_other moves Phase.noConfusion node c).trans (step_shallow room .number node c))
      (signed value) start final rfl rfl plain folded rest
  by_cases negative : value < 0
  · have folded : (signed value).foldlM integerByte start = some { start with
        want := sizeMax
        reply := { start.reply with integer := toInt64 (value.natAbs : Nat) } } := by
      simp only [signed, negative, if_true, foldlM_cons]
      exact integer_digits { start with want := sizeMax } value.natAbs
    refine ⟨_, ?_, ?_, ends _ folded⟩
    · rfl
    · simp only [to_int64_sign, to_int64_neg]
      rw [show (-((value.natAbs : Nat) : Int)) = value by omega]
      exact to_int64_small range.1 range.2
  · have folded : (signed value).foldlM integerByte start = some { start with
        reply := { start.reply with integer := toInt64 (value.natAbs : Nat) } } := by
      simp only [signed, negative, if_false]
      exact integer_digits start value.natAbs
    refine ⟨_, ?_, ?_, ends _ folded⟩
    · rfl
    · change toInt64 (toInt64 (value.natAbs : Nat) * (1 : Nat)) = value
      rw [show ((value.natAbs : Nat) : Int) = value by omega, Int.natCast_one, Int.mul_one,
        to_int64_idem, to_int64_small range.1 range.2]

theorem run_body (bytes : List Byte) (node : Node)
    (wanted : node.want = bytes.length + 2) (len : node.reply.len = (node.pos + bytes.length : Nat))
    (small : node.pos + bytes.length < 2 ^ 64)
    (fits : node.pos + bytes.length < node.reply.str.capacity) (rest : List Byte) :
    run move ⟨frames, .body, node⟩
        (bytes ++ cr :: lf :: rest) =
      proceed move (close frames (.mk { node with
        want := 0
        pos := node.pos + bytes.length
        reply := { node.reply with bytes := node.reply.bytes ++ bytes } } [])) rest := by
  induction bytes generalizing node with
  | nil =>
    simp only [length_nil, Nat.zero_add, Nat.add_zero] at wanted len fits small
    have first := (move_other moves Phase.noConfusion node cr).trans
      (step_shallow room .body node cr)
    have second := (move_other moves Phase.noConfusion { node with want := 1 } lf).trans
      (step_shallow room .body { node with want := 1 } lf)
    simp only [bulkStep, wanted] at first second
    rw [close_string_fits { node with want := 0 } len small fits] at second
    rw [nil_append, run_read _ first, proceed]
    rw [run_read _ second]
    simp
  | cons c bytes ih =>
    simp only [length_cons] at wanted len fits small
    have taken := (move_other moves Phase.noConfusion node c).trans
      (step_shallow room .body node c)
    have content : node.want > 2 := by omega
    have free : node.pos < node.reply.str.capacity := by omega
    simp only [bulkStep, content, if_true, storeByte, free] at taken
    rw [cons_append, run_read _ taken, proceed, ih]
    · simp [Nat.add_assoc, Nat.add_comm 1]
    · simp only
      omega
    · simp only [len]
      omega
    · simp only
      omega
    · simp only
      omega

theorem run_bulk_value (bytes : List Byte) (short : bytes.length < 2 ^ 31 - 2) (rest : List Byte) :
    ∃ node : Node, node.reply.type = .string ∧ node.reply.bytes = bytes ∧
      node.reply.len = bytes.length ∧
      run move (startAt frames)
          (36 :: (decimal bytes.length ++ cr :: lf :: (bytes ++ cr :: lf :: rest))) =
        proceed move (close frames (.mk node [])) rest := by
  let header : Node := { typedNode .bulk newNode with
    reply := { (typedNode .bulk newNode).reply with len := bytes.length } }
  let opened : Node := openBody header
  have wanted : opened.want = bytes.length + 2 := by
    have sum : toInt32 ((bytes.length : Int) + 2) = (bytes.length + 2 : Nat) :=
      to_int32_small (by omega) (by omega)
    change toSizeT (toInt32 ((bytes.length : Int) + 2)) = _
    rw [sum, to_size_small _ (by omega)]
  have fits : bytes.length < opened.reply.str.capacity := by
    have next : toInt32 ((bytes.length : Int) + 1) = bytes.length + 1 :=
      to_int32_small (by omega) (by omega)
    change bytes.length < StrBuf.capacity (if toInt32 ((bytes.length : Int) + 1) > sizeTmpBuff then
      .heap ((bytes.length : Int) + 1).toNat else .tmpBuff)
    rw [next]
    split_ifs with large
    · simp only [StrBuf.capacity]
      omega
    · simp only [StrBuf.capacity, sizeTmpBuff] at large ⊢
      omega
  have folded : (decimal bytes.length).foldlM lenByte (typedNode .bulk newNode) = some header := by
    have digits := len_digits (typedNode .bulk newNode) bytes.length
    rw [to_int32_small (by omega) (by omega)] at digits
    exact digits
  have closed : closeLength frames { header with brk := lf } =
      .more ⟨frames, .body, opened⟩ := by
    have body : ¬(openBody { header with brk := cr }).want = 0 := by
      change ¬opened.want = 0
      omega
    have notNil : header.reply.type ≠ .nil := ReplyType.noConfusion
    simp only [closeLength]
    rw [if_neg notNil, if_neg body]
    rfl
  refine ⟨{ opened with
    want := 0
    pos := bytes.length
    reply := { opened.reply with bytes := bytes } }, rfl, rfl, rfl, ?_⟩
  rw [run_opcode moves room rfl]
  have line := run_whole_line (fun node c _ =>
      (move_other moves Phase.noConfusion node c).trans (step_shallow room .length node c))
    (decimal bytes.length) (typedNode .bulk newNode) header rfl rfl
    (fun inside => (num_plain (decimal_num _ cr inside)).1 rfl) folded
    (bytes ++ cr :: lf :: rest)
  rw [closed] at line
  refine line.trans ?_
  have zero : opened.pos = 0 := rfl
  have body := run_body moves room bytes opened wanted (by rw [zero, Nat.zero_add]; rfl)
    (by rw [zero, Nat.zero_add]; omega) (by rw [zero, Nat.zero_add]; exact fits) rest
  rw [zero, Nat.zero_add] at body
  exact body

theorem run_nil_bulk (rest : List Byte) :
    ∃ node : Node, node.reply.type = .nil ∧
      run move (startAt frames) (36 :: 45 :: 49 :: cr :: lf :: rest) =
        proceed move (close frames (.mk node [])) rest := by
  let header : Node := { typedNode .bulk newNode with
    reply := { (typedNode .bulk newNode).reply with type := .nil, len := 1 } }
  refine ⟨header, rfl, ?_⟩
  rw [run_opcode moves room rfl]
  exact run_whole_line (fun node c _ =>
      (move_other moves Phase.noConfusion node c).trans (step_shallow room .length node c))
    [45, 49] (typedNode .bulk newNode) header rfl rfl (by decide) (by rfl) rest

theorem run_count (n : Nat) (rest : List Byte) :
    run move (startAt frames) (42 :: (decimal n ++ cr :: lf :: rest)) =
      proceed move (closeCount frames (countNode .array (n % 2 ^ 64))) rest := by
  rw [run_opcode moves room rfl]
  exact run_whole_line (fun node c _ =>
      (move_other moves Phase.noConfusion node c).trans (step_shallow room .count node c))
    (decimal n) (typedNode .multi newNode) _ rfl rfl
    (fun inside => (num_plain (decimal_num _ cr inside)).1 rfl)
    (elements_digits (typedNode .multi newNode) n) rest

theorem run_nil_count (rest : List Byte) :
    run move (startAt frames) (42 :: 45 :: 49 :: cr :: lf :: rest) =
      proceed move (closeCount frames (countNode .nil 1)) rest := by
  rw [run_opcode moves room rfl]
  exact run_whole_line (fun node c _ =>
      (move_other moves Phase.noConfusion node c).trans (step_shallow room .count node c))
    [45, 49] (typedNode .multi newNode) { countNode .nil 1 with brk := cr } rfl rfl (by decide)
    (by rfl) rest

end

end Values

/-! ## Values without nil arrays are decoded -/

mutual

theorem value_read {stack : Nat} {move : Machine → Byte → Step Machine Halt}
    (moves : ∀ machine c, Limited machine → move machine c = step stack machine c) (value : Resp)
    (frames : List Frame) (wellFormed : WellFormed value) (clean : nilArrays value = 0)
    (levels : frames.length + depth value ≤ stack) (rest : List Byte) :
    ∃ tree : ParseTree, Denotes value tree.reply ∧ Bare tree.reply ∧
      run move (startAt frames) (encode value ++ rest) = proceed move (close frames tree) rest := by
  have room : frames.length < stack := by
    have positive : 0 < depth value := by cases value <;> simp [depth]
    omega
  match value with
  | .status text =>
    obtain ⟨node, type, bytes, len, ran⟩ := run_text moves room .status (.inl rfl)
      (show opCode 43 = some .status from rfl) text wellFormed rest
    exact ⟨.mk node [], ⟨type, bytes, len⟩, bare_leaf node, by simpa [encode] using ran⟩
  | .error text =>
    obtain ⟨node, type, bytes, len, ran⟩ := run_text moves room .error (.inr rfl)
      (show opCode 45 = some .error from rfl) text wellFormed rest
    exact ⟨.mk node [], ⟨type, bytes, len⟩, bare_leaf node, by simpa [encode] using ran⟩
  | .integer number =>
    obtain ⟨node, type, integer, ran⟩ := run_integer moves room number wellFormed rest
    exact ⟨.mk node [], ⟨type, integer⟩, bare_leaf node, by simpa [encode] using ran⟩
  | .bulk content =>
    obtain ⟨node, type, bytes, len, ran⟩ := run_bulk_value moves room content wellFormed rest
    exact ⟨.mk node [], ⟨type, bytes, len⟩, bare_leaf node, by simpa [encode] using ran⟩
  | .nilBulk =>
    obtain ⟨node, type, ran⟩ := run_nil_bulk moves room rest
    exact ⟨.mk node [], type, bare_leaf node, by simpa [encode] using ran⟩
  | .array items =>
    obtain ⟨fits, itemsFormed⟩ := wellFormed
    have counted := run_count moves room items.length (encodeAll items ++ rest)
    rw [Nat.mod_eq_of_lt (by omega)] at counted
    have whole : encode (.array items) ++ rest =
        42 :: (decimal items.length ++ cr :: lf :: (encodeAll items ++ rest)) := by
      simp [encode]
    rw [whole, counted]
    cases items with
    | nil =>
      exact ⟨.mk { countNode .array 0 with brk := cr } [], ⟨rfl, rfl, trivial⟩, bare_leaf _, rfl⟩
    | cons item more =>
      let node : Node := { countNode .array (more.length + 1) with
        brk := cr
        want := more.length + 1 }
      have opened : closeCount frames (countNode .array (item :: more).length) =
          .more (startAt ({ node := node, before := [], left := more.length } :: frames)) := by
        have small : ¬(more.length + 1) * 8 ≥ 2 ^ 64 := not_le.mpr fits
        simp only [closeCount, countNode, length_cons, small, if_false]
        rfl
      rw [opened]
      simp only [depth] at levels
      obtain ⟨trees, denoted, bare, ran⟩ := items_read moves (item :: more)
        { node := node, before := [], left := more.length } frames rfl itemsFormed clean
        (by omega) rest
      exact ⟨.mk { node with pos := node.pos + (item :: more).length } trees,
        ⟨rfl, rfl, denoted⟩, ⟨fun other => absurd rfl other, bare⟩, ran⟩
  | .nilArray => simp [nilArrays] at clean

theorem items_read {stack : Nat} {move : Machine → Byte → Step Machine Halt}
    (moves : ∀ machine c, Limited machine → move machine c = step stack machine c)
    (items : List Resp) (frame : Frame) (frames : List Frame)
    (given : items.length = frame.left + 1) (wellFormed : AllWellFormed items)
    (clean : nilArraysAll items = 0) (levels : frames.length + 1 + depthAll items ≤ stack)
    (rest : List Byte) :
    ∃ trees : List ParseTree, DenoteAll items (replies trees) ∧ AllBare (replies trees) ∧
      run move (startAt (frame :: frames)) (encodeAll items ++ rest) =
        proceed move (close frames
          (.mk { frame.node with pos := frame.node.pos + items.length } (frame.before ++ trees)))
          rest := by
  match items with
  | [] => simp at given
  | item :: more =>
    obtain ⟨itemFormed, moreFormed⟩ := wellFormed
    simp only [nilArraysAll] at clean
    simp only [depthAll] at levels
    obtain ⟨tree, denoted, bare, ran⟩ :=
      value_read moves item (frame :: frames) itemFormed (by omega)
      (by simp only [length_cons]; omega) (encodeAll more ++ rest)
    have whole : encodeAll (item :: more) ++ rest = encode item ++ (encodeAll more ++ rest) := by
      simp [encodeAll]
    rw [whole, ran]
    obtain ⟨node, before, left⟩ := frame
    cases left with
    | zero =>
      have only : more = [] := length_eq_zero_iff.mp (by simpa using given)
      subst only
      exact ⟨[tree], ⟨denoted, trivial⟩, ⟨bare, trivial⟩, rfl⟩
    | succ left =>
      obtain ⟨trees, denotedMore, bareMore, ranMore⟩ := items_read moves more
        (nextFrame { node := node, before := before, left := left + 1 } tree left) frames
        (by simpa [nextFrame] using given) moreFormed (by omega) (by omega) rest
      refine ⟨tree :: trees, ⟨denoted, denotedMore⟩, ⟨bare, bareMore⟩, ranMore.trans ?_⟩
      simp [nextFrame, Nat.add_assoc, Nat.add_comm 1]

end

/-! ## Counting the values the parser waits for -/

theorem value_step (stack : Nat) (value : Resp) (frames : List Frame)
    (wellFormed : WellFormed value) (clean : nilArrays value = 0)
    (levels : frames.length + depth value ≤ stack) (rest : List Byte) :
    ∃ tree : ParseTree, Denotes value tree.reply ∧ Bare tree.reply ∧
      run (step stack) (startAt frames) (encode value ++ rest) =
        proceed (step stack) (close frames tree) rest :=
  value_read (fun _ _ _ => rfl) value frames wellFormed clean levels rest

def need : List Frame → Nat
  | [] => 1
  | frame :: frames => frame.left + need frames

theorem need_pos (frames : List Frame) : 0 < need frames := by
  induction frames with
  | nil => exact Nat.one_pos
  | cons frame frames ih => exact Nat.add_pos_right _ ih

inductive Owes : Nat → Next Machine Halt → Prop where
  | done (tree : ParseTree) : Owes 0 (.stop (.ok, tree))
  | more (frames : List Frame) : Owes (need frames) (.more (startAt frames))

theorem close_owes (frames : List Frame) (tree : ParseTree) :
    Owes (need frames - 1) (close frames tree) := by
  induction frames generalizing tree with
  | nil => exact .done tree
  | cons frame frames ih =>
    obtain ⟨node, before, left⟩ := frame
    cases left with
    | zero =>
      rw [need, Nat.zero_add]
      exact ih _
    | succ left =>
      have fewer : need ({ node := node, before := before, left := left + 1 } :: frames) - 1 =
          need (nextFrame { node := node, before := before, left := left + 1 } tree left ::
            frames) := by
        simp only [need, nextFrame]
        omega
      rw [fewer]
      exact .more _

theorem count_owes (frames : List Frame) (type : ReplyType) (elements : Nat)
    (fits : elements * 8 < 2 ^ 64) :
    Owes (need frames - 1 + elements) (closeCount frames (countNode type elements)) := by
  cases elements with
  | zero => exact close_owes frames _
  | succ left =>
    have small : ¬(left + 1) * 8 ≥ 2 ^ 64 := not_le.mpr fits
    have positive := need_pos frames
    have owed : need frames - 1 + (left + 1) =
        need ({ node := { countNode type (left + 1) with brk := cr, want := left + 1 },
                before := [], left := left } :: frames) := by
      simp only [need]
      omega
    simp only [closeCount, countNode, small, if_false]
    rw [owed]
    exact .more _

/-- What a run comes to after some values: the calls are nested too deeply, or
so many values are still owed. -/
inductive Reads (stack owed : Nat) (rest : List Byte) :
    Outcome Machine Byte Halt → Prop where
  | deep (tree : ParseTree) (left : List Byte) : Reads stack owed rest (.stop (.deep, tree) left)
  | owes (next : Next Machine Halt) (owing : Owes owed next) :
      Reads stack owed rest (proceed (step stack) next rest)

theorem encode_cons (value : Resp) : ∃ c more, encode value = c :: more := by
  cases value <;> exact ⟨_, _, rfl⟩

theorem value_too_deep {stack : Nat} {frames : List Frame} (full : stack ≤ frames.length)
    (value : Resp) (owed : Nat) (rest : List Byte) :
    Reads stack owed rest (run (step stack) (startAt frames) (encode value ++ rest)) := by
  obtain ⟨c, more, wire⟩ := encode_cons value
  have refused : step stack (startAt frames) c = .refuse (.deep, (startAt frames).tree) :=
    if_pos full
  rw [wire, cons_append, run_refuse _ refused]
  exact .deep _ _

mutual

/-- Every value takes one of the places waited for, and every nil array in it
makes one more. -/
theorem value_owes (stack : Nat) (value : Resp) (frames : List Frame)
    (wellFormed : WellFormed value) (rest : List Byte) :
    Reads stack (need frames - 1 + nilArrays value) rest
      (run (step stack) (startAt frames) (encode value ++ rest)) := by
  by_cases room : frames.length < stack
  · have scalar : nilArrays value = 0 → depth value = 1 →
        Reads stack (need frames - 1 + nilArrays value) rest
          (run (step stack) (startAt frames) (encode value ++ rest)) := by
      intro clean flat
      obtain ⟨tree, -, -, ran⟩ := value_step stack value frames wellFormed clean (by omega) rest
      rw [ran, clean]
      exact .owes _ (close_owes frames tree)
    match value with
    | .array items =>
      obtain ⟨fits, itemsFormed⟩ := wellFormed
      have counted := run_count (fun _ _ _ => rfl) room items.length (encodeAll items ++ rest)
      rw [Nat.mod_eq_of_lt (by omega)] at counted
      have whole : encode (.array items) ++ rest =
          42 :: (decimal items.length ++ cr :: lf :: (encodeAll items ++ rest)) := by
        simp [encode]
      rw [whole, counted]
      have owed := items_owe stack items _ (count_owes frames .array items.length fits)
        itemsFormed (Nat.le_add_left _ _) rest
      rwa [Nat.add_sub_cancel] at owed
    | .nilArray =>
      have counted := run_nil_count (fun _ _ _ => rfl) room rest
      have whole : encode .nilArray ++ rest = 42 :: 45 :: 49 :: cr :: lf :: rest := by
        simp [encode]
      rw [whole, counted]
      exact .owes _ (count_owes frames .nil 1 (by decide))
    | .status text | .error text | .integer number | .bulk content | .nilBulk =>
      exact scalar rfl rfl
  · exact value_too_deep (not_lt.mp room) value _ rest

theorem items_owe (stack : Nat) {owed : Nat} (items : List Resp) (next : Next Machine Halt)
    (owing : Owes owed next) (wellFormed : AllWellFormed items) (enough : items.length ≤ owed)
    (rest : List Byte) :
    Reads stack (owed - items.length + nilArraysAll items) rest
      (proceed (step stack) next (encodeAll items ++ rest)) := by
  match items with
  | [] => exact .owes next owing
  | item :: more =>
    obtain ⟨itemFormed, moreFormed⟩ := wellFormed
    have whole : encodeAll (item :: more) ++ rest = encode item ++ (encodeAll more ++ rest) := by
      simp [encodeAll]
    cases owing with
    | done tree => simp at enough
    | more frames =>
      simp only [length_cons] at enough
      have first := value_owes stack item frames itemFormed (encodeAll more ++ rest)
      rw [whole, proceed]
      generalize run (step stack) (startAt frames) (encode item ++ (encodeAll more ++ rest)) =
        outcome at first
      cases first with
      | deep tree left => exact .deep tree left
      | owes next owing =>
        have others := items_owe stack more next owing moreFormed (by omega) rest
        simp only [nilArraysAll, length_cons]
        rwa [show need frames - (more.length + 1) + (nilArrays item + nilArraysAll more) =
          need frames - 1 + nilArrays item - more.length + nilArraysAll more by omega]

end

/-- One call of `parse` on a fresh tree decodes a value, and stops right behind
it, exactly if the value holds no nil array. -/
theorem parse_decodes_iff (stack : Nat) (value : Resp) (rest : List Byte)
    (wellFormed : WellFormed value) (levels : depth value ≤ stack) :
    (∃ tree, parse stack parseTreeNew (encode value ++ rest) = (.ok, tree, rest) ∧
      Denotes value tree.reply) ↔ nilArrays value = 0 := by
  have called : parse stack parseTreeNew (encode value ++ rest) =
      codeOf (run (step stack) (startAt []) (encode value ++ rest)) := by
    refine parse_machine stack (startAt []) _ (fresh_sound stack).ready ?_
    obtain ⟨c, more, wire⟩ := encode_cons value
    simp [wire]
  constructor
  · rintro ⟨tree, decoded, -⟩
    rw [called] at decoded
    have owed := value_owes stack value [] wellFormed rest
    generalize run (step stack) (startAt []) (encode value ++ rest) = outcome at owed decoded
    rw [need, Nat.sub_self, Nat.zero_add] at owed
    cases owed with
    | deep tree left => cases decoded
    | owes next owing =>
      generalize owes : nilArrays value = missing at owing
      cases owing with
      | done tree => rfl
      | more frames =>
        simp only [proceed] at decoded
        cases ran : run (step stack) (startAt frames) rest with
        | more machine =>
          rw [ran] at decoded
          cases decoded
        | stop final left =>
          rw [ran] at decoded
          obtain ⟨ret, reached⟩ := final
          cases decoded
          exact absurd (run_ok_shorter ran) (Nat.lt_irrefl _)
  · intro clean
    obtain ⟨tree, denoted, -, ran⟩ := value_step stack value [] wellFormed clean
      (by simpa using levels) rest
    refine ⟨tree, ?_, denoted⟩
    rw [called, ran]
    rfl

/-- The array of `-5`, `hi`, nil and an empty array, with `+` behind it. -/
theorem parse_decodes_nested :
    ∃ tree, parse 2 parseTreeNew
        (encode (.array [.integer (-5), .bulk [104, 105], .nilBulk, .array []]) ++ [43]) =
        (.ok, tree, [43]) ∧
      Denotes (.array [.integer (-5), .bulk [104, 105], .nilBulk, .array []]) tree.reply := by
  refine (parse_decodes_iff 2 _ [43] ?_ (by decide)).mpr rfl
  simp [WellFormed, AllWellFormed]

/-- A nil array is not decoded: the parser asks for more bytes, and takes the
next reply for its element. -/
theorem nil_array_swallows :
    (¬∃ tree, parse 2 parseTreeNew (encode .nilArray ++ []) = (.ok, tree, []) ∧
      Denotes .nilArray tree.reply) ∧
    (parse 2 parseTreeNew (encode .nilArray)).1 = .retry ∧
    (parse 2 parseTreeNew ([42, 45, 49, 13, 10] ++ [58, 49, 13, 10])).1 = .ok ∧
    (parse 2 parseTreeNew ([42, 45, 49, 13, 10] ++ [58, 49, 13, 10])).2.2 = [] := by
  have asks : (parse 2 parseTreeNew (encode .nilArray)).1 = .retry := rfl
  refine ⟨?_, asks, rfl, rfl⟩
  rintro ⟨tree, decoded, -⟩
  rw [append_nil] at decoded
  rw [decoded] at asks
  cases asks

end Chuck.RedisReplyCodec
