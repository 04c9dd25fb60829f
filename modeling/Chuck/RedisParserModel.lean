import Mathlib.Algebra.Group.Int.Defs
import Mathlib.Algebra.Group.Nat.Defs
import Mathlib.Data.List.Basic

/-!
# Source-shaped Redis reply parser

`parse_string`, `parse_integer`, `parse_breply`, `parse_mbreply` and `parse` of
`chk_client.c`. The byte range `[*str, end)` is a list, and each function
returns its code, the changed tree and the bytes it left. A `parse_tree` is a
`Node` with its children; an empty child list is the NULL `childs` pointer.

Stores through `reply->str` happen in order, so the bytes stored so far are
kept as a list, together with the buffer they go to; a store outside that
buffer and a failed assertion end the run with the code `fault`. Memory
requests that fit the address space succeed. `parse` calls itself once per
level of nested arrays: its first argument is the number of levels the call
stack still allows, and `deep` is the code for an exhausted stack.
-/

namespace Chuck.RedisParserModel

abbrev Byte := UInt8

def cr : Byte := 13
def lf : Byte := 10
def minus : Byte := 45

inductive Ret where
  | ok
  | retry
  | err
  | fault
  | deep
  deriving DecidableEq, Repr

inductive ReplyType where
  | none
  | string
  | array
  | integer
  | nil
  | status
  | error
  deriving DecidableEq, Repr

inductive OpCode where
  | status
  | error
  | integer
  | bulk
  | multi
  deriving DecidableEq, Repr

def sizeTmpBuff : Nat := 512

inductive StrBuf where
  | null
  | tmpBuff
  | heap (size : Nat)
  deriving DecidableEq, Repr

def StrBuf.capacity : StrBuf → Nat
  | .null => 0
  | .tmpBuff => sizeTmpBuff
  | .heap size => size

structure Reply where
  type : ReplyType
  integer : Int
  len : Int
  str : StrBuf
  bytes : List Byte
  elements : Nat
  deriving DecidableEq, Repr

structure Node where
  reply : Reply
  want : Nat
  pos : Nat
  type : Option OpCode
  brk : Byte
  deriving DecidableEq, Repr

inductive ParseTree where
  | mk (node : Node) (childs : List ParseTree)

def toInt32 (value : Int) : Int := (BitVec.ofInt 32 value).toInt

def toInt64 (value : Int) : Int := (BitVec.ofInt 64 value).toInt

def toSizeT (value : Int) : Nat := (value % 2 ^ 64).toNat

def sizeMax : Nat := 2 ^ 64 - 1

def newNode : Node where
  reply := { type := .none, integer := 0, len := 0, str := .null, bytes := [], elements := 0 }
  want := 0
  pos := 0
  type := none
  brk := cr

def parseTreeNew : ParseTree := .mk newNode []

def isNum (c : Byte) : Bool := 48 ≤ c && c ≤ 57

def digit (c : Byte) : Nat := c.toNat - 48

inductive Line where
  | done (node : Node) (rest : List Byte)
  | more (node : Node)
  | bad (node : Node) (rest : List Byte)

/-- The nested loops shared by the four readers: bytes up to the current
terminator go to `onByte`; the first terminator is `\r`, the last one `\n`. -/
def lineLoop (onByte : Node → Byte → Option Node) : Node → List Byte → Line
  | node, [] => .more node
  | node, c :: rest =>
    if c ≠ node.brk then
      match onByte node c with
      | some next => lineLoop onByte next rest
      | none => .bad node (c :: rest)
    else if node.brk = lf then .done node rest
    else lineLoop onByte { node with brk := lf } rest

/-- `reply->str[current->pos++] = c`, checked against the buffer. -/
def storeByte (node : Node) (c : Byte) : Option Node :=
  if node.pos < node.reply.str.capacity then
    some { node with
      pos := node.pos + 1
      reply := { node.reply with bytes := node.reply.bytes ++ [c] } }
  else none

def integerByte (node : Node) (c : Byte) : Option Node :=
  if c = minus then some { node with want := sizeMax }
  else if isNum c then
    some { node with reply :=
      { node.reply with integer := toInt64 (node.reply.integer * 10 + digit c) } }
  else none

def lenByte (node : Node) (c : Byte) : Option Node :=
  if c = minus then some { node with reply := { node.reply with type := .nil } }
  else if isNum c then
    some { node with reply :=
      { node.reply with len := toInt32 (node.reply.len * 10 + digit c) } }
  else none

def elementsByte (node : Node) (c : Byte) : Option Node :=
  if c = minus then some { node with reply := { node.reply with type := .nil } }
  else if isNum c then
    some { node with reply :=
      { node.reply with elements := (node.reply.elements * 10 + digit c) % 2 ^ 64 } }
  else none

def bulkLoop : Node → List Byte → Ret × Node × List Byte
  | node, [] => if node.want = 0 then (.ok, node, []) else (.retry, node, [])
  | node, c :: rest =>
    if node.want = 0 then (.ok, node, c :: rest)
    else if node.want > 2 then
      match storeByte node c with
      | some next => bulkLoop { next with want := next.want - 1 } rest
      | none => (.fault, node, c :: rest)
    else bulkLoop { node with want := node.want - 1 } rest

/-- The assertion and the terminating zero at the end of `parse_string`. -/
def endString (node : Node) (rest : List Byte) : Ret × Node × List Byte :=
  if toSizeT node.reply.len = node.pos ∧ node.pos < node.reply.str.capacity then
    (.ok, node, rest)
  else (.fault, node, rest)

def parseString (node : Node) (input : List Byte) : Ret × Node × List Byte :=
  let node := if node.reply.str = .null then
      { node with reply := { node.reply with str := .tmpBuff } }
    else node
  if node.want ≠ 0 then
    match bulkLoop node input with
    | (.ok, node, rest) => endString node rest
    | out => out
  else
    match lineLoop storeByte node input with
    | .bad node rest => (.fault, node, rest)
    | .more node => (.retry, node, [])
    | .done node rest =>
      endString { node with reply := { node.reply with len := toInt32 node.pos } } rest

def parseInteger (node : Node) (input : List Byte) : Ret × Node × List Byte :=
  match lineLoop integerByte node input with
  | .bad node rest => (.err, node, rest)
  | .more node => (.retry, node, [])
  | .done node rest =>
    (.ok, { node with reply :=
      { node.reply with integer := toInt64 (node.reply.integer * node.want) } }, rest)

def breplyBody (node : Node) (input : List Byte) : Ret × Node × List Byte :=
  let node := if node.reply.str = .null ∧ toInt32 (node.reply.len + 1) > sizeTmpBuff then
      { node with reply := { node.reply with str := .heap (node.reply.len + 1).toNat } }
    else node
  parseString node input

def parseBreply (node : Node) (input : List Byte) : Ret × Node × List Byte :=
  if node.want ≠ 0 then breplyBody node input
  else
    match lineLoop lenByte node input with
    | .bad node rest => (.err, node, rest)
    | .more node => (.retry, node, [])
    | .done node rest =>
      let node := { node with brk := cr }
      if node.reply.type = .nil then (.ok, node, rest)
      else breplyBody { node with want := toSizeT (toInt32 (node.reply.len + 2)) } rest

/-- The loop over the children still to be parsed: code, number of children
finished, the children, bytes left. -/
def childLoop (parseChild : ParseTree → List Byte → Ret × ParseTree × List Byte) :
    List ParseTree → List Byte → Ret × Nat × List ParseTree × List Byte
  | [], input => (.ok, 0, [], input)
  | child :: more, input =>
    if input = [] then (.retry, 0, child :: more, [])
    else
      match parseChild child input with
      | (.ok, child, rest) =>
        let (ret, finished, more, rest) := childLoop parseChild more rest
        (ret, finished + 1, child :: more, rest)
      | (ret, child, rest) => (ret, 0, child :: more, rest)

def mbreplyBody (parseChild : ParseTree → List Byte → Ret × ParseTree × List Byte)
    (node : Node) (childs : List ParseTree) (input : List Byte) : Ret × ParseTree × List Byte :=
  if node.want > 0 ∧ childs = [] ∧ node.want * 8 ≥ 2 ^ 64 then (.err, .mk node [], input)
  else
    let childs := if node.want > 0 ∧ childs = [] then List.replicate node.want parseTreeNew
      else childs
    let (ret, finished, parsed, rest) :=
      childLoop parseChild (childs.drop node.pos) input
    (ret, .mk { node with pos := node.pos + finished } (childs.take node.pos ++ parsed), rest)

def parseMbreply (parseChild : ParseTree → List Byte → Ret × ParseTree × List Byte)
    (node : Node) (childs : List ParseTree) (input : List Byte) : Ret × ParseTree × List Byte :=
  if node.want ≠ 0 then mbreplyBody parseChild node childs input
  else
    match lineLoop elementsByte node input with
    | .bad node rest => (.err, .mk node childs, rest)
    | .more node => (.retry, .mk node childs, [])
    | .done node rest =>
      mbreplyBody parseChild { node with brk := cr, want := node.reply.elements } childs rest

def opCode (c : Byte) : Option OpCode :=
  if c = 43 then some .status
  else if c = 45 then some .error
  else if c = 58 then some .integer
  else if c = 36 then some .bulk
  else if c = 42 then some .multi
  else none

def opType : OpCode → ReplyType
  | .status => .status
  | .error => .error
  | .integer => .integer
  | .bulk => .string
  | .multi => .array

def withLeaf (childs : List ParseTree) (out : Ret × Node × List Byte) :
    Ret × ParseTree × List Byte :=
  (out.1, .mk out.2.1 childs, out.2.2)

def parseSwitch (parseChild : ParseTree → List Byte → Ret × ParseTree × List Byte) (op : OpCode)
    (node : Node) (childs : List ParseTree) (input : List Byte) : Ret × ParseTree × List Byte :=
  let node := if node.reply.type = .none then
      { node with reply := { node.reply with type := opType op } }
    else node
  match op with
  | .status | .error => withLeaf childs (parseString node input)
  | .integer => withLeaf childs (parseInteger { node with want := 1 } input)
  | .bulk => withLeaf childs (parseBreply node input)
  | .multi => parseMbreply parseChild node childs input

/-- `parse`. Callers pass at least one byte to a tree whose opcode is unread. -/
def parse : Nat → ParseTree → List Byte → Ret × ParseTree × List Byte
  | 0, tree, input => (.deep, tree, input)
  | stack + 1, .mk node childs, input =>
    match node.type with
    | some op => parseSwitch (parse stack) op node childs input
    | none =>
      match input with
      | [] => (.retry, .mk node childs, [])
      | c :: rest =>
        match opCode c with
        | none => (.err, .mk node childs, rest)
        | some op => parseSwitch (parse stack) op { node with type := some op } childs rest

/-- The `redisReply` tree a caller sees: scalar fields, stored bytes and elements. -/
inductive ReplyTree where
  | mk (type : ReplyType) (integer len : Int) (bytes : List Byte) (elements : Nat)
      (element : List ReplyTree)

mutual

def ParseTree.reply : ParseTree → ReplyTree
  | .mk node childs =>
    .mk node.reply.type node.reply.integer node.reply.len node.reply.bytes
      node.reply.elements (replies childs)

def replies : List ParseTree → List ReplyTree
  | [] => []
  | child :: more => child.reply :: replies more

end

end Chuck.RedisParserModel
