import Chuck.ByteChunkModel
import Chuck.RedisReplyCodec

/-!
# Source-shaped Redis command encoders

`intlen`, `bulklen` and `redisvFormatCommand` of `chk_client.c`, and the
`append_head`, `append_str` and `append_int` that build a command from Lua
values. A C string is the list of its bytes; reading behind the list gives the
terminating zero. Memory requests succeed and `sds` strings are byte lists. The
text of the conversions `%d`, `%u`, `%zu` and `%lld` of `sprintf` is the decimal
one; what `sdscatvprintf` writes for one of the conversions `redisvFormatCommand`
passes on to it is the parameter `vprintf`.
-/

namespace Chuck.RedisCommandModel

open Chuck.RedisParserModel (toInt32 toInt64 isNum cr lf)
open Chuck.RedisReplyCodec (decimal signed)
open Chuck.ByteChunkModel

def digitLadder (num : Int) : Nat :=
  if num < 10 then 1
  else if num < 100 then 2
  else if num < 1000 then 3
  else if num < 10000 then 4
  else if num < 100000 then 5
  else if num < 1000000 then 6
  else if num < 10000000 then 7
  else if num < 100000000 then 8
  else if num < 1000000000 then 9
  else if num < 10000000000 then 10
  else if num < 100000000000 then 11
  else if num < 1000000000000 then 12
  else if num < 10000000000000 then 13
  else if num < 100000000000000 then 14
  else if num < 1000000000000000 then 15
  else if num < 10000000000000000 then 16
  else if num < 100000000000000000 then 17
  else if num < 1000000000000000000 then 18
  else 19

/-- The first argument is the number of nested calls the call stack still allows. -/
def intlen : Nat → Int → Option Nat
  | 0, _ => none
  | stack + 1, num =>
    if num < 0 then (intlen stack (toInt64 (-num))).map (1 + ·)
    else some (digitLadder num)

def bulklen (stack len : Nat) : Option Nat :=
  (intlen stack (toInt64 len)).map fun digits => (1 + digits + 2 + len + 2) % 2 ^ 64

/-- What a variable argument is: the bytes behind a `char *` up to its zero and
beyond, a pointer with the size behind it, or the bits of a number. -/
inductive VaArg where
  | str (memory : List Byte)
  | blob (bytes : List Byte)
  | scalar (bits : BitVec 64)
  deriving DecidableEq

/-- How `redisvFormatCommand` ends without a command: it returns -1, it reads
what is not there or fails its assertion, or the call stack ends. -/
inductive Stop where
  | err
  | fault
  | deep
  deriving DecidableEq, Repr

structure Building where
  c : List Byte
  ap : List VaArg
  curarg : List Byte
  touched : Bool
  curargv : List (List Byte)
  totlen : Int
  deriving DecidableEq

def pushArg (stack : Nat) (s : Building) : Except Stop Building :=
  match bulklen stack s.curarg.length with
  | none => .error .deep
  | some len =>
    .ok { s with
      curargv := s.curargv ++ [s.curarg]
      totlen := toInt32 (s.totlen + len)
      curarg := []
      touched := false }

def isIntFmt (c : Byte) : Bool := c ∈ [100, 105, 111, 117, 120, 88]

def isFloatFmt (c : Byte) : Bool := c ∈ [101, 69, 102, 70, 103, 71, 97, 65]

def skipOne (flag : Byte) (p : List Byte) : List Byte :=
  if p.headD 0 = flag then p.tail else p

def intAfter (p : List Byte) : Option (List Byte) :=
  if p.headD 0 ≠ 0 ∧ isIntFmt (p.headD 0) then some p else none

/-- The scan for a conversion of `printf`: the format from its last character on,
or nothing for `fmt_invalid`. `strchr` also finds the terminating zero. -/
def scanDirective (p : List Byte) : Option (List Byte) :=
  let p := [35, 48, 45, 32, 43].foldl (fun p flag => skipOne flag p) p
  let p := p.dropWhile isNum
  let p := if p.headD 0 = 46 then p.tail.dropWhile isNum else p
  let here := p.headD 0
  let next := p.tail.headD 0
  if here = 0 ∨ isIntFmt here then some p
  else if isFloatFmt here then some p
  else if here = 104 ∧ next = 104 then intAfter (p.drop 2)
  else if here = 104 then intAfter p.tail
  else if here = 108 ∧ next = 108 then intAfter (p.drop 2)
  else if here = 108 then intAfter p.tail
  else none

def formatRoom : Nat := 14

section Format

variable (vprintf : List Byte → VaArg → List Byte)

/-- The `default` branch of the `switch`; `after` is the format behind the `%`. -/
def printfArg (s : Building) (after : List Byte) : Except Stop Building :=
  match scanDirective after with
  | none => .error .err
  | some p =>
    match s.ap with
    | [] => .error .fault
    | arg :: ap =>
      let length := after.length - p.length + 2
      if length < formatRoom then
        -- with the terminating zero taken for a conversion, `c` runs behind the format
        if p.headD 0 = 0 then .error .fault
        else
          let directive := 37 :: after.take (length - 1)
          .ok { s with
            c := p.tail, ap := ap, curarg := s.curarg ++ vprintf directive arg, touched := true }
      else .ok { s with c := after.tail, ap := ap, touched := true }

def convert (s : Building) (after : List Byte) : Except Stop Building :=
  if after.headD 0 = 115 then
    match s.ap with
    | .str memory :: ap =>
      .ok { s with
        c := after.tail, ap := ap
        curarg := s.curarg ++ memory.takeWhile (· ≠ 0), touched := true }
    | _ => .error .fault
  else if after.headD 0 = 98 then
    match s.ap with
    | .blob bytes :: ap =>
      .ok { s with c := after.tail, ap := ap, curarg := s.curarg ++ bytes, touched := true }
    | _ => .error .fault
  else if after.headD 0 = 37 then
    .ok { s with c := after.tail, curarg := s.curarg ++ [37], touched := true }
  else printfArg vprintf s after

def formatChar (stack : Nat) (s : Building) (c : Byte) (after : List Byte) : Except Stop Building :=
  if c ≠ 37 ∨ after.headD 0 = 0 then
    if c = 32 then
      if s.touched then pushArg stack { s with c := after } else .ok { s with c := after }
    else .ok { s with c := after, curarg := s.curarg ++ [c], touched := true }
  else convert vprintf s after

def formatLoop (stack : Nat) : Nat → Building → Except Stop Building
  | 0, s => .ok s
  | fuel + 1, s =>
    match s.c with
    | [] => .ok s
    | c :: after =>
      if c = 0 then .ok s
      else
        match formatChar vprintf stack s c after with
        | .error stop => .error stop
        | .ok s => formatLoop stack fuel s

def emitBulk (arg : List Byte) : List Byte :=
  36 :: (decimal arg.length ++ [cr, lf] ++ arg ++ [cr, lf])

def emitCommand (stack : Nat) (s : Building) : Except Stop (Int × List Byte) :=
  match intlen stack s.curargv.length with
  | none => .error .deep
  | some digits =>
    let totlen := toInt32 (s.totlen + (1 + digits + 2 : Nat))
    let cmd := 42 :: (signed s.curargv.length ++ [cr, lf] ++ s.curargv.flatMap emitBulk)
    if (cmd.length : Int) = totlen then .ok (totlen, cmd) else .error .fault

def redisvFormatCommand (stack : Nat) (format : List Byte) (ap : List VaArg) :
    Except Stop (Int × List Byte) :=
  match formatLoop vprintf stack format.length
      { c := format, ap := ap, curarg := [], touched := false, curargv := [], totlen := 0 } with
  | .error stop => .error stop
  | .ok s =>
    match if s.touched then pushArg stack s else .ok s with
    | .error stop => .error stop
    | .ok s => emitCommand stack s

end Format

section Buffers

variable (junk : Nat → Nat → Byte) (mem : Memory) (b : ByteBuffer)

def intText (digits : Nat) (num : Int) : List Byte :=
  36 :: (signed digits ++ [cr, lf] ++ signed num ++ [cr, lf])

def appendInt (stack : Nat) (num : Int) : Option (ChkError × Memory × ByteBuffer) := do
  let digits ← intlen stack num
  bytebufferAppend junk mem b (intText digits num)

end Buffers

end Chuck.RedisCommandModel
