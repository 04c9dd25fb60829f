import Chuck.ByteChunkModel
import Mathlib.Logic.Function.Basic

/-!
# Source-shaped `PromiseSocket`

`PromiseSocket.lua`: reads are requests for a number of bytes, kept in a list linked
by hand while the buffer holds too few. A request is its number among the `Recv`
calls; `next`, `byteCount` and `timer` are the fields of the requests. Calling the
`resolve` or `reject` function of a request's promise only posts a closure, so here
it is noted in `settled`. `received` notes the bytes that arrived.

`Close` releases the Lua callback for data, and `conn` is nil from then on. Outside
the socket's own events `Close` releases the socket at once, which calls the close
callback before `conn` is nil; otherwise that happens later.
-/

namespace Chuck.PromiseSocketModel

open ByteChunkModel Function

inductive Reason where
  | disconnected
  | timeout
  | invaildConnection
  deriving DecidableEq, Repr

inductive Settlement where
  | resolved (msg : List Byte)
  | rejected (err : Reason)
  deriving DecidableEq, Repr

structure PromiseSocket where
  conn : Bool
  /-- The close callback has been called. -/
  released : Bool
  /-- Read events are enabled. -/
  reading : Bool
  needResume : Bool
  mem : Memory
  buff : ByteBuffer
  promise : Option Nat
  promiseTail : Option Nat
  next : Nat → Option Nat
  byteCount : Nat → Nat
  timer : Nat → Bool
  calls : Nat
  settled : List (Nat × Settlement)
  received : List Byte

/-- `lua_bytebuffer_read`; the size is cut to 32 bits. -/
def bufferRead (mem : Memory) (b : ByteBuffer) (byteCount : Nat) :
    Option (Option (List Byte) × Memory × ByteBuffer) :=
  let size := byteCount % 2 ^ 32
  if b.head = none ∨ b.datasize < size then some (none, mem, b)
  else (bytebufferReadDrain mem b size).map fun (out, mem, b) => (some out, mem, b)

/-- `self.conn:ResumeRead()` if it is due, which is an error without `conn`. -/
def resumeRead (c : PromiseSocket) : Option PromiseSocket :=
  if c.needResume then
    if c.conn then some { c with needResume := false, reading := true } else none
  else some c

def process (c : PromiseSocket) (i : Nat) : Option (Bool × PromiseSocket) :=
  (bufferRead c.mem c.buff (c.byteCount i)).bind fun
    | (none, _, _) => some (false, c)
    | (some msg, mem, b) =>
      (resumeRead { c with mem := mem, buff := b }).map fun c =>
        (true, { c with settled := c.settled ++ [(i, .resolved msg)] })

def addPromise (c : PromiseSocket) (i : Nat) : Option PromiseSocket :=
  match c.promise with
  | none => some { c with promise := some i, promiseTail := some i }
  | some _ =>
    c.promiseTail.map fun tail =>
      { c with next := update c.next tail (some i), promiseTail := some i }

def recv (c : PromiseSocket) (byteCount : Nat) (timeout : Bool) : Option PromiseSocket :=
  let i := c.calls
  let c := { c with calls := i + 1, byteCount := update c.byteCount i byteCount }
  if c.conn then
    (process c i).bind fun
      | (true, c) => some c
      | (false, c) =>
        (addPromise c i).map fun c => { c with timer := update c.timer i timeout }
  else some { c with settled := c.settled ++ [(i, .rejected .invaildConnection)] }

def dropFirst (c : PromiseSocket) (p : Nat) : PromiseSocket :=
  { c with
    promise := c.next p
    promiseTail := if c.next p = none then none else c.promiseTail }

def serveLoop : Nat → PromiseSocket → Option PromiseSocket
  | 0, _ => none
  | fuel + 1, c =>
    match c.promise with
    | none => some c
    | some p =>
      (process c p).bind fun
        | (true, c) => serveLoop fuel (dropFirst c p)
        | (false, c) => some c

def highWater : Nat := 512 * 1024

def onData (junk : Nat → Nat → Byte) (c : PromiseSocket) (bytes : List Byte) :
    Option PromiseSocket :=
  (bytebufferAppend junk c.mem c.buff bytes).bind fun (_, mem, b) =>
    (serveLoop (c.calls + 1) { c with
      mem := mem, buff := b, received := c.received ++ bytes }).map fun c =>
        if c.buff.datasize > highWater then { c with reading := false, needResume := true } else c

def unlinkPromise (c : PromiseSocket) (pre : Option Nat) (cur : Nat) : PromiseSocket :=
  match pre with
  | none => dropFirst c cur
  | some pre =>
    { c with
      next := update c.next pre (c.next cur)
      promiseTail := if c.promiseTail = some cur then some pre else c.promiseTail }

def rejectTimeout (c : PromiseSocket) (cur : Nat) : PromiseSocket :=
  { c with
    next := update c.next cur none
    settled := c.settled ++ [(cur, .rejected .timeout)] }

/-- The loop of `onRecvTimeout`, at `cur` with `pre` before it. -/
def onRecvTimeout (c : PromiseSocket) (readPromise : Nat) :
    Nat → Option Nat → Option Nat → Option PromiseSocket
  | 0, _, _ => none
  | _ + 1, _, none => some c
  | fuel + 1, pre, some cur =>
    if cur = readPromise then some (rejectTimeout (unlinkPromise c pre cur) cur)
    else onRecvTimeout c readPromise fuel (some cur) (c.next cur)

def onTimer (c : PromiseSocket) (i : Nat) : Option PromiseSocket :=
  onRecvTimeout { c with timer := update c.timer i false } i (c.calls + 1) none c.promise

def closeLoop : Nat → PromiseSocket → Option PromiseSocket
  | 0, _ => none
  | fuel + 1, c =>
    match c.promise with
    | none => some { c with promiseTail := none }
    | some p =>
      closeLoop fuel { c with
        timer := update c.timer p false
        settled := c.settled ++ [(p, .rejected .disconnected)]
        promise := c.next p }

def recvAll : PromiseSocket → List (Nat × Bool) → Option PromiseSocket
  | c, [] => some c
  | c, (byteCount, timeout) :: reads =>
    (recv c byteCount timeout).bind fun c => recvAll c reads

/-- The close callback; `onClose` are the reads that the user's callback makes. -/
def closeCallback (c : PromiseSocket) (onClose : List (Nat × Bool)) : Option PromiseSocket :=
  (closeLoop (c.calls + 1) c).bind fun c => recvAll { c with released := true } onClose

inductive Event where
  | recv (byteCount : Nat) (timeout : Bool)
  | data (bytes : List Byte)
  | timeout (i : Nat)
  /-- `PromiseSocket:Close`; `atOnce` is whether the socket is released by it. -/
  | close (atOnce : Bool) (onClose : List (Nat × Bool))
  /-- The socket is released later. -/
  | release (onClose : List (Nat × Bool))

def closeSocket (c : PromiseSocket) (atOnce : Bool) (onClose : List (Nat × Bool)) :
    Option PromiseSocket :=
  if c.conn then
    if atOnce then (closeCallback c onClose).map fun c => { c with conn := false }
    else some { c with conn := false }
  else some c

/-- One event. Data comes while there is a connection that reads, a timer fires once,
and a socket is released once. -/
def step (junk : Nat → Nat → Byte) (c : PromiseSocket) : Event → Option PromiseSocket
  | .recv byteCount timeout => recv c byteCount timeout
  | .data bytes => if c.conn && c.reading then onData junk c bytes else some c
  | .timeout i => if c.timer i then onTimer c i else some c
  | .close atOnce onClose => closeSocket c atOnce onClose
  | .release onClose => if c.conn || c.released then some c else closeCallback c onClose

def newSocket (mem : Memory) (buff : ByteBuffer) : PromiseSocket where
  conn := true
  released := false
  reading := true
  needResume := false
  mem := mem
  buff := buff
  promise := none
  promiseTail := none
  next := fun _ => none
  byteCount := fun _ => 0
  timer := fun _ => false
  calls := 0
  settled := []
  received := []

end Chuck.PromiseSocketModel
