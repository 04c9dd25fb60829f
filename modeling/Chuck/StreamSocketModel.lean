import Mathlib.Data.List.Basic
import Mathlib.Tactic

/-!
# Source-shaped sending half and life of a stream socket

The functions of `chk_stream_socket.c` that send, shut down, close and release,
over the epoll handle they belong to. The bytes are of any type, since nothing
looks at them. A buffer's chunks are those of its chain from `head` on; nobody
else writes into them or cuts them while the buffer is queued.

The kernel is a parameter of every write: it takes any number of the bytes
offered, or answers `EAGAIN`, or fails. `epoll_ctl`, `shutdown` and the timer
never fail. A function returns `none` where the source would use a NULL pointer
or a socket that has been freed.
-/

namespace Chuck.StreamSocketModel

/-! ## Constants of `config.h` and `errno.h` -/

def maxWbaf : Nat := 1024

def maxSendSize : Nat := 1024 * 64

def sendBytesLowWater : Nat := 64 * 1024

/-- The most that one system call takes on Linux, `MAX_RW_COUNT`. -/
def maxCount : Nat := 2 ^ 31 - 4096

def eagain : Nat := 11

/-! ## Queued buffers -/

variable {Data : Type}

structure SendBuffer (Data : Type) where
  internal : Nat
  datasize : Nat
  spos : Nat
  chunks : List (List Data)
  readOnly : Bool

def SendBuffer.content (b : SendBuffer Data) : List Data :=
  (b.chunks.flatten.drop b.spos).take b.datasize

def advance : List (List Data) → Nat → Nat → Option (List (List Data) × Nat)
  | chunks, spos, 0 => some (chunks, spos)
  | [], _, _ + 1 => none
  | head :: next, spos, bytes + 1 =>
    let size := min (head.length - spos) (bytes + 1)
    if spos + size ≥ head.length then advance next 0 (bytes + 1 - size)
    else some (head :: next, spos + size)

def popSent : List (SendBuffer Data) → Nat → Option (List (SendBuffer Data))
  | list, 0 => some list
  | [], _ + 1 => none
  | b :: list, bytes + 1 =>
    if bytes + 1 ≥ b.datasize then popSent list (bytes + 1 - b.datasize)
    else
      (advance b.chunks b.spos (bytes + 1)).map fun (chunks, spos) =>
        { b with chunks := chunks, spos := spos, datasize := b.datasize - (bytes + 1) } :: list

def withinLimit (limit : Option Nat) (sendSize size : Nat) : Nat :=
  match limit with
  | some limit => min size (limit - sendSize)
  | none => size

/-- The loop over the chunks of a buffer in `prepare_send`: its iovecs. `room` is
what is left of `wsendbuf`. Only the loop over whole lists has a `limit`. -/
def gatherChunks (ssl : Bool) (limit : Option Nat) :
    Nat → List (List Data) → Nat → Nat → Nat → List (List Data)
  | 0, _, _, _, _ => []
  | _ + 1, [], _, _, _ => []
  | room + 1, chunk :: chunks, pos, datasize, sendSize =>
    if datasize = 0 then []
    else
      let size := withinLimit limit sendSize (min (chunk.length - pos) datasize)
      let iovec := (chunk.drop pos).take size
      if ssl then [iovec]
      else iovec :: gatherChunks ssl limit room chunks 0 (datasize - size) (sendSize + size)

def gatherBuffers (ssl : Bool) : Nat → List (SendBuffer Data) → Nat → List (List Data)
  | _, [], _ => []
  | room, b :: list, sendSize =>
    if room = 0 ∨ sendSize ≥ maxSendSize then []
    else
      let iovecs := gatherChunks ssl (some maxSendSize) room b.chunks b.spos b.datasize sendSize
      let sendSize := sendSize + iovecs.flatten.length
      if sendSize < maxSendSize then
        iovecs ++ gatherBuffers ssl (room - iovecs.length) list sendSize
      else iovecs

/-! ## Sockets -/

/-- The fields of `chk_stream_socket` and of its handle that are used below; of
`h->events` whether the read bits and the write bit are set. `errno` is the
thread's, `wire` everything the kernel has taken, and `released` tells that
`release_socket` has run. -/
structure StreamSocket (Data : Type) where
  sendList : List (SendBuffer Data)
  urgentList : List (SendBuffer Data)
  sendBytes : Nat
  highWaterMark : Nat
  sendingUrgent : Bool
  noDelay : Bool
  ssl : Bool
  handshake : Bool
  rclose : Bool
  wclose : Bool
  inloop : Bool
  closed : Bool
  loop : Bool
  readEnabled : Bool
  writeEnabled : Bool
  delayCloseTimer : Bool
  writeError : Nat
  errno : Nat
  wire : List Data
  released : Bool

def newSocket (noDelay ssl handshake : Bool) : StreamSocket Data where
  sendList := []
  urgentList := []
  sendBytes := 0
  highWaterMark := 64 * 1024 * 1024
  sendingUrgent := false
  noDelay := noDelay
  ssl := ssl
  handshake := handshake
  rclose := false
  wclose := false
  inloop := false
  closed := false
  loop := false
  readEnabled := false
  writeEnabled := false
  delayCloseTimer := false
  writeError := 0
  errno := 0
  wire := []
  released := false

def StreamSocket.list (s : StreamSocket Data) : Bool → List (SendBuffer Data)
  | true => s.urgentList
  | false => s.sendList

def StreamSocket.setList (s : StreamSocket Data) (urgent : Bool) (list : List (SendBuffer Data)) :
    StreamSocket Data :=
  if urgent then { s with urgentList := list } else { s with sendList := list }

def sendListEmpty (s : StreamSocket Data) : Prop := s.sendList = [] ∧ s.urgentList = []

instance (s : StreamSocket Data) : Decidable (sendListEmpty s) :=
  inferInstanceAs (Decidable (s.sendList = [] ∧ s.urgentList = []))

/-- A use of the socket, which must not have been freed. -/
def touch (s : StreamSocket Data) : Option (StreamSocket Data) :=
  if s.released then none else some s

/-! ### Events of the handle -/

def enableWrite (s : StreamSocket Data) : StreamSocket Data :=
  if s.loop then { s with writeEnabled := true } else s

def disableWrite (s : StreamSocket Data) : StreamSocket Data :=
  if s.loop then { s with writeEnabled := false } else s

def enableRead (s : StreamSocket Data) : StreamSocket Data :=
  if s.loop then { s with readEnabled := true } else s

def disableRead (s : StreamSocket Data) : StreamSocket Data :=
  if s.loop then { s with readEnabled := false } else s

def unwatchHandle (s : StreamSocket Data) : StreamSocket Data :=
  if s.loop then { s with loop := false, readEnabled := false, writeEnabled := false } else s

def loopAdd (s : StreamSocket Data) : StreamSocket Data :=
  if s.loop ∨ s.closed then s
  else { s with loop := true, readEnabled := true, writeEnabled := !decide (sendListEmpty s) }

def pauseRead (s : StreamSocket Data) : StreamSocket Data :=
  if s.loop ∧ s.readEnabled then disableRead s else s

def resumeRead (s : StreamSocket Data) : StreamSocket Data :=
  if s.loop ∧ s.readEnabled = false then enableRead s else s

/-! ### Writing -/

def halfSent (s : StreamSocket Data) : Prop := ∃ b ∈ s.sendList.head?, b.internal ≠ b.datasize

instance (s : StreamSocket Data) : Decidable (halfSent s) :=
  match h : s.sendList.head? with
  | some b => decidable_of_iff (b.internal ≠ b.datasize) (by simp [halfSent, h])
  | none => isFalse (by simp [halfSent, h])

/-- `prepare_send`: the iovecs, and `sending_urgent` set for `update_send_list`.
The way to finish a buffer sent in part leaves `sending_urgent` alone. -/
def prepareSend (s : StreamSocket Data) : StreamSocket Data × List (List Data) :=
  if s.urgentList ≠ [] ∧ halfSent s then
    (s, match s.sendList with
      | b :: _ => gatherChunks s.ssl none maxWbaf b.chunks b.spos b.datasize 0
      | [] => [])
  else if s.urgentList ≠ [] then
    ({ s with sendingUrgent := true }, gatherBuffers s.ssl maxWbaf s.urgentList 0)
  else ({ s with sendingUrgent := false }, gatherBuffers s.ssl maxWbaf s.sendList 0)

inductive WriteOutcome where
  | wrote (n : Nat)
  | again
  | failed (errno : Nat)

/-- What `do_write` hands to the kernel: SSL takes the first iovec only. -/
def offered (ssl : Bool) (iovecs : List (List Data)) : List Data :=
  if ssl then iovecs.headD [] else iovecs.flatten

def doWrite (ssl : Bool) (iovecs : List (List Data)) : WriteOutcome → List Data × Nat
  | .wrote n => ((offered ssl iovecs).take (min n maxCount), 0)
  | .again => ([], eagain)
  | .failed errno => ([], errno)

def updateSendList (s : StreamSocket Data) (bytes : Nat) : Option (StreamSocket Data) :=
  (popSent (s.list s.sendingUrgent) bytes).map (s.setList s.sendingUrgent)

def wroteSome (s : StreamSocket Data) : StreamSocket Data :=
  if sendListEmpty s then
    if s.rclose then { s with wclose := true }
    else if s.writeEnabled then disableWrite s else s
  else s

def writeFailed (s : StreamSocket Data) : StreamSocket Data :=
  let s := { s with wclose := true, writeError := s.errno }
  if s.rclose then s
  else if s.writeEnabled then disableWrite s else s

/-- `process_write` when `do_write` has returned. No byte taken without `EAGAIN`
is an error. -/
def settleWrite (s : StreamSocket Data) (taken : List Data) (errno : Nat) :
    Option (StreamSocket Data) :=
  let s := { s with errno := errno, wire := s.wire ++ taken }
  if taken.isEmpty then
    if errno ≠ eagain then some (writeFailed s) else some s
  else
    (updateSendList
      { s with sendBytes := (s.sendBytes + (2 ^ 32 - taken.length)) % 2 ^ 32 }
      taken.length).map wroteSome

def processWrite (s : StreamSocket Data) (outcome : WriteOutcome) : Option (StreamSocket Data) := do
  let s ← touch s
  let (s, iovecs) := prepareSend s
  if iovecs.isEmpty then some s
  else settleWrite s (doWrite s.ssl iovecs outcome).1 (doWrite s.ssl iovecs outcome).2

inductive SendError where
  | ok
  | bufferReadOnly
  | invaildBuffer
  | socketClose
  | streamWrite
  | highwaterMark
  deriving DecidableEq, Repr

def queue (s : StreamSocket Data) (urgent : Bool) (b : SendBuffer Data) : StreamSocket Data :=
  { s.setList urgent (s.list urgent ++ [{ b with internal := b.datasize }]) with
    sendBytes := (s.sendBytes + b.datasize) % 2 ^ 32 }

def writesNow (s : StreamSocket Data) (b : SendBuffer Data) : Bool :=
  s.loop && ((s.sendBytes + b.datasize) % 2 ^ 32 ≥ sendBytesLowWater ||
    (s.noDelay && s.sendBytes == 0))

def afterWrite (urgent : Bool) (s : StreamSocket Data) : SendError × StreamSocket Data :=
  if s.errno = eagain ∨ s.errno = 0 ∧ s.list urgent ≠ [] then
    (if s.sendBytes ≥ s.highWaterMark then .highwaterMark else .ok, enableWrite s)
  else (.streamWrite, s)

/-- `_chk_stream_socket_send`: `chk_stream_socket_send`, or with `urgent`
`chk_stream_socket_send_urgent`. -/
def send (s : StreamSocket Data) (urgent : Bool) (b : SendBuffer Data) (outcome : WriteOutcome) :
    Option (SendError × StreamSocket Data) :=
  if b.readOnly then some (.bufferReadOnly, s)
  else if b.datasize = 0 then some (.invaildBuffer, s)
  else do
    let s ← touch s
    if s.closed ∨ s.wclose then some (.socketClose, s)
    else if writesNow s b then (processWrite (queue s urgent b) outcome).map (afterWrite urgent)
    else if s.writeEnabled then some (.ok, queue s urgent b)
    else some (.ok, enableWrite (queue s urgent b))

/-! ### The end of a socket -/

def releaseSocket (s : StreamSocket Data) : Option (StreamSocket Data) := do
  let s ← touch s
  some { unwatchHandle s with
    delayCloseTimer := false, sendList := [], urgentList := [], released := true }

def delayCloseTimerCb (s : StreamSocket Data) : Option (StreamSocket Data) := do
  let s ← touch s
  releaseSocket { s with delayCloseTimer := false }

def shutdownWrite (s : StreamSocket Data) : Option (StreamSocket Data) := do
  let s ← touch s
  some { s with wclose := true }

def closeSocket (s : StreamSocket Data) (delay : Nat) : Option (StreamSocket Data) := do
  let s ← touch s
  if s.closed then some s
  else
    let s := { s with closed := true, rclose := true }
    if s.wclose = false ∧ delay > 0 ∧ ¬sendListEmpty s ∧ s.loop then
      some { disableRead s with delayCloseTimer := true }
    else
      let s := { s with wclose := true }
      if s.inloop then some s else releaseSocket s

end Chuck.StreamSocketModel
