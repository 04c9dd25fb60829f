import Chuck.RedisParserModel

/-!
# Source-shaped Redis client

`_chk_redis_execute`, `data_cb`, `timeout_cb`, `chk_redis_close` and
`destroy_redisclient` of `chk_client.c` over the parser of
`RedisParserModel`. The socket is reduced to whether it queued a command. What
a callback does is a function of everything logged before it; callbacks that
are told of a lost connection leave the client alone. A timer tick during a
callback finds `CLIENT_INCB` set and does nothing, so callbacks make none.

Commands are numbered in the order in which they were queued. The fields
`sent`, `parsed` and `log` record the run and are read by nobody.
-/

namespace Chuck.RedisClientModel

open RedisParserModel

def defaultTimeout : Nat := 10 * 1000

structure Pending where
  id : Nat
  deadline : Nat
  cb : Bool
  deriving DecidableEq, Repr

inductive Cause where
  | answered
  | expired
  | lost
  deriving DecidableEq, Repr

/-- A command leaves `waitreplys`: why, the reply for its callback, and whether
there is one. -/
structure Event where
  id : Nat
  cause : Cause
  reply : ReplyTree
  called : Bool

inductive Life where
  | alive
  | destroyed
  | crashed
  deriving DecidableEq, Repr

structure Client where
  close : Bool
  inCb : Bool
  tree : Option ParseTree
  waitreplys : List Pending
  timer : Bool
  timeoutCount : Int
  life : Life
  sent : Nat
  parsed : Nat
  log : List Event

def newClient : Client where
  close := false
  inCb := false
  tree := none
  waitreplys := []
  timer := false
  timeoutCount := 0
  life := .alive
  sent := 0
  parsed := 0
  log := []

def errorReply (text : String) : ReplyTree :=
  .mk .error 0 text.length (text.toList.map fun c => UInt8.ofNat c.toNat) 0 []

def connectionLose : ReplyTree := errorReply "client disconnected"

def executeTimeout : ReplyTree := errorReply "timeout"

/-- `_chk_redis_execute`: `accepted` is whether the socket queued the command. -/
def execute (c : Client) (cb accepted : Bool) (now : Nat) : Client :=
  if accepted then
    { c with
      waitreplys := c.waitreplys ++
        [{ id := c.sent, deadline := (now + defaultTimeout) % 2 ^ 64, cb := cb }]
      timer := true
      sent := c.sent + 1 }
  else c

def destroy (c : Client) : Client :=
  { c with
    tree := none
    waitreplys := []
    timer := false
    life := .destroyed
    log := c.log ++ c.waitreplys.map fun pending =>
      { id := pending.id, cause := .lost, reply := connectionLose, called := pending.cb } }

def redisClose (c : Client) : Client :=
  if c.close then c
  else if c.inCb then { c with close := true }
  else destroy { c with close := true }

inductive Act where
  | execute (cb accepted : Bool) (now : Nat)
  | close

def perform (c : Client) : Act → Client
  | .execute cb accepted now => execute c cb accepted now
  | .close => redisClose c

section Callbacks

variable (oracle : List Event → List Act)

def settle (c : Client) (event : Event) : Client :=
  let c := { c with log := c.log ++ [event] }
  if event.called then
    let c := (oracle c.log).foldl perform { c with inCb := true }
    { c with inCb := !c.inCb }
  else c

def timeoutLoop (now : Nat) : Nat → Client → Client
  | 0, c => c
  | fuel + 1, c =>
    match c.waitreplys with
    | [] => c
    | head :: rest =>
      if now ≥ head.deadline then
        let c := settle oracle
          { c with waitreplys := rest, timeoutCount := toInt32 (c.timeoutCount + 1) }
          { id := head.id, cause := .expired, reply := executeTimeout, called := head.cb }
        if head.cb ∧ c.close then destroy c else timeoutLoop now fuel c
      else c

/-- `timeout_cb`. The clock does not go back, so commands queued by callbacks
are not due yet, and the commands waiting at the start are enough fuel. -/
def timeoutCb (c : Client) (now : Nat) : Client :=
  if c.inCb then c else timeoutLoop oracle now c.waitreplys.length c

def takeReply (c : Client) (reply : ReplyTree) : Client :=
  let c := { c with parsed := c.parsed + 1 }
  if c.timeoutCount > 0 then { c with timeoutCount := c.timeoutCount - 1 }
  else
    match c.waitreplys with
    | [] => { c with life := .crashed }
    | head :: rest =>
      settle oracle { c with waitreplys := rest }
        { id := head.id, cause := .answered, reply := reply, called := head.cb }

variable (stack : Nat)

/-- The loop of `data_cb` over the bytes of one chunk. A parse error and a
close by a callback both leave the loop with `CLIENT_CLOSE` set. -/
def chunkLoop : Nat → Client → List Byte → Client
  | 0, c, _ => c
  | fuel + 1, c, input =>
    if input = [] then c
    else
      match parse stack (c.tree.getD parseTreeNew) input with
      | (.ok, tree, rest) =>
        let c := { takeReply oracle { c with tree := some tree } tree.reply with tree := none }
        if c.life = .alive ∧ c.close = false then chunkLoop fuel c rest else c
      | (.retry, tree, _) => { c with tree := some tree }
      | (.err, tree, _) => { c with tree := some tree, close := true }
      | (_, tree, _) => { c with tree := some tree, life := .crashed }

def chunksLoop : Client → List (List Byte) → Client
  | c, [] => c
  | c, chunk :: more =>
    let c := chunkLoop oracle stack chunk.length c chunk
    if c.life = .alive ∧ c.close = false then chunksLoop c more else c

def dataCb (c : Client) (data : Option (List (List Byte))) : Client :=
  let c := match data with
    | some chunks => chunksLoop oracle stack c chunks
    | none => { c with close := true }
  if c.life = .alive ∧ c.close then destroy c else c

inductive Input where
  | execute (cb accepted : Bool) (now : Nat)
  | data (chunks : List (List Byte))
  | disconnected
  | tick (now : Nat)
  | close

def clientStep (c : Client) (input : Input) : Client :=
  if c.life = .alive then
    match input with
    | .execute cb accepted now => execute c cb accepted now
    | .data chunks => dataCb oracle stack c (some chunks)
    | .disconnected => dataCb oracle stack c none
    | .tick now => if c.timer then timeoutCb oracle c now else c
    | .close => redisClose c
  else c

end Callbacks

end Chuck.RedisClientModel
