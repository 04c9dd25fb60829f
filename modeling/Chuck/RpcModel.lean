import Chuck.Support.EntryList
import Mathlib.Logic.Function.Basic

/-!
# Source-shaped `rpc.lua`

The calling side: `M.RPCClient`, `rpcClient:Call`, the responses of `M.OnRPCMsg`, the
timers and `M.OnConnClose`. A connection, a client and a call with a callback are their
numbers. The sequence number is a Lua integer, which wraps around. The callback of a
call is user code and may do anything of this list again, so an event may come while
the loop of `M.OnConnClose` waits for a callback to return; `loops` are these loops,
the innermost first, with the keys they have not visited. The order of `pairs` is a
parameter.

Sends on a connection fail once it is lost. `log` notes the callbacks that were invoked
and the calls of `M.OnConnClose`.
-/

namespace Chuck.RpcModel

open Support.EntryList Function

abbrev Seq := BitVec 64

inductive Timer where
  | registered
  | unregistered
  /-- Nil, as the timer itself leaves it. -/
  | fired
  deriving DecidableEq, Repr

inductive Outcome (Reply : Type) where
  | response (conn : Nat) (seqno : Seq) (reply : Reply)
  | timeout
  | connectionLoss
  deriving DecidableEq, Repr

inductive Entry (Reply : Type) where
  | closed (conn : Nat)
  | invoked (call : Nat) (outcome : Outcome Reply)
  deriving DecidableEq, Repr

structure Rpc (Reply : Type) where
  /-- `M.seq`. -/
  seq : Seq
  /-- `M.clients`. -/
  clients : Nat → Option Nat
  /-- Number of clients made. -/
  made : Nat
  conn : Nat → Nat
  callbacks : Nat → List (Seq × Nat)
  /-- Number of calls with a callback that were sent. -/
  calls : Nat
  /-- Client and sequence number of a call. -/
  origin : Nat → Nat × Seq
  timer : Nat → Timer
  lost : Nat → Bool
  loops : List (Nat × List Seq)
  log : List (Entry Reply)

variable {Reply : Type}

def newRpc : Rpc Reply where
  seq := 1
  clients := fun _ => none
  made := 0
  conn := fun _ => 0
  callbacks := fun _ => []
  calls := 0
  origin := fun _ => (0, 0)
  timer := fun _ => .unregistered
  lost := fun _ => false
  loops := []
  log := []

def setCallbacks (s : Rpc Reply) (client : Nat) (table : List (Seq × Nat)) : Rpc Reply :=
  { s with callbacks := update s.callbacks client table }

/-- `cb_info.timer:UnRegister()`, an error on nil. -/
def unRegister (s : Rpc Reply) (call : Nat) : Option (Rpc Reply) :=
  if s.timer call = .fired then none
  else some { s with timer := update s.timer call .unregistered }

def invoke (s : Rpc Reply) (call : Nat) (outcome : Outcome Reply) : Rpc Reply :=
  { s with log := s.log ++ [.invoked call outcome] }

def rpcClient (s : Rpc Reply) (conn : Nat) : Rpc Reply :=
  match s.clients conn with
  | some _ => s
  | none =>
    { s with
      clients := update s.clients conn (some s.made)
      made := s.made + 1
      conn := update s.conn s.made conn
      callbacks := update s.callbacks s.made [] }

/-- `rpcClient:Call` with a method; `sent` is whether the connection takes the request. -/
def call (s : Rpc Reply) (client : Nat) (callback sent : Bool) : Rpc Reply :=
  let seqno := if callback then s.seq else 0
  let s := { s with seq := s.seq + 1 }
  if sent && !s.lost (s.conn client) then
    if callback then
      setCallbacks { s with
        calls := s.calls + 1
        origin := update s.origin s.calls (client, seqno)
        timer := update s.timer s.calls .registered }
        client (store (s.callbacks client) seqno s.calls)
    else s
  else s

def onRPCMsg (s : Rpc Reply) (conn : Nat) (seqno : Seq) (reply : Reply) : Option (Rpc Reply) :=
  match s.clients conn with
  | none => some s
  | some client =>
    match (s.callbacks client).lookup seqno with
    | none => some s
    | some call =>
      (unRegister (setCallbacks s client (remove (s.callbacks client) seqno)) call).map fun s =>
        invoke s call (.response conn seqno reply)

def onTimer (s : Rpc Reply) (call : Nat) : Rpc Reply :=
  let (client, seqno) := s.origin call
  invoke (setCallbacks { s with timer := update s.timer call .fired } client
    (remove (s.callbacks client) seqno)) call .timeout

def onConnClose (pairs : List Seq → List Seq) (s : Rpc Reply) (conn : Nat) : Rpc Reply :=
  let s := { s with lost := update s.lost conn true, log := s.log ++ [.closed conn] }
  match s.clients conn with
  | none => s
  | some client =>
    { s with
      clients := update s.clients conn none
      loops := (client, pairs (keys (s.callbacks client))) :: s.loops }

/-- The innermost loop goes on; an entry that was removed meanwhile is not visited. -/
def closeNext (s : Rpc Reply) : Option (Rpc Reply) :=
  match s.loops with
  | [] => some s
  | (_, []) :: outer => some { s with loops := outer }
  | (client, seqno :: rest) :: outer =>
    let s := { s with loops := (client, rest) :: outer }
    match (s.callbacks client).lookup seqno with
    | none => some s
    | some call => (unRegister s call).map fun s => invoke s call .connectionLoss

inductive Event (Reply : Type) where
  | client (conn : Nat)
  | call (client : Nat) (callback sent : Bool)
  | response (conn : Nat) (seqno : Seq) (reply : Reply)
  | timeout (call : Nat)
  | close (conn : Nat)
  | next

def step (pairs : List Seq → List Seq) (s : Rpc Reply) : Event Reply → Option (Rpc Reply)
  | .client conn => some (rpcClient s conn)
  | .call client callback sent =>
    if client < s.made then some (call s client callback sent) else some s
  | .response conn seqno reply => onRPCMsg s conn seqno reply
  | .timeout call => if s.timer call = .registered then some (onTimer s call) else some s
  | .close conn => some (onConnClose pairs s conn)
  | .next => closeNext s

end Chuck.RpcModel
