import Chuck.FifoModel

/-!
# Source-shaped coroutine queues

The queues of `ccoroutine.lua` over the scheduler of `coroutine.h`. Any number of
queues and coroutines; a queue and a coroutine are their number. What a coroutine does
between two calls is not modelled: an event is the next call of whoever runs.
`coroutine.sche` is a call of the main thread only.

The main thread runs while `running` is nothing. A `resume` of the main thread runs
`sche_loop`, so the coroutines run inside it; only in the loop of `queue:close` is
there more to do for the main thread afterwards, and `closing` is the queue of that
loop. `waiting` is the call of `pop`, by queue and number, that a coroutine is in.
`calls`, `pushed` and `returned` note for every queue the number of `pop` calls, the
accepted messages and what the calls returned.
-/

namespace Chuck.CoroutineQueueModel

open FifoModel Function

inductive Slot where
  | messageQueue (q : Nat)
  | waits (q : Nat)
  deriving DecidableEq

inductive Value (Msg : Type) where
  | message (msg : Msg)
  | coroutine (co : Nat)

structure System (Msg : Type) where
  fifos : Fifos Slot (Value Msg)
  closed : Nat → Bool
  /-- Number of coroutines made. -/
  count : Nat
  finished : Nat → Bool
  running : Option Nat
  /-- The ready list, with the argument of the resume. -/
  ready : List (Nat × Option Msg)
  waiting : Nat → Option (Nat × Nat)
  closing : Option Nat
  calls : Nat → Nat
  pushed : Nat → List Msg
  returned : Nat → List (Nat × Option Msg)

variable {Msg : Type}

def newSystem : System Msg where
  fifos := Fifos.empty
  closed := fun _ => false
  count := 0
  finished := fun _ => false
  running := none
  ready := []
  waiting := fun _ => none
  closing := none
  calls := fun _ => 0
  pushed := fun _ => []
  returned := fun _ => []

/-! ## The scheduler -/

def popReturns (s : System Msg) (q call : Nat) (msg : Option Msg) : System Msg :=
  { s with returned := update s.returned q (s.returned q ++ [(call, msg)]) }

/-- `coroutine_resume` hands control to `co`: if it was in `pop`, that call returns. -/
def enter (s : System Msg) (co : Nat) (arg : Option Msg) : System Msg :=
  let s := { s with running := some co }
  match s.waiting co with
  | some (q, call) =>
    popReturns { s with waiting := update s.waiting co none } q call arg
  | none => s

/-- `sche_loop` up to the next coroutine that runs; a finished one cannot be resumed. -/
def scheLoop (s : System Msg) : List (Nat × Option Msg) → System Msg
  | [] => { s with ready := [], running := none }
  | (co, arg) :: rest =>
    if s.finished co then scheLoop s rest else enter { s with ready := rest } co arg

def yield (s : System Msg) : System Msg := scheLoop s s.ready

def linked (s : System Msg) (co : Nat) : Bool := co ∈ s.ready.map Prod.fst

def pushReady (s : System Msg) (co : Nat) (arg : Option Msg) : Option (System Msg) :=
  if linked s co then none else some { s with ready := s.ready ++ [(co, arg)] }

def coroutineResume (s : System Msg) (co : Nat) (arg : Option Msg) : Option (System Msg) :=
  if s.running = some co then none
  else
    (if linked s co then some s else pushReady s co arg).map fun s =>
      if s.running = none then scheLoop s s.ready else s

/-! ## The queues -/

def queuePush (s : System Msg) (q : Nat) (msg : Msg) : Option (System Msg) :=
  if s.closed q then some s
  else
    let s : System Msg := { s with pushed := update s.pushed q (s.pushed q ++ [msg]) }
    if fifoEmpty s.fifos (.messageQueue q) && !fifoEmpty s.fifos (.waits q) then
      match fifoPop s.fifos (.waits q) with
      | (some (.coroutine head), fifos) => coroutineResume { s with fifos := fifos } head (some msg)
      | _ => none
    else some { s with fifos := fifoPush s.fifos (.messageQueue q) (.message msg) }

def queuePop (s : System Msg) (q current : Nat) : Option (System Msg) :=
  let call := s.calls q
  let s : System Msg := { s with calls := update s.calls q (call + 1) }
  match fifoPop s.fifos (.messageQueue q) with
  | (some (.message msg), fifos) => some (popReturns { s with fifos := fifos } q call (some msg))
  | (some (.coroutine _), _) => none
  | (none, fifos) =>
    let s := { s with fifos := fifos }
    if s.closed q then some (popReturns s q call none)
    else
      some (yield { s with
        fifos := fifoPush s.fifos (.waits q) (.coroutine current)
        waiting := update s.waiting current (some (q, call)) })

def closeRound (s : System Msg) (q : Nat) : Option (Bool × System Msg) :=
  match fifoPop s.fifos (.waits q) with
  | (none, _) => some (false, s)
  | (some (.coroutine co), fifos) =>
    (coroutineResume { s with fifos := fifos } co none).map fun s => (true, s)
  | (some (.message _), _) => none

/-- The loop of `queue:close` in a coroutine: every round takes an item. -/
def closeLoop (q : Nat) : Nat → System Msg → Option (System Msg)
  | 0, _ => none
  | fuel + 1, s =>
    (closeRound s q).bind fun
      | (true, s) => closeLoop q fuel s
      | (false, s) => some s

/-- The loop of `queue:close` in the main thread, up to the next resume. -/
def closeMain (s : System Msg) (q : Nat) : Option (System Msg) :=
  (closeRound s q).map fun
    | (true, s) => s
    | (false, s) => { s with closing := none }

def queueClose (s : System Msg) (q : Nat) : Option (System Msg) :=
  if s.closed q then some s
  else
    let s := { s with closed := update s.closed q true }
    if fifoEmpty s.fifos (.messageQueue q) then
      if s.running = none then closeMain { s with closing := some q } q
      else closeLoop q (s.fifos.made + 1) s
    else some s

/-! ## Runs -/

inductive Event (Msg : Type) where
  | push (q : Nat) (msg : Msg)
  | pop (q : Nat)
  | close (q : Nat)
  /-- `coroutine.new`. -/
  | create
  /-- `coroutine.resume` by the program itself. -/
  | resume (co : Nat)
  /-- `coroutine.sche` by the main thread. -/
  | sche
  /-- `coroutine.yield` by the program itself. -/
  | park
  /-- `coroutine.yield_a_while`. -/
  | pause
  /-- The function of the running coroutine returns or raises an error. -/
  | finish

def coroutineStep (s : System Msg) (current : Nat) : Event Msg → Option (System Msg)
  | .push q msg => queuePush s q msg
  | .pop q => queuePop s q current
  | .close q => queueClose s q
  | .create => (pushReady s s.count none).map fun s => { s with count := s.count + 1 }
  | .resume co => if co = current ∨ s.count ≤ co then some s else coroutineResume s co none
  | .sche => some s
  | .park => some (yield s)
  | .pause => (pushReady s current none).map yield
  | .finish => some (yield { s with finished := update s.finished current true })

/-- The next call of the main thread; `pop` and `yield` are errors there. -/
def mainStep (s : System Msg) : Event Msg → Option (System Msg)
  | .push q msg => queuePush s q msg
  | .close q => queueClose s q
  | .create => (pushReady s s.count none).map fun s => { s with count := s.count + 1 }
  | .resume co => if s.count ≤ co then some s else coroutineResume s co none
  | .sche => some (scheLoop s s.ready)
  | _ => some s

def step (s : System Msg) (event : Event Msg) : Option (System Msg) :=
  match s.running with
  | some current => coroutineStep s current event
  | none =>
    match s.closing with
    | some q => closeMain s q
    | none => mainStep s event

end Chuck.CoroutineQueueModel
