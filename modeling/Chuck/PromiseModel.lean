import Chuck.Support.FaultFreeRuns
import Mathlib.Logic.Function.Basic

/-!
# Source-shaped `Promise`

`Promise.lua`: a promise is its number in the order of creation. `resolve` and `reject`
only post a closure that calls `fire`, so a closure is what it passes to `fire`, and the
event loop runs the closures in the order they were posted. Of a handler it only
matters whether it is there: what a handler of the program does is up to the program,
and is a sequence of events between the start of the handler and its end. Nothing else
is fired meanwhile, as `fire` is called by closures only.

`kind`, `got` and `ran` of a promise, `called` of a closure, `calls` of the world and
`size` and `parts` of a group are read by nobody else.
-/

namespace Chuck.PromiseModel

open Function

inductive Outcome where
  | resolved
  | rejected
  deriving DecidableEq, Repr

/-- A Lua value: a promise, a table of results of `M.all`, the text of a promise that
is resolved with itself, or something else. -/
inductive Val (V : Type) where
  | nil
  | plain (v : V)
  | typeError
  | results (group : Nat)
  | promise (p : Nat)
  deriving DecidableEq, Repr

inductive Handler where
  | user
  | synchronizer (group i : Nat) (outcome : Outcome)
  | racer (d : Nat) (outcome : Outcome)
  deriving DecidableEq, Repr

inductive Result (V : Type) where
  | returned (value : Val V)
  | raised (err : Val V)
  deriving DecidableEq, Repr

inductive Kind where
  | made
  | derived (source : Nat)
  | combined
  deriving DecidableEq, Repr

variable {V : Type}

def Val.isPromise : Val V → Bool
  | .promise _ => true
  | _ => false

def Result.value : Result V → Val V
  | .returned value => value
  | .raised err => err

/-- A promise; no state is `PENDING`. `got` is what it was fired with, if not with a
promise, and `ran` how its handlers ended. -/
structure Promise (V : Type) where
  state : Option Outcome
  value : Val V
  queue : List Nat
  parent : Option Nat
  success : Option Handler
  failure : Option Handler
  isFinal : Bool
  kind : Kind
  got : Option (Outcome × Val V)
  ran : List (Result V)

/-- A closure calls `fire(target,outcome,value)`; `called` tells whether the program
posted it, by a function that `M.new` gave it. -/
structure Closure (V : Type) where
  target : Nat
  outcome : Outcome
  value : Val V
  called : Bool
  deriving DecidableEq, Repr

/-- The variables shared by the handlers of `M.all`. `size` is the number of arguments
and `parts` are the promises that it derived. -/
structure AllGroup (V : Type) where
  d : Nat
  pending : Int
  results : Nat → Option (Outcome × Val V)
  size : Nat
  parts : List Nat

/-- `busy` is the promise whose handler runs, and the state it was fired with. -/
structure World (V : Type) where
  promises : Nat → Promise V
  count : Nat
  groups : Nat → AllGroup V
  groupCount : Nat
  closures : List (Closure V)
  busy : Option (Nat × Outcome)
  calls : Nat → List (Outcome × Val V)

/-! ## Parts of the functions -/

def modify (w : World V) (p : Nat) (f : Promise V → Promise V) : World V :=
  { w with promises := update w.promises p (f (w.promises p)) }

def newPromise (kind : Kind) (success failure : Option Handler) : Promise V where
  state := none
  value := .nil
  queue := []
  parent := none
  success := success
  failure := failure
  isFinal := false
  kind := kind
  got := none
  ran := []

def create (w : World V) (promise : Promise V) : World V :=
  { w with promises := update w.promises w.count promise, count := w.count + 1 }

def tell (w : World V) (target : Nat) (outcome : Outcome) (value : Val V) : World V :=
  { w with closures := w.closures ++
      [{ target := target, outcome := outcome, value := value, called := false }] }

def enqueue (w : World V) (p next : Nat) : World V :=
  modify w p fun promise => { promise with queue := promise.queue ++ [next] }

/-- Whether those that wait for a promise are told by `reject`. -/
def Promise.handsOn (promise : Promise V) : Outcome :=
  if promise.state = some .rejected ∧ promise.failure = none then .rejected else .resolved

def Promise.handler (promise : Promise V) : Outcome → Option Handler
  | .resolved => promise.success
  | .rejected => promise.failure

def behind (w : World V) (p : Nat) : Nat :=
  match (w.promises p).value with
  | .promise q => q
  | _ => p

/-! ## `fire` -/

def pendingValue (w : World V) : Val V → Option Nat
  | .promise q => if (w.promises q).state = none then some q else none
  | _ => none

def mergeParent (w : World V) (p : Nat) : World V :=
  match (w.promises p).parent with
  | none => w
  | some parent =>
    modify
      (modify w p fun promise =>
        { promise with queue := (w.promises parent).queue ++ promise.queue })
      parent fun promise => { promise with queue := [] }

def dispatch (w : World V) (p : Nat) : World V :=
  let parent := w.promises (behind w p)
  { w with closures := w.closures ++ (w.promises p).queue.map fun target =>
      { target := target, outcome := parent.handsOn, value := parent.value, called := false } }

def settle (w : World V) (p : Nat) (state : Outcome) (value : Val V) : World V :=
  let w := modify w p fun promise => { promise with state := some state, value := value }
  match pendingValue w value with
  | some q => modify w q fun promise => { promise with parent := some p }
  | none => dispatch (mergeParent w p) p

/-- What `synchronizer(i,resolved)` does before it returns its argument. -/
def synchronize (w : World V) (g i : Nat) (outcome : Outcome) (value : Val V) : World V :=
  let group := w.groups g
  let results := update group.results i (some (outcome, value))
  let group := { group with results := results, pending := group.pending - 1 }
  let w := { w with groups := update w.groups g group }
  if group.pending = 0 then tell w group.d outcome (.results g) else w

def noteRan (w : World V) (p : Nat) (result : Result V) : World V :=
  modify w p fun promise => { promise with ran := promise.ran ++ [result] }

def handle (w : World V) (p : Nat) (outcome : Outcome) (value : Val V) : Option Handler → World V
  | none => settle w p outcome value
  | some .user => { w with busy := some (p, outcome) }
  | some (.synchronizer g i how) =>
    settle (noteRan (synchronize w g i how value) p (.returned value)) p outcome value
  | some (.racer d how) =>
    settle (noteRan (tell w d how value) p (.returned .nil)) p outcome .nil

def fire (w : World V) (c : Closure V) : World V :=
  if (w.promises c.target).state = none then
    match c.value with
    | .promise q =>
      if q = c.target then settle w c.target .rejected .typeError
      else
        match (w.promises q).state with
        | none =>
          enqueue (modify w c.target fun promise => { promise with value := .promise q })
            q c.target
        | some state => settle w c.target state (w.promises q).value
    | value =>
      handle (modify w c.target fun promise =>
          { promise with value := value, got := some (c.outcome, value) })
        c.target c.outcome value ((w.promises c.target).handler c.outcome)
  else w

def finish (w : World V) (p : Nat) (outcome : Outcome) (result : Result V) : World V :=
  let w := noteRan { w with busy := none } p result
  match result with
  | .returned value => settle w p outcome value
  | .raised err => settle w p .rejected err

/-! ## What a program can do -/

/-- `andThen`, which fails after `final`. The promise it returns is the newest one. -/
def andThen (w : World V) (self : Nat) (success failure : Option Handler) : World V :=
  if (w.promises self).isFinal then w
  else
    let next := w.count
    let w := create w (newPromise (.derived self) success failure)
    let p := behind w self
    match (w.promises p).state with
    | none => enqueue w p next
    | some _ => tell w next (w.promises p).handsOn (w.promises p).value

def final (w : World V) (self : Nat) (handler : Option Handler) : World V :=
  if (w.promises self).isFinal then w
  else modify (andThen w self handler handler) w.count fun promise =>
    { promise with isFinal := true }

/-- The loop of `M.all`; it ends early where `andThen` fails. -/
def attachAll (g : Nat) : World V → Nat → List Nat → World V
  | w, _, [] => w
  | w, i, arg :: args =>
    if (w.promises arg).isFinal then w
    else
      let group := { w.groups g with parts := (w.groups g).parts ++ [w.count] }
      let w := { w with groups := update w.groups g group }
      attachAll g (andThen w arg (some (.synchronizer g i .resolved))
        (some (.synchronizer g i .rejected))) (i + 1) args

def all (w : World V) (args : List Nat) : World V :=
  let g := w.groupCount
  let d := w.count
  let w := create w (newPromise .combined none none)
  let w := { w with
    groupCount := g + 1
    groups := update w.groups g
      { d := d, pending := args.length, results := fun _ => none, size := args.length,
        parts := [] } }
  if args.length = 0 then tell w d .resolved (.results g) else attachAll g w 0 args

def attachRace (d : Nat) : World V → List Nat → World V
  | w, [] => w
  | w, arg :: args =>
    if (w.promises arg).isFinal then w
    else
      attachRace d (andThen w arg (some (.racer d .resolved)) (some (.racer d .rejected))) args

def race (w : World V) (args : List Nat) : World V :=
  attachRace w.count (create w (newPromise .combined none none)) args

inductive Act (V : Type) where
  /-- `M.new`; what its function does follows, and the `reject` if it fails. -/
  | new
  /-- A call of a function that `M.new` passed for promise `p`. -/
  | call (p : Nat) (outcome : Outcome) (value : Val V)
  | andThen (p : Nat) (success failure : Bool)
  | final (p : Nat) (handler : Bool)
  | all (args : List Nat)
  | race (args : List Nat)

def userHandler (given : Bool) : Option Handler :=
  if given then some .user else none

def known (w : World V) : Val V → Bool
  | .promise p => p < w.count
  | _ => true

def possible (w : World V) : Act V → Bool
  | .new => true
  | .call p _ value => p < w.count && (w.promises p).kind = .made && known w value
  | .andThen p _ _ => p < w.count
  | .final p _ => p < w.count
  | .all args => args.all (· < w.count)
  | .race args => args.all (· < w.count)

def perform (w : World V) : Act V → World V
  | .new => create w (newPromise .made none none)
  | .call p outcome value =>
    { w with
      closures := w.closures ++
        [{ target := p, outcome := outcome, value := value, called := true }]
      calls := update w.calls p (w.calls p ++ [(outcome, value)]) }
  | .andThen p success failure => andThen w p (userHandler success) (userHandler failure)
  | .final p handler => final w p (userHandler handler)
  | .all args => all w args
  | .race args => race w args

inductive Event (V : Type) where
  | act (act : Act V)
  /-- The event loop runs a closure. -/
  | drain
  /-- The handler that runs ends. -/
  | finish (result : Result V)

def step (w : World V) : Event V → Option (World V)
  | .act act => if possible w act then some (perform w act) else none
  | .drain =>
    match w.busy, w.closures with
    | none, c :: rest => some (fire { w with closures := rest } c)
    | _, _ => none
  | .finish result =>
    match w.busy with
    | some (p, outcome) => if known w result.value then some (finish w p outcome result) else none
    | none => none

def start : World V where
  promises := fun _ => newPromise .combined none none
  count := 0
  groups := fun _ => { d := 0, pending := 0, results := fun _ => none, size := 0, parts := [] }
  groupCount := 0
  closures := []
  busy := none
  calls := fun _ => []

end Chuck.PromiseModel
