import Mathlib.Logic.Function.Basic
import Mathlib.Data.List.Nodup
import Mathlib.Tactic

/-!
# Source-shaped event loop

`_loop_run` of `chk_event_loop_epoll.h` and of `chk_event_loop_kqueue.h`. They
differ in what the kernel reports and in how a report becomes `active_evetns`;
the rest is the same text. Handles are of any type. The list of ready handles is
local to a run, and a handle only knows whether its `ready_entry` is linked.

The kernel is a list of answers to `epoll_wait` or `kevent`, and what a callback
does is a function of everything logged before it. Callbacks do not run the loop
they are called by, and closures and the idle function do not delete it: the
source would free the loop under `_loop_run`. A closure is a number that tells what it
does. `log` records the run and `posted` the closures that were posted; both are read by
nobody else.
-/

namespace Chuck.EventLoopModel

open Function

variable {Handle Events Report : Type}

/-! ## The loop and its handles -/

inductive Called (Handle Events : Type) where
  | onEvents (h : Handle) (events : Events)
  | tick
  | closure (c : Nat)
  | idle
  | loopClose (h : Handle)
  deriving DecidableEq, Repr

inductive Act (Handle : Type) where
  | watch (h : Handle)
  | unwatch (h : Handle)
  | postClosure (c : Nat)
  | delLoop

/-- The fields of `chk_event_loop` and of its handles that are used here: a handle
is in `handles` while its `loop` is set. -/
structure Loop (Handle Events : Type) where
  handles : List Handle
  linked : Handle → Bool
  active : Handle → Events
  inloop : Bool
  closing : Bool
  closures : List Nat
  maxevents : Nat
  log : List (Called Handle Events)
  posted : List Nat

def newLoop (none : Events) : Loop Handle Events where
  handles := []
  linked := fun _ => false
  active := fun _ => none
  inloop := false
  closing := false
  closures := []
  maxevents := 64
  log := []
  posted := []

section Handles

variable [DecidableEq Handle]

def watchHandle (e : Loop Handle Events) (h : Handle) : Loop Handle Events :=
  if h ∈ e.handles then e else { e with handles := e.handles ++ [h] }

/-- `chk_unwatch_handle`, which takes the handle off the ready list as well. -/
def unwatchHandle (e : Loop Handle Events) (ready : List Handle) (h : Handle) :
    Loop Handle Events × List Handle :=
  if h ∈ e.handles then
    ({ e with handles := e.handles.erase h, linked := update e.linked h false },
      ready.erase h)
  else (e, ready)

def perform (state : Loop Handle Events × List Handle) :
    Act Handle → Loop Handle Events × List Handle
  | .watch h => (watchHandle state.1 h, state.2)
  | .unwatch h => unwatchHandle state.1 state.2 h
  | .postClosure c =>
    ({ state.1 with
      closures := state.1.closures ++ [c], posted := state.1.posted ++ [c] }, state.2)
  | .delLoop => ({ state.1 with closing := state.1.closing || state.1.inloop }, state.2)

variable (behave : List (Called Handle Events) → List (Act Handle))

def call (e : Loop Handle Events) (ready : List Handle) (called : Called Handle Events) :
    Loop Handle Events × List Handle :=
  (behave (e.log ++ [called])).foldl perform ({ e with log := e.log ++ [called] }, ready)

/-! ## One batch -/

inductive Item (Handle Report : Type) where
  | notify
  | timer
  | handle (h : Handle) (report : Report)
  deriving DecidableEq

structure Batch (Handle Events : Type) where
  loop : Loop Handle Events
  ready : List Handle
  ticktimer : Bool

/-- `chk_dlist_pushback` of a `ready_entry`, which refuses one that is linked. -/
def pushback (e : Loop Handle Events) (ready : List Handle) (h : Handle) :
    Loop Handle Events × List Handle :=
  if e.linked h then (e, ready)
  else ({ e with linked := update e.linked h true }, ready ++ [h])

variable (mark : Report → Events)

def fill : List (Item Handle Report) → Batch Handle Events → Batch Handle Events × Bool
  | [], batch => (batch, false)
  | .notify :: _, batch => (batch, true)
  | .timer :: items, batch => fill items { batch with ticktimer := true }
  | .handle h report :: items, batch =>
    let e := { batch.loop with active := update batch.loop.active h (mark report) }
    fill items
      { batch with loop := (pushback e batch.ready h).1, ready := (pushback e batch.ready h).2 }

def dispatch : Nat → Loop Handle Events → List Handle → Loop Handle Events
  | 0, e, _ => e
  | _ + 1, e, [] => e
  | fuel + 1, e, h :: ready =>
    let popped := { e with linked := update e.linked h false }
    let after := call behave popped ready (.onEvents h (popped.active h))
    dispatch fuel after.1 after.2

def collect (items : List (Item Handle Report)) (e : Loop Handle Events) :
    Batch Handle Events × Bool :=
  fill mark items { loop := { e with inloop := true }, ready := [], ticktimer := false }

def handled (items : List (Item Handle Report)) (e : Loop Handle Events) : Loop Handle Events :=
  let (batch, stopped) := collect mark items e
  if stopped then batch.loop else dispatch behave batch.ready.length batch.loop batch.ready

def settle (ticktimer : Bool) (e : Loop Handle Events) : Loop Handle Events :=
  let e := if ticktimer then (call behave e [] .tick).1 else e
  { e with inloop := !e.inloop }

/-! ## A run -/

inductive LoopError where
  | ok
  | loopRun
  | noMemory
  deriving DecidableEq, Repr

/-- An answer of the kernel: no reports if it failed. `memory` is whether `realloc`
succeeds, `idle` whether the idle function is called. -/
structure Turn (Handle Report : Type) where
  reports : Option (List (Item Handle Report))
  memory : Bool
  idle : Bool

inductive Progress (Handle Events : Type) where
  | goesOn (e : Loop Handle Events)
  | returned (code : LoopError) (e : Loop Handle Events)

def Progress.loop : Progress Handle Events → Loop Handle Events
  | .goesOn e => e
  | .returned _ e => e

/-- `chk_loop_finalize`; callbacks that are told of the end leave the loop alone. -/
def finalize (e : Loop Handle Events) : Loop Handle Events :=
  { e with
    handles := []
    linked := fun h => if h ∈ e.handles then false else e.linked h
    log := e.log ++ e.handles.map .loopClose }

def loopend (code : LoopError) (e : Loop Handle Events) : Progress Handle Events :=
  .returned code (if e.closing then finalize e else e)

def runClosures : Nat → Loop Handle Events → Loop Handle Events
  | 0, e => e
  | fuel + 1, e =>
    match e.closures with
    | [] => e
    | c :: rest => runClosures fuel (call behave { e with closures := rest } [] (.closure c)).1

def finish (once idle : Bool) (e : Loop Handle Events) : Progress Handle Events :=
  let e := runClosures behave 1025 e
  let e := if idle then (call behave e [] .idle).1 else e
  if once then loopend .ok e else .goesOn e

def iteration (once : Bool) (turn : Turn Handle Report) (e : Loop Handle Events) :
    Progress Handle Events :=
  match turn.reports with
  | none => loopend .loopRun e
  | some [] => finish behave once turn.idle e
  | some items =>
    let (batch, stopped) := collect mark items e
    if stopped then loopend .ok batch.loop
    else
      let e := settle behave batch.ticktimer (handled behave mark items e)
      if e.closing then loopend .ok e
      else if items.length = e.maxevents then
        let e := { e with maxevents := e.maxevents * 4 }
        if turn.memory then finish behave once turn.idle e else loopend .noMemory e
      else finish behave once turn.idle e

def loopRun (once : Bool) : List (Turn Handle Report) → Loop Handle Events → Progress Handle Events
  | [], e => .goesOn e
  | turn :: turns, e =>
    match iteration behave mark once turn e with
    | .goesOn e => loopRun once turns e
    | .returned code e => .returned code e

def iterations (once : Bool) :
    List (Turn Handle Report) → Loop Handle Events → List (Loop Handle Events × Turn Handle Report)
  | [], _ => []
  | turn :: turns, e =>
    (e, turn) ::
      match iteration behave mark once turn e with
      | .goesOn e => iterations once turns e
      | .returned _ _ => []

end Handles

/-! ## The two kernels -/

structure Readiness where
  read : Bool
  write : Bool
  deriving DecidableEq, Repr

inductive Filter where
  | read
  | write
  deriving DecidableEq, Repr

/-- `active_evetns` as the kqueue loop sets it, from zero for each report. -/
def Filter.events : Filter → Readiness
  | .read => { read := true, write := false }
  | .write => { read := false, write := true }

variable [DecidableEq Handle]

/-- `_loop_run` over epoll: the reported events are taken as they are. -/
def epollLoopRun (behave : List (Called Handle Events) → List (Act Handle)) (once : Bool)
    (turns : List (Turn Handle Events)) (e : Loop Handle Events) : Progress Handle Events :=
  loopRun behave id once turns e

end Chuck.EventLoopModel
