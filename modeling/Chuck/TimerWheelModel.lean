import Chuck.Support.Buckets
import Mathlib.Algebra.Group.Int.Defs
import Mathlib.Algebra.Group.Nat.Defs

/-!
# Source-shaped timing wheel

A direct, pure transcription of `chk_timer.c` in its default build: three
wheels of 1000, 3600 and 24 slots, `_reg`, `fire`, `chk_timer_tick`,
`chk_timer_register` and `chk_timer_unregister`. A timer is named by the
number of its registration; the free-timer pool, the user data and its
cleaner are represented by that name. What a user callback does is an input of
the run: the `calls`-th callback performs the operations and returns the value
that `script` lists at that position. Every callback entered, every slot `_reg`
selects and every expiry it stores is recorded in `trace`, newest first. A failed
assertion in `fire` and a slot behind the array of its wheel end the process: the
trace then has a `fault`, and nothing happens after it.
-/

namespace Chuck.TimerWheelModel

open Support Function

inductive WheelType where
  | sec
  | hour
  | day
  deriving DecidableEq, Repr

def wheelSize : WheelType → Nat
  | .sec => 1000
  | .hour => 3600
  | .day => 24

def maxTimeout : Nat := 1000 * 3600 * 24 - 1

def rewindingTime : Nat := 0xFFFFFFFFFFFFFFFF

def calExpire (tick ms : Nat) : Nat := (tick + ms) % 2 ^ 64

def incLasttick (tick : Nat) : Nat := (tick + 1) % 2 ^ 64

/-- The status bits `INCB` and `RELEASING` are the two Boolean fields. -/
structure Timer where
  id : Nat
  timeout : Nat
  expire : Nat
  incb : Bool
  releasing : Bool
  deriving DecidableEq, Repr

structure Wheel where
  cur : Int
  tlist : Nat → List Timer

structure TimerMgr where
  wheels : WheelType → Wheel
  ptrtick : Bool
  lasttick : Nat

inductive Event where
  /-- `chk_timer_register` was called at `lasttick` and clamped the period. -/
  | register (id lasttick now timeout : Nat)
  /-- An expiry was stored in a timer that is about to be placed. -/
  | arm (id expire : Nat)
  /-- `_reg` selected this slot for a timer. -/
  | place (wtype : WheelType) (slot : Nat)
  /-- The callback was entered at `tick`; the assertion has compared the last two fields. -/
  | callback (id tick expire : Nat)
  /-- The assertion failed for this timer, or its slot is not in the wheel. -/
  | fault (id : Nat)
  /-- The callback returned; `timeout` is the period for the next expiry. -/
  | rearm (id tick timeout : Nat) (ret : Int)
  | destroy (id : Nat)
  /-- `chk_timer_tick` was called with `now` on a started manager. -/
  | tick (lasttick now : Nat)
  deriving DecidableEq, Repr

inductive TimerOp where
  | register (ms now : Nat)
  | unregister (id : Nat)
  deriving DecidableEq, Repr

structure CallbackAct where
  ops : List TimerOp
  ret : Int

abbrev Script := Nat → CallbackAct

/-- `tlist` is the local list of `fire` and `current` the timer whose callback
is running; both are reachable for `chk_timer_unregister`. -/
structure World where
  mgr : TimerMgr
  tlist : List Timer
  current : Option Timer
  created : Nat
  calls : Nat
  trace : List Event

def wheelNew (wtype : WheelType) : Wheel where
  cur := if wtype = .sec then -1 else 0
  tlist := fun _ => []

def chkTimermgrInit : TimerMgr where
  wheels := wheelNew
  ptrtick := false
  lasttick := 0

def World.init : World where
  mgr := chkTimermgrInit
  tlist := []
  current := none
  created := 0
  calls := 0
  trace := []

def World.log (world : World) (event : Event) : World :=
  { world with trace := event :: world.trace }

def isFault : Event → Bool
  | .fault _ => true
  | _ => false

/-- The process has ended. -/
def World.crashed (world : World) : Bool := world.trace.any isFault

def World.setWheel (world : World) (wtype : WheelType) (wheel : Wheel) : World :=
  { world with mgr := { world.mgr with wheels := update world.mgr.wheels wtype wheel } }

def calRemain (now expire : Nat) : Nat :=
  if now > expire then ((rewindingTime - now) + expire) % 2 ^ 64 else expire - now

/-- The slot `_reg` selects: the 32-bit sum of cursor and distance, reduced once. -/
def regSlot (cur : Int) (remain wsize : Nat) : Nat :=
  let slot := ((cur + remain) % 2 ^ 32).toNat
  if slot ≥ wsize then slot - wsize else slot

def pushSlot (world : World) (timer : Timer) (wtype : WheelType) (remain : Nat) : World :=
  let wheel := world.mgr.wheels wtype
  let slot := regSlot wheel.cur remain (wheelSize wtype)
  if slot < wheelSize wtype then
    (world.setWheel wtype
      { wheel with tlist := update wheel.tlist slot (wheel.tlist slot ++ [timer]) }).log
      (.place wtype slot)
  else (world.log (.place wtype slot)).log (.fault timer.id)

/-- The `do … while(1)` of `_reg` over the wheels from the current one up; the
last one in the list is the day wheel, which always takes the timer. -/
def regLoop (world : World) (timer : Timer) : List WheelType → Nat → World
  | [], _ => world
  | wtype :: above, remain =>
    if above = [] ∨ wheelSize wtype ≥ remain then
      pushSlot world timer wtype remain
    else
      regLoop world timer above ((remain - 1) / wheelSize wtype)

def reg (world : World) (timer : Timer) (tick : Nat) : World :=
  regLoop world timer [.sec, .hour, .day] (calRemain tick timer.expire % 2 ^ 32)

def destroyTimer (world : World) (timer : Timer) : World :=
  world.log (.destroy timer.id)

def clampTimeout (ms : Nat) : Nat :=
  if ms > maxTimeout then maxTimeout else if ms > 0 then ms else 1

/-- `chk_timer_register` with a non-NULL callback and a timer from the pool. -/
def chkTimerRegister (world : World) (ms now : Nat) : World :=
  let timeout := clampTimeout ms
  let mgr := if world.mgr.ptrtick then world.mgr
    else { world.mgr with ptrtick := true, lasttick := now }
  let timer : Timer :=
    { id := world.created
      timeout := timeout
      expire := calExpire now timeout
      incb := false
      releasing := false }
  let world :=
    (({ world with mgr := mgr, created := world.created + 1 }.log
      (.register timer.id mgr.lasttick now timeout)).log (.arm timer.id timer.expire))
  reg world timer mgr.lasttick

def Wheel.timers (wheel : Wheel) (wtype : WheelType) : List Timer :=
  Buckets.items (wheelSize wtype) wheel.tlist

def TimerMgr.timers (mgr : TimerMgr) : List Timer :=
  (mgr.wheels .sec).timers .sec ++ (mgr.wheels .hour).timers .hour ++
    (mgr.wheels .day).timers .day

def Wheel.unlink (wheel : Wheel) (id : Nat) : Wheel :=
  { wheel with tlist := fun slot => (wheel.tlist slot).filter (·.id ≠ id) }

/-- `chk_timer_unregister` on the timer named `id`. The running timer is only
marked; a linked one is unlinked from whatever list holds it and destroyed. A
name that is neither running nor linked was destroyed before. -/
def chkTimerUnregister (world : World) (id : Nat) : World :=
  match world.current with
  | some timer =>
    if timer.id = id then
      { world with current := some { timer with releasing := true } }
    else unlinkTimer world id
  | none => unlinkTimer world id
where
  unlinkTimer (world : World) (id : Nat) : World :=
    if (world.tlist ++ world.mgr.timers).any (·.id = id) then
      ({ world with
        tlist := world.tlist.filter (·.id ≠ id)
        mgr := { world.mgr with wheels := fun wtype => (world.mgr.wheels wtype).unlink id } }).log
        (.destroy id)
    else world

def runOp (world : World) : TimerOp → World
  | .register ms now => chkTimerRegister world ms now
  | .unregister id => chkTimerUnregister world id

def runOps : World → List TimerOp → World
  | world, [] => world
  | world, op :: rest => if world.crashed then world else runOps (runOp world op) rest

/-- Lines before the call: `INCB` is set and the assertion is evaluated. -/
def enterCallback (tick : Nat) (world : World) (timer : Timer) : World :=
  let world := { world with current := some { timer with incb := true } }
  if tick = timer.expire then
    ({ world with calls := world.calls + 1 }).log (.callback timer.id tick timer.expire)
  else world.log (.fault timer.id)

def leaveCallback (tick : Nat) (ret : Int) (world : World) (timer : Timer) : World :=
  let timer := { timer with incb := !timer.incb }
  let world := { world with current := none }
  if ¬timer.releasing ∧ ret ≥ 0 then
    let timer := { timer with timeout := if ret > 0 then ret.toNat else timer.timeout }
    let timer := { timer with expire := calExpire tick timer.timeout }
    reg ((world.log (.rearm timer.id tick timer.timeout ret)).log
      (.arm timer.id timer.expire)) timer tick
  else destroyTimer world timer

def fireTimer (script : Script) (tick : Nat) (world : World) (timer : Timer) : World :=
  let act := script world.calls
  let world := runOps (enterCallback tick world timer) act.ops
  if world.crashed then world
  else
    match world.current with
    | none => world
    | some timer => leaveCallback tick act.ret world timer

/-- The `while` loop that empties the local list. Callbacks can only shorten
it, so its length at entry bounds the number of turns. -/
def fireLoop (script : Script) (tick : Nat) : Nat → World → World
  | 0, world => world
  | fuel + 1, world =>
    if world.crashed then world
    else
      match world.tlist with
      | [] => world
      | timer :: rest =>
        fireLoop script tick fuel (fireTimer script tick { world with tlist := rest } timer)

def advanceCur (cur : Int) (wsize : Nat) : Int :=
  if cur + 1 = wsize then 0 else cur + 1

/-- The cursor moves to its next slot, whose list is moved out of the wheel.
Moving an empty list changes nothing, so the test for it is left out. -/
def turnWheel (world : World) (wtype : WheelType) : World × List Timer :=
  let wheel := world.mgr.wheels wtype
  let cur := advanceCur wheel.cur (wheelSize wtype)
  (world.setWheel wtype { cur := cur, tlist := update wheel.tlist cur.toNat [] },
    wheel.tlist cur.toNat)

def cascade (tick : Nat) (world : World) (due : List Timer) : World :=
  due.foldl (fun world timer => if world.crashed then world else reg world timer tick) world

def fireWheel (script : Script) (wtype : WheelType) (tick : Nat) (world : World) : World :=
  let (world, due) := turnWheel world wtype
  if wtype = .sec then
    fireLoop script tick due.length { world with tlist := due }
  else
    cascade tick world due

def fire (script : Script) (tick : Nat) : List WheelType → World → World
  | [], world => world
  | wtype :: above, world =>
    let world := fireWheel script wtype tick world
    if world.crashed = false ∧ (world.mgr.wheels wtype).cur + 1 = wheelSize wtype then
      fire script tick above world
    else world

def tickLoop (script : Script) (now : Nat) : Nat → World → World
  | 0, world => world
  | fuel + 1, world =>
    if world.crashed ∨ world.mgr.lasttick = now then world
    else
      let lasttick := incLasttick world.mgr.lasttick
      tickLoop script now fuel
        (fire script lasttick [.sec, .hour, .day]
          { world with mgr := { world.mgr with lasttick := lasttick } })

/-- The loop needs as many turns as 64-bit increments separate the two ticks. -/
def chkTimerTick (script : Script) (world : World) (now : Nat) : World :=
  if world.mgr.ptrtick ∧ world.crashed = false then
    tickLoop script now ((now + 2 ^ 64 - world.mgr.lasttick) % 2 ^ 64)
      (world.log (.tick world.mgr.lasttick now))
  else world

inductive Step where
  | op (op : TimerOp)
  | tick (now : Nat)

def step (script : Script) (world : World) : Step → World
  | .op op => if world.crashed then world else runOp world op
  | .tick now => chkTimerTick script world now

def run (script : Script) (steps : List Step) : World :=
  steps.foldl (step script) World.init

end Chuck.TimerWheelModel
