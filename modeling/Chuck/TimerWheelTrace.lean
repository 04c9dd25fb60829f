import Chuck.TimerWheelPlacement
import Mathlib.Data.List.Basic

/-!
# The trace of a run and the operations made in it

Every function of the timing wheel only adds to the trace. Next to the trace
stand the operations of a run, in the order in which they are made: those of the
main program between two ticks and those a callback makes while it runs, each
with the state it is made in. The lists below follow the control flow of
`fire` and `chk_timer_tick` and change no state. What the loop over the callbacks of a tick
does comes down to three kinds of `Move`: an operation, and the beginning and the end of a
callback.
-/

namespace Chuck.TimerWheelTrace

open TimerWheelModel TimerWheelPlacement List

section Suffixes

theorem crashed_of_suffix {world after : World} (grown : world.trace <:+ after.trace)
    (crashed : world.crashed = true) : after.crashed = true := by
  obtain ⟨event, member, fault⟩ := any_eq_true.mp crashed
  exact any_eq_true.mpr ⟨event, grown.subset member, fault⟩

theorem intact_of_suffix {world after : World} (grown : world.trace <:+ after.trace)
    (intact : after.crashed = false) : world.crashed = false := by
  by_contra crashed
  rw [crashed_of_suffix grown (eq_true_of_ne_false crashed)] at intact
  cases intact

/-- A slot behind the array leaves the wheels as they are. -/
theorem reg_grows (world : World) (timer : Timer) (tick : Nat) :
    world.trace <:+ (reg world timer tick).trace ∧
      (reg world timer tick).current = world.current ∧
      (reg world timer tick).tlist = world.tlist := by
  rw [reg_eq]
  unfold pushSlot
  dsimp only
  split_ifs
  · exact ⟨suffix_cons _ _, rfl, rfl⟩
  · exact ⟨(suffix_cons _ _).trans (suffix_cons _ _), rfl, rfl⟩

theorem reg_suffix (world : World) (timer : Timer) (tick : Nat) :
    world.trace <:+ (reg world timer tick).trace := (reg_grows world timer tick).1

theorem register_suffix (world : World) (ms now : Nat) :
    world.trace <:+ (chkTimerRegister world ms now).trace := by
  refine List.IsSuffix.trans ?_ (reg_suffix _ _ _)
  exact (suffix_cons _ _).trans (suffix_cons _ _)

theorem unregister_suffix (world : World) (id : Nat) :
    world.trace <:+ (chkTimerUnregister world id).trace := by
  have unlinked : world.trace <:+ (chkTimerUnregister.unlinkTimer world id).trace := by
    unfold chkTimerUnregister.unlinkTimer
    split_ifs
    · exact suffix_cons _ _
    · exact suffix_rfl
  unfold chkTimerUnregister
  split
  · split_ifs
    · exact suffix_rfl
    · exact unlinked
  · exact unlinked

theorem run_op_suffix (world : World) (op : TimerOp) : world.trace <:+ (runOp world op).trace := by
  cases op with
  | register ms now => exact register_suffix world ms now
  | unregister id => exact unregister_suffix world id

def period (timer : Timer) (ret : Int) : Nat := if ret > 0 then ret.toNat else timer.timeout

def rearmed (tick : Nat) (ret : Int) (timer : Timer) : Timer :=
  { timer with
    incb := !timer.incb
    timeout := period timer ret
    expire := calExpire tick (period timer ret) }

variable {world : World} {timer : Timer}

theorem leave_again (tick : Nat) {ret : Int} (stays : ¬timer.releasing ∧ ret ≥ 0) :
    leaveCallback tick ret world timer =
      reg ((({ world with current := none } : World).log
        (.rearm timer.id tick (period timer ret) ret)).log
        (.arm timer.id (calExpire tick (period timer ret)))) (rearmed tick ret timer) tick := by
  rw [leaveCallback]
  exact if_pos stays

theorem leave_ended (tick : Nat) {ret : Int} (ends : ¬(¬timer.releasing ∧ ret ≥ 0)) :
    leaveCallback tick ret world timer =
      ({ world with current := none } : World).log (.destroy timer.id) := by
  rw [leaveCallback]
  exact if_neg ends

/-- The end of a callback touches neither the local list nor what the trace held. -/
theorem leave_frame (tick : Nat) (ret : Int) (world : World) (timer : Timer) :
    world.trace <:+ (leaveCallback tick ret world timer).trace ∧
      (leaveCallback tick ret world timer).current = none ∧
      (leaveCallback tick ret world timer).tlist = world.tlist := by
  by_cases stays : ¬timer.releasing ∧ ret ≥ 0
  · rw [leave_again tick stays]
    obtain ⟨grown, current, list⟩ := reg_grows ((({ world with current := none } : World).log
      (.rearm timer.id tick (period timer ret) ret)).log
      (.arm timer.id (calExpire tick (period timer ret)))) (rearmed tick ret timer) tick
    exact ⟨((suffix_cons _ _).trans (suffix_cons _ _)).trans grown, current, list⟩
  · rw [leave_ended tick stays]
    exact ⟨suffix_cons _ _, rfl, rfl⟩

theorem enter_grows (tick : Nat) (world : World) (timer : Timer) :
    world.trace <:+ (enterCallback tick world timer).trace ∧
      (enterCallback tick world timer).tlist = world.tlist := by
  unfold enterCallback
  dsimp only
  split_ifs <;> exact ⟨suffix_cons _ _, rfl⟩

end Suffixes

section Calls

abbrev Call := World × TimerOp

def opsCalls : World → List TimerOp → List Call
  | _, [] => []
  | world, op :: rest =>
    if world.crashed then [] else (world, op) :: opsCalls (runOp world op) rest

def fireTimerCalls (script : Script) (tick : Nat) (world : World) (timer : Timer) : List Call :=
  opsCalls (enterCallback tick world timer) (script world.calls).ops

def fireLoopCalls (script : Script) (tick : Nat) : Nat → World → List Call
  | 0, _ => []
  | fuel + 1, world =>
    if world.crashed then []
    else
      match world.tlist with
      | [] => []
      | timer :: rest =>
        fireTimerCalls script tick { world with tlist := rest } timer ++
          fireLoopCalls script tick fuel (fireTimer script tick { world with tlist := rest } timer)

/-- Only the second wheel runs callbacks. -/
def fireWheelCalls (script : Script) (wtype : WheelType) (tick : Nat) (world : World) : List Call :=
  let (world, due) := turnWheel world wtype
  if wtype = .sec then
    fireLoopCalls script tick due.length { world with tlist := due }
  else []

def fireCalls (script : Script) (tick : Nat) : List WheelType → World → List Call
  | [], _ => []
  | wtype :: above, world =>
    let fired := fireWheel script wtype tick world
    fireWheelCalls script wtype tick world ++
      if fired.crashed = false ∧ (fired.mgr.wheels wtype).cur + 1 = wheelSize wtype then
        fireCalls script tick above fired
      else []

def tickLoopCalls (script : Script) (now : Nat) : Nat → World → List Call
  | 0, _ => []
  | fuel + 1, world =>
    if world.crashed ∨ world.mgr.lasttick = now then []
    else
      let lasttick := incLasttick world.mgr.lasttick
      let begun := { world with mgr := { world.mgr with lasttick := lasttick } }
      fireCalls script lasttick [.sec, .hour, .day] begun ++
        tickLoopCalls script now fuel (fire script lasttick [.sec, .hour, .day] begun)

def tickCalls (script : Script) (world : World) (now : Nat) : List Call :=
  if world.mgr.ptrtick ∧ world.crashed = false then
    tickLoopCalls script now ((now + 2 ^ 64 - world.mgr.lasttick) % 2 ^ 64)
      (world.log (.tick world.mgr.lasttick now))
  else []

def stepCalls (script : Script) (world : World) : Step → List Call
  | .op op => if world.crashed then [] else [(world, op)]
  | .tick now => tickCalls script world now

def runCallsFrom (script : Script) : World → List Step → List Call
  | _, [] => []
  | world, move :: rest =>
    stepCalls script world move ++ runCallsFrom script (step script world move) rest

def runCalls (script : Script) (steps : List Step) : List Call :=
  runCallsFrom script World.init steps

end Calls

section Moves

/-- What happens while the local list of `fire` is worked off, with the operations made. -/
inductive Move (tick : Nat) : World → List Call → World → Prop
  | op (world : World) (op : TimerOp) : Move tick world [(world, op)] (runOp world op)
  | enter {world : World} {timer : Timer} {rest : List Timer}
      (taken : world.tlist = timer :: rest) (idle : world.current = none) :
      Move tick world [] (enterCallback tick { world with tlist := rest } timer)
  | leave {world : World} {timer : Timer} (ret : Int) (runs : world.current = some timer) :
      Move tick world [] (leaveCallback tick ret world timer)

inductive Moves (tick : Nat) : World → List Call → World → Prop
  | none (world : World) : Moves tick world [] world
  | next {world middle after : World} {calls more : List Call}
    (moves : Moves tick world calls middle)
      (move : Move tick middle more after) : Moves tick world (calls ++ more) after

variable {tick : Nat} {world middle after : World} {calls more : List Call}

theorem Move.moves (move : Move tick world calls after) : Moves tick world calls after :=
  (Moves.none world).next move

theorem Moves.trans (first : Moves tick world calls middle)
    (second : Moves tick middle more after) : Moves tick world (calls ++ more) after := by
  induction second with
  | none => rwa [append_nil]
  | next moves move ih =>
    rw [← append_assoc]
    exact ih.next move

theorem Move.suffix (move : Move tick world calls after) : world.trace <:+ after.trace := by
  cases move with
  | op op => exact run_op_suffix world op
  | @enter timer rest taken idle => exact (enter_grows tick { world with tlist := rest } timer).1
  | leave ret runs => exact (leave_frame tick ret world _).1

theorem Moves.suffix (moves : Moves tick world calls after) : world.trace <:+ after.trace := by
  induction moves with
  | none => exact suffix_rfl
  | next moves move ih => exact ih.trans move.suffix

/-- What every move keeps holds in the end, and in the state of every operation made. -/
theorem Moves.keeps {Holds : World → Prop} (moves : Moves tick world calls after)
    (start : Holds world)
    (step : ∀ before made next, Move tick before made next → made ⊆ calls →
      next.trace <:+ after.trace → Holds before → Holds next) :
    Holds after ∧ ∀ call ∈ calls, Holds call.1 := by
  induction moves with
  | none => exact ⟨start, nofun⟩
  | @next middle after calls more moves move ih =>
    obtain ⟨holds, made⟩ := ih fun before made next one among grown =>
      step before made next one (List.Subset.trans among (subset_append_left _ _))
        (grown.trans move.suffix)
    refine ⟨step middle more after move (subset_append_right _ _) suffix_rfl holds, ?_⟩
    intro call member
    rcases mem_append.mp member with earlier | last
    · exact made call earlier
    · cases move with
      | op op =>
        obtain rfl := mem_singleton.mp last
        exact holds
      | _ => nomatch last

theorem ops_moves (ops : List TimerOp) (world : World) :
    Moves tick world (opsCalls world ops) (runOps world ops) := by
  induction ops generalizing world with
  | nil => exact .none world
  | cons op rest ih =>
    rw [opsCalls, runOps]
    split_ifs
    · exact .none world
    · exact (Move.op world op).moves.trans (ih (runOp world op))

theorem Move.tlist (move : Move tick world calls after) :
    after.tlist.length ≤ world.tlist.length := by
  cases move with
  | op op =>
    cases op with
    | register ms now =>
      rw [runOp, chkTimerRegister]
      exact (congrArg length (reg_grows _ _ _).2.2).le
    | unregister id =>
      have unlinked : (chkTimerUnregister.unlinkTimer world id).tlist.length ≤
          world.tlist.length := by
        unfold chkTimerUnregister.unlinkTimer
        split_ifs
        · exact length_filter_le ..
        · exact le_rfl
      rw [runOp, chkTimerUnregister]
      split
      · split_ifs
        · exact le_rfl
        · exact unlinked
      · exact unlinked
  | enter taken idle =>
    rw [taken, (enter_grows tick _ _).2]
    exact Nat.le_succ _
  | leave ret runs => rw [(leave_frame tick ret world _).2.2]

theorem Moves.tlist (moves : Moves tick world calls after) :
    after.tlist.length ≤ world.tlist.length := by
  induction moves with
  | none => exact le_rfl
  | next moves move ih => exact move.tlist.trans ih

variable (script : Script) {timer : Timer} {rest : List Timer}

theorem fire_timer_moves (taken : world.tlist = timer :: rest) (idle : world.current = none) :
    Moves tick world (fireTimerCalls script tick { world with tlist := rest } timer)
        (fireTimer script tick { world with tlist := rest } timer) ∧
      ((fireTimer script tick { world with tlist := rest } timer).crashed = true ∨
        (fireTimer script tick { world with tlist := rest } timer).current = none) ∧
      (fireTimer script tick { world with tlist := rest } timer).tlist.length ≤ rest.length := by
  have ran := @ops_moves tick (script world.calls).ops
    (enterCallback tick { world with tlist := rest } timer)
  have called := (Move.enter taken idle).moves.trans ran
  have shorter := ran.tlist
  rw [(enter_grows tick _ timer).2] at shorter
  unfold fireTimer
  dsimp only
  split_ifs with crashed
  · exact ⟨called, .inl crashed, shorter⟩
  split
  · next ended => exact ⟨called, .inr ended, shorter⟩
  · next running current =>
    have left := called.next (.leave (script world.calls).ret current)
    obtain ⟨-, ended, list⟩ := leave_frame tick (script world.calls).ret (runOps
      (enterCallback tick { world with tlist := rest } timer) (script world.calls).ops) running
    rw [append_nil] at left
    exact ⟨left, .inr ended, list ▸ shorter⟩

theorem fire_loop_crashed (fuel : Nat) (crashed : world.crashed = true) :
    fireLoop script tick fuel world = world ∧ fireLoopCalls script tick fuel world = [] := by
  cases fuel with
  | zero => exact ⟨rfl, rfl⟩
  | succ fuel => exact ⟨if_pos crashed, if_pos crashed⟩

theorem fire_loop_moves (fuel : Nat) (idle : world.current = none) :
    Moves tick world (fireLoopCalls script tick fuel world) (fireLoop script tick fuel world) ∧
      ((fireLoop script tick fuel world).crashed = true ∨
        (fireLoop script tick fuel world).current = none ∧
          (world.tlist.length ≤ fuel → (fireLoop script tick fuel world).tlist = [])) := by
  induction fuel generalizing world with
  | zero =>
    exact ⟨.none world, .inr ⟨idle, fun enough => length_eq_zero_iff.mp (Nat.le_zero.mp enough)⟩⟩
  | succ fuel ih =>
    by_cases crashed : world.crashed = true
    · rw [(fire_loop_crashed script _ crashed).1, (fire_loop_crashed script _ crashed).2]
      exact ⟨.none world, .inl crashed⟩
    rw [fireLoop, fireLoopCalls, if_neg crashed, if_neg crashed]
    cases taken : world.tlist with
    | nil => exact ⟨.none world, .inr ⟨idle, fun _ => taken⟩⟩
    | cons timer rest =>
      obtain ⟨fired, stopped | ended, shorter⟩ := fire_timer_moves script taken idle
      · dsimp only
        rw [(fire_loop_crashed script _ stopped).1, (fire_loop_crashed script _ stopped).2,
          append_nil]
        exact ⟨fired, .inl stopped⟩
      · obtain ⟨looped, last⟩ := ih ended
        refine ⟨fired.trans looped, last.imp_right fun resting => ⟨resting.1, fun enough => ?_⟩⟩
        exact resting.2 (shorter.trans (Nat.le_of_succ_le_succ enough))

theorem fire_loop_written {allowed : TimerOp → Prop} {script : Script}
    (only : ∀ count, ∀ op ∈ (script count).ops, allowed op) (fuel : Nat) (world : World) :
    ∀ call ∈ fireLoopCalls script tick fuel world, allowed call.2 := by
  have written (ops : List TimerOp) (world : World) : ∀ call ∈ opsCalls world ops,
      call.2 ∈ ops := by
    induction ops generalizing world with
    | nil => exact nofun
    | cons op rest ih =>
      intro call member
      rw [opsCalls] at member
      split_ifs at member
      · cases member
      rcases mem_cons.mp member with rfl | tail
      · exact mem_cons_self ..
      · exact mem_cons_of_mem _ (ih _ call tail)
  induction fuel generalizing world with
  | zero => exact nofun
  | succ fuel ih =>
    intro call member
    rw [fireLoopCalls] at member
    split_ifs at member
    · cases member
    split at member
    · cases member
    · rcases mem_append.mp member with now | later
      · exact only _ _ (written _ _ call now)
      · exact ih _ call later

end Moves

end Chuck.TimerWheelTrace
