import Chuck.TimerWheelWay

/-!
# A single timer among others, and the clock that wraps

What the timers around it do, in their callbacks too, does not move a timer that no callback
unregisters, as long as none of them ends the process. Its way through the wheels is the same
when the 64-bit clock wraps, but for the tick at which it ends: where that is not the expiry,
the assertion of `fire` fails.
-/

namespace Chuck.TimerWheelWrap

open TimerWheelModel TimerWheelPlacement TimerWheelTrace TimerWheelView TimerWheelWay List

/-- The ticks at which the callback of a timer was entered, the last one first. -/
def callbacks (id : Nat) (trace : List Event) : List Nat :=
  trace.filterMap fun
    | .callback named tick _ => if named = id then some tick else none
    | _ => none

def ticks (script : Script) : Nat → World → World
  | 0, world => world
  | n + 1, world =>
    let world := ticks script n world
    chkTimerTick script world (incLasttick world.mgr.lasttick)

/-- The callback is entered first in the `n`-th tick from now, and once, with `tick`. -/
def FiresAfter (script : Script) (id n tick : Nat) (world : World) : Prop :=
  (∀ k < n, callbacks id (ticks script k world).trace = callbacks id world.trace) ∧
    callbacks id (ticks script n world).trace = tick :: callbacks id world.trace

/-! ## Callbacks around a timer -/

theorem callbacks_story (id : Nat) (trace : List Event) :
    callbacks id (story id trace) = callbacks id trace := by
  rw [callbacks, callbacks, story, filterMap_filter]
  congr 1
  funext event
  cases event <;> simp [subject]

/-- A timer other than this one has ended the process. -/
def Disturbed (id : Nat) (trace : List Event) : Prop := ∃ other ≠ id, .fault other ∈ trace

theorem crashed_disturbed {id : Nat} {world : World} (crashed : world.crashed = true)
    (calm : .fault id ∉ world.trace) : Disturbed id world.trace := by
  obtain ⟨event, member, fault⟩ := any_eq_true.mp crashed
  cases event with
  | fault other => exact ⟨other, fun same => calm (same ▸ member), member⟩
  | _ => cases fault

theorem intact_calm {id : Nat} {world : World} (intact : world.crashed = false) :
    .fault id ∉ world.trace :=
  fun member => any_eq_false.mp intact _ member rfl

theorem Disturbed.grow {id : Nat} {older newer : List Event} (disturbed : Disturbed id older)
    (grown : older <:+ newer) : Disturbed id newer := by
  obtain ⟨other, apart, member⟩ := disturbed
  exact ⟨other, apart, grown.subset member⟩

section Kept

variable {id tick : Nat} {world after : World} {calls : List Call} {v : View}
  (kept : ∀ call ∈ calls, call.2 ≠ .unregister id)

/-- What the callbacks of a timer are after it was taken from the local list. -/
def taken (tick : Nat) (timer : Timer) (before : List Nat) : List Nat :=
  if timer.expire = tick then tick :: before else before

include kept

/-- A move that does not unregister the timer is not about it, or is the beginning or the end
of its callback. -/
theorem move_kept (move : Move tick world calls after) (started : world.mgr.ptrtick = true)
    (named : id < world.created) :
    view id after = view id world ∨
      (∃ timer rest, (view id world).pending = timer :: rest ∧
        (view id after).pending = rest ∧ (view id after).named ∧ (view id after).started = true ∧
        callbacks id (view id after).story = taken tick timer (callbacks id (view id world).story) ∧
        (timer.expire ≠ tick → (view id after).faulted)) ∨
      (view id world).own ≠ [] ∧ (view id after).pending = (view id world).pending ∧
        (view id after).named ∧ (view id after).started = true ∧
        callbacks id (view id after).story = callbacks id (view id world).story := by
  cases move with
  | op op =>
    cases op with
    | register ms now => exact .inl (register_other started named.ne ms now)
    | unregister other =>
      refine .inl (unregister_other fun same => ?_)
      exact kept _ (mem_singleton_self _) (congrArg _ same)
  | @enter timer rest list idle =>
    by_cases own : timer.id = id
    · subst own
      refine .inr (.inl ⟨timer, mine timer.id rest, ?_, ?_⟩)
      · rw [view, list]
        simp [mine]
      · by_cases due : timer.expire = tick
        · rw [enter_own due, taken, if_pos due]
          refine ⟨rfl, named, started, ?_, fun early => absurd due early⟩
          simp [callbacks, view]
        · rw [enter_fault due, taken, if_neg due]
          exact ⟨rfl, named, started, rfl, fun _ => trivial⟩
    · exact .inl (enter_other list idle own tick)
  | @leave timer ret runs =>
    by_cases own : timer.id = id
    · subst own
      refine .inr (.inr ⟨?_, ?_⟩)
      · rw [view, runs]
        exact (mine_own rfl).trans_ne (cons_ne_nil _ _)
      · by_cases stays : ¬timer.releasing ∧ ret ≥ 0
        · rw [leave_own tick stays]
          exact ⟨rfl, named, started, rfl⟩
        · rw [leave_gone tick stays]
          exact ⟨rfl, named, started, rfl⟩
    · exact .inl (leave_other runs own tick ret)

variable (moves : Moves tick world calls after) (sees : view id world = v)
  (started : v.started = true)
  (named : v.named) (idle : v.own = [])

include moves sees started named idle

theorem moves_apart (nothing : v.pending = []) : view id after = v := by
  refine (@Moves.keeps tick world after calls (fun world => view id world = v) moves sees ?_).1
  rintro before made next move among - rfl
  rcases move_kept (fun call member => kept call (among member)) move started named with
    same | ⟨timer, rest, due, -⟩ | ⟨own, -⟩
  · exact same
  · exact absurd (due.symm.trans nothing) (cons_ne_nil _ _)
  · exact absurd idle own

/-- A timer in the local list is taken from it before the list is empty. -/
theorem moves_due {timer : Timer} (due : v.pending = [timer]) :
    view id after = v ∨ callbacks id after.trace = taken tick timer (callbacks id world.trace) ∧
      (timer.expire ≠ tick → after.crashed = true) := by
  have held := (@Moves.keeps tick world after calls (fun world => view id world = v ∨
    (view id world).pending = [] ∧ (view id world).named ∧ (view id world).started = true ∧
      callbacks id (view id world).story = taken tick timer (callbacks id v.story) ∧
      (timer.expire ≠ tick → (view id world).faulted)) moves (.inl sees) ?_).1
  · refine held.imp_right fun ⟨_, _, _, called, fault⟩ => ⟨?_, fun early => ?_⟩
    · rw [← sees] at called
      rw [← callbacks_story, ← callbacks_story id world.trace]
      exact called
    · exact any_eq_true.mpr ⟨_, fault early, rfl⟩
  · rintro before made next move among - (rfl | ⟨nothing, old, begun, called, fault⟩)
    · rcases move_kept (fun call member => kept call (among member)) move started named with
        same | ⟨first, rest, list, left, still, going, told, fault⟩ | ⟨own, -⟩
      · exact .inl same
      · obtain ⟨rfl, rfl⟩ := List.cons.inj (list.symm.trans due)
        exact .inr ⟨left, still, going, told, fault⟩
      · exact absurd idle own
    · have stays : timer.expire ≠ tick → (view id next).faulted :=
        fun early => move.suffix.subset (fault early)
      rcases move_kept (fun call member => kept call (among member)) move begun old with
        same | ⟨first, rest, list, -⟩ | ⟨-, left, still, going, told⟩
      · rw [same] at stays ⊢
        exact .inr ⟨nothing, old, begun, called, stays⟩
      · exact absurd (list.symm.trans nothing) (cons_ne_nil _ _)
      · exact .inr ⟨left.trans nothing, still, going, told.trans called, stays⟩

end Kept

/-! ## Ticks -/

/-- A timer that ends at tick `final` is on its way at tick `i`. -/
structure Tracked (last n e final : Nat) (timer : Timer) (i : Nat) (turns : WheelType → Nat)
    (world : World) : Prop where
  clock : Clock (e + i) turns (frame world).1
  tick : world.mgr.lasttick = (last + i) % 2 ^ 64
  started : world.mgr.ptrtick = true
  named : timer.id < world.created
  intact : world.crashed = false
  idle : world.current = none
  sits : Sits last n e final timer i turns (view timer.id world)

def tickOnce (script : Script) (world : World) : World :=
  chkTimerTick script world (incLasttick world.mgr.lasttick)

theorem tick_once (script : Script) {world : World} (started : world.mgr.ptrtick = true)
    (intact : world.crashed = false) (small : world.mgr.lasttick < 2 ^ 64) :
    tickOnce script world = fireTick script
      (world.log (.tick world.mgr.lasttick (incLasttick world.mgr.lasttick))) := by
  have once : (incLasttick world.mgr.lasttick + 2 ^ 64 - world.mgr.lasttick) % 2 ^ 64 = 1 := by
    simp only [incLasttick]
    omega
  have other : world.mgr.lasttick ≠ incLasttick world.mgr.lasttick := by
    simp only [incLasttick]
    omega
  have going :
      ¬((world.log (.tick world.mgr.lasttick (incLasttick world.mgr.lasttick))).crashed = true ∨
      world.mgr.lasttick = incLasttick world.mgr.lasttick) := by
    refine not_or.mpr ⟨?_, other⟩
    simpa [World.crashed, World.log, isFault] using intact
  rw [tickOnce, chkTimerTick, if_pos ⟨started, intact⟩, once, tickLoop, if_neg (by exact going)]
  rfl

theorem ticks_grow (script : Script) {world : World} (idle : Idle world) {k n : Nat} (le : k ≤ n) :
    Idle (ticks script n world) ∧ (ticks script k world).trace <:+
      (ticks script n world).trace := by
  have stays (k : Nat) : Idle (ticks script k world) := by
    induction k with
    | zero => exact idle
    | succ k ih => exact (tick_idle script _ ih).1
  induction n, le using Nat.le_induction with
  | base => exact ⟨stays k, suffix_rfl⟩
  | succ n _ ih => exact ⟨stays (n + 1), ih.2.trans (tick_idle script _ ih.1).2⟩

theorem ticks_crashed (script : Script) {world : World} {k n : Nat} (le : k ≤ n)
    (crashed : (ticks script k world).crashed = true) :
    ticks script n world = ticks script k world := by
  induction n, le using Nat.le_induction with
  | base => rfl
  | succ n _ ih =>
    rw [← ih] at crashed
    exact (tick_crashed script _ crashed).trans ih

section Way

variable {last n e final i : Nat} {timer : Timer} {turns : WheelType → Nat} {world : World}
  {script : Script} (kept : ∀ m, .unregister timer.id ∉ (script m).ops)

include kept

theorem loop_kept (tick fuel : Nat) (world : World) :
    ∀ call ∈ fireLoopCalls script tick fuel world, call.2 ≠ .unregister timer.id :=
  @fire_loop_written tick (· ≠ .unregister timer.id) script
    (fun m _ member same => kept m (same ▸ member)) fuel world

section Ticking

variable (started : world.mgr.ptrtick = true) (named : timer.id < world.created)
  (intact : world.crashed = false) (idle : world.current = none)
  (small : world.mgr.lasttick < 2 ^ 64) (apart : (view timer.id world).own = [])

include started named intact idle small apart

theorem tick_silent (nothing : (view timer.id world).tick.pending = []) :
    callbacks timer.id (tickOnce script world).trace = callbacks timer.id world.trace := by
  set begun := world.log (.tick world.mgr.lasttick (incLasttick world.mgr.lasttick))
  obtain ⟨looped, moves, -, shape⟩ := fire_tick_moves script (show begun.current = none from idle)
  have sees : view timer.id (beginTick begun) = (view timer.id world).tick := by
    rw [begin_view, log_other (by simp [about, subject])]
  rw [fire_tick_calls] at moves
  have same := moves_apart (loop_kept kept _ _ _) moves sees started named apart nothing
  rw [tick_once script started intact small, shape, ← callbacks_story,
    (upper_quiet script _ _).1.story, ← callbacks_story timer.id world.trace]
  exact congrArg (callbacks timer.id) (congrArg View.story same)

/-- The tick at which the way of a timer ends. -/
theorem tick_due (due : (view timer.id world).tick.pending = [timer]) :
    (Disturbed timer.id (tickOnce script world).trace ∧
        callbacks timer.id (tickOnce script world).trace = callbacks timer.id world.trace) ∨
      callbacks timer.id (tickOnce script world).trace =
          taken (incLasttick world.mgr.lasttick) timer (callbacks timer.id world.trace) ∧
        (timer.expire ≠ incLasttick world.mgr.lasttick →
          (tickOnce script world).crashed = true) := by
  set begun := world.log (.tick world.mgr.lasttick (incLasttick world.mgr.lasttick)) with begunEq
  obtain ⟨looped, moves, ended, shape⟩ :=
    fire_tick_moves script (show begun.current = none from idle)
  have sees : view timer.id (beginTick begun) = (view timer.id world).tick := by
    rw [begin_view, log_other (by simp [about, subject])]
  have suffix := upper_suffix script (incLasttick begun.mgr.lasttick) looped
  have quiet := (upper_quiet script (incLasttick begun.mgr.lasttick) looped).1.story timer.id
  have stays : callbacks timer.id (tickOnce script world).trace =
      callbacks timer.id looped.trace := by
    rw [tick_once script started intact small, shape, ← callbacks_story, quiet, callbacks_story]
  have once := tick_once script started intact small
  rw [stays, once, shape]
  rw [fire_tick_calls] at moves
  rcases moves_due (loop_kept kept _ _ _) moves sees started named apart due
    with same | ⟨called, fault⟩
  · -- the timer is still in the local list: another one has ended the process
    have pending : (view timer.id looped).pending = [timer] := same ▸ due
    have crashed : looped.crashed = true := by
      refine ended.resolve_right fun resting => cons_ne_nil timer [] ?_
      exact pending.symm.trans (congrArg (mine timer.id) resting.2)
    have calm : ¬(view timer.id looped).faulted := same ▸ intact_calm intact
    refine .inl ⟨(crashed_disturbed crashed calm).grow suffix, ?_⟩
    rw [← callbacks_story, ← callbacks_story timer.id world.trace]
    exact congrArg (callbacks timer.id) (congrArg View.story same)
  · exact .inr ⟨called, fun early => crashed_of_suffix suffix (fault early)⟩

end Ticking

variable (near : Near last n i) (expires : timer.expire = calExpire last n)

include near expires

/-- What is left of a tick after the second wheel has turned. -/
theorem finish_tracked (tracked : Tracked last n e final timer i turns world)
    (behind : 1000 * turns .hour < e + i) (fuel : Nat)
    (calm : ¬Disturbed timer.id (finishTick script ((last + i) % 2 ^ 64) fuel world).trace) :
    ∃ now, Settled (e + i) now ∧
      Tracked last n e final timer i now (finishTick script ((last + i) % 2 ^ 64) fuel world) := by
  obtain ⟨clock, tick, started, named, intact, idle, sits⟩ := tracked
  obtain ⟨moves, ended⟩ := @fire_loop_moves ((last + i) % 2 ^ 64) world script fuel idle
  have same := moves_apart (loop_kept kept _ _ _) moves rfl started named sits.own sits.pending
  set looped := fireLoop script ((last + i) % 2 ^ 64) fuel world
  have cursors : (frame looped).1 = (frame world).1 := congrArg View.cursors same
  have own : ¬(view timer.id looped).faulted := same ▸ intact_calm intact
  obtain ⟨now, settled, after, quiet, held⟩ := @upper_turns
    (fun turns world => ¬(view timer.id world).faulted ∧
      (world.crashed = false → Sits last n e final timer i turns (view timer.id world)))
        _ _ _ script
    ((last + i) % 2 ^ 64) (cursors ▸ clock) behind ⟨own, fun _ => same ▸ sits⟩
    fun turns world wtype upper intact clock falls after held =>
      (held.2 intact).turned script upper clock after falls near expires held.1
  have whole : (finishTick script ((last + i) % 2 ^ 64) fuel world).crashed = false := by
    by_contra crashed
    exact calm (crashed_disturbed (eq_true_of_ne_false crashed) quiet)
  have before := intact_of_suffix (upper_suffix script ((last + i) % 2 ^ 64) looped) whole
  obtain ⟨-, others⟩ := upper_quiet script ((last + i) % 2 ^ 64) looped
  refine ⟨now, settled whole, after, ?_, ?_, ?_, whole, ?_, held whole⟩
  · exact (congrArg Prod.fst others).trans ((congrArg View.lasttick same).trans tick)
  · exact (congrArg (·.2.1) others).trans ((congrArg View.started same).trans started)
  · have created : (finishTick script ((last + i) % 2 ^ 64) fuel world).created = looped.created :=
      congrArg (·.2.2.2.2) others
    rw [created]
    exact (congrArg View.named same).mpr named
  · exact (congrArg (·.2.2.2.1) others).trans (ended.resolve_left (by simp [before])).1

theorem tick_tracked (tracked : Tracked last n e final timer i turns world)
    (settled : Settled (e + i) turns) (later : i + 1 ≠ final)
    (calm : ¬Disturbed timer.id (tickOnce script world).trace) :
    callbacks timer.id (tickOnce script world).trace = callbacks timer.id world.trace ∧
      ∃ now, Settled (e + (i + 1)) now ∧
        Tracked last n e final timer (i + 1) now (tickOnce script world) := by
  obtain ⟨clock, tick, started, named, intact, idle, sits⟩ := tracked
  have small : world.mgr.lasttick < 2 ^ 64 := by
    rw [tick]
    exact Nat.mod_lt _ (by omega)
  have waits := sits.waits clock.sec later
  refine ⟨tick_silent kept started named intact idle small sits.own waits.pending, ?_⟩
  set begun := world.log (.tick world.mgr.lasttick (incLasttick world.mgr.lasttick))
  have now : incLasttick world.mgr.lasttick = (last + (i + 1)) % 2 ^ 64 := by
    rw [tick, incLasttick]
    omega
  obtain ⟨next, behind⟩ := begin_clock clock settled
  have sees : view timer.id (beginTick begun) = (view timer.id world).tick := by
    rw [begin_view, log_other (by simp [about, subject])]
  have there : Tracked last n e final timer (i + 1) turns (beginTick begun) :=
    ⟨next, now, started, named, intact, idle, sees ▸ waits⟩
  have shape : tickOnce script world = finishTick script ((last + (i + 1)) % 2 ^ 64)
      (beginTick begun).tlist.length (beginTick begun) := by
    rw [tick_once script started intact small, ← now]
    rfl
  rw [shape] at calm ⊢
  exact finish_tracked kept (near.later (Nat.le_succ i)) expires there behind _ calm

omit near

variable (fresh : Near last n 0)

include fresh

/-- The timer is not called before the tick at which its way ends. -/
theorem tracked_way (tracked : Tracked last n e final timer 0 turns world)
    (settled : Settled e turns) {k : Nat} (early : k < final)
    (calm : ¬Disturbed timer.id (ticks script k world).trace) :
    callbacks timer.id (ticks script k world).trace = callbacks timer.id world.trace ∧
      ∃ now, Settled (e + k) now ∧ Tracked last n e final timer k now (ticks script k world) := by
  induction k with
  | zero => exact ⟨rfl, turns, settled, tracked⟩
  | succ k ih =>
    have grown := (ticks_grow script (.inr tracked.idle) (Nat.le_succ k)).2
    obtain ⟨quiet, now, all, there⟩ :=
      ih (Nat.lt_of_succ_lt early) fun before => calm (before.grow grown)
    obtain ⟨silent, next⟩ :=
      tick_tracked kept (fresh.later (Nat.zero_le k)) expires there all early.ne calm
    exact ⟨silent.trans quiet, next⟩

/-- At that tick it is called if it is its expiry, and ends the process otherwise. -/
theorem tracked_ends (tracked : Tracked last n e final timer 0 turns world)
    (settled : Settled e turns) (calm : ¬Disturbed timer.id (ticks script final world).trace) :
    callbacks timer.id (ticks script final world).trace =
        taken ((last + final) % 2 ^ 64) timer (callbacks timer.id world.trace) ∧
      (timer.expire ≠ (last + final) % 2 ^ 64 → (ticks script final world).crashed = true) := by
  obtain ⟨k, rfl⟩ : ∃ k, final = k + 1 :=
    Nat.exists_eq_succ_of_ne_zero (Nat.zero_lt_of_lt (tracked.sits.ahead tracked.clock)).ne'
  have grown := (ticks_grow script (.inr tracked.idle) (Nat.le_succ k)).2
  obtain ⟨quiet, now, all, there⟩ := tracked_way kept expires fresh tracked settled
    (Nat.lt_succ_self k) fun before => calm (before.grow grown)
  have tick : incLasttick (ticks script k world).mgr.lasttick = (last + (k + 1)) % 2 ^ 64 := by
    rw [there.tick, incLasttick]
    omega
  have small : (ticks script k world).mgr.lasttick < 2 ^ 64 := by
    rw [there.tick]
    exact Nat.mod_lt _ (by omega)
  have ends := tick_due kept there.started there.named there.intact there.idle small there.sits.own
    (there.sits.due there.clock.sec all rfl).1
  rw [tick, quiet] at ends
  exact ends.resolve_left fun disturbed => calm disturbed.1

/-! ## Registered at a tick -/

/-- The tick at which a timer registered now ends. One that is to wait for a single tick
when the clock wraps comes into the slot that has just been visited. -/
def endsAfter (last n e : Nat) : Nat :=
  if remainAfter last n 0 = 0 then 1000 else target last n e 0

omit kept fresh expires in
theorem ends_after_iff (some_ : 0 < n) : endsAfter last n e = n ↔ Fine last n e 0 := by
  by_cases none_ : remainAfter last n 0 = 0
  · rw [endsAfter, if_pos none_]
    unfold remainAfter at none_
    unfold Fine
    split_ifs at none_ <;> omega
  · rw [endsAfter, if_neg none_, target]
    split_ifs with fine
    · exact iff_of_true rfl fine
    · exact iff_of_false (by omega) fine

omit kept expires in
theorem now_rests {cursors : WheelType → Int} (clock : Clock e turns cursors)
    (later : 0 < e ∨ 0 < remainAfter last n 0) :
    Rests last n e turns 0 (endsAfter last n e) (regWheel (remainAfter last n 0)).1
      (regSlot (cursors (regWheel (remainAfter last n 0)).1) (regWheel (remainAfter last n 0)).2
        (wheelSize (regWheel (remainAfter last n 0)).1)) := by
  by_cases none_ : remainAfter last n 0 = 0
  · have started : 0 < e := later.resolve_right (by omega)
    rw [endsAfter, if_pos none_, none_]
    simp only [regWheel, if_pos (Nat.zero_le 1000), clock.sec, wheelSize]
    refine ⟨by omega, by omega, ?_⟩
    unfold regSlot secCursor
    dsimp only
    split_ifs <;> omega
  · rw [endsAfter, if_neg none_]
    exact reg_rests clock fresh (Nat.pos_of_ne_zero none_)

omit kept in
theorem remain_now : calRemain last timer.expire % 2 ^ 32 = remainAfter last n 0 := by
  rw [← cal_remain_after fresh (Nat.zero_le n), Nat.add_zero, Nat.mod_eq_of_lt fresh.small, expires]

omit kept in
theorem reg_tracked (clock : Clock e turns (frame world).1) (tick : world.mgr.lasttick = last)
    (started : world.mgr.ptrtick = true) (named : timer.id < world.created)
    (intact : world.crashed = false) (idle : world.current = none)
    (pending : (view timer.id world).pending = [])
    (empty : (view timer.id world).slots = fun _ _ => [])
    (later : 0 < e ∨ 0 < remainAfter last n 0) :
    Tracked last n e (endsAfter last n e) timer 0 turns (reg world timer last) := by
  have same := reg_frame world timer last
  have own : (view timer.id world).own = [] := by
    rw [view, idle]
    rfl
  have rests := now_rests fresh clock later
  have placed := reg_eq world timer last
  rw [remain_now expires fresh] at placed
  refine ⟨?_, ?_, ?_, ?_, ?_, ?_, ?_⟩
  · exact same ▸ clock
  · refine (congrArg (·.2.1) same).trans (tick.trans ?_)
    rw [Nat.add_zero, Nat.mod_eq_of_lt fresh.small]
  · exact (congrArg (·.2.2.1) same).trans started
  · exact named.trans_eq (congrArg (·.2.2.2.2.2) same).symm
  · rw [placed, push_inside (by exact rests_inside rests)]
    exact intact
  · exact (congrArg (·.2.2.2.2.1) same).trans idle
  · rw [reg_own rfl, remain_now expires fresh]
    exact ⟨pending, own, _, _, push_only empty timer (rests_inside rests), rests⟩

theorem tracked_iff (some_ : 0 < n)
    (tracked : Tracked last n e (endsAfter last n e) timer 0 turns world)
    (settled : Settled e turns) (calm : ¬Disturbed timer.id (ticks script n world).trace) :
    FiresAfter script timer.id n (calExpire last n) world ↔ Fine last n e 0 := by
  have idle : Idle world := .inr tracked.idle
  have way {k : Nat} (early : k < endsAfter last n e) (le : k ≤ n) :=
    (tracked_way kept expires fresh tracked settled early
      fun before => calm (before.grow (ticks_grow script idle le).2)).1
  by_cases fine : Fine last n e 0
  · refine iff_of_true ?_ fine
    have ends := (ends_after_iff some_).mpr fine
    rw [ends] at tracked way
    refine ⟨fun k early => way early early.le, ?_⟩
    have called := (tracked_ends kept expires fresh tracked settled calm).1
    rw [taken, if_pos (by rw [expires]; rfl)] at called
    exact called
  · refine iff_of_false (fun fires => ?_) fine
    have apart := mt (ends_after_iff some_).mp fine
    have silent : callbacks timer.id (ticks script n world).trace =
        callbacks timer.id world.trace := by
      rcases Nat.lt_or_gt_of_ne apart with before | behind
      · obtain ⟨called, stops⟩ := tracked_ends kept expires fresh tracked settled
          fun disturbed => calm (disturbed.grow (ticks_grow script idle before.le).2)
        have wide := fresh.wide
        have early : timer.expire ≠ (last + endsAfter last n e) % 2 ^ 64 := by
          rw [expires, calExpire]
          omega
        rw [ticks_crashed script before.le (stops early), called, taken, if_neg early]
      · exact way behind le_rfl
    exact cons_ne_self _ _ (silent.symm.trans fires.2).symm

end Way

/-! ## Timers that are not in the manager -/

/-- Nothing of the timer is in the manager, and it has not ended the process. -/
def Blank (v : View) : Prop :=
  v.slots = (fun _ _ => []) ∧ v.pending = [] ∧ v.own = [] ∧ ¬v.faulted

section Blanks

variable {id tick : Nat} {world : World} (script : Script)

theorem moves_blank {after : World} {calls : List Call} (moves : Moves tick world calls after)
    (silent : calls = []) (blank : Blank (view id world)) : Blank (view id after) := by
  refine (@Moves.keeps tick world after calls (fun world => Blank (view id world)) moves blank ?_).1
  intro before made next move among _ blank
  cases move with
  | op op => cases silent ▸ among (mem_singleton_self _)
  | @enter timer rest list idle =>
    have other : timer.id ≠ id := by
      rintro rfl
      have pending := blank.2.1
      rw [view, list] at pending
      simp [mine] at pending
    rw [enter_other list idle other]
    exact blank
  | @leave timer ret runs =>
    have other : timer.id ≠ id := by
      rintro rfl
      have own := blank.2.2.1
      rw [view, runs] at own
      simp [mine] at own
    rw [leave_other runs other]
    exact blank

theorem upper_blank (blank : Blank (view id world)) :
    Blank (view id (upperTurns script tick world)) := by
  have turned {world : World} {wtype : WheelType} (upper : wtype ≠ .sec)
      (blank : Blank (view id world)) : Blank (view id (fireWheel script wtype tick world)) := by
    rw [upper_empty script tick upper blank.1]
    exact ⟨turn_empty blank.1 wtype, blank.2⟩
  rw [upperTurns]
  split_ifs
  · rw [fire]
    split_ifs
    · rw [fire, fire, ite_self]
      exact turned (by decide) (turned (by decide) blank)
    · exact turned (by decide) blank
  · exact blank

variable {script} (quiet : ∀ m, (script m).ops = [])

include quiet

theorem finish_blank (fuel : Nat) (idle : world.current = none) (blank : Blank (view id world)) :
    Blank (view id (finishTick script tick fuel world)) := by
  obtain ⟨moves, -⟩ := @fire_loop_moves tick world script fuel idle
  refine upper_blank script (moves_blank moves (eq_nil_iff_forall_not_mem.mpr ?_) blank)
  exact @fire_loop_written tick (fun _ => False) script
    (fun m op member => by rw [quiet m] at member; cases member) fuel world

theorem tick_loop_blank (now fuel : Nat) (idle : Idle world) (blank : Blank (view id world)) :
    Blank (view id (tickLoop script now fuel world)) := by
  induction fuel generalizing world with
  | zero => exact blank
  | succ fuel ih =>
    rw [tickLoop]
    split_ifs with stops
    · exact blank
    · have none_ : world.current = none := idle.resolve_left fun crashed => stops (.inl crashed)
      have begun : Blank (view id (beginTick world)) := by
        rw [begin_view]
        exact ⟨turn_empty blank.1 .sec, congrFun (congrFun blank.1 _) _, blank.2.2⟩
      exact ih (fire_tick_idle script none_).1 (finish_blank quiet _ none_ begun)

theorem ticks_blank (n : Nat) (idle : Idle world) (blank : Blank (view id world)) :
    Blank (view id (ticks script n world)) := by
  induction n with
  | zero => exact blank
  | succ n ih =>
    have going := (ticks_grow script idle (Nat.le_refl n)).1
    rw [ticks, chkTimerTick]
    split_ifs with runs
    · refine tick_loop_blank quiet _ _ (.inr (going.resolve_left (by simp [runs.2]))) ?_
      rw [log_other (by simp [about, subject])]
      exact ih
    · exact ih

end Blanks

/-! ## Main results -/

/-- The second wheel has made the turns of `e` ticks, and the upper wheels those of `upper`
ticks. -/
structure Turned (e upper : Nat) (mgr : TimerMgr) : Prop where
  sec : (mgr.wheels .sec).cur = secCursor e
  hour : (mgr.wheels .hour).cur = (upper / 1000 % 3600 : Nat)
  day : (mgr.wheels .day).cur = ((upper / 1000 + 1) / 3600 % 24 : Nat)

def turnsOf (upper : Nat) : WheelType → Nat
  | .sec => upper
  | .hour => upper / 1000
  | .day => (upper / 1000 + 1) / 3600

theorem Turned.clock {e upper : Nat} {world : World} (turned : Turned e upper world.mgr)
    (made : upper ≤ e) (near : e ≤ upper + 1) : Clock e (turnsOf upper) (frame world).1 := by
  refine ⟨turned.sec, fun wtype above => ?_, ?_, ?_, fun wtype above => ?_⟩
  · cases wtype with
    | sec => exact absurd rfl above
    | hour => exact turned.hour
    | day => exact turned.day
  · simp only [turnsOf]
    omega
  · simp only [turnsOf]
    omega
  · cases wtype with
    | sec => exact absurd rfl above
    | _ =>
      simp only [turnsOf, visit]
      omega

/-- The expiry does not wrap, or it is more than 1001 ticks away and the clock wraps before
an upper wheel hands the timer down for the last time. -/
def Survives (cur : Int) (tick n : Nat) : Prop :=
  tick + n < 2 ^ 64 ∨ 1001 < n ∧ (cur + n - 1) % 1000 + 2 ≤ (tick : Int) + n - 2 ^ 64

instance (cur : Int) (tick n : Nat) : Decidable (Survives cur tick n) :=
  inferInstanceAs (Decidable (_ ∨ _ ∧ _))

theorem fine_iff {tick : Nat} (small : tick < 2 ^ 64) (n e : Nat) :
    Fine tick n e 0 ↔ Survives (secCursor e) tick n := by
  unfold Fine Survives secCursor
  split_ifs <;> omega

theorem settled_of (e : Nat) : Settled e (turnsOf e) := by
  intro wtype above
  cases wtype with
  | sec => exact absurd rfl above
  | _ =>
    simp only [turnsOf, visit]
    omega

theorem near_of_short {last n : Nat} (small : last < 2 ^ 64) (short : n ≤ maxTimeout) :
    Near last n 0 := by
  unfold maxTimeout at short
  exact ⟨small, by omega, by omega⟩

/-- A manager between two ticks, with any other timers in it. A timer registered now fires
after exactly its period if and only if the condition holds, provided that no other timer ends
the process in these ticks. -/
theorem wrapping_timer_exact_iff (script : Script) (world : World) (ms now e : Nat)
    (turned : Turned e e world.mgr) (resting : world.tlist = [] ∧ world.current = none)
    (intact : world.crashed = false)
    (named : ∀ wtype slot, ∀ timer ∈ (world.mgr.wheels wtype).tlist slot, timer.id < world.created)
    (clock : world.mgr.ptrtick = true → world.mgr.lasttick = now) (small : now < 2 ^ 64)
    (some_ : 0 < ms) (short : ms ≤ maxTimeout)
    (kept : ∀ m, .unregister world.created ∉ (script m).ops)
    (order : ∀ other ≠ world.created,
      .fault other ∉ (ticks script ms (chkTimerRegister world ms now)).trace) :
    FiresAfter script world.created ms (calExpire now ms) (chkTimerRegister world ms now) ↔
      Survives (world.mgr.wheels .sec).cur now ms := by
  have clamped : clampTimeout ms = ms := by
    rw [clampTimeout, if_neg (by omega), if_pos some_]
  obtain ⟨mgr, opened, wheels, started, last⟩ : ∃ mgr : TimerMgr,
      (if world.mgr.ptrtick then world.mgr
        else { world.mgr with ptrtick := true, lasttick := now }) = mgr ∧
      mgr.wheels = world.mgr.wheels ∧ mgr.ptrtick = true ∧ mgr.lasttick = now := by
    split_ifs with already
    · exact ⟨_, rfl, rfl, already, clock already⟩
    · exact ⟨_, rfl, rfl, rfl, rfl⟩
  set timer : Timer :=
    { id := world.created, timeout := ms, expire := calExpire now ms, incb := false
      releasing := false } with timerEq
  set ready : World := (({ world with mgr := mgr, created := world.created + 1 }.log
    (.register timer.id now now ms)).log (.arm timer.id timer.expire)) with readyEq
  have shape : chkTimerRegister world ms now = reg ready timer now := by
    rw [chkTimerRegister, clamped, opened, last]
  have slots : ready.mgr.wheels = world.mgr.wheels := wheels
  have turns : Turned e e ready.mgr := by
    constructor <;> rw [slots]
    · exact turned.sec
    · exact turned.hour
    · exact turned.day
  have empty : (view timer.id ready).slots = fun _ _ => [] := by
    funext wtype slot
    apply filter_eq_nil_iff.mpr
    intro other among
    rw [slots] at among
    simpa [timerEq] using (named wtype slot other among).ne
  have newer : timer.id < ready.created := Nat.lt_succ_self _
  have idle : ready.current = none := resting.2
  have going : ready.crashed = false := by
    simpa [World.crashed, readyEq, World.log, isFault] using intact
  have pending : (view timer.id ready).pending = [] := congrArg (mine timer.id) resting.1
  have clocks := turns.clock le_rfl (Nat.le_succ e)
  have near : Near now ms 0 := near_of_short small short
  rw [shape] at order ⊢
  have calm : ¬Disturbed timer.id (ticks script ms (reg ready timer now)).trace :=
    fun disturbed => disturbed.elim fun other has => order other has.1 has.2
  rw [turned.sec, ← fine_iff small]
  by_cases later : 0 < e ∨ 0 < remainAfter now ms 0
  · have tracked : Tracked now ms e (endsAfter now ms e) timer 0 (turnsOf e)
        (reg ready timer now) :=
      reg_tracked rfl near clocks last started newer going idle pending empty later
    exact tracked_iff kept rfl near some_ tracked (settled_of e) calm
  · -- one tick on a new manager when the clock wraps: the slot does not exist
    push Not at later
    obtain ⟨fresh, none_⟩ := later
    obtain rfl : e = 0 := Nat.le_zero.mp fresh
    have none_ : remainAfter now ms 0 = 0 := Nat.le_zero.mp none_
    have crashed : (reg ready timer now).crashed = true := by
      have sec : (ready.mgr.wheels .sec).cur = -1 := clocks.sec
      have outside : ¬regSlot (ready.mgr.wheels .sec).cur 0 (wheelSize .sec) < wheelSize .sec := by
        rw [sec]
        decide
      rw [reg_eq, remain_now rfl near, none_]
      exact congrArg World.crashed (push_outside outside)
    refine iff_of_false (fun fires => ?_) ?_
    · have frozen : ticks script ms (reg ready timer now) = reg ready timer now :=
        ticks_crashed script (Nat.zero_le ms) crashed
      have called := fires.2
      rw [frozen] at called
      exact cons_ne_self _ _ called.symm
    · unfold remainAfter at none_
      unfold Fine
      split_ifs at none_ <;> omega

def quietScript : Script := fun _ => ⟨[], -1⟩

/-- Three seconds, registered in the last tick before the clock wraps. -/
theorem three_seconds_across_wrap :
    FiresAfter quietScript 0 3000 2999 (chkTimerRegister World.init 3000 (2 ^ 64 - 1)) := by
  refine (wrapping_timer_exact_iff quietScript World.init 3000 (2 ^ 64 - 1) 0
    ⟨rfl, rfl, rfl⟩ ⟨rfl, rfl⟩
    rfl nofun nofun (by decide) (by decide) (by decide) (fun _ => not_mem_nil) ?_).mpr (by decide)
  intro other apart
  refine (ticks_blank (fun _ => rfl) 3000 (.inr (reg_grows _ _ _).2.1) ?_).2.2.2
  rw [chkTimerRegister, reg_other (by exact apart.symm),
    log_other (by simpa [about, subject] using apart.symm), log_other (by simp [about, subject])]
  exact ⟨rfl, rfl, rfl, not_mem_nil⟩

/-- Two ticks, registered in the last tick before the clock wraps: the timer is taken out in the
first one, where the assertion fails, and its callback is not entered after any number of ticks. -/
theorem two_ticks_across_wrap :
    .fault 0 ∈ (ticks quietScript 1 (chkTimerRegister World.init 2 (2 ^ 64 - 1))).trace ∧
      ¬FiresAfter quietScript 0 2 1 (chkTimerRegister World.init 2 (2 ^ 64 - 1)) := by
  refine ⟨by decide +kernel, fun fires => ?_⟩
  have called := fires.2
  rw [ticks_crashed quietScript (Nat.le_succ 1) (by decide +kernel)] at called
  revert called
  decide +kernel

/-- The callback of a timer has returned: it is registered again for the period that
`chk_timer_register` would allow, in a slot of its wheel, and fires at its new expiry. -/
structure RearmedSafely (script : Script) (tick fuel : Nat) (world : World) (timer : Timer)
    (ret : Int) : Prop where
  placed : ∃ wtype slot, slot < wheelSize wtype ∧
    (leaveCallback tick ret world timer).trace =
      .place wtype slot ::
        .arm timer.id (calExpire tick (clampTimeout (period timer ret))) ::
          .rearm timer.id tick (clampTimeout (period timer ret)) ret :: world.trace
  fires : FiresAfter script timer.id (clampTimeout (period timer ret))
    (calExpire tick (clampTimeout (period timer ret)))
    (finishTick script tick fuel (leaveCallback tick ret world timer))

/-- In `fire`, after `e` ticks, with any other timers in the manager that do not end the process
before the timer is due. A returned period is safe if and only if it is not above the largest
one and the condition holds for it. -/
theorem returned_period_safe_iff (script : Script) (world : World) (tick fuel e : Nat)
    (timer : Timer) (ret : Int) (running : 0 < e) (turned : Turned e (e - 1) world.mgr)
    (clock : world.mgr.ptrtick = true ∧ world.mgr.lasttick = tick) (small : tick < 2 ^ 64)
    (intact : world.crashed = false)
    (alone : (∀ wtype slot, ∀ other ∈ (world.mgr.wheels wtype).tlist slot, other.id ≠ timer.id) ∧
      ∀ other ∈ world.tlist, other.id ≠ timer.id)
    (named : timer.id < world.created) (stays : timer.releasing = false) (again : ret ≥ 0)
    (some_ : 0 < timer.timeout) (kept : ∀ m, .unregister timer.id ∉ (script m).ops)
    (order : ∀ other ≠ timer.id, .fault other ∉ (ticks script (clampTimeout (period timer ret))
      (finishTick script tick fuel (leaveCallback tick ret world timer))).trace) :
    RearmedSafely script tick fuel world timer ret ↔
      period timer ret ≤ maxTimeout ∧
        Survives (world.mgr.wheels .sec).cur tick (period timer ret) := by
  set n := period timer ret with periodEq
  have shape : leaveCallback tick ret world timer = _ := leave_again tick ⟨by simp [stays], again⟩
  have positive : 0 < n := by
    rw [periodEq, period]
    split_ifs <;> omega
  by_cases short : n ≤ maxTimeout
  · have clamped : clampTimeout n = n := by
      rw [clampTimeout, if_neg (by omega), if_pos positive]
    rw [and_iff_right short, turned.sec, ← fine_iff small]
    set ready : World := (({ world with current := none } : World).log
      (.rearm timer.id tick n ret)).log (.arm timer.id (calExpire tick n)) with readyEq
    set next := rearmed tick ret timer with nextEq
    have turns : Turned e (e - 1) ready.mgr := ⟨turned.sec, turned.hour, turned.day⟩
    have clocks := turns.clock (by omega) (by omega)
    have near : Near tick n 0 := near_of_short small short
    have pending : (view timer.id ready).pending = [] :=
      filter_eq_nil_iff.mpr fun other among => by simpa using alone.2 other among
    have empty : (view timer.id ready).slots = fun _ _ => [] := by
      funext wtype slot
      exact filter_eq_nil_iff.mpr fun other among => by simpa using alone.1 wtype slot other among
    have tracked : Tracked tick n e (endsAfter tick n e) next 0 (turnsOf (e - 1))
        (reg ready next tick) :=
      reg_tracked rfl near clocks clock.2 clock.1 named intact rfl pending empty (.inl running)
    have behind : 1000 * turnsOf (e - 1) .hour < e + 0 := by
      simp only [turnsOf]
      omega
    rw [clamped, shape] at order
    have calm : ¬Disturbed next.id
        (ticks script n (finishTick script tick fuel (reg ready next tick))).trace :=
      fun ⟨other, apart, member⟩ => order other apart member
    have finished := finish_tracked (by exact kept) near rfl tracked behind fuel
    rw [Nat.add_zero, Nat.mod_eq_of_lt small] at finished
    have idle : Idle (finishTick script tick fuel (reg ready next tick)) :=
      finish_idle script tracked.idle fuel
    obtain ⟨now, settled, there⟩ := finished fun disturbed =>
      calm (disturbed.grow (ticks_grow script idle (Nat.zero_le n)).2)
    have fires : FiresAfter script next.id n (calExpire tick n) _ ↔ Fine tick n e 0 :=
      tracked_iff (by exact kept) rfl near positive there settled calm
    constructor
    · intro safe
      have claimed := safe.fires
      rw [← periodEq, clamped, shape] at claimed
      exact fires.mp claimed
    · intro fine
      constructor
      · have rests : Rests tick n e _ 0 _ _ _ := now_rests near clocks (.inl running)
        refine ⟨_, _, rests_inside rests, ?_⟩
        rw [← periodEq, clamped, shape, reg_eq, remain_now rfl near,
          push_inside (rests_inside rests)]
        rfl
      · rw [← periodEq, clamped, shape]
        exact fires.mpr fine
  · refine iff_of_false (fun safe => ?_) fun both => short both.1
    obtain ⟨wtype, slot, -, trace⟩ := safe.placed
    rw [shape, reg_eq, pushSlot] at trace
    rw [← periodEq] at trace
    split_ifs at trace
    · simp only [World.log, World.setWheel, List.cons.injEq, Event.rearm.injEq] at trace
      have same : n = clampTimeout n := trace.2.2.1.2.2.1
      rw [clampTimeout, if_pos (by omega)] at same
      omega
    · simp [World.log] at trace

def firstTick : World :=
  { World.init with
    mgr :=
      { wheels := Function.update wheelNew .sec ⟨0, fun _ => []⟩, ptrtick := true, lasttick := 1 }
    created := 1 }

theorem returned_hour_safe :
    RearmedSafely quietScript 1 0 firstTick ⟨0, 1, 1, true, false⟩ 3600000 := by
  refine (returned_period_safe_iff quietScript firstTick 1 0 1 ⟨0, 1, 1, true, false⟩ 3600000
    (by decide)
    ⟨rfl, rfl, rfl⟩ ⟨rfl, rfl⟩ (by decide) rfl
    ⟨fun wtype slot other among => by cases wtype <;> exact absurd among not_mem_nil, nofun⟩
    (by decide) rfl (by decide) (by decide) (fun _ => not_mem_nil) ?_).mpr (by decide)
  intro other apart
  refine (ticks_blank (fun _ => rfl) _ (finish_idle _ (leave_frame _ _ _ _).2.1 _)
    (finish_blank (fun _ => rfl) _ (leave_frame _ _ _ _).2.1 ?_)).2.2.2
  rw [leave_again 1 (by decide), reg_other (by exact apart.symm),
    log_other (by simpa [about, subject] using apart.symm), log_other (by simp [about, subject])]
  refine ⟨?_, rfl, rfl, not_mem_nil⟩
  funext wtype slot
  cases wtype <;> rfl

/-- A callback returns the largest number: the slot is behind the 24 slots of the day wheel, and
the process ends. -/
theorem largest_period_outside :
    .place .day 572 ∈ (run (fun _ => ⟨[], 2 ^ 31 - 1⟩) [.op (.register 1 0), .tick 1]).trace ∧
      wheelSize .day = 24 ∧
      .fault 0 ∈ (run (fun _ => ⟨[], 2 ^ 31 - 1⟩) [.op (.register 1 0), .tick 1]).trace := by
  decide +kernel

end Chuck.TimerWheelWrap
