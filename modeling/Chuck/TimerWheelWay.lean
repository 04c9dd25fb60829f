import Chuck.TimerWheelView

/-!
# The way of a timer through the wheels

A timer that is linked sits in one slot, and the turn that will visit this slot comes in time:
the second wheel hands it to `fire` at the tick at which it ends, an upper wheel puts it into a
lower one before. This holds with any other timers in the manager.
-/

namespace Chuck.TimerWheelWay

open TimerWheelModel TimerWheelPlacement TimerWheelTrace TimerWheelView Function

def onlyAt (timer : Timer) (wtype : WheelType) (slot : Nat) : WheelType → Nat → List Timer :=
  fun which place => if which = wtype ∧ place = slot then [timer] else []

/-- A timer that ends at tick `final` is on its way at tick `i`. -/
structure Sits (last n e final : Nat) (timer : Timer) (i : Nat) (turns : WheelType → Nat)
    (v : View) : Prop where
  pending : v.pending = []
  own : v.own = []
  slot : ∃ wtype slot, v.slots = onlyAt timer wtype slot ∧ Rests last n e turns i final wtype slot

section Slots

variable {last n e final i : Nat} {timer : Timer} {turns : WheelType → Nat} {v : View}

theorem push_only (empty : v.slots = fun _ _ => []) (timer : Timer) {wtype : WheelType}
    {remain : Nat} (inside : regSlot (v.cursors wtype) remain (wheelSize wtype) < wheelSize wtype) :
    (v.push timer wtype remain).slots =
      onlyAt timer wtype (regSlot (v.cursors wtype) remain (wheelSize wtype)) := by
  funext which place
  rw [View.push, onlyAt, if_pos inside]
  dsimp only
  by_cases same : which = wtype
  · subst same
    rw [update_self, empty]
    by_cases here : place = regSlot (v.cursors which) remain (wheelSize which)
    · subst here
      rw [update_self, if_pos ⟨rfl, rfl⟩]
      rfl
    · rw [update_of_ne here, if_neg fun both => here both.2]
  · rw [update_of_ne same, if_neg fun both => same both.1, empty]

/-- `_reg` puts a timer on its way. -/
theorem push_sits (empty : v.slots = fun _ _ => []) (pending : v.pending = []) (own : v.own = [])
    (clock : Clock (e + i) turns v.cursors) (near : Near last n i)
    (some_ : 0 < remainAfter last n i) (timer : Timer) :
    Sits last n e (target last n e i) timer i turns
      (v.push timer (regWheel (remainAfter last n i)).1 (regWheel (remainAfter last n i)).2) := by
  have rests := reg_rests clock near some_
  exact ⟨pending, own, _, _, push_only empty timer (rests_inside rests), rests⟩

theorem turn_only {which : WheelType} {slot : Nat} (only : v.slots = onlyAt timer which slot)
    (wtype : WheelType) :
    (v.turn wtype).slots =
      if which = wtype ∧ slot = (advanceCur (v.cursors wtype) (wheelSize wtype)).toNat then
        fun _ _ => []
      else onlyAt timer which slot := by
  funext other place
  rw [View.turn]
  dsimp only
  rw [only]
  generalize (advanceCur (v.cursors wtype) (wheelSize wtype)).toNat = cur
  by_cases same : other = wtype
  · subst same
    rw [update_self]
    by_cases here : place = cur
    · subst here
      rw [update_self]
      split_ifs with there
      · rfl
      · exact (if_neg fun both => there ⟨both.1.symm, both.2.symm⟩).symm
    · rw [update_of_ne here]
      split_ifs with there
      · exact if_neg fun both => here (both.2.trans there.2)
      · rfl
  · rw [update_of_ne same]
    split_ifs with there
    · exact if_neg fun both => same (both.1.trans there.1)
    · rfl

theorem turn_empty (empty : v.slots = fun _ _ => []) (wtype : WheelType) :
    (v.turn wtype).slots = fun _ _ => [] := by
  rw [View.turn]
  rw [empty, update_eq_self_iff.mpr rfl]
  exact update_eq_self_iff.mpr rfl

theorem Sits.ahead (sits : Sits last n e final timer i turns v) {cursors : WheelType → Int}
    (clock : Clock (e + i) turns cursors) : i < final := by
  obtain ⟨which, slot, -, rests⟩ := sits.slot
  by_cases lower : which = .sec
  · subst lower
    exact rests.1
  · obtain ⟨turn, j, later, -, -, meets, before, -⟩ := (rests_upper lower slot).mp rests
    have due := clock.due which lower
    have order : visit which (turns which + 1) ≤ visit which turn := visit_mono which later
    omega

variable (sec : v.cursors .sec = secCursor (e + i))

include sec

theorem tick_pending : v.tick.pending = v.slots .sec ((e + i) % 1000) := by
  rw [View.tick, View.take]
  rw [sec, wheelSize, advance_sec, Int.toNat_natCast]

variable (sits : Sits last n e final timer i turns v)

include sits

theorem Sits.waits (later : i + 1 ≠ final) : Sits last n e final timer (i + 1) turns v.tick := by
  obtain ⟨which, slot, only, rests⟩ := sits.slot
  have elsewhere : ¬(which = .sec ∧ slot = (e + i) % 1000) := by
    rintro ⟨rfl, rfl⟩
    obtain ⟨before, near, residue⟩ := rests
    omega
  refine ⟨?_, sits.own, which, slot, ?_, ?_⟩
  · rw [tick_pending sec, only]
    exact if_neg fun both => elsewhere ⟨both.1.symm, both.2.symm⟩
  · refine (turn_only only .sec).trans ?_
    rw [sec, wheelSize, advance_sec, Int.toNat_natCast, if_neg elsewhere]
  · by_cases lower : which = .sec
    · subst lower
      obtain ⟨before, near, residue⟩ := rests
      exact ⟨by omega, by omega, residue⟩
    · exact (rests_upper lower slot).mpr ((rests_upper lower slot).mp rests)

theorem Sits.due (settled : Settled (e + i) turns) (now : i + 1 = final) :
    v.tick.pending = [timer] ∧ v.tick.slots = fun _ _ => [] := by
  subst now
  obtain ⟨which, slot, only, rests⟩ := sits.slot
  have here : which = .sec ∧ slot = (e + i) % 1000 := by
    by_cases lower : which = .sec
    · subst lower
      exact ⟨rfl, rests.2.2.symm⟩
    · obtain ⟨turn, j, later, -, -, meets, before, -⟩ := (rests_upper lower slot).mp rests
      have due := settled which lower
      have order : visit which (turns which + 1) ≤ visit which turn := visit_mono which later
      omega
  constructor
  · rw [tick_pending sec, only]
    exact if_pos ⟨here.1.symm, here.2.symm⟩
  · refine (turn_only only .sec).trans ?_
    rw [sec, wheelSize, advance_sec, Int.toNat_natCast, if_pos here]

end Slots

/-! ## The upper wheels -/

def upperTurns (script : Script) (tick : Nat) (world : World) : World :=
  if world.crashed = false ∧ (world.mgr.wheels .sec).cur + 1 = wheelSize .sec then
    fire script tick [.hour, .day] world
  else world

/-- `fire` from the point where the second wheel has turned, or a callback of it has
returned. -/
def finishTick (script : Script) (tick fuel : Nat) (world : World) : World :=
  upperTurns script tick (fireLoop script tick fuel world)

theorem fire_wheel_upper {wtype : WheelType} (upper : wtype ≠ .sec) (script : Script) (tick : Nat)
    (world : World) : fireWheel script wtype tick world =
      cascade tick (turnWheel world wtype).1 (turnWheel world wtype).2 := by
  rw [fireWheel]
  exact if_neg upper

def frame (world : World) : (WheelType → Int) × Nat × Bool × List Timer × Option Timer × Nat :=
  (fun wtype => (world.mgr.wheels wtype).cur, world.mgr.lasttick, world.mgr.ptrtick, world.tlist,
    world.current, world.created)

theorem reg_frame (world : World) (timer : Timer) (tick : Nat) :
    frame (reg world timer tick) = frame world := by
  have cursors := congrArg View.cursors
    (@reg_other (timer.id + 1) world timer (Nat.succ_ne_self _).symm tick)
  refine Prod.ext cursors ?_
  rw [reg_eq]
  unfold pushSlot
  dsimp only
  split_ifs <;> rfl

theorem cascade_frame (tick : Nat) (due : List Timer) (world : World) :
    frame (cascade tick world due) = frame world := by
  induction due generalizing world with
  | nil => rfl
  | cons timer due ih =>
    cases intact : world.crashed with
    | true => rw [cascade_crashed tick _ intact]
    | false =>
      rw [cascade_cons tick timer due intact]
      exact (ih _).trans (reg_frame world timer tick)

/-- The trace grows by entries that are about no timer. -/
def Quiet (older newer : List Event) : Prop :=
  ∃ more, newer = more ++ older ∧ ∀ event ∈ more, subject event = none

theorem Quiet.refl (trace : List Event) : Quiet trace trace :=
  ⟨[], rfl, nofun⟩

theorem Quiet.trans {older middle newer : List Event} (first : Quiet older middle)
    (second : Quiet middle newer) : Quiet older newer := by
  obtain ⟨early, rfl, quiet⟩ := first
  obtain ⟨late, rfl, silent⟩ := second
  refine ⟨late ++ early, (List.append_assoc ..).symm, fun event member => ?_⟩
  exact (List.mem_append.mp member).elim (silent event) (quiet event)

theorem Quiet.story {older newer : List Event} (quiet : Quiet older newer) (id : Nat) :
    story id newer = story id older := by
  obtain ⟨more, rfl, silent⟩ := quiet
  rw [TimerWheelView.story, List.filter_append, List.filter_eq_nil_iff.mpr]
  · rfl
  · intro event member
    simp [silent event member]

theorem cascade_quiet (tick : Nat) (due : List Timer) (world : World) :
    Quiet world.trace (cascade tick world due).trace := by
  induction due generalizing world with
  | nil => exact Quiet.refl _
  | cons timer due ih =>
    cases intact : world.crashed with
    | true =>
      rw [cascade_crashed tick _ intact]
      exact Quiet.refl _
    | false =>
      rw [cascade_cons tick timer due intact]
      refine Quiet.trans ?_ (ih _)
      rw [reg_eq]
      unfold pushSlot
      dsimp only
      split_ifs
      · exact ⟨[_], rfl, fun event member => List.mem_singleton.mp member ▸ rfl⟩
      · exact ⟨[_, _], rfl, by simp [subject]⟩

theorem turned_quiet (script : Script) {wtype : WheelType} (upper : wtype ≠ .sec) (tick : Nat)
    (world : World) : Quiet world.trace (fireWheel script wtype tick world).trace ∧
      (frame (fireWheel script wtype tick world)).2 = (frame world).2 := by
  rw [fire_wheel_upper upper, cascade_frame]
  exact ⟨cascade_quiet tick _ (turnWheel world wtype).1, rfl⟩

theorem upper_quiet (script : Script) (tick : Nat) (world : World) :
    Quiet world.trace (upperTurns script tick world).trace ∧
      (frame (upperTurns script tick world)).2 = (frame world).2 := by
  have hour := turned_quiet script (show WheelType.hour ≠ .sec from nofun) tick world
  have day := turned_quiet script (show WheelType.day ≠ .sec from nofun) tick
    (fireWheel script .hour tick world)
  rw [upperTurns]
  split_ifs
  · rw [fire]
    split_ifs
    · rw [fire, fire, ite_self]
      exact ⟨hour.1.trans day.1, day.2.trans hour.2⟩
    · exact hour
  · exact ⟨Quiet.refl _, rfl⟩

section Upper

variable {q : Nat} {turns : WheelType → Nat} {world : World} (script : Script) (tick : Nat)
  {wtype : WheelType} (upper : wtype ≠ .sec)

include upper

theorem upper_cursors : (frame (fireWheel script wtype tick world)).1 =
    ((view 0 world).turn wtype).cursors := by
  rw [fire_wheel_upper upper, cascade_frame]
  exact congrArg View.cursors (turn_view 0 world wtype).1

theorem clock_turned (clock : Clock q turns (frame world).1)
    (falls : q = visit wtype (turns wtype + 1))
    (hours : 1000 * update turns wtype (turns wtype + 1) .hour ≤ q)
    (days : 3600 * update turns wtype (turns wtype + 1) .day ≤
      update turns wtype (turns wtype + 1) .hour + 1) :
    Clock q (update turns wtype (turns wtype + 1))
      (frame (fireWheel script wtype tick world)).1 := by
  rw [upper_cursors script tick upper]
  refine ⟨?_, fun which above => ?_, hours, days, fun which above => ?_⟩
  · exact (update_of_ne upper.symm ..).trans clock.sec
  · rw [View.turn]
    dsimp only
    by_cases same : which = wtype
    · subst same
      have cursor : (view 0 world).cursors which = _ := clock.upper which above
      rw [update_self, update_self, cursor, advance_turn above]
    · rw [update_of_ne same, update_of_ne same]
      exact clock.upper which above
  · by_cases same : which = wtype
    · subst same
      rw [update_self, falls]
      cases which <;> simp only [visit] <;> omega
    · rw [update_of_ne same]
      exact clock.due which above

theorem upper_empty {id : Nat} (empty : (view id world).slots = fun _ _ => []) :
    view id (fireWheel script wtype tick world) = (view id world).turn wtype := by
  obtain ⟨turned, due⟩ := turn_view id world wtype
  rw [fire_wheel_upper upper, cascade_other _ (due.trans (by rw [empty])), turned]

/-- An upper wheel turns: the timer is handed down, or stays where it is. It does not end the
process. -/
theorem Sits.turned {last n e final i : Nat} {timer : Timer}
    (sits : Sits last n e final timer i turns (view timer.id world))
    (clock : Clock (e + i) turns (frame world).1)
    (after : Clock (e + i) (update turns wtype (turns wtype + 1))
      (frame (fireWheel script wtype ((last + i) % 2 ^ 64) world)).1)
    (falls : e + i = visit wtype (turns wtype + 1)) (near : Near last n i)
    (expires : timer.expire = calExpire last n) (calm : ¬(view timer.id world).faulted) :
    ¬(view timer.id (fireWheel script wtype ((last + i) % 2 ^ 64) world)).faulted ∧
      ((fireWheel script wtype ((last + i) % 2 ^ 64) world).crashed = false →
        Sits last n e final timer i (update turns wtype (turns wtype + 1))
          (view timer.id (fireWheel script wtype ((last + i) % 2 ^ 64) world))) := by
  rw [upper_cursors script _ upper] at after
  obtain ⟨turned, due⟩ := turn_view timer.id world wtype
  obtain ⟨which, slot, only, rests⟩ := sits.slot
  have slots := turn_only only wtype
  have cursor : advanceCur ((view timer.id world).cursors wtype) (wheelSize wtype) = _ :=
    (congrArg (advanceCur · _) (clock.upper wtype upper)).trans (advance_turn upper _)
  rw [cursor, Int.toNat_natCast] at slots due
  rw [only, onlyAt] at due
  rw [fire_wheel_upper upper]
  by_cases here : which = wtype ∧ slot = (turns wtype + 1) % wheelSize wtype
  · obtain ⟨rfl, rfl⟩ := here
    rw [if_pos ⟨rfl, rfl⟩] at due slots
    obtain ⟨turn, j, later, short, residue, meets, before, ends⟩ := (rests_upper upper _).mp rests
    obtain rfl := next_turn later short residue
    obtain rfl : j = i := by omega
    have some_ : 0 < remainAfter last n j := remain_pos (ends ▸ before)
    have inside : j ≤ n := by
      unfold target at ends
      split_ifs at ends <;> omega
    have down := reg_rests after near some_
    rcases cascade_own ((last + j) % 2 ^ 64) due with pushed | ⟨crashed, same⟩
    · rw [pushed, turned, expires, cal_remain_after near inside]
      refine ⟨?_, fun _ => ends ▸ push_sits slots sits.pending sits.own after near some_ timer⟩
      exact not_or.mpr ⟨calm, not_not_intro (rests_inside down)⟩
    · rw [same, turned, crashed]
      exact ⟨calm, by simp⟩
  · rw [if_neg fun both => here ⟨both.1.symm, both.2.symm⟩] at due
    rw [if_neg here] at slots
    rw [cascade_other _ due, turned]
    exact ⟨calm, fun _ => ⟨sits.pending, sits.own, which, slot, slots, rests.stays upper here⟩⟩

end Upper

/-- The turns of the upper wheels at the end of a tick: what one turn keeps holds after them. -/
theorem upper_turns {Holds : (WheelType → Nat) → World → Prop} {q : Nat} {turns : WheelType → Nat}
    {world : World} (script : Script) (tick : Nat) (clock : Clock q turns (frame world).1)
    (behind : 1000 * turns .hour < q) (start : Holds turns world)
    (step : ∀ turns world, ∀ wtype ≠ .sec, world.crashed = false → Clock q turns (frame world).1 →
      q = visit wtype (turns wtype + 1) →
      Clock q (update turns wtype (turns wtype + 1))
        (frame (fireWheel script wtype tick world)).1 →
      Holds turns world →
      Holds (update turns wtype (turns wtype + 1)) (fireWheel script wtype tick world)) :
    ∃ now, ((upperTurns script tick world).crashed = false → Settled q now) ∧
      Clock q now (frame (upperTurns script tick world)).1 ∧
      Holds now (upperTurns script tick world) := by
  have sec : (world.mgr.wheels .sec).cur = ((q - 1) % 1000 : Nat) :=
    clock.sec.trans (if_neg (by omega))
  have near : q ≤ 1000 * (turns .hour + 1) := clock.due .hour nofun
  have day : q ≤ 1000 * (3600 * (turns .day + 1) - 1) := clock.due .day nofun
  have days := clock.dayMade
  rw [upperTurns, sec]
  by_cases whole : world.crashed = false ∧ (((q - 1) % 1000 : Nat) : Int) + 1 = wheelSize .sec
  · rw [if_pos whole]
    obtain ⟨intact, whole⟩ := whole
    simp only [wheelSize] at whole
    have falls : q = 1000 * (turns .hour + 1) := by omega
    have first := clock_turned script tick (show WheelType.hour ≠ .sec from nofun) clock falls
      (by simp [falls]) (by simp; omega)
    have held := step turns world .hour nofun intact clock falls first start
    have hour : ((fireWheel script .hour tick world).mgr.wheels .hour).cur =
        ((turns .hour + 1) % 3600 : Nat) := by
      have cursor := first.upper .hour nofun
      rw [update_self] at cursor
      exact cursor
    rw [fire, hour]
    by_cases full : (fireWheel script .hour tick world).crashed = false ∧
        (((turns .hour + 1) % 3600 : Nat) : Int) + 1 = wheelSize .hour
    · rw [if_pos full, fire, fire, ite_self]
      obtain ⟨still, full⟩ := full
      simp only [wheelSize] at full
      have again : q = visit .day (update turns .hour (turns .hour + 1) .day + 1) := by
        simp [visit]
        omega
      have second := clock_turned script tick (show WheelType.day ≠ .sec from nofun) first again
        (by simp [falls]) (by simp; omega)
      refine ⟨_, fun _ wtype upper => ?_, second, step _ _ .day nofun still first again second held⟩
      cases wtype with
      | sec => exact absurd rfl upper
      | hour =>
        simp [visit]
        omega
      | day =>
        simp [visit]
        omega
    · rw [if_neg full]
      refine ⟨_, fun still wtype upper => ?_, first, held⟩
      have within : ¬(((turns .hour + 1) % 3600 : Nat) : Int) + 1 = (3600 : Nat) :=
        fun last => full ⟨still, last⟩
      cases wtype with
      | sec => exact absurd rfl upper
      | hour =>
        simp [visit]
        omega
      | day =>
        simp [visit]
        omega
  · rw [if_neg whole]
    refine ⟨turns, fun intact wtype upper => ?_, clock, start⟩
    have within : ¬(((q - 1) % 1000 : Nat) : Int) + 1 = (1000 : Nat) :=
      fun last => whole ⟨intact, last⟩
    cases wtype with
    | sec => exact absurd rfl upper
    | hour =>
      simp only [visit]
      omega
    | day =>
      simp only [visit]
      omega

theorem begin_clock {q : Nat} {turns : WheelType → Nat} {world : World}
    (clock : Clock q turns (frame world).1) (settled : Settled q turns) :
    Clock (q + 1) turns (frame (beginTick world)).1 ∧ 1000 * turns .hour < q + 1 := by
  have made := clock.hourMade
  have sec : (view 0 world).cursors .sec = secCursor q := clock.sec
  rw [show (frame (beginTick world)).1 = _ from congrArg View.cursors (begin_view 0 world)]
  refine ⟨⟨?_, fun wtype upper => ?_, by omega, clock.dayMade, settled⟩, by omega⟩
  · rw [View.tick, View.take, View.turn]
    dsimp only
    rw [update_self, sec, wheelSize, advance_sec, sec_cursor_succ]
  · exact (update_of_ne upper ..).trans (clock.upper wtype upper)

def fireTick (script : Script) (world : World) : World :=
  fire script (incLasttick world.mgr.lasttick) [.sec, .hour, .day]
    { world with mgr := { world.mgr with lasttick := incLasttick world.mgr.lasttick } }

def fireTickCalls (script : Script) (world : World) : List Call :=
  fireCalls script (incLasttick world.mgr.lasttick) [.sec, .hour, .day]
    { world with mgr := { world.mgr with lasttick := incLasttick world.mgr.lasttick } }

theorem fire_tick_calls (script : Script) (world : World) : fireTickCalls script world =
    fireLoopCalls script (incLasttick world.mgr.lasttick) (beginTick world).tlist.length
      (beginTick world) := by
  simp [fireTickCalls, fireCalls, fireWheelCalls, beginTick]

/-- The second wheel turns, the callbacks run, and the upper wheels turn. -/
theorem fire_tick_moves (script : Script) {world : World} (idle : world.current = none) :
    ∃ looped, Moves (incLasttick world.mgr.lasttick) (beginTick world) (fireTickCalls script world)
        looped ∧ (looped.crashed = true ∨ looped.current = none ∧ looped.tlist = []) ∧
      fireTick script world = upperTurns script (incLasttick world.mgr.lasttick) looped := by
  obtain ⟨moves, ended⟩ := @fire_loop_moves (incLasttick world.mgr.lasttick)
    (beginTick world) script (beginTick world).tlist.length idle
  exact ⟨_, fire_tick_calls script world ▸ moves, ended.imp_right (And.imp_right (· le_rfl)), rfl⟩

theorem upper_suffix (script : Script) (tick : Nat) (world : World) :
    world.trace <:+ (upperTurns script tick world).trace := by
  obtain ⟨⟨more, grown, -⟩, -⟩ := upper_quiet script tick world
  rw [grown]
  exact List.suffix_append ..

/-- Between two calls no callback is running, unless the process has ended. -/
def Idle (world : World) : Prop := world.crashed = true ∨ world.current = none

theorem finish_idle (script : Script) {tick : Nat} {world : World} (idle : world.current = none)
    (fuel : Nat) : Idle (finishTick script tick fuel world) := by
  obtain ⟨-, ended⟩ := @fire_loop_moves tick world script fuel idle
  obtain ⟨-, same⟩ := upper_quiet script tick (fireLoop script tick fuel world)
  refine ended.imp (crashed_of_suffix (upper_suffix script tick _)) fun resting => ?_
  exact (congrArg (·.2.2.2.1) same).trans resting.1

theorem fire_tick_idle (script : Script) {world : World} (idle : world.current = none) :
    Idle (fireTick script world) ∧ world.trace <:+ (fireTick script world).trace := by
  obtain ⟨looped, moves, -, shape⟩ := fire_tick_moves script idle
  refine ⟨finish_idle script (show (beginTick world).current = none from idle) _, ?_⟩
  rw [shape]
  exact moves.suffix.trans (upper_suffix script (incLasttick world.mgr.lasttick) looped)

theorem tick_loop_idle (script : Script) (now fuel : Nat) {world : World} (idle : Idle world) :
    Idle (tickLoop script now fuel world) ∧
      world.trace <:+ (tickLoop script now fuel world).trace := by
  induction fuel generalizing world with
  | zero => exact ⟨idle, List.suffix_rfl⟩
  | succ fuel ih =>
    rw [tickLoop]
    split_ifs with stops
    · exact ⟨idle, List.suffix_rfl⟩
    · obtain ⟨ended, grown⟩ :=
        fire_tick_idle script (idle.resolve_left fun crashed => stops (.inl crashed))
      exact ⟨(ih ended).1, grown.trans (ih ended).2⟩

theorem tick_crashed (script : Script) (now : Nat) {world : World}
    (crashed : world.crashed = true) : chkTimerTick script world now = world :=
  if_neg fun runs => Bool.false_ne_true (runs.2.symm.trans crashed)

theorem tick_idle (script : Script) (now : Nat) {world : World} (idle : Idle world) :
    Idle (chkTimerTick script world now) ∧
      world.trace <:+ (chkTimerTick script world now).trace := by
  rw [chkTimerTick]
  split_ifs with runs
  · obtain ⟨ended, grown⟩ := @tick_loop_idle script now
      ((now + 2 ^ 64 - world.mgr.lasttick) % 2 ^ 64) (world.log (.tick world.mgr.lasttick now))
      (.inr (idle.resolve_left (by simp [runs.2])))
    exact ⟨ended, (List.suffix_cons _ _).trans grown⟩
  · exact ⟨idle, List.suffix_rfl⟩

end Chuck.TimerWheelWay
