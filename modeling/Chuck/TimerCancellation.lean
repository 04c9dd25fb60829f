import Chuck.TimerWheelRun

/-!
# Cancelling timers

`chk_timer_unregister` meets a timer in one of three places: in a slot of a
wheel, in the local list of `fire` while another callback of the same tick runs, or
in its own callback. In the first two it is unlinked and destroyed at once; in
the third it is marked, and destroyed when the callback returns. The entry
`destroy` stands for the whole of `_destroy_timer`: the cleaner and the return to
the pool of free timers.
-/

namespace Chuck.TimerCancellation

open TimerWheelModel TimerWheelTrace TimerWheelView TimerWheelRun List

/-- An expiry was pending, in a wheel or in the local list of `fire`, when its timer was
unregistered. -/
def Withdrawn (script : Script) (steps : List Step) (armed : Nat × Nat) : Prop :=
  ∃ call ∈ runCalls script steps, call.2 = .unregister armed.1 ∧
    armed ∈ (World.live call.1).map key

theorem withdrawn_covers (script : Script) (steps : List Step) :
    Covers (Withdrawn script steps) (runCalls script steps) := by
  intro call made timer linked cancels
  exact ⟨call, made, cancels, mem_map.mpr ⟨timer, linked, rfl⟩⟩

section Histories

variable {withdrawn : Nat × Nat → Prop} {id : Nat} {phase : Phase} {s : List Event}
  (history : History withdrawn id phase s)

include history

theorem served_armed : firings s <:+ armings s := by
  obtain balance | ⟨-, expire, -, balance⟩ := history.balance
  · rw [balance]
    exact suffix_append ..
  · rw [balance]
    exact suffix_cons ..

theorem destroyed_once : s.count (.destroy id) ≤ 1 := by
  by_cases stopped : phase = .stopped
  · subst stopped
    cases history with
    | done history | cancel history =>
      rw [count_cons_self, count_eq_zero_of_not_mem (history.alive nofun)]
  · rw [count_eq_zero_of_not_mem (history.alive stopped)]
    exact Nat.zero_le 1

end Histories

theorem count_story (id : Nat) (trace : List Event) :
    (story id trace).count (.destroy id) = trace.count (.destroy id) :=
  count_filter (by simp [subject])

theorem ended_exact {trace : List Event} {call : Call} (ended : Ended trace call) {id : Nat}
    (cancels : call.2 = .unregister id) (registered : id < call.1.created)
    (alive : .destroy id ∉ call.1.trace) :
    ∃ newer, trace = newer ++ call.1.trace ∧
      (∀ tick expire, .callback id tick expire ∉ newer) ∧ newer.count (.destroy id) = 1 := by
  obtain ⟨⟨newer, rfl⟩, told⟩ := ended
  have only : story id newer = [.destroy id] := by
    have split := told id cancels registered alive
    rw [story, filter_append] at split
    exact append_cancel_right (split.trans (singleton_append ..).symm)
  refine ⟨newer, rfl, fun tick expire member => ?_, ?_⟩
  · have among : .callback id tick expire ∈ story id newer :=
      mem_filter.mpr ⟨member, by simp [subject]⟩
    rw [only] at among
    simp at among
  · rw [← count_story, only, count_singleton_self]

/-- Every run in which callbacks and the main program register and unregister timers. A timer
that is unregistered between its registration and its end is not called again and is destroyed
exactly once after the call; no timer is ever destroyed twice. Each callback is entered at its
expiry, the process goes on, no expiry is stored or served twice, and every expiry that was not
pending when its timer was unregistered has been served by `lasttick` or is still linked. -/
theorem cancellation_exact (script : Script) (steps : List Step)
    (clean : Clean (run script steps).trace) :
    (∀ call ∈ runCalls script steps, ∀ id, call.2 = .unregister id → id < call.1.created →
      .destroy id ∉ call.1.trace →
      ∃ newer, (run script steps).trace = newer ++ call.1.trace ∧
        (∀ tick expire, .callback id tick expire ∉ newer) ∧ newer.count (.destroy id) = 1) ∧
    (∀ id, (run script steps).trace.count (.destroy id) ≤ 1) ∧
    (∀ id tick expire, .callback id tick expire ∈ (run script steps).trace → tick = expire) ∧
    (∀ id, .fault id ∉ (run script steps).trace) ∧
    (armings (run script steps).trace).Nodup ∧ (firings (run script steps).trace).Nodup ∧
    (∀ fired ∈ firings (run script steps).trace, fired ∈ armings (run script steps).trace) ∧
    ∀ armed ∈ armings (run script steps).trace, ¬Withdrawn script steps armed →
      (armed.2 ≤ (run script steps).mgr.lasttick → armed ∈ firings (run script steps).trace) ∧
      ((run script steps).mgr.lasttick < armed.2 →
        armed ∈ (run script steps).mgr.timers.map key) := by
  obtain ⟨reached, ends⟩ := run_reached script steps (withdrawn_covers script steps) clean
  refine ⟨fun call made id => ended_exact (ends call made), fun id => ?_,
    fun _ _ _ => reached.asserted,
    fun _ => reached.inside _, reached.distinct, nodup_of_each fun id => ?_, fun fired member => ?_,
    fun armed member kept => ?_⟩
  · obtain ⟨phase, history⟩ := reached.histories id
    rw [← count_story]
    exact destroyed_once history
  · obtain ⟨phase, history⟩ := reached.histories id
    rw [firings_story]
    exact history.distinct.1.sublist (served_armed history).sublist
  · obtain ⟨phase, history⟩ := reached.histories fired.1
    have own : fired ∈ (firings (run script steps).trace).filter (·.1 = fired.1) :=
      mem_filter.mpr ⟨member, decide_eq_true rfl⟩
    rw [firings_story] at own
    have armed := (served_armed history).subset own
    rw [← armings_story] at armed
    exact (mem_filter.mp armed).1
  · obtain ⟨phase, history, linked, ahead, past⟩ := reached.account armed.1
    have own : armed ∈ (armings (run script steps).trace).filter (·.1 = armed.1) :=
      mem_filter.mpr ⟨member, decide_eq_true rfl⟩
    rw [armings_story] at own
    have served (fired : armed ∈ firings (story armed.1 (run script steps).trace)) :
        (armed.2 ≤ (run script steps).mgr.lasttick → armed ∈ firings (run script steps).trace) ∧
          ((run script steps).mgr.lasttick < armed.2 →
            armed ∈ (run script steps).mgr.timers.map key) := by
      have before := past armed fired
      rw [← firings_story] at fired
      exact ⟨fun _ => (mem_filter.mp fired).1, fun later => absurd before (not_le.mpr later)⟩
    obtain balance | ⟨-, expire, dropped, balance⟩ := history.balance
    · rw [balance] at own
      rcases mem_append.mp own with waits | fired
      · have later := ahead armed waits
        rw [← linked] at waits
        obtain ⟨timer, among, same⟩ := mem_map.mp waits
        exact ⟨fun past => absurd later (not_lt.mpr past), fun _ =>
          mem_map.mpr ⟨timer, (mem_filter.mp among).1, same⟩⟩
      · exact served fired
    · rw [balance] at own
      rcases mem_cons.mp own with same | fired
      · exact absurd (same ▸ dropped) kept
      · exact served fired

/-- Between two calls every registered timer is in one place: linked once with an expiry ahead
that was not served, or destroyed once and linked nowhere. -/
theorem timers_linked_or_destroyed (script : Script) (steps : List Step)
    (clean : Clean (run script steps).trace) (id : Nat)
    (registered : id < (run script steps).created) :
    (∃ timer, (run script steps).mgr.timers.filter (·.id = id) = [timer] ∧
      (run script steps).mgr.lasttick < timer.expire ∧
      (id, timer.expire) ∉ firings (run script steps).trace ∧
      .destroy id ∉ (run script steps).trace) ∨
    (run script steps).mgr.timers.filter (·.id = id) = [] ∧
      (run script steps).trace.count (.destroy id) = 1 := by
  obtain ⟨reached, -⟩ := run_reached script steps (withdrawn_covers script steps) clean
  set world := run script steps
  rcases reached with fresh | ⟨base, q, turns, sound, settled, list, idle⟩
  · rw [fresh] at registered
    cases registered
  obtain ⟨phase, place, told, past⟩ := sound.accounts id
  have entry {event : Event} (own : subject event = some id) (member : event ∈ world.trace) :
      event ∈ (view id world).story := mem_filter.mpr ⟨member, decide_eq_true own⟩
  cases place with
  | new unnamed => exact absurd registered unnamed
  | @waits n timer named sits near under expires periodic =>
    have later := sits.ahead ((Nat.zero_add q).symm ▸ sound.clock)
    obtain ⟨wtype, slot, only, rests⟩ := sits.slot
    refine .inl ⟨timer, ?_, ?_, fun fired => ?_, fun gone => told.alive (by simp) (entry rfl gone)⟩
    · exact (mine_timers id world).trans (by
        rw [only, items_only (TimerWheelPlacement.rests_inside rests)])
    · rw [sound.tick, expires]
      exact Nat.add_lt_add_left later base
    · have own : (id, timer.expire) ∈ (firings world.trace).filter (·.1 = id) :=
        mem_filter.mpr ⟨fired, decide_eq_true rfl⟩
      rw [firings_story] at own
      have before := past _ own
      rw [expires] at before
      omega
  | due named slots pending => cases pending.symm.trans (congrArg (mine id) list)
  | runs named slots pending own =>
    change mine id world.current.toList = _ at own
    rw [idle] at own
    cases own
  | stopped named slots =>
    refine .inr ⟨?_, ?_⟩
    · exact (mine_timers id world).trans (by
        simp [slots, Support.Buckets.items_empty])
    · rw [← count_story]
      exact Nat.le_antisymm (destroyed_once told) (count_pos_iff.mpr told.gone)

/-- The first of two timers due at tick 103 unregisters the second, a third one in the hour
wheel and, twice, itself. -/
def sweepScript : Script := fun call =>
  if call = 0 then
    { ops := [.unregister 1, .unregister 0, .unregister 2, .unregister 0], ret := 5 }
  else { ops := [], ret := -1 }

def sweepSteps : List Step :=
  [.op (.register 3 100), .op (.register 3 100), .op (.register 2000 100), .op (.register 4 100),
    .tick 110]

theorem sweep_cancelled :
    firings (run sweepScript sweepSteps).trace = [(3, 104), (0, 103)] ∧
      destroyed (run sweepScript sweepSteps).trace = [3, 0, 2, 1] ∧
      ∀ id, (run sweepScript sweepSteps).trace.count (.destroy id) ≤ 1 :=
  ⟨by decide +kernel, by decide +kernel,
    (cancellation_exact sweepScript sweepSteps (by decide +kernel)).2.1⟩

theorem swept_timer_destroyed :
    (run sweepScript sweepSteps).mgr.timers.filter (·.id = 2) = [] ∧
      (run sweepScript sweepSteps).trace.count (.destroy 2) = 1 := by
  rcases timers_linked_or_destroyed sweepScript sweepSteps (by decide +kernel) 2 (by decide +kernel)
    with ⟨-, -, -, -, alive⟩ | gone
  · exact absurd (by decide +kernel) alive
  · exact gone

/-- With a clock that leads `lasttick` by `2 ^ 32` the distance is cut to 32 bits. The other timer
is taken out that much too early, where the assertion fails: its callback is never entered. -/
theorem leading_clock_aborts :
    let steps : List Step := [.op (.register 1000 0), .op (.register 5 (2 ^ 32)),
      .op (.unregister 0), .tick 5]
    (1, 2 ^ 32 + 5) ∈ armings (run (fun _ => ⟨[], -1⟩) steps).trace ∧
      .fault 1 ∈ (run (fun _ => ⟨[], -1⟩) steps).trace ∧
      ∀ more, firings (run (fun _ => ⟨[], -1⟩) (steps ++ more)).trace = [] := by
  refine ⟨by decide +kernel, by decide +kernel, fun more => ?_⟩
  rw [run_crashed _ (by decide +kernel)]
  decide +kernel

end Chuck.TimerCancellation
