import Chuck.TimerWheelTrace

/-!
# What one timer sees of the manager

Its slots, the cursors, the local list of `fire`, its own callback, what the trace tells
about it and whether it has ended the process. Operations on the other timers and their
callbacks change nothing of that, so the way of a timer through the wheels can be followed
alone.
-/

namespace Chuck.TimerWheelView

open TimerWheelModel TimerWheelPlacement TimerWheelTrace Function List

def subject : Event → Option Nat
  | .arm id _ | .callback id _ _ | .destroy id => some id
  | _ => none

/-- The timer an entry is about, a fault included. -/
def about : Event → Option Nat
  | .fault id => some id
  | event => subject event

def story (id : Nat) (trace : List Event) : List Event :=
  trace.filter fun event => subject event = some id

def mine (id : Nat) (timers : List Timer) : List Timer := timers.filter (·.id = id)

structure View where
  slots : WheelType → Nat → List Timer
  cursors : WheelType → Int
  lasttick : Nat
  started : Bool
  named : Prop
  pending : List Timer
  own : List Timer
  faulted : Prop
  story : List Event

def view (id : Nat) (world : World) : View where
  slots wtype slot := mine id ((world.mgr.wheels wtype).tlist slot)
  cursors wtype := (world.mgr.wheels wtype).cur
  lasttick := world.mgr.lasttick
  started := world.mgr.ptrtick
  named := id < world.created
  pending := mine id world.tlist
  own := mine id world.current.toList
  faulted := .fault id ∈ world.trace
  story := story id world.trace

def View.push (v : View) (timer : Timer) (wtype : WheelType) (remain : Nat) : View :=
  let slot := regSlot (v.cursors wtype) remain (wheelSize wtype)
  { v with
    slots := if slot < wheelSize wtype then
        update v.slots wtype (update (v.slots wtype) slot (v.slots wtype slot ++ [timer]))
      else v.slots
    faulted := v.faulted ∨ ¬slot < wheelSize wtype }

section Others

variable {id : Nat} {world : World} {timer : Timer}

theorem mine_push (timers : List Timer) (timer : Timer) :
    mine id (timers ++ [timer]) = mine id timers ++ mine id [timer] := filter_append ..

theorem mine_own (own : timer.id = id) : mine id [timer] = [timer] := by simp [mine, own]

theorem mine_other (other : timer.id ≠ id) : mine id [timer] = [] := by simp [mine, other]

theorem mine_without (timers : List Timer) {named : Nat} (other : named ≠ id) :
    mine id (timers.filter (·.id ≠ named)) = mine id timers := by
  rw [mine, filter_filter]
  apply filter_congr
  intro timer _
  by_cases own : timer.id = id
  · simp [own, other.symm]
  · simp [own]

theorem log_other {event : Event} (other : about event ≠ some id) :
    view id (world.log event) = view id world := by
  have apart : subject event ≠ some id ∧ event ≠ .fault id := by
    cases event <;> simp_all [about, subject]
  rw [view, view]
  congr 1
  · simp [World.log, apart.2.symm]
  · exact filter_cons_of_neg (by simpa using apart.1)

theorem log_own {event : Event} (told : subject event = some id) :
    view id (world.log event) = { view id world with story := event :: story id world.trace } := by
  have apart : Event.fault id ≠ event := by
    rintro rfl
    cases told
  rw [view, view]
  congr 1
  · simp [World.log, apart]
  · exact filter_cons_of_pos (by simpa using told)

theorem log_fault (id : Nat) (world : World) :
    view id (world.log (.fault id)) = { view id world with faulted := True } := by
  rw [view, view]
  congr 1
  simp [World.log]

theorem push_inside {wtype : WheelType} {remain : Nat}
    (inside : regSlot (world.mgr.wheels wtype).cur remain (wheelSize wtype) < wheelSize wtype) :
    pushSlot world timer wtype remain =
      (world.setWheel wtype { (world.mgr.wheels wtype) with
        tlist := update (world.mgr.wheels wtype).tlist
          (regSlot (world.mgr.wheels wtype).cur remain (wheelSize wtype))
          ((world.mgr.wheels wtype).tlist
            (regSlot (world.mgr.wheels wtype).cur remain (wheelSize wtype)) ++ [timer]) }).log
        (.place wtype (regSlot (world.mgr.wheels wtype).cur remain (wheelSize wtype))) :=
  if_pos inside

theorem push_outside {wtype : WheelType} {remain : Nat}
    (outside : ¬regSlot (world.mgr.wheels wtype).cur remain (wheelSize wtype) < wheelSize wtype) :
    pushSlot world timer wtype remain =
      (world.log (.place wtype (regSlot (world.mgr.wheels wtype).cur remain (wheelSize wtype)))).log
        (.fault timer.id) :=
  if_neg outside

theorem push_own (own : timer.id = id) (wtype : WheelType) (remain : Nat) :
    view id (pushSlot world timer wtype remain) = (view id world).push timer wtype remain := by
  by_cases inside : regSlot (world.mgr.wheels wtype).cur remain (wheelSize wtype) < wheelSize wtype
  · rw [push_inside inside, View.push, log_other (by simp [about, subject]), view]
    congr 1
    · refine Eq.trans ?_ (if_pos inside).symm
      funext other slot
      by_cases same : other = wtype
      · subst same
        simp only [set_wheel_same, update_self]
        rw [apply_update (fun _ => mine id), mine_push, mine_own own]
        rfl
      · simp [set_wheel_other _ _ _ _ same, update_of_ne same, view]
    · funext other
      by_cases same : other = wtype
      · subst same
        simp [set_wheel_same, view]
      · simp [set_wheel_other _ _ _ _ same, view]
    · exact (propext (or_iff_left (not_not_intro inside))).symm
  · rw [push_outside inside, own, log_fault, log_other (by simp [about, subject]), View.push]
    dsimp only
    congr 1
    · exact (if_neg inside).symm
    · exact (eq_true (.inr inside)).symm

theorem push_other (other : timer.id ≠ id) (wtype : WheelType) (remain : Nat) :
    view id (pushSlot world timer wtype remain) = view id world := by
  by_cases inside : regSlot (world.mgr.wheels wtype).cur remain (wheelSize wtype) < wheelSize wtype
  · rw [push_inside inside, log_other (by simp [about, subject]), view, view]
    congr 1
    · funext which slot
      by_cases same : which = wtype
      · subst same
        simp only [set_wheel_same]
        rw [apply_update (fun _ => mine id), mine_push, mine_other other, append_nil]
        exact congrFun (update_eq_self _ _) slot
      · simp [set_wheel_other _ _ _ _ same]
    · funext which
      by_cases same : which = wtype
      · subst same
        simp [set_wheel_same]
      · simp [set_wheel_other _ _ _ _ same]
  · rw [push_outside inside, log_other (by simpa [about] using other),
      log_other (by simp [about, subject])]

theorem reg_own (own : timer.id = id) (tick : Nat) :
    view id (reg world timer tick) =
      (view id world).push timer (regWheel (calRemain tick timer.expire % 2 ^ 32)).1
        (regWheel (calRemain tick timer.expire % 2 ^ 32)).2 := by
  rw [reg_eq, push_own own]

theorem reg_other (other : timer.id ≠ id) (tick : Nat) :
    view id (reg world timer tick) = view id world := by
  rw [reg_eq, push_other other]

theorem register_other (started : world.mgr.ptrtick = true) (other : id ≠ world.created)
    (ms now : Nat) : view id (chkTimerRegister world ms now) = view id world := by
  unfold chkTimerRegister
  rw [started, if_pos rfl, reg_other (by exact other.symm),
    log_other (by simpa [about, subject] using other.symm),
    log_other (by simp [about, subject]), view, view]
  congr 1
  exact propext ⟨fun less => Nat.lt_of_le_of_ne (Nat.le_of_lt_succ less) other, Nat.lt_succ_of_lt⟩

theorem unlink_other {named : Nat} (other : named ≠ id) :
    view id (chkTimerUnregister.unlinkTimer world named) = view id world := by
  unfold chkTimerUnregister.unlinkTimer
  split_ifs
  · rw [log_other (by simpa [about, subject] using other), view, view]
    congr 1
    · funext wtype slot
      exact mine_without _ other
    · exact mine_without _ other
  · rfl

theorem unregister_other {named : Nat} (other : named ≠ id) :
    view id (chkTimerUnregister world named) = view id world := by
  unfold chkTimerUnregister
  cases running : world.current with
  | none => exact unlink_other other
  | some timer =>
    dsimp only
    split_ifs with same
    · have apart : timer.id ≠ id := same ▸ other
      simp only [view, running, Option.toList_some]
      rw [mine_other apart, mine_other (by exact apart)]
    · exact unlink_other other

theorem enter_other {rest : List Timer} (taken : world.tlist = timer :: rest)
    (idle : world.current = none) (other : timer.id ≠ id) (tick : Nat) :
    view id (enterCallback tick { world with tlist := rest } timer) = view id world := by
  have popped : view id { world with tlist := rest, current := some { timer with incb := true } } =
      view id world := by
    rw [view, view]
    congr 1
    · rw [taken]
      exact (filter_cons_of_neg (by simpa using other)).symm
    · rw [idle]
      exact mine_other (by exact other)
  unfold enterCallback
  dsimp only
  split_ifs
  · rw [log_other (by simpa [about, subject] using other)]
    exact popped
  · rw [log_other (by simpa [about] using other)]
    exact popped

theorem leave_other (runs : world.current = some timer) (other : timer.id ≠ id) (tick : Nat)
    (ret : Int) : view id (leaveCallback tick ret world timer) = view id world := by
  have gone : view id { world with current := none } = view id world := by
    rw [view, view]
    congr 1
    rw [runs]
    exact (mine_other other).symm
  by_cases stays : ¬timer.releasing ∧ ret ≥ 0
  · rw [leave_again tick stays, reg_other (by exact other),
      log_other (by simpa [about, subject] using other), log_other (by simp [about, subject]), gone]
  · rw [leave_ended tick stays, log_other (by simpa [about, subject] using other), gone]

/-- Every move is about one timer. -/
theorem Move.others {tick : Nat} {calls : List Call} {after : World}
    (move : Move tick world calls after) (started : world.mgr.ptrtick = true) :
    ∃ named, ∀ id ≠ named, view id after = view id world := by
  cases move with
  | op op =>
    cases op with
    | register ms now => exact ⟨_, fun id other => register_other started other ms now⟩
    | unregister named => exact ⟨_, fun id other => unregister_other other.symm⟩
  | enter taken idle => exact ⟨_, fun id other => enter_other taken idle other.symm tick⟩
  | leave ret runs => exact ⟨_, fun id other => leave_other runs other.symm tick ret⟩

end Others

section Own

variable {id : Nat} {world : World} {timer : Timer}

theorem register_own (started : world.mgr.ptrtick = true) (ms now : Nat) :
    view world.created (chkTimerRegister world ms now) =
      View.push
        { view world.created world with
          named := True
          story := .arm world.created (calExpire now (clampTimeout ms)) ::
            story world.created world.trace }
        ⟨world.created, clampTimeout ms, calExpire now (clampTimeout ms), false, false⟩
        (regWheel (calRemain world.mgr.lasttick (calExpire now (clampTimeout ms)) % 2 ^ 32)).1
        (regWheel (calRemain world.mgr.lasttick (calExpire now (clampTimeout ms)) % 2 ^ 32)).2 := by
  unfold chkTimerRegister
  rw [started, if_pos rfl]
  rw [reg_own (by exact rfl), log_own (by exact rfl), log_other (by simp [about, subject])]
  dsimp only [view]
  rw [eq_true (Nat.lt_succ_self world.created)]
  rfl

theorem unlink_own (linked : (world.tlist ++ world.mgr.timers).any (·.id = id) = true) :
    view id (chkTimerUnregister.unlinkTimer world id) =
      { view id world with
        slots := fun _ _ => []
        pending := []
        story := .destroy id :: story id world.trace } := by
  have without (timers : List Timer) : mine id (timers.filter (·.id ≠ id)) = [] := by
    rw [mine, filter_filter, filter_eq_nil_iff]
    simp
  unfold chkTimerUnregister.unlinkTimer
  rw [if_pos linked, log_own rfl]
  dsimp only [view]
  congr 1
  · funext wtype slot
    exact without _
  · exact without _

theorem enter_own {rest : List Timer} {tick : Nat} (expires : timer.expire = tick) :
    view timer.id (enterCallback tick { world with tlist := rest } timer) =
      { view timer.id world with
        pending := mine timer.id rest
        own := [{ timer with incb := true }]
        story := .callback timer.id tick tick :: story timer.id world.trace } := by
  rw [enterCallback]
  dsimp only
  rw [if_pos expires.symm, expires, log_own rfl]
  dsimp only [view]
  congr 1
  exact mine_own rfl

theorem enter_fault {rest : List Timer} {tick : Nat} (apart : timer.expire ≠ tick) :
    view timer.id (enterCallback tick { world with tlist := rest } timer) =
      { view timer.id world with
        pending := mine timer.id rest
        own := [{ timer with incb := true }]
        faulted := True } := by
  rw [enterCallback]
  dsimp only
  rw [if_neg apart.symm, log_fault]
  dsimp only [view]
  congr 1
  exact mine_own rfl

theorem leave_own (tick : Nat) {ret : Int} (stays : ¬timer.releasing ∧ ret ≥ 0) :
    view timer.id (leaveCallback tick ret world timer) =
      View.push
        { view timer.id world with
          own := []
          story := .arm timer.id (calExpire tick (period timer ret)) :: story timer.id world.trace }
        (rearmed tick ret timer)
        (regWheel (calRemain tick (calExpire tick (period timer ret)) % 2 ^ 32)).1
        (regWheel (calRemain tick (calExpire tick (period timer ret)) % 2 ^ 32)).2 := by
  rw [leave_again tick stays, reg_own (by exact rfl), log_own rfl,
    log_other (by simp [about, subject])]
  rfl

theorem leave_gone (tick : Nat) {ret : Int} (ends : ¬(¬timer.releasing ∧ ret ≥ 0)) :
    view timer.id (leaveCallback tick ret world timer) =
      { view timer.id world with
        own := [], story := .destroy timer.id :: story timer.id world.trace } := by
  rw [leave_ended tick ends, log_own rfl]
  rfl

end Own

section Turns

variable {id : Nat} {world : World}

def View.turn (v : View) (wtype : WheelType) : View :=
  let cur := advanceCur (v.cursors wtype) (wheelSize wtype)
  { v with
    cursors := update v.cursors wtype cur
    slots := update v.slots wtype (update (v.slots wtype) cur.toNat []) }

theorem turn_view (id : Nat) (world : World) (wtype : WheelType) :
    view id (turnWheel world wtype).1 = (view id world).turn wtype ∧
      mine id (turnWheel world wtype).2 = (view id world).slots wtype
        (advanceCur ((view id world).cursors wtype) (wheelSize wtype)).toNat := by
  refine ⟨?_, rfl⟩
  rw [view, View.turn]
  congr 1
  · funext which slot
    by_cases same : which = wtype
    · subst same
      simp only [turnWheel, set_wheel_same, update_self]
      exact apply_update (fun _ => mine id) ..
    · simp [turnWheel, set_wheel_other _ _ _ _ same, update_of_ne same, view]
  · funext which
    by_cases same : which = wtype
    · subst same
      simp [turnWheel, set_wheel_same, view]
    · simp [turnWheel, set_wheel_other _ _ _ _ same, update_of_ne same, view]

/-- Once the process has ended the rest of the list is not touched. -/
theorem cascade_crashed (tick : Nat) (due : List Timer) (crashed : world.crashed = true) :
    cascade tick world due = world := by
  induction due with
  | nil => rfl
  | cons timer due ih =>
    rw [cascade, foldl_cons, if_pos crashed]
    exact ih

theorem cascade_cons (tick : Nat) (timer : Timer) (due : List Timer)
    (intact : world.crashed = false) :
    cascade tick world (timer :: due) = cascade tick (reg world timer tick) due := by
  rw [cascade, foldl_cons, intact]
  rfl

theorem cascade_other (tick : Nat) {due : List Timer} (others : mine id due = []) :
    view id (cascade tick world due) = view id world := by
  induction due generalizing world with
  | nil => rfl
  | cons timer due ih =>
    have other : timer.id ≠ id := by
      intro own
      simp [mine, own] at others
    cases intact : world.crashed with
    | true => rw [cascade_crashed tick _ intact]
    | false =>
      rw [cascade_cons tick timer due intact]
      exact (ih (by simpa [mine, other] using others)).trans (reg_other other tick)

/-- The timer is put into a lower wheel, unless another one ends the process before. -/
theorem cascade_own (tick : Nat) {due : List Timer} {timer : Timer}
    (found : mine id due = [timer]) :
    view id (cascade tick world due) =
        (view id world).push timer (regWheel (calRemain tick timer.expire % 2 ^ 32)).1
          (regWheel (calRemain tick timer.expire % 2 ^ 32)).2 ∨
      (cascade tick world due).crashed = true ∧
        view id (cascade tick world due) = view id world := by
  induction due generalizing world with
  | nil => exact absurd found (cons_ne_nil _ _).symm
  | cons first due ih =>
    cases intact : world.crashed with
    | true =>
      rw [cascade_crashed tick _ intact]
      exact .inr ⟨intact, rfl⟩
    | false =>
      rw [cascade_cons tick first due intact]
      by_cases own : first.id = id
      · rw [mine, filter_cons_of_pos (by simpa using own)] at found
        obtain ⟨rfl, rest⟩ := List.cons.inj found
        exact .inl ((cascade_other tick rest).trans (reg_own own tick))
      · rw [mine, filter_cons_of_neg (by simpa using own)] at found
        have same := @reg_other id world first own tick
        rw [← same]
        exact ih found

def View.take (v : View) (pending : List Timer) : View := { v with pending := pending }

def View.tick (v : View) : View :=
  let begun := { v with lasttick := incLasttick v.lasttick }
  (begun.turn .sec).take (v.slots .sec (advanceCur (v.cursors .sec) (wheelSize .sec)).toNat)

def beginTick (world : World) : World :=
  let begun := { world with mgr := { world.mgr with lasttick := incLasttick world.mgr.lasttick } }
  { (turnWheel begun .sec).1 with tlist := (turnWheel begun .sec).2 }

theorem begin_view (id : Nat) (world : World) :
    view id (beginTick world) = (view id world).tick := by
  set begun : World :=
    { world with mgr := { world.mgr with lasttick := incLasttick world.mgr.lasttick } }
  obtain ⟨turned, due⟩ := turn_view id begun .sec
  calc
    view id (beginTick world) =
        (view id (turnWheel begun .sec).1).take (mine id (turnWheel begun .sec).2) := rfl
    _ = (view id world).tick := by
      rw [turned, due]
      rfl

end Turns

end Chuck.TimerWheelView
