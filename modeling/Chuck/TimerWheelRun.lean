import Chuck.TimerWheelWay
import Mathlib.Data.List.Nodup

/-!
# Every timer fires exactly at its expiry

The trace tells a history of each timer: it is armed, called at the expiry that was stored,
armed again or destroyed; an unregistration destroys it earlier. At every point of a run each
timer has an account: where it is in the manager goes with how far its history has come. A
callback is entered only for a timer taken from the slot under the second wheel's cursor, and
this slot holds precisely the expiries of the current tick. Callbacks, period changes,
registrations and unregistrations made inside a callback before the upper wheels have turned
are all covered by one induction over the moves of a tick.
-/

namespace Chuck.TimerWheelRun

open Support TimerWheelModel TimerWheelPlacement TimerWheelTrace TimerWheelView TimerWheelWay
open List

variable {world : World} {timer : Timer} {tick : Nat} {older : List Event} {calls : List Call}
  {wtype : WheelType}

def armings (trace : List Event) : List (Nat × Nat) :=
  trace.filterMap fun
    | .arm id expire => some (id, expire)
    | _ => none

def firings (trace : List Event) : List (Nat × Nat) :=
  trace.filterMap fun
    | .callback id tick _ => some (id, tick)
    | _ => none

def key (timer : Timer) : Nat × Nat := (timer.id, timer.expire)

/-- What the program around the timers has to respect: the clock never runs
behind `lasttick` nor leads it by more than an hour at a registration, a
callback asks for at most the largest period, and no time passes `2^64`. -/
def Admissible : Event → Prop
  | .register _ lasttick now timeout =>
    lasttick ≤ now ∧ now - lasttick ≤ 3600000 ∧ now + timeout < 2 ^ 64
  | .rearm _ tick timeout ret => ret ≤ maxTimeout ∧ tick + timeout < 2 ^ 64
  | .tick lasttick now => lasttick ≤ now ∧ now < 2 ^ 64
  | _ => True

def Clean (trace : List Event) : Prop := ∀ event ∈ trace, Admissible event

instance : DecidablePred Admissible
  | .register _ lasttick now timeout => inferInstanceAs
      (Decidable (lasttick ≤ now ∧ now - lasttick ≤ 3600000 ∧ now + timeout < 2 ^ 64))
  | .rearm _ tick timeout ret =>
    inferInstanceAs (Decidable (ret ≤ maxTimeout ∧ tick + timeout < 2 ^ 64))
  | .tick lasttick now => inferInstanceAs (Decidable (lasttick ≤ now ∧ now < 2 ^ 64))
  | .arm .. | .place .. | .callback .. | .fault .. | .destroy .. => inferInstanceAs (Decidable True)

instance (trace : List Event) : Decidable (Clean trace) :=
  inferInstanceAs (Decidable (∀ event ∈ trace, Admissible event))

theorem clean_of_suffix {newer : List Event}
    (clean : Clean newer) (suffix : older <:+ newer) : Clean older :=
  fun event member => clean event (suffix.subset member)

def World.live (world : World) : List Timer := world.tlist ++ world.mgr.timers

def destroyed (trace : List Event) : List Nat :=
  trace.filterMap fun
    | .destroy id => some id
    | _ => none

/-! ## The history of a timer -/

inductive Phase where
  | new
  | armed (expire : Nat)
  | called (tick : Nat)
  | stopped

/-- What the trace can tell about a timer, the latest entry first. `withdrawn` bounds the
expiries that were pending when their timer was unregistered. -/
inductive History (withdrawn : Nat × Nat → Prop) (id : Nat) : Phase → List Event → Prop
  | new : History withdrawn id .new []
  | first {s : List Event} (expire : Nat) (history : History withdrawn id .new s) :
      History withdrawn id (.armed expire) (.arm id expire :: s)
  | again {s : List Event} {tick expire : Nat} (history : History withdrawn id (.called tick) s)
      (later : tick < expire) : History withdrawn id (.armed expire) (.arm id expire :: s)
  | call {s : List Event} {tick : Nat} (history : History withdrawn id (.armed tick) s) :
      History withdrawn id (.called tick) (.callback id tick tick :: s)
  | done {s : List Event} {tick : Nat} (history : History withdrawn id (.called tick) s) :
      History withdrawn id .stopped (.destroy id :: s)
  | cancel {s : List Event} {expire : Nat} (history : History withdrawn id (.armed expire) s)
      (allowed : withdrawn (id, expire)) : History withdrawn id .stopped (.destroy id :: s)

def waiting (id : Nat) : Phase → List (Nat × Nat)
  | .armed expire => [(id, expire)]
  | _ => []

section Histories

variable {withdrawn : Nat × Nat → Prop} {id : Nat} {phase : Phase} {s : List Event}
  (history : History withdrawn id phase s)

include history

theorem History.asserted {other expire : Nat} (member : .callback other tick expire ∈ s) :
    tick = expire := by
  induction history with
  | new => nomatch member
  | call history ih =>
    rcases mem_cons.mp member with head | tail
    · cases head
      rfl
    · exact ih tail
  | first expire history ih => exact ih (by simpa using member)
  | again history later ih => exact ih (by simpa using member)
  | done history ih => exact ih (by simpa using member)
  | cancel history allowed ih => exact ih (by simpa using member)

/-- Every expiry was served, but the one that is waiting or was withdrawn. -/
theorem History.balance :
    armings s = waiting id phase ++ firings s ∨
      phase = .stopped ∧ ∃ expire, withdrawn (id, expire) ∧ armings s = (id, expire) ::
        firings s := by
  induction history with
  | new => exact .inl rfl
  | first _ _ ih | again _ _ ih =>
    exact .inl (congrArg (List.cons _) (ih.resolve_right fun ended => nomatch ended.1))
  | call _ ih | done _ ih => exact .inl (ih.resolve_right fun ended => nomatch ended.1)
  | cancel _ allowed ih =>
    exact .inr ⟨rfl, _, allowed, ih.resolve_right fun ended => nomatch ended.1⟩

theorem History.distinct : (armings s).Nodup ∧
    ∀ latest, phase = .armed latest ∨ phase = .called latest →
      ∀ armed ∈ armings s, armed.2 ≤ latest := by
  induction history with
  | new => exact ⟨nodup_nil, nofun⟩
  | first expire history ih =>
    cases history
    refine ⟨pairwise_singleton .., ?_⟩
    intro latest same armed member
    obtain rfl := mem_singleton.mp member
    simp only [Phase.armed.injEq, reduceCtorEq, or_false] at same
    exact same.le
  | @again s tick expire history later ih =>
    obtain ⟨nodup, bound⟩ := ih
    have before := bound tick (.inr rfl)
    refine ⟨nodup_cons.mpr ⟨fun member => ?_, nodup⟩, ?_⟩
    · have earlier := before _ member
      exact absurd later (not_lt.mpr earlier)
    · intro latest same armed member
      simp only [Phase.armed.injEq, reduceCtorEq, or_false] at same
      rcases mem_cons.mp member with head | tail
      · rw [head]
        exact same.le
      · exact (before armed tail).trans (later.le.trans same.le)
  | call history ih =>
    refine ⟨ih.1, fun latest same => ih.2 latest (.inl ?_)⟩
    simpa using same
  | done history ih => exact ⟨ih.1, nofun⟩
  | cancel history allowed ih => exact ⟨ih.1, nofun⟩

theorem History.alive (living : phase ≠ .stopped) : .destroy id ∉ s := by
  induction history with
  | new => exact not_mem_nil
  | first expire history ih => simpa using ih nofun
  | again history later ih => simpa using ih nofun
  | call history ih => simpa using ih nofun
  | done history ih => exact absurd rfl living
  | cancel history allowed ih => exact absurd rfl living

omit history in
theorem History.gone (history : History withdrawn id .stopped s) : .destroy id ∈ s := by
  cases history <;> exact mem_cons_self ..

/-- Nothing follows the end of a timer. -/
theorem History.ended (reached : .destroy id :: older <:+ s) : s = .destroy id :: older := by
  have found : .destroy id ∈ s := reached.subset (mem_cons_self ..)
  have last {older newer : List Event} {phase : Phase}
      (history : History withdrawn id phase newer) (living : phase ≠ .stopped)
      (reached : .destroy id :: older <:+ .destroy id :: newer) :
      Event.destroy id :: newer = .destroy id :: older := by
    rcases suffix_cons_iff.mp reached with same | before
    · exact same.symm
    · exact absurd (before.subset (mem_cons_self ..)) (history.alive living)
  by_cases stopped : phase = .stopped
  · subst stopped
    cases history with
    | done history => exact last history nofun reached
    | cancel history allowed => exact last history nofun reached
  · exact absurd found (history.alive stopped)

end Histories

/-! ## Where a timer is -/

def Periodic (timer : Timer) : Prop := 0 < timer.timeout ∧ timer.timeout ≤ maxTimeout

/-- Where a timer can be after `q` ticks, and the phase of its history that goes with it. -/
inductive At (base q : Nat) (turns : WheelType → Nat) (v : View) : Phase → Prop
  | new (unnamed : ¬v.named) (slots : v.slots = fun _ _ => []) (pending : v.pending = [])
      (own : v.own = []) : At base q turns v .new
  | waits {n : Nat} {timer : Timer} (named : v.named) (sits : Sits base n 0 n timer q turns v)
      (near : Near base n q) (below : base + n < 2 ^ 64) (expires : timer.expire = base + n)
      (periodic : Periodic timer) : At base q turns v (.armed (base + n))
  | due {timer : Timer} (named : v.named) (slots : v.slots = fun _ _ => [])
      (pending : v.pending = [timer]) (own : v.own = []) (expires : timer.expire = base + q)
      (periodic : Periodic timer) : At base q turns v (.armed (base + q))
  | runs {timer : Timer} (named : v.named) (slots : v.slots = fun _ _ => [])
      (pending : v.pending = []) (own : v.own = [timer]) (periodic : Periodic timer) :
      At base q turns v (.called (base + q))
  | stopped (named : v.named) (slots : v.slots = fun _ _ => []) (pending : v.pending = [])
      (own : v.own = []) : At base q turns v .stopped

structure Account (withdrawn : Nat × Nat → Prop) (base q : Nat) (turns : WheelType → Nat) (id : Nat)
    (v : View) (phase : Phase) : Prop where
  place : At base q turns v phase
  told : History withdrawn id phase v.story
  past : ∀ fired ∈ firings v.story, fired.2 ≤ base + q

/-- What a process that goes on has recorded. -/
def Safe : Event → Prop
  | .place wtype slot => slot < wheelSize wtype
  | .fault _ => False
  | _ => True

def Inside (trace : List Event) : Prop := ∀ event ∈ trace, Safe event

/-- A started manager after `q` ticks, at any point of `fire`. -/
structure Sound (withdrawn : Nat × Nat → Prop) (base q : Nat) (turns : WheelType → Nat)
    (world : World) : Prop where
  clock : Clock q turns (frame world).1
  tick : world.mgr.lasttick = base + q
  started : world.mgr.ptrtick = true
  below : base + q < 2 ^ 64
  inside : Inside world.trace
  accounts : ∀ id, ∃ phase, Account withdrawn base q turns id (view id world) phase

def Covers (withdrawn : Nat × Nat → Prop) (calls : List Call) : Prop :=
  ∀ call ∈ calls, ∀ timer ∈ World.live call.1, call.2 = .unregister timer.id → withdrawn (key timer)

section Placing

variable {base q n : Nat} {turns : WheelType → Nat} {v : View} {world : World}

theorem Inside.intact (inside : Inside world.trace) : world.crashed = false := by
  apply any_eq_false.mpr
  intro event member
  have safe := inside event member
  cases event with
  | fault id => exact safe.elim
  | _ => exact Bool.false_ne_true

theorem log_inside {trace : List Event} {event : Event} (inside : Inside trace)
    (safe : Safe event) : Inside (event :: trace) := by
  intro other member
  rcases mem_cons.mp member with rfl | tail
  · exact safe
  · exact inside other tail

theorem reg_slots (clock : Clock q turns (frame world).1)
    (later : tick < timer.expire) (near : timer.expire ≤ tick + 90000000)
    (inside : Inside world.trace) : Inside (reg world timer tick).trace := by
  have distance : calRemain tick timer.expire % 2 ^ 32 = timer.expire - tick := by
    unfold calRemain
    rw [if_neg (by omega)]
    omega
  have bound := @reg_inside turns q (timer.expire - tick) _ clock (by omega) (by omega)
  rw [reg_eq, distance, push_inside bound]
  exact log_inside inside bound

theorem push_waits (slots : v.slots = fun _ _ => []) (pending : v.pending = []) (own : v.own = [])
    (clock : Clock q turns v.cursors) (near : Near base n q) (later : q < n)
    (below : base + n < 2 ^ 64) (timer : Timer) :
    Sits base n 0 n timer q turns
      (v.push timer (regWheel (calRemain (base + q) (base + n) % 2 ^ 32)).1
        (regWheel (calRemain (base + q) (base + n) % 2 ^ 32)).2) := by
  have remain : remainAfter base n q = n - q := if_neg (by omega)
  have distance : calRemain (base + q) (base + n) % 2 ^ 32 = remainAfter base n q := by
    have reach := near.reach
    rw [remain, calRemain, if_neg (by omega)]
    omega
  have ends : target base n 0 q = n := if_pos (.inr (.inl below))
  have sits := push_sits slots pending own ((Nat.zero_add q).symm ▸ clock) near (by omega) timer
  rw [ends] at sits
  rw [distance]
  exact sits

theorem mem_live : timer ∈ World.live world ↔
    timer ∈ (view timer.id world).pending ∨
      ∃ wtype slot, slot < wheelSize wtype ∧ timer ∈ (view timer.id world).slots wtype slot := by
  have mine (timers : List Timer) : timer ∈ mine timer.id timers ↔ timer ∈ timers := by
    simp [TimerWheelView.mine]
  simp only [World.live, TimerMgr.timers, mem_append, Wheel.timers, Buckets.mem_items, view, mine]
  constructor
  · rintro (listed | (⟨slot, bound, member⟩ | ⟨slot, bound, member⟩) | ⟨slot, bound, member⟩)
    · exact .inl listed
    · exact .inr ⟨.sec, slot, bound, member⟩
    · exact .inr ⟨.hour, slot, bound, member⟩
    · exact .inr ⟨.day, slot, bound, member⟩
  · rintro (listed | ⟨wtype, slot, bound, member⟩)
    · exact .inl listed
    · cases wtype with
      | sec => exact .inr (.inl (.inl ⟨slot, bound, member⟩))
      | hour => exact .inr (.inl (.inr ⟨slot, bound, member⟩))
      | day => exact .inr (.inr ⟨slot, bound, member⟩)

theorem At.of_pending {phase : Phase} {rest : List Timer}
    (place : At base q turns v phase) (pending : v.pending = timer :: rest) :
    phase = .armed (base + q) ∧ v.named ∧ v.slots = (fun _ _ => []) ∧ rest = [] ∧
      timer.expire = base + q ∧ Periodic timer := by
  cases place with
  | due named slots only own expires periodic =>
    obtain ⟨rfl, rfl⟩ := List.cons.inj (pending.symm.trans only)
    exact ⟨rfl, named, slots, rfl, expires, periodic⟩
  | waits named sits => exact absurd (pending.symm.trans sits.pending) (cons_ne_nil _ _)
  | new _ _ none | stopped _ _ none | runs _ _ none =>
    exact absurd (pending.symm.trans none) (cons_ne_nil _ _)

theorem At.of_own {phase : Phase} (place : At base q turns v phase) (own : v.own = [timer]) :
    phase = .called (base + q) ∧ v.named ∧ v.slots = (fun _ _ => []) ∧ v.pending = [] ∧
      Periodic timer := by
  cases place with
  | runs named slots pending running periodic =>
    obtain ⟨rfl, -⟩ := List.cons.inj (own.symm.trans running)
    exact ⟨rfl, named, slots, pending, periodic⟩
  | waits named sits => exact absurd (own.symm.trans sits.own) (cons_ne_nil _ _)
  | new _ _ _ none | stopped _ _ _ none | due _ _ _ none =>
    exact absurd (own.symm.trans none) (cons_ne_nil _ _)

end Placing

section Located

variable {id : Nat} {world : World} {timer : Timer}

theorem mine_id {timers : List Timer} (member : timer ∈ mine id timers) : timer.id = id := by
  simpa [mine] using (mem_filter.mp member).2

theorem own_current (own : (view id world).own = [timer]) :
    world.current = some timer ∧ timer.id = id := by
  have member : timer ∈ (view id world).own := by
    rw [own]
    exact mem_singleton_self timer
  refine ⟨?_, mine_id member⟩
  exact Option.mem_toList.mp (mem_filter.mp member).1

theorem Sits.live {last n e final i : Nat} {turns : WheelType → Nat}
    (sits : Sits last n e final timer i turns (view id world)) :
    timer.id = id ∧ timer ∈ World.live world := by
  obtain ⟨wtype, slot, only, rests⟩ := sits.slot
  have member : timer ∈ (view id world).slots wtype slot := by
    rw [only, onlyAt, if_pos ⟨rfl, rfl⟩]
    exact mem_singleton_self timer
  obtain rfl := mine_id member
  exact ⟨rfl, mem_live.mpr (.inr ⟨wtype, slot, rests_inside rests, member⟩)⟩

theorem unregister_unlinks (own : (view id world).own = []) :
    chkTimerUnregister world id = chkTimerUnregister.unlinkTimer world id := by
  unfold chkTimerUnregister
  cases running : world.current with
  | none => rfl
  | some timer =>
    dsimp only
    rw [if_neg]
    intro same
    rw [view, running] at own
    exact absurd ((mine_own same).symm.trans own) (cons_ne_nil _ _)

theorem unregister_absent (slots : (view id world).slots = fun _ _ => [])
    (pending : (view id world).pending = []) (own : (view id world).own = []) :
    chkTimerUnregister world id = world := by
  rw [unregister_unlinks own]
  unfold chkTimerUnregister.unlinkTimer
  rw [if_neg]
  intro found
  obtain ⟨timer, live, same⟩ := any_eq_true.mp found
  obtain rfl := of_decide_eq_true same
  rcases mem_live.mp live with listed | ⟨wtype, slot, -, member⟩
  · rw [pending] at listed
    nomatch listed
  · rw [slots] at member
    nomatch member

theorem unregister_linked (own : (view timer.id world).own = []) (live : timer ∈ World.live world) :
    view timer.id (chkTimerUnregister world timer.id) =
      { view timer.id world with
        slots := fun _ _ => []
        pending := []
        story := .destroy timer.id :: story timer.id world.trace } := by
  rw [unregister_unlinks own]
  exact unlink_own (any_eq_true.mpr ⟨timer, live, decide_eq_true rfl⟩)

theorem unregister_running (own : (view id world).own = [timer]) :
    view id (chkTimerUnregister world id) =
      { view id world with own := [{ timer with releasing := true }] } := by
  obtain ⟨running, rfl⟩ := own_current own
  unfold chkTimerUnregister
  rw [running]
  dsimp only
  rw [if_pos rfl]
  dsimp only [view]
  congr 1
  exact mine_own rfl

end Located

section Moving

variable {withdrawn : Nat × Nat → Prop} {base q : Nat} {turns : WheelType → Nat} {world : World}

theorem clamp_timeout_range (ms : Nat) : 0 < clampTimeout ms ∧ clampTimeout ms ≤ maxTimeout := by
  unfold clampTimeout maxTimeout
  split_ifs <;> omega

variable (sound : Sound withdrawn base q turns world)

include sound

theorem register_sound (ms now : Nat) (clean : Clean (chkTimerRegister world ms now).trace) :
    Inside (chkTimerRegister world ms now).trace ∧
      ∃ phase, Account withdrawn base q turns world.created
        (view world.created (chkTimerRegister world ms now)) phase := by
  obtain ⟨positive, short⟩ := clamp_timeout_range ms
  have allowed : Admissible (.register world.created world.mgr.lasttick now (clampTimeout ms)) := by
    apply clean
    unfold chkTimerRegister
    rw [sound.started, if_pos rfl]
    exact (reg_suffix _ _ _).subset (mem_cons_of_mem _ (mem_cons_self ..))
  obtain ⟨behind, lead, below⟩ := allowed
  rw [sound.tick] at behind lead
  obtain ⟨n, total⟩ : ∃ n, base + n = now + clampTimeout ms :=
    ⟨now + clampTimeout ms - base, by omega⟩
  have expire : calExpire now (clampTimeout ms) = base + n := by
    unfold calExpire
    omega
  unfold maxTimeout at short
  constructor
  · unfold chkTimerRegister
    rw [sound.started, if_pos rfl]
    refine reg_slots (by exact sound.clock) ?_ ?_
      (by exact log_inside (log_inside sound.inside trivial) trivial)
    · dsimp only
      rw [expire, sound.tick]
      omega
    · dsimp only
      rw [expire, sound.tick]
      omega
  · obtain ⟨phase, place, told, past⟩ := sound.accounts world.created
    cases place with
    | new unnamed slots pending own =>
      have near : Near base n q := ⟨by omega, by omega, by omega⟩
      rw [register_own sound.started, expire, sound.tick]
      refine ⟨_, .waits trivial (push_waits (by exact slots) (by exact pending) (by exact own)
        (by exact sound.clock) near (by omega) (by omega) _) near (by omega) ?_ ?_,
        .first _ told, past⟩
      · rfl
      · exact clamp_timeout_range ms
    | waits named | due named | runs named | stopped named =>
      exact absurd named (Nat.lt_irrefl _)

theorem unregister_account (id : Nat) (covers : Covers withdrawn [(world, .unregister id)]) :
    ∃ phase, Account withdrawn base q turns id (view id (chkTimerUnregister world id)) phase := by
  obtain ⟨phase, place, told, past⟩ := sound.accounts id
  have dropped {timer : Timer} (same : timer.id = id) (live : timer ∈ World.live world) :
      withdrawn (id, timer.expire) :=
    same ▸ covers _ (mem_singleton_self _) timer live (congrArg _ same.symm)
  cases place with
  | new unnamed slots pending own =>
    rw [unregister_absent slots pending own]
    exact ⟨_, .new unnamed slots pending own, told, past⟩
  | stopped named slots pending own =>
    rw [unregister_absent slots pending own]
    exact ⟨_, .stopped named slots pending own, told, past⟩
  | waits named sits near below expires periodic =>
    obtain ⟨rfl, live⟩ := Sits.live sits
    rw [unregister_linked sits.own live]
    exact ⟨_, .stopped named rfl rfl sits.own, .cancel told (expires ▸ dropped rfl live), past⟩
  | due named slots pending own expires periodic =>
    have member := pending ▸ mem_singleton_self _
    obtain rfl := mine_id member
    have live := mem_live.mpr (.inl member)
    rw [unregister_linked own live]
    exact ⟨_, .stopped named rfl rfl own, .cancel told (expires ▸ dropped rfl live), past⟩
  | runs named slots pending own periodic =>
    rw [unregister_running own]
    exact ⟨_, .runs named slots pending rfl periodic, told, past⟩

theorem enter_sound {rest : List Timer} (taken : world.tlist = timer :: rest) :
    Inside (enterCallback (base + q) { world with tlist := rest } timer).trace ∧
      ∃ phase, Account withdrawn base q turns timer.id
        (view timer.id (enterCallback (base + q) { world with tlist := rest } timer)) phase := by
  have head : (view timer.id world).pending = timer :: mine timer.id rest := by
    rw [view, taken]
    simp [mine]
  obtain ⟨phase, place, told, past⟩ := sound.accounts timer.id
  obtain ⟨rfl, named, slots, left, expires, periodic⟩ := place.of_pending head
  rw [enter_own expires]
  refine ⟨?_, _, .runs named slots left rfl periodic, .call told, ?_⟩
  · rw [enterCallback]
    dsimp only
    rw [if_pos expires.symm]
    exact log_inside sound.inside trivial
  intro fired member
  rcases mem_cons.mp member with last | earlier
  · rw [last]
  · exact past fired earlier

theorem leave_sound (runs : world.current = some timer) (ret : Int)
    (clean : Clean (leaveCallback (base + q) ret world timer).trace) :
    Inside (leaveCallback (base + q) ret world timer).trace ∧
      ∃ phase, Account withdrawn base q turns timer.id
        (view timer.id (leaveCallback (base + q) ret world timer)) phase := by
  have running : (view timer.id world).own = [timer] := by
    rw [view, runs]
    exact mine_own rfl
  obtain ⟨phase, place, told, past⟩ := sound.accounts timer.id
  obtain ⟨rfl, named, slots, pending, periodic⟩ := place.of_own running
  by_cases stays : ¬timer.releasing ∧ ret ≥ 0
  · have allowed : Admissible (.rearm timer.id (base + q) (period timer ret) ret) := by
      apply clean
      rw [leave_again _ stays]
      exact (reg_suffix _ _ _).subset (mem_cons_of_mem _ (mem_cons_self ..))
    obtain ⟨short, below⟩ := allowed
    have again : Periodic (rearmed (base + q) ret timer) := by
      obtain ⟨positive, bound⟩ := periodic
      unfold Periodic rearmed period
      dsimp only
      split_ifs <;> omega
    have positive : 0 < period timer ret := again.1
    have bound : period timer ret ≤ maxTimeout := again.2
    unfold maxTimeout at bound
    have expire : calExpire (base + q) (period timer ret) = base + (q + period timer ret) := by
      unfold calExpire
      omega
    constructor
    · rw [leave_again _ stays]
      refine reg_slots (by exact sound.clock) ?_ ?_
        (log_inside (log_inside sound.inside trivial) trivial)
      · rw [show (rearmed (base + q) ret timer).expire = _ from expire]
        omega
      · rw [show (rearmed (base + q) ret timer).expire = _ from expire]
        omega
    · have near : Near base (q + period timer ret) q := ⟨by omega, by omega, by omega⟩
      rw [leave_own _ stays, expire]
      exact ⟨_, .waits named (push_waits (by exact slots) (by exact pending) rfl
        (by exact sound.clock) near (by omega) (by omega) _) near (by omega) (by exact expire)
        again, .again told (by omega), past⟩
  · rw [leave_gone _ stays]
    refine ⟨?_, _, .stopped named slots pending rfl, .done told, past⟩
    rw [leave_ended _ stays]
    exact log_inside sound.inside trivial

/-- Every move keeps the accounts of all timers. -/
theorem Sound.moved {after : World} (move : Move (base + q) world calls after)
    (covers : Covers withdrawn calls) (clean : Clean after.trace) :
    Sound withdrawn base q turns after := by
  obtain ⟨named, others⟩ := Move.others move sound.started
  have same := others (named + 1) (Nat.succ_ne_self named)
  have accounts (id : Nat) (unchanged : view id after = view id world) :
      ∃ phase, Account withdrawn base q turns id (view id after) phase :=
    unchanged ▸ sound.accounts id
  suffices changed : Inside after.trace ∧
      ∀ id, ∃ phase, Account withdrawn base q turns id (view id after) phase from
    ⟨(show (frame after).1 = (frame world).1 from congrArg View.cursors same) ▸ sound.clock,
      (congrArg View.lasttick same).trans sound.tick,
      (congrArg View.started same).trans sound.started, sound.below, changed.1, changed.2⟩
  cases move with
  | op op =>
    cases op with
    | register ms now =>
      obtain ⟨inside, own⟩ := register_sound sound ms now clean
      refine ⟨inside, fun id => ?_⟩
      by_cases new : id = world.created
      · exact new ▸ own
      · exact accounts id (register_other sound.started new ms now)
    | unregister named =>
      constructor
      · have grown : (chkTimerUnregister world named).trace = world.trace ∨
            (chkTimerUnregister world named).trace = .destroy named :: world.trace := by
          unfold chkTimerUnregister chkTimerUnregister.unlinkTimer
          split <;> split_ifs <;> simp [World.log]
        rcases grown with same | destroyed
        · exact same ▸ sound.inside
        · exact destroyed ▸ log_inside sound.inside trivial
      · intro id
        by_cases own : id = named
        · exact own ▸ unregister_account sound named covers
        · exact accounts id (unregister_other (Ne.symm own))
  | @enter timer rest taken idle =>
    obtain ⟨inside, entered⟩ := enter_sound sound taken
    refine ⟨inside, fun id => ?_⟩
    by_cases own : id = timer.id
    · exact own ▸ entered
    · exact accounts id (enter_other taken idle (Ne.symm own) _)
  | @leave timer ret runs =>
    obtain ⟨inside, left⟩ := leave_sound sound runs ret clean
    refine ⟨inside, fun id => ?_⟩
    by_cases own : id = timer.id
    · exact own ▸ left
    · exact accounts id (leave_other runs (Ne.symm own) _ ret)

end Moving

/-! ## What becomes of an unregistration -/

/-- A registered timer that was not destroyed when it was unregistered has been destroyed, and
nothing else was told about it in between. -/
def Ended (trace : List Event) (call : Call) : Prop :=
  call.1.trace <:+ trace ∧ ∀ id, call.2 = .unregister id → id < call.1.created →
    .destroy id ∉ call.1.trace → story id trace = .destroy id :: story id call.1.trace

/-- The timer is unregistered in its own callback, which has not returned. -/
def Marked (world : World) (call : Call) : Prop :=
  ∃ id timer, call.2 = .unregister id ∧ call.1.trace <:+ world.trace ∧
    (view id world).own = [timer] ∧ timer.releasing = true ∧
    story id world.trace = story id call.1.trace

section Endings

variable {withdrawn : Nat × Nat → Prop} {base q : Nat} {turns : WheelType → Nat}
  {world after : World} {call : Call}

theorem Ended.later {newer : List Event} (ended : Ended older call) (grown : older <:+ newer)
    (histories : ∀ id, ∃ phase, History withdrawn id phase (story id newer)) :
    Ended newer call := by
  refine ⟨ended.1.trans grown, fun id cancels registered alive => ?_⟩
  have reached : story id older <:+ story id newer := grown.filter _
  rw [ended.2 id cancels registered alive] at reached
  obtain ⟨phase, history⟩ := histories id
  exact history.ended reached

theorem Sound.histories (sound : Sound withdrawn base q turns world) (id : Nat) :
    ∃ phase, History withdrawn id phase (story id world.trace) := by
  obtain ⟨phase, account⟩ := sound.accounts id
  exact ⟨phase, account.told⟩

theorem unregister_ends (sound : Sound withdrawn base q turns world) (id : Nat) :
    Ended (chkTimerUnregister world id).trace (world, .unregister id) ∨
      Marked (chkTimerUnregister world id) (world, .unregister id) := by
  have grown := unregister_suffix world id
  have ends (destroyed : (view id (chkTimerUnregister world id)).story =
      .destroy id :: story id world.trace) :
      Ended (chkTimerUnregister world id).trace (world, .unregister id) := by
    refine ⟨grown, fun other cancels _ _ => ?_⟩
    obtain rfl : id = other := by injection cancels
    exact destroyed
  obtain ⟨phase, place, told, past⟩ := sound.accounts id
  cases place with
  | new unnamed =>
    refine .inl ⟨grown, fun other cancels registered _ => ?_⟩
    obtain rfl : id = other := by injection cancels
    exact absurd registered unnamed
  | stopped named =>
    refine .inl ⟨grown, fun other cancels _ alive => ?_⟩
    obtain rfl : id = other := by injection cancels
    exact absurd (mem_filter.mp told.gone).1 alive
  | waits named sits =>
    obtain ⟨rfl, live⟩ := Sits.live sits
    exact .inl (ends (by rw [unregister_linked sits.own live]))
  | due named slots pending own =>
    have member := pending ▸ mem_singleton_self _
    obtain rfl := mine_id member
    exact .inl (ends (by rw [unregister_linked own (mem_live.mpr (.inl member))]))
  | runs named slots pending own =>
    have marked := unregister_running own
    exact .inr ⟨id, _, rfl, grown, congrArg View.own marked, rfl, congrArg View.story marked⟩

theorem Marked.moved (sound : Sound withdrawn base q turns world) (marked : Marked world call)
    (move : Move (base + q) world calls after) : Ended after.trace call ∨ Marked after call := by
  obtain ⟨id, timer, cancels, grown, own, releasing, told⟩ := marked
  have later := grown.trans move.suffix
  have stays (same : view id after = view id world) : Marked after call :=
    ⟨id, timer, cancels, later, same ▸ own, releasing, (congrArg View.story same).trans told⟩
  obtain ⟨running, rfl⟩ := own_current own
  cases move with
  | op op =>
    cases op with
    | register ms now =>
      have older : timer.id ≠ world.created := by
        obtain ⟨phase, place, -, -⟩ := sound.accounts timer.id
        exact Nat.ne_of_lt (place.of_own own).2.1
      exact .inr (stays (register_other sound.started older ms now))
    | unregister named =>
      by_cases same : named = timer.id
      · subst same
        have again := unregister_running own
        exact .inr ⟨timer.id, _, cancels, later, congrArg View.own again, rfl,
          (congrArg View.story again).trans told⟩
      · exact .inr (stays (unregister_other same))
  | enter taken idle =>
    rw [idle] at running
    nomatch running
  | leave ret runs =>
    obtain rfl := Option.some.inj (running.symm.trans runs)
    refine .inl ⟨later, fun id same _ _ => ?_⟩
    obtain rfl : timer.id = id := by
      rw [cancels] at same
      injection same
    rw [← told]
    exact congrArg View.story (leave_gone (base + q) (fun both => both.1 releasing))

/-- What the moves of a tick keep, and what has become of the unregistrations in them. -/
theorem Moves.sound (moves : Moves (base + q) world calls after)
    (sound : Sound withdrawn base q turns world) (covers : Covers withdrawn calls)
    (clean : Clean after.trace) :
    Sound withdrawn base q turns after ∧
      ∀ call ∈ calls, Ended after.trace call ∨ Marked after call := by
  induction moves with
  | none => exact ⟨sound, nofun⟩
  | @next middle after calls more moves move ih =>
    obtain ⟨before, ends⟩ := ih (forall_mem_append.mp covers).1
      (clean_of_suffix clean move.suffix)
    have now := before.moved move (forall_mem_append.mp covers).2
      clean
    refine ⟨now, fun call member => ?_⟩
    rcases mem_append.mp member with earlier | last
    · rcases ends call earlier with ended | marked
      · exact .inl (ended.later move.suffix now.histories)
      · exact marked.moved before move
    · cases move with
      | op op =>
        obtain rfl := mem_singleton.mp last
        cases op with
        | register ms time => exact .inl ⟨register_suffix middle ms time, nofun⟩
        | unregister id => exact unregister_ends before id
      | _ => nomatch last

end Endings

/-! ## Ticks -/

structure Resting (withdrawn : Nat × Nat → Prop) (base q : Nat) (turns : WheelType → Nat)
    (world : World) : Prop where
  sound : Sound withdrawn base q turns world
  settled : Settled q turns
  list : world.tlist = []
  idle : world.current = none

section Ticks

variable {withdrawn : Nat × Nat → Prop} {base q : Nat} {turns : WheelType → Nat} {world : World}

theorem begin_sound (resting : Resting withdrawn base q turns world)
    (below : base + (q + 1) < 2 ^ 64) : Sound withdrawn base (q + 1) turns (beginTick world) := by
  obtain ⟨sound, settled, list, idle⟩ := resting
  refine ⟨(begin_clock sound.clock settled).1, ?_, sound.started, below, sound.inside, fun id => ?_⟩
  · have tick : (beginTick world).mgr.lasttick = incLasttick world.mgr.lasttick := rfl
    rw [tick, sound.tick, incLasttick]
    omega
  · obtain ⟨phase, place, told, past⟩ := sound.accounts id
    have sec : (view id world).cursors .sec = secCursor (0 + q) :=
      (Nat.zero_add q).symm ▸ sound.clock.sec
    have later : ∀ fired ∈ firings (view id world).story, fired.2 ≤ base + (q + 1) :=
      fun fired member => (past fired member).trans (Nat.le_succ _)
    have nothing (slots : (view id world).slots = fun _ _ => []) :
        (view id world).tick.slots = (fun _ _ => []) ∧ (view id world).tick.pending = [] :=
      ⟨turn_empty (by exact slots) .sec, by rw [tick_pending sec, slots]⟩
    rw [begin_view]
    cases place with
    | new unnamed slots pending own =>
      exact ⟨_, .new unnamed (nothing slots).1 (nothing slots).2 own, told, later⟩
    | stopped named slots pending own =>
      exact ⟨_, .stopped named (nothing slots).1 (nothing slots).2 own, told, later⟩
    | @waits n timer named sits near under expires periodic =>
      by_cases now : q + 1 = n
      · subst now
        obtain ⟨due, empty⟩ := sits.due sec ((Nat.zero_add q).symm ▸ settled) rfl
        exact ⟨_, .due named empty due sits.own expires periodic, told, later⟩
      · exact ⟨_, .waits named (sits.waits sec now) (near.later (Nat.le_succ q)) under expires
          periodic, told, later⟩
    | due named slots pending =>
      have none : (view id world).pending = [] := congrArg (mine id) list
      exact absurd (pending.symm.trans none) (cons_ne_nil _ _)
    | runs named slots pending own =>
      obtain ⟨running, -⟩ := own_current own
      rw [idle] at running
      nomatch running

theorem cascade_inside {due : List Timer} (clock : Clock q turns (frame world).1)
    (each : ∀ timer ∈ due, tick < timer.expire ∧ timer.expire ≤ tick + 90000000)
    (inside : Inside world.trace) : Inside (cascade tick world due).trace := by
  induction due generalizing world with
  | nil => exact inside
  | cons timer due ih =>
    obtain ⟨later, near⟩ := each timer (mem_cons_self ..)
    rw [cascade_cons tick timer due inside.intact]
    exact ih ((reg_frame world timer tick).symm ▸ clock)
      (forall_mem_cons.mp each).2
      (reg_slots clock later near inside)

theorem Sound.linked (sound : Sound withdrawn base q turns world)
    {slot : Nat} (member : timer ∈ (world.mgr.wheels wtype).tlist slot) :
    base + q < timer.expire ∧ timer.expire ≤ base + q + 90000000 := by
  have sees : timer ∈ (view timer.id world).slots wtype slot :=
    mem_filter.mpr ⟨member, decide_eq_true rfl⟩
  obtain ⟨phase, place, told, past⟩ := sound.accounts timer.id
  cases place with
  | @waits n other named sits near under expires periodic =>
    obtain ⟨which, place, only, -⟩ := sits.slot
    rw [only, onlyAt] at sees
    split_ifs at sees
    · obtain rfl := mem_singleton.mp sees
      have ahead := sits.ahead ((Nat.zero_add q).symm ▸ sound.clock)
      have reach := near.reach
      omega
    · cases sees
  | new unnamed slots | stopped named slots | due named slots | runs named slots =>
    rw [slots] at sees
    cases sees

theorem upper_sound (script : Script) (upper : wtype ≠ .sec)
    (falls : q = visit wtype (turns wtype + 1))
    (after : Clock q (Function.update turns wtype (turns wtype + 1))
      (frame (fireWheel script wtype (base + q) world)).1)
    (sound : Sound withdrawn base q turns world) :
    Sound withdrawn base q (Function.update turns wtype (turns wtype + 1))
      (fireWheel script wtype (base + q) world) := by
  obtain ⟨quiet, others⟩ := turned_quiet script upper (base + q) world
  have tick : (base + q) % 2 ^ 64 = base + q := Nat.mod_eq_of_lt sound.below
  have inside : Inside (fireWheel script wtype (base + q) world).trace := by
    have clock := after
    rw [fire_wheel_upper upper, cascade_frame] at clock
    rw [fire_wheel_upper upper]
    exact cascade_inside clock (fun timer member => sound.linked member) sound.inside
  refine ⟨after, (congrArg Prod.fst others).trans sound.tick,
    (congrArg (·.2.1) others).trans sound.started, sound.below, inside, fun id => ?_⟩
  · obtain ⟨phase, place, told, past⟩ := sound.accounts id
    have created : (fireWheel script wtype (base + q) world).created = world.created :=
      congrArg (·.2.2.2.2) others
    have story : (view id (fireWheel script wtype (base + q) world)).story =
        (view id world).story :=
      quiet.story id
    cases place with
    | @waits n timer old sits near under expires periodic =>
      obtain ⟨rfl, -⟩ := Sits.live sits
      have turned := (Sits.turned script upper sits ((Nat.zero_add q).symm ▸ sound.clock)
        (by rwa [Nat.zero_add, tick]) (by rwa [Nat.zero_add]) near
        (by rw [expires, calExpire, Nat.mod_eq_of_lt under]) (sound.inside _)).2
      rw [tick] at turned
      replace turned := turned inside.intact
      refine ⟨_, .waits (old.trans_eq created.symm) turned near under expires periodic, ?_, ?_⟩
      · exact story ▸ told
      · exact story ▸ past
    | new unnamed slots pending own =>
      rw [upper_empty script _ upper slots]
      exact ⟨_, .new unnamed (turn_empty slots wtype) pending own, told, past⟩
    | stopped old slots pending own =>
      rw [upper_empty script _ upper slots]
      exact ⟨_, .stopped old (turn_empty slots wtype) pending own, told, past⟩
    | due old slots pending own expires periodic =>
      rw [upper_empty script _ upper slots]
      exact ⟨_, .due old (turn_empty slots wtype) pending own expires periodic, told, past⟩
    | runs old slots pending own periodic =>
      rw [upper_empty script _ upper slots]
      exact ⟨_, .runs old (turn_empty slots wtype) pending own periodic, told, past⟩

/-- One tick: every timer whose expiry it is has been called. -/
theorem fire_tick_resting (script : Script) (resting : Resting withdrawn base q turns world)
    (below : base + (q + 1) < 2 ^ 64) (covers : Covers withdrawn (fireTickCalls script world))
    (clean : Clean (fireTick script world).trace) :
    (∃ now, Resting withdrawn base (q + 1) now (fireTick script world)) ∧
      ∀ call ∈ fireTickCalls script world, Ended (fireTick script world).trace call := by
  have begun := begin_sound resting below
  obtain ⟨clock, behind⟩ := begin_clock resting.sound.clock resting.settled
  have tick : incLasttick world.mgr.lasttick = base + (q + 1) := begun.tick
  obtain ⟨looped, moves, rests, shape⟩ := fire_tick_moves script resting.idle
  rw [tick] at moves shape
  obtain ⟨-, same⟩ := upper_quiet script (base + (q + 1)) looped
  have suffix := upper_suffix script (base + (q + 1)) looped
  rw [shape] at clean ⊢
  obtain ⟨sound, ends⟩ := Moves.sound moves begun covers (clean_of_suffix clean suffix)
  obtain ⟨ended, emptied⟩ := rests.resolve_left (by simp [sound.inside.intact])
  obtain ⟨now, settled, -, after⟩ := upper_turns script (base + (q + 1)) sound.clock behind sound
    fun turns world wtype upper _ _ falls after sound => upper_sound script upper falls after sound
  refine ⟨⟨now, after, settled after.inside.intact, (congrArg (·.2.2.1) same).trans emptied,
    (congrArg (·.2.2.2.1) same).trans ended⟩, fun call member => ?_⟩
  rcases ends call member with stopped | ⟨id, timer, -, -, own, -⟩
  · exact stopped.later suffix after.histories
  · exact absurd ((own_current own).1.symm.trans ended) (Option.some_ne_none timer)

theorem tick_loop_succ (script : Script) {now : Nat} (intact : world.crashed = false)
    (apart : world.mgr.lasttick ≠ now) (fuel : Nat) :
    tickLoop script now (fuel + 1) world = tickLoop script now fuel (fireTick script world) := by
  rw [tickLoop, if_neg (by simp [intact, apart]), fireTick]

theorem tick_loop_calls_succ (script : Script) {now : Nat} (intact : world.crashed = false)
    (apart : world.mgr.lasttick ≠ now) (fuel : Nat) : tickLoopCalls script now (fuel + 1) world =
      fireTickCalls script world ++ tickLoopCalls script now fuel (fireTick script world) := by
  rw [tickLoopCalls, if_neg (by simp [intact, apart]), fireTickCalls, fireTick]

theorem tick_loop_resting (script : Script) (fuel : Nat) {now : Nat}
    (reaches : now = base + (q + fuel)) (resting : Resting withdrawn base q turns world)
    (below : now < 2 ^ 64) (covers : Covers withdrawn (tickLoopCalls script now fuel world))
    (clean : Clean (tickLoop script now fuel world).trace) :
    (∃ q turns, Resting withdrawn base q turns (tickLoop script now fuel world)) ∧
      ∀ call ∈ tickLoopCalls script now fuel world,
        Ended (tickLoop script now fuel world).trace call := by
  induction fuel generalizing q turns world with
  | zero => exact ⟨⟨q, turns, resting⟩, nofun⟩
  | succ fuel ih =>
    have apart : world.mgr.lasttick ≠ now := by
      rw [resting.sound.tick]
      omega
    have intact := resting.sound.inside.intact
    rw [tick_loop_succ script intact apart] at clean ⊢
    rw [tick_loop_calls_succ script intact apart] at covers ⊢
    have suffix := (tick_loop_idle script now fuel (fire_tick_idle script resting.idle).1).2
    obtain ⟨⟨turns, next⟩, ends⟩ := fire_tick_resting script resting (by omega)
      (forall_mem_append.mp covers).1 (clean_of_suffix clean suffix)
    obtain ⟨⟨q, last, rests⟩, later⟩ := ih (by omega) next
      (forall_mem_append.mp covers).2 clean
    refine ⟨⟨q, last, rests⟩, fun call member => ?_⟩
    rcases mem_append.mp member with first | rest
    · exact (ends call first).later suffix rests.sound.histories
    · exact later call rest

theorem tick_resting (script : Script) (now : Nat) (resting : Resting withdrawn base q turns world)
    (covers : Covers withdrawn (tickCalls script world now))
    (clean : Clean (chkTimerTick script world now).trace) :
    (∃ q turns, Resting withdrawn base q turns (chkTimerTick script world now)) ∧
      ∀ call ∈ tickCalls script world now, Ended (chkTimerTick script world now).trace call := by
  obtain ⟨sound, settled, list, idle⟩ := resting
  have tick := sound.tick
  have runs : world.mgr.ptrtick = true ∧ world.crashed = false :=
    ⟨sound.started, sound.inside.intact⟩
  rw [chkTimerTick, if_pos runs] at clean ⊢
  rw [tickCalls, if_pos runs] at covers ⊢
  generalize turnsLeft : (now + 2 ^ 64 - world.mgr.lasttick) % 2 ^ 64 = fuel at *
  have logged : Resting withdrawn base q turns (world.log (.tick world.mgr.lasttick now)) := by
    refine ⟨{ sound with inside := log_inside sound.inside trivial, accounts := fun id => ?_ },
      settled, list, idle⟩
    rw [log_other (by simp [about, subject])]
    exact sound.accounts id
  have allowed : Admissible (.tick world.mgr.lasttick now) := by
    apply clean
    apply (tick_loop_idle script now fuel (.inr logged.idle)).2.subset
    exact mem_cons_self ..
  obtain ⟨behind, below⟩ := allowed
  exact tick_loop_resting script fuel (by omega) logged below covers clean

theorem op_idle (op : TimerOp) (idle : world.current = none) : (runOp world op).current = none := by
  cases op with
  | register ms now =>
    rw [runOp, chkTimerRegister]
    exact (reg_grows _ _ _).2.1.trans idle
  | unregister id =>
    rw [runOp, chkTimerUnregister, idle]
    unfold chkTimerUnregister.unlinkTimer
    split_ifs <;> exact idle

theorem op_resting (op : TimerOp) (resting : Resting withdrawn base q turns world)
    (covers : Covers withdrawn [(world, op)]) (clean : Clean (runOp world op).trace) :
    Resting withdrawn base q turns (runOp world op) ∧ Ended (runOp world op).trace (world, op) := by
  have move : Move (base + q) world [(world, op)] (runOp world op) := .op world op
  obtain ⟨sound, ends⟩ := Moves.sound move.moves resting.sound covers clean
  have list : (runOp world op).tlist = [] := by
    apply length_eq_zero_iff.mp
    apply Nat.le_zero.mp
    exact move.tlist.trans (by rw [resting.list]; exact le_rfl)
  have idle := op_idle op resting.idle
  refine ⟨⟨sound, resting.settled, list, idle⟩, ?_⟩
  rcases ends _ (mem_singleton_self _) with stopped | ⟨id, timer, -, -, own, -⟩
  · exact stopped
  · exact absurd ((own_current own).1.symm.trans idle) (Option.some_ne_none timer)

end Ticks

/-! ## Runs -/

def startedAt (now : Nat) : World :=
  { World.init with mgr := { chkTimermgrInit with ptrtick := true, lasttick := now } }

def Reached (withdrawn : Nat × Nat → Prop) (world : World) : Prop :=
  world = World.init ∨ ∃ base q turns, Resting withdrawn base q turns world

section Runs

variable {withdrawn : Nat × Nat → Prop}

theorem started_at_resting (now : Nat) (below : now < 2 ^ 64) :
    Resting withdrawn now 0 (fun _ => 0) (startedAt now) := by
  refine ⟨⟨⟨rfl, fun wtype upper => ?_, le_rfl, Nat.zero_le _, fun wtype _ => Nat.zero_le _⟩,
    rfl, rfl, below, nofun, fun id => ?_⟩, ?_, rfl, rfl⟩
  · cases wtype with
    | sec => exact absurd rfl upper
    | _ => rfl
  · exact ⟨.new, .new (Nat.not_lt_zero id) rfl rfl rfl, .new, nofun⟩
  · intro wtype upper
    cases wtype with
    | sec => exact absurd rfl upper
    | _ => decide

theorem init_unregister (id : Nat) : chkTimerUnregister World.init id = World.init :=
  unregister_absent rfl rfl rfl

theorem Reached.histories (reached : Reached withdrawn world) (id : Nat) :
    ∃ phase, History withdrawn id phase (story id world.trace) := by
  rcases reached with rfl | ⟨base, q, turns, resting⟩
  · exact ⟨.new, .new⟩
  · exact resting.sound.histories id

theorem Reached.inside (reached : Reached withdrawn world) : Inside world.trace := by
  rcases reached with rfl | ⟨base, q, turns, resting⟩
  · exact nofun
  · exact resting.sound.inside

theorem step_op (script : Script) (op : TimerOp) (intact : world.crashed = false) :
    step script world (.op op) = runOp world op ∧
      stepCalls script world (.op op) = [(world, op)] := by
  rw [step, stepCalls, intact]
  exact ⟨rfl, rfl⟩

/-- An operation of the main program. -/
theorem op_reached (op : TimerOp) (reached : Reached withdrawn world)
    (covers : Covers withdrawn [(world, op)]) (clean : Clean (runOp world op).trace) :
    Reached withdrawn (runOp world op) ∧ Ended (runOp world op).trace (world, op) := by
  rcases reached with rfl | ⟨base, q, turns, resting⟩
  · cases op with
    | unregister id =>
      have same : runOp World.init (.unregister id) = World.init := init_unregister id
      rw [same]
      exact ⟨.inl rfl, suffix_rfl, fun other _ registered =>
        absurd registered (Nat.not_lt_zero other)⟩
    | register ms now =>
      have below : now < 2 ^ 64 := by
        have allowed : Admissible (.register 0 now now (clampTimeout ms)) := by
          apply clean
          exact (reg_suffix _ _ _).subset (mem_cons_of_mem _ (mem_cons_self ..))
        exact Nat.lt_of_le_of_lt (Nat.le_add_right ..) allowed.2.2
      obtain ⟨resting, -⟩ := op_resting (.register ms now) (started_at_resting now below)
        (fun call member timer _ cancels => by cases mem_singleton.mp member; cases cancels)
        clean
      exact ⟨.inr ⟨_, _, _, resting⟩, nil_suffix, fun _ cancels => by cases cancels⟩
  · obtain ⟨next, ended⟩ := op_resting op resting covers clean
    exact ⟨.inr ⟨_, _, _, next⟩, ended⟩

theorem step_reached (script : Script) (move : Step)
    (reached : Reached withdrawn world) (covers : Covers withdrawn (stepCalls script world move))
    (clean : Clean (step script world move).trace) :
    Reached withdrawn (step script world move) ∧
      ∀ call ∈ stepCalls script world move, Ended (step script world move).trace call := by
  cases move with
  | op op =>
    obtain ⟨made, only⟩ := step_op script op reached.inside.intact
    rw [made] at clean ⊢
    rw [only] at covers ⊢
    obtain ⟨next, ended⟩ := op_reached op reached covers clean
    exact ⟨next, fun call member => mem_singleton.mp member ▸ ended⟩
  | tick now =>
    rcases reached with rfl | ⟨base, q, turns, resting⟩
    · exact ⟨.inl rfl, nofun⟩
    · obtain ⟨⟨q, turns, next⟩, ends⟩ := tick_resting script now resting covers clean
      exact ⟨.inr ⟨_, _, _, next⟩, ends⟩

/-- Nothing happens after a fault. -/
theorem step_crashed (script : Script) (move : Step) (crashed : world.crashed = true) :
    step script world move = world := by
  cases move with
  | op op => exact if_pos crashed
  | tick now => exact tick_crashed script now crashed

theorem run_crashed (script : Script) {steps : List Step}
    (crashed : (run script steps).crashed = true) (more : List Step) :
    run script (steps ++ more) = run script steps := by
  have stays (world : World) (crashed : world.crashed = true) :
      more.foldl (step script) world = world := by
    induction more with
    | nil => rfl
    | cons move more ih => rw [foldl_cons, step_crashed script move crashed, ih]
  rw [run, foldl_append]
  exact stays _ crashed

theorem run_snoc (script : Script) (earlier : List Step) (move : Step) :
    run script (earlier ++ [move]) = step script (run script earlier) move := by
  simp [run]

theorem run_calls_snoc (script : Script) (earlier : List Step) (move : Step) :
    runCalls script (earlier ++ [move]) =
      runCalls script earlier ++ stepCalls script (run script earlier) move := by
  have split (steps : List Step) (world : World) : runCallsFrom script world (steps ++ [move]) =
      runCallsFrom script world steps ++ stepCalls script
        (steps.foldl (step script) world) move := by
    induction steps generalizing world with
    | nil => simp [runCallsFrom]
    | cons first rest ih => simp [runCallsFrom, ih]
  exact split earlier World.init

theorem step_idle (script : Script) (move : Step) (idle : Idle world) :
    Idle (step script world move) ∧ world.trace <:+ (step script world move).trace := by
  cases move with
  | op op =>
    rw [step]
    split_ifs with crashed
    · exact ⟨idle, suffix_rfl⟩
    · exact ⟨.inr (op_idle op (idle.resolve_left crashed)), run_op_suffix world op⟩
  | tick now => exact tick_idle script now idle

theorem run_reached (script : Script) (steps : List Step)
    (covers : Covers withdrawn (runCalls script steps)) (clean : Clean (run script steps).trace) :
    Reached withdrawn (run script steps) ∧
      ∀ call ∈ runCalls script steps, Ended (run script steps).trace call := by
  have idle (steps : List Step) : Idle (run script steps) := by
    induction steps using List.reverseRecOn with
    | nil => exact .inr rfl
    | append_singleton earlier move ih =>
      rw [run_snoc]
      exact (step_idle script move ih).1
  induction steps using List.reverseRecOn with
  | nil => exact ⟨.inl rfl, nofun⟩
  | append_singleton earlier move ih =>
    rw [run_snoc] at clean ⊢
    rw [run_calls_snoc] at covers ⊢
    have suffix := (step_idle script move (idle earlier)).2
    obtain ⟨reached, ends⟩ := ih (forall_mem_append.mp covers).1
      (clean_of_suffix clean suffix)
    obtain ⟨next, last⟩ := step_reached script move reached
      (forall_mem_append.mp covers).2 clean
    refine ⟨next, fun call member => ?_⟩
    rcases mem_append.mp member with before | now
    · exact (ends call before).later suffix next.histories
    · exact last call now

end Runs

/-! ## Main result -/

section Lists

variable {withdrawn : Nat × Nat → Prop}

theorem armings_story (id : Nat) (trace : List Event) :
    (armings trace).filter (·.1 = id) = armings (story id trace) := by
  rw [armings, armings, story, filter_filterMap, filterMap_filter]
  congr 1
  funext event
  cases event <;> simp [subject, Option.filter]

theorem firings_story (id : Nat) (trace : List Event) :
    (firings trace).filter (·.1 = id) = firings (story id trace) := by
  rw [firings, firings, story, filter_filterMap, filterMap_filter]
  congr 1
  funext event
  cases event <;> simp [subject, Option.filter]

theorem perm_of_each {left right : List (Nat × Nat)}
    (each : ∀ id, left.filter (·.1 = id) = right.filter (·.1 = id)) : left.Perm right := by
  rw [perm_iff_count]
  intro entry
  have same := congrArg (List.count entry) (each entry.1)
  rwa [count_filter (by simp), count_filter (by simp)] at same

theorem nodup_of_each {entries : List (Nat × Nat)}
    (each : ∀ id, (entries.filter (·.1 = id)).Nodup) : entries.Nodup := by
  rw [nodup_iff_count_le_one]
  intro entry
  have once := nodup_iff_count_le_one.mp (each entry.1) entry
  rwa [count_filter (by simp)] at once

theorem mine_timers (id : Nat) (world : World) : mine id world.mgr.timers =
    Buckets.items 1000 ((view id world).slots .sec) ++
      Buckets.items 3600 ((view id world).slots .hour) ++
        Buckets.items 24 ((view id world).slots .day) := by
  simp only [mine, TimerMgr.timers, Wheel.timers, filter_append, ← Buckets.items_filter]
  rfl

theorem items_only {slot : Nat} (bound : slot < wheelSize wtype) :
    Buckets.items 1000 (onlyAt timer wtype slot .sec) ++
      Buckets.items 3600 (onlyAt timer wtype slot .hour) ++
        Buckets.items 24 (onlyAt timer wtype slot .day) = [timer] := by
  have here : onlyAt timer wtype slot wtype = fun place =>
      if place = slot then [timer] else [] := by
    funext place
    simp [onlyAt]
  have elsewhere (other : WheelType) (apart : other ≠ wtype) :
      onlyAt timer wtype slot other = fun _ => [] := by
    funext place
    simp [onlyAt, apart]
  have single := Buckets.items_single bound timer
  rw [← here] at single
  cases wtype with
  | sec =>
    rw [elsewhere .hour (by decide), elsewhere .day (by decide), Buckets.items_empty,
      Buckets.items_empty, append_nil, append_nil]
    exact single
  | hour =>
    rw [elsewhere .sec (by decide), elsewhere .day (by decide), Buckets.items_empty,
      Buckets.items_empty, append_nil, nil_append]
    exact single
  | day =>
    rw [elsewhere .sec (by decide), elsewhere .hour (by decide), Buckets.items_empty,
      Buckets.items_empty, append_nil, nil_append]
    exact single

/-- Between two ticks: the timers linked are those whose expiry is still to be served. -/
theorem Reached.account (reached : Reached withdrawn world) (id : Nat) :
    ∃ phase, History withdrawn id phase (story id world.trace) ∧
      (mine id world.mgr.timers).map key = waiting id phase ∧
      (∀ armed ∈ waiting id phase, world.mgr.lasttick < armed.2) ∧
      ∀ fired ∈ firings (story id world.trace), fired.2 ≤ world.mgr.lasttick := by
  have none {world : World} (slots : (view id world).slots = fun _ _ => []) :
      (mine id world.mgr.timers).map key = [] := by
    rw [mine_timers, slots, Buckets.items_empty, Buckets.items_empty, Buckets.items_empty]
    rfl
  rcases reached with rfl | ⟨base, q, turns, sound, settled, list, idle⟩
  · exact ⟨.new, .new, none rfl, nofun, nofun⟩
  obtain ⟨phase, place, told, past⟩ := sound.accounts id
  rw [sound.tick]
  cases place with
  | @waits n timer named sits near under expires periodic =>
    refine ⟨_, told, ?_, fun armed member => ?_, past⟩
    · obtain ⟨same, -⟩ := Sits.live sits
      obtain ⟨wtype, slot, only, rests⟩ := sits.slot
      rw [mine_timers, only, items_only (rests_inside rests), waiting, ← same, ← expires]
      rfl
    · obtain rfl := mem_singleton.mp member
      exact Nat.add_lt_add_left (sits.ahead ((Nat.zero_add q).symm ▸ sound.clock)) base
  | due named slots pending =>
    have empty : (view id world).pending = [] := congrArg (mine id) list
    exact absurd (pending.symm.trans empty) (cons_ne_nil _ _)
  | new unnamed slots | stopped named slots | runs named slots =>
    exact ⟨_, told, none slots, nofun, past⟩

theorem Reached.asserted (reached : Reached withdrawn world) {id expire : Nat}
    (member : .callback id tick expire ∈ world.trace) : tick = expire := by
  obtain ⟨phase, history⟩ := reached.histories id
  exact history.asserted (mem_filter.mpr ⟨member, by simp [subject]⟩)

theorem Reached.distinct (reached : Reached withdrawn world) : (armings world.trace).Nodup := by
  apply nodup_of_each
  intro id
  obtain ⟨phase, history⟩ := reached.histories id
  rw [armings_story]
  exact history.distinct.1

end Lists

section Registrations

def registers : TimerOp → Bool
  | .register .. => true
  | .unregister .. => false

def RegistersOnly (script : Script) : Prop :=
  ∀ call, ∀ op ∈ (script call).ops, registers op = true

def stepRegisters : Step → Bool
  | .op op => registers op
  | .tick _ => true

variable {script : Script} (only : RegistersOnly script)

include only

theorem tick_loop_registers (now fuel : Nat) (world : World) :
    ∀ call ∈ tickLoopCalls script now fuel world, registers call.2 = true := by
  induction fuel generalizing world with
  | zero => exact nofun
  | succ fuel ih =>
    intro call member
    by_cases done : world.crashed = true ∨ world.mgr.lasttick = now
    · rw [tickLoopCalls, if_pos done] at member
      nomatch member
    · push Not at done
      rw [tick_loop_calls_succ script (by simpa using done.1) done.2 fuel, fire_tick_calls]
        at member
      rcases mem_append.mp member with first | later
      · exact fire_loop_written only _ _ call first
      · exact ih _ call later

theorem registers_cover (steps : List Step)
    (permitted : ∀ move ∈ steps, stepRegisters move = true) :
    Covers (fun _ => False) (runCalls script steps) := by
  have all (world : World) : ∀ call ∈ runCallsFrom script world steps, registers call.2 = true := by
    induction steps generalizing world with
    | nil => exact nofun
    | cons move rest ih =>
      intro call member
      rcases mem_append.mp member with now | later
      · cases move with
        | op op =>
          rw [stepCalls] at now
          split_ifs at now
          · cases now
          obtain rfl := mem_singleton.mp now
          exact permitted _ (mem_cons_self ..)
        | tick time =>
          rw [stepCalls, tickCalls] at now
          split_ifs at now
          · exact tick_loop_registers only _ _ _ call now
          · nomatch now
      · exact ih (forall_mem_cons.mp permitted).2 _ call later
  intro call made timer _ cancels
  have register := all World.init call made
  rw [cancels] at register
  exact Bool.false_ne_true register

end Registrations

/-- Every run of registrations and ticks, with callbacks that may register
timers and change their period: the assertion in `fire` holds at each callback,
every slot lies inside its wheel, so that the process goes on, no expiry is stored
twice, the callbacks entered are exactly the expiries up to `lasttick`, each once and
at its own tick, and the timers still linked are exactly the later expiries. -/
theorem timer_wheel_exact (script : Script) (steps : List Step)
    (only : RegistersOnly script) (permitted : ∀ move ∈ steps, stepRegisters move = true)
    (clean : Clean (run script steps).trace) :
    (∀ id tick expire, .callback id tick expire ∈ (run script steps).trace → tick = expire) ∧
    (∀ wtype slot, .place wtype slot ∈ (run script steps).trace → slot < wheelSize wtype) ∧
    (∀ id, .fault id ∉ (run script steps).trace) ∧
    (armings (run script steps).trace).Nodup ∧
    (firings (run script steps).trace).Perm
      ((armings (run script steps).trace).filter
        fun armed => armed.2 ≤ (run script steps).mgr.lasttick) ∧
    ((run script steps).mgr.timers.map key).Perm
      ((armings (run script steps).trace).filter
        fun armed => (run script steps).mgr.lasttick < armed.2) := by
  obtain ⟨reached, -⟩ := run_reached script steps (registers_cover only steps permitted) clean
  set world := run script steps
  refine ⟨fun _ _ _ => reached.asserted, fun _ _ => reached.inside _, fun _ => reached.inside _,
    reached.distinct, ?_, ?_⟩
  · apply perm_of_each
    intro id
    obtain ⟨phase, history, -, ahead, past⟩ := reached.account id
    rw [firings_story, filter_comm, armings_story]
    obtain balance | ⟨-, expire, no, -⟩ := history.balance
    · rw [balance, filter_append, filter_eq_nil_iff.mpr, filter_eq_self.mpr]
      · rfl
      · exact fun fired member => decide_eq_true (past fired member)
      · intro armed member
        have later := ahead armed member
        simp only [decide_eq_true_eq]
        omega
    · exact no.elim
  · apply perm_of_each
    intro id
    obtain ⟨phase, history, linked, ahead, past⟩ := reached.account id
    have own : (world.mgr.timers.map key).filter (·.1 = id) =
        (mine id world.mgr.timers).map key := by
      rw [filter_map]
      rfl
    rw [own, linked, filter_comm, armings_story]
    obtain balance | ⟨-, expire, no, -⟩ := history.balance
    · rw [balance, filter_append, filter_eq_self.mpr, filter_eq_nil_iff.mpr]
      · exact (append_nil _).symm
      · intro fired member
        have earlier := past fired member
        simp only [decide_eq_true_eq]
        omega
      · exact fun armed member => decide_eq_true (ahead armed member)
    · exact no.elim

/-- A first timer of period 3 registers a second one from its callback and
changes its own period to 2; both then fire on time. -/
def chainScript : Script := fun call =>
  if call = 0 then { ops := [.register 1 103], ret := 2 } else { ops := [], ret := -1 }

theorem timer_wheel_exact_chain :
    firings (run chainScript [.op (.register 3 100), .tick 104, .tick 106]).trace =
        [(0, 105), (1, 104), (0, 103)] ∧
      (firings (run chainScript [.op (.register 3 100), .tick 104, .tick 106]).trace).Perm
        ((armings (run chainScript [.op (.register 3 100), .tick 104, .tick 106]).trace).filter
          fun armed => armed.2 ≤
            (run chainScript [.op (.register 3 100), .tick 104, .tick 106]).mgr.lasttick) := by
  refine ⟨by decide, (timer_wheel_exact chainScript
    [.op (.register 3 100), .tick 104, .tick 106] ?_ (by decide) (by decide)).2.2.2.2.1⟩
  intro call
  unfold chainScript
  split_ifs <;> decide

end Chuck.TimerWheelRun
