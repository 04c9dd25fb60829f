import Chuck.CoroutineQueueOps
import Chuck.Support.FaultFreeRuns

/-!
# Runs of coroutine queues

Whichever coroutines run, and whatever the other queues do with the link items they
share, every message is delivered once and in order.
-/

namespace Chuck.CoroutineQueueRuns

open Support.FaultFreeRuns Support.OrderedHandoff FifoModel CoroutineQueueModel
open CoroutineScheduling CoroutineQueueOps Function Option

variable {Msg : Type}

/-! ## Runs -/

/-- A coroutine that waits in `pop` is resumed by its queue only. -/
def OwnResumes (s : System Msg) : Event Msg → Prop
  | .resume co => s.waiting co = none
  | _ => True

instance decidableOwnResumes (s : System Msg) : (event : Event Msg) → Decidable (OwnResumes s event)
  | .resume co => inferInstanceAs (Decidable (s.waiting co = none))
  | .push _ _ => isTrue trivial
  | .pop _ => isTrue trivial
  | .close _ => isTrue trivial
  | .create => isTrue trivial
  | .sche => isTrue trivial
  | .park => isTrue trivial
  | .pause => isTrue trivial
  | .finish => isTrue trivial

def Good (s : System Msg) : Prop :=
  ∃ M W, Represents s M W fun q => s.closing = some q

section Steps

variable {s : System Msg} {q : Nat}
variable {W : Nat → List Nat}

variable {M : Nat → List Msg}

theorem represents_good {after : System Msg}
    (rep : Represents after M W fun q => s.closing = some q) (closing : after.closing = s.closing) :
    Good after := by
  refine ⟨M, W, ?_⟩
  rw [closing]
  exact rep

theorem push_good (good : Good s) (q : Nat) (msg : Msg) :
    ∃ after, queuePush s q msg = some after ∧ Good after := by
  obtain ⟨M, W, rep⟩ := good
  obtain ⟨after, M', W', ran, held, closing⟩ := queue_push rep q msg
  exact ⟨after, ran, represents_good held closing⟩

theorem represents_done {waking woken : Nat → Prop} (rep : Represents s M W waking)
    (none : W q = []) (asleep : ¬woken q)
    (others : ∀ other, other ≠ q → (waking other ↔ woken other)) : Represents s M W woken := by
  refine ⟨⟨rep.parked.shape, ?_⟩, rep.active, rep.idle⟩
  intro other
  by_cases same : other = q
  · subst same
    apply ((rep.parked.sound other).done ?_).congr
    · exact ⟨False.elim, asleep⟩
    · rw [desk, none]
      rfl
  · exact (rep.parked.sound other).congr (others other same)

theorem close_main_good (good : Good s) (closing : s.closing = some q) :
    ∃ after, closeMain s q = some after ∧ Good after := by
  obtain ⟨M, W, rep⟩ := good
  obtain ⟨after, W', ran, ⟨held, same⟩ | ⟨rfl, rfl, none⟩⟩ := close_main rep closing
  · exact ⟨after, ran, represents_good held same⟩
  refine ⟨_, ran, M, W', ?_⟩
  have done : Represents s M W' fun other => Option.none = some other := by
    apply represents_done rep none (some_ne_none q).symm
    intro other apart
    rw [closing, Option.some.injEq]
    exact ⟨fun same => absurd same.symm apart, fun same => absurd same.symm nofun⟩
  have shape := done.parked.shape
  exact ⟨⟨{ shape with },
    done.parked.sound⟩, done.active, done.idle⟩

theorem represents_shut (rep : Represents s M W fun q => s.closing = some q)
    (asleep : s.closing ≠ some q) :
    Represents { s with closed := update s.closed q true } M W
      fun other => s.closing = some other ∨ other = q ∧ M q = [] := by
  have shape := rep.parked.shape
  refine ⟨⟨{ shape with }, ?_⟩, rep.active, rep.idle⟩
  intro other
  by_cases same : other = q
  · subst same
    simp only [desk, update_self]
    apply (rep.parked.sound other).close.congr
    constructor
    · exact fun empty => .inr ⟨trivial, empty⟩
    · exact fun wakes => (wakes.resolve_left asleep).2
  · simp only [desk, update_of_ne same]
    apply (rep.parked.sound other).congr
    constructor
    · exact .inl
    · exact fun wakes => wakes.resolve_right fun here => same here.1

theorem represents_congr {waking woken : Nat → Prop} (rep : Represents s M W waking)
    (same : ∀ q, waking q ↔ woken q) : Represents s M W woken :=
  ⟨⟨rep.parked.shape, fun q => (rep.parked.sound q).congr (same q)⟩, rep.active, rep.idle⟩

theorem close_good (good : Good s) (free : s.running = none → s.closing = none) (q : Nat) :
    ∃ after, queueClose s q = some after ∧ Good after := by
  obtain ⟨M, W, rep⟩ := good
  have holds := rep.parked.shape.holds
  rw [queueClose]
  cases closed : s.closed q with
  | true => exact ⟨s, if_pos rfl, M, W, rep⟩
  | false =>
    rw [if_neg Bool.false_ne_true]
    have asleep : s.closing ≠ some q := by
      intro wakes
      have shut := ((rep.parked.sound q).wakes wakes).1
      exact Bool.false_ne_true (closed.symm.trans shut)
    have shut := represents_shut rep asleep
    by_cases empty : M q = []
    · rw [if_pos ((messages_empty holds).mpr empty)]
      by_cases main : s.running = none
      · rw [if_pos main]
        refine close_main_good ⟨M, W, ?_⟩ rfl
        have shape := shut.parked.shape
        have wakes : Represents { s with closed := update s.closed q true } M W
            fun other => some q = some other := by
          apply represents_congr shut
          intro other
          rw [free main, Option.some.injEq]
          constructor
          · rintro (none | here)
            · cases none
            · exact here.1.symm
          · exact fun same => .inr ⟨same.symm, empty⟩
        exact ⟨⟨{ shape with }, wakes.parked.sound⟩, wakes.active, wakes.idle⟩
      · rw [if_neg main]
        have fueled : (W q).length < s.fifos.made + 1 := by
          have bound : (contents M W (.waits q)).length ≤ s.fifos.made := fifo_length holds
          rw [contents, List.length_map] at bound
          exact Nat.lt_succ_of_le bound
        obtain ⟨after, W', ran, held, none, closing⟩ :=
          close_loop _ _ W shut (.inr ⟨rfl, empty⟩) main fueled
        refine ⟨after, ran, M, W', ?_⟩
        rw [closing]
        apply represents_done held none asleep
        intro other apart
        exact ⟨fun wakes => wakes.resolve_right fun here => apart here.1, .inl⟩
    · have full : ¬fifoEmpty s.fifos (.messageQueue q) = true := by
        rw [messages_empty holds]
        exact empty
      rw [if_neg full]
      refine ⟨_, rfl, M, W, represents_congr shut ?_⟩
      intro other
      exact ⟨fun wakes => wakes.resolve_right fun here => empty here.2, .inl⟩

theorem create_good (good : Good s) :
    ∃ after, ((pushReady s s.count none).map fun s => { s with count := s.count + 1 }) =
      some after ∧
      Good after := by
  obtain ⟨M, W, rep⟩ := good
  have shape := rep.parked.shape
  have unready : s.count ∉ s.ready.map Prod.fst := fun listed =>
    Nat.lt_irrefl _ (shape.listed _ listed)
  have outside : s.waiting s.count = none := by
    by_contra waits
    obtain ⟨call, waits⟩ := ne_none_iff_exists'.mp waits
    exact Nat.lt_irrefl _ (shape.inside _ call waits).1
  -- The new coroutine is below the new count only.
  have counted : Parked { s with count := s.count + 1 } M W fun q => s.closing = some q := by
    refine ⟨{ shape with listed := ?_, inside := ?_ }, rep.parked.sound⟩
    · exact fun co listed => Nat.lt_succ_of_lt (shape.listed co listed)
    · intro co call waits
      obtain ⟨below, rest⟩ := shape.inside co call waits
      exact ⟨Nat.lt_succ_of_lt below, rest⟩
  have parked := counted.extend (Nat.lt_succ_self s.count) unready outside none
  rw [pushReady, if_neg ((linked_iff s s.count).not.mpr unready)]
  refine ⟨_, rfl, M, W, parked, ?_, ?_⟩
  · intro co runs
    obtain ⟨free, calls, alive, below⟩ := rep.active co runs
    refine ⟨?_, calls, alive, Nat.lt_succ_of_lt below⟩
    rw [mem_ready_append, not_or]
    exact ⟨free, Nat.ne_of_lt below⟩
  · intro main co listed
    rw [mem_ready_append] at listed
    rcases listed with old | rfl
    · exact rep.idle main co old
    · exact outside

theorem resume_good (good : Good s) {co : Nat} (other : s.running ≠ some co) (below : co < s.count)
    (outside : s.waiting co = none) :
    ∃ after, coroutineResume s co none = some after ∧ Good after := by
  obtain ⟨M, W, rep⟩ := good
  by_cases listed : co ∈ s.ready.map Prod.fst
  · rw [coroutineResume, if_neg other, if_pos ((linked_iff s co).mpr listed), map_some]
    refine ⟨_, rfl, ?_⟩
    by_cases main : s.running = none
    · rw [if_pos main]
      exact represents_good (sche_loop _ _ rep.parked) (sche_loop_closing _ _)
    · rw [if_neg main]
      exact ⟨M, W, rep⟩
  · obtain ⟨after, ran, held, closing, -⟩ := resume_one none rep.active other listed
      (rep.parked.extend below listed outside none)
    exact ⟨after, ran, represents_good held closing⟩

theorem yield_good (parked : Parked s M W fun q => s.closing = some q) : Good (yield s) :=
  represents_good (sche_loop _ _ parked) (sche_loop_closing _ _)

theorem coroutine_step_good (good : Good s) {current : Nat} (runs : s.running = some current)
    (event : Event Msg) (own : OwnResumes s event) :
    ∃ after, coroutineStep s current event = some after ∧ Good after := by
  have busy : s.running = none → s.closing = none := by
    rw [runs]
    exact fun main => absurd main (some_ne_none current)
  cases event with
  | push q msg => exact push_good good q msg
  | pop q =>
    obtain ⟨M, W, rep⟩ := good
    obtain ⟨after, M', W', ran, held, closing⟩ := queue_pop rep q runs
    exact ⟨after, ran, represents_good held closing⟩
  | close q => exact close_good good busy q
  | create => exact create_good good
  | resume co =>
    rw [coroutineStep]
    by_cases none : co = current ∨ s.count ≤ co
    · exact ⟨s, if_pos none, good⟩
    · rw [if_neg none]
      rw [not_or, Nat.not_le] at none
      apply resume_good good _ none.2 own
      rw [runs, ne_eq, Option.some.injEq]
      exact Ne.symm none.1
  | sche => exact ⟨s, rfl, good⟩
  | park =>
    obtain ⟨M, W, rep⟩ := good
    exact ⟨_, rfl, yield_good rep.parked⟩
  | pause =>
    obtain ⟨M, W, rep⟩ := good
    obtain ⟨unready, outside, -, below⟩ := rep.active current runs
    rw [coroutineStep, pushReady, if_neg ((linked_iff s current).not.mpr unready)]
    exact ⟨_, rfl, yield_good (rep.parked.extend below unready outside none)⟩
  | finish =>
    obtain ⟨M, W, rep⟩ := good
    obtain ⟨-, outside, -⟩ := rep.active current runs
    have shape := rep.parked.shape
    refine ⟨_, rfl, yield_good ⟨{ shape with inside := ?_ }, rep.parked.sound⟩⟩
    intro co call waits
    obtain ⟨below, alive, somewhere⟩ := shape.inside co call waits
    have apart : co ≠ current := by
      rintro rfl
      exact some_ne_none _ (waits.symm.trans outside)
    exact ⟨below, (update_of_ne apart _ _).trans alive, somewhere⟩

theorem step_good (good : Good s) (event : Event Msg) (own : OwnResumes s event) :
    ∃ after, step s event = some after ∧ Good after := by
  rw [step]
  cases runs : s.running with
  | some current => exact coroutine_step_good good runs event own
  | none =>
    cases closing : s.closing with
    | some q => exact close_main_good good closing
    | none =>
      cases event with
      | push q msg => exact push_good good q msg
      | close q => exact close_good good (fun _ => closing) q
      | create => exact create_good good
      | resume co =>
        simp only [mainStep]
        by_cases none : s.count ≤ co
        · exact ⟨s, if_pos none, good⟩
        · rw [if_neg none]
          apply resume_good good _ (not_le.mp none) own
          rw [runs]
          exact (some_ne_none co).symm
      | sche =>
        obtain ⟨M, W, rep⟩ := good
        exact ⟨_, rfl, represents_good (sche_loop _ _ rep.parked) (sche_loop_closing _ _)⟩
      | pop q => exact ⟨s, rfl, good⟩
      | park => exact ⟨s, rfl, good⟩
      | pause => exact ⟨s, rfl, good⟩
      | finish => exact ⟨s, rfl, good⟩

theorem new_good : Good (newSystem : System Msg) := by
  refine ⟨fun _ => [], fun _ => [], ⟨⟨?_, ?_, ?_, ?_, ?_, ?_⟩, ?_⟩, ?_, ?_⟩
  · have same : contents (fun _ => ([] : List Msg)) (fun _ => []) = fun _ => [] := by
      funext slot
      cases slot <;> rfl
    rw [same]
    exact empty_holds
  · exact nofun
  · exact fun _ => List.nodup_nil
  · exact List.nodup_nil
  · exact nofun
  · exact fun _ call waits => absurd waits.symm (some_ne_none call)
  · exact fun q => empty_sound.congr ⟨False.elim, fun wakes => absurd wakes.symm (some_ne_none q)⟩
  · exact fun co runs => absurd runs.symm (some_ne_none co)
  · exact nofun

end Steps

/-- The `pop` calls on `q` that got a message: those that returned it, and those whose
coroutine was resumed with it and did not run yet. -/
def delivered (s : System Msg) (q : Nat) : List (Nat × Msg) :=
  messages (s.returned q ++ s.ready.filterMap (dueIn s.waiting q))

def inCallOrder (s : System Msg) (q : Nat) : List Msg :=
  (List.range (s.calls q)).filterMap fun call => (delivered s q).lookup call

/-- In every run the calls of `pop` that get a message get, in their order, the messages
in the order they were pushed before the close; the others are in the queue. No call
returns twice, and one returns nothing only if the queue is closed and all messages are
delivered. Messages and waiting coroutines are never there together. After the close no
coroutine waits, and when the main thread runs again all of them have returned. -/
theorem queue_delivers_in_order {s : System Msg} (reached : Reaches step OwnResumes newSystem s) :
    (∃ M W, Holds s.fifos (contents M W) ∧ ∀ q,
      (M q = [] ∨ W q = []) ∧
      inCallOrder s q ++ M q = s.pushed q ∧
      ((s.returned q).map Prod.fst).Nodup ∧
      (∀ call, (call, none) ∈ s.returned q → s.closed q = true ∧ inCallOrder s q = s.pushed q) ∧
      (s.closed q = true → s.closing ≠ some q → W q = [] ∧
        ∀ co call, s.waiting co = some (q, call) → linked s co = true) ∧
      (s.running = none → delivered s q = messages (s.returned q) ∧
        (s.closed q = true → s.closing ≠ some q → ∀ co call, s.waiting co ≠ some (q, call)))) ∧
    ∀ event, OwnResumes s event → ∃ after, step s event = some after := by
  have carries : Carries step OwnResumes (newSystem : System Msg) Good :=
    ⟨new_good, fun s event good own => step_good good event own⟩
  obtain ⟨M, W, rep⟩ := carries.invariant reached
  constructor
  · refine ⟨M, W, rep.parked.shape.holds, ?_⟩
    intro q
    have sound := rep.parked.sound q
    have split : inCallOrder s q ++ M q = s.pushed q := sound.in_order
    have woken : s.closed q = true → s.closing ≠ some q → W q = [] := by
      intro shut asleep
      exact rep.parked.shape.no_waits (sound.woken shut asleep)
    have released : s.closed q = true → s.closing ≠ some q →
        ∀ co call, s.waiting co = some (q, call) → co ∈ s.ready.map Prod.fst := by
      intro shut asleep co call waits
      apply (rep.parked.shape.inside co _ waits).2.2.resolve_left
      rw [woken shut asleep]
      exact List.not_mem_nil
    refine ⟨?_, split, sound.once, ?_, ?_, ?_⟩
    · exact sound.exclusive.imp_right rep.parked.shape.no_waits
    · intro call member
      obtain ⟨shut, empty⟩ := sound.refused call (List.mem_append_left _ member)
      refine ⟨shut, ?_⟩
      rw [show M q = [] from empty, List.append_nil] at split
      exact split
    · intro shut asleep
      refine ⟨woken shut asleep, ?_⟩
      intro co call waits
      exact (linked_iff s co).mpr (released shut asleep co call waits)
    · intro main
      constructor
      · have none : s.ready.filterMap (dueIn s.waiting q) = [] := by
          apply List.filterMap_eq_nil_iff.mpr
          intro entry member
          rw [dueIn, rep.idle main entry.1 (List.mem_map_of_mem member)]
        rw [delivered, none, List.append_nil]
      · intro shut asleep co call waits
        have outside := rep.idle main co (released shut asleep co call waits)
        exact some_ne_none _ (waits.symm.trans outside)
  · intro event own
    obtain ⟨after, ran, -⟩ := carries.goes_on reached own
    exact ⟨after, ran⟩

/-- Two coroutines wait for queue 0, the main thread pushes 10, the first one is resumed,
pushes 20 for the second and 30 for nobody, and pops twice; the main thread closes. -/
theorem queue_session_in_order :
    ∃ s, run step (newSystem : System Nat) [.create, .create, .sche, .pop 0, .pop 0, .push 0 10,
        .push 0 20, .push 0 30, .pop 0, .pop 0, .park, .close 0, .finish, .finish, .sche] =
        some s ∧ s.returned 0 = [(0, some 10), (2, some 30), (1, some 20), (3, none)] ∧
      s.closed 0 = true ∧ inCallOrder s 0 = s.pushed 0 := by
  have runs : ((run step (newSystem : System Nat) [.create, .create, .sche, .pop 0, .pop 0,
      .push 0 10, .push 0 20, .push 0 30, .pop 0, .pop 0, .park, .close 0, .finish, .finish,
      .sche]).map fun s => s.returned 0) =
      some [(0, some 10), (2, some 30), (1, some 20), (3, none)] := by
    decide +kernel
  obtain ⟨s, ran, returned⟩ := map_eq_some_iff.mp runs
  have reached : Reaches step OwnResumes newSystem s :=
    Reaches.run _ .start (by decide +kernel) ran
  obtain ⟨⟨M, W, -, queues⟩, -⟩ := queue_delivers_in_order reached
  obtain ⟨-, -, -, refused, -⟩ := queues 0
  refine ⟨s, ran, returned, refused 3 ?_⟩
  rw [returned]
  decide

end Chuck.CoroutineQueueRuns
