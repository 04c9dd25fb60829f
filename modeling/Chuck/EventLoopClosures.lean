import Chuck.EventLoopRun

/-!
# Closures of the event loop

Closures run in the order they were posted. `_loop_run` asks the kernel not to wait
while closures are queued, except over epoll in `chk_loop_run`: there the timeout is
always -1, so that closures queued before the run, left over by the limit of a round or
posted by the idle function wait for the next event.
-/

namespace Chuck.EventLoopClosures

open EventLoopModel EventLoopDispatch EventLoopRun List

/-! ## The timeout of the kernel wait -/

inductive Backend where
  | epoll
  | kqueue
  deriving DecidableEq, Repr

inductive Wait where
  | millis (ms : Nat)
  | forever
  deriving DecidableEq, Repr

/-- `once ? ms : -1` as the `int` that `epoll_wait` takes. -/
def epollTimeout (once : Bool) (ms : Nat) (closures : List Nat) : Wait :=
  let ms := if closures.length > 0 then 0 else ms
  if once then if ms < 2 ^ 31 then .millis ms else .forever else .forever

def keventTimeout (once : Bool) (ms : Nat) (closures : List Nat) : Wait :=
  if once || closures.length > 0 then
    if closures.length > 0 then .millis 0 else .millis (ms / 1000 * 1000 + ms % 1000)
  else .forever

def Backend.timeout : Backend → Bool → Nat → List Nat → Wait
  | .epoll => epollTimeout
  | .kqueue => keventTimeout

theorem timeout_zero (backend : Backend) (once : Bool) (ms : Nat) {closures : List Nat}
    (queued : closures ≠ []) (polls : backend = .kqueue ∨ once = true) :
    backend.timeout once ms closures = .millis 0 := by
  have some_ : closures.length > 0 := length_pos_iff.mpr queued
  cases backend with
  | kqueue =>
    rw [Backend.timeout, keventTimeout, if_pos (by simp [some_]), if_pos some_]
  | epoll =>
    have mode := polls.resolve_left nofun
    rw [Backend.timeout, epollTimeout, if_pos some_, mode]
    rfl

/-! ## What ran and what was posted -/

section Accounts

variable {Handle Events Report : Type}

def ranClosures (log : List (Called Handle Events)) : List Nat :=
  log.filterMap fun
    | .closure c => some c
    | _ => none

structure Passed (e after : Loop Handle Events) (ran new : List Nat) : Prop where
  log : ranClosures after.log = ranClosures e.log ++ ran
  posted : after.posted = e.posted ++ new
  queue : ran ++ after.closures = e.closures ++ new

variable {e middle after : Loop Handle Events} {ran new later more : List Nat}

theorem Passed.same (log : after.log = e.log) (posted : after.posted = e.posted)
    (closures : after.closures = e.closures) : Passed e after [] [] := by
  refine ⟨?_, ?_, ?_⟩
  · rw [log, append_nil]
  · rw [posted, append_nil]
  · rw [closures, append_nil, nil_append]

theorem Passed.trans (first : Passed e middle ran new) (second : Passed middle after later more) :
    Passed e after (ran ++ later) (new ++ more) := by
  refine ⟨?_, ?_, ?_⟩
  · rw [second.log, first.log, append_assoc]
  · rw [second.posted, first.posted, append_assoc]
  · rw [append_assoc, second.queue, ← append_assoc, first.queue, append_assoc]

theorem Passed.then (first : Passed e middle ran new) (second : Passed middle after [] more) :
    Passed e after ran (new ++ more) := by
  have both := first.trans second
  rwa [append_nil] at both

variable [DecidableEq Handle]

def postedBy (acts : List (Act Handle)) : List Nat :=
  acts.filterMap fun
    | .postClosure c => some c
    | _ => none

theorem performs_passed (acts : List (Act Handle)) (state : Loop Handle Events × List Handle) :
    Passed state.1 (acts.foldl perform state).1 [] (postedBy acts) := by
  induction acts generalizing state with
  | nil => exact Passed.same rfl rfl rfl
  | cons act acts ih =>
    rw [foldl_cons]
    have rest := ih (perform state act)
    cases act with
    | postClosure c =>
      have here : Passed state.1 (perform state (.postClosure c)).1 [] [c] :=
        ⟨(append_nil _).symm, rfl, rfl⟩
      exact here.then rest
    | watch h =>
      have here : Passed state.1 (perform state (.watch h)).1 [] [] := by
        rw [perform, watchHandle]
        split_ifs <;> exact Passed.same rfl rfl rfl
      exact here.then rest
    | unwatch h =>
      have here : Passed state.1 (perform state (.unwatch h)).1 [] [] := by
        rw [perform, unwatchHandle]
        split_ifs <;> exact Passed.same rfl rfl rfl
      exact here.then rest
    | delLoop =>
      have here : Passed state.1 (perform state .delLoop).1 [] [] := Passed.same rfl rfl rfl
      exact here.then rest

variable (behave : List (Called Handle Events) → List (Act Handle)) (mark : Report → Events)

theorem call_passed (e : Loop Handle Events) (ready : List Handle) (called : Called Handle Events)
    (other : ∀ c, called ≠ .closure c) :
    Passed e (call behave e ready called).1 [] (postedBy (behave (e.log ++ [called]))) := by
  have logged : ranClosures (e.log ++ [called]) = ranClosures e.log := by
    rw [ranClosures, filterMap_append]
    cases called with
    | closure c => exact absurd rfl (other c)
    | _ => exact append_nil _
  have begun : Passed e { e with log := e.log ++ [called] } [] [] := by
    refine ⟨?_, (append_nil _).symm, (append_nil _).symm⟩
    rw [logged, append_nil]
  exact begun.then (performs_passed _ ({ e with log := e.log ++ [called] }, ready))

theorem closure_passed {c : Nat} {rest : List Nat} (first : e.closures = c :: rest) :
    ∃ new, Passed e (call behave { e with closures := rest } [] (.closure c)).1 [c] new := by
  have begun : Passed e { e with closures := rest, log := e.log ++ [.closure c] } [c] [] := by
    refine ⟨?_, (append_nil _).symm, ?_⟩
    · rw [ranClosures, filterMap_append]
      rfl
    · rw [first, append_nil]
      rfl
  exact ⟨_, begun.then (performs_passed _ (_, []))⟩

theorem closures_passed (fuel : Nat) (e : Loop Handle Events) :
    ∃ ran new, Passed e (runClosures behave fuel e) ran new ∧
      ((runClosures behave fuel e).closures = [] ∨ ran.length = fuel) := by
  induction fuel generalizing e with
  | zero => exact ⟨[], [], Passed.same rfl rfl rfl, .inr rfl⟩
  | succ fuel ih =>
    rw [runClosures]
    split
    · rename_i none
      exact ⟨[], [], Passed.same rfl rfl rfl, .inl none⟩
    · rename_i c rest first
      obtain ⟨new, here⟩ := closure_passed behave first
      obtain ⟨ran, more, later, ends⟩ :=
        ih (call behave { e with closures := rest } [] (.closure c)).1
      refine ⟨c :: ran, new ++ more, here.trans later, ends.imp_right ?_⟩
      intro full
      rw [length_cons, full]

/-! ## Iterations -/

theorem dispatch_passed (fuel : Nat) (e : Loop Handle Events) (ready : List Handle) :
    ∃ new, Passed e (dispatch behave fuel e ready) [] new := by
  induction fuel generalizing e ready with
  | zero => exact ⟨[], Passed.same rfl rfl rfl⟩
  | succ fuel ih =>
    cases ready with
    | nil => exact ⟨[], Passed.same rfl rfl rfl⟩
    | cons h ready =>
      let popped := { e with linked := Function.update e.linked h false }
      have here : Passed e popped [] [] := Passed.same rfl rfl rfl
      have called := call_passed behave popped ready (.onEvents h (popped.active h)) nofun
      obtain ⟨new, rest⟩ := ih _ _
      exact ⟨_, (here.then called).then rest⟩

theorem collect_passed (items : List (Item Handle Report)) (e : Loop Handle Events) :
    Passed e (collect mark items e).1.loop [] [] := by
  obtain ⟨kept, -⟩ := fill_keeps mark items
    { loop := { e with inloop := true }, ready := [], ticktimer := false }
  rw [collect, kept]
  exact Passed.same rfl rfl rfl

theorem handled_passed (items : List (Item Handle Report)) (e : Loop Handle Events) :
    ∃ new, Passed e (handled behave mark items e) [] new := by
  have collected := collect_passed mark items e
  rw [handled]
  dsimp only
  split_ifs
  · exact ⟨[], collected⟩
  · obtain ⟨new, rest⟩ := dispatch_passed behave (collect mark items e).1.ready.length
      (collect mark items e).1.loop (collect mark items e).1.ready
    exact ⟨_, collected.then rest⟩

theorem settle_passed (ticktimer : Bool) (e : Loop Handle Events) :
    ∃ new, Passed e (settle behave ticktimer e) [] new := by
  cases ticktimer with
  | false => exact ⟨[], Passed.same rfl rfl rfl⟩
  | true =>
    have ticked := call_passed behave e [] .tick nofun
    have left : Passed (call behave e [] .tick).1 (settle behave true e) [] [] :=
      Passed.same rfl rfl rfl
    exact ⟨_, ticked.then left⟩

theorem loopend_passed (code : LoopError) (e : Loop Handle Events) :
    Passed e (loopend code e).loop [] [] := by
  rw [loopend, Progress.loop]
  split_ifs
  · refine ⟨?_, (append_nil _).symm, (append_nil _).symm⟩
    have none : ranClosures (e.handles.map fun h => (.loopClose h : Called Handle Events)) =
        [] := by
      rw [ranClosures, filterMap_map]
      exact filterMap_eq_nil_iff.mpr fun _ _ => rfl
    rw [finalize, ranClosures, filterMap_append]
    exact congrArg _ none
  · exact Passed.same rfl rfl rfl

theorem finish_passed (once idle : Bool) (e : Loop Handle Events) :
    ∃ ran new, Passed e (finish behave once idle e).loop ran new := by
  obtain ⟨ran, new, closures, -⟩ := closures_passed behave 1025 e
  have idled : ∃ more, Passed (runClosures behave 1025 e)
      (if idle then (call behave (runClosures behave 1025 e) [] .idle).1
        else runClosures behave 1025 e) [] more := by
    split_ifs
    · exact ⟨_, call_passed behave _ [] .idle nofun⟩
    · exact ⟨[], Passed.same rfl rfl rfl⟩
  obtain ⟨more, idled⟩ := idled
  rw [finish]
  cases once with
  | true => exact ⟨ran, _, (closures.then idled).then (loopend_passed .ok _)⟩
  | false => exact ⟨ran, _, closures.then idled⟩

theorem iteration_before (once : Bool) (turn : Turn Handle Report) (e : Loop Handle Events) :
    ∃ middle new, Passed e middle [] new ∧
      (iteration behave mark once turn e = finish behave once turn.idle middle ∨
        ∃ code, iteration behave mark once turn e = loopend code middle) := by
  rw [iteration]
  split
  · exact ⟨e, [], Passed.same rfl rfl rfl, .inr ⟨_, rfl⟩⟩
  · exact ⟨e, [], Passed.same rfl rfl rfl, .inl rfl⟩
  rename_i items _ _
  have collected := collect_passed mark items e
  obtain ⟨new, served⟩ := handled_passed behave mark items e
  obtain ⟨more, settled⟩ := settle_passed behave (collect mark items e).1.ticktimer
    (handled behave mark items e)
  have worked := served.then settled
  have grown (e : Loop Handle Events) :
      Passed e { e with maxevents := e.maxevents * 4 } [] [] := Passed.same rfl rfl rfl
  dsimp only
  split_ifs
  · exact ⟨_, _, collected, .inr ⟨_, rfl⟩⟩
  · exact ⟨_, _, worked, .inr ⟨_, rfl⟩⟩
  · exact ⟨_, _, worked.then (grown _), .inl rfl⟩
  · exact ⟨_, _, worked.then (grown _), .inr ⟨_, rfl⟩⟩
  · exact ⟨_, _, worked, .inl rfl⟩

theorem iteration_passed (once : Bool) (turn : Turn Handle Report) (e : Loop Handle Events) :
    ∃ ran new, Passed e (iteration behave mark once turn e).loop ran new := by
  obtain ⟨middle, new, before, ends | ⟨code, ends⟩⟩ := iteration_before behave mark once turn e
  · obtain ⟨ran, more, finished⟩ := finish_passed behave once turn.idle middle
    rw [ends]
    exact ⟨_, _, before.trans finished⟩
  · rw [ends]
    exact ⟨_, _, before.then (loopend_passed code middle)⟩

theorem run_passed (once : Bool) (turns : List (Turn Handle Report)) (e : Loop Handle Events) :
    ∃ ran new, Passed e (loopRun behave mark once turns e).loop ran new := by
  induction turns generalizing e with
  | nil => exact ⟨[], [], Passed.same rfl rfl rfl⟩
  | cons turn turns ih =>
    obtain ⟨ran, new, here⟩ := iteration_passed behave mark once turn e
    rw [loopRun]
    cases went : iteration behave mark once turn e with
    | returned code after =>
      rw [went] at here
      exact ⟨ran, new, here⟩
    | goesOn after =>
      rw [went] at here
      obtain ⟨later, more, rest⟩ := ih after
      exact ⟨_, _, here.trans rest⟩

/-! ## Waiting with closures queued -/

def IdlePostsNone : Prop :=
  ∀ (log : List (Called Handle Events)) (c : Nat), Act.postClosure c ∉ behave (log ++ [.idle])

/-- The iterations of a run post at most as many closures as a round may run. -/
def PostsFew (once : Bool) (turns : List (Turn Handle Report)) (e : Loop Handle Events) : Prop :=
  ∀ visit ∈ iterations behave mark once turns e,
    (iteration behave mark once visit.2 visit.1).loop.posted.length ≤ visit.1.posted.length + 1025

variable {behave mark}

omit [DecidableEq Handle] in
theorem idle_posts_none (quiet : IdlePostsNone behave) (log : List (Called Handle Events)) :
    postedBy (behave (log ++ [.idle])) = [] := by
  rw [postedBy, filterMap_eq_nil_iff]
  intro act among
  cases act with
  | postClosure c => exact absurd among (quiet log c)
  | _ => rfl

theorem iteration_empties {once : Bool} {turn : Turn Handle Report}
    (quiet : IdlePostsNone behave) (empty : e.closures = [])
    (few : (iteration behave mark once turn e).loop.posted.length ≤ e.posted.length + 1025)
    (went : iteration behave mark once turn e = .goesOn after) : after.closures = [] := by
  obtain ⟨middle, new, before, ends | ⟨code, ends⟩⟩ := iteration_before behave mark once turn e
  · obtain ⟨ran, more, closures, rested⟩ := closures_passed behave 1025 middle
    have idled : Passed (runClosures behave 1025 middle) after [] [] := by
      rw [ends, finish] at went
      cases once with
      | true => cases went
      | false =>
        cases idles : turn.idle with
        | false =>
          rw [idles] at went
          cases went
          exact Passed.same rfl rfl rfl
        | true =>
          rw [idles] at went
          cases went
          have called := call_passed behave (runClosures behave 1025 middle) [] .idle (by simp)
          rwa [idle_posts_none quiet] at called
    have whole := (before.trans closures).then idled
    rw [went] at few
    have queue := whole.queue
    have counted := congrArg List.length whole.posted
    rw [empty, nil_append, nil_append] at queue
    simp only [Progress.loop] at few
    simp only [length_append, length_nil] at counted
    rcases rested with none | full
    · have same := idled.queue
      rw [none] at same
      exact same
    · have sizes := congrArg List.length queue
      simp only [length_append, length_nil] at sizes
      exact length_eq_zero_iff.mp (by omega)
  · rw [ends, loopend] at went
    cases went

theorem few_leave_none {once : Bool} {turns : List (Turn Handle Report)}
    (quiet : IdlePostsNone behave) (empty : e.closures = [])
    (few : PostsFew behave mark once turns e) :
    ∀ visit ∈ iterations behave mark once turns e, visit.1.closures = [] := by
  induction turns generalizing e with
  | nil => rintro _ ⟨⟩
  | cons turn turns ih =>
    intro visit among
    rw [iterations] at among
    have here := few (e, turn) (by rw [iterations]; exact mem_cons_self)
    rcases mem_cons.mp among with first | later
    · rw [first]
      exact empty
    cases went : iteration behave mark once turn e with
    | returned code after =>
      rw [went] at later
      cases later
    | goesOn after =>
      rw [went] at later
      have fewLater : PostsFew behave mark once turns after := by
        intro visit among
        apply few
        rw [iterations, went]
        exact mem_cons_of_mem _ among
      exact ih (iteration_empties quiet empty here went) fewLater visit later

variable (behave mark)

/-- Closures run in the order they were posted, each once, and the kernel does not wait
while some are queued: over epoll in `chk_loop_run`, if none is queued before the run,
the idle function posts none and no iteration posts more than a round may run. -/
theorem closures_in_order_without_waiting (backend : Backend) (once : Bool) (ms : Nat)
    (turns : List (Turn Handle Report)) (e : Loop Handle Events)
    (runs_out : backend = .epoll → once = false →
      e.closures = [] ∧ IdlePostsNone behave ∧ PostsFew behave mark once turns e) :
    (∃ ran new, Passed e (loopRun behave mark once turns e).loop ran new) ∧
      ∀ visit ∈ iterations behave mark once turns e, visit.1.closures ≠ [] →
        backend.timeout once ms visit.1.closures = .millis 0 := by
  refine ⟨run_passed behave mark once turns e, ?_⟩
  intro visit among queued
  by_cases polls : backend = .kqueue ∨ once = true
  · exact timeout_zero backend once ms queued polls
  · have epoll : backend = .epoll := by
      cases backend with
      | epoll => rfl
      | kqueue => exact absurd (.inl rfl) polls
    have forever : once = false := Bool.eq_false_iff.mpr fun mode => polls (.inr mode)
    obtain ⟨empty, quiet, few⟩ := runs_out epoll forever
    exact absurd (few_leave_none quiet empty few visit among) queued

end Accounts

/-! ## A run that posts from a callback, and one that waits -/

def posting : List (Called Nat Readiness) → List (Act Nat)
  | log =>
    match log.getLast? with
    | some (.onEvents _ _) => [.postClosure 1, .postClosure 2]
    | some (.closure 1) => [.postClosure 3]
    | _ => []

def postingTurn : Turn Nat Readiness where
  reports := some [.handle 0 Filter.read.events]
  memory := true
  idle := true

def watching : Loop Nat Readiness := watchHandle (newLoop ⟨false, false⟩) 0

theorem posting_idle_quiet : IdlePostsNone posting := by
  intro log c among
  rw [posting, getLast?_append, getLast?_singleton] at among
  exact not_mem_nil among

theorem posted_closures_run_in_order :
    ranClosures (loopRun posting id false [postingTurn, postingTurn] watching).loop.log =
        [1, 2, 3, 1, 2, 3] ∧
      ∀ visit ∈ iterations posting id false [postingTurn, postingTurn] watching,
        visit.1.closures ≠ [] →
          Backend.epoll.timeout false 0 visit.1.closures = .millis 0 := by
  refine ⟨by decide +kernel, ?_⟩
  have few : PostsFew posting id false [postingTurn, postingTurn] watching := by
    unfold PostsFew
    decide +kernel
  exact (closures_in_order_without_waiting posting id .epoll false 0 _ watching
    fun _ _ => ⟨rfl, posting_idle_quiet, few⟩).2

/-- A closure posted before `chk_loop_run` is queued while `epoll_wait` waits forever. -/
theorem queued_closure_waits :
    ∃ visit ∈ iterations posting id false [postingTurn]
        (perform (watching, []) (.postClosure 7)).1,
      visit.1.closures = [7] ∧ Backend.epoll.timeout false 0 visit.1.closures = .forever := by
  refine ⟨_, mem_cons_self, rfl, rfl⟩

end Chuck.EventLoopClosures
