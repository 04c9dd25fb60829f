import Chuck.EventLoopDispatch

/-!
# Runs of the epoll loop

As long as the notify descriptor is not reported, every batch gives every handle
its turn and `_loop_run` returns with a loop that can be run again. The stop that
`chk_loop_end` asks for leaves `INLOOP` set, and the handles reported before it
linked to a list that is gone.
-/

namespace Chuck.EventLoopRun

open EventLoopModel EventLoopDispatch List

variable {Handle Events Report : Type}

/-! ## Distinct reports -/

def reported (items : List (Item Handle Events)) : List (Handle × Events) :=
  items.filterMap fun item =>
    match item with
    | .handle h events => some (h, events)
    | _ => none

theorem handles_reported (items : List (Item Handle Events)) :
    handlesOf items = (reported items).map Prod.fst := by
  rw [handlesOf, reported, map_filterMap]
  congr 1
  funext item
  cases item <;> rfl

variable [DecidableEq Handle]

theorem gather_distinct (ready handles : List Handle) (nodup : (ready ++ handles).Nodup) :
    gather ready handles = ready ++ handles := by
  induction handles generalizing ready with
  | nil => simp [gather]
  | cons h handles ih =>
    have fresh : h ∉ ready := fun member =>
      (nodup_append.mp nodup).2.2 h member h mem_cons_self rfl
    rw [gather, foldl_cons, ← gather, if_neg fresh, ih]
    · simp
    · simpa using nodup

theorem no_report {items : List (Item Handle Events)} {h : Handle} (absent : h ∉ handlesOf items) :
    reportsOf h items = [] := by
  rw [reportsOf, filterMap_eq_nil_iff]
  intro item member
  cases item with
  | handle other events =>
    have differ : other ≠ h := fun same =>
      absent (mem_filterMap.mpr ⟨_, member, congrArg some same⟩)
    simp [differ]
  | _ => rfl

theorem single_report {items : List (Item Handle Events)} (nodup : (handlesOf items).Nodup)
    {made : Handle × Events} (member : made ∈ reported items) :
    reportsOf made.1 items = [made.2] := by
  induction items with
  | nil => nomatch member
  | cons item items ih =>
    cases item with
    | handle h events =>
      obtain ⟨fresh, rest⟩ := nodup_cons.mp (show (h :: handlesOf items).Nodup from nodup)
      rcases mem_cons.mp member with
        rfl | later
      · have none := no_report fresh
        simp only [reportsOf] at none ⊢
        simp [none]
      · have differ : h ≠ made.1 := by
          rintro rfl
          apply fresh
          rw [handles_reported]
          exact mem_map_of_mem later
        rw [← ih rest later, reportsOf, filterMap_cons_none (by simp [differ])]
        rfl
    | _ => exact ih nodup member

theorem turns_reported (e : Loop Handle Events) {items : List (Item Handle Events)}
    (nodup : (handlesOf items).Nodup) : turns id e items = reported items := by
  rw [turns, gather_distinct [] _ (by simpa using nodup), nil_append, handles_reported,
    map_map]
  refine (map_congr_left fun made member => ?_).trans (map_id _)
  simp [single_report nodup member]

/-! ## Iterations -/

def Rested (e : Loop Handle Events) : Prop := e.inloop = false ∧ Unlinked e

def Reported (e : Loop Handle Events) (turn : Turn Handle Report) : Prop :=
  ∀ items ∈ turn.reports, (handlesOf items).Nodup ∧ ∀ h ∈ handlesOf items, h ∈ e.handles

def Notified (turn : Turn Handle Report) : Prop := ∃ items ∈ turn.reports, .notify ∈ items

/-- The handles reported get `on_events` once, with the events reported, except for
those unwatched earlier in the batch. -/
def Dispatches (behave : List (Called Handle Events) → List (Act Handle)) (e : Loop Handle Events)
    (turn : Turn Handle Events) : Prop :=
  ∀ items ∈ turn.reports,
    (handled behave id items e).log = logged e.log (calls behave (reported items) [] e.log)

section Iterations

variable (behave : List (Called Handle Events) → List (Act Handle)) (mark : Report → Events)

variable {e : Loop Handle Events}

theorem call_unlinked (unlinked : Unlinked e) (called : Called Handle Events) :
    Unlinked (call behave e [] called).1 ∧ (call behave e [] called).1.inloop = e.inloop := by
  have none : Ready e [] :=
    ⟨nodup_nil, nofun, fun h => by simp [unlinked h]⟩
  obtain ⟨ready, -, -, inloop, left⟩ := call_ready behave none called
  rw [filter_nil] at left
  rw [left] at ready
  refine ⟨fun h => ?_, inloop⟩
  rw [← Bool.not_eq_true, ready.linked]
  exact not_mem_nil

theorem call_rested (rested : Rested e) (called : Called Handle Events) :
    Rested (call behave e [] called).1 := by
  obtain ⟨unlinked, inloop⟩ := call_unlinked behave rested.2 called
  exact ⟨inloop.trans rested.1, unlinked⟩

theorem settle_rested (ticktimer : Bool) (unlinked : Unlinked e) (inloop : e.inloop = true) :
    Rested (settle behave ticktimer e) := by
  cases ticktimer with
  | false => exact ⟨by simp [settle, inloop], unlinked⟩
  | true =>
    obtain ⟨after, same⟩ := call_unlinked behave unlinked .tick
    exact ⟨by simp [settle, same, inloop], after⟩

theorem closures_rested (fuel : Nat) (rested : Rested e) : Rested (runClosures behave fuel e) := by
  induction fuel generalizing e with
  | zero => exact rested
  | succ fuel ih =>
    rw [runClosures]
    split
    · exact rested
    · apply ih
      apply call_rested
      exact rested

theorem loopend_rested (code : LoopError) (rested : Rested e) : Rested (loopend code e).loop := by
  unfold loopend Progress.loop
  split_ifs
  · refine ⟨rested.1, fun h => ?_⟩
    simp [finalize, rested.2 h]
  · exact rested

theorem finish_rested (once idle : Bool) (rested : Rested e) :
    Rested (finish behave once idle e).loop := by
  have closed := closures_rested behave 1025 rested
  have after : Rested (if idle then (call behave (runClosures behave 1025 e) [] .idle).1
      else runClosures behave 1025 e) := by
    split_ifs
    · exact call_rested behave closed .idle
    · exact closed
  cases once with
  | true => exact loopend_rested .ok after
  | false => exact after

theorem iteration_notified (once : Bool) {turn : Turn Handle Report} (e : Loop Handle Events)
    (notified : Notified turn) :
    ∃ last, iteration behave mark once turn e = .returned .ok last ∧ last.inloop = true := by
  obtain ⟨items, answer, stop⟩ := notified
  obtain ⟨kept, stopped⟩ := fill_keeps mark items
    { loop := { e with inloop := true }, ready := [], ticktimer := false }
  have ends : (collect mark items e).2 = true := stopped.mpr stop
  have inside : (collect mark items e).1.loop.inloop = true := by
    rw [collect, kept]
  obtain ⟨item, rest, rfl⟩ := exists_cons_of_ne_nil (ne_nil_of_mem stop)
  rw [iteration, show turn.reports = some (item :: rest) from answer]
  dsimp only
  rw [if_pos ends, loopend]
  refine ⟨_, rfl, ?_⟩
  split_ifs
  · exact inside
  · exact inside

theorem iteration_rested (once : Bool) {turn : Turn Handle Report} (rested : Rested e)
    (kernel : Reported e turn) (quiet : ¬Notified turn) :
    Rested (iteration behave mark once turn e).loop := by
  rw [iteration]
  cases answer : turn.reports with
  | none => exact loopend_rested .loopRun rested
  | some items =>
    cases items with
    | nil => exact finish_rested behave once turn.idle rested
    | cons item rest =>
      have silent : Item.notify ∉ item :: rest := fun member => quiet ⟨_, answer, member⟩
      have goes : ¬(collect mark (item :: rest) e).2 = true := fun stop =>
        silent ((fill_keeps mark (item :: rest) _).2.mp stop)
      obtain ⟨-, unlinked, inloop⟩ :=
        handled_turns behave mark rested.2 (kernel _ answer).2 silent
      have after := settle_rested behave (collect mark (item :: rest) e).1.ticktimer unlinked
        inloop
      dsimp only
      rw [if_neg goes]
      split_ifs
      · exact loopend_rested .ok after
      · exact finish_rested behave once turn.idle after
      · exact loopend_rested .noMemory after
      · exact finish_rested behave once turn.idle after

/-! ## Runs -/

theorem run_rested (once : Bool) (turns : List (Turn Handle Report)) (rested : Rested e)
    (kernel : ∀ visit ∈ iterations behave mark once turns e, Reported visit.1 visit.2)
    (quiet : ∀ visit ∈ iterations behave mark once turns e, ¬Notified visit.2) :
    (∀ visit ∈ iterations behave mark once turns e, Rested visit.1) ∧
      Rested (loopRun behave mark once turns e).loop := by
  induction turns generalizing e with
  | nil => exact ⟨nofun, rested⟩
  | cons turn turns ih =>
    rw [iterations] at kernel quiet ⊢
    rw [loopRun]
    have after := iteration_rested behave mark once rested (kernel _ mem_cons_self)
      (quiet _ mem_cons_self)
    cases ended : iteration behave mark once turn e with
    | goesOn next =>
      rw [ended] at kernel quiet after
      obtain ⟨all, last⟩ := ih after
        (forall_mem_cons.mp kernel).2
        (forall_mem_cons.mp quiet).2
      exact ⟨forall_mem_cons.mpr ⟨rested, all⟩, last⟩
    | returned code last =>
      rw [ended] at after
      exact ⟨forall_mem_cons.mpr
        ⟨rested, nofun⟩, after⟩

theorem run_notified (once : Bool) (turns : List (Turn Handle Report)) (e : Loop Handle Events)
    (notified : ∃ visit ∈ iterations behave mark once turns e, Notified visit.2) :
    ∃ last, loopRun behave mark once turns e = .returned .ok last ∧ last.inloop = true := by
  induction turns generalizing e with
  | nil =>
    obtain ⟨visit, member, -⟩ := notified
    nomatch member
  | cons turn turns ih =>
    obtain ⟨visit, member, stop⟩ := notified
    rw [iterations] at member
    rw [loopRun]
    rcases mem_cons.mp member with rfl | later
    · obtain ⟨last, ended, inside⟩ := iteration_notified behave mark once e stop
      rw [ended]
      exact ⟨last, rfl, inside⟩
    · cases ended : iteration behave mark once turn e with
      | goesOn next =>
        rw [ended] at later
        exact ih next ⟨visit, later, stop⟩
      | returned code last =>
        rw [ended] at later
        nomatch later

end Iterations

/-- All batches of a run dispatch every handle once and the run returns with a loop
that can be run again, exactly if the notify descriptor is in none of them. -/
theorem batches_exact_iff (behave : List (Called Handle Events) → List (Act Handle)) (once : Bool)
    (turns : List (Turn Handle Events)) {e : Loop Handle Events} (rested : Rested e)
    (kernel : ∀ visit ∈ iterations behave id once turns e, Reported visit.1 visit.2) :
    ((∀ visit ∈ iterations behave id once turns e, Dispatches behave visit.1 visit.2) ∧
        ∀ code last, epollLoopRun behave once turns e = .returned code last → Rested last) ↔
      ∀ visit ∈ iterations behave id once turns e, ¬Notified visit.2 := by
  constructor
  · rintro ⟨-, clean⟩ visit member stop
    obtain ⟨last, ended, inside⟩ := run_notified behave id once turns e ⟨visit, member, stop⟩
    exact Bool.false_ne_true ((clean _ _ ended).1.symm.trans inside)
  · intro quiet
    obtain ⟨all, last⟩ := run_rested behave id once turns rested kernel quiet
    constructor
    · intro visit member items answer
      obtain ⟨distinct, watched⟩ := kernel visit member items answer
      have silent : Item.notify ∉ items := fun stop => quiet visit member ⟨items, answer, stop⟩
      rw [(handled_turns behave id (all visit member).2 watched silent).1,
        turns_reported visit.1 distinct]
    · intro code final ended
      rw [← epollLoopRun, ended] at last
      exact last

/-- Two handles, of which the first one's callback unwatches the second. -/
theorem unwatching_batch_exact :
    let behave : List (Called Nat Nat) → List (Act Nat) := fun _ => [.unwatch 2]
    let turns : List (Turn Nat Nat) := [⟨some [.handle 1 5, .timer, .handle 2 4], true, false⟩]
    let e := watchHandle (watchHandle (newLoop 0) 1) 2
    (∀ visit ∈ iterations behave id true turns e, Dispatches behave visit.1 visit.2) ∧
      ∀ code last, epollLoopRun behave true turns e = .returned code last → Rested last := by
  refine (batches_exact_iff _ true _ ⟨rfl, fun h => rfl⟩ fun visit member => ?_).mpr
    fun visit member => ?_
  all_goals obtain rfl := mem_singleton.mp member
  · rintro items ⟨⟩
    decide
  · rintro ⟨items, ⟨⟩, stop⟩
    simp at stop

/-- Handle 1 is reported together with the stop that `chk_loop_end` asked for. The
run returns with `INLOOP` set and the handle linked, and when the loop is run again
and the handle reported, it is not called. -/
theorem stopped_loop_forgets_handle :
    ∃ last, epollLoopRun (fun _ : List (Called Nat Nat) => []) false
          [⟨some [.handle 1 5, .notify], true, false⟩] (watchHandle (newLoop 0) 1) =
        .returned .ok last ∧
      last.inloop = true ∧ last.handles = [1] ∧ last.linked 1 = true ∧
      (epollLoopRun (fun _ => []) true [⟨some [.handle 1 5], true, false⟩] last).loop.log = [] :=
  ⟨_, rfl, rfl, rfl, rfl, rfl⟩

end Chuck.EventLoopRun
