import Chuck.EventLoopModel

/-!
# One batch of the event loop

What has to happen in a batch is said without lists of entries: the handles get
their turns in the order in which they were reported, and a handle that a callback
of the batch has unwatched gets none. A batch without the notify descriptor does
that, whatever is reported how often; of several reports of a handle the last one
counts.
-/

namespace Chuck.EventLoopDispatch

open EventLoopModel Function List

variable {Handle Events Report : Type}

/-! ## What a batch should do -/

def unwatchedBy (acts : List (Act Handle)) : List Handle :=
  acts.filterMap fun act =>
    match act with
    | .unwatch h => some h
    | _ => none

theorem unwatched_cons (act : Act Handle) (acts : List (Act Handle)) :
    unwatchedBy (act :: acts) = unwatchedBy [act] ++ unwatchedBy acts :=
  filterMap_append (l := [act])

def logged (log : List (Called Handle Events)) (made : List (Handle × Events)) :
    List (Called Handle Events) :=
  log ++ made.map fun made => .onEvents made.1 made.2

theorem logged_cons (log : List (Called Handle Events)) (first : Handle × Events)
    (made : List (Handle × Events)) :
    logged log (first :: made) = logged (log ++ [.onEvents first.1 first.2]) made := by
  rw [logged, logged, map_cons, append_assoc]
  rfl

theorem logged_inj (log : List (Called Handle Events)) (first second : List (Handle × Events)) :
    logged log first = logged log second ↔ first = second := by
  rw [logged, logged, append_right_inj]
  refine ⟨fun same => ?_, congrArg _⟩
  refine map_injective_iff.mpr (fun one other same => ?_) same
  injection same with handle events
  exact Prod.ext handle events

theorem logged_nil_iff (log : List (Called Handle Events)) (made : List (Handle × Events)) :
    logged log made = log ↔ made = [] := by
  simp [logged]

variable [DecidableEq Handle]

def calls (behave : List (Called Handle Events) → List (Act Handle)) :
    List (Handle × Events) → List Handle → List (Called Handle Events) → List (Handle × Events)
  | [], _, _ => []
  | (h, events) :: todo, gone, log =>
    if h ∈ gone then calls behave todo gone log
    else
      (h, events) ::
        calls behave todo (gone ++ unwatchedBy (behave (log ++ [.onEvents h events])))
          (log ++ [.onEvents h events])

/-! ## Callbacks -/

/-- The ready list holds watched handles, and exactly those that are linked. -/
structure Ready (e : Loop Handle Events) (ready : List Handle) : Prop where
  nodup : ready.Nodup
  watched : ∀ h ∈ ready, h ∈ e.handles
  linked : ∀ h, e.linked h = true ↔ h ∈ ready

structure Kept (e after : Loop Handle Events) : Prop where
  active : after.active = e.active
  log : after.log = e.log
  inloop : after.inloop = e.inloop

section Callbacks

variable {e : Loop Handle Events} {ready : List Handle}

theorem perform_ready (holds : Ready e ready) (act : Act Handle) :
    Ready (perform (e, ready) act).1 (perform (e, ready) act).2 ∧
      Kept e (perform (e, ready) act).1 ∧
      (perform (e, ready) act).2 = ready.filter (· ∉ unwatchedBy [act]) := by
  have unchanged : ready = ready.filter (· ∉ ([] : List Handle)) := by simp
  cases act with
  | watch h =>
    refine ⟨⟨holds.nodup, fun other member => ?_, ?_⟩, ?_, unchanged⟩
    all_goals simp only [perform, watchHandle]; split_ifs
    · exact holds.watched other member
    · exact mem_append_left _ (holds.watched other member)
    · exact holds.linked
    · exact holds.linked
    · exact ⟨rfl, rfl, rfl⟩
    · exact ⟨rfl, rfl, rfl⟩
  | postClosure => exact ⟨⟨holds.nodup, holds.watched, holds.linked⟩, ⟨rfl, rfl, rfl⟩, unchanged⟩
  | delLoop => exact ⟨⟨holds.nodup, holds.watched, holds.linked⟩, ⟨rfl, rfl, rfl⟩, unchanged⟩
  | unwatch h =>
    simp only [perform, unwatchHandle]
    by_cases watched : h ∈ e.handles
    · rw [if_pos watched]
      refine ⟨⟨holds.nodup.erase h, fun other member => ?_, fun other => ?_⟩, ⟨rfl, rfl, rfl⟩, ?_⟩
      · obtain ⟨differ, before⟩ := (holds.nodup.mem_erase_iff).mp member
        exact (mem_erase_of_ne differ).mpr (holds.watched other before)
      · rw [holds.nodup.mem_erase_iff]
        by_cases same : other = h
        · simp [same]
        · simp [same, holds.linked]
      · rw [holds.nodup.erase_eq_filter]
        apply filter_congr
        intro other _
        simp [unwatchedBy, bne, Bool.beq_eq_decide_eq]
    · rw [if_neg watched]
      refine ⟨holds, ⟨rfl, rfl, rfl⟩, ?_⟩
      rw [eq_comm, filter_eq_self]
      intro other member
      have differ : other ≠ h := fun same => watched (same ▸ holds.watched other member)
      simp [unwatchedBy, differ]

theorem performs_ready (acts : List (Act Handle)) (holds : Ready e ready) :
    Ready (acts.foldl perform (e, ready)).1 (acts.foldl perform (e, ready)).2 ∧
      Kept e (acts.foldl perform (e, ready)).1 ∧
      (acts.foldl perform (e, ready)).2 = ready.filter (· ∉ unwatchedBy acts) := by
  induction acts generalizing e ready with
  | nil => exact ⟨holds, ⟨rfl, rfl, rfl⟩, by simp [unwatchedBy]⟩
  | cons act acts ih =>
    obtain ⟨still, kept, left⟩ := perform_ready holds act
    obtain ⟨last, same, rest⟩ := ih still
    rw [foldl_cons]
    refine ⟨last, ⟨same.active.trans kept.active, same.log.trans kept.log,
      same.inloop.trans kept.inloop⟩, ?_⟩
    rw [rest, left, filter_filter]
    apply filter_congr
    intro h _
    rw [unwatched_cons act acts]
    simp [Bool.and_comm]

variable (behave : List (Called Handle Events) → List (Act Handle))

theorem call_ready (holds : Ready e ready) (called : Called Handle Events) :
    Ready (call behave e ready called).1 (call behave e ready called).2 ∧
      (call behave e ready called).1.active = e.active ∧
      (call behave e ready called).1.log = e.log ++ [called] ∧
      (call behave e ready called).1.inloop = e.inloop ∧
      (call behave e ready called).2 =
        ready.filter (· ∉ unwatchedBy (behave (e.log ++ [called]))) := by
  have started : Ready { e with log := e.log ++ [called] } ready :=
    ⟨holds.nodup, holds.watched, holds.linked⟩
  obtain ⟨still, kept, left⟩ := performs_ready (behave (e.log ++ [called])) started
  exact ⟨still, kept.active, kept.log, kept.inloop, left⟩

end Callbacks

/-! ## Turns -/

section Turns

variable (behave : List (Called Handle Events) → List (Act Handle))

theorem pop_ready {e : Loop Handle Events} {h : Handle} {ready : List Handle}
    (holds : Ready e (h :: ready)) : Ready { e with linked := update e.linked h false } ready := by
  obtain ⟨fresh, nodup⟩ := nodup_cons.mp holds.nodup
  refine ⟨nodup, fun other member => holds.watched other (mem_cons_of_mem _ member),
    fun other => ?_⟩
  by_cases same : other = h
  · simp [same, fresh]
  · simp [same, holds.linked]

theorem dispatch_calls (todo : List (Handle × Events)) (gone : List Handle) (fuel : Nat)
    (e : Loop Handle Events) (ready : List Handle) (holds : Ready e ready)
    (left : ready = (todo.map Prod.fst).filter (· ∉ gone))
    (active : ∀ made ∈ todo, e.active made.1 = made.2) (enough : ready.length ≤ fuel) :
    (dispatch behave fuel e ready).log = logged e.log (calls behave todo gone e.log) ∧
      Ready (dispatch behave fuel e ready) [] ∧
      (dispatch behave fuel e ready).inloop = e.inloop := by
  induction todo generalizing gone fuel e ready with
  | nil =>
    obtain rfl : ready = [] := left
    have stays : dispatch behave fuel e [] = e := by cases fuel <;> rfl
    rw [stays]
    exact ⟨(append_nil _).symm, holds, rfl⟩
  | cons made todo ih =>
    obtain ⟨h, events⟩ := made
    have others : ∀ made ∈ todo, e.active made.1 = made.2 := (forall_mem_cons.mp active).2
    by_cases away : h ∈ gone
    · rw [calls, if_pos away]
      apply ih gone fuel e ready holds _ others enough
      rw [left, map_cons, filter_cons_of_neg (by simpa using away)]
    rw [map_cons, filter_cons_of_pos (by simpa using away)] at left
    subst left
    obtain ⟨fuel, rfl⟩ : ∃ less, fuel = less + 1 :=
      Nat.exists_eq_add_one_of_ne_zero (Nat.ne_of_gt (Nat.lt_of_lt_of_le (Nat.succ_pos _) enough))
    have own : e.active h = events := active (h, events) mem_cons_self
    obtain ⟨still, same, log, inloop, rest⟩ :=
      call_ready behave (pop_ready holds) (.onEvents h (e.active h))
    rw [calls, if_neg away, dispatch, logged_cons]
    rw [own] at still same log inloop rest ⊢
    have next := ih (gone ++ unwatchedBy (behave (e.log ++ [.onEvents h events]))) fuel _ _ still
      ?_ ?_ ?_
    · rw [log, inloop] at next
      exact next
    · rw [rest, filter_filter]
      apply filter_congr
      intro other _
      simp [Bool.and_comm]
    · rw [same]
      exact others
    · rw [rest]
      exact (length_filter_le _ _).trans (Nat.le_of_succ_le_succ enough)

end Turns

/-! ## The ready list -/

def handlesOf (items : List (Item Handle Report)) : List Handle :=
  items.filterMap fun item =>
    match item with
    | .handle h _ => some h
    | _ => none

def reportsOf (h : Handle) (items : List (Item Handle Report)) : List Report :=
  items.filterMap fun item =>
    match item with
    | .handle other report => if other = h then some report else none
    | _ => none

def gather (ready handles : List Handle) : List Handle :=
  handles.foldl (fun ready h => if h ∈ ready then ready else ready ++ [h]) ready

section Filling

variable (mark : Report → Events)

theorem fill_keeps (items : List (Item Handle Report)) (batch : Batch Handle Events) :
    (fill mark items batch).1.loop =
        { batch.loop with
          linked := (fill mark items batch).1.loop.linked
          active := (fill mark items batch).1.loop.active } ∧
      ((fill mark items batch).2 = true ↔ .notify ∈ items) := by
  induction items generalizing batch with
  | nil => simp [fill]
  | cons item items ih =>
    cases item with
    | notify => simp [fill]
    | timer =>
      rw [fill]
      exact ⟨(ih _).1, (ih _).2.trans (by simp)⟩
    | handle h report =>
      rw [fill]
      refine ⟨(ih _).1.trans ?_, (ih _).2.trans (by simp)⟩
      unfold pushback
      split_ifs <;> rfl

theorem getLast?_report (h other : Handle) (report : Report) (items : List (Item Handle Report)) :
    (reportsOf h (.handle other report :: items)).getLast? =
      if other = h then some ((reportsOf h items).getLast?.getD report)
      else (reportsOf h items).getLast? := by
  by_cases same : other = h
  · rw [if_pos same, reportsOf, filterMap_cons_some (b := report) (by simp [same]),
      getLast?_cons]
    rfl
  · rw [if_neg same, reportsOf, filterMap_cons_none (by simp [same])]
    rfl

theorem active_report (active : Handle → Events) (h k : Handle) (report : Report)
    (items : List (Item Handle Report)) :
    ((reportsOf k items).getLast?.map mark).getD (update active h (mark report) k) =
      ((reportsOf k (.handle h report :: items)).getLast?.map mark).getD (active k) := by
  rw [getLast?_report]
  by_cases same : h = k
  · subst same
    rw [if_pos rfl, update_self]
    cases (reportsOf h items).getLast? <;> rfl
  · rw [if_neg same, update_of_ne (Ne.symm same)]

/-- Without the notify descriptor every reported handle is in the ready list once,
with the events of its last report. -/
theorem fill_ready (items : List (Item Handle Report)) (batch : Batch Handle Events)
    (quiet : .notify ∉ items) (linked : ∀ h, batch.loop.linked h = true ↔ h ∈ batch.ready) :
    (fill mark items batch).1.ready = gather batch.ready (handlesOf items) ∧
      (∀ h, (fill mark items batch).1.loop.linked h = true ↔
        h ∈ (fill mark items batch).1.ready) ∧
      ∀ h, (fill mark items batch).1.loop.active h =
        ((reportsOf h items).getLast?.map mark).getD (batch.loop.active h) := by
  induction items generalizing batch with
  | nil => exact ⟨rfl, linked, fun h => rfl⟩
  | cons item items ih =>
    have later : Item.notify ∉ items := fun member => quiet (mem_cons_of_mem _ member)
    cases item with
    | notify => exact absurd mem_cons_self quiet
    | timer => exact ih { batch with ticktimer := true } later linked
    | handle h report =>
      rw [fill]
      unfold pushback
      by_cases present : batch.loop.linked h = true
      · obtain ⟨ready, still, active⟩ := ih
          { batch with
            loop := { batch.loop with
              active := update batch.loop.active h (mark report) } } later linked
        simp only [if_pos present]
        refine ⟨ready.trans ?_, still, fun k => (active k).trans (active_report mark _ h k _ _)⟩
        simp [handlesOf, gather, (linked h).mp present]
      · have absent : h ∉ batch.ready := fun member => present ((linked h).mpr member)
        have pushed : ∀ k, update batch.loop.linked h true k = true ↔
            k ∈ batch.ready ++ [h] := by
          intro k
          by_cases same : k = h
          · simp [same]
          · simp [same, linked]
        obtain ⟨ready, still, active⟩ := ih
          { batch with
            loop := { batch.loop with
              linked := update batch.loop.linked h true
              active := update batch.loop.active h (mark report) }
            ready := batch.ready ++ [h] } later pushed
        simp only [if_neg present]
        refine ⟨ready.trans ?_, still, fun k => (active k).trans (active_report mark _ h k _ _)⟩
        simp [handlesOf, gather, absent]

end Filling

/-! ## A batch -/

section Batches

variable (behave : List (Called Handle Events) → List (Act Handle)) (mark : Report → Events)

/-- The handles of a batch in the order of their turns, with the events of their
last reports. -/
def turns (e : Loop Handle Events) (items : List (Item Handle Report)) : List (Handle × Events) :=
  (gather [] (handlesOf items)).map fun h =>
    (h, ((reportsOf h items).getLast?.map mark).getD (e.active h))

theorem mem_gather (ready handles : List Handle) (h : Handle) :
    h ∈ gather ready handles ↔ h ∈ ready ∨ h ∈ handles := by
  induction handles generalizing ready with
  | nil => simp [gather]
  | cons first handles ih =>
    rw [gather, foldl_cons, ← gather, ih]
    by_cases present : first ∈ ready
    · rw [if_pos present, mem_cons]
      constructor
      · rintro (before | after)
        · exact .inl before
        · exact .inr (.inr after)
      · rintro (before | rfl | after)
        · exact .inl before
        · exact .inl present
        · exact .inr after
    · rw [if_neg present, mem_append, mem_singleton, mem_cons, or_assoc]

theorem gather_nodup (ready handles : List Handle) (nodup : ready.Nodup) :
    (gather ready handles).Nodup := by
  induction handles generalizing ready with
  | nil => exact nodup
  | cons first handles ih =>
    rw [gather, foldl_cons, ← gather]
    by_cases present : first ∈ ready
    · rw [if_pos present]
      exact ih ready nodup
    · rw [if_neg present]
      apply ih
      rw [nodup_append]
      refine ⟨nodup, nodup_singleton _, ?_⟩
      rintro other before _ (_ | ⟨_, ⟨⟩⟩) rfl
      exact present before

def Unlinked (e : Loop Handle Events) : Prop := ∀ h, e.linked h = false

theorem handled_turns {e : Loop Handle Events} {items : List (Item Handle Report)}
    (unlinked : Unlinked e) (watched : ∀ h ∈ handlesOf items, h ∈ e.handles)
    (quiet : .notify ∉ items) :
    (handled behave mark items e).log =
        logged e.log (calls behave (turns mark e items) [] e.log) ∧
      Unlinked (handled behave mark items e) ∧ (handled behave mark items e).inloop = true := by
  have none : ∀ h, ({ e with inloop := true } : Loop Handle Events).linked h = true ↔
      h ∈ ([] : List Handle) := fun h => by simp [unlinked h]
  obtain ⟨kept, stopped⟩ := fill_keeps mark items
    { loop := { e with inloop := true }, ready := [], ticktimer := false }
  obtain ⟨ready, linked, active⟩ := fill_ready mark items
    { loop := { e with inloop := true }, ready := [], ticktimer := false } quiet none
  rw [handled, collect]
  generalize fill mark items
    { loop := { e with inloop := true }, ready := [], ticktimer := false } = filled at *
  obtain ⟨batch, stop⟩ := filled
  have goes : stop = false := by
    rw [← Bool.not_eq_true]
    exact fun stop => quiet (stopped.mp stop)
  dsimp only at kept ready linked active ⊢
  rw [if_neg (by simp [goes])]
  have holds : Ready batch.loop batch.ready := by
    refine ⟨ready ▸ gather_nodup [] _ nodup_nil, fun h member => ?_, linked⟩
    rw [ready, mem_gather] at member
    rw [kept]
    exact watched h (member.resolve_left not_mem_nil)
  have order : batch.ready = ((turns mark e items).map Prod.fst).filter
      (· ∉ ([] : List Handle)) := by
    rw [ready, turns, map_map]
    simp [comp_def]
  have events : ∀ made ∈ turns mark e items, batch.loop.active made.1 = made.2 := by
    intro made member
    obtain ⟨h, -, rfl⟩ := mem_map.mp member
    exact active h
  obtain ⟨log, rest, inloop⟩ :=
    dispatch_calls behave _ [] batch.ready.length batch.loop batch.ready holds order events le_rfl
  have same : batch.loop.log = e.log := by rw [kept]
  have inside : batch.loop.inloop = true := by rw [kept]
  rw [same] at log
  refine ⟨log, fun h => ?_, inloop.trans inside⟩
  rw [← Bool.not_eq_true, rest.linked]
  exact not_mem_nil

theorem handled_notified (e : Loop Handle Events) {items : List (Item Handle Report)}
    (notified : .notify ∈ items) : (handled behave mark items e).log = e.log := by
  obtain ⟨kept, stopped⟩ := fill_keeps mark items
    { loop := { e with inloop := true }, ready := [], ticktimer := false }
  have ends : (collect mark items e).2 = true := stopped.mpr notified
  rw [handled]
  dsimp only
  rw [if_pos ends, collect, kept]

end Batches

end Chuck.EventLoopDispatch
