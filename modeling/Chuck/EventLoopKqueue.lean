import Chuck.EventLoopRun

/-!
# The kqueue loop against the epoll loop

kqueue reports a handle that is readable and writable twice, epoll once. The kqueue
loop starts `active_evetns` from zero for each report, and the second report finds
the handle in the ready list, so only the last one counts.
-/

namespace Chuck.EventLoopKqueue

open EventLoopModel EventLoopDispatch EventLoopRun List

variable {Handle Events : Type} [DecidableEq Handle]

/-! ## Merged reports -/

def union (reports : List Filter) : Readiness :=
  { read := decide (.read ∈ reports), write := decide (.write ∈ reports) }

/-- What epoll reports instead of some kevents: of `all` the first report of a
handle carries everything, and the others are not made. -/
def mergeFrom (all : List (Item Handle Filter)) :
    List Handle → List (Item Handle Filter) → List (Item Handle Readiness)
  | _, [] => []
  | seen, .notify :: items => .notify :: mergeFrom all seen items
  | seen, .timer :: items => .timer :: mergeFrom all seen items
  | seen, .handle h _ :: items =>
    if h ∈ seen then mergeFrom all seen items
    else .handle h (union (reportsOf h all)) :: mergeFrom all (seen ++ [h]) items

def merged (items : List (Item Handle Filter)) : List (Item Handle Readiness) :=
  mergeFrom items [] items

section Merging

variable (all : List (Item Handle Filter))

theorem notify_merged (seen : List Handle) (items : List (Item Handle Filter)) :
    .notify ∈ mergeFrom all seen items ↔ .notify ∈ items := by
  induction items generalizing seen with
  | nil => simp [mergeFrom]
  | cons item items ih =>
    cases item with
    | notify => simp [mergeFrom]
    | timer => simp [mergeFrom, ih]
    | handle h report =>
      rw [mergeFrom]
      split_ifs
      · simp [ih]
      · simp [ih]

theorem handles_merged (seen : List Handle) (items : List (Item Handle Filter)) :
    gather seen (handlesOf items) = seen ++ handlesOf (mergeFrom all seen items) := by
  induction items generalizing seen with
  | nil => simp [mergeFrom, gather, handlesOf]
  | cons item items ih =>
    cases item with
    | notify => exact ih seen
    | timer => exact ih seen
    | handle h report =>
      rw [mergeFrom]
      split_ifs with known
      · have skipped : gather seen (handlesOf (.handle h report :: items)) =
            gather seen (handlesOf items) := by
          simp [gather, handlesOf, known]
        rw [skipped, ih]
      · have pushed : gather seen (handlesOf (.handle h report :: items)) =
            gather (seen ++ [h]) (handlesOf items) := by
          simp [gather, handlesOf, known]
        rw [pushed, ih, append_assoc]
        rfl

theorem reported_merged (seen : List Handle) (items : List (Item Handle Filter)) :
    reported (mergeFrom all seen items) =
      (handlesOf (mergeFrom all seen items)).map fun h => (h, union (reportsOf h all)) := by
  induction items generalizing seen with
  | nil => rfl
  | cons item items ih =>
    cases item with
    | notify => exact ih seen
    | timer => exact ih seen
    | handle h report =>
      rw [mergeFrom]
      split_ifs
      · exact ih seen
      · exact congrArg ((h, union (reportsOf h all)) :: ·) (ih (seen ++ [h]))

end Merging

theorem merged_handles (items : List (Item Handle Filter)) :
    handlesOf (merged items) = gather [] (handlesOf items) :=
  (handles_merged items [] items).symm

theorem merged_reports (items : List (Item Handle Filter)) :
    reported (merged items) =
      (gather [] (handlesOf items)).map fun h => (h, union (reportsOf h items)) := by
  rw [← merged_handles]
  exact reported_merged items [] items

/-! ## Calls with other events -/

section Comparing

variable (behave : List (Called Handle Events) → List (Act Handle))

/-- The same handles with other events get the same calls exactly if the events are
the same for those that are called. -/
theorem calls_same_iff (f g : Handle → Events) (handles gone : List Handle)
    (log : List (Called Handle Events)) :
    calls behave (handles.map fun h => (h, f h)) gone log =
        calls behave (handles.map fun h => (h, g h)) gone log ↔
      ∀ made ∈ calls behave (handles.map fun h => (h, g h)) gone log, f made.1 = made.2 := by
  induction handles generalizing gone log with
  | nil => simp [calls]
  | cons h handles ih =>
    rw [map_cons, map_cons, calls, calls]
    split_ifs with away
    · exact ih gone log
    rw [List.cons.injEq, Prod.mk.injEq, forall_mem_cons]
    constructor
    · rintro ⟨⟨-, same⟩, rest⟩
      rw [same] at rest
      exact ⟨same, (ih _ _).mp rest⟩
    · rintro ⟨same, rest⟩
      have same : f h = g h := same
      rw [same]
      exact ⟨⟨rfl, rfl⟩, (ih _ _).mpr rest⟩

theorem calls_sublist (todo : List (Handle × Events)) (gone : List Handle)
    (log : List (Called Handle Events)) : (calls behave todo gone log).Sublist todo := by
  induction todo generalizing gone log with
  | nil => exact .slnil
  | cons made todo ih =>
    obtain ⟨h, events⟩ := made
    rw [calls]
    split_ifs
    · exact (ih _ _).cons _
    · exact (ih _ _).cons_cons _

end Comparing

/-! ## The two loops -/

theorem last_report_iff {reports : List Filter} {last : Filter}
    (ends : reports.getLast? = some last) :
    last.events = union reports ↔
      ¬((union reports).read = true ∧ (union reports).write = true) := by
  have member := mem_of_getLast? ends
  cases last with
  | read =>
    by_cases other : Filter.write ∈ reports <;> simp [union, Filter.events, member, other]
  | write =>
    by_cases other : Filter.read ∈ reports <;> simp [union, Filter.events, member, other]

def wanted (behave : List (Called Handle Readiness) → List (Act Handle))
    (e : Loop Handle Readiness) (items : List (Item Handle Filter)) : List (Handle × Readiness) :=
  calls behave (reported (merged items)) [] e.log

/-- Both loops make the calls that they should make, epoll with the merged events. -/
def Agrees (behave : List (Called Handle Readiness) → List (Act Handle))
    (e : Loop Handle Readiness) (items : List (Item Handle Filter)) : Prop :=
  (handled behave Filter.events items e).log = logged e.log (wanted behave e items) ∧
    (handled behave id (merged items) e).log = logged e.log (wanted behave e items)

section Agreeing

variable (behave : List (Called Handle Readiness) → List (Act Handle))
  {e : Loop Handle Readiness} {items : List (Item Handle Filter)}

theorem wanted_reported {made : Handle × Readiness} (member : made ∈ wanted behave e items) :
    made.1 ∈ handlesOf items ∧ made.2 = union (reportsOf made.1 items) := by
  have listed := (calls_sublist behave _ _ _).subset member
  rw [merged_reports] at listed
  obtain ⟨h, known, rfl⟩ := mem_map.mp listed
  exact ⟨((mem_gather _ _ _).mp known).resolve_left not_mem_nil, rfl⟩

theorem reports_some {h : Handle} (member : h ∈ handlesOf items) :
    ∃ last, (reportsOf h items).getLast? = some last := by
  obtain ⟨item, among, found⟩ := mem_filterMap.mp member
  cases item with
  | handle other report =>
    obtain rfl := Option.some.inj found
    have some : report ∈ reportsOf other items :=
      mem_filterMap.mpr ⟨_, among, if_pos rfl⟩
    exact ⟨_, getLast?_eq_some_getLast (ne_nil_of_mem some)⟩
  | _ => simp at found

theorem kqueue_wanted_iff (unlinked : Unlinked e) (watched : ∀ h ∈ handlesOf items, h ∈ e.handles)
    (quiet : .notify ∉ items) :
    (handled behave Filter.events items e).log = logged e.log (wanted behave e items) ↔
      ∀ made ∈ wanted behave e items, ¬(made.2.read = true ∧ made.2.write = true) := by
  rw [(handled_turns behave Filter.events unlinked watched quiet).1, logged_inj, wanted,
    merged_reports, turns, calls_same_iff, ← merged_reports]
  apply forall₂_congr
  intro made member
  obtain ⟨known, all⟩ := wanted_reported behave member
  obtain ⟨last, ends⟩ := reports_some known
  rw [all, ends]
  exact last_report_iff ends

theorem epoll_wanted (unlinked : Unlinked e) (watched : ∀ h ∈ handlesOf items, h ∈ e.handles)
    (quiet : .notify ∉ items) :
    (handled behave id (merged items) e).log = logged e.log (wanted behave e items) := by
  have known : ∀ h ∈ handlesOf (merged items), h ∈ e.handles := by
    intro h member
    rw [merged_handles, mem_gather] at member
    exact watched h (member.resolve_left not_mem_nil)
  have silent : Item.notify ∉ merged items := fun stop =>
    quiet ((notify_merged items [] items).mp stop)
  have distinct : (handlesOf (merged items)).Nodup := by
    rw [merged_handles]
    exact gather_nodup [] _ nodup_nil
  rw [(handled_turns behave id unlinked known silent).1, turns_reported e distinct]
  rfl

theorem wanted_nil_iff : wanted behave e items = [] ↔ handlesOf items = [] := by
  rw [wanted, merged_reports]
  cases all : gather [] (handlesOf items) with
  | nil =>
    refine iff_of_true rfl (eq_nil_iff_forall_not_mem.mpr fun h member => ?_)
    have there := (mem_gather [] (handlesOf items) h).mpr (.inr member)
    rw [all] at there
    exact not_mem_nil there
  | cons h rest =>
    have there : h ∈ gather [] (handlesOf items) := by
      rw [all]
      exact mem_cons_self
    have known := ((mem_gather _ _ _).mp there).resolve_left not_mem_nil
    refine iff_of_false ?_ (ne_nil_of_mem known)
    rw [map_cons, calls, if_neg not_mem_nil]
    exact cons_ne_nil _ _

end Agreeing

/-- The two loops agree on a batch, and make the calls that they should make, exactly
if the notify descriptor is not reported along with handles, and every handle that
is reported both ways is unwatched before its turn. -/
theorem backends_agree_iff (behave : List (Called Handle Readiness) → List (Act Handle))
    {e : Loop Handle Readiness} {items : List (Item Handle Filter)} (unlinked : Unlinked e)
    (watched : ∀ h ∈ handlesOf items, h ∈ e.handles) :
    Agrees behave e items ↔
      (.notify ∈ items → handlesOf items = []) ∧
        ∀ made ∈ wanted behave e items, ¬(made.2.read = true ∧ made.2.write = true) := by
  by_cases quiet : .notify ∈ items
  · have stopped := handled_notified behave Filter.events e quiet
    have silent : Item.notify ∈ merged items := (notify_merged items [] items).mpr quiet
    rw [Agrees, stopped, handled_notified behave id e silent, and_self, eq_comm, logged_nil_iff,
      ← wanted_nil_iff behave]
    constructor
    · intro none
      refine ⟨fun _ => none, fun made member => ?_⟩
      rw [none] at member
      nomatch member
    · exact fun both => both.1 quiet
  · rw [Agrees, and_iff_left (epoll_wanted behave unlinked watched quiet),
      kqueue_wanted_iff behave unlinked watched quiet,
      and_iff_right (fun stop => absurd stop quiet)]

/-- Two handles, of which the first is writable; its callback unwatches the second,
which is reported both ways. -/
theorem unwatched_handle_agrees :
    Agrees (fun _ : List (Called Nat Readiness) => [.unwatch 2])
        (watchHandle (watchHandle (newLoop ⟨false, false⟩) 1) 2)
        [.handle 1 .write, .handle 2 .read, .handle 2 .write] := by
  refine (backends_agree_iff _ (fun h => rfl) (by decide)).mpr ⟨fun stop => ?_, ?_⟩
  · simp at stop
  · decide

/-- One handle is reported readable and writable. The epoll loop calls it with both,
the kqueue loop as writable only. -/
theorem readable_report_lost :
    (handled (fun _ => []) id (merged [.handle 1 .read, .handle 1 .write])
        (watchHandle (newLoop ⟨false, false⟩) 1)).log = [.onEvents 1 ⟨true, true⟩] ∧
      (handled (fun _ => []) Filter.events [.handle 1 .read, .handle 1 .write]
        (watchHandle (newLoop ⟨false, false⟩) 1)).log = [.onEvents 1 ⟨false, true⟩] :=
  ⟨rfl, rfl⟩

end Chuck.EventLoopKqueue
