import Chuck.PromiseGroups
import Chuck.PromiseAndThen

/-!
# `M.all` and the order of its inputs

When all inputs of `M.all` have told their outcomes and no closure is left, the promise
it returned has settled, with the table of these outcomes. Whether it is resolved is
decided by the input that comes last, so this is the same for all orders, and right, if
and only if all inputs settle the same way.
-/

namespace Chuck.PromiseAll

open PromiseModel PromiseFrames PromiseSane PromisePropagation PromiseAndThen PromiseTally
open PromiseGroups Support.FaultFreeRuns Function
open List hiding all modify

variable {V : Type} {w : World V}

/-- The inputs of group `g` have all told it their outcomes, in some run of some program,
and nothing is left to do. -/
structure Completed (w : World V) (g : Nat) (outcomes : List (Outcome × Val V)) : Prop where
  reached : Reaches step (fun _ _ => True) start w
  idle : w.busy = none
  drained : w.closures = []
  group : g < w.groupCount
  size : (w.groups g).size = outcomes.length
  told : ((w.groups g).parts.map fun part => (w.promises part).got) = outcomes.map some

def Settles (w : World V) (g : Nat) (state : Outcome) (table : Nat → Option (Outcome × Val V)) :
    Prop :=
  (w.promises (w.groups g).d).state = some state ∧
    (w.promises (w.groups g).d).value = .results g ∧ (w.groups g).results = table

section Completes

variable {g : Nat} {outcomes : List (Outcome × Val V)} (completed : Completed w g outcomes)

include completed

theorem Completed.results : (w.groups g).results = fun i => outcomes[i]? := by
  funext i
  have tallied := reached_tallied completed.reached
  have told := congrArg (fun l : List (Option (Outcome × Val V)) => l[i]?) completed.told
  rw [(tallied.counts.tally g completed.group).results i]
  rw [getElem?_map, getElem?_map] at told
  cases at_ : (w.groups g).parts[i]? with
  | none =>
    rw [at_] at told
    exact (Option.map_eq_none_iff.mp told.symm).symm
  | some part =>
    rw [at_] at told
    obtain ⟨outcome, is, value⟩ := Option.map_eq_some_iff.mp told.symm
    rw [is]
    exact value.symm

theorem Completed.ended : (w.groups g).pending = 0 := by
  have tallied := reached_tallied completed.reached
  have lengths := congrArg List.length completed.told
  rw [length_map, length_map] at lengths
  have all : firedCount w (w.groups g).parts = (w.groups g).parts.length := by
    apply countP_eq_length.mpr
    intro part among
    have mapped := mem_map_of_mem (f := fun part => (w.promises part).got) among
    rw [completed.told] at mapped
    obtain ⟨outcome, _, is⟩ := mem_map.mp mapped
    rw [← is]
    rfl
  rw [(tallied.counts.tally g completed.group).pending, all, completed.size, lengths]
  exact sub_self _

theorem Completed.settles (nonempty : outcomes ≠ []) :
    ∃ state, Settles w g state (fun i => outcomes[i]?) ∧ ∃ outcome ∈ outcomes,
      outcome.1 = state := by
  have tallied := reached_tallied completed.reached
  have posted := tallied.decides.posted g completed.group completed.ended nofun
  rw [completed.drained] at posted
  have settled := posted.resolve_right fun has => by
    obtain ⟨c, among, -⟩ := has
    nomatch among
  obtain ⟨state, is⟩ := Option.ne_none_iff_exists'.mp settled
  obtain ⟨value, -, some_input⟩ := tallied.decides.settled g completed.group state is
  refine ⟨state, ⟨is, value, completed.results⟩, ?_⟩
  rcases some_input with empty | ⟨i, value, result⟩
  · rw [completed.size] at empty
    exact absurd (length_eq_zero_iff.mp empty) nonempty
  · rw [completed.results] at result
    exact ⟨(state, value), mem_of_getElem? result, rfl⟩

end Completes

theorem alike_settles {g : Nat} {outcomes : List (Outcome × Val V)}
    (completed : Completed w g outcomes) (nonempty : outcomes ≠ []) {how : Outcome}
    (alike : ∀ outcome ∈ outcomes, outcome.1 = how) : Settles w g how fun i => outcomes[i]? := by
  obtain ⟨state, settles, outcome, among, is⟩ := completed.settles nonempty
  rw [← alike outcome among, is]
  exact settles

/-! ## The outcomes of the inputs -/

theorem input_told (sane : Sane w) (good : Good none w) (idle : w.busy = none)
    (drained : w.closures = []) {part arg : Nat} (derived : source w part = some arg)
    {outcome : Outcome × Val V} (is : outcomeOf w arg = some outcome) :
    (w.promises part).got = some outcome := by
  have kind := source_derived.mp derived
  have settled : (w.promises arg).state ≠ none := by
    intro pending
    rw [outcomeOf, pending] at is
    cases is
  have done : (w.promises part).state ≠ none := by
    intro pending
    obtain ⟨-, -, located⟩ := good.fresh part arg (by rintro ⟨⟩) kind pending fun outcome =>
      idle ▸ by rintro ⟨⟩
    rcases located with ⟨x, unsettled, among⟩ | told
    · rcases (good.belongs x unsettled part among).2 arg kind with same | ⟨waits, -⟩
      · exact settled (same ▸ unsettled)
      · exact settled waits
    · rw [mem_toldTargets, drained] at told
      obtain ⟨c, among, -⟩ := told
      cases among
  obtain ⟨how, value, fired, -⟩ := good.done part arg kind done
  rw [outcome_handed sane good settled] at is
  rw [fired.1, fired.2.2.1, fired.2.2.2]
  exact is

theorem inputs_complete (reached : Reaches step FollowsRule (start : World V) w) {g : Nat}
    {args : List Nat} {outcomes : List (Outcome × Val V)} (idle : w.busy = none)
    (drained : w.closures = []) (group : g < w.groupCount) (size : (w.groups g).size = args.length)
    (inputs : (w.groups g).parts.map (source w) = args.map some)
    (outcomesOf : args.map (outcomeOf w) = outcomes.map some) : Completed w g outcomes := by
  obtain ⟨sane, good⟩ := reached_good reached
  have lengths := congrArg List.length outcomesOf
  rw [length_map, length_map] at lengths
  refine ⟨?_, idle, drained, group, size.trans lengths, ?_⟩
  · apply reached.keeps (Reaches step (fun _ _ => True) start) .start
    exact fun s event after before _ stepped => .next event before trivial stepped
  · apply ext_getElem?
    intro i
    have input := congrArg (fun l : List (Option Nat) => l[i]?) inputs
    have outcome := congrArg (fun l : List (Option (Outcome × Val V)) => l[i]?) outcomesOf
    rw [getElem?_map, getElem?_map] at input outcome ⊢
    cases at_ : (w.groups g).parts[i]? with
    | none =>
      rw [at_] at input
      rw [Option.map_eq_none_iff.mp input.symm] at outcome
      rw [← outcome]
      rfl
    | some part =>
      rw [at_] at input
      obtain ⟨arg, here, is⟩ := Option.map_eq_some_iff.mp input.symm
      rw [here] at outcome
      obtain ⟨result, there, value⟩ := Option.map_eq_some_iff.mp outcome.symm
      rw [there]
      exact congrArg some (input_told sane good idle drained is.symm value.symm)

/-! ## A run in which a given input is the last -/

theorem settle_alone (w : World V) {p : Nat} (state : Outcome) {value : Val V}
    (plain : value.isPromise = false) (orphan : (w.promises p).parent = none)
    (queue : (w.promises p).queue = []) : settle w p state value = stamp w p state value := by
  have queued : ((stamp w p state value).promises p).queue = [] := by
    rw [stamp, modify_same]
    exact queue
  rw [settle_orphan w p state plain orphan, dispatch, queued, map_nil, append_nil]

theorem plain_known (w : World V) {value : Val V} (plain : value.isPromise = false) :
    known w value = true := by
  cases value with
  | promise q => nomatch plain
  | _ => rfl

theorem fire_alone (w : World V) (c : Closure V) (plain : c.value.isPromise = false) (kind : Kind)
    (is : w.promises c.target = newPromise kind none none) :
    fire w c = modify w c.target fun promise =>
      { promise with
        state := some c.outcome, value := c.value, got := some (c.outcome, c.value) } := by
  have none_ : (w.promises c.target).handler c.outcome = none := by
    rw [is]
    cases c.outcome <;> rfl
  rw [fire_plain w (by rw [is]; rfl) plain, none_, handle, settle_alone _ _ plain]
  · rw [stamp, PromiseModel.modify, PromiseModel.modify, PromiseModel.modify]
    simp only [update_self, update_idem]
  · rw [modify_same, is]
    rfl
  · rw [modify_same, is]
    rfl

section LastInput

variable (o : Nat → Outcome × Val V) (n r : Nat)

def input (i : Nat) : Promise V :=
  if i = r then newPromise .made none none
  else { newPromise .made none none with
    state := some (o i).1, value := (o i).2, got := some (o i) }

structure Prepared (k : Nat) (w : World V) : Prop where
  reached : Reaches step (fun _ _ => True) start w
  idle : w.busy = none
  drained : w.closures = []
  groupCount : w.groupCount = 0
  count : w.count = k
  inputs : ∀ i < k, w.promises i = input o r i

variable {o n r}

theorem prepare_next (plain : ∀ i, (o i).2.isPromise = false) {k : Nat} {w : World V}
    (prepared : Prepared o r k w) : ∃ after, Prepared o r (k + 1) after := by
  obtain ⟨reached, idle, drained, groupCount, count, inputs⟩ := prepared
  have created : Reaches step (fun _ _ => True) start (create w (newPromise .made none none)) :=
    .next (.act .new) reached trivial rfl
  have new : (create w (newPromise .made none none)).promises k = newPromise .made none none := by
    rw [← count]
    exact create_new w _
  have old {i : Nat} (below : i < k) :
      (create w (newPromise .made none none)).promises i = input o r i := by
    rw [create_old w _ (count ▸ below)]
    exact inputs i below
  by_cases last : k = r
  · refine ⟨_, created, idle, drained, groupCount, congrArg (· + 1) count, ?_⟩
    intro i below
    rcases Nat.lt_succ_iff_lt_or_eq.mp below with before | rfl
    · exact old before
    · rw [new, input, if_pos last]
  · set made := create w (newPromise .made none none) with is
    have can : possible made (.call k (o k).1 (o k).2) = true := by
      have inside : k < made.count := by
        rw [is, create, count]
        exact Nat.lt_succ_self k
      rw [possible, plain_known made (plain k), new]
      simp only [inside, newPromise, decide_true, Bool.and_true]
    have called : step made (.act (.call k (o k).1 (o k).2)) =
        some (perform made (.call k (o k).1 (o k).2)) := by
      rw [step, if_pos can]
    set c : Closure V := ⟨k, (o k).1, (o k).2, true⟩ with closure
    have queued : (perform made (.call k (o k).1 (o k).2)).closures = c :: [] := by
      change w.closures ++ [c] = [c]
      rw [drained, nil_append]
    have fired := step_fires (perform made (.call k (o k).1 (o k).2)) idle queued
    rw [fire_alone { perform made (.call k (o k).1 (o k).2) with closures := [] } c (plain k) .made
      new] at fired
    refine ⟨_, .next .drain (.next _ created trivial called) trivial fired, idle, rfl, groupCount,
      congrArg (· + 1) count, ?_⟩
    intro i below
    rcases Nat.lt_succ_iff_lt_or_eq.mp below with before | rfl
    · rw [modify_other _ _ _ before.ne]
      exact old before
    · rw [modify_same, input, if_neg last]
      exact congrArg (fun promise : Promise V => { promise with
        state := some (o i).1, value := (o i).2, got := some (o i) }) new

theorem all_prepared (plain : ∀ i, (o i).2.isPromise = false) (k : Nat) :
    ∃ w, Prepared o r k w := by
  induction k with
  | zero =>
    exact ⟨start, .start, rfl, rfl, rfl, rfl, fun i below => absurd below (Nat.not_lt_zero i)⟩
  | succ k ih =>
    obtain ⟨w, prepared⟩ := ih
    exact prepare_next plain prepared

def partOf (i : Nat) : Promise V :=
  newPromise (.derived i) (some (.synchronizer 0 i .resolved)) (some (.synchronizer 0 i .rejected))

variable (o n r)

def tellOf (i : Nat) : Closure V where
  target := n + 1 + i
  outcome := (o i).1
  value := (o i).2
  called := false

structure Passed (j : Nat) (w : World V) : Prop where
  idle : w.busy = none
  groupCount : w.groupCount = 1
  count : w.count = n + 1 + j
  inputs : ∀ i < n, i ≠ r → w.promises i = input o r i
  last : w.promises r =
    { newPromise .made none none with queue := if r < j then [n + 1 + r] else [] }
  whole : w.promises n = newPromise .combined none none
  parts : ∀ i < j, w.promises (n + 1 + i) = partOf i
  closures : w.closures = ((List.range j).filter (· ≠ r)).map (tellOf o n)
  group : w.groups 0 =
    { d := n, pending := n, results := fun _ => none, size := n,
      parts := (List.range j).map (n + 1 + ·) }

variable {o n r}

section Passing

variable {j : Nat} {w : World V} (passed : Passed o n r j w)

include passed

theorem Passed.input_plain (plain : ∀ i, (o i).2.isPromise = false) (below : j < n) :
    (w.promises j).value.isPromise = false ∧ (w.promises j).isFinal = false := by
  by_cases same : j = r
  · rw [same, passed.last]
    exact ⟨rfl, rfl⟩
  · rw [passed.inputs j below same, input, if_neg same]
    exact ⟨plain j, rfl⟩

theorem Passed.created_old {x : Nat} (before : x < n + 1 + j) :
    (create (noted w 0) (partOf j)).promises x = w.promises x :=
  create_old (noted w 0) _ (passed.count ▸ before)

/-- The next promise of the group is there. What is left is where it waits. -/
theorem Passed.grow (inside : r < n) {after : World V}
    (made : after = { create (noted w 0) (partOf j) with
      promises := after.promises, closures := after.closures })
    (others : ∀ x ≠ r, after.promises x = (create (noted w 0) (partOf j)).promises x)
    (last : after.promises r =
      { newPromise .made none none with queue := if r < j + 1 then [n + 1 + r] else [] })
    (closures : after.closures = ((List.range (j + 1)).filter (· ≠ r)).map (tellOf o n)) :
    Passed o n r (j + 1) after := by
  have counts : after.count = w.count + 1 := by rw [made]; rfl
  have groups : after.groups 0 = (noted w 0).groups 0 := by rw [made]; rfl
  refine ⟨?_, ?_, ?_, ?_, last, ?_, ?_, closures, ?_⟩
  · rw [made]
    exact passed.idle
  · rw [made]
    exact passed.groupCount
  · rw [counts, passed.count]
    rfl
  · intro i before apart
    rw [others i apart, passed.created_old (by omega)]
    exact passed.inputs i before apart
  · rw [others n (by omega), passed.created_old (by omega)]
    exact passed.whole
  · intro i before
    rw [others _ (by omega)]
    rcases Nat.lt_succ_iff_lt_or_eq.mp before with earlier | rfl
    · rw [passed.created_old (by omega)]
      exact passed.parts i earlier
    · rw [← passed.count]
      exact create_new (noted w 0) _
  · rw [groups, noted]
    dsimp only
    rw [update_self, passed.group, passed.count, range_succ, map_append]
    rfl

theorem Passed.next (plain : ∀ i, (o i).2.isPromise = false) (inside : r < n) (below : j < n) :
    Passed o n r (j + 1) (andThen (noted w 0) j (some (.synchronizer 0 j .resolved))
      (some (.synchronizer 0 j .rejected))) := by
  obtain ⟨plainly, open_⟩ := passed.input_plain plain below
  have here : (create (noted w 0) (partOf j)).promises j = w.promises j :=
    passed.created_old (by omega)
  have self : behind (create (noted w 0) (partOf j)) j = j := by
    apply behind_plain
    rw [here]
    exact plainly
  have made : create (noted w 0) (newPromise (.derived j) (some (.synchronizer 0 j .resolved))
      (some (.synchronizer 0 j .rejected))) = create (noted w 0) (partOf j) := rfl
  have goesOn : ¬((noted w 0).promises j).isFinal = true := Bool.eq_false_iff.mp open_
  rw [andThen, if_neg goesOn]
  simp only [made, self, here]
  by_cases same : j = r
  · -- input `r` is pending, and its promise waits
    subst same
    have promise := passed.last
    rw [if_neg (Nat.lt_irrefl j)] at promise
    rw [promise]
    refine passed.grow inside rfl (fun x apart => modify_other _ j _ apart) ?_ ?_
    · change (enqueue _ j w.count).promises j = _
      rw [enqueue, modify_same, here, promise, if_pos (Nat.lt_succ_self j), passed.count]
      rfl
    · change w.closures = _
      rw [passed.closures, range_succ, filter_append, map_append]
      simp
  · have promise := passed.inputs j below same
    rw [input, if_neg same] at promise
    rw [promise]
    refine passed.grow inside rfl (fun _ _ => rfl) ?_ ?_
    · have moves : r < j + 1 ↔ r < j := by omega
      simp only [moves]
      exact (passed.created_old (by omega)).trans passed.last
    · change w.closures ++ [(⟨w.count, _, _, false⟩ : Closure V)] = _
      rw [passed.closures, passed.count, range_succ, filter_append, map_append]
      congr 1
      cases how : (o j).1 <;> simp [same, tellOf, Promise.handsOn, newPromise, how]

end Passing

theorem attachAll_passed (plain : ∀ i, (o i).2.isPromise = false) (inside : r < n) (m : Nat)
    {j : Nat} {w : World V} (passed : Passed o n r j w) (rest : j + m = n) :
    Passed o n r n (attachAll 0 w j (List.range' j m)) := by
  induction m generalizing j w with
  | zero =>
    rw [Nat.add_zero] at rest
    rw [← rest] at passed ⊢
    exact passed
  | succ m ih =>
    have below : j < n := by omega
    have open_ := (passed.input_plain plain below).2
    rw [range'_succ, attachAll, if_neg (Bool.eq_false_iff.mp open_)]
    exact ih (passed.next plain inside below) (by omega)

theorem all_passed (plain : ∀ i, (o i).2.isPromise = false) (inside : r < n) {w : World V}
    (prepared : Prepared o r n w) :
    ∃ after, Reaches step (fun _ _ => True) start after ∧ Passed o n r n after := by
  obtain ⟨reached, idle, drained, groupCount, count, inputs⟩ := prepared
  have can : possible w (.all (List.range n)) = true := by
    apply all_eq_true.mpr
    intro i among
    rw [count]
    exact decide_eq_true (mem_range.mp among)
  have stepped : step w (.act (.all (List.range n))) = some (all w (List.range n)) := by
    rw [step, if_pos can]
    rfl
  refine ⟨_, .next _ reached trivial stepped, ?_⟩
  have positive : ¬(List.range n).length = 0 := by
    rw [length_range]
    omega
  have old {x : Nat} (below : x < n) : (newGroup w n).promises x = w.promises x :=
    create_old w _ (count ▸ below)
  have begun : Passed o n r 0 (newGroup w n) := by
    refine ⟨idle, congrArg (· + 1) groupCount, congrArg (· + 1) count, ?_, ?_, ?_, ?_, drained, ?_⟩
    · intro i below apart
      rw [old below]
      exact inputs i below
    · rw [old inside, inputs r inside, input, if_pos rfl]
      rfl
    · rw [← count]
      exact create_new w _
    · exact fun i below => absurd below (Nat.not_lt_zero i)
    · have same := newGroup_same w n
      rw [groupCount, count] at same
      exact same
  have passed := attachAll_passed plain inside n begun (Nat.zero_add n)
  rw [all, if_neg positive, length_range, range_eq_range']
  rw [groupCount]
  rw [newGroup, groupCount] at passed
  exact passed

/-- What is left when promise `c.target` of the group is fired. -/
structure FiredPart (w : World V) (c : Closure V) (i : Nat) (after : World V) : Prop where
  others : ∀ x ≠ c.target, after.promises x = w.promises x
  got : (after.promises c.target).got = some (c.outcome, c.value)
  groups : after.groups 0 = counted (w.groups 0) i c.outcome c.value
  closures : after.closures = w.closures ++ if (w.groups 0).pending - 1 = 0 then
    [⟨(w.groups 0).d, c.outcome, .results 0, false⟩] else []
  count : after.count = w.count
  groupCount : after.groupCount = w.groupCount
  busy : after.busy = w.busy

theorem fire_part (w : World V) (c : Closure V) (plain : c.value.isPromise = false) {i : Nat}
    (is : w.promises c.target = partOf i) : FiredPart w c i (fire w c) := by
  have handler : (w.promises c.target).handler c.outcome = some (.synchronizer 0 i c.outcome) := by
    rw [is]
    cases c.outcome <;> rfl
  have promise : ((noteRan (synchronized w c.target 0 i c.outcome c.value) c.target
      (.returned c.value)).promises c.target).parent = none ∧
      ((noteRan (synchronized w c.target 0 i c.outcome c.value) c.target
        (.returned c.value)).promises c.target).queue = [] := by
    rw [noteRan, modify_same, synchronized_promises, modify_same, is]
    exact ⟨rfl, rfl⟩
  have fired : fire w c = stamp (noteRan (synchronized w c.target 0 i c.outcome c.value) c.target
      (.returned c.value)) c.target c.outcome c.value := by
    rw [fire_plain w (by rw [is]; rfl) plain, handler]
    exact settle_alone _ _ plain promise.1 promise.2
  obtain ⟨count, groupCount, busy⟩ := synchronized_rest w c.target 0 i c.outcome c.value
  rw [fired]
  refine ⟨?_, ?_, ?_, synchronized_closures w c.target 0 i c.outcome c.value, count,
    groupCount, busy⟩
  · intro x other
    rw [stamp, modify_other _ _ _ other, noteRan, modify_other _ _ _ other, synchronized_promises,
      modify_other _ _ _ other]
  · rw [stamp, modify_same, noteRan, modify_same, synchronized_promises, modify_same]
  · change (synchronized w c.target 0 i c.outcome c.value).groups 0 = _
    rw [synchronized_groups, update_self]

variable (o n r)

/-- All inputs but `r` have settled; the promises of those in `left` are still to be fired. -/
structure Firing (left : List Nat) (w : World V) : Prop where
  reached : Reaches step (fun _ _ => True) start w
  idle : w.busy = none
  groupCount : w.groupCount = 1
  count : r < w.count
  last : w.promises r = { newPromise .made none none with queue := [n + 1 + r] }
  whole : w.promises n = newPromise .combined none none
  parts : ∀ i < n, i = r ∨ i ∈ left → w.promises (n + 1 + i) = partOf i
  fired : ∀ i < n, i ≠ r → i ∉ left → (w.promises (n + 1 + i)).got = some (o i)
  closures : w.closures = left.map (tellOf o n)
  d : (w.groups 0).d = n
  pending : (w.groups 0).pending = left.length + 1
  size : (w.groups 0).size = n
  places : (w.groups 0).parts = (List.range n).map (n + 1 + ·)

variable {o n r}

theorem passed_firing (inside : r < n) {w : World V}
    (reached : Reaches step (fun _ _ => True) start w) (passed : Passed o n r n w) :
    Firing o n r ((List.range n).filter (· ≠ r)) w := by
  obtain ⟨idle, groupCount, count, -, last, whole, parts, closures, group⟩ := passed
  have all : ((List.range n).filter (· ≠ r)).length + 1 = n := by
    have once : (List.range n).count r = 1 :=
      count_eq_one_of_mem nodup_range (mem_range.mpr inside)
    have split := length_eq_length_filter_add (l := List.range n) (· ≠ r)
    have rest : (List.range n).filter (fun i => !decide (i ≠ r)) =
        (List.range n).filter (· == r) := by
      apply filter_congr
      intro i _
      by_cases same : i = r <;> simp [same]
    rw [length_range, rest, ← countP_eq_length_filter (p := (· == r))] at split
    rw [List.count] at once
    omega
  refine ⟨reached, idle, groupCount, by omega, ?_, whole, fun i below _ => parts i below, ?_,
    closures, ?_, ?_, ?_, ?_⟩
  · rw [last, if_pos inside]
  · intro i below apart outside
    exact absurd (mem_filter.mpr ⟨mem_range.mpr below, decide_eq_true apart⟩) outside
  · rw [group]
  · rw [group]
    exact congrArg Int.ofNat all.symm
  · rw [group]
  · rw [group]

theorem Firing.next (plain : ∀ i, (o i).2.isPromise = false) {i : Nat} {left : List Nat}
    {w : World V} (firing : Firing o n r (i :: left) w) (inside : r < n) (below : i < n)
    (apart : i ≠ r) (once : i ∉ left) : ∃ after, Firing o n r left after := by
  obtain ⟨reached, idle, groupCount, count, last, whole, parts, fired, closures, d, pending, size,
    places⟩ := firing
  have stepped := step_fires w idle closures
  have part := fire_part { w with closures := left.map (tellOf o n) } (tellOf o n i) (plain i)
    (parts i below (.inr mem_cons_self))
  set after := fire { w with closures := left.map (tellOf o n) } (tellOf o n i) with is
  have other {x : Nat} (elsewhere : x ≠ n + 1 + i) : after.promises x = w.promises x :=
    part.others x elsewhere
  have going : ¬(w.groups 0).pending - 1 = 0 := by
    rw [pending, length_cons]
    omega
  refine ⟨after, .next .drain reached trivial stepped, part.busy.trans idle,
    part.groupCount.trans groupCount, part.count ▸ count, ?_, ?_, ?_, ?_, ?_, ?_, ?_, ?_, ?_⟩
  · rw [other (by omega)]
    exact last
  · rw [other (by omega)]
    exact whole
  · intro k exists_ which
    have different : k ≠ i := by
      rintro rfl
      exact which.elim apart once
    rw [other (by omega)]
    exact parts k exists_ (which.imp_right (mem_cons_of_mem _))
  · intro k exists_ unlike outside
    by_cases same : k = i
    · rw [same]
      exact part.got
    · rw [other (by omega)]
      exact fired k exists_ unlike fun among => (mem_cons.mp among).elim same outside
  · rw [part.closures]
    exact (congrArg (_ ++ ·) (if_neg going)).trans (append_nil _)
  · rw [part.groups]
    exact d
  · rw [part.groups]
    change (w.groups 0).pending - 1 = _
    rw [pending, length_cons]
    omega
  · rw [part.groups]
    exact size
  · rw [part.groups]
    exact places

theorem all_fired (plain : ∀ i, (o i).2.isPromise = false) (left : List Nat) {w : World V}
    (firing : Firing o n r left w) (inside : r < n) (below : ∀ i ∈ left, i < n)
    (apart : ∀ i ∈ left, i ≠ r) (once : left.Nodup) : ∃ after, Firing o n r [] after := by
  induction left generalizing w with
  | nil => exact ⟨w, firing⟩
  | cons i left ih =>
    rw [nodup_cons] at once
    obtain ⟨after, next⟩ := firing.next plain inside (below i mem_cons_self)
      (apart i mem_cons_self) once.1
    exact ih next (forall_mem_cons.mp below).2
      (forall_mem_cons.mp apart).2 once.2

theorem fire_input (w : World V) (c : Closure V) (plain : c.value.isPromise = false) {next : Nat}
    (is : w.promises c.target = { newPromise .made none none with queue := [next] }) :
    (∀ x ≠ c.target, (fire w c).promises x = w.promises x) ∧
      (fire w c).closures = w.closures ++ [⟨next, c.outcome, c.value, false⟩] ∧
      (fire w c).busy = w.busy ∧ (fire w c).groups = w.groups ∧
      (fire w c).groupCount = w.groupCount := by
  have none_ : (w.promises c.target).handler c.outcome = none := by
    rw [is]
    cases c.outcome <;> rfl
  have noted : (modify w c.target fun promise => { promise with
      value := c.value, got := some (c.outcome, c.value) }).promises c.target =
        { newPromise .made none none with
          queue := [next], value := c.value, got := some (c.outcome, c.value) } := by
    rw [modify_same, is]
  rw [fire_plain w (by rw [is]; rfl) plain, none_, handle,
    settle_orphan _ _ _ plain (by rw [noted]; rfl)]
  refine ⟨?_, ?_, rfl, rfl, rfl⟩
  · intro x other
    change (stamp _ _ _ _).promises x = _
    rw [stamp, modify_other _ _ _ other, modify_other _ _ _ other]
  · set stamped := stamp (modify w c.target fun promise => { promise with
      value := c.value, got := some (c.outcome, c.value) }) c.target c.outcome c.value with was
    have promise : stamped.promises c.target = { newPromise .made none none with
        state := some c.outcome, queue := [next], value := c.value,
        got := some (c.outcome, c.value) } := by
      rw [was, stamp, modify_same, noted]
    have self : behind stamped c.target = c.target := by
      apply behind_plain
      rw [promise]
      exact plain
    have handsOn : (stamped.promises c.target).handsOn = c.outcome := by
      apply handsOn_bare
      · rw [promise]
      · rw [promise]
        rfl
    rw [dispatch, self, handsOn, promise]
    rfl

/-- The last input settles, and the promise of `M.all` settles in the same way. -/
theorem last_decides (plain : ∀ i, (o i).2.isPromise = false) (inside : r < n) {w : World V}
    (firing : Firing o n r [] w) : ∃ after, Reaches step (fun _ _ => True) start after ∧
      after.busy = none ∧ after.closures = [] ∧ after.groupCount = 1 ∧ (after.groups 0).size = n ∧
      (after.groups 0).parts = (List.range n).map (n + 1 + ·) ∧
      (∀ i < n, (after.promises (n + 1 + i)).got = some (o i)) ∧
      (after.promises (after.groups 0).d).state = some (o r).1 := by
  obtain ⟨reached, idle, groupCount, count, last, whole, parts, fired, closures, d, pending, size,
    places⟩ := firing
  have can : possible w (.call r (o r).1 (o r).2) = true := by
    rw [possible, plain_known w (plain r), last]
    simp only [count, newPromise, decide_true, Bool.and_true]
  have called : step w (.act (.call r (o r).1 (o r).2)) =
      some (perform w (.call r (o r).1 (o r).2)) := by
    rw [step, if_pos can]
  -- input `r` settles and tells its promise
  have queued : (perform w (.call r (o r).1 (o r).2)).closures =
      (⟨r, (o r).1, (o r).2, true⟩ : Closure V) :: [] := by
    change w.closures ++ _ = _
    rw [closures]
    rfl
  have settled := step_fires (perform w (.call r (o r).1 (o r).2)) idle queued
  have input := fire_input { perform w (.call r (o r).1 (o r).2) with closures := [] }
    ⟨r, (o r).1, (o r).2, true⟩ (plain r) last
  set second := fire { perform w (.call r (o r).1 (o r).2) with closures := [] }
    ⟨r, (o r).1, (o r).2, true⟩
  -- the promise of input `r` is the last one that is fired
  have told : second.closures = tellOf o n r :: [] := input.2.1
  have partFires := step_fires second (input.2.2.1.trans idle) told
  have part := fire_part { second with closures := [] } (tellOf o n r) (plain r) (i := r) (by
    change second.promises (n + 1 + r) = partOf r
    rw [input.1 (n + 1 + r) (by change n + 1 + r ≠ r; omega)]
    exact parts r inside (.inl rfl))
  have groups : second.groups = w.groups := input.2.2.2.1
  set third := fire { second with closures := [] } (tellOf o n r)
  have ended : (second.groups 0).pending - 1 = 0 := by
    rw [groups, pending]
    rfl
  have decided : third.closures = (⟨n, (o r).1, .results 0, false⟩ : Closure V) :: [] := by
    rw [part.closures, if_pos ended]
    change [(⟨(second.groups 0).d, (o r).1, .results 0, false⟩ : Closure V)] = _
    rw [groups, d]
  have thirdPromise {x : Nat} (first : x ≠ r) (second : x ≠ n + 1 + r) :
      third.promises x = w.promises x :=
    (part.others x second).trans (input.1 x first)
  -- and the promise of `M.all` is told the same outcome
  have allFires := step_fires third (part.busy.trans (input.2.2.1.trans idle)) decided
  rw [fire_alone { third with closures := [] } ⟨n, (o r).1, .results 0, false⟩ rfl .combined (by
    change third.promises n = _
    rw [thirdPromise (by omega) (by omega)]
    exact whole)] at allFires
  have thirdGroup : third.groups 0 = counted (w.groups 0) r (o r).1 (o r).2 := by
    rw [part.groups]
    change counted (second.groups 0) r (o r).1 (o r).2 = _
    rw [groups]
  refine ⟨_, .next .drain
    (.next .drain (.next .drain (.next _ reached trivial called) trivial settled)
    trivial partFires) trivial allFires, part.busy.trans (input.2.2.1.trans idle), rfl,
    part.groupCount.trans (input.2.2.2.2.trans groupCount), ?_, ?_, ?_, ?_⟩
  · exact (congrArg AllGroup.size thirdGroup).trans size
  · exact (congrArg AllGroup.parts thirdGroup).trans places
  · intro i below
    rw [modify_other _ _ _ (by change n + 1 + i ≠ n; omega)]
    by_cases same : i = r
    · rw [same]
      exact part.got
    · change (third.promises (n + 1 + i)).got = _
      rw [thirdPromise (by omega) (by omega)]
      exact fired i below same not_mem_nil
  · have same : (third.groups 0).d = n := (congrArg AllGroup.d thirdGroup).trans d
    change ((modify _ _ _).promises (third.groups 0).d).state = _
    rw [same, modify_same]

end LastInput

theorem last_input_decides (outcomes : List (Outcome × Val V))
    (plain : ∀ outcome ∈ outcomes, outcome.2.isPromise = false) {r : Nat} {how : Outcome}
    {value : Val V} (at_ : outcomes[r]? = some (how, value)) :
    ∃ w g, Completed w g outcomes ∧ (w.promises (w.groups g).d).state = some how := by
  set o : Nat → Outcome × Val V := fun i => outcomes.getD i (.resolved, .nil) with is
  have inside : r < outcomes.length := (List.getElem?_eq_some_iff.mp at_).1
  have plainly : ∀ i, (o i).2.isPromise = false := by
    intro i
    rw [is]
    dsimp only
    rw [getD_eq_getElem?_getD]
    cases found : outcomes[i]? with
    | none => rfl
    | some outcome => exact plain outcome (mem_of_getElem? found)
  obtain ⟨ready, prepared⟩ := all_prepared plainly outcomes.length
  obtain ⟨begun, reached, passed⟩ := all_passed plainly inside prepared
  have firing := passed_firing inside reached passed
  obtain ⟨fired, done⟩ := all_fired plainly _ firing inside
    (fun i among => mem_range.mp (mem_filter.mp among).1)
    (fun i among => of_decide_eq_true (mem_filter.mp among).2)
    (nodup_range.filter _)
  obtain ⟨w, reached, idle, drained, groupCount, size, places, gots, state⟩ :=
    last_decides plainly inside done
  refine ⟨w, 0, ⟨reached, idle, drained, by omega, size, ?_⟩, ?_⟩
  · rw [places]
    apply ext_getElem?
    intro i
    rw [getElem?_map, getElem?_map, getElem?_map]
    rcases Nat.lt_or_ge i outcomes.length with below | beyond
    · rw [getElem?_range below, getElem?_eq_getElem below]
      change some (w.promises (outcomes.length + 1 + i)).got = _
      rw [gots i below, is]
      dsimp only
      rw [getD_eq_getElem?_getD, getElem?_eq_getElem below]
      rfl
    · rw [getElem?_eq_none (by rw [length_range]; exact beyond),
        getElem?_eq_none beyond]
      rfl
  · rw [state, is]
    dsimp only
    rw [getD_eq_getElem?_getD, at_]
    rfl

/-! ## The order of the inputs -/

/-- `M.all` settles in the same way and with the same table for all orders, and is resolved
exactly when all inputs are, if and only if all inputs settle the same way. Where the
promise rule is followed, what the inputs tell are their own outcomes. -/
theorem all_ignores_order_iff (outcomes : List (Outcome × Val V)) (nonempty : outcomes ≠ [])
    (plain : ∀ outcome ∈ outcomes, outcome.2.isPromise = false) :
    ((∀ (w₁ w₂ : World V) (g₁ g₂ : Nat), Completed w₁ g₁ outcomes → Completed w₂ g₂ outcomes →
        ∃ state table, Settles w₁ g₁ state table ∧ Settles w₂ g₂ state table ∧
          (state = .resolved ↔ ∀ outcome ∈ outcomes, outcome.1 = .resolved)) ↔
      (∀ outcome ∈ outcomes, outcome.1 = .resolved) ∨ ∀ outcome ∈ outcomes, outcome.1 = .rejected) ∧
    ∀ (w : World V) (g : Nat) (args : List Nat), Reaches step FollowsRule start w →
      w.busy = none → w.closures = [] → g < w.groupCount → (w.groups g).size = args.length →
      (w.groups g).parts.map (source w) = args.map some →
      args.map (outcomeOf w) = outcomes.map some → Completed w g outcomes := by
  refine ⟨⟨?_, ?_⟩, fun w g args reached idle drained group size inputs outcomesOf =>
    inputs_complete reached idle drained group size inputs outcomesOf⟩
  · intro ignores
    by_contra mixed
    rw [not_or] at mixed
    obtain ⟨unresolved, unrejected⟩ := mixed
    push Not at unrejected
    obtain ⟨⟨how, value⟩, among, other⟩ := unrejected
    have resolved : how = .resolved := by
      cases how with
      | resolved => rfl
      | rejected => exact absurd rfl other
    obtain ⟨r, at_⟩ := getElem?_of_mem among
    -- a resolved input comes last
    obtain ⟨w, g, completed, state⟩ := last_input_decides outcomes plain at_
    obtain ⟨settled, table, settles, -, right⟩ := ignores w w g g completed completed
    rw [settles.1, resolved] at state
    exact unresolved (right.mp (Option.some.inj state))
  · intro alike w₁ w₂ g₁ g₂ first second
    rcases alike with resolved | rejected
    · refine ⟨.resolved, _, alike_settles first nonempty resolved,
        alike_settles second nonempty resolved, ?_⟩
      exact ⟨fun _ => resolved, fun _ => rfl⟩
    · refine ⟨.rejected, _, alike_settles first nonempty rejected,
        alike_settles second nonempty rejected, ?_⟩
      obtain ⟨outcome, among⟩ := exists_mem_of_ne_nil outcomes nonempty
      refine ⟨nofun, fun resolved => ?_⟩
      have both := (rejected outcome among).symm.trans (resolved outcome among)
      nomatch both

/-- Two inputs, of which one is resolved and one is rejected. -/
theorem mixed_inputs_depend_on_order :
    ¬∀ (w₁ w₂ : World Nat) (g₁ g₂ : Nat),
      Completed w₁ g₁ [(.resolved, .plain 1), (.rejected, .plain 2)] →
      Completed w₂ g₂ [(.resolved, .plain 1), (.rejected, .plain 2)] →
      ∃ state table, Settles w₁ g₁ state table ∧ Settles w₂ g₂ state table ∧
        (state = .resolved ↔ ∀ outcome ∈ [(Outcome.resolved, Val.plain 1), (.rejected, .plain 2)],
          outcome.1 = .resolved) := by
  intro ignores
  have alike := (all_ignores_order_iff _ (by decide) (by decide)).1.mp ignores
  exact absurd alike (by decide)

def orderSession (first second : Act Nat) : List (Event Nat) :=
  [.act .new, .act .new, .act (.all [0, 1]), .act first, .drain, .drain, .act second,
    .drain, .drain, .drain]

def allState (session : List (Event Nat)) : Option (Option Outcome) :=
  (run step start session).map fun w => (w.promises 2).state

def allTable (session : List (Event Nat)) : Option (List (Option (Outcome × Val Nat))) :=
  (run step start session).map fun w => [(w.groups 0).results 0, (w.groups 0).results 1]

/-- The same two outcomes in both orders: the tables are equal, the states of the combined
promise are not. -/
theorem order_decides_all :
    allState (orderSession (.call 0 .resolved (.plain 1)) (.call 1 .rejected (.plain 2))) =
        some (some .rejected) ∧
      allState (orderSession (.call 1 .rejected (.plain 2)) (.call 0 .resolved (.plain 1))) =
        some (some .resolved) ∧
      allTable (orderSession (.call 0 .resolved (.plain 1)) (.call 1 .rejected (.plain 2))) =
        allTable (orderSession (.call 1 .rejected (.plain 2)) (.call 0 .resolved (.plain 1))) ∧
      allTable (orderSession (.call 1 .rejected (.plain 2)) (.call 0 .resolved (.plain 1))) =
        some [some (.resolved, .plain 1), some (.rejected, .plain 2)] := by
  decide +kernel

end Chuck.PromiseAll
