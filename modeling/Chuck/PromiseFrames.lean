import Chuck.PromiseModel

/-!
# What the parts of `fire` change

Equations for `fire` by what the closure brings, and for `settle`: the promise gets its
state and value, and then either becomes the parent of the pending promise that is its
value, or tells everyone in its queue and in that of its parent.
-/

namespace Chuck.PromiseFrames

open PromiseModel Function

variable {V : Type} (w : World V) (p x : Nat)

/-! ## Notions that several results share -/

def Live : Prop :=
  (w.promises x).state = none ∨
    ∃ r, (w.promises x).value = .promise r ∧ (w.promises r).state = none ∧
      (w.promises r).parent = some x

def RanFor (promise : Promise V) (outcome : Outcome) : Prop :=
  (promise.handler outcome = none → promise.ran = []) ∧
    (promise.handler outcome ≠ none → ∃ result, promise.ran = [result])

/-! ## Small steps -/

section

variable (f : Promise V → Promise V)

@[simp] theorem modify_same : (modify w p f).promises p = f (w.promises p) :=
  update_self ..

theorem modify_other {x : Nat} (other : x ≠ p) : (modify w p f).promises x = w.promises x :=
  update_of_ne other ..

@[simp] theorem modify_groups : (modify w p f).groups = w.groups := rfl

end

theorem modify_field {α : Type} (field : Promise V → α) (f : Promise V → Promise V)
    (keeps : field (f (w.promises p)) = field (w.promises p)) :
    field ((modify w p f).promises x) = field (w.promises x) := by
  by_cases same : x = p
  · rw [same, modify_same, keeps]
  · rw [modify_other w p f same]

@[simp] theorem create_new (promise : Promise V) : (create w promise).promises w.count = promise :=
  update_self ..

theorem create_old (promise : Promise V) {x : Nat} (old : x < w.count) :
    (create w promise).promises x = w.promises x :=
  update_of_ne old.ne ..

theorem enqueue_eq (next : Nat) : enqueue w p next = { w with
    promises := fun x => { w.promises x with
      queue := if x = p then (w.promises p).queue ++ [next] else (w.promises x).queue } } := by
  rw [enqueue, PromiseModel.modify]
  congr 1
  funext x
  by_cases same : x = p
  · rw [same, update_self, if_pos rfl]
  · rw [update_of_ne same, if_neg same]

theorem wait_eq (q : Nat) :
    enqueue (modify w p fun promise => { promise with value := .promise q }) q p = { w with
      promises := fun x => { w.promises x with
        value := if x = p then .promise q else (w.promises x).value
        queue := if x = q then (w.promises q).queue ++ [p] else (w.promises x).queue } } := by
  have queues (x : Nat) := modify_field w p x (·.queue)
    (fun promise => { promise with value := .promise q }) rfl
  rw [enqueue_eq]
  congr 1
  funext x
  rw [queues, queues]
  by_cases same : x = p
  · rw [same, modify_same, if_pos rfl]
  · rw [modify_other _ _ _ same, if_neg same]

theorem note_eq (value : Val V) (got : Option (Outcome × Val V)) :
    (modify w p fun promise => { promise with value := value, got := got }) = { w with
      promises := fun x => { w.promises x with
        value := if x = p then value else (w.promises x).value
        got := if x = p then got else (w.promises x).got } } := by
  rw [PromiseModel.modify]
  congr 1
  funext x
  by_cases same : x = p
  · rw [same, update_self, if_pos rfl, if_pos rfl]
  · rw [update_of_ne same, if_neg same, if_neg same]

/-- `create`, promise by promise. -/
theorem create_eq (blank : w.promises w.count = newPromise .combined none none) (kind : Kind)
    (success failure : Option Handler) :
    create w (newPromise kind success failure) = { w with
      promises := fun x => { w.promises x with
        kind := if x = w.count then kind else (w.promises x).kind
        success := if x = w.count then success else (w.promises x).success
        failure := if x = w.count then failure else (w.promises x).failure }
      count := w.count + 1 } := by
  rw [create]
  congr 1
  funext x
  by_cases new : x = w.count
  · rw [new, update_self, if_pos rfl, if_pos rfl, if_pos rfl, blank]
    rfl
  · rw [update_of_ne new, if_neg new, if_neg new, if_neg new]

theorem mark_eq : (modify w p fun promise => { promise with isFinal := true }) = { w with
    promises := fun x => { w.promises x with
      isFinal := if x = p then true else (w.promises x).isFinal } } := by
  rw [PromiseModel.modify]
  congr 1
  funext x
  by_cases same : x = p
  · rw [same, update_self, if_pos rfl]
  · rw [update_of_ne same, if_neg same]

/-! ## `settle` -/

def valueBehind (p : Nat) : Val V → Nat
  | .promise q => q
  | _ => p

theorem behind_eq : behind w p = valueBehind p (w.promises p).value := by
  rw [behind]
  cases (w.promises p).value <;> rfl

theorem behind_plain (plain : (w.promises p).value.isPromise = false) : behind w p = p := by
  rw [behind_eq]
  cases is : (w.promises p).value with
  | promise q => nomatch is ▸ plain
  | _ => rfl

def waiting : List Nat :=
  match (w.promises p).parent with
  | none => (w.promises p).queue
  | some parent => (w.promises parent).queue ++ (w.promises p).queue

def stamp (state : Outcome) (value : Val V) : World V :=
  modify w p fun promise => { promise with state := some state, value := value }

def heir : Val V → Option Nat
  | .promise q => if q ≠ p ∧ (w.promises q).state = none then some q else none
  | _ => none

def settledQueue (value : Val V) : List Nat :=
  if heir w p value ≠ none then (w.promises x).queue
  else if (w.promises p).parent = some x then []
  else if x = p then waiting w p
  else (w.promises x).queue

def settledPromise (state : Outcome) (value : Val V) (x : Nat) : Promise V :=
  { w.promises x with
    state := if x = p then some state else (w.promises x).state
    value := if x = p then value else (w.promises x).value
    queue := settledQueue w p x value
    parent := if heir w p value = some x then some p else (w.promises x).parent }

def toldAll (state : Outcome) (value : Val V) : List (Closure V) :=
  if heir w p value ≠ none then []
  else (settledQueue w p p value).map fun target =>
    { target := target
      outcome := (settledPromise w p state value (valueBehind p value)).handsOn
      value := (settledPromise w p state value (valueBehind p value)).value
      called := false }

section

variable {w p x} {value : Val V}

theorem heir_eq_some {q : Nat} : heir w p value = some q ↔
    value = .promise q ∧ q ≠ p ∧ (w.promises q).state = none := by
  cases value with
  | promise r =>
    rw [heir, Option.ite_none_right_eq_some, Option.some_inj, Val.promise.injEq, and_comm]
    constructor <;> rintro ⟨rfl, rest⟩ <;> exact ⟨rfl, rest⟩
  | _ => exact ⟨nofun, fun is => absurd is.1 nofun⟩

theorem heir_eq_none (plain : value.isPromise = false) : heir w p value = none := by
  cases value with
  | promise q => nomatch plain
  | _ => rfl

theorem settledQueue_none (none : heir w p value = none)
    (proper : (w.promises p).parent ≠ some p) : settledQueue w p p value = waiting w p := by
  rw [settledQueue, if_neg (not_not.mpr none), if_neg proper, if_pos rfl]

theorem settledQueue_other (other : x ≠ p) {next : Nat} (among : next ∈ settledQueue w p x value) :
    next ∈ (w.promises x).queue := by
  rw [settledQueue, if_neg other] at among
  split_ifs at among
  · exact among
  · nomatch among
  · exact among

theorem settledQueue_from {next : Nat} (among : next ∈ settledQueue w p x value) :
    ∃ y, next ∈ (w.promises y).queue := by
  by_cases same : x = p
  · rw [same, settledQueue, if_pos rfl] at among
    split_ifs at among
    · exact ⟨p, among⟩
    · nomatch among
    · rw [waiting] at among
      split at among
      · exact ⟨p, among⟩
      · exact (List.mem_append.mp among).elim (fun there => ⟨_, there⟩) fun there => ⟨_, there⟩
  · exact ⟨x, settledQueue_other same among⟩

theorem settledPromise_other {state : Outcome} (other : x ≠ p) (unborn : heir w p value ≠ some x)
    (foreign : (w.promises p).parent ≠ some x) :
    settledPromise w p state value x = w.promises x := by
  rw [settledPromise, settledQueue, if_neg other, if_neg other, if_neg other, if_neg foreign,
    if_neg unborn, ite_self]

theorem settledPromise_handler (state : Outcome) (outcome : Outcome) :
    (settledPromise w p state value x).handler outcome = (w.promises x).handler outcome := by
  cases outcome <;> rfl

theorem mem_toldAll {state : Outcome} {c : Closure V} (among : c ∈ toldAll w p state value) :
    heir w p value = none ∧ c.called = false ∧ c.target ∈ settledQueue w p p value ∧
      c.outcome = (settledPromise w p state value (valueBehind p value)).handsOn ∧
      c.value = (settledPromise w p state value (valueBehind p value)).value := by
  rw [toldAll] at among
  split_ifs at among with has
  · nomatch among
  · obtain ⟨target, there, rfl⟩ := List.mem_map.mp among
    exact ⟨not_not.mp has, rfl, there, rfl, rfl⟩

end

variable (state : Outcome) (value : Val V)

theorem pending_stamped : pendingValue (stamp w p state value) value = heir w p value := by
  cases value with
  | promise q =>
    rw [pendingValue, heir, stamp]
    by_cases same : q = p
    · rw [same, modify_same, if_neg (by rintro ⟨⟩), if_neg fun both => both.1 rfl]
    · rw [modify_other _ _ _ same]
      simp only [same, ne_eq, not_false_eq_true, true_and]
  | _ => rfl

theorem settle_stamped : settle w p state value =
    match heir w p value with
    | some q => modify (stamp w p state value) q fun promise => { promise with parent := some p }
    | none => dispatch (mergeParent (stamp w p state value) p) p := by
  rw [settle, ← pending_stamped w p state value]
  rfl

theorem settle_orphan {value : Val V} (plain : value.isPromise = false)
    (orphan : (w.promises p).parent = none) :
    settle w p state value = dispatch (stamp w p state value) p := by
  have parent : ((stamp w p state value).promises p).parent = none := by
    rw [stamp, modify_same]
    exact orphan
  rw [settle_stamped, heir_eq_none plain]
  rw [mergeParent, parent]

theorem merge_stamped (none : heir w p value = none) :
    mergeParent (stamp w p state value) p =
      { w with promises := settledPromise w p state value } := by
  have stamped (x : Nat) : (stamp w p state value).promises x = { w.promises x with
      state := if x = p then some state else (w.promises x).state
      value := if x = p then value else (w.promises x).value } := by
    rw [stamp]
    by_cases same : x = p
    · rw [same, modify_same, if_pos rfl, if_pos rfl]
    · rw [modify_other _ _ _ same, if_neg same, if_neg same]
  have merged (x : Nat) : (mergeParent (stamp w p state value) p).promises x =
      settledPromise w p state value x := by
    have own : ((stamp w p state value).promises p).parent = (w.promises p).parent := by
      rw [stamped]
    rw [mergeParent, own, settledPromise, settledQueue, waiting, none]
    cases (w.promises p).parent with
    | none =>
      rw [stamped]
      by_cases same : x = p <;> simp [same]
    | some y =>
      by_cases here : x = y
      · rw [here, modify_same]
        by_cases same : y = p
        · rw [same, modify_same, stamped]
          simp
        · rw [modify_other _ _ _ same, stamped]
          simp
      · rw [modify_other _ _ _ here]
        by_cases same : x = p
        · rw [same] at here ⊢
          rw [modify_same, stamped, stamped]
          simp [Ne.symm here]
        · rw [modify_other _ _ _ same, stamped]
          simp [same, Ne.symm here]
  rw [← funext merged, mergeParent]
  split <;> rfl

theorem settle_eq : settle w p state value = { w with
    promises := settledPromise w p state value
    closures := w.closures ++ toldAll w p state value } := by
  rw [settle_stamped]
  cases has : heir w p value with
  | none =>
    have own : (settledPromise w p state value p).value = value := if_pos rfl
    rw [merge_stamped w p state value has, dispatch, behind_eq, own, toldAll,
      if_neg (not_not.mpr has)]
    rfl
  | some q =>
    have apart := (heir_eq_some.mp has).2.1
    have promises (x : Nat) : (modify (stamp w p state value) q fun promise =>
        { promise with parent := some p }).promises x = settledPromise w p state value x := by
      rw [settledPromise, settledQueue, has, if_pos (Option.some_ne_none q)]
      by_cases here : x = q
      · rw [here, modify_same, stamp, modify_other _ _ _ apart]
        simp [apart]
      · rw [modify_other _ _ _ here, stamp]
        by_cases same : x = p
        · rw [same, modify_same]
          simp [apart]
        · rw [modify_other _ _ _ same]
          simp [same, Ne.symm here]
    rw [toldAll, has, if_pos (Option.some_ne_none q), List.append_nil, ← funext promises]
    rfl

theorem settle_state_same : ((settle w p state value).promises p).state = some state := by
  rw [settle_eq]
  exact if_pos rfl

theorem settle_value_same : ((settle w p state value).promises p).value = value := by
  rw [settle_eq]
  exact if_pos rfl

theorem settle_state_other {x : Nat} (other : x ≠ p) :
    ((settle w p state value).promises x).state = (w.promises x).state := by
  rw [settle_eq]
  exact if_neg other

theorem settle_value_other {x : Nat} (other : x ≠ p) :
    ((settle w p state value).promises x).value = (w.promises x).value := by
  rw [settle_eq]
  exact if_neg other

theorem settle_failure :
    ((settle w p state value).promises x).failure = (w.promises x).failure := by
  rw [settle_eq]
  rfl

/-! ## `fire` -/

section Fires

variable (c : Closure V)

theorem fire_settled (settled : (w.promises c.target).state ≠ none) : fire w c = w := by
  rw [fire, if_neg settled]

variable {c} (pending : (w.promises c.target).state = none)

include pending

theorem fire_self (is : c.value = .promise c.target) :
    fire w c = settle w c.target .rejected .typeError := by
  rw [fire, if_pos pending, is]
  exact if_pos rfl

theorem fire_pending {q : Nat} (is : c.value = .promise q) (other : q ≠ c.target)
    (waits : (w.promises q).state = none) :
    fire w c = enqueue (modify w c.target fun promise => { promise with value := .promise q })
      q c.target := by
  rw [fire, if_pos pending, is]
  dsimp only
  rw [if_neg other, waits]

theorem fire_adopts {q : Nat} {state : Outcome} (is : c.value = .promise q) (other : q ≠ c.target)
    (settled : (w.promises q).state = some state) :
    fire w c = settle w c.target state (w.promises q).value := by
  rw [fire, if_pos pending, is]
  dsimp only
  rw [if_neg other, settled]

theorem fire_plain (plain : c.value.isPromise = false) :
    fire w c = handle (modify w c.target fun promise =>
        { promise with value := c.value, got := some (c.outcome, c.value) })
      c.target c.outcome c.value ((w.promises c.target).handler c.outcome) := by
  rw [fire, if_pos pending]
  cases is : c.value with
  | promise q =>
    rw [is] at plain
    nomatch plain
  | _ => rfl

end Fires

/-! ## Events -/

theorem args_below {args : List Nat} (can : args.all (· < w.count) = true) :
    ∀ arg ∈ args, arg < w.count :=
  fun arg among => of_decide_eq_true (List.all_eq_true.mp can arg among)

theorem step_act {act : Act V} {after : World V} (stepped : step w (.act act) = some after) :
    possible w act = true ∧ after = perform w act := by
  rw [step] at stepped
  split_ifs at stepped with can
  exact ⟨can, (Option.some.inj stepped).symm⟩

theorem step_drain {after : World V} (stepped : step w .drain = some after) :
    ∃ c rest, w.busy = none ∧ w.closures = c :: rest ∧
      after = fire { w with closures := rest } c := by
  rw [step] at stepped
  split at stepped
  · rename_i c rest idle queued
    exact ⟨c, rest, idle, queued, (Option.some.inj stepped).symm⟩
  · nomatch stepped

theorem step_fires {c : Closure V} {rest : List (Closure V)} (idle : w.busy = none)
    (queued : w.closures = c :: rest) :
    step w .drain = some (fire { w with closures := rest } c) := by
  rw [step]
  split
  · rename_i first others _ is
    rw [queued] at is
    obtain ⟨rfl, rfl⟩ := List.cons.inj is
    rfl
  · rename_i none
    exact absurd queued (none c rest idle)

theorem step_finish {result : Result V} {after : World V}
    (stepped : step w (.finish result) = some after) :
    ∃ p outcome, w.busy = some (p, outcome) ∧ known w result.value = true ∧
      after = finish w p outcome result := by
  rw [step] at stepped
  split at stepped
  · rename_i p outcome busy
    split_ifs at stepped with can
    exact ⟨p, outcome, busy, can, (Option.some.inj stepped).symm⟩
  · nomatch stepped

/-! ## Notes made before a promise settles -/

structure Notes (w : World V) (p : Nat) (f : Promise V → Promise V) : Prop where
  state : (f (w.promises p)).state = (w.promises p).state
  queue : (f (w.promises p)).queue = (w.promises p).queue
  parent : (f (w.promises p)).parent = (w.promises p).parent
  kind : (f (w.promises p)).kind = (w.promises p).kind
  success : (f (w.promises p)).success = (w.promises p).success
  failure : (f (w.promises p)).failure = (w.promises p).failure

theorem settle_noted (w : World V) (t : Nat) (f : Promise V → Promise V) (result : Result V)
    (state : Outcome) (value : Val V) :
    settle (noteRan (modify w t f) t result) t state value =
      settle (modify w t fun promise => { f promise with ran := (f promise).ran ++ [result] })
        t state value := by
  have same : noteRan (modify w t f) t result =
      modify w t fun promise => { f promise with ran := (f promise).ran ++ [result] } := by
    rw [noteRan, PromiseModel.modify, PromiseModel.modify, PromiseModel.modify]
    simp only [update_self, update_idem]
  rw [same]

theorem unnoted (w : World V) (t : Nat) : modify w t id = w := by
  rw [PromiseModel.modify, id, update_eq_self]

end Chuck.PromiseFrames
