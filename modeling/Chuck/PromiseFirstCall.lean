import Chuck.PromiseFates

/-!
# The first call of a resolver

A promise of the program takes its state and value from the first call of its `resolve`
or `reject`. This needs two things that the code does not ensure. While the promise
waits in the queue of another one it is still `PENDING`, and a later call then settles
it. And a settled promise that is passed must tell its own outcome: `fire` takes over
its state, also where a failure handler has dealt with the error, and its value, also
where that is another promise.
-/

namespace Chuck.PromiseFirstCall

open PromiseModel PromiseFrames PromiseSane PromiseFates Support.FaultFreeRuns Function List

variable {V : Type} {w after : World V}
variable {p q : Nat} {cur : Option Nat} {outcome : Outcome}

/-! ## Closures come and go -/

theorem call_good (good : Good none w) (made : (w.promises p).kind = .made) (outcome : Outcome)
    (value : Val V) : Good none { w with
      closures := w.closures ++
        [{ target := p, outcome := outcome, value := value, called := true }]
      calls := update w.calls p (w.calls p ++ [(outcome, value)]) } := by
  set after : World V := { w with
    closures := w.closures ++ [{ target := p, outcome := outcome, value := value, called := true }]
    calls := update w.calls p (w.calls p ++ [(outcome, value)]) } with is
  have queuedSame : queuedCalls after p = queuedCalls w p ++ [(outcome, value)] := by
    simp [queuedCalls, is, filter_append]
  have callsSame : after.calls p = w.calls p ++ [(outcome, value)] := update_self ..
  have queuedOther {x : Nat} (other : x ≠ p) : queuedCalls after x = queuedCalls w x := by
    simp [queuedCalls, is, filter_append, Ne.symm other]
  have callsOther {x : Nat} (other : x ≠ p) : after.calls x = w.calls x :=
    update_of_ne other ..
  have begun (x : Nat) : Begun after x ↔ Begun w x := by
    by_cases same : x = p
    · rw [same, Begun, Begun, queuedSame, callsSame, ne_eq, append_left_inj]
    · rw [Begun, Begun, queuedOther same, callsOther same]
  -- a call that has begun is there already, and stays the first
  have keeps : Keeps w after := by
    refine ⟨⟨fun _ _ => rfl, fun _ _ => rfl, fun _ _ => rfl⟩, fun x => (begun x).mpr,
      fun x first has => ?_⟩
    by_cases same : x = p
    · rw [same] at has ⊢
      rw [callsSame, head?_append, has]
      rfl
    · rw [callsOther same]
      exact has
  constructor
  · intro x
    by_cases same : x = p
    · rw [same, queuedSame, callsSame]
      exact suffix_append_inj_of_length_eq rfl |>.mpr ⟨good.calls p, rfl⟩
    · rw [queuedOther same, callsOther same]
      exact good.calls x
  · intro x called
    by_cases same : x = p
    · exact same ▸ made
    · rw [callsOther same] at called
      exact good.callers x called
  · exact fun x other made => (good.standing x other made).keep keeps (begun x).mp rfl rfl
  · intro c among uncalled made pending
    rcases mem_append.mp among with old | new
    · exact keeps.told (good.told c old uncalled made pending)
    · rw [mem_singleton.mp new] at uncalled
      cases uncalled
  · exact fun x live next among made pending =>
      keeps.queued (good.queued x live next among made pending)

variable {c : Closure V} {rest : List (Closure V)}

theorem drop_good (good : Good none w) (queued : w.closures = c :: rest) :
    Good (if c.called then some c.target else none) { w with closures := rest } ∧
      (c.called = true → Begun { w with closures := rest } c.target) ∧
      Keeps w { w with closures := rest } := by
  have queuedOther {x : Nat} (other : c.called = true → x ≠ c.target) :
      queuedCalls { w with closures := rest } x = queuedCalls w x := by
    rw [queuedCalls, queuedCalls, queued, filter_cons_of_neg]
    intro both
    rw [Bool.and_eq_true, beq_iff_eq] at both
    exact other both.1 both.2.symm
  have queuedSame (called : c.called = true) : queuedCalls w c.target =
      (c.outcome, c.value) :: queuedCalls { w with closures := rest } c.target := by
    rw [queuedCalls, queuedCalls, queued, filter_cons_of_pos (by simp [called]), map_cons]
  have starts (called : c.called = true) : Begun { w with closures := rest } c.target := by
    have suffix := (good.calls c.target).length_le
    rw [queuedSame called, length_cons] at suffix
    intro same
    have sizes := congrArg List.length same
    dsimp only at sizes
    omega
  have keeps : Keeps w { w with closures := rest } := by
    refine ⟨⟨fun _ _ => rfl, fun _ _ => rfl, fun _ _ => rfl⟩, fun x has => ?_, fun _ _ => id⟩
    by_cases here : c.called = true ∧ x = c.target
    · rw [here.2]
      exact starts here.1
    · rw [Begun, queuedOther fun called same => here ⟨called, same⟩]
      exact has
  refine ⟨⟨fun x => ?_, good.callers, fun x other made => ?_,
    fun d among uncalled made pending => ?_,
    fun x live next among made pending => ?_⟩, starts, keeps⟩
  · by_cases here : c.called = true ∧ x = c.target
    · have suffix := good.calls c.target
      rw [queuedSame here.1] at suffix
      rw [here.2]
      exact (suffix_cons _ _).trans suffix
    · rw [queuedOther fun called same => here ⟨called, same⟩]
      exact good.calls x
  · have apart : c.called = true → x ≠ c.target := by
      intro called same
      rw [if_pos called, same] at other
      exact other rfl
    refine (good.standing x (by rintro ⟨⟩) made).keep keeps (fun has => ?_) rfl rfl
    rw [Begun, ← queuedOther apart]
    exact has
  · exact keeps.told (good.told d (queued ▸ mem_cons_of_mem _ among) uncalled made pending)
  · exact keeps.queued (good.queued x live next among made pending)

/-! ## A promise settles or waits -/

theorem settle_grows (pending : (w.promises p).state = none) (state : Outcome) (value : Val V) :
    Grows w (settle w p state value) := by
  have other {x : Nat} (settled : (w.promises x).state ≠ none) : x ≠ p :=
    fun same => settled (same ▸ pending)
  exact
    { state := fun x settled => settle_state_other w p state value (other settled)
      value := fun x settled => settle_value_other w p state value (other settled)
      failure := fun x _ => settle_failure w p x state value }

theorem waiting_awaits (sane : Sane w) (good : Good cur w) {next : Nat}
    (pending : (w.promises p).state = none) (among : next ∈ waiting w p)
    (made : (w.promises next).kind = .made) (waits : (w.promises next).state = none) :
    ∃ q, Awaits w next q ∧ Chain w q p := by
  rw [waiting] at among
  cases own : (w.promises p).parent with
  | none =>
    rw [own] at among
    exact good.queued p (.inl pending) next among made waits
  | some x =>
    rw [own] at among
    rcases mem_append.mp among with parents | owns
    · obtain ⟨settled, is⟩ := sane.parent p x own
      obtain ⟨q, awaits, chain⟩ :=
        good.queued x (.inr ⟨p, is, pending, own⟩) next parents made waits
      exact ⟨q, awaits, chain.tail ⟨settled, is⟩⟩
    · exact good.queued p (.inl pending) next owns made waits

theorem told_brings {c : Closure V} {state : Outcome} {value : Val V}
    (told : c ∈ toldAll w p state value) (chain : Chain (settle w p state value) q p) :
    Brings (settle w p state value) q c := by
  obtain ⟨childless, -, -, outcome, given⟩ := mem_toldAll told
  have settled : ((settle w p state value).promises p).state ≠ none := by
    rw [settle_state_same]
    exact nofun
  have behind : Chain (settle w p state value) q (valueBehind p value) ∧
      ((settle w p state value).promises (valueBehind p value)).state ≠ none := by
    cases is : value with
    | promise r =>
      rw [is] at settled chain childless
      have link : Link (settle w p state (.promise r)) p r :=
        ⟨settled, settle_value_same ..⟩
      refine ⟨chain.tail link, ?_⟩
      by_cases same : r = p
      · subst same
        exact settled
      · rw [valueBehind, settle_state_other w p state _ same]
        intro waits
        nomatch childless.symm.trans (heir_eq_some.mpr ⟨rfl, same, waits⟩)
    | _ =>
      rw [is] at settled chain
      exact ⟨chain, settled⟩
  rw [settle_eq] at behind ⊢
  refine ⟨fun plain => ⟨_, behind.1, behind.2, given ▸ plain, outcome, given⟩, ?_⟩
  intro r is
  exact behind.1.tail ⟨behind.2, given ▸ is⟩

theorem settle_live {x : Nat} (state : Outcome) (value : Val V)
    (pending : (w.promises p).state = none) (live : Live (settle w p state value) x) :
    Live w x ∧ (x = p → heir w p value ≠ none) := by
  have before {y : Nat} (waits : ((settle w p state value).promises y).state = none) :
      y ≠ p ∧ (w.promises y).state = none := by
    have other : y ≠ p := by
      rintro rfl
      rw [settle_state_same] at waits
      nomatch waits
    rw [settle_state_other w p state value other] at waits
    exact ⟨other, waits⟩
  rcases live with waits | ⟨r, is, waits, parent⟩
  · exact ⟨.inl (before waits).2, fun same => absurd same (before waits).1⟩
  obtain ⟨apart, unsettled⟩ := before waits
  by_cases same : x = p
  · rw [same, settle_value_same] at is
    rw [heir_eq_some.mpr ⟨is, apart, unsettled⟩]
    exact ⟨.inl (same ▸ pending), fun _ => Option.some_ne_none r⟩
  · rw [settle_value_other w p state value same] at is
    refine ⟨.inr ⟨r, is, unsettled, ?_⟩, fun eq => absurd eq same⟩
    rw [settle_eq] at parent
    change (if heir w p value = some r then some p else _) = some x at parent
    split_ifs at parent
    · exact absurd (Option.some.inj parent).symm same
    · exact parent

theorem settle_good (sane : Sane w) (good : Good cur w) (only : ∀ q, cur = some q → q = p)
    (state : Outcome) (value : Val V) (pending : (w.promises p).state = none)
    (decides : (w.promises p).kind = .made → Begun w p ∧ ∃ first, (w.calls p).head? = some first ∧
      Fate (settle w p state value) p first state value) : Good none (settle w p state value) := by
  have grows := settle_grows pending state value
  have brought {c : Closure V} (told : c ∈ toldAll w p state value)
      (made : (w.promises c.target).kind = .made) (waits : (w.promises c.target).state = none) :
      ∃ q, Awaits w c.target q ∧ Brings (settle w p state value) q c := by
    obtain ⟨childless, -, waited, -⟩ := mem_toldAll told
    rw [settledQueue_none childless (sane.parent_ne pending)] at waited
    obtain ⟨q, awaits, chain⟩ := waiting_awaits sane good pending waited made waits
    exact ⟨q, awaits, told_brings told (grows.chain chain)⟩
  have lives {x : Nat} := settle_live (x := x) state value pending
  rw [settle_eq] at grows brought lives decides ⊢
  set after : World V := { w with
    promises := settledPromise w p state value
    closures := w.closures ++ toldAll w p state value }
  have queuedSame : ∀ x, queuedCalls after x = queuedCalls w x :=
    queued_uncalled ⟨_, rfl, fun c told => (mem_toldAll told).2.1⟩ rfl
  have begun (x : Nat) : Begun after x ↔ Begun w x := by rw [Begun, Begun, queuedSame]
  have keeps : Keeps w after := ⟨grows, fun x => (begun x).mpr, fun _ _ => id⟩
  -- a promise that is pending afterwards is another one, and was pending
  have before {x : Nat} (waits : (if x = p then some state else (w.promises x).state) = none) :
      x ≠ p ∧ (w.promises x).state = none := by
    split_ifs at waits with same
    exact ⟨same, waits⟩
  constructor
  · intro x
    rw [queuedSame]
    exact good.calls x
  · exact good.callers
  · intro x _ made
    by_cases same : x = p
    · rw [same] at made ⊢
      obtain ⟨has, first, head, fate⟩ := decides made
      refine ⟨fun idle => absurd ((begun p).mpr has) idle, fun _ how settled => ?_,
        fun _ waits => absurd rfl (before waits).1⟩
      obtain rfl := Option.some.inj ((if_pos rfl).symm.trans settled)
      refine ⟨first, head, ?_⟩
      change Fate after p first state (if p = p then value else _)
      rwa [if_pos rfl]
    · exact (good.standing x (fun eq => same (only x eq)) made).keep keeps (begun x).mp
        (if_neg same) (if_neg same)
  · intro c among uncalled made waits
    obtain ⟨-, unsettled⟩ := before waits
    rcases mem_append.mp among with old | new
    · exact keeps.told (good.told c old uncalled made unsettled)
    · obtain ⟨q, waiting, brings⟩ := brought new made unsettled
      exact ⟨q, keeps.awaits waiting, brings⟩
  · intro x live next among made waits
    obtain ⟨-, unsettled⟩ := before waits
    obtain ⟨lived, own⟩ := lives live
    refine keeps.queued (good.queued x lived next ?_ made unsettled)
    by_cases same : x = p
    · change next ∈ settledQueue w p x value at among
      rwa [settledQueue, if_pos (own same)] at among
    · exact settledQueue_other same among

theorem revise_good {next : Option Nat} (good : Good cur w) (pending : (w.promises p).state = none)
    (value : Val V) (gots : Nat → Option (Outcome × Val V)) (queues : Nat → List Nat)
    (apart : ∀ x, x ≠ p → next ≠ some x → cur ≠ some x)
    (waits : next ≠ some p → (w.promises p).kind = .made →
      value.isPromise = true ∧ ∃ q, Awaits w p q)
    (queued : ∀ x, ∀ y ∈ queues x, y ∈ (w.promises x).queue ∨
      (y = p ∧ ((w.promises p).kind = .made → ∃ q, Awaits w p q ∧ Chain w q x))) :
    Good next { w with promises := fun x => { w.promises x with
      value := if x = p then value else (w.promises x).value
      got := gots x
      queue := queues x } } := by
  have other {x : Nat} (settled : (w.promises x).state ≠ none) : x ≠ p :=
    fun same => settled (same ▸ pending)
  have keeps : Keeps w { w with promises := fun x => { w.promises x with
      value := if x = p then value else (w.promises x).value
      got := gots x
      queue := queues x } } :=
    ⟨⟨fun _ _ => rfl, fun _ settled => if_neg (other settled), fun _ _ => rfl⟩, fun _ => id,
      fun _ _ => id⟩
  refine ⟨good.calls, good.callers, fun x elsewhere made => ?_,
    fun c among uncalled made unsettled => keeps.told (good.told c among uncalled made unsettled),
    fun x lives y among made unsettled => ?_⟩
  · by_cases same : x = p
    · rw [same] at elsewhere made ⊢
      obtain ⟨promise, q, awaits⟩ := waits elsewhere made
      refine ⟨fun idle => absurd awaits.1 idle, fun _ state settled => ?_, fun _ _ => ?_⟩
      · nomatch pending.symm.trans settled
      · exact ⟨(congrArg Val.isPromise (if_pos rfl)).trans promise, q, awaits⟩
    · exact (good.standing x (apart x same elsewhere) made).keep keeps id rfl (if_neg same)
  · have lived : Live w x := by
      by_cases same : x = p
      · exact .inl (same ▸ pending)
      · exact lives.imp_right fun ⟨r, is, rest⟩ => ⟨r, (if_neg same).symm.trans is, rest⟩
    rcases queued x y among with old | ⟨rfl, awaited⟩
    · exact keeps.queued (good.queued x lived y old made unsettled)
    · exact keeps.queued (awaited made)

theorem wait_good (good : Good cur w) (only : ∀ x, cur = some x → x = p)
    (pending : (w.promises p).state = none)
    (awaited : (w.promises p).kind = .made → ∃ first, Awaits w p first ∧ Chain w first q) :
    Good none (enqueue (modify w p fun promise => { promise with value := .promise q }) q p) := by
  rw [wait_eq]
  apply revise_good good pending
  · exact fun x other _ same => other (only x same)
  · intro _ made
    obtain ⟨first, awaits, -⟩ := awaited made
    exact ⟨rfl, first, awaits⟩
  · intro x y among
    split at among
    · rename_i same
      rw [same]
      exact (mem_append.mp among).imp_right fun new => ⟨mem_singleton.mp new, awaited⟩
    · exact .inl among

theorem note_good (good : Good cur w) (only : ∀ x, cur = some x → x = p)
    (pending : (w.promises p).state = none) (value : Val V) (got : Option (Outcome × Val V)) :
    Good (some p) (modify w p fun promise => { promise with value := value, got := got }) := by
  rw [note_eq]
  apply revise_good good pending
  · exact fun x other _ same => other (only x same)
  · exact fun other => absurd rfl other
  · exact fun x y among => .inl among

/-! ## Firing a promise of the program -/

/-- A settled promise that is passed to `fire` tells what its state says, and no further
promise. -/
def TellsItself (w : World V) : Val V → Prop
  | .promise q => (w.promises q).state ≠ none →
      (w.promises q).value.isPromise = false ∧
        (w.promises q).state = some (w.promises q).handsOn
  | _ => True

instance (w : World V) : (value : Val V) → Decidable (TellsItself w value)
  | .promise q => inferInstanceAs (Decidable ((w.promises q).state ≠ none →
      (w.promises q).value.isPromise = false ∧
        (w.promises q).state = some (w.promises q).handsOn))
  | .nil => isTrue trivial
  | .plain _ => isTrue trivial
  | .typeError => isTrue trivial
  | .results _ => isTrue trivial

/-- The closure does not disturb a promise of the program that waits for another one. -/
def Undisturbed (w : World V) (c : Closure V) : Prop :=
  (w.promises c.target).kind = .made → (w.promises c.target).state = none →
    (c.called = true → (w.promises c.target).value.isPromise = false) ∧ TellsItself w c.value

instance (w : World V) (c : Closure V) : Decidable (Undisturbed w c) :=
  inferInstanceAs (Decidable (_ → _ → (_ → _) ∧ TellsItself w c.value))

/-- Where the closure comes from: it is the first call, or it was posted for the promise
that the first call passed. -/
def FromFirst (w : World V) (c : Closure V) : Prop :=
  (Begun w c.target ∧ (w.calls c.target).head? = some (c.outcome, c.value)) ∨
    ∃ q, Awaits w c.target q ∧ Brings w q c

theorem drop_first (good : Good none w) (queued : w.closures = c :: rest)
    (made : (w.promises c.target).kind = .made) (pending : (w.promises c.target).state = none)
    (undisturbed : Undisturbed w c) : FromFirst { w with closures := rest } c := by
  obtain ⟨-, starts, keeps⟩ := drop_good good queued
  cases called : c.called with
  | true =>
    have unbegun : ¬Begun w c.target := by
      intro has
      have promise := ((good.standing c.target nofun made).waits has pending).1
      rw [(undisturbed made pending).1 called] at promise
      nomatch promise
    have all : queuedCalls w c.target = w.calls c.target := not_not.mp unbegun
    refine .inl ⟨starts called, ?_⟩
    change (w.calls c.target).head? = _
    rw [← all, queuedCalls, queued, filter_cons_of_pos (by simp [called])]
    rfl
  | false =>
    exact .inr (keeps.told (good.told c (queued ▸ mem_cons_self) called made pending))

theorem fate_plain (p : Nat) (outcome : Outcome) {value : Val V} (plain : value.isPromise = false) :
    Fate w p (outcome, value) outcome value := by
  cases value with
  | promise q => nomatch plain
  | _ => exact ⟨rfl, rfl⟩

theorem fate_promise (other : q ≠ p) (how outcome : Outcome) {value : Val V}
    (follows : Follows w q outcome value) : Fate w p (how, .promise q) outcome value := by
  rw [Fate]
  dsimp only
  rw [if_neg other]
  exact follows

theorem first_decides (first : FromFirst w c) {after : World V} (grows : Grows w after)
    {value : Val V} (direct : Fate after c.target (c.outcome, c.value) outcome value)
    (led : ∀ q, Brings after q c → Follows after q outcome value) :
    Begun w c.target ∧ ∃ call, (w.calls c.target).head? = some call ∧
      Fate after c.target call outcome value := by
  rcases first with ⟨begun, head⟩ | ⟨q, awaits, brings⟩
  · exact ⟨begun, _, head, direct⟩
  · obtain ⟨begun, other, how, head⟩ := awaits
    exact ⟨begun, _, head, fate_promise other how outcome (led q (grows.brings brings))⟩

theorem self_good (sane : Sane w) (good : Good cur w) (only : ∀ x, cur = some x → x = c.target)
    (pending : (w.promises c.target).state = none) (is : c.value = .promise c.target)
    (first : (w.promises c.target).kind = .made → FromFirst w c) :
    Good none (settle w c.target .rejected .typeError) := by
  apply settle_good sane good only _ _ pending
  intro made
  apply first_decides (first made) (settle_grows pending _ _)
  · rw [Fate, is]
    dsimp only
    rw [if_pos rfl]
    exact ⟨rfl, rfl⟩
  · intro q brings
    refine ⟨c.target, brings.2 _ is, ?_, ?_, ?_, ?_⟩
    · rw [settle_state_same]
      rintro ⟨⟩
    · rw [settle_value_same]
      rfl
    · rw [Promise.handsOn, settle_state_same, settle_failure, (sane.made _ made).2]
      rfl
    · exact (settle_value_same ..).symm

theorem adopt_good (sane : Sane w) (good : Good cur w) {state : Outcome}
    (only : ∀ x, cur = some x → x = c.target) (pending : (w.promises c.target).state = none)
    (is : c.value = .promise q) (other : q ≠ c.target) (settled : (w.promises q).state = some state)
    (tells : (w.promises c.target).kind = .made → TellsItself w c.value)
    (first : (w.promises c.target).kind = .made → FromFirst w c) :
    Good none (settle w c.target state (w.promises q).value) := by
  have there : (w.promises q).state ≠ none := by
    rw [settled]
    exact nofun
  have grows := settle_grows (w := w) pending state (w.promises q).value
  apply settle_good sane good only _ _ pending
  intro made
  have itself := tells made
  rw [is] at itself
  obtain ⟨plain, how⟩ := itself there
  -- the promise that is passed is the end of every chain that leads to it
  have ends (x : Nat) (chain : Chain (settle w c.target state (w.promises q).value) x q) :
      Follows (settle w c.target state (w.promises q).value) x state (w.promises q).value := by
    refine ⟨q, chain, ?_, ?_, ?_, ?_⟩
    · rw [grows.state q there]
      exact there
    · rw [grows.value q there]
      exact plain
    · rw [grows.handsOn there]
      exact Option.some.inj (settled.symm.trans how)
    · exact (grows.value q there).symm
  apply first_decides (first made) grows
  · rw [is]
    exact fate_promise other _ _ (ends q .refl)
  · exact fun x brings => ends x (brings.2 q is)

theorem pending_good (good : Good cur w) (only : ∀ x, cur = some x → x = c.target)
    (pending : (w.promises c.target).state = none) (is : c.value = .promise q)
    (other : q ≠ c.target) (first : (w.promises c.target).kind = .made → FromFirst w c) :
    Good none (enqueue (modify w c.target fun promise => { promise with value := .promise q })
      q c.target) := by
  apply wait_good good only pending
  intro made
  rcases first made with ⟨begun, head⟩ | ⟨x, awaits, brings⟩
  · rw [is] at head
    exact ⟨q, ⟨begun, other, _, head⟩, .refl⟩
  · exact ⟨x, awaits, brings.2 q is⟩

theorem unmade_good (sane : Sane w) (good : Good none w) {value : Val V} (below : p < w.count)
    (pending : (w.promises p).state = none) (knows : known w value = true)
    (other : (w.promises p).kind ≠ .made) :
    Good none (handle w p outcome value ((w.promises p).handler outcome)) := by
  have ran_aside (after : World V) (result : Result V) : Aside after (noteRan after p result) :=
    modify_aside ⟨rfl, rfl, rfl, rfl, rfl, rfl⟩ fun _ => rfl
  cases has : (w.promises p).handler outcome with
  | none =>
    exact settle_good sane good nofun outcome value pending fun made => absurd made other
  | some handler =>
    have owns := sane.owns p outcome handler has
    cases handler with
    | user => exact good.aside (groups_aside w.groups w.groupCount (some (p, outcome)))
    | synchronizer g i how =>
      have kind : (w.promises (w.groups g).d).kind ≠ .made := by
        rw [owns.2.2]
        exact nofun
      have told : Aside w (synchronize w g i how value) := by
        rw [synchronize]
        split_ifs
        · exact (groups_aside (w := w) _ w.groupCount w.busy).trans (tell_aside _ _ kind)
        · exact groups_aside _ w.groupCount w.busy
      have exists_ : p < (synchronize w g i how value).count := by
        rw [synchronize_count]
        exact below
      apply settle_good
        (ran_sane (synchronize_sane sane value owns) exists_ (.returned value))
        ((good.aside told).aside (ran_aside _ _)) nofun
      · rw [noteRan, modify_same, synchronize_promises]
        exact pending
      · intro made
        rw [noteRan, modify_same, synchronize_promises] at made
        exact absurd made other
    | racer d how =>
      have kind : (w.promises d).kind ≠ .made := by
        rw [owns.2]
        exact nofun
      apply settle_good
        (ran_sane (tell_sane sane how value owns.1 knows) below (.returned .nil))
        ((good.aside (tell_aside how value kind)).aside (ran_aside _ _)) nofun outcome .nil
      · rw [noteRan, modify_same]
        exact pending
      · intro made
        rw [noteRan, modify_same] at made
        exact absurd made other

theorem plain_good (sane : Sane w) (good : Good cur w) (below : c.target < w.count)
    (knows : known w c.value = true) (only : ∀ x, cur = some x → x = c.target)
    (pending : (w.promises c.target).state = none) (plain : c.value.isPromise = false)
    (first : (w.promises c.target).kind = .made → FromFirst w c) :
    Good none (handle (modify w c.target fun promise =>
        { promise with value := c.value, got := some (c.outcome, c.value) })
      c.target c.outcome c.value ((w.promises c.target).handler c.outcome)) := by
  set noted := modify w c.target fun promise =>
    { promise with value := c.value, got := some (c.outcome, c.value) } with is
  have notedGood : Good (some c.target) noted := note_good good only pending _ _
  have notedSane : Sane noted := note_sane sane below pending knows _
  have kind : (noted.promises c.target).kind = (w.promises c.target).kind := by
    rw [is, modify_same]
  have unsettled : (noted.promises c.target).state = none := by
    rw [is, modify_same]
    exact pending
  have handlers : (noted.promises c.target).handler c.outcome =
      (w.promises c.target).handler c.outcome := by
    rw [is, modify_same]
    cases c.outcome <;> rfl
  by_cases made : (w.promises c.target).kind = .made
  · have none : (w.promises c.target).handler c.outcome = Option.none := by
      obtain ⟨success, failure⟩ := sane.made _ made
      cases c.outcome
      · exact success
      · exact failure
    have fromFirst : FromFirst noted c := by
      have apart {x : Nat} (settled : (w.promises x).state ≠ Option.none) : x ≠ c.target :=
        fun same => settled (same ▸ pending)
      have grows : Grows w noted :=
        ⟨fun x settled => by rw [is, modify_other _ _ _ (apart settled)],
          fun x settled => by rw [is, modify_other _ _ _ (apart settled)],
          fun x settled => by rw [is, modify_other _ _ _ (apart settled)]⟩
      rcases first made with direct | ⟨q, awaits, brings⟩
      · exact .inl direct
      · exact .inr ⟨q, awaits, grows.brings brings⟩
    rw [none]
    apply settle_good notedSane notedGood (fun x same => (Option.some.inj same).symm) _ _ unsettled
    intro _
    exact first_decides fromFirst (settle_grows unsettled _ _) (fate_plain _ _ plain)
      fun q brings => brings.1 plain
  · rw [← handlers]
    exact unmade_good notedSane (notedGood.unmade (by rw [kind]; exact made)) below unsettled knows
      (by rw [kind]; exact made)

theorem fire_good (sane : Sane w) (good : Good none w) (queued : w.closures = c :: rest)
    (undisturbed : Undisturbed w c) : Good none (fire { w with closures := rest } c) := by
  have among : c ∈ w.closures := queued ▸ mem_cons_self
  have dropSane := drop_sane sane queued
  obtain ⟨dropGood, -, keeps⟩ := drop_good good queued
  have only : ∀ x, (if c.called then some c.target else none) = some x → x = c.target := by
    intro x same
    split_ifs at same
    exact (Option.some.inj same).symm
  have below := sane.target c among
  have knows := sane.carried c among
  by_cases pending : (w.promises c.target).state = none
  · have first : (w.promises c.target).kind = .made → FromFirst { w with closures := rest } c :=
      fun made => drop_first good queued made pending undisturbed
    cases is : c.value with
    | promise q =>
      by_cases self : q = c.target
      · rw [fire_self { w with closures := rest } pending (self ▸ is)]
        exact self_good dropSane dropGood only pending (self ▸ is) first
      cases waits : (w.promises q).state with
      | none =>
        rw [fire_pending { w with closures := rest } pending is self waits]
        exact pending_good dropGood only pending is self first
      | some state =>
        rw [fire_adopts { w with closures := rest } pending is self waits]
        exact adopt_good dropSane dropGood only pending is self waits
          (fun made => (undisturbed made pending).2) first
    | _ =>
      have plain : c.value.isPromise = false := by rw [is]; rfl
      rw [fire_plain { w with closures := rest } pending plain]
      exact plain_good dropSane dropGood below knows only pending plain first
  · rw [fire_settled { w with closures := rest } c pending]
    cases called : c.called with
    | false =>
      rw [called] at dropGood
      exact dropGood
    | true =>
      rw [called] at dropGood
      by_cases made : (w.promises c.target).kind = .made
      · -- the promise had begun, or it would be pending
        have standing := good.standing c.target nofun made
        have begun : Begun w c.target := by
          by_contra idle
          exact pending (standing.fresh idle).1
        refine { dropGood with standing := fun x _ madex => ?_ }
        by_cases same : x = c.target
        · exact same ▸ standing.keep keeps (fun _ => begun) rfl rfl
        · exact dropGood.standing x (fun eq => same (Option.some.inj eq).symm) madex
      · exact dropGood.unmade made

theorem finish_good (sane : Sane w) (good : Good none w) {result : Result V}
    (busy : w.busy = some (p, outcome)) : Good none (finish w p outcome result) := by
  obtain ⟨below, pending, other⟩ := sane.busy p outcome busy
  have idleSane := busy_sane sane none (by simp)
  have idleGood := good.aside (groups_aside w.groups w.groupCount none)
  have notedSane := ran_sane idleSane below result
  have notedGood : Good none (noteRan { w with busy := none } p result) :=
    idleGood.aside (modify_aside ⟨rfl, rfl, rfl, rfl, rfl, rfl⟩ fun _ => rfl)
  have unsettled : ((noteRan { w with busy := none } p result).promises p).state = none := by
    rw [noteRan, modify_same]
    exact pending
  have kind : ((noteRan { w with busy := none } p result).promises p).kind ≠ .made := by
    rw [noteRan, modify_same]
    exact other
  cases result with
  | returned value =>
    exact settle_good notedSane notedGood (by simp) _ _ unsettled fun made => absurd made kind
  | raised err =>
    exact settle_good notedSane notedGood (by simp) _ _ unsettled fun made => absurd made kind

/-! ## Runs -/

def Steady (w : World V) : Event V → Prop
  | .drain =>
    match w.closures with
    | [] => True
    | c :: _ => Undisturbed w c
  | _ => True

theorem step_good (sane : Sane w) (good : Good none w) {event : Event V} (steady : Steady w event)
    (stepped : step w event = some after) : Good none after := by
  cases event with
  | act act =>
    obtain ⟨can, rfl⟩ := step_act w stepped
    cases act with
    | new => exact new_good sane good
    | call p outcome value =>
      simp only [possible, Bool.and_eq_true, decide_eq_true_eq] at can
      exact call_good good can.1.2 outcome value
    | andThen p success failure => exact good.aside (andThen_aside sane p _ _)
    | final p handler => exact good.aside (final_aside sane p _)
    | all args => exact good.aside (all_aside sane (args_below w can))
    | race args => exact good.aside (race_aside sane (args_below w can))
  | drain =>
    obtain ⟨c, rest, idle, queued, rfl⟩ := step_drain w stepped
    rw [Steady, queued] at steady
    exact fire_good sane good queued steady
  | finish result =>
    obtain ⟨p, outcome, busy, -, rfl⟩ := step_finish w stepped
    exact finish_good sane good busy

theorem reached_good (reached : Reaches step Steady (start : World V) w) :
    Sane w ∧ Good none w := by
  apply reached.keeps (fun w => Sane w ∧ Good none w) ⟨start_sane, start_good⟩
  intro w event after holds steady stepped
  exact ⟨step_sane holds.1 stepped, step_good holds.1 holds.2 steady stepped⟩

/-- A promise of the program that is settled has exactly the state and value that its
first call decided on, and the closure of a later call does nothing but go. -/
theorem first_call_decides (reached : Reaches step Steady (start : World V) w) :
    (∀ p state, (w.promises p).kind = .made → (w.promises p).state = some state →
      ∃ first, (w.calls p).head? = some first ∧ ∀ outcome value,
        Fate w p first outcome value ↔ outcome = state ∧ value = (w.promises p).value) ∧
    ∀ c rest, w.busy = none → w.closures = c :: rest → c.called = true → Begun w c.target →
      Steady w .drain → step w .drain = some { w with closures := rest } := by
  obtain ⟨sane, good⟩ := reached_good reached
  constructor
  · intro p state made settled
    have standing := good.standing p nofun made
    have begun : Begun w p := by
      by_contra idle
      nomatch settled.symm.trans (standing.fresh idle).1
    obtain ⟨first, head, fate⟩ := standing.fate begun state settled
    refine ⟨first, head, ?_⟩
    intro outcome value
    constructor
    · exact fate_unique fate
    · intro same
      rw [same.1, same.2]
      exact fate
  · intro c rest idle queued called begun steady
    have made := sane.called c (queued ▸ mem_cons_self) called
    rw [Steady, queued] at steady
    have settled : (w.promises c.target).state ≠ none := by
      intro pending
      have promise := ((good.standing c.target nofun made).waits begun pending).1
      rw [(steady made pending).1 called] at promise
      nomatch promise
    rw [step_fires w idle queued, fire_settled { w with closures := rest } c settled]

/-! ## Sessions -/

instance decidableSteady (w : World V) : (event : Event V) → Decidable (Steady w event)
  | .drain =>
    match found : w.closures with
    | [] => isTrue (by rw [Steady, found]; trivial)
    | c :: _ => decidable_of_iff (Undisturbed w c) (by rw [Steady, found])
  | .act _ => isTrue trivial
  | .finish _ => isTrue trivial

/-- Promise 0 waits for promise 1, which is resolved with 5, and is then rejected in vain. -/
def waitingSession : List (Event Nat) :=
  [.act .new, .act .new, .act (.call 0 .resolved (.promise 1)), .drain,
    .act (.call 1 .resolved (.plain 5)), .drain, .drain, .act (.call 0 .rejected (.plain 9)),
    .drain]

theorem waiting_session_decided :
    ∃ w, run step start waitingSession = some w ∧
      ∃ first, (w.calls 0).head? = some first ∧ ∀ outcome value,
        Fate w 0 first outcome value ↔ outcome = .resolved ∧ value = .plain 5 := by
  have runs : ((run step start waitingSession).map fun w =>
      ((w.promises 0).kind, (w.promises 0).state, (w.promises 0).value)) =
        some (.made, some .resolved, .plain 5) := by
    decide +kernel
  obtain ⟨w, ran, fields⟩ := Option.map_eq_some_iff.mp runs
  rw [Prod.mk.injEq, Prod.mk.injEq] at fields
  obtain ⟨kind, state, value⟩ := fields
  have reached : Reaches step Steady start w := Reaches.run _ .start (by decide +kernel) ran
  have decided := (first_call_decides reached).1 0 .resolved kind state
  rw [value] at decided
  exact ⟨w, ran, decided⟩

/-- The same calls, but the second one comes while promise 0 waits. -/
def overtakenSession : List (Event Nat) :=
  [.act .new, .act .new, .act (.call 0 .resolved (.promise 1)), .drain,
    .act (.call 0 .rejected (.plain 9)), .drain, .act (.call 1 .resolved (.plain 5)), .drain,
    .drain]

/-- A later call decides: the first one passed promise 1, which is resolved with 5. -/
theorem later_call_decides :
    ∃ w, run step start overtakenSession = some w ∧ (w.promises 0).kind = .made ∧
      (w.promises 0).state = some .rejected ∧
      ¬∃ first, (w.calls 0).head? = some first ∧ ∀ outcome value,
        Fate w 0 first outcome value ↔ outcome = .rejected ∧ value = (w.promises 0).value := by
  have runs : ((run step start overtakenSession).map fun w =>
      ((w.promises 0).state, (w.calls 0).head?, (w.promises 1).state, (w.promises 1).value)) =
        some (some .rejected, some (.resolved, .promise 1), some .resolved, .plain 5) := by
    decide +kernel
  have kinds : ((run step start overtakenSession).map fun w => (w.promises 0).kind) =
      some .made := by
    decide +kernel
  obtain ⟨w, ran, fields⟩ := Option.map_eq_some_iff.mp runs
  simp only [Prod.mk.injEq] at fields
  obtain ⟨state, call, other, value⟩ := fields
  rw [ran] at kinds
  refine ⟨w, ran, Option.some.inj kinds, state, ?_⟩
  rintro ⟨first, head, decided⟩
  obtain rfl := Option.some.inj (call.symm.trans head)
  obtain ⟨r, chain, -, -, how, -⟩ : Follows w 1 .rejected (w.promises 0).value :=
    (decided _ _).mpr ⟨rfl, rfl⟩
  obtain rfl := chain_ends chain (by rw [value]; rfl)
  rw [Promise.handsOn, other] at how
  cases how

end Chuck.PromiseFirstCall
