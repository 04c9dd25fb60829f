import Chuck.PromiseSane

/-!
# No continuation is lost

Worlds made by `M.new` and `andThen`, where handlers end with plain values or promises
of `M.new`. A pending derived promise is told something, or waits in the queue of an
older promise which is pending itself or is the parent of a pending one. A promise has
one parent only: when a handler returns a pending promise that has one already, the old
parent is forgotten, and whoever is in its queue.
-/

namespace Chuck.PromiseContinuations

open PromiseModel PromiseFrames PromiseSane Support.FaultFreeRuns List

variable {V : Type}

/-- A pending derived promise is told something, or waits where it will be. -/
def Located (w : World V) (e : Nat) : Prop :=
  (∃ c ∈ w.closures, c.target = e) ∨ ∃ x < e, e ∈ (w.promises x).queue ∧ Live w x

/-- What holds of one promise by its state. -/
structure Shape (kinds : Nat → Kind) (promise : Promise V) : Prop where
  user : ∀ outcome handler, promise.handler outcome = some handler → handler = .user
  valueMade : ∀ q, promise.state ≠ none → promise.value = .promise q → kinds q = .made
  madePlain : promise.kind = .made → promise.state ≠ none → promise.value.isPromise = false
  derivedPlain : ∀ d, promise.kind = .derived d → promise.state = none →
    promise.value.isPromise = false
  done : ∀ d, promise.kind = .derived d → promise.state ≠ none →
    ∃ outcome value, promise.got = some (outcome, value) ∧ RanFor promise outcome

/-- The invariant; `cur` is a promise for which a closure has just been taken, or that
has just been created. -/
structure Good (cur : Option Nat) (w : World V) : Prop where
  plainly : ∀ x < w.count, (w.promises x).kind ≠ .combined
  shape : ∀ p, Shape (fun q => (w.promises q).kind) (w.promises p)
  carried : ∀ c ∈ w.closures, ∀ q, c.value = .promise q → (w.promises c.target).kind = .made
  located : ∀ e d, cur ≠ some e → (w.promises e).kind = .derived d → (w.promises e).state = none →
    (∀ outcome, w.busy ≠ some (e, outcome)) →
    (w.promises e).got = none ∧ (w.promises e).ran = [] ∧ Located w e
  running : ∀ p outcome, w.busy = some (p, outcome) → (w.promises p).ran = [] ∧
    (w.promises p).handler outcome ≠ none ∧ ∃ value, (w.promises p).got = some (outcome, value)

theorem pending_shape {kinds : Nat → Kind} {promise : Promise V} (pending : promise.state = none)
    (user : ∀ outcome handler, promise.handler outcome = some handler → handler = .user)
    (plain : ∀ d, promise.kind = .derived d → promise.value.isPromise = false) :
    Shape kinds promise :=
  ⟨user, fun _ settled => absurd pending settled, fun _ settled => absurd pending settled,
    fun d derived _ => plain d derived, fun _ _ settled => absurd pending settled⟩

theorem Shape.mono {kinds others : Nat → Kind} {promise : Promise V} (shape : Shape kinds promise)
    (made : ∀ q, kinds q = .made → others q = .made) : Shape others promise :=
  { shape with valueMade := fun q settled is => made q (shape.valueMade q settled is) }

theorem start_good : Good none (start : World V) := by
  constructor
  · exact fun x below => absurd below (Nat.not_lt_zero x)
  · refine fun p => pending_shape rfl (fun outcome handler has => ?_) fun _ _ => rfl
    cases outcome <;> nomatch has
  · exact nofun
  · exact fun e d _ derived => absurd derived nofun
  · exact nofun

variable {w : World V}

theorem Good.beside {cur : Option Nat} (good : Good cur w) (calls : Nat → List (Outcome × Val V))
    (marks : Nat → Bool) :
    Good cur { w with
      promises := fun x => { w.promises x with isFinal := marks x }
      calls := calls } :=
  { good with shape := fun x => { good.shape x with } }

/-- If the promise is settled, it is so with a plain value. -/
def SettledPlain (w : World V) (p : Nat) : Prop :=
  (w.promises p).state ≠ none → (w.promises p).value.isPromise = false

/-! ## New promises -/

theorem create_good (sane : Sane w) (good : Good none w) (kind : Kind) (apart : kind ≠ .combined)
    (success failure : Option Handler)
    (user : ∀ handler, success = some handler ∨ failure = some handler → handler = .user) :
    Good (some w.count) (create w (newPromise kind success failure)) := by
  have same {x : Nat} (old : x ≠ w.count) :
      (create w (newPromise kind success failure)).promises x = w.promises x :=
    Function.update_of_ne old ..
  have new := create_new w (newPromise kind success failure : Promise V)
  -- all but the kinds and the handlers is as before
  rw [create_eq w (sane.beyond w.count le_rfl)] at same new ⊢
  have made {q : Nat} (made : (w.promises q).kind = .made) :
      (if q = w.count then kind else (w.promises q).kind) = .made :=
    (if_neg (sane.made_lt made).ne).trans made
  constructor
  · intro x below
    by_cases here : x = w.count
    · rw [here, new]
      exact apart
    · rw [same here]
      exact good.plainly x (lt_of_le_of_ne (Nat.le_of_lt_succ below) here)
  · intro x
    by_cases here : x = w.count
    · rw [here, new]
      refine pending_shape rfl (fun outcome handler has => ?_) fun _ _ => rfl
      cases outcome
      · exact user handler (.inl has)
      · exact user handler (.inr has)
    · rw [same here]
      exact (good.shape x).mono fun _ => made
  · intro c among q promise
    exact made (good.carried c among q promise)
  · intro e d other derived pending idle
    refine good.located e d nofun ((if_neg fun here => ?_).symm.trans derived) pending idle
    exact other (congrArg some here.symm)
  · intro p outcome busy
    rw [same (sane.busy p outcome busy).1.ne]
    exact good.running p outcome busy

theorem Good.place {next : Nat} (good : Good (some next) w)
    (placed : ∀ d, (w.promises next).kind = .derived d → (w.promises next).state = none →
      (w.promises next).got = none ∧ (w.promises next).ran = [] ∧ Located w next) :
    Good none w := by
  refine { good with located := ?_ }
  intro e d _ derived pending idle
  by_cases same : e = next
  · rw [same] at derived pending ⊢
    exact placed d derived pending
  · exact good.located e d (fun eq => same (Option.some.inj eq).symm) derived pending idle

theorem new_good (sane : Sane w) (good : Good none w) :
    Good none (create w (newPromise .made none none)) := by
  apply (create_good sane good .made nofun none none fun handler has => absurd has (by simp)).place
  intro d derived
  rw [create_new] at derived
  nomatch derived

theorem enqueue_good {cur : Option Nat} (good : Good cur w) (p next : Nat) :
    Good cur (enqueue w p next) := by
  rw [enqueue_eq]
  refine { good with shape := fun x => { good.shape x with }, located := ?_ }
  intro e d other derived pending idle
  obtain ⟨got, ran, located⟩ := good.located e d other derived pending idle
  refine ⟨got, ran, located.imp_right ?_⟩
  rintro ⟨x, older, among, live⟩
  refine ⟨x, older, ?_, live⟩
  change e ∈ if x = p then _ else _
  split
  · rename_i same
    exact mem_append_left _ (same ▸ among)
  · exact among

theorem post_good {cur : Option Nat} (good : Good cur w) (added : List (Closure V))
    (carried : ∀ c ∈ added, ∀ q, c.value = .promise q → (w.promises c.target).kind = .made)
    (calls : Nat → List (Outcome × Val V)) :
    Good cur { w with closures := w.closures ++ added, calls := calls } := by
  refine { good with carried := ?_, located := ?_ }
  · intro c among
    exact (mem_append.mp among).elim (good.carried c) (carried c)
  · intro e d other derived pending idle
    obtain ⟨got, ran, located⟩ := good.located e d other derived pending idle
    refine ⟨got, ran, located.imp_left ?_⟩
    rintro ⟨c, among, target⟩
    exact ⟨c, mem_append_left _ among, target⟩

theorem andThen_good (sane : Sane w) (good : Good none w) {self : Nat} (below : self < w.count)
    (settledPlain : SettledPlain w (behind w self)) (success failure : Option Handler)
    (user : ∀ handler, success = some handler ∨ failure = some handler → handler = .user) :
    Good none (andThen w self success failure) := by
  rw [andThen]
  split_ifs
  · exact good
  have created := create_good sane good (.derived self) (by rintro ⟨⟩) success failure user
  set begun := create w (newPromise (.derived self) success failure) with is
  have new : begun.promises w.count = newPromise (.derived self) success failure := create_new w _
  have same : behind begun self = behind w self := by
    rw [behind_eq, is, create_old w _ below, ← behind_eq]
  have older : behind begun self < w.count := same ▸ sane.behind_lt below
  dsimp only
  split
  · rename_i pending
    have queued := enqueue_good created (behind begun self) w.count
    rw [enqueue_eq] at queued ⊢
    apply queued.place
    refine fun d _ _ =>
      ⟨congrArg (·.got) new, congrArg (·.ran) new, .inr ⟨_, older, ?_, .inl pending⟩⟩
    simp only [if_true]
    exact mem_append_right _ mem_cons_self
  · rename_i state settled
    have plain : (begun.promises (behind begun self)).value.isPromise = false := by
      have old : begun.promises (behind begun self) = _ := create_old w _ older
      rw [old, same] at settled ⊢
      exact settledPlain (by rw [settled]; exact Option.some_ne_none _)
    have told := post_good created
        [⟨w.count, (begun.promises (behind begun self)).handsOn,
          (begun.promises (behind begun self)).value, false⟩] (by
      intro c among q promise
      rw [mem_singleton.mp among] at promise
      change (begun.promises (behind begun self)).value = .promise q at promise
      rw [promise] at plain
      cases plain) begun.calls
    apply told.place
    exact fun d _ _ => ⟨congrArg (·.got) new, congrArg (·.ran) new,
      .inl ⟨_, mem_append_right _ mem_cons_self, rfl⟩⟩

theorem given_user (given : Bool) {handler : Handler} (has : userHandler given = some handler) :
    handler = .user := by
  cases given with
  | false => nomatch has
  | true => exact (Option.some.inj has).symm

theorem final_good (sane : Sane w) (good : Good none w) {self : Nat} (below : self < w.count)
    (settledPlain : SettledPlain w (behind w self)) (given : Bool) :
    Good none (final w self (userHandler given)) := by
  rw [final]
  split_ifs
  · exact good
  · set derived := andThen w self (userHandler given) (userHandler given)
    have kept := andThen_good sane good below settledPlain (userHandler given) (userHandler given)
      fun handler has => given_user given (has.elim id id)
    rw [mark_eq]
    exact kept.beside derived.calls _

/-! ## Closures -/

theorem drop_good {c : Closure V} {rest : List (Closure V)} (good : Good none w)
    (queued : w.closures = c :: rest) : Good (some c.target) { w with closures := rest } := by
  refine { good with carried := ?_, located := ?_ }
  · intro other among
    exact good.carried other (queued ▸ mem_cons_of_mem _ among)
  · intro e d apart derived pending idle
    obtain ⟨got, ran, located⟩ := good.located e d nofun derived pending idle
    refine ⟨got, ran, located.imp_left ?_⟩
    rintro ⟨other, among, target⟩
    rw [queued] at among
    rcases mem_cons.mp among with same | among
    · exact absurd (congrArg some (same ▸ target)) apart
    · exact ⟨other, among, target⟩

theorem note_good {p : Nat} (good : Good (some p) w) (idle : w.busy = none)
    (pending : (w.promises p).state = none) {f : Promise V → Promise V} (notes : Notes w p f)
    (fits : ∀ q, (f (w.promises p)).value = .promise q → (w.promises p).kind = .made) :
    Good (some p) (modify w p f) := by
  have old {x : Nat} (other : x ≠ p) : (modify w p f).promises x = w.promises x :=
    modify_other w p f other
  have states (x : Nat) : ((modify w p f).promises x).state = (w.promises x).state :=
    modify_field w p x (·.state) f notes.state
  have kinds (x : Nat) : ((modify w p f).promises x).kind = (w.promises x).kind :=
    modify_field w p x (·.kind) f notes.kind
  have apart {x : Nat} (settled : (w.promises x).state ≠ none) : x ≠ p := by
    rintro rfl
    exact settled pending
  constructor
  · intro x
    rw [kinds]
    exact good.plainly x
  · intro x
    by_cases same : x = p
    · rw [same, modify_same]
      refine pending_shape (notes.state.trans pending) (fun outcome handler has => ?_)
        fun d derived => ?_
      · apply (good.shape p).user outcome handler
        cases outcome
        · exact notes.success.symm.trans has
        · exact notes.failure.symm.trans has
      · cases is : (f (w.promises p)).value with
        | promise q => nomatch (fits q is).symm.trans (notes.kind.symm.trans derived)
        | _ => rfl
    · rw [old same]
      exact (good.shape x).mono fun q made => (kinds q).trans made
  · intro c among q
    rw [kinds]
    exact good.carried c among q
  · intro e d other
    rw [kinds, states]
    intro derived unsettled _
    rw [old fun same => other (congrArg some same.symm)]
    obtain ⟨got, ran, located⟩ := good.located e d other derived unsettled
      fun outcome => idle ▸ nofun
    refine ⟨got, ran, located.imp_right ?_⟩
    rintro ⟨x, older, among, live⟩
    refine ⟨x, older, ?_, ?_⟩
    · rw [modify_field w p x (·.queue) f notes.queue]
      exact among
    · rw [Live, states]
      by_cases settled : (w.promises x).state = none
      · exact .inl settled
      · refine .inr ?_
        obtain ⟨r, rest⟩ := live.resolve_left settled
        refine ⟨r, ?_⟩
        rw [old (apart settled), states, modify_field w p r (·.parent) f notes.parent]
        exact rest
  · exact fun x outcome busy => absurd (idle.symm.trans busy) nofun

theorem located_after {p e : Nat} (sane : Sane w) (good : Good (some p) w)
    (pending : (w.promises p).state = none) (state : Outcome) {value : Val V}
    (fits : ∀ q, value = .promise q → (∃ d, (w.promises p).kind = .derived d) ∧
      ((w.promises q).state = none → ∀ x, (w.promises q).parent = some x →
        (w.promises x).queue = []))
    (located : Located w e) : Located (settle w p state value) e := by
  rw [settle_eq]
  rcases located with ⟨c, among, target⟩ | ⟨x, older, among, live⟩
  · exact .inl ⟨c, mem_append_left _ among, target⟩
  by_cases told : heir w p value = none ∧ e ∈ waiting w p
  · have sent : ∃ c ∈ toldAll w p state value, c.target = e := by
      rw [toldAll, if_neg (not_not.mpr told.1), settledQueue_none told.1 (sane.parent_ne pending)]
      exact ⟨_, mem_map_of_mem told.2, rfl⟩
    obtain ⟨c, new, target⟩ := sent
    exact .inl ⟨c, mem_append_right _ new, target⟩
  -- who is not told waits where it did
  have waits : x ≠ p ∨ heir w p value ≠ none := by
    rw [or_iff_not_imp_right, not_not]
    rintro childless rfl
    apply told ⟨childless, ?_⟩
    rw [waiting]
    split
    · exact among
    · exact mem_append_right _ among
  have foreign (childless : heir w p value = none) : (w.promises p).parent ≠ some x := by
    intro parent
    apply told ⟨childless, ?_⟩
    rw [waiting, parent]
    exact mem_append_left _ among
  refine .inr ⟨x, older, ?_, ?_⟩
  · change e ∈ settledQueue w p x value
    by_cases childless : heir w p value = none
    · rw [settledQueue, if_neg (not_not.mpr childless), if_neg (foreign childless),
        if_neg (waits.resolve_right (absurd childless))]
      exact among
    · rw [settledQueue, if_pos childless]
      exact among
  by_cases same : x = p
  · obtain ⟨q, has⟩ := Option.ne_none_iff_exists'.mp (waits.resolve_left (absurd same))
    obtain ⟨is, other, unsettled⟩ := heir_eq_some.mp has
    rw [same]
    exact .inr ⟨q, (if_pos rfl).trans is, (if_neg other).trans unsettled, if_pos has⟩
  by_cases settled : (w.promises x).state = none
  · exact .inl ((if_neg same).trans settled)
  obtain ⟨r, promise, unsettled, parent⟩ := live.resolve_left settled
  -- the parent that the heir had is forgotten
  have elsewhere : heir w p value ≠ some r := by
    intro has
    rw [(fits r (heir_eq_some.mp has).1).2 unsettled x parent] at among
    cases among
  have apart : r ≠ p := by
    rintro rfl
    by_cases childless : heir w r value = none
    · exact foreign childless parent
    · obtain ⟨q, has⟩ := Option.ne_none_iff_exists'.mp childless
      obtain ⟨d, derived⟩ := (fits q (heir_eq_some.mp has).1).1
      rw [(good.shape x).valueMade r settled promise] at derived
      cases derived
  exact .inr ⟨r, (if_neg same).trans promise, (if_neg apart).trans unsettled,
    (if_neg elsewhere).trans parent⟩

theorem settle_good {p : Nat} (sane : Sane w) (good : Good (some p) w) (idle : w.busy = none)
    (pending : (w.promises p).state = none) (state : Outcome) {value : Val V}
    (fits : ∀ q, value = .promise q →
      (w.promises q).kind = .made ∧ ∃ d, (w.promises p).kind = .derived d)
    (childless : ∀ q, value = .promise q → (w.promises q).state = none →
      ∀ x, (w.promises q).parent = some x → (w.promises x).queue = [])
    (done : ∀ d, (w.promises p).kind = .derived d → ∃ outcome got,
      (w.promises p).got = some (outcome, got) ∧ RanFor (w.promises p) outcome) :
    Good none (settle w p state value) := by
  have located {e : Nat} := located_after (e := e) sane good pending state
    fun q is => ⟨(fits q is).2, childless q is⟩
  rw [settle_eq] at located ⊢
  have before {x : Nat} (waits : (if x = p then some state else (w.promises x).state) = none) :
      x ≠ p ∧ (w.promises x).state = none := by
    split_ifs at waits with same
    exact ⟨same, waits⟩
  constructor
  · exact good.plainly
  · intro x
    change Shape _ (settledPromise w p state value x)
    by_cases same : x = p
    · rw [same]
      refine ⟨fun outcome handler => ?_, fun q _ is => (fits q ((if_pos rfl).symm.trans is)).1,
        fun made _ => ?_, fun _ _ waits => absurd rfl (before waits).1, fun d derived _ => ?_⟩
      · rw [settledPromise_handler]
        exact (good.shape p).user outcome handler
      · refine (congrArg Val.isPromise (if_pos rfl)).trans ?_
        cases is : value with
        | promise q =>
          obtain ⟨-, d, derived⟩ := fits q is
          cases made.symm.trans derived
        | _ => rfl
      · simp only [RanFor, settledPromise_handler]
        exact done d derived
    · simp only [settledPromise, if_neg same]
      exact { good.shape x with }
  · intro c among q promise
    rcases mem_append.mp among with old | new
    · exact good.carried c old q promise
    obtain ⟨unborn, -, -, -, is⟩ := mem_toldAll new
    rw [promise] at is
    cases what : value with
    | promise r =>
      obtain ⟨made, d, derived⟩ := fits r what
      have other : r ≠ p := by
        rintro rfl
        cases made.symm.trans derived
      have settled : (w.promises r).state ≠ none := fun waits =>
        absurd (unborn.symm.trans (heir_eq_some.mpr ⟨what, other, waits⟩)) (by rintro ⟨⟩)
      have plain := (good.shape r).madePlain made settled
      rw [what, valueBehind] at is
      rw [← is.trans (if_neg other)] at plain
      cases plain
    | _ =>
      rw [what] at is
      cases is.trans (if_pos rfl)
  · intro e d _ derived unsettled _
    obtain ⟨other, waits⟩ := before unsettled
    obtain ⟨got, ran, there⟩ := good.located e d
      (fun same => other (Option.some.inj same).symm) derived waits fun outcome => by simp [idle]
    exact ⟨got, ran, located there⟩
  · exact fun x outcome busy => by cases idle.symm.trans busy

/-! ## Events -/

section Fires

variable {c : Closure V} {rest : List (Closure V)} (sane : Sane w) (good : Good none w)
  (idle : w.busy = none) (queued : w.closures = c :: rest)
  (pending : (w.promises c.target).state = none)

include sane good idle queued pending

theorem fire_promise_good {q : Nat} (promise : c.value = .promise q)
    (settledPlain : SettledPlain w q) : Good none (fire { w with closures := rest } c) := by
  have dropped := drop_good good queued
  have droppedSane := drop_sane sane queued
  have target := good.carried c (queued ▸ mem_cons_self) q promise
  have underived : ∀ d, (w.promises c.target).kind ≠ .derived d := by
    intro d derived
    rw [target] at derived
    cases derived
  by_cases self : q = c.target
  · rw [fire_self { w with closures := rest } pending (by rw [promise, self])]
    apply settle_good droppedSane dropped idle pending
    · rintro _ ⟨⟩
    · rintro _ ⟨⟩
    · exact fun d derived => absurd derived (underived d)
  · cases settled : (w.promises q).state with
    | none =>
      rw [fire_pending { w with closures := rest } pending promise self settled]
      have noted := note_good dropped idle pending
        (f := fun promise => { promise with value := .promise q })
        ⟨rfl, rfl, rfl, rfl, rfl, rfl⟩ fun r is => target
      apply (enqueue_good noted q c.target).place
      intro d derived
      rw [enqueue, modify_field _ q _ (·.kind) _ rfl, modify_same] at derived
      exact absurd derived (underived d)
    | some state =>
      rw [fire_adopts { w with closures := rest } pending promise self settled]
      have plain := settledPlain (by rw [settled]; exact Option.some_ne_none _)
      have unequal : ∀ r, (w.promises q).value ≠ .promise r := by
        intro r is
        rw [is] at plain
        cases plain
      apply settle_good droppedSane dropped idle pending
      · exact fun r is => absurd is (unequal r)
      · exact fun r is => absurd is (unequal r)
      · exact fun d derived => absurd derived (underived d)

theorem fire_plain_good (plain : c.value.isPromise = false) :
    Good none (fire { w with closures := rest } c) := by
  have among : c ∈ w.closures := queued ▸ mem_cons_self
  have unequal : ∀ q, c.value ≠ .promise q := by
    intro q is
    rw [is] at plain
    nomatch plain
  rw [fire_plain { w with closures := rest } pending plain]
  have noted := note_good (drop_good good queued) idle pending
    (f := fun promise => { promise with value := c.value, got := some (c.outcome, c.value) })
    ⟨rfl, rfl, rfl, rfl, rfl, rfl⟩ fun q is => absurd is (unequal q)
  have notedSane := note_sane (drop_sane sane queued) (sane.target c among) pending
    (sane.carried c among) (some (c.outcome, c.value))
  set before := modify { w with closures := rest } c.target fun promise =>
    { promise with value := c.value, got := some (c.outcome, c.value) } with is
  have target : before.promises c.target =
      { w.promises c.target with value := c.value, got := some (c.outcome, c.value) } :=
    modify_same _ _ _
  have fresh : ∀ d, (w.promises c.target).kind = .derived d → (w.promises c.target).ran = [] := by
    intro d derived
    exact (good.located c.target d nofun derived pending fun outcome => idle ▸ nofun).2.1
  cases has : (w.promises c.target).handler c.outcome with
  | none =>
    apply settle_good notedSane noted idle (by rw [target]; exact pending)
    · exact fun q is => absurd is (unequal q)
    · exact fun q is => absurd is (unequal q)
    · intro d derived
      rw [target] at derived ⊢
      refine ⟨c.outcome, c.value, rfl, fun _ => fresh d derived, fun handled => ?_⟩
      exact absurd has handled
  | some handler =>
    rw [(good.shape c.target).user c.outcome handler has]
    have derived : ∃ d, (w.promises c.target).kind = .derived d := by
      cases kind : (w.promises c.target).kind with
      | made =>
        obtain ⟨success, failure⟩ := sane.made c.target kind
        cases outcome : c.outcome <;> rw [outcome] at has
        · nomatch success.symm.trans has
        · nomatch failure.symm.trans has
      | derived d => exact ⟨d, rfl⟩
      | combined => exact absurd kind (good.plainly _ (sane.target c among))
    obtain ⟨d, derived⟩ := derived
    refine { noted with located := ?_, running := ?_ }
    · intro e d' _ kind unsettled quiet
      apply noted.located e d' ?_ kind unsettled fun outcome => idle ▸ nofun
      intro same
      exact quiet c.outcome (congrArg (fun x => some (x, c.outcome)) (Option.some.inj same))
    · intro p outcome busy
      obtain ⟨rfl, rfl⟩ := Prod.mk.inj (Option.some.inj busy)
      change (before.promises c.target).ran = [] ∧
        (before.promises c.target).handler c.outcome ≠ none
        ∧ ∃ value, (before.promises c.target).got = some (c.outcome, value)
      rw [target]
      refine ⟨fresh d derived, ?_, c.value, rfl⟩
      change (w.promises c.target).handler c.outcome ≠ none
      rw [has]
      exact nofun

end Fires

/-- A promise is not fired with one that is settled with a promise. -/
def Adopts (w : World V) (c : Closure V) : Prop :=
  (w.promises c.target).state = none →
    match c.value with
    | .promise q => SettledPlain w q
    | _ => True

theorem drain_good {after : World V} (sane : Sane w) (good : Good none w)
    (adopts : ∀ c ∈ w.closures.head?, Adopts w c) (stepped : step w .drain = some after) :
    Good none after := by
  obtain ⟨c, rest, idle, queued, rfl⟩ := step_drain w stepped
  by_cases pending : (w.promises c.target).state = none
  · have plain := adopts c (by rw [queued]; rfl) pending
    cases promise : c.value with
    | promise q =>
      rw [promise] at plain
      exact fire_promise_good sane good idle queued pending promise plain
    | _ => exact fire_plain_good sane good idle queued pending (by rw [promise]; rfl)
  · rw [fire_settled { w with closures := rest } c pending]
    apply (drop_good good queued).place
    exact fun d _ unsettled => absurd unsettled pending

theorem finish_good {p : Nat} {outcome : Outcome} (sane : Sane w) (good : Good none w)
    (busy : w.busy = some (p, outcome)) (state : Outcome) (result : Result V)
    (fits : ∀ q, result.value = .promise q → (w.promises q).kind = .made ∧
      ((w.promises q).state = none → ∀ x, (w.promises q).parent = some x →
        (w.promises x).queue = [])) :
    Good none (settle (noteRan { w with busy := none } p result) p state result.value) := by
  obtain ⟨below, pending, unmade⟩ := sane.busy p outcome busy
  obtain ⟨unran, handled, value, got⟩ := good.running p outcome busy
  have derived : ∃ d, (w.promises p).kind = .derived d := by
    cases kind : (w.promises p).kind with
    | made => exact absurd kind unmade
    | derived d => exact ⟨d, rfl⟩
    | combined => exact absurd kind (good.plainly p below)
  have quiet : Good (some p) { w with busy := none } := by
    refine { good with located := ?_, running := fun x how running => absurd running nofun }
    intro e d other kind unsettled _
    apply good.located e d nofun kind unsettled
    intro how running
    rw [busy] at running
    exact other (congrArg (some ∘ Prod.fst) (Option.some.inj running))
  have quietSane := busy_sane sane none nofun
  have noted := note_good quiet rfl pending
    (f := fun promise => { promise with ran := promise.ran ++ [result] })
    ⟨rfl, rfl, rfl, rfl, rfl, rfl⟩ (by
      intro q is
      obtain ⟨d, derived⟩ := derived
      have plain := (good.shape p).derivedPlain d derived pending
      change (w.promises p).value = .promise q at is
      rw [is] at plain
      nomatch plain)
  set before := noteRan { w with busy := none } p result with is
  have target : before.promises p = { w.promises p with ran := (w.promises p).ran ++ [result] } :=
    modify_same _ _ _
  have field {α : Type} (field : Promise V → α)
      (keeps : ∀ promise ran, field { promise with ran := ran } = field promise) (x : Nat) :
      field (before.promises x) = field (w.promises x) :=
    modify_field { w with busy := none } p x field _ (keeps _ _)
  have kinds := field (·.kind) fun _ _ => rfl
  apply settle_good (ran_sane quietSane below result) noted rfl (by rw [target]; exact pending)
  · intro q promise
    change (before.promises q).kind = .made ∧ ∃ d, (before.promises p).kind = .derived d
    rw [kinds, kinds]
    exact ⟨(fits q promise).1, derived⟩
  · intro q promise
    change (before.promises q).state = none → ∀ x, (before.promises q).parent = some x →
      (before.promises x).queue = []
    rw [field (·.state) fun _ _ => rfl, field (·.parent) fun _ _ => rfl]
    intro unsettled x parent
    rw [field (·.queue) fun _ _ => rfl]
    exact (fits q promise).2 unsettled x parent
  · intro d _
    change ∃ outcome got, (before.promises p).got = some (outcome, got) ∧
      RanFor (before.promises p) outcome
    rw [target]
    refine ⟨outcome, value, got, fun unhandled => absurd unhandled handled, fun _ => ?_⟩
    exact ⟨result, by rw [unran]; rfl⟩

/-! ## Every run -/

/-- A value that is a promise is one of `M.new`. -/
def OfNew (w : World V) : Val V → Prop
  | .promise q => (w.promises q).kind = .made
  | _ => True

/-- A pending promise has no parent for which others wait. -/
def Unclaimed (w : World V) : Val V → Prop
  | .promise q =>
    (w.promises q).state = none → ∀ x ∈ (w.promises q).parent, (w.promises x).queue = []
  | _ => True

/-- There are `M.new` and `andThen` only, and handlers end with plain values or promises
of `M.new`. -/
def Built (w : World V) : Event V → Prop
  | .act (.all _) => False
  | .act (.race _) => False
  | .act _ => True
  | .drain => True
  | .finish result => OfNew w result.value

/-- No promise is derived from one that waits for one settled with a promise, or fired with such
a one, and a handler ends with no pending promise that would forget a parent. -/
def Unforgotten (w : World V) : Event V → Prop
  | .act (.andThen p _ _) => SettledPlain w (behind w p)
  | .act (.final p _) => SettledPlain w (behind w p)
  | .act _ => True
  | .drain => ∀ c ∈ w.closures.head?, Adopts w c
  | .finish result => Unclaimed w result.value

theorem perform_good (sane : Sane w) (good : Good none w) {act : Act V}
    (built : Built w (.act act)) (unforgotten : Unforgotten w (.act act))
    (can : possible w act = true) : Good none (perform w act) := by
  cases act with
  | new => exact new_good sane good
  | call p outcome value =>
    simp only [possible, Bool.and_eq_true, decide_eq_true_eq] at can
    obtain ⟨⟨_, made⟩, _⟩ := can
    apply post_good good
    intro c among q promise
    rw [mem_singleton.mp among]
    exact made
  | andThen p success failure =>
    apply andThen_good sane good (of_decide_eq_true can) unforgotten
    exact fun handler has => has.elim (given_user success) (given_user failure)
  | final p handler => exact final_good sane good (of_decide_eq_true can) unforgotten handler
  | all args => exact absurd built id
  | race args => exact absurd built id

theorem step_good (sane : Sane w) (good : Good none w) {event : Event V} {after : World V}
    (built : Built w event) (unforgotten : Unforgotten w event)
    (stepped : step w event = some after) : Good none after := by
  cases event with
  | act act =>
    obtain ⟨can, rfl⟩ := step_act w stepped
    exact perform_good sane good built unforgotten can
  | drain => exact drain_good sane good unforgotten stepped
  | finish result =>
    obtain ⟨p, outcome, busy, _, rfl⟩ := step_finish w stepped
    have fits : ∀ q, result.value = .promise q → (w.promises q).kind = .made ∧
        ((w.promises q).state = none → ∀ x, (w.promises q).parent = some x →
          (w.promises x).queue = []) := by
      intro q promise
      rw [Built, promise] at built
      rw [Unforgotten, promise] at unforgotten
      exact ⟨built, unforgotten⟩
    cases result with
    | returned value => exact finish_good sane good busy outcome (.returned value) fits
    | raised err => exact finish_good sane good busy .rejected (.raised err) fits

theorem reached_good
    (reached : Reaches step (fun w event => Built w event ∧ Unforgotten w event)
      (start : World V) w) :
    Sane w ∧ Good none w := by
  apply reached.keeps (fun w => Sane w ∧ Good none w) ⟨start_sane, start_good⟩
  intro w event after holds allows stepped
  exact ⟨step_sane holds.1 stepped, step_good holds.1 holds.2 allows.1 allows.2 stepped⟩

theorem Good.none_waits (sane : Sane w) (good : Good none w) (idle : w.busy = none)
    (drained : w.closures = [])
    (settled : ∀ p < w.count, (w.promises p).kind = .made → (w.promises p).state ≠ none)
    (e d : Nat) (derived : (w.promises e).kind = .derived d) : (w.promises e).state ≠ none := by
  induction e using Nat.strong_induction_on generalizing d with
  | _ e older_settled =>
    intro pending
    obtain ⟨_, _, located⟩ := good.located e d nofun derived pending fun outcome => idle ▸ nofun
    rcases located with ⟨c, among, _⟩ | ⟨x, older, among, live⟩
    · rw [drained] at among
      nomatch among
    have below : x < w.count := by
      by_contra outside
      rw [sane.beyond x (not_lt.mp outside)] at among
      nomatch among
    by_cases unsettled : (w.promises x).state = none
    · cases kind : (w.promises x).kind with
      | made => exact settled x below kind unsettled
      | derived source => exact older_settled x older source kind unsettled
      | combined => exact good.plainly x below kind
    · obtain ⟨r, promise, waits, -⟩ := live.resolve_left unsettled
      exact settled r (sane.promise_lt promise) ((good.shape x).valueMade r unsettled promise) waits

/-- Nobody is waited for and nothing is queued: every derived promise is settled, and it ran
its handler for the outcome it got exactly once. -/
theorem no_continuation_lost
    (reached : Reaches step (fun w event => Built w event ∧ Unforgotten w event)
      (start : World V) w)
    (idle : w.busy = none) (drained : w.closures = [])
    (settled : ∀ p < w.count, (w.promises p).kind = .made → (w.promises p).state ≠ none)
    (e d : Nat) (derived : (w.promises e).kind = .derived d) :
    (w.promises e).state ≠ none ∧ ∃ outcome value,
      (w.promises e).got = some (outcome, value) ∧ RanFor (w.promises e) outcome := by
  obtain ⟨sane, good⟩ := reached_good reached
  have done := good.none_waits sane idle drained settled e d derived
  exact ⟨done, (good.shape e).done d derived done⟩

/-! ## Sessions -/

instance decidableOfNew (w : World V) : (value : Val V) → Decidable (OfNew w value)
  | .promise q => inferInstanceAs (Decidable ((w.promises q).kind = .made))
  | .nil | .plain _ | .typeError | .results _ => isTrue trivial

instance decidableUnclaimed (w : World V) : (value : Val V) → Decidable (Unclaimed w value)
  | .promise q => inferInstanceAs (Decidable ((w.promises q).state = none →
      ∀ x ∈ (w.promises q).parent, (w.promises x).queue = []))
  | .nil | .plain _ | .typeError | .results _ => isTrue trivial

instance decidableBuilt (w : World V) : (event : Event V) → Decidable (Built w event)
  | .act (.all _) => isFalse id
  | .act (.race _) => isFalse id
  | .act .new | .act (.call _ _ _) | .act (.andThen _ _ _) | .act (.final _ _) | .drain =>
    isTrue trivial
  | .finish result => inferInstanceAs (Decidable (OfNew w result.value))

instance (w : World V) (p : Nat) : Decidable (SettledPlain w p) :=
  inferInstanceAs (Decidable (_ → _))

instance (w : World V) (c : Closure V) : Decidable (Adopts w c) := by
  unfold Adopts
  cases c.value <;> infer_instance

instance decidableUnforgotten (w : World V) : (event : Event V) → Decidable (Unforgotten w event)
  | .act (.andThen p _ _) => inferInstanceAs (Decidable (SettledPlain w (behind w p)))
  | .act (.final p _) => inferInstanceAs (Decidable (SettledPlain w (behind w p)))
  | .act .new | .act (.call _ _ _) | .act (.all _) | .act (.race _) => isTrue trivial
  | .drain => inferInstanceAs (Decidable (∀ c ∈ w.closures.head?, Adopts w c))
  | .finish result => inferInstanceAs (Decidable (Unclaimed w result.value))

/-- The handlers of promises 3 and 4 return promises 1 and 2, which are resolved later;
promises 5 and 6 are derived from them. -/
def separateSession : List (Event Nat) :=
  [.act .new, .act .new, .act .new, .act (.andThen 0 true false), .act (.andThen 0 true false),
    .act (.andThen 3 true false), .act (.andThen 4 true false), .act (.call 0 .resolved (.plain 7)),
    .drain, .drain, .finish (.returned (.promise 1)), .drain, .finish (.returned (.promise 2)),
    .act (.call 1 .resolved (.plain 5)), .act (.call 2 .rejected (.plain 6)), .drain, .drain,
    .drain, .finish (.returned .nil), .drain]

theorem separate_session_settles :
    ∃ w, run step start separateSession = some w ∧ ∀ e d, (w.promises e).kind = .derived d →
      (w.promises e).state ≠ none ∧ ∃ outcome value,
        (w.promises e).got = some (outcome, value) ∧ RanFor (w.promises e) outcome := by
  have runs : ((run step start separateSession).map fun w =>
      (w.busy, w.closures, decide (∀ p < w.count, (w.promises p).kind = .made →
        (w.promises p).state ≠ none))) = some (none, [], true) := by
    decide +kernel
  obtain ⟨w, ran, fields⟩ := Option.map_eq_some_iff.mp runs
  rw [Prod.mk.injEq, Prod.mk.injEq, decide_eq_true_eq] at fields
  obtain ⟨idle, drained, settled⟩ := fields
  have reached : Reaches step (fun w event => Built w event ∧ Unforgotten w event) start w :=
    Reaches.run _ .start (by decide +kernel) ran
  exact ⟨w, ran, no_continuation_lost reached idle drained settled⟩

/-- The handlers of promises 2 and 3 both return promise 1. -/
def sharedSession : List (Event Nat) :=
  [.act .new, .act .new, .act (.andThen 0 true false), .act (.andThen 0 true false),
    .act (.andThen 2 true false), .act (.andThen 3 true false), .act (.call 0 .resolved (.plain 7)),
    .drain, .drain, .finish (.returned (.promise 1)), .drain, .finish (.returned (.promise 1)),
    .act (.call 1 .resolved (.plain 5)), .drain, .drain, .finish (.returned .nil)]

/-- Promise 4, derived from promise 2, is pending for ever. -/
theorem shared_promise_loses_continuation :
    runAllowed step Built start sharedSession = true ∧
      ((run step start sharedSession).map fun w =>
        (w.busy, w.closures, decide (∀ p < w.count, (w.promises p).kind = .made →
          (w.promises p).state ≠ none))) = some (none, [], true) ∧
      ((run step start sharedSession).map fun w =>
        ((w.promises 4).kind, (w.promises 4).state)) = some (.derived 2, none) := by
  decide +kernel

end Chuck.PromiseContinuations
