import Chuck.PromisePropagation

/-!
# `andThen` and the promise rule

Where handlers return plain values, a promise derived by `andThen` is fired with the
outcome of its source, and those derived from it are told what the promise rule says:
the value that its handler returned, the error that it raised, or the outcome itself if
there is no handler for it. The code decides by the presence of a failure handler
whether an outcome was an error, so this needs that a handler that raises belongs to a
promise without one.
-/

namespace Chuck.PromiseAndThen

open PromiseModel PromiseFrames PromiseSane PromisePropagation Support.SourceOrder
open Support.FaultFreeRuns Function List

variable {V : Type} {w after : World V}
variable {p t d : Nat} {cur : Option Nat} {outcome : Outcome}

variable {value : Val V}

/-! ## A promise settles -/

variable {promise : Promise V}

theorem handsOn_bare {state : Outcome} (is : promise.state = some state)
    (bare : promise.failure = none) : promise.handsOn = state := by
  rw [Promise.handsOn, is, bare]
  cases state <;> rfl

variable {f : Promise V → Promise V}

/-- What settling with a plain value changes where no promise is a parent. -/
structure Settling (w after : World V) (p : Nat) (state : Outcome) (value : Val V) : Prop where
  old : ∀ {x}, x ≠ p → after.promises x = w.promises x
  state : (after.promises p).state = some state
  value : (after.promises p).value = value
  kind : ∀ x, (after.promises x).kind = (w.promises x).kind
  success : ∀ x, (after.promises x).success = (w.promises x).success
  failure : ∀ x, (after.promises x).failure = (w.promises x).failure
  parent : ∀ x, (after.promises x).parent = (w.promises x).parent
  count : after.count = w.count
  busy : after.busy = w.busy
  closures : after.closures = w.closures ++ (w.promises p).queue.map fun target =>
    ⟨target, (after.promises p).handsOn, (after.promises p).value, false⟩

theorem settle_settling (orphan : (w.promises p).parent = none) (notes : Notes w p f)
    (state : Outcome) (plain : value.isPromise = false) :
    Settling w (settle (modify w p f) p state value) p state value := by
  set settled : Promise V := { f (w.promises p) with state := some state, value := value }
  have stamped : stamp (modify w p f) p state value =
      { w with promises := update w.promises p settled } := by
    rw [stamp, PromiseModel.modify, PromiseModel.modify]
    simp only [update_self, update_idem]
    rfl
  have same : update w.promises p settled p = settled := update_self ..
  have plainly : (update w.promises p settled p).value.isPromise = false :=
    (congrArg (·.value.isPromise) same).trans plain
  rw [settle_orphan _ _ _ plain (by rw [modify_same, notes.parent, orphan]), stamped, dispatch,
    behind_plain _ _ plainly]
  have field {α : Type} (field : Promise V → α) (keeps : field settled = field (w.promises p))
      (x : Nat) : field (update w.promises p settled x) = field (w.promises x) := by
    by_cases here : x = p
    · rw [here, same, keeps]
    · rw [update_of_ne here]
  refine ⟨fun other => update_of_ne other .., congrArg (·.state) same, congrArg (·.value) same,
    field (·.kind) notes.kind, field (·.success) notes.success, field (·.failure) notes.failure,
    field (·.parent) notes.parent, rfl, rfl, ?_⟩
  dsimp only
  rw [same, show settled.queue = _ from notes.queue]

section Settling

variable {after : World V} {state : Outcome} {x : Nat} (settling : Settling w after p state value)

include settling

theorem Settling.decided : (after.promises p).state ≠ none := by
  rw [settling.state]
  exact nofun

theorem Settling.before (unsettled : (after.promises x).state = none) :
    x ≠ p ∧ (w.promises x).state = none := by
  have other : x ≠ p := fun same => settling.decided (same ▸ unsettled)
  exact ⟨other, settling.old other ▸ unsettled⟩

theorem Settling.posted {c : Closure V} (among : c ∈ after.closures) : c ∈ w.closures ∨
    ∃ target ∈ (w.promises p).queue, c = ⟨target, (after.promises p).handsOn, value, false⟩ := by
  rw [settling.closures, settling.value] at among
  refine (mem_append.mp among).imp_right fun new => ?_
  obtain ⟨target, there, same⟩ := mem_map.mp new
  exact ⟨target, there, same.symm⟩

theorem Settling.targets : toldTargets after = toldTargets w ++ (w.promises p).queue := by
  rw [toldTargets, toldTargets, settling.closures, filter_append, map_append]
  congr 1
  rw [filter_map, map_map]
  simp [comp_def]

theorem Settling.sources : source after = source w := by
  funext x
  rw [source, source, settling.kind]

theorem Settling.hands_same : Hands after p (after.promises p).handsOn value :=
  ⟨settling.decided, rfl, settling.value.symm⟩

variable (good : Good cur w) (pending : (w.promises p).state = none)

omit settling in
include pending in
theorem settled_apart (settled : (w.promises x).state ≠ none) : x ≠ p :=
  fun same => settled (same ▸ pending)

include pending

theorem Settling.hands {given : Val V} (has : Hands w x outcome given) :
    Hands after x outcome given := by
  rw [Hands, settling.old (settled_apart pending has.1)]
  exact has

include good

theorem Settling.waits (only : ∀ x, cur = some x → x = p) {z : Nat}
    (unsettled : (after.promises x).state = none)
    (promise : (after.promises x).value = .promise z) :
    Awaits after x z := by
  obtain ⟨other, waits⟩ := settling.before unsettled
  rw [settling.old other] at promise
  rw [Awaits, settling.targets]
  have located := good.waits x z (fun eq => other (only x eq)) waits promise
  by_cases same : z = p
  · rw [same] at located ⊢
    exact .inr ⟨settling.decided, mem_append_right _
      (located.resolve_right fun settled => settled.1 pending).2⟩
  · rw [settling.old same]
    exact located.imp_right fun has => ⟨has.1, mem_append_left _ has.2⟩

/-- What `p` was given is what it hands on. -/
theorem Settling.gives (sane : Sane w)
    (waited : ∀ z, (w.promises p).value = .promise z → Hands w z state value) {given : Val V}
    (has : Gives w d outcome given) : Gives after d outcome given := by
  obtain ⟨z, rfl | ⟨unsettled, promise⟩, has⟩ := has
  · exact ⟨z, .inl rfl, settling.hands pending has⟩
  by_cases here : d = p
  · rw [here] at promise ⊢
    obtain ⟨-, how, what⟩ := waited z promise
    have bare := (sane.made p (good.waiter p z pending promise)).2
    refine ⟨p, .inl rfl, settling.decided, ?_, ?_⟩
    · rw [has.2.1, ← how, handsOn_bare settling.state ((settling.failure p).trans bare)]
    · rw [has.2.2, ← what, settling.value]
  · refine ⟨z, .inr ?_, settling.hands pending has⟩
    rw [settling.old here]
    exact ⟨unsettled, promise⟩

/-- A settled promise tells those in its queue what it hands on. -/
theorem Settling.relays (sane : Sane w) (plain : value.isPromise = false)
    (waited : ∀ z, (w.promises p).value = .promise z → Hands w z state value) {c : Closure V}
    (among : c ∈ after.closures) : Relays after c := by
  rw [Relays, settling.kind]
  rcases settling.posted among with there | ⟨target, there, rfl⟩
  · obtain ⟨told, gives⟩ := good.relays c there
    refine ⟨fun uncalled => ⟨(told uncalled).1, fun made unsettled => ?_⟩, fun d derived => ?_⟩
    · obtain ⟨other, waits⟩ := settling.before unsettled
      rw [settling.old other]
      exact ((told uncalled).2 made waits).imp fun z has => has.imp_right (settling.hands pending)
    · exact settling.gives good pending sane waited (gives d derived)
  · obtain ⟨waiting, from_⟩ := good.belongs p pending target there
    refine ⟨fun _ => ⟨plain, fun made unsettled => ?_⟩, fun d derived => ?_⟩
    · obtain ⟨other, -⟩ := settling.before unsettled
      rw [settling.old other]
      exact ⟨p, (waiting made).2, settling.hands_same⟩
    · refine ⟨p, ?_, settling.hands_same⟩
      by_cases here : d = p
      · exact .inl here.symm
      · rw [At, settling.old here]
        exact from_ d derived

omit pending in
theorem Settling.fresh (only : ∀ x, cur = some x → x = p) (idle : w.busy = none) {e : Nat}
    (derived : (after.promises e).kind = .derived d) (unsettled : (after.promises e).state = none) :
    Unfired after e := by
  obtain ⟨other, waits⟩ := settling.before unsettled
  rw [settling.kind] at derived
  rw [Unfired, settling.old other, settling.targets]
  obtain ⟨got, ran, located⟩ := good.fresh e d (fun eq => other (only e eq)) derived waits
    fun outcome => idle ▸ nofun
  refine ⟨got, ran, ?_⟩
  rcases located with ⟨x, waitsX, among⟩ | told
  · by_cases same : x = p
    · exact .inr (mem_append_right _ (same ▸ among))
    · exact .inl ⟨x, by rw [settling.old same]; exact ⟨waitsX, among⟩⟩
  · exact .inr (mem_append_left _ told)

theorem Settling.told (only : ∀ x, cur = some x → x = p) :
    Ordered (source after) (fun d => (after.promises d).state ≠ none ∨ none = some d)
      (toldTargets after) := by
  rw [settling.sources, settling.targets]
  apply Ordered.append
  · apply good.told.mono
    intro e _ d _ has
    left
    rcases has with settled | eq
    · rw [settling.old (settled_apart pending settled)]
      exact settled
    · rw [only d eq]
      exact settling.decided
  · apply (good.queued p pending).mono
    intro e _ d _ same
    rw [same]
    exact .inl (.inl settling.decided)

end Settling

theorem settle_good (sane : Sane w) (good : Good cur w) (only : ∀ x, cur = some x → x = p)
    (idle : w.busy = none) (pending : (w.promises p).state = none) (notes : Notes w p f)
    (state : Outcome) (plain : value.isPromise = false)
    (waited : ∀ z, (w.promises p).value = .promise z → Hands w z state value)
    (done : ∀ d, (w.promises p).kind = .derived d → ∃ outcome got,
      Fired (settle (modify w p f) p state value) p d outcome got ∧
        Ruled ((settle (modify w p f) p state value).promises p) outcome got) :
    Good none (settle (modify w p f) p state value) := by
  have settling := settle_settling (good.orphan p) notes state plain
  set after := settle (modify w p f) p state value
  -- no one waits for a pending promise but in its queue
  have unwaited {x y : Nat} (unsettled : (w.promises x).state = none)
      (promise : (w.promises y).value = .promise x) : y ≠ p := by
    rintro rfl
    exact (waited x promise).1 unsettled
  constructor
  case settledPlain =>
    intro x there
    by_cases here : x = p
    · rw [here, settling.value]
      exact plain
    · rw [settling.old here] at there ⊢
      exact good.settledPlain x there
  case orphan => exact fun x => (settling.parent x).trans (good.orphan x)
  case bare =>
    intro x
    rw [settling.kind, settling.success, settling.failure]
    exact good.bare x
  case exists_ =>
    intro e d
    rw [settling.kind, settling.count]
    exact good.exists_ e d
  case waiter =>
    intro x z unsettled promise
    obtain ⟨other, waits⟩ := settling.before unsettled
    rw [settling.old other] at promise ⊢
    exact good.waiter x z waits promise
  case waits => exact fun x z _ => settling.waits good pending only
  case relays => exact fun c => settling.relays good pending sane plain waited
  case belongs =>
    intro x unsettled y among
    obtain ⟨other, waits⟩ := settling.before unsettled
    rw [settling.old other] at among
    rw [Belongs, settling.kind]
    refine (good.belongs x waits y among).imp (fun waiting made => ?_) fun from_ d derived => ?_
    · rw [settling.old (unwaited waits (waiting made).2)]
      exact waiting made
    · refine (from_ d derived).imp_right fun has => ?_
      rw [settling.old (unwaited waits has.2)]
      exact has
  case fresh =>
    exact fun e d _ derived unsettled _ => settling.fresh good only idle derived unsettled
  case running =>
    intro x outcome runs
    rw [settling.busy, idle] at runs
    cases runs
  case done =>
    intro e d derived there
    rw [settling.kind] at derived
    by_cases here : e = p
    · rw [here] at derived ⊢
      exact done d derived
    · rw [settling.old here] at there ⊢
      obtain ⟨outcome, given, fired, ruled⟩ := good.done e d derived there
      refine ⟨outcome, given, ⟨?_, settling.hands pending fired.2⟩, ruled⟩
      rw [settling.old here]
      exact fired.1
  case told => exact settling.told good pending only
  case queued =>
    intro x unsettled
    obtain ⟨other, waits⟩ := settling.before unsettled
    rw [settling.old other, settling.sources]
    exact good.queued x waits

/-! ## The promise rule, case by case -/

theorem ruled_unhandled (state : promise.state = some outcome)
    (none : promise.handler outcome = none) (ran : promise.ran = []) :
    Ruled promise outcome promise.value := by
  refine ⟨⟨fun _ => ran, fun some => absurd none some⟩, ?_⟩
  have hands : promise.handsOn = outcome := by
    cases outcome with
    | resolved =>
      rw [Promise.handsOn, state]
      rfl
    | rejected => exact handsOn_bare state none
  rw [ran, hands]
  rfl

theorem ruled_returned (state : promise.state = some outcome)
    (some_ : promise.handler outcome ≠ none) (ran : promise.ran = [.returned promise.value]) :
    Ruled promise outcome value := by
  refine ⟨⟨fun none => absurd none some_, fun _ => ⟨_, ran⟩⟩, ?_⟩
  have hands : promise.handsOn = .resolved := by
    rw [Promise.handsOn, if_neg]
    intro both
    rw [state] at both
    rw [Option.some.inj both.1] at some_
    exact some_ both.2
  rw [ran, hands]
  rfl

theorem ruled_raised (state : promise.state = some .rejected)
    (some_ : promise.handler outcome ≠ none) (bare : promise.failure = none)
    (ran : promise.ran = [.raised promise.value]) : Ruled promise outcome value := by
  refine ⟨⟨fun none => absurd none some_, fun _ => ⟨_, ran⟩⟩, ?_⟩
  rw [ran, handsOn_bare state bare]
  rfl

theorem derived_good (sane : Sane w) (good : Good (some t) w) (idle : w.busy = none)
    (pending : (w.promises t).state = none) (kind : (w.promises t).kind = .derived d)
    (settled : (w.promises d).state ≠ none) (how : outcome = (w.promises d).handsOn)
    (what : value = (w.promises d).value) (notes : Notes w t f)
    (got : (f (w.promises t)).got = some (outcome, value)) (state : Outcome) {result : Val V}
    (plain : result.isPromise = false)
    (ruled : ∀ promise : Promise V, promise.state = some state → promise.value = result →
      promise.ran = (f (w.promises t)).ran → promise.success = (w.promises t).success →
      promise.failure = (w.promises t).failure → Ruled promise outcome value) :
    Good none (settle (modify w t f) t state result) := by
  have apart : d ≠ t := fun same => settled (same ▸ pending)
  apply settle_good sane good (fun x eq => (Option.some.inj eq).symm) idle pending notes state plain
  · intro z promise
    nomatch kind.symm.trans (good.waiter t z pending promise)
  · intro d' derived
    rw [← Kind.derived.inj (kind.symm.trans derived)]
    have noted : (modify w t f).promises t = f (w.promises t) := modify_same ..
    refine ⟨outcome, value, ⟨?_, ?_, ?_, ?_⟩, ruled _ (settle_state_same ..) (settle_value_same ..)
      ?_ ?_ ?_⟩
    · rw [settle_eq]
      exact (congrArg Promise.got noted).trans got
    · rw [settle_state_other _ _ _ _ apart, modify_other _ _ _ apart]
      exact settled
    · rw [how, Promise.handsOn, Promise.handsOn, settle_state_other _ _ _ _ apart,
        settle_failure, modify_other _ _ _ apart]
    · rw [what, settle_value_other _ _ _ _ apart, modify_other _ _ _ apart]
    · rw [settle_eq]
      change ((modify w t f).promises t).ran = _
      rw [noted]
    · rw [settle_eq]
      exact (congrArg Promise.success noted).trans notes.success
    · rw [settle_eq]
      exact (congrArg Promise.failure noted).trans notes.failure

/-! ## Handlers -/

theorem busy_good (good : Good (some t) w) (idle : w.busy = none)
    (pending : (w.promises t).state = none) (kind : (w.promises t).kind = .derived d)
    (plain : value.isPromise = false) (settled : (w.promises d).state ≠ none)
    (how : outcome = (w.promises d).handsOn) (what : value = (w.promises d).value)
    (ran : (w.promises t).ran = []) (handler : (w.promises t).handler outcome = some .user) :
    Good none { modify w t fun promise =>
        { promise with value := value, got := some (outcome, value) } with
      busy := some (t, outcome) } := by
  have unwaiting {x z : Nat} (promise : (if x = t then value else (w.promises x).value) =
      .promise z) :
      x ≠ t := by
    rintro rfl
    rw [if_pos rfl] at promise
    rw [promise] at plain
    nomatch plain
  have noted : Good (some t) (modify w t fun promise =>
      { promise with value := value, got := some (outcome, value) }) := by
    rw [note_eq]
    apply good.revise _ _ _ t [] (by intro x; split <;> simp_all)
    · exact fun x there => if_neg fun same : x = t => there (same ▸ pending)
    · intro x z promise
      -- a derived promise waits for no one
      refine (if_neg fun same : x = t => ?_).trans promise
      rw [same] at promise
      nomatch kind.symm.trans (good.waiter t z pending promise)
    · intro x z promise
      exact .inl ((if_neg (unwaiting promise)).symm.trans promise)
    · intro x
      by_cases same : x = t
      · exact .inr ⟨congrArg some same.symm, same ▸ pending, idle⟩
      · exact .inl (if_neg same)
    · exact nofun
    · exact nofun
    · exact trivial
  rw [note_eq] at noted ⊢
  refine { noted with waits := ?_, fresh := ?_, running := ?_, told := ?_ }
  · intro x z _ waits promise
    exact noted.waits x z (fun same => unwaiting promise (Option.some.inj same).symm) waits promise
  · intro e d _ derived waits other
    refine noted.fresh e d ?_ derived waits fun how => idle ▸ nofun
    exact fun same => other outcome (congrArg (fun x => some (x, outcome)) (Option.some.inj same))
  · intro x how runs
    obtain ⟨rfl, rfl⟩ := Prod.mk.inj (Option.some.inj runs)
    refine ⟨⟨ran, handler⟩, d, value, kind, if_pos rfl, settled, how, ?_⟩
    exact what.trans (if_neg fun same : d = t => settled (same ▸ pending)).symm
  · apply noted.told.mono
    intro e among d derived has
    refine .inl (has.resolve_right fun same => ?_)
    -- no one is told anything by a promise that is pending and waits for no one
    obtain ⟨c, there, -, target⟩ := mem_toldTargets.mp among
    rw [source_derived, ← target] at derived
    have given := (noted.relays c there).2 d derived
    rw [← Option.some.inj same] at given
    nomatch kind.symm.trans (noted.gives_made given pending)

theorem synchronize_modify (w : World V) (t : Nat) (f : Promise V → Promise V) (g i : Nat)
    (how : Outcome) (value : Val V) :
    synchronize (modify w t f) g i how value = modify (synchronize w g i how value) t f := by
  by_cases last : (w.groups g).pending - 1 = 0
  · simp only [synchronize, modify_groups, last, if_true]
    rfl
  · simp only [synchronize, modify_groups, last, if_false]
    rfl

theorem synchronize_good (good : Good cur w) {g i : Nat} {how : Outcome} (value : Val V)
    (owns : Owns w (.synchronizer g i how)) : Good cur (synchronize w g i how value) := by
  have kind := owns.2.2
  have grouped (groups : Nat → AllGroup V) : Good cur { w with groups := groups } :=
    good.beside groups w.groupCount w.calls fun x => (w.promises x).isFinal
  rw [synchronize]
  split_ifs
  · apply tell_good (grouped _) _ _ rfl
    · exact fun made => absurd (kind.symm.trans made) (by rintro ⟨⟩)
    · exact fun d derived => absurd (kind.symm.trans derived) (by rintro ⟨⟩)
  · exact grouped _

theorem handle_good (sane : Sane w) (good : Good (some t) w) (idle : w.busy = none)
    (pending : (w.promises t).state = none) (kind : (w.promises t).kind = .derived d)
    (plain : value.isPromise = false) (knows : known w value = true)
    (settled : (w.promises d).state ≠ none) (how : outcome = (w.promises d).handsOn)
    (what : value = (w.promises d).value) (ran : (w.promises t).ran = []) :
    Good none (handle (modify w t fun promise =>
        { promise with value := value, got := some (outcome, value) })
      t outcome value ((w.promises t).handler outcome)) := by
  have notes (w : World V) : Notes w t fun promise =>
      { promise with value := value, got := some (outcome, value) } :=
    ⟨rfl, rfl, rfl, rfl, rfl, rfl⟩
  have handlers {promise : Promise V} (success : promise.success = (w.promises t).success)
      (failure : promise.failure = (w.promises t).failure) :
      promise.handler outcome = (w.promises t).handler outcome := by
    cases outcome
    · exact success
    · exact failure
  cases has : (w.promises t).handler outcome with
  | none =>
    apply derived_good sane good idle pending kind settled how what (notes w) rfl outcome plain
    intro promise state same ranSame success failure
    rw [← same]
    apply ruled_unhandled state
    · rw [handlers success failure]
      exact has
    · rw [ranSame]
      exact ran
  | some handler =>
    have owns := sane.owns t outcome handler has
    have handled {promise : Promise V} (success : promise.success = (w.promises t).success)
        (failure : promise.failure = (w.promises t).failure) :
        promise.handler outcome ≠ none := by
      rw [handlers success failure, has]
      exact nofun
    cases handler with
    | user => exact busy_good good idle pending kind plain settled how what ran has
    | synchronizer g i which =>
      have sane' := synchronize_sane sane value owns
      have good' := synchronize_good good value owns
      have same := synchronize_promises w g i which value
      change Good none (settle (noteRan (synchronize _ g i which value) t (.returned value))
        t outcome value)
      rw [synchronize_modify, settle_noted]
      apply derived_good sane' good' ((synchronize_busy w g i which value).trans idle)
        (by rw [same]; exact pending) (by rw [same]; exact kind) (by rw [same]; exact settled)
        (by rw [same]; exact how) (by rw [same]; exact what) ⟨rfl, rfl, rfl, rfl, rfl, rfl⟩ rfl
        outcome plain
      intro promise state is ranSame success failure
      rw [same] at ranSame success failure
      apply ruled_returned state (handled success failure)
      rw [ranSame, is, ran]
      rfl
    | racer target which =>
      have sane' := tell_sane sane which value owns.1 knows
      have good' : Good (some t) (tell w target which value) := by
        apply tell_good good target which plain
        · exact fun made => absurd (owns.2.symm.trans made) nofun
        · exact fun d derived => absurd (owns.2.symm.trans derived) nofun
      change Good none (settle (noteRan (modify (tell w target which value) t fun promise =>
        { promise with value := value, got := some (outcome, value) }) t (.returned .nil))
        t outcome .nil)
      rw [settle_noted]
      apply derived_good sane' good' idle pending kind settled how what
        ⟨rfl, rfl, rfl, rfl, rfl, rfl⟩ rfl outcome rfl
      intro promise state is ranSame success failure
      apply ruled_returned state (handled success failure)
      rw [ranSame, is]
      change (w.promises t).ran ++ _ = _
      rw [ran]
      rfl

/-! ## Firing -/

theorem told_source {c : Closure V} {rest : List (Closure V)} (good : Good none w)
    (queued : w.closures = c :: rest) (uncalled : c.called = false)
    (derived : (w.promises c.target).kind = .derived d) :
    (w.promises d).state ≠ none ∧ c.outcome = (w.promises d).handsOn ∧
      c.value = (w.promises d).value := by
  have ordered := good.told
  have targets : toldTargets w = c.target :: toldTargets { w with closures := rest } := by
    rw [toldTargets, toldTargets, queued]
    simp [uncalled]
  rw [targets] at ordered
  have settled := (ordered.1 d (source_derived.mpr derived)).resolve_right (by rintro ⟨⟩)
  exact ⟨settled,
    ((good.relays c (queued ▸ mem_cons_self)).2 d derived).settled settled⟩

theorem plain_good (sane : Sane w) (good : Good cur w) (only : ∀ x, cur = some x → x = t)
    (idle : w.busy = none) (pending : (w.promises t).state = none)
    (other : ∀ d, (w.promises t).kind ≠ .derived d) (plain : value.isPromise = false)
    (waited : ∀ z, (w.promises t).value = .promise z → (w.promises z).state ≠ none ∧
      outcome = (w.promises z).handsOn ∧ value = (w.promises z).value) :
    Good none (handle (modify w t fun promise =>
        { promise with value := value, got := some (outcome, value) })
      t outcome value ((w.promises t).handler outcome)) := by
  have none : (w.promises t).handler outcome = none := by
    have bare : (w.promises t).success = Option.none ∧ (w.promises t).failure = Option.none := by
      cases kind : (w.promises t).kind with
      | made => exact sane.made t kind
      | combined => exact good.bare t kind
      | derived d => exact absurd kind (other d)
    cases outcome
    · exact bare.1
    · exact bare.2
  rw [none]
  apply settle_good sane good only idle pending ⟨rfl, rfl, rfl, rfl, rfl, rfl⟩ outcome plain waited
  exact fun d derived => absurd derived (other d)

def Patient (w : World V) (c : Closure V) : Prop :=
  (w.promises c.target).state = none → c.called = true →
    (w.promises c.target).value.isPromise = false

instance (w : World V) (c : Closure V) : Decidable (Patient w c) :=
  inferInstanceAs (Decidable (_ → _ → _))

theorem fire_good {c : Closure V} {rest : List (Closure V)} (sane : Sane w) (good : Good none w)
    (idle : w.busy = none) (queued : w.closures = c :: rest) (patient : Patient w c) :
    Good none (fire { w with closures := rest } c) := by
  have among : c ∈ w.closures := queued ▸ mem_cons_self
  have dropSane := drop_sane sane queued
  have dropGood := drop_good good queued
  have knows := sane.carried c among
  by_cases pending : (w.promises c.target).state = none
  · cases called : c.called with
    | true =>
      rw [called] at dropGood
      have made := sane.called c among called
      have unwaiting {z : Nat} : (w.promises c.target).value ≠ .promise z := by
        intro promise
        have plain := patient pending called
        rw [promise] at plain
        nomatch plain
      have other : ∀ d, (w.promises c.target).kind ≠ .derived d := by
        intro d derived
        nomatch made.symm.trans derived
      -- settling, when nothing was noted before
      have settles (state : Outcome) {value : Val V} (plain : value.isPromise = false) :
          Good none (settle { w with closures := rest } c.target state value) := by
        rw [← unnoted { w with closures := rest } c.target]
        exact settle_good dropSane dropGood nofun idle pending ⟨rfl, rfl, rfl, rfl, rfl, rfl⟩
          state plain (fun z promise => absurd promise unwaiting)
          fun d derived => absurd derived (other d)
      cases is : c.value with
      | promise q =>
        by_cases self : q = c.target
        · rw [fire_self { w with closures := rest } pending (self ▸ is)]
          exact settles .rejected rfl
        · cases waits : (w.promises q).state with
          | none =>
            rw [fire_pending { w with closures := rest } pending is self waits]
            exact wait_good dropGood made pending (patient pending called) waits
          | some state =>
            rw [fire_adopts { w with closures := rest } pending is self waits]
            exact settles state (good.settledPlain q (by rw [waits]; exact Option.some_ne_none _))
      | _ =>
        have plain : c.value.isPromise = false := by rw [is]; rfl
        rw [fire_plain { w with closures := rest } pending plain]
        exact plain_good dropSane dropGood nofun idle pending other plain
          fun z promise => absurd promise unwaiting
    | false =>
      rw [called] at dropGood
      obtain ⟨plain, told⟩ := (good.relays c among).1 called
      rw [fire_plain { w with closures := rest } pending plain]
      cases kind : (w.promises c.target).kind with
      | derived d =>
        obtain ⟨settled, how, what⟩ := told_source good queued called kind
        have ran := (good.fresh c.target d nofun kind pending fun _ => idle ▸ nofun).2.1
        exact handle_good dropSane dropGood idle pending kind plain knows settled how what
          ran
      | made =>
        apply plain_good dropSane dropGood (fun x eq => (Option.some.inj eq).symm) idle pending
          (fun d derived => absurd (kind.symm.trans derived) nofun) plain
        intro z promise
        obtain ⟨z', promise', rest⟩ := told kind pending
        rw [Val.promise.inj (promise.symm.trans promise')]
        exact rest
      | combined =>
        apply plain_good dropSane dropGood (fun x eq => (Option.some.inj eq).symm) idle pending
          (fun d derived => absurd (kind.symm.trans derived) nofun) plain
        intro z promise
        nomatch kind.symm.trans (good.waiter c.target z pending promise)
  · rw [fire_settled { w with closures := rest } c pending]
    cases called : c.called with
    | true =>
      rw [called] at dropGood
      exact dropGood
    | false =>
      rw [called] at dropGood
      exact dropGood.place (absurd · pending) (absurd · pending) fun _ _ waits =>
        absurd waits pending

/-! ## The end of a handler -/

def Faithful (w : World V) (p : Nat) : Result V → Prop
  | .returned value => value.isPromise = false
  | .raised err => err.isPromise = false ∧ (w.promises p).failure = none

instance (w : World V) (p : Nat) : (result : Result V) → Decidable (Faithful w p result)
  | .returned value => inferInstanceAs (Decidable (value.isPromise = false))
  | .raised err =>
    inferInstanceAs (Decidable (err.isPromise = false ∧ (w.promises p).failure = none))

theorem finish_good (sane : Sane w) (good : Good none w) {result : Result V}
    (busy : w.busy = some (p, outcome)) (faithful : Faithful w p result) :
    Good none (finish w p outcome result) := by
  obtain ⟨below, pending, -⟩ := sane.busy p outcome busy
  obtain ⟨⟨ran, handler⟩, d, value, kind, got, settled, how, what⟩ := good.running p outcome busy
  have idleSane := busy_sane sane none nofun
  have idleGood : Good (some p) { w with busy := none } := by
    refine { good with
        waits := fun x z _ => good.waits x z nofun, fresh := ?_, running := nofun, told := ?_ }
    · intro e d other derived waits _
      apply good.fresh e d nofun derived waits
      intro which running
      rw [busy] at running
      exact other (congrArg some (Prod.mk.inj (Option.some.inj running)).1)
    · exact good.told.mono fun e _ d _ has => .inl (has.resolve_right nofun)
  have handled {promise : Promise V} (success : promise.success = (w.promises p).success)
      (failure : promise.failure = (w.promises p).failure) : promise.handler outcome ≠ none := by
    have same : promise.handler outcome = (w.promises p).handler outcome := by
      cases outcome
      · exact success
      · exact failure
    rw [same, handler]
    exact nofun
  have ranNow (result : Result V) : (w.promises p).ran ++ [result] = [result] := by
    rw [ran]
    rfl
  cases result with
  | returned result =>
    apply derived_good idleSane idleGood rfl pending kind settled how what
      ⟨rfl, rfl, rfl, rfl, rfl, rfl⟩ got outcome faithful
    intro promise state is ranSame success failure
    apply ruled_returned state (handled success failure)
    rw [ranSame, is]
    exact ranNow _
  | raised err =>
    apply derived_good idleSane idleGood rfl pending kind settled how what
      ⟨rfl, rfl, rfl, rfl, rfl, rfl⟩ got .rejected faithful.1
    intro promise state is ranSame success failure
    apply ruled_raised state (handled success failure) (failure.trans faithful.2)
    rw [ranSame, is]
    exact ranNow _

/-! ## Runs -/

/-- Handlers return plain values, none raises where there is a failure handler, and the
program does not settle a promise that waits for another one. -/
def FollowsRule (w : World V) : Event V → Prop
  | .drain =>
    match w.closures with
    | [] => True
    | c :: _ => Patient w c
  | .finish result =>
    match w.busy with
    | none => True
    | some (p, _) => Faithful w p result
  | .act _ => True

theorem step_good (sane : Sane w) (good : Good none w) {event : Event V}
    (allows : FollowsRule w event) (stepped : step w event = some after) : Good none after := by
  cases event with
  | act act =>
    obtain ⟨can, rfl⟩ := step_act w stepped
    cases act with
    | new => exact new_good sane good .made nofun
    | call p outcome value =>
      simp only [possible, Bool.and_eq_true, decide_eq_true_eq] at can
      exact call_good good can.1.2 outcome value _
    | andThen p success failure => exact andThen_good sane good (of_decide_eq_true can) _ _
    | final p handler => exact final_good sane good (of_decide_eq_true can) _
    | all args => exact all_good sane good (args_below w can)
    | race args => exact race_good sane good (args_below w can)
  | drain =>
    obtain ⟨c, rest, idle, queued, rfl⟩ := step_drain w stepped
    rw [FollowsRule, queued] at allows
    exact fire_good sane good idle queued allows
  | finish result =>
    obtain ⟨p, outcome, busy, -, rfl⟩ := step_finish w stepped
    rw [FollowsRule, busy] at allows
    exact finish_good sane good busy allows

theorem reached_good (reached : Reaches step FollowsRule (start : World V) w) :
    Sane w ∧ Good none w := by
  apply reached.keeps (fun w => Sane w ∧ Good none w) ⟨start_sane, start_good⟩
  intro w event after holds allows stepped
  exact ⟨step_sane holds.1 stepped, step_good holds.1 holds.2 allows stepped⟩

/-- The outcome of a promise: its state and value, or, for a derived one, what the promise
rule says. -/
def outcomeOf (w : World V) (p : Nat) : Option (Outcome × Val V) :=
  match (w.promises p).state, (w.promises p).kind with
  | none, _ => none
  | some _, .derived _ => (w.promises p).got.map fun got => rule got (w.promises p).ran
  | some state, _ => some (state, (w.promises p).value)

def Told (w : World V) (e : Nat) (outcome : Outcome × Val V) : Prop :=
  (w.promises e).got = some outcome ∨
    ((w.promises e).got = none ∧ (w.promises e).state = none ∧ e ∈ toldTargets w ∧
      ∀ c ∈ w.closures, c.target = e → (c.outcome, c.value) = outcome)

theorem outcome_handed (sane : Sane w) (good : Good none w)
    (settled : (w.promises p).state ≠ none) :
    outcomeOf w p = some ((w.promises p).handsOn, (w.promises p).value) := by
  obtain ⟨state, is⟩ := Option.ne_none_iff_exists'.mp settled
  rw [outcomeOf, is]
  cases kind : (w.promises p).kind with
  | derived d =>
    obtain ⟨outcome, value, fired, ruled⟩ := good.done p d kind settled
    rw [fired.1, Option.map_some, ruled.2]
  | made => rw [handsOn_bare is (sane.made p kind).2]
  | combined => rw [handsOn_bare is (good.bare p kind).2]

/-- A promise derived by `andThen` that is settled was fired with the outcome of its
source, ran its handler for it once if there is one, and those derived from it are told
what the promise rule says. -/
theorem andThen_follows_rule (reached : Reaches step FollowsRule (start : World V) w) (p d : Nat)
    (derived : (w.promises d).kind = .derived p) (settled : (w.promises d).state ≠ none) :
    ∃ got, (w.promises d).got = some got ∧ outcomeOf w p = some got ∧
      RanFor (w.promises d) got.1 ∧
      ∀ e, (w.promises e).kind = .derived d → Told w e (rule got (w.promises d).ran) := by
  obtain ⟨sane, good⟩ := reached_good reached
  obtain ⟨outcome, value, ⟨got, there, how, what⟩, ran, ruled⟩ := good.done d p derived settled
  refine ⟨(outcome, value), got, ?_, ran, ?_⟩
  · rw [outcome_handed sane good there, how, what]
  · intro e kind
    rw [← ruled]
    -- what `e` was fired with, or is told, is what `d` hands on
    have fired {outcome : Outcome} {value : Val V} (has : Fired w e d outcome value) :
        (w.promises e).got = some ((w.promises d).handsOn, (w.promises d).value) := by
      rw [has.1, has.2.2.1, has.2.2.2]
    by_cases pending : (w.promises e).state = none
    · by_cases busy : ∃ outcome, w.busy = some (e, outcome)
      · obtain ⟨which, running⟩ := busy
        obtain ⟨-, d', given, kind', has⟩ := good.running e which running
        rw [← Kind.derived.inj (kind.symm.trans kind')] at has
        exact .inl (fired has)
      · obtain ⟨none, -, located⟩ := good.fresh e d nofun kind pending
          fun outcome running => busy ⟨outcome, running⟩
        refine .inr ⟨none, pending, ?_, ?_⟩
        · rcases located with ⟨x, waits, among⟩ | told
          · rcases (good.belongs x waits e among).2 d kind with same | ⟨unsettled, -⟩
            · exact absurd (same ▸ waits) settled
            · exact absurd unsettled settled
          · exact told
        · intro c among target
          have given := ((good.relays c among).2 d (target ▸ kind)).settled settled
          rw [given.1, given.2]
    · obtain ⟨which, given, has, -⟩ := good.done e d kind pending
      exact .inl (fired has)

/-! ## Sessions -/

instance decidableFollowsRule (w : World V) : (event : Event V) → Decidable (FollowsRule w event)
  | .drain =>
    match found : w.closures with
    | [] => isTrue (by rw [FollowsRule, found]; trivial)
    | c :: _ => decidable_of_iff (Patient w c) (by rw [FollowsRule, found])
  | .finish result =>
    match found : w.busy with
    | none => isTrue (by rw [FollowsRule, found]; trivial)
    | some (p, _) => decidable_of_iff (Faithful w p result) (by rw [FollowsRule, found])
  | .act _ => isTrue trivial

/-- Promise 1 has a handler for success, which raises 9; promise 2 is derived from it
before and promise 3 after. -/
def raisingSession : List (Event Nat) :=
  [.act .new, .act (.andThen 0 true false), .act (.andThen 1 false true),
    .act (.call 0 .resolved (.plain 1)), .drain, .drain, .finish (.raised (.plain 9)),
    .act (.andThen 1 true true)]

theorem raising_session_rejects :
    ∃ w, run step start raisingSession = some w ∧ (w.promises 1).ran = [.raised (.plain 9)] ∧
      ∃ got, (w.promises 1).got = some got ∧ outcomeOf w 0 = some got ∧
        RanFor (w.promises 1) got.1 ∧
        ∀ e, (w.promises e).kind = .derived 1 → Told w e (rule got (w.promises 1).ran) := by
  have runs : ((run step start raisingSession).map fun w =>
      ((w.promises 1).kind, (w.promises 1).state, (w.promises 1).ran)) =
        some (.derived 0, some .rejected, [.raised (.plain 9)]) := by
    decide +kernel
  obtain ⟨w, ran, fields⟩ := Option.map_eq_some_iff.mp runs
  rw [Prod.mk.injEq, Prod.mk.injEq] at fields
  obtain ⟨kind, state, raised⟩ := fields
  have reached : Reaches step FollowsRule start w := Reaches.run _ .start (by decide +kernel) ran
  have settled : (w.promises 1).state ≠ none := by
    rw [state]
    exact nofun
  exact ⟨w, ran, raised, andThen_follows_rule reached 0 1 kind settled⟩

/-- The same, but promise 1 has a failure handler as well. -/
def caughtSession : List (Event Nat) :=
  [.act .new, .act (.andThen 0 true true), .act (.andThen 1 true true),
    .act (.call 0 .resolved (.plain 1)), .drain, .drain, .finish (.raised (.plain 9)), .drain]

/-- The handler of promise 1 raised 9, and promise 2 takes its success path with it. -/
theorem raised_error_taken_for_success :
    ∃ w, run step start caughtSession = some w ∧ (w.promises 1).kind = .derived 0 ∧
      (w.promises 1).state ≠ none ∧
      ¬∃ got, (w.promises 1).got = some got ∧ outcomeOf w 0 = some got ∧
        RanFor (w.promises 1) got.1 ∧
        ∀ e, (w.promises e).kind = .derived 1 → Told w e (rule got (w.promises 1).ran) := by
  have runs : ((run step start caughtSession).map fun w =>
      ((w.promises 1).state, (w.promises 1).ran, (w.promises 2).got)) =
        some (some .rejected, [.raised (.plain 9)], some (.resolved, .plain 9)) := by
    decide +kernel
  have kinds : ((run step start caughtSession).map fun w =>
      ((w.promises 1).kind, (w.promises 2).kind)) = some (.derived 0, .derived 1) := by
    decide +kernel
  obtain ⟨w, ran, fields⟩ := Option.map_eq_some_iff.mp runs
  simp only [Prod.mk.injEq] at fields
  obtain ⟨state, raised, fired⟩ := fields
  rw [ran] at kinds
  obtain ⟨kind, derived⟩ := Prod.mk.inj (Option.some.inj kinds)
  refine ⟨w, ran, kind, by simp [state], ?_⟩
  rintro ⟨got, -, -, -, told⟩
  have second := told 2 derived
  simp [Told, raised, fired, rule] at second

end Chuck.PromiseAndThen
