import Chuck.PromiseFrames

/-!
# What holds in every world of promises

Numbers name promises that exist, only the program's own promises are settled by the
program, a parent is settled with the promise it is the parent of, and the handler that
runs belongs to a pending promise.
-/

namespace Chuck.PromiseSane

open PromiseModel PromiseFrames Function

variable {V : Type}
variable {x p self : Nat}

variable {w after : World V} {args : List Nat}

def Owns (w : World V) : Handler → Prop
  | .user => True
  | .synchronizer g _ _ =>
    g < w.groupCount ∧ (w.groups g).d < w.count ∧ (w.promises (w.groups g).d).kind = .combined
  | .racer d _ => d < w.count ∧ (w.promises d).kind = .combined

structure Sane (w : World V) : Prop where
  target : ∀ c ∈ w.closures, c.target < w.count
  called : ∀ c ∈ w.closures, c.called = true → (w.promises c.target).kind = .made
  carried : ∀ c ∈ w.closures, known w c.value = true
  queue : ∀ x, ∀ next ∈ (w.promises x).queue, next < w.count
  value : ∀ x, known w (w.promises x).value = true
  beyond : ∀ x, w.count ≤ x → w.promises x = newPromise .combined none none
  made : ∀ p, (w.promises p).kind = .made →
    (w.promises p).success = none ∧ (w.promises p).failure = none
  owns : ∀ p outcome handler, (w.promises p).handler outcome = some handler → Owns w handler
  parent : ∀ q x, (w.promises q).parent = some x →
    (w.promises x).state ≠ none ∧ (w.promises x).value = .promise q
  busy : ∀ p outcome, w.busy = some (p, outcome) →
    p < w.count ∧ (w.promises p).state = none ∧ (w.promises p).kind ≠ .made

theorem start_sane : Sane (start : World V) := by
  constructor
  · exact nofun
  · exact nofun
  · exact nofun
  · exact nofun
  · exact fun x => rfl
  · exact fun x _ => rfl
  · exact fun p _ => ⟨rfl, rfl⟩
  · intro p outcome handler has
    cases outcome <;> nomatch has
  · exact nofun
  · exact nofun

variable {w : World V}

theorem Sane.settled (sane : Sane w) (settled : (w.promises x).state ≠ none) : x < w.count := by
  by_contra outside
  rw [sane.beyond x (Nat.le_of_not_lt outside)] at settled
  exact settled rfl

theorem Sane.made_lt (sane : Sane w) (made : (w.promises x).kind = .made) : x < w.count := by
  by_contra outside
  rw [sane.beyond x (Nat.le_of_not_lt outside)] at made
  nomatch made

theorem Sane.promise_lt (sane : Sane w) {q : Nat} (is : (w.promises x).value = .promise q) :
    q < w.count := by
  have knows := sane.value x
  rw [is] at knows
  exact of_decide_eq_true knows

theorem Sane.behind_lt (sane : Sane w) (below : p < w.count) : behind w p < w.count := by
  rw [behind_eq]
  cases is : (w.promises p).value with
  | promise q => exact sane.promise_lt is
  | _ => exact below

theorem known_of_le (more : w.count ≤ after.count) {value : Val V}
    (knows : known w value = true) : known after value = true := by
  cases value with
  | promise p =>
    simp only [known, decide_eq_true_eq] at knows ⊢
    omega
  | _ => rfl

theorem Owns.congr {handler : Handler} (owns : Owns w handler)
    (groups : ∀ g, g < w.groupCount → (after.groups g).d = (w.groups g).d)
    (groupCount : w.groupCount ≤ after.groupCount) (count : w.count ≤ after.count)
    (kinds : ∀ p, p < w.count → (after.promises p).kind = (w.promises p).kind) :
    Owns after handler := by
  cases handler with
  | user => trivial
  | synchronizer g i how =>
    obtain ⟨exists_, below, kind⟩ := owns
    rw [Owns, groups g exists_, kinds _ below]
    exact ⟨by omega, by omega, kind⟩
  | racer d how =>
    obtain ⟨below, kind⟩ := owns
    rw [Owns, kinds _ below]
    exact ⟨by omega, kind⟩

/-! ## Small steps -/

theorem modify_sane (sane : Sane w) (below : p < w.count) {f : Promise V → Promise V}
    (notes : Notes w p f)
    (value : (w.promises p).state ≠ none → (f (w.promises p)).value = (w.promises p).value)
    (knows : known w (f (w.promises p)).value = true) : Sane (modify w p f) := by
  have states : ∀ x, ((modify w p f).promises x).state = (w.promises x).state :=
    fun x => modify_field w p x (·.state) f notes.state
  have kinds : ∀ x, ((modify w p f).promises x).kind = (w.promises x).kind :=
    fun x => modify_field w p x (·.kind) f notes.kind
  have handlers : ∀ x outcome,
      ((modify w p f).promises x).handler outcome = (w.promises x).handler outcome := by
    intro x outcome
    apply modify_field w p x (·.handler outcome) f
    cases outcome
    · exact notes.success
    · exact notes.failure
  constructor
  · exact sane.target
  · intro c among called
    rw [kinds]
    exact sane.called c among called
  · exact sane.carried
  · intro x
    rw [modify_field w p x (·.queue) f notes.queue]
    exact sane.queue x
  · intro x
    by_cases same : x = p
    · rw [same, modify_same]
      exact knows
    · rw [modify_other w p f same]
      exact sane.value x
  · intro x outside
    rw [modify_other w p f (by rintro rfl; exact absurd below (Nat.not_lt.mpr outside))]
    exact sane.beyond x outside
  · intro x
    rw [kinds, modify_field w p x (·.success) f notes.success,
      modify_field w p x (·.failure) f notes.failure]
    exact sane.made x
  · intro x outcome handler
    rw [handlers]
    intro has
    exact (sane.owns x outcome handler has).congr (fun _ _ => rfl) le_rfl le_rfl
      fun y _ => kinds y
  · intro q x
    rw [modify_field w p q (·.parent) f notes.parent, states]
    intro has
    obtain ⟨settled, is⟩ := sane.parent q x has
    refine ⟨settled, ?_⟩
    by_cases same : x = p
    · rw [same, modify_same, value (same ▸ settled), ← same]
      exact is
    · rw [modify_other w p f same]
      exact is
  · intro x outcome has
    rw [states, kinds]
    exact sane.busy x outcome has

theorem enqueue_sane (sane : Sane w) {next : Nat} (below : p < w.count) (exists_ : next < w.count) :
    Sane (enqueue w p next) := by
  rw [enqueue_eq]
  refine { sane with queue := ?_, beyond := ?_, owns := ?_ }
  · intro x other among
    change other ∈ (if x = p then _ else _) at among
    split at among
    · rcases List.mem_append.mp among with old | new
      · exact sane.queue p other old
      · rw [List.mem_singleton.mp new]
        exact exists_
    · exact sane.queue x other among
  · intro x outside
    dsimp only
    rw [if_neg fun same : x = p => absurd below (Nat.not_lt.mpr (same ▸ outside))]
    exact sane.beyond x outside
  · intro x outcome handler has
    have owned : (w.promises x).handler outcome = some handler := by
      cases outcome <;> exact has
    exact (sane.owns x outcome handler owned).congr (fun _ _ => rfl) le_rfl le_rfl fun _ _ => rfl

theorem post_sane (sane : Sane w) {added : List (Closure V)}
    (target : ∀ c ∈ added, c.target < w.count)
    (called : ∀ c ∈ added, c.called = true → (w.promises c.target).kind = .made)
    (carried : ∀ c ∈ added, known w c.value = true) (calls : Nat → List (Outcome × Val V)) :
    Sane { w with closures := w.closures ++ added, calls := calls } :=
  { sane with
    target := fun c among => (List.mem_append.mp among).elim (sane.target c) (target c)
    called := fun c among => (List.mem_append.mp among).elim (sane.called c) (called c)
    carried := fun c among => (List.mem_append.mp among).elim (sane.carried c) (carried c) }

theorem tell_sane (sane : Sane w) {target : Nat} (outcome : Outcome) (value : Val V)
    (exists_ : target < w.count) (knows : known w value = true) :
    Sane (tell w target outcome value) := by
  apply post_sane sane
  · intro c among
    rw [List.mem_singleton.mp among]
    exact exists_
  · intro c among called
    rw [List.mem_singleton.mp among] at called
    nomatch called
  · intro c among
    rw [List.mem_singleton.mp among]
    exact knows

theorem drop_sane {c : Closure V} {rest : List (Closure V)} (sane : Sane w)
    (queued : w.closures = c :: rest) : Sane { w with closures := rest } := by
  have old {d : Closure V} (among : d ∈ rest) : d ∈ w.closures :=
    queued ▸ List.mem_cons_of_mem _ among
  exact
    { sane with
      target := fun d among => sane.target d (old among)
      called := fun d among => sane.called d (old among)
      carried := fun d among => sane.carried d (old among) }

theorem groups_sane (sane : Sane w) (groups : Nat → AllGroup V) (groupCount : Nat)
    (same : ∀ g, g < w.groupCount → (groups g).d = (w.groups g).d)
    (more : w.groupCount ≤ groupCount) :
    Sane { w with groups := groups, groupCount := groupCount } :=
  { sane with
    owns := fun p outcome handler has =>
      (sane.owns p outcome handler has).congr same more le_rfl fun _ _ => rfl }

theorem busy_sane (sane : Sane w) (busy : Option (Nat × Outcome))
    (proper : ∀ p outcome, busy = some (p, outcome) →
      p < w.count ∧ (w.promises p).state = none ∧ (w.promises p).kind ≠ .made) :
    Sane { w with busy := busy } :=
  { sane with busy := proper }

/-! ## New promises -/

theorem create_field {α : Type} (w : World V) (promise : Promise V) (field : Promise V → α)
    (old : x ≠ w.count) : field ((create w promise).promises x) = field (w.promises x) :=
  congrArg field (update_of_ne old ..)

theorem create_owns (promise : Promise V) {handler : Handler} (owns : Owns w handler) :
    Owns (create w promise) handler :=
  owns.congr (fun _ _ => rfl) le_rfl (Nat.le_succ _) fun _ below =>
    congrArg _ (create_old w promise below)

theorem create_sane (sane : Sane w) (kind : Kind) (success failure : Option Handler)
    (none_made : kind = .made → success = none ∧ failure = none)
    (owns : ∀ handler, success = some handler ∨ failure = some handler → Owns w handler) :
    Sane (create w (newPromise kind success failure)) := by
  have old (x : Nat) (below : x < w.count) :=
    create_old w (newPromise kind success failure) below
  have more : w.count ≤ (create w (newPromise kind success failure)).count := Nat.le_succ _
  have kept {handler : Handler} := @create_owns V w (newPromise kind success failure) handler
  have new := create_new w (newPromise kind success failure : Promise V)
  -- all but the kinds and the handlers is as before
  rw [create_eq w (sane.beyond w.count le_rfl)] at old more new kept ⊢
  refine ⟨fun c among => Nat.lt_succ_of_lt (sane.target c among), ?_,
    fun c among => known_of_le more (sane.carried c among),
    fun x next among => Nat.lt_succ_of_lt (sane.queue x next among),
    fun x => known_of_le more (sane.value x), ?_, ?_, ?_, sane.parent, ?_⟩
  · intro c among
    rw [old _ (sane.target c among)]
    exact sane.called c among
  · intro x outside
    have other : x ≠ w.count := Nat.ne_of_gt outside
    dsimp only
    rw [if_neg other, if_neg other, if_neg other]
    exact sane.beyond x (Nat.le_of_succ_le outside)
  · intro x
    by_cases here : x = w.count
    · rw [here, new]
      exact none_made
    · simpa only [if_neg here] using sane.made x
  · intro x outcome handler has
    apply kept
    by_cases here : x = w.count
    · rw [here, new] at has
      apply owns handler
      cases outcome
      · exact .inl has
      · exact .inr has
    · apply sane.owns x outcome handler
      cases outcome <;> exact (if_neg here).symm.trans has
  · intro p outcome has
    obtain ⟨below, pending⟩ := sane.busy p outcome has
    rw [old p below]
    exact ⟨Nat.lt_succ_of_lt below, pending⟩

theorem andThen_sane (sane : Sane w) (below : self < w.count) (success failure : Option Handler)
    (owns : ∀ handler, success = some handler ∨ failure = some handler → Owns w handler) :
    Sane (andThen w self success failure) := by
  rw [andThen]
  split_ifs
  · exact sane
  · have created := create_sane sane (.derived self) success failure nofun
      owns
    dsimp only
    split
    · exact enqueue_sane created (created.behind_lt (Nat.lt_succ_of_lt below)) (Nat.lt_succ_self _)
    · exact tell_sane created _ _ (Nat.lt_succ_self _) (created.value _)

theorem andThen_count (w : World V) (self : Nat) (success failure : Option Handler) :
    w.count ≤ (andThen w self success failure).count := by
  rw [andThen]
  split_ifs
  · exact le_rfl
  · dsimp only
    split <;> exact Nat.le_succ _

theorem andThen_groups (w : World V) (self : Nat) (success failure : Option Handler) :
    (andThen w self success failure).groups = w.groups ∧
      (andThen w self success failure).groupCount = w.groupCount := by
  rw [andThen]
  split_ifs
  · exact ⟨rfl, rfl⟩
  · dsimp only
    split <;> exact ⟨rfl, rfl⟩

theorem andThen_owns (self : Nat) (success failure : Option Handler) {handler : Handler}
    (owns : Owns w handler) : Owns (andThen w self success failure) handler := by
  rw [andThen]
  split_ifs
  · exact owns
  · have created := create_owns (newPromise (.derived self) success failure) owns
    dsimp only
    split
    · rw [enqueue_eq]
      exact created
    · exact created

theorem andThen_new (w : World V) (success failure : Option Handler)
    (open_ : (w.promises self).isFinal = false) :
    (andThen w self success failure).count = w.count + 1 := by
  rw [andThen, if_neg (by rw [open_]; exact Bool.false_ne_true)]
  dsimp only
  split <;> rfl

theorem final_sane (sane : Sane w) (below : self < w.count) {handler : Option Handler}
    (owns : ∀ h, handler = some h → Owns w h) : Sane (final w self handler) := by
  rw [final]
  split_ifs with ends
  · exact sane
  · have derived := andThen_sane sane below handler handler fun h has => owns h (has.elim id id)
    have new := andThen_new w handler handler (Bool.eq_false_iff.mpr ends)
    exact modify_sane derived (by rw [new]; exact Nat.lt_succ_self _)
      ⟨rfl, rfl, rfl, rfl, rfl, rfl⟩ (fun _ => rfl) (derived.value _)

/-- The world in the loop of `M.all` or `M.race`, whose handlers are `handlers`. -/
structure Attaching (handlers : Handler → Prop) (args : List Nat) (w : World V) : Prop where
  sane : Sane w
  owns : ∀ handler, handlers handler → Owns w handler
  below : ∀ arg ∈ args, arg < w.count

def Synchronizes (g : Nat) (handler : Handler) : Prop :=
  ∃ i how, handler = .synchronizer g i how

def Races (d : Nat) (handler : Handler) : Prop :=
  ∃ how, handler = .racer d how

theorem Attaching.andThen {handlers : Handler → Prop}
    (attaching : Attaching handlers args w) {arg : Nat} (among : arg ∈ args)
    {success failure : Handler} (first : handlers success) (second : handlers failure) :
    Attaching handlers args (andThen w arg (some success) (some failure)) where
  sane := by
    apply andThen_sane attaching.sane (attaching.below arg among)
    intro handler has
    rcases has with has | has
    · exact attaching.owns _ (Option.some.inj has ▸ first)
    · exact attaching.owns _ (Option.some.inj has ▸ second)
  owns handler is := andThen_owns arg _ _ (attaching.owns handler is)
  below other among := lt_of_lt_of_le (attaching.below other among) (andThen_count w arg _ _)

theorem noted_d (w : World V) (g : Nat) (group : AllGroup V) (same : group.d = (w.groups g).d)
    (k : Nat) : (update w.groups g group k).d = (w.groups k).d := by
  by_cases here : k = g
  · rw [here, update_self, same]
  · rw [update_of_ne here]

theorem Attaching.note {handlers : Handler → Prop}
    (attaching : Attaching handlers args w) (g : Nat) (parts : List Nat) :
    Attaching handlers args
      { w with groups := update w.groups g { w.groups g with parts := parts } } := by
  have same := noted_d w g { w.groups g with parts := parts } rfl
  exact
    { sane := groups_sane attaching.sane _ w.groupCount (fun k _ => same k) le_rfl
      owns := fun handler is =>
        (attaching.owns handler is).congr (fun k _ => same k) le_rfl le_rfl fun _ _ => rfl
      below := attaching.below }

theorem attachAll_keeps (keeps : World V → Prop) (g : Nat)
    (notes : ∀ w : World V, keeps w → keeps { w with
      groups := update w.groups g
        { w.groups g with parts := (w.groups g).parts ++ [w.count] } })
    (attaches : ∀ (w : World V) (i : Nat), ∀ arg ∈ args, keeps w →
      keeps (andThen w arg (some (.synchronizer g i .resolved))
        (some (.synchronizer g i .rejected))))
    (i : Nat) (holds : keeps w) : keeps (attachAll g w i args) := by
  induction args generalizing w i with
  | nil => exact holds
  | cons arg args ih =>
    rw [attachAll]
    split_ifs
    · exact holds
    · apply ih fun w i other among => attaches w i other (List.mem_cons_of_mem _ among)
      exact attaches _ i arg List.mem_cons_self (notes w holds)

theorem attachRace_keeps (keeps : World V → Prop) (d : Nat)
    (attaches : ∀ w : World V, ∀ arg ∈ args, keeps w →
      keeps (andThen w arg (some (.racer d .resolved)) (some (.racer d .rejected))))
    (holds : keeps w) : keeps (attachRace d w args) := by
  induction args generalizing w with
  | nil => exact holds
  | cons arg args ih =>
    rw [attachRace]
    split_ifs
    · exact holds
    · apply ih fun w other among => attaches w other (List.mem_cons_of_mem _ among)
      exact attaches w arg List.mem_cons_self holds

section

variable (sane : Sane w) {args : List Nat} (below : ∀ arg ∈ args, arg < w.count)

include sane below

theorem all_attaching :
    Attaching (Synchronizes w.groupCount) args
      { create w (newPromise .combined none none) with
        groupCount := w.groupCount + 1
        groups := update w.groups w.groupCount
          { d := w.count, pending := args.length, results := fun _ => none, size := args.length,
            parts := [] } } := by
  have created := create_sane sane .combined none none
    nofun fun handler has => absurd has (by simp)
  have grouped := groups_sane created (update w.groups w.groupCount
      { d := w.count, pending := args.length, results := fun _ => none, size := args.length,
        parts := [] }) (w.groupCount + 1)
    (fun g below => congrArg AllGroup.d (update_of_ne (ne_of_lt below) ..)) (Nat.le_succ _)
  refine ⟨grouped, ?_, fun arg among => Nat.lt_succ_of_lt (below arg among)⟩
  intro handler is
  obtain ⟨i, how, rfl⟩ := is
  refine ⟨Nat.lt_succ_self _, ?_, ?_⟩
  · simp only [update_self]
    exact Nat.lt_succ_self _
  · simp only [update_self]
    rw [create_new]
    rfl

theorem race_attaching :
    Attaching (Races w.count) args (create w (newPromise .combined none none)) := by
  refine ⟨create_sane sane .combined none none nofun
    fun handler has => absurd has (by simp), ?_, fun arg among =>
      Nat.lt_succ_of_lt (below arg among)⟩
  intro handler is
  obtain ⟨how, rfl⟩ := is
  refine ⟨Nat.lt_succ_self _, ?_⟩
  rw [create_new]
  rfl

theorem all_sane : Sane (all w args) := by
  have attaching := all_attaching sane below
  rw [all]
  split_ifs
  · exact tell_sane attaching.sane _ _ (Nat.lt_succ_self _) rfl
  · exact (attachAll_keeps (Attaching (Synchronizes w.groupCount) args) w.groupCount
      (fun _ holds => holds.note _ _)
      (fun _ i _ among holds => holds.andThen among ⟨i, _, rfl⟩ ⟨i, _, rfl⟩) 0 attaching).sane

theorem race_sane : Sane (race w args) :=
  (attachRace_keeps (Attaching (Races w.count) args) w.count
    (fun _ _ among holds => holds.andThen among ⟨_, rfl⟩ ⟨_, rfl⟩) (race_attaching sane below)).sane

end

theorem user_owns (given : Bool) (handler : Handler) (has : userHandler given = some handler) :
    Owns w handler := by
  cases given with
  | false => nomatch has
  | true => exact Option.some.inj has ▸ trivial

theorem perform_sane (sane : Sane w) {act : Act V} (can : possible w act = true) :
    Sane (perform w act) := by
  cases act with
  | new =>
    exact create_sane sane .made none none (fun _ => ⟨rfl, rfl⟩) fun handler has =>
      absurd has (by simp)
  | call p outcome value =>
    simp only [possible, Bool.and_eq_true, decide_eq_true_eq] at can
    obtain ⟨⟨below, made⟩, knows⟩ := can
    apply post_sane sane
    · intro c among
      rw [List.mem_singleton.mp among]
      exact below
    · intro c among _
      rw [List.mem_singleton.mp among]
      exact made
    · intro c among
      rw [List.mem_singleton.mp among]
      exact knows
  | andThen p success failure =>
    exact andThen_sane sane (of_decide_eq_true can) _ _ fun handler has =>
      has.elim (user_owns success handler) (user_owns failure handler)
  | final p handler => exact final_sane sane (of_decide_eq_true can) (user_owns handler)
  | all args => exact all_sane sane (args_below w can)
  | race args => exact race_sane sane (args_below w can)

/-! ## `fire` -/

theorem Sane.parent_ne (sane : Sane w) (pending : (w.promises p).state = none) :
    (w.promises p).parent ≠ some p := by
  intro own
  exact (sane.parent p p own).1 pending

theorem settle_sane (sane : Sane w) (state : Outcome) (value : Val V) (below : p < w.count)
    (pending : (w.promises p).state = none) (knows : known w value = true)
    (idle : ∀ outcome, w.busy ≠ some (p, outcome)) : Sane (settle w p state value) := by
  rw [settle_eq]
  have apart {x : Nat} (settled : (w.promises x).state ≠ none) : x ≠ p :=
    fun same => settled (same ▸ pending)
  have values (x : Nat) : known w (settledPromise w p state value x).value = true := by
    change known w (if x = p then value else _) = true
    split_ifs
    · exact knows
    · exact sane.value x
  have either {c : Closure V} (among : c ∈ w.closures ++ toldAll w p state value) :=
    (List.mem_append.mp among).imp_right mem_toldAll
  have queues (x next : Nat) (among : next ∈ settledQueue w p x value) : next < w.count := by
    obtain ⟨y, there⟩ := settledQueue_from among
    exact sane.queue y next there
  constructor
  · intro c among
    rcases either among with old | ⟨-, -, waited, -⟩
    · exact sane.target c old
    · exact queues p c.target waited
  · intro c among called
    rcases either among with old | ⟨-, uncalled, -⟩
    · exact sane.called c old called
    · exact absurd called (by rw [uncalled]; nofun)
  · intro c among
    rcases either among with old | ⟨-, -, -, -, is⟩
    · exact sane.carried c old
    · exact is ▸ values _
  · exact queues
  · exact values
  · intro x outside
    have other : x ≠ p := fun same => absurd (same ▸ below) (Nat.not_lt.mpr outside)
    have unborn : heir w p value ≠ some x := by
      intro has
      rw [(heir_eq_some.mp has).1] at knows
      exact absurd (of_decide_eq_true knows) (Nat.not_lt.mpr outside)
    have foreign : (w.promises p).parent ≠ some x := by
      intro own
      exact absurd (sane.settled (sane.parent p x own).1) (Nat.not_lt.mpr outside)
    rw [← sane.beyond x outside]
    exact settledPromise_other other unborn foreign
  · exact sane.made
  · intro x outcome handler has
    rw [settledPromise_handler] at has
    exact (sane.owns x outcome handler has).congr (fun _ _ => rfl) le_rfl le_rfl fun _ _ => rfl
  · intro q x has
    change (if heir w p value = some q then some p else _) = some x at has
    change (if x = p then _ else _) ≠ none ∧ (if x = p then value else _) = _
    split_ifs at has with born
    · rw [if_pos (Option.some.inj has).symm, if_pos (Option.some.inj has).symm]
      exact ⟨nofun, (heir_eq_some.mp born).1⟩
    · obtain ⟨settled, own⟩ := sane.parent q x has
      rw [if_neg (apart settled), if_neg (apart settled)]
      exact ⟨settled, own⟩
  · intro x outcome has
    obtain ⟨exists_, waits, unmade⟩ := sane.busy x outcome has
    have other : x ≠ p := fun same => idle outcome (same ▸ has)
    exact ⟨exists_, (if_neg other).trans waits, unmade⟩

theorem note_sane (sane : Sane w) (below : p < w.count) (pending : (w.promises p).state = none)
    {value : Val V} (knows : known w value = true) (got : Option (Outcome × Val V)) :
    Sane (modify w p fun promise => { promise with value := value, got := got }) :=
  modify_sane sane below ⟨rfl, rfl, rfl, rfl, rfl, rfl⟩
    (fun settled => absurd pending settled) knows

theorem ran_sane (sane : Sane w) (below : p < w.count) (result : Result V) :
    Sane (noteRan w p result) :=
  modify_sane sane below ⟨rfl, rfl, rfl, rfl, rfl, rfl⟩ (fun _ => rfl) (sane.value p)

theorem synchronize_sane (sane : Sane w) {g i : Nat} {how : Outcome} (value : Val V)
    (owns : Owns w (.synchronizer g i how)) : Sane (synchronize w g i how value) := by
  have grouped (group : AllGroup V) (keeps : group.d = (w.groups g).d) :=
    groups_sane sane (update w.groups g group) w.groupCount
      (fun k _ => noted_d w g group keeps k) le_rfl
  rw [synchronize]
  split_ifs
  · refine tell_sane (grouped _ ?_) _ _ owns.2.1 rfl
    rfl
  · apply grouped
    rfl

theorem synchronize_promises (w : World V) (g i : Nat) (how : Outcome) (value : Val V) :
    (synchronize w g i how value).promises = w.promises := by
  rw [synchronize]
  split_ifs <;> rfl

theorem synchronize_count (w : World V) (g i : Nat) (how : Outcome) (value : Val V) :
    (synchronize w g i how value).count = w.count := by
  rw [synchronize]
  split_ifs <;> rfl

theorem synchronize_busy (w : World V) (g i : Nat) (how : Outcome) (value : Val V) :
    (synchronize w g i how value).busy = w.busy := by
  rw [synchronize]
  split_ifs <;> rfl

theorem handle_sane (sane : Sane w) (outcome : Outcome) (value : Val V) (below : p < w.count)
    (pending : (w.promises p).state = none) (knows : known w value = true) (idle : w.busy = none) :
    Sane (handle w p outcome value ((w.promises p).handler outcome)) := by
  have ran_pending (after : World V) (result : Result V) (same : after.promises = w.promises) :
      ((noteRan after p result).promises p).state = none := by
    rw [noteRan, modify_same, same]
    exact pending
  cases has : (w.promises p).handler outcome with
  | none =>
    exact settle_sane sane outcome value below pending knows fun _ => idle ▸ by rintro ⟨⟩
  | some handler =>
    have owns := sane.owns p outcome handler has
    cases handler with
    | user =>
      apply busy_sane sane
      intro q how is
      obtain ⟨rfl, -⟩ := Prod.mk.inj (Option.some.inj is)
      refine ⟨below, pending, ?_⟩
      intro made
      obtain ⟨success, failure⟩ := sane.made p made
      cases outcome
      · cases success.symm.trans has
      · cases failure.symm.trans has
    | synchronizer g i how =>
      have count := synchronize_count w g i how value
      have noted := ran_sane (synchronize_sane sane value owns) (count ▸ below)
        (.returned value)
      apply settle_sane noted outcome value (count ▸ below)
        (ran_pending _ _ (synchronize_promises w g i how value))
        (known_of_le count.ge knows)
      intro _ busy
      have idle' : (synchronize w g i how value).busy = none :=
        (synchronize_busy w g i how value).trans idle
      cases idle'.symm.trans busy
    | racer d how =>
      have noted := ran_sane (tell_sane sane how value owns.1 knows) below (.returned .nil)
      apply settle_sane noted outcome .nil below (ran_pending _ _ rfl) rfl
      exact fun _ busy => absurd (idle.symm.trans busy) (by rintro ⟨⟩)

theorem fire_sane (sane : Sane w) {c : Closure V} (below : c.target < w.count)
    (knows : known w c.value = true) (idle : w.busy = none) : Sane (fire w c) := by
  have free : ∀ outcome, w.busy ≠ some (c.target, outcome) := fun _ => idle ▸ nofun
  by_cases pending : (w.promises c.target).state = none
  · cases is : c.value with
    | promise q =>
      by_cases self : q = c.target
      · rw [fire_self w pending (self ▸ is)]
        exact settle_sane sane _ _ below pending rfl free
      cases waits : (w.promises q).state with
      | none =>
        rw [fire_pending w pending is self waits]
        rw [is] at knows
        have noted := note_sane sane below pending knows (w.promises c.target).got
        exact enqueue_sane noted (of_decide_eq_true knows) below
      | some state =>
        rw [fire_adopts w pending is self waits]
        exact settle_sane sane _ _ below pending (sane.value q) free
    | _ =>
      rw [fire_plain w pending (by rw [is]; rfl)]
      have noted := note_sane sane below pending knows (some (c.outcome, c.value))
      have handled := handle_sane noted c.outcome c.value below
        (by rw [modify_same]; exact pending) knows idle
      rwa [modify_same] at handled
  · rw [fire_settled w c pending]
    exact sane

theorem finish_sane (sane : Sane w) {outcome : Outcome} {result : Result V}
    (busy : w.busy = some (p, outcome)) (knows : known w result.value = true) :
    Sane (finish w p outcome result) := by
  obtain ⟨below, pending, -⟩ := sane.busy p outcome busy
  have idle := busy_sane sane none (by simp)
  have noted := ran_sane idle below result
  have still : ((noteRan { w with busy := none } p result).promises p).state = none := by
    rw [noteRan, modify_same]
    exact pending
  cases result with
  | returned value => exact settle_sane noted _ _ below still knows fun _ => by rintro ⟨⟩
  | raised err => exact settle_sane noted _ _ below still knows fun _ => by rintro ⟨⟩

theorem step_sane (sane : Sane w) {event : Event V}
    (stepped : step w event = some after) : Sane after := by
  cases event with
  | act act =>
    obtain ⟨can, rfl⟩ := step_act w stepped
    exact perform_sane sane can
  | drain =>
    obtain ⟨c, rest, idle, queued, rfl⟩ := step_drain w stepped
    have among : c ∈ w.closures := queued ▸ List.mem_cons_self
    exact fire_sane (drop_sane sane queued) (sane.target c among) (sane.carried c among) idle
  | finish result =>
    obtain ⟨p, outcome, busy, knows, rfl⟩ := step_finish w stepped
    exact finish_sane sane busy knows

end Chuck.PromiseSane
