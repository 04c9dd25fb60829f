import Chuck.PromiseSane
import Chuck.Support.SourceOrder

/-!
# What a promise hands on to those derived from it

Worlds where handlers return plain values. There a settled promise has a plain value
and no promise is a parent, and a promise of the program that waits for another one is
told what that one hands on. The invariant says of every derived promise where it is:
in the queue of its source, or of the promise its source waits for, or told what its
source hands on, behind the source itself.
-/

namespace Chuck.PromisePropagation

open PromiseModel PromiseFrames PromiseSane Support.SourceOrder

variable {V : Type}
variable {e d p : Nat} {cur : Option Nat}

/-! ## The promise rule -/

/-- The promise rule: what follows from an outcome and the handlers that ran for it. -/
def rule (got : Outcome × Val V) : List (Result V) → Outcome × Val V
  | [] => got
  | .returned value :: _ => (.resolved, value)
  | .raised err :: _ => (.rejected, err)

/-! ## Where outcomes come from -/

def At (w : World V) (d x : Nat) : Prop :=
  x = d ∨ ((w.promises d).state = none ∧ (w.promises d).value = .promise x)

def Hands (w : World V) (z : Nat) (outcome : Outcome) (value : Val V) : Prop :=
  (w.promises z).state ≠ none ∧ outcome = (w.promises z).handsOn ∧ value = (w.promises z).value

def Gives (w : World V) (d : Nat) (outcome : Outcome) (value : Val V) : Prop :=
  ∃ z, At w d z ∧ Hands w z outcome value

def source (w : World V) (e : Nat) : Option Nat :=
  match (w.promises e).kind with
  | .derived d => some d
  | _ => none

def toldTargets (w : World V) : List Nat :=
  (w.closures.filter fun c => !c.called).map (·.target)

theorem source_derived {w : World V} : source w e = some d ↔ (w.promises e).kind = .derived d := by
  rw [source]
  cases (w.promises e).kind <;> simp

theorem mem_toldTargets {w : World V} :
    e ∈ toldTargets w ↔ ∃ c ∈ w.closures, c.called = false ∧ c.target = e := by
  simp [toldTargets, and_assoc]

def Fired (w : World V) (e d : Nat) (outcome : Outcome) (value : Val V) : Prop :=
  (w.promises e).got = some (outcome, value) ∧ Hands w d outcome value

/-- What a promise has and hands on follows from what it was fired with, by the promise
rule. -/
def Ruled (promise : Promise V) (outcome : Outcome) (value : Val V) : Prop :=
  RanFor promise outcome ∧
    (promise.handsOn, promise.value) = rule (outcome, value) promise.ran

def Running (w : World V) (p : Nat) (outcome : Outcome) : Prop :=
  (w.promises p).ran = [] ∧ (w.promises p).handler outcome = some .user

/-- A closure for a promise that waits or is derived carries what the other one hands on. -/
def Relays (w : World V) (c : Closure V) : Prop :=
  (c.called = false → c.value.isPromise = false ∧
    ((w.promises c.target).kind = .made → (w.promises c.target).state = none →
      ∃ z, (w.promises c.target).value = .promise z ∧ Hands w z c.outcome c.value)) ∧
  ∀ d, (w.promises c.target).kind = .derived d → Gives w d c.outcome c.value

/-- The promises in the queue of a pending one wait for it, or are derived from it or from
one that waits for it. -/
def Belongs (w : World V) (x p : Nat) : Prop :=
  ((w.promises p).kind = .made → (w.promises p).state = none ∧ (w.promises p).value = .promise x) ∧
    ∀ d, (w.promises p).kind = .derived d → At w d x

def Awaits (w : World V) (p z : Nat) : Prop :=
  ((w.promises z).state = none ∧ p ∈ (w.promises z).queue) ∨
    ((w.promises z).state ≠ none ∧ p ∈ toldTargets w)

def Unfired (w : World V) (e : Nat) : Prop :=
  (w.promises e).got = none ∧ (w.promises e).ran = [] ∧
    ((∃ x, (w.promises x).state = none ∧ e ∈ (w.promises x).queue) ∨ e ∈ toldTargets w)

/-- The invariant; `cur` is a promise for which a closure has just been taken, or that
has just been created. -/
structure Good (cur : Option Nat) (w : World V) : Prop where
  settledPlain : ∀ x, (w.promises x).state ≠ none → (w.promises x).value.isPromise = false
  orphan : ∀ x, (w.promises x).parent = none
  bare : ∀ x, (w.promises x).kind = .combined →
    (w.promises x).success = none ∧ (w.promises x).failure = none
  exists_ : ∀ e d, (w.promises e).kind = .derived d → d < w.count
  waiter : ∀ p z, (w.promises p).state = none → (w.promises p).value = .promise z →
    (w.promises p).kind = .made
  waits : ∀ p z, cur ≠ some p → (w.promises p).state = none → (w.promises p).value = .promise z →
    Awaits w p z
  relays : ∀ c ∈ w.closures, Relays w c
  belongs : ∀ x, (w.promises x).state = none → ∀ p ∈ (w.promises x).queue, Belongs w x p
  fresh : ∀ e d, cur ≠ some e → (w.promises e).kind = .derived d → (w.promises e).state = none →
    (∀ outcome, w.busy ≠ some (e, outcome)) → Unfired w e
  running : ∀ p outcome, w.busy = some (p, outcome) → Running w p outcome ∧
    ∃ d value, (w.promises p).kind = .derived d ∧ Fired w p d outcome value
  done : ∀ e d, (w.promises e).kind = .derived d → (w.promises e).state ≠ none →
    ∃ outcome value, Fired w e d outcome value ∧ Ruled (w.promises e) outcome value
  told : Ordered (source w) (fun d => (w.promises d).state ≠ none ∨ cur = some d) (toldTargets w)
  queued : ∀ x, (w.promises x).state = none → Ordered (source w) (· = x) (w.promises x).queue

theorem start_good : Good none (start : World V) := by
  have kinds : ∀ x d, ((start : World V).promises x).kind ≠ .derived d := nofun
  constructor
  · exact fun x settled => absurd rfl settled
  · exact fun x => rfl
  · exact fun x _ => ⟨rfl, rfl⟩
  · exact fun e d is => absurd is (kinds e d)
  · exact nofun
  · exact nofun
  · exact nofun
  · exact nofun
  · exact fun e d _ is => absurd is (kinds e d)
  · exact nofun
  · exact fun e d is => absurd is (kinds e d)
  · exact trivial
  · exact fun x _ => trivial

variable {w : World V}

theorem Gives.settled {outcome : Outcome} {value : Val V} (gives : Gives w d outcome value)
    (settled : (w.promises d).state ≠ none) :
    outcome = (w.promises d).handsOn ∧ value = (w.promises d).value := by
  obtain ⟨z, at_, -, how, what⟩ := gives
  rcases at_ with rfl | ⟨pending, -⟩
  · exact ⟨how, what⟩
  · exact absurd pending settled

theorem Good.gives_made (good : Good cur w) {outcome : Outcome} {value : Val V}
    (gives : Gives w d outcome value) (pending : (w.promises d).state = none) :
    (w.promises d).kind = .made := by
  obtain ⟨z, at_, settled, -⟩ := gives
  rcases at_ with rfl | ⟨-, is⟩
  · exact absurd pending settled
  · exact good.waiter d z pending is

theorem Good.beside (good : Good cur w) (groups : Nat → AllGroup V) (groupCount : Nat)
    (calls : Nat → List (Outcome × Val V)) (marks : Nat → Bool) :
    Good cur { w with
      promises := fun x => { w.promises x with isFinal := marks x }
      groups := groups, groupCount := groupCount, calls := calls } :=
  { good with }

/-! ## New promises -/

theorem create_good (sane : Sane w) (good : Good none w) (kind : Kind)
    (success failure : Option Handler) (bare : kind = .combined → success = none ∧ failure = none)
    (exists_ : ∀ d, kind = .derived d → d < w.count) :
    Good (some w.count) (create w (newPromise kind success failure)) := by
  have sources {l : List Nat} (below : ∀ e ∈ l, e < w.count) : ∀ e ∈ l,
      source (create w (newPromise kind success failure)) e = source w e := by
    intro e among
    rw [source, source, create_old w _ (below e among)]
  have hands {z : Nat} {outcome : Outcome} {value : Val V} (has : Hands w z outcome value) :
      Hands (create w (newPromise kind success failure)) z outcome value := by
    rw [Hands, create_old w _ (sane.settled has.1)]
    exact has
  -- all but the kinds and the handlers is as before
  have same {x : Nat} (below : x < w.count) := create_old w (newPromise kind success failure) below
  rw [create_eq w (sane.beyond w.count le_rfl)] at sources hands same ⊢
  constructor
  · exact good.settledPlain
  · exact good.orphan
  · intro x
    by_cases new : x = w.count
    · simpa only [if_pos new] using bare
    · simpa only [if_neg new] using good.bare x
  · intro e d kinds
    apply Nat.lt_succ_of_lt
    by_cases new : e = w.count
    · exact exists_ d ((if_pos new).symm.trans kinds)
    · exact good.exists_ e d ((if_neg new).symm.trans kinds)
  · intro p z pending promise
    have made := good.waiter p z pending promise
    exact (if_neg (sane.made_lt made).ne).trans made
  · exact fun p z _ => good.waits p z nofun
  · intro c among
    rw [Relays, same (sane.target c among)]
    exact (good.relays c among).imp
      (fun told uncalled => (told uncalled).imp_right fun told made pending =>
        (told made pending).imp fun z has => has.imp_right hands)
      fun gives d kinds => (gives d kinds).imp fun z has => has.imp_right hands
  · intro x pending p among
    rw [Belongs, same (sane.queue x p among)]
    exact good.belongs x pending p among
  · intro e d other kinds pending idle
    refine good.fresh e d nofun ((if_neg fun new => ?_).symm.trans kinds) pending idle
    exact other (congrArg some new.symm)
  · intro p outcome busy
    obtain ⟨running, d, value, kinds, got, has⟩ := good.running p outcome busy
    rw [Running, same (sane.busy p outcome busy).1]
    exact ⟨running, d, value, kinds, got, hands has⟩
  · intro e d kinds settled
    rw [same (sane.settled settled)] at kinds ⊢
    obtain ⟨outcome, value, ⟨got, has⟩, ruled⟩ := good.done e d kinds settled
    exact ⟨outcome, value, ⟨got, hands has⟩, ruled⟩
  · refine (good.told.congr (sources ?_)).mono fun e _ d _ has => .inl (has.resolve_right nofun)
    intro e among
    obtain ⟨c, there, -, same⟩ := mem_toldTargets.mp among
    exact same ▸ sane.target c there
  · exact fun x pending => (good.queued x pending).congr (sources (sane.queue x))

/-- The promise in no place is told, queued or settled again. -/
theorem Good.place {next : Nat} (good : Good (some next) w)
    (plain : (w.promises next).state = none → (w.promises next).value.isPromise = false)
    (unsourced : (w.promises next).state = none → ∀ e ∈ toldTargets w, source w e ≠ some next)
    (placed : ∀ d, (w.promises next).kind = .derived d → (w.promises next).state = none →
      (∀ outcome, w.busy ≠ some (next, outcome)) → Unfired w next) : Good none w := by
  refine { good with waits := ?_, fresh := ?_, told := ?_ }
  · intro p z _ pending promise
    refine good.waits p z (fun same => ?_) pending promise
    rw [← Option.some.inj same] at pending promise
    have not := plain pending
    rw [promise] at not
    nomatch not
  · intro e d _ kind pending idle
    by_cases same : e = next
    · rw [same] at kind pending idle ⊢
      exact placed d kind pending idle
    · exact good.fresh e d (fun eq => same (Option.some.inj eq).symm) kind pending idle
  · apply good.told.mono
    intro e among d is has
    refine .inl (has.elim id fun same pending => ?_)
    rw [← Option.some.inj same] at pending is
    exact unsourced pending e among is

theorem new_good (sane : Sane w) (good : Good none w) (kind : Kind)
    (other : ∀ d, kind ≠ .derived d) : Good none (create w (newPromise kind none none)) := by
  have created := create_good sane good kind none none (fun _ => ⟨rfl, rfl⟩)
    fun d is => absurd is (other d)
  have new := create_new w (newPromise kind none none : Promise V)
  apply created.place
  · exact fun _ => congrArg (·.value.isPromise) new
  · intro _ e among is
    have below := good.exists_ e w.count
    obtain ⟨c, there, -, same⟩ := mem_toldTargets.mp among
    have old := create_old w (newPromise kind none none) (sane.target c there)
    rw [source_derived, ← same, old, same] at is
    exact absurd (below is) (Nat.lt_irrefl _)
  · intro d is
    rw [new] at is
    exact absurd is (other d)

/-! ## Attaching -/

/-- Values may change that no one waits for, and one queue may grow. -/
theorem Good.revise (good : Good cur w) (values : Nat → Val V)
    (gots : Nat → Option (Outcome × Val V)) (queues : Nat → List Nat) (q : Nat) (more : List Nat)
    (grows : ∀ x, queues x = if x = q then (w.promises q).queue ++ more else (w.promises x).queue)
    (settled : ∀ x, (w.promises x).state ≠ none → values x = (w.promises x).value)
    (waiting : ∀ x z, (w.promises x).value = .promise z → values x = .promise z)
    (waits : ∀ x z, values x = .promise z → (w.promises x).value = .promise z ∨
      ((w.promises x).kind = .made ∧ z = q ∧ (w.promises q).state = none ∧ x ∈ more))
    (got : ∀ x, gots x = (w.promises x).got ∨
      (cur = some x ∧ (w.promises x).state = none ∧ w.busy = none))
    (made : ∀ y ∈ more, (w.promises y).kind = .made →
      (w.promises y).state = none ∧ values y = .promise q)
    (derived : ∀ y ∈ more, ∀ d, (w.promises y).kind = .derived d → At w d q)
    (ordered : Ordered (source w) (fun d => d = q ∨ d ∈ (w.promises q).queue) more) :
    Good cur { w with promises := fun x =>
      { w.promises x with value := values x, got := gots x, queue := queues x } } := by
  set after : World V := { w with promises := fun x =>
    { w.promises x with value := values x, got := gots x, queue := queues x } }
  have either {x y : Nat} : y ∈ (after.promises x).queue ↔
      y ∈ (w.promises x).queue ∨ (x = q ∧ y ∈ more) := by
    change y ∈ queues x ↔ _
    rw [grows]
    split
    · rename_i same
      simp [same]
    · rename_i other
      simp [other]
  have ats {d x : Nat} (has : At w d x) : At after d x :=
    has.imp_right fun has => ⟨has.1, waiting d x has.2⟩
  have hands {z : Nat} {outcome : Outcome} {value : Val V} (has : Hands w z outcome value) :
      Hands after z outcome value :=
    ⟨has.1, has.2.1, has.2.2.trans (settled z has.1).symm⟩
  have fired {x d : Nat} {outcome : Outcome} {value : Val V} (kept : gots x = (w.promises x).got)
      (has : Fired w x d outcome value) : Fired after x d outcome value :=
    ⟨kept.trans has.1, hands has.2⟩
  constructor
  · intro x decided
    change (values x).isPromise = false
    rw [settled x decided]
    exact good.settledPlain x decided
  · exact good.orphan
  · exact good.bare
  · exact good.exists_
  · intro x z pending promise
    rcases waits x z promise with old | ⟨made, -⟩
    · exact good.waiter x z pending old
    · exact made
  · intro x z apart pending promise
    rcases waits x z promise with old | ⟨-, rfl, unsettled, new⟩
    · exact (good.waits x z apart pending old).imp_left fun has => ⟨has.1, either.mpr (.inl has.2)⟩
    · exact .inl ⟨unsettled, either.mpr (.inr ⟨rfl, new⟩)⟩
  · intro c among
    exact (good.relays c among).imp
      (fun told uncalled => (told uncalled).imp_right fun told made pending =>
        (told made pending).imp fun z has => has.imp (waiting _ z) hands)
      fun gives d kind => (gives d kind).imp fun z has => has.imp ats hands
  · intro x pending y among
    rcases either.mp among with old | ⟨rfl, new⟩
    · exact (good.belongs x pending y old).imp
        (fun waits made => (waits made).imp_right (waiting y x)) fun from_ d kind =>
          ats (from_ d kind)
    · exact ⟨made y new, fun d kind => ats (derived y new d kind)⟩
  · intro e d apart kind pending idle
    obtain ⟨none, ran, located⟩ := good.fresh e d apart kind pending idle
    refine ⟨((got e).resolve_right fun has => apart has.1).trans none, ran, located.imp_left ?_⟩
    exact fun ⟨x, unsettled, among⟩ => ⟨x, unsettled, either.mpr (.inl among)⟩
  · intro p outcome busy
    obtain ⟨running, d, value, kind, has⟩ := good.running p outcome busy
    have kept := (got p).resolve_right fun has => absurd (has.2.2.symm.trans busy) nofun
    exact ⟨running, d, value, kind, fired kept has⟩
  · intro e d kind decided
    obtain ⟨outcome, value, has, ran, ruled⟩ := good.done e d kind decided
    have kept := (got e).resolve_right fun has => decided has.2.1
    refine ⟨outcome, value, fired kept has, ran, ?_⟩
    rw [← settled e decided] at ruled
    exact ruled
  · exact good.told
  · intro x pending
    change Ordered (source w) _ (queues x)
    rw [grows]
    split
    · rename_i same
      rw [same] at pending ⊢
      exact (good.queued q pending).append ordered
    · exact good.queued x pending

theorem enqueue_good (good : Good cur w) (kind : (w.promises e).kind = .derived d) (at_ : At w d p)
    (before : d = p ∨ d ∈ (w.promises p).queue) : Good cur (enqueue w p e) := by
  rw [enqueue_eq]
  have is {d' : Nat} (derived : (w.promises e).kind = .derived d') : d' = d :=
    Kind.derived.inj (derived.symm.trans kind)
  apply good.revise _ _ _ p [e] (fun _ => rfl) (fun _ _ => rfl) (fun _ _ promise => promise)
    (fun _ _ promise => .inl promise) (fun _ => .inl rfl)
  · intro y among made
    rw [List.mem_singleton.mp among, kind] at made
    nomatch made
  · intro y among d' derived
    rw [List.mem_singleton.mp among] at derived
    exact is derived ▸ at_
  · apply Ordered.single
    exact fun d' source => is (source_derived.mp source) ▸ before

theorem toldTargets_tell (w : World V) (target : Nat) (outcome : Outcome) (value : Val V) :
    toldTargets (tell w target outcome value) = toldTargets w ++ [target] := by
  simp [toldTargets, PromiseModel.tell]

theorem tell_good (good : Good cur w) (target : Nat) (outcome : Outcome) {value : Val V}
    (plain : value.isPromise = false) (other : (w.promises target).kind ≠ .made)
    (given : ∀ d, (w.promises target).kind = .derived d → Gives w d outcome value ∧
      ((w.promises d).state ≠ none ∨ d ∈ toldTargets w)) :
    Good cur (tell w target outcome value) := by
  have either {c : Closure V} (among : c ∈ (tell w target outcome value).closures) :
      c ∈ w.closures ∨ c = ⟨target, outcome, value, false⟩ :=
    (List.mem_append.mp among).imp_right List.mem_singleton.mp
  have targets := toldTargets_tell w target outcome value
  have grown {e : Nat} (among : e ∈ toldTargets w) :
      e ∈ toldTargets (tell w target outcome value) := by
    rw [targets]
    exact List.mem_append_left _ among
  refine { good with
      waits := ?_, relays := ?_, fresh := ?_, told := ?_ }
  · intro p z apart pending promise
    exact (good.waits p z apart pending promise).imp_right fun has => ⟨has.1, grown has.2⟩
  · intro c among
    rcases either among with old | rfl
    · exact good.relays c old
    · exact ⟨fun _ => ⟨plain, fun made => absurd made other⟩, fun d is => (given d is).1⟩
  · intro e d apart is pending idle
    obtain ⟨got, ran, located⟩ := good.fresh e d apart is pending idle
    exact ⟨got, ran, located.imp_right grown⟩
  · rw [targets]
    apply good.told.append
    apply Ordered.single
    intro d is
    have is' := source_derived.mp is
    exact (given d is').2.imp_left .inl

theorem behind_at (good : Good cur w) (self : Nat) : At w self (behind w self) := by
  rw [behind_eq]
  cases promise : (w.promises self).value with
  | promise q =>
    right
    refine ⟨?_, promise⟩
    by_contra settled
    have plain := good.settledPlain self settled
    rw [promise] at plain
    nomatch plain
  | _ => exact .inl rfl

theorem andThen_good (sane : Sane w) (good : Good none w) {self : Nat} (below : self < w.count)
    (success failure : Option Handler) : Good none (andThen w self success failure) := by
  rw [andThen]
  split_ifs
  · exact good
  have created := create_good sane good (.derived self) success failure (by rintro ⟨⟩)
    fun d is => Kind.derived.inj is ▸ below
  set begun := create w (newPromise (.derived self) success failure) with is
  have new : begun.promises w.count = newPromise (.derived self) success failure := create_new w _
  have kind : (begun.promises w.count).kind = .derived self := by
    rw [new]
    rfl
  have apart : self ≠ w.count := below.ne
  have at_ := behind_at created self
  -- a source is an older promise than the new one
  have sourced {e d : Nat} (derived : (begun.promises e).kind = .derived d) : d ≠ w.count := by
    by_cases same : e = w.count
    · rw [same, kind] at derived
      exact Kind.derived.inj derived ▸ apart
    · have old : begun.promises e = w.promises e := create_field w _ id same
      rw [old] at derived
      exact (good.exists_ e d derived).ne
  dsimp only
  split
  · rename_i pending
    have before : self = behind begun self ∨ self ∈ (begun.promises (behind begun self)).queue := by
      rcases at_ with same | ⟨unsettled, promise⟩
      · exact .inl same.symm
      · right
        rcases created.waits self _ (fun eq => apart (Option.some.inj eq).symm) unsettled promise
          with ⟨-, among⟩ | ⟨settled, -⟩
        · exact among
        · exact absurd pending settled
    have queued := enqueue_good created kind at_ before
    rw [enqueue_eq] at queued ⊢
    apply queued.place
    · exact fun _ => congrArg (·.value.isPromise) new
    · exact fun _ e _ derived => sourced (source_derived.mp derived) rfl
    · refine fun d _ _ _ => ⟨congrArg (·.got) new, congrArg (·.ran) new, .inl ⟨_, pending, ?_⟩⟩
      simp only [if_true]
      exact List.mem_append_right _ List.mem_cons_self
  · rename_i state settled
    have there : (begun.promises (behind begun self)).state ≠ none := by
      rw [settled]
      rintro ⟨⟩
    have told := tell_good created w.count (begun.promises (behind begun self)).handsOn
      (created.settledPlain _ there) (by rw [kind]; rintro ⟨⟩) (by
        intro d derived
        rw [kind] at derived
        rw [← Kind.derived.inj derived]
        refine ⟨⟨_, at_, there, rfl, rfl⟩, ?_⟩
        rcases at_ with same | ⟨unsettled, promise⟩
        · exact .inl (same ▸ there)
        · right
          rcases created.waits self _ (fun eq => apart (Option.some.inj eq).symm) unsettled promise
            with ⟨pending, -⟩ | ⟨-, among⟩
          · exact absurd pending there
          · exact among)
    apply told.place
    · exact fun _ => congrArg (·.value.isPromise) new
    · exact fun _ e _ derived => sourced (source_derived.mp derived) rfl
    · refine fun d _ _ _ => ⟨congrArg (·.got) new, congrArg (·.ran) new, .inr ?_⟩
      rw [toldTargets_tell]
      exact List.mem_append_right _ List.mem_cons_self

theorem all_good (sane : Sane w) (good : Good none w) {args : List Nat}
    (below : ∀ arg ∈ args, arg < w.count) : Good none (all w args) := by
  have attaching := all_attaching sane below
  have created := new_good sane good .combined (by simp)
  have begun := created.beside (Function.update w.groups w.groupCount
      { d := w.count, pending := args.length, results := fun _ => none, size := args.length,
        parts := [] }) (w.groupCount + 1) w.calls
    fun x => ((create w (newPromise .combined none none)).promises x).isFinal
  rw [all]
  split_ifs
  · have kind : ((create w (newPromise .combined none none : Promise V)).promises w.count).kind =
        .combined := by
      rw [create_new]
      rfl
    apply tell_good begun w.count .resolved rfl
    · exact fun made => absurd (kind.symm.trans made) (by rintro ⟨⟩)
    · exact fun d derived => absurd (kind.symm.trans derived) (by rintro ⟨⟩)
  · refine (attachAll_keeps (fun after => Attaching (Synchronizes w.groupCount) args after ∧
      Good none after) w.groupCount ?_ ?_ 0 ⟨attaching, begun⟩).2
    · exact fun after holds => ⟨holds.1.note _ _, holds.2.beside _ _ after.calls
        fun x => (after.promises x).isFinal⟩
    · intro after i arg among holds
      exact ⟨holds.1.andThen among ⟨i, _, rfl⟩ ⟨i, _, rfl⟩,
        andThen_good holds.1.sane holds.2 (holds.1.below arg among) _ _⟩

theorem race_good (sane : Sane w) (good : Good none w) {args : List Nat}
    (below : ∀ arg ∈ args, arg < w.count) : Good none (race w args) := by
  refine (attachRace_keeps (fun after => Attaching (Races w.count) args after ∧ Good none after)
    w.count ?_ ⟨race_attaching sane below, new_good sane good .combined nofun⟩).2
  intro after arg among holds
  exact ⟨holds.1.andThen among ⟨_, rfl⟩ ⟨_, rfl⟩,
    andThen_good holds.1.sane holds.2 (holds.1.below arg among) _ _⟩

theorem final_good (sane : Sane w) (good : Good none w) {self : Nat} (below : self < w.count)
    (handler : Option Handler) : Good none (final w self handler) := by
  rw [final]
  split_ifs
  · exact good
  · have derived := andThen_good sane good below handler handler
    rw [mark_eq]
    exact derived.beside _ _ _ _

/-! ## Closures come and go -/

theorem call_good (good : Good none w) (made : (w.promises p).kind = .made) (outcome : Outcome)
    (value : Val V) (calls : Nat → List (Outcome × Val V)) :
    Good none { w with
      closures := w.closures ++
        [{ target := p, outcome := outcome, value := value, called := true }]
      calls := calls } := by
  set after : World V := { w with
    closures := w.closures ++ [{ target := p, outcome := outcome, value := value, called := true }]
    calls := calls } with is
  have targets : toldTargets after = toldTargets w := by
    simp [toldTargets, is]
  have either {c : Closure V} (among : c ∈ after.closures) :
      c ∈ w.closures ∨ c = ⟨p, outcome, value, true⟩ :=
    (List.mem_append.mp among).imp_right List.mem_singleton.mp
  refine { good with
      waits := ?_, relays := ?_, fresh := ?_, told := ?_ }
  · unfold Awaits
    rw [targets]
    exact good.waits
  · intro c among
    rcases either among with old | rfl
    · exact good.relays c old
    · exact ⟨nofun, fun d derived => absurd (made.symm.trans derived) nofun⟩
  · unfold Unfired
    rw [targets]
    exact good.fresh
  · rw [targets]
    exact good.told

/-- A closure is taken. If it was posted for a promise by another one, that promise is in
no place for the moment. -/
theorem drop_good {c : Closure V} {rest : List (Closure V)} (good : Good none w)
    (queued : w.closures = c :: rest) :
    Good (if c.called then none else some c.target) { w with closures := rest } := by
  have old {c' : Closure V} (among : c' ∈ rest) : c' ∈ w.closures :=
    queued ▸ List.mem_cons_of_mem _ among
  have targets : toldTargets w =
      if c.called then toldTargets { w with closures := rest }
      else c.target :: toldTargets { w with closures := rest } := by
    rw [toldTargets, toldTargets, queued]
    cases called : c.called <;> simp [called]
  have stays {e : Nat} (other : (if c.called then none else some c.target) ≠ some e)
      (among : e ∈ toldTargets w) : e ∈ toldTargets { w with closures := rest } := by
    rw [targets] at among
    cases called : c.called with
    | true =>
      rw [called] at among
      exact among
    | false =>
      rw [called] at among other
      exact (List.mem_cons.mp among).resolve_left fun same => other (congrArg some same.symm)
  refine { good with
      waits := ?_, relays := fun c' among => good.relays c' (old among), fresh := ?_
      told := ?_ }
  · intro p z other pending promise
    exact (good.waits p z nofun pending promise).imp_right fun has => ⟨has.1, stays other has.2⟩
  · intro e d other derived pending idle
    obtain ⟨got, ran, located⟩ := good.fresh e d nofun derived pending idle
    exact ⟨got, ran, located.imp_right (stays other)⟩
  · have ordered := good.told
    rw [targets] at ordered
    cases called : c.called with
    | true =>
      rw [called] at ordered
      exact ordered.mono fun e _ d _ has => .inl (has.resolve_right nofun)
    | false =>
      rw [called] at ordered
      apply ordered.2.mono
      intro e _ d _ has
      rcases has with known | same
      · exact .inl (known.resolve_right nofun)
      · exact .inr (congrArg some same.symm)

theorem wait_good (good : Good none w) {q : Nat} (made : (w.promises p).kind = .made)
    (pending : (w.promises p).state = none) (plain : (w.promises p).value.isPromise = false)
    (unsettled : (w.promises q).state = none) :
    Good none (enqueue (modify w p fun promise => { promise with value := .promise q }) q p) := by
  rw [wait_eq]
  refine good.revise (fun x => if x = p then .promise q else (w.promises x).value) _ _ q [p]
    (fun _ => rfl) ?_ ?_ ?_ (fun _ => .inl rfl) ?_ ?_ ?_
  · intro x settled
    exact if_neg fun here : x = p => settled (here ▸ pending)
  · intro x z promise
    apply (if_neg ?_).trans promise
    rintro rfl
    rw [promise] at plain
    nomatch plain
  · intro x z promise
    by_cases here : x = p
    · rw [if_pos here] at promise
      rw [here]
      exact .inr ⟨made, (Val.promise.inj promise).symm, unsettled, List.mem_cons_self⟩
    · rw [if_neg here] at promise
      exact .inl promise
  · intro y among _
    rw [List.mem_singleton.mp among]
    exact ⟨pending, if_pos rfl⟩
  · intro y among d derived
    rw [List.mem_singleton.mp among, made] at derived
    nomatch derived
  · apply Ordered.single
    exact fun d source => absurd (made.symm.trans (source_derived.mp source)) nofun

end Chuck.PromisePropagation
