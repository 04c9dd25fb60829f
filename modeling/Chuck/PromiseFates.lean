import Chuck.PromiseSane
import Mathlib.Logic.Relation

/-!
# What a promise comes to

A promise that is settled with another one leads to it, and in the end to one that tells
a plain value. From this follows what the first call of a resolver makes of a promise of
the program. The invariant below says where each of them is on its way: it has not
begun, waits for what the first call passed, or has its state and value. Everything
programs do but calls of resolvers and `M.new` happens beside that.
-/

namespace Chuck.PromiseFates

open PromiseModel PromiseFrames PromiseSane

variable {V : Type}

variable {p q : Nat} {w : World V}

/-! ## What a promise leads to -/

def Link (w : World V) (p q : Nat) : Prop :=
  (w.promises p).state ≠ none ∧ (w.promises p).value = .promise q

abbrev Chain (w : World V) : Nat → Nat → Prop := Relation.ReflTransGen (Link w)

/-- The promises from `q` on end with one that tells `value` as `outcome`. -/
def Follows (w : World V) (q : Nat) (outcome : Outcome) (value : Val V) : Prop :=
  ∃ r, Chain w q r ∧ (w.promises r).state ≠ none ∧ (w.promises r).value.isPromise = false ∧
    outcome = (w.promises r).handsOn ∧ value = (w.promises r).value

def Fate (w : World V) (p : Nat) (call : Outcome × Val V) (outcome : Outcome) (value : Val V) :
    Prop :=
  match call.2 with
  | .promise q =>
    if q = p then outcome = .rejected ∧ value = .typeError else Follows w q outcome value
  | plain => outcome = call.1 ∧ value = plain

def Brings (w : World V) (q : Nat) (c : Closure V) : Prop :=
  (c.value.isPromise = false → Follows w q c.outcome c.value) ∧
    ∀ r, c.value = .promise r → Chain w q r

theorem link_unique {r : Nat} (first : Link w p q) (second : Link w p r) : q = r :=
  Val.promise.inj (first.2.symm.trans second.2)

theorem chain_ends (chain : Chain w p q)
    (plain : (w.promises p).value.isPromise = false) : p = q := by
  cases Relation.ReflTransGen.cases_head chain with
  | inl same => exact same
  | inr more =>
    obtain ⟨r, link, -⟩ := more
    rw [link.2] at plain
    nomatch plain

theorem follows_unique {first second : Outcome} {one other : Val V} (left : Follows w q first one)
    (right : Follows w q second other) : second = first ∧ other = one := by
  obtain ⟨r, reach, -, plain, rfl, rfl⟩ := left
  obtain ⟨r', reach', -, plain', rfl, rfl⟩ := right
  have unique : Relator.RightUnique (Link w) := fun _ _ _ => link_unique
  have same : r = r' := by
    rcases Relation.ReflTransGen.total_of_right_unique unique reach reach' with further | further
    · exact chain_ends further plain
    · exact (chain_ends further plain').symm
  rw [same]
  exact ⟨rfl, rfl⟩

theorem fate_unique {call : Outcome × Val V} {first second : Outcome}
    {one other : Val V} (left : Fate w p call first one) (right : Fate w p call second other) :
    second = first ∧ other = one := by
  rw [Fate] at left right
  cases is : call.2 with
  | promise q =>
    rw [is] at left right
    dsimp only at left right
    split_ifs at left right
    · exact ⟨right.1.trans left.1.symm, right.2.trans left.2.symm⟩
    · exact follows_unique left right
  | _ =>
    rw [is] at left right
    exact ⟨right.1.trans left.1.symm, right.2.trans left.2.symm⟩

/-! ## Settled promises stay -/

structure Grows (w after : World V) : Prop where
  state : ∀ x, (w.promises x).state ≠ none → (after.promises x).state = (w.promises x).state
  value : ∀ x, (w.promises x).state ≠ none → (after.promises x).value = (w.promises x).value
  failure : ∀ x, (w.promises x).state ≠ none → (after.promises x).failure = (w.promises x).failure

variable {w after : World V}

theorem Grows.link (grows : Grows w after) (link : Link w p q) : Link after p q := by
  rw [Link, grows.state p link.1, grows.value p link.1]
  exact link

theorem Grows.chain (grows : Grows w after) (chain : Chain w p q) : Chain after p q := by
  induction chain with
  | refl => exact .refl
  | tail _ link ih => exact ih.tail (grows.link link)

theorem Grows.handsOn (grows : Grows w after) {x : Nat} (settled : (w.promises x).state ≠ none) :
    (after.promises x).handsOn = (w.promises x).handsOn := by
  rw [Promise.handsOn, Promise.handsOn, grows.state x settled, grows.failure x settled]

theorem Grows.follows (grows : Grows w after) {outcome : Outcome} {value : Val V}
    (follows : Follows w q outcome value) : Follows after q outcome value := by
  obtain ⟨r, chain, settled, plain, rfl, rfl⟩ := follows
  refine ⟨r, grows.chain chain, ?_, ?_, ?_, ?_⟩
  · rw [grows.state r settled]
    exact settled
  · rw [grows.value r settled]
    exact plain
  · exact (grows.handsOn settled).symm
  · exact (grows.value r settled).symm

theorem Grows.fate (grows : Grows w after) {call : Outcome × Val V} {outcome : Outcome}
    {value : Val V} (fate : Fate w p call outcome value) : Fate after p call outcome value := by
  rw [Fate] at fate ⊢
  cases is : call.2 with
  | promise q =>
    rw [is] at fate
    dsimp only at fate ⊢
    split_ifs at fate ⊢
    · exact fate
    · exact grows.follows fate
  | _ =>
    rw [is] at fate
    exact fate

theorem Grows.brings (grows : Grows w after) {c : Closure V} (brings : Brings w q c) :
    Brings after q c :=
  ⟨fun plain => grows.follows (brings.1 plain), fun r is => grows.chain (brings.2 r is)⟩

/-! ## Calls -/

def queuedCalls (w : World V) (p : Nat) : List (Outcome × Val V) :=
  (w.closures.filter fun c => c.called && c.target == p).map fun c => (c.outcome, c.value)

def Begun (w : World V) (p : Nat) : Prop :=
  queuedCalls w p ≠ w.calls p

def Awaits (w : World V) (p q : Nat) : Prop :=
  Begun w p ∧ q ≠ p ∧ ∃ outcome, (w.calls p).head? = some (outcome, .promise q)

theorem queued_uncalled {closures : List (Closure V)}
    (added : ∃ more, after.closures = closures ++ more ∧ ∀ c ∈ more, c.called = false)
    (same : w.closures = closures) (p : Nat) : queuedCalls after p = queuedCalls w p := by
  obtain ⟨more, is, uncalled⟩ := added
  rw [queuedCalls, queuedCalls, is, same, List.filter_append, List.map_append]
  have none : more.filter (fun c => c.called && c.target == p) = [] := by
    rw [List.filter_eq_nil_iff]
    intro c among
    rw [uncalled c among]
    exact Bool.false_ne_true
  rw [none, List.map_nil, List.append_nil]

/-! ## The invariant -/

/-- Where a promise of the program is with its first call. -/
structure Standing (w : World V) (p : Nat) : Prop where
  fresh : ¬Begun w p → (w.promises p).state = none ∧ (w.promises p).value.isPromise = false
  fate : Begun w p → ∀ state, (w.promises p).state = some state →
    ∃ first, (w.calls p).head? = some first ∧ Fate w p first state (w.promises p).value
  waits : Begun w p → (w.promises p).state = none →
    (w.promises p).value.isPromise = true ∧ ∃ q, Awaits w p q

/-- `cur` is the promise for which a closure has just been taken. -/
structure Good (cur : Option Nat) (w : World V) : Prop where
  calls : ∀ p, queuedCalls w p <:+ w.calls p
  callers : ∀ p, w.calls p ≠ [] → (w.promises p).kind = .made
  standing : ∀ p, cur ≠ some p → (w.promises p).kind = .made → Standing w p
  told : ∀ c ∈ w.closures, c.called = false → (w.promises c.target).kind = .made →
    (w.promises c.target).state = none → ∃ q, Awaits w c.target q ∧ Brings w q c
  queued : ∀ x, Live w x → ∀ next ∈ (w.promises x).queue, (w.promises next).kind = .made →
    (w.promises next).state = none → ∃ q, Awaits w next q ∧ Chain w q x

/-- What is known of first calls and of settled promises stays. -/
structure Keeps (w after : World V) : Prop where
  grows : Grows w after
  begun : ∀ x, Begun w x → Begun after x
  head : ∀ x first, (w.calls x).head? = some first → (after.calls x).head? = some first

section Keeps

variable (keeps : Keeps w after)

include keeps

theorem Keeps.awaits (has : Awaits w p q) : Awaits after p q :=
  ⟨keeps.begun p has.1, has.2.1, has.2.2.imp fun _ first => keeps.head p _ first⟩

theorem Keeps.told {c : Closure V} (has : ∃ q, Awaits w p q ∧ Brings w q c) :
    ∃ q, Awaits after p q ∧ Brings after q c :=
  has.imp fun _ has => ⟨keeps.awaits has.1, keeps.grows.brings has.2⟩

theorem Keeps.queued {x : Nat} (has : ∃ q, Awaits w p q ∧ Chain w q x) :
    ∃ q, Awaits after p q ∧ Chain after q x :=
  has.imp fun _ has => ⟨keeps.awaits has.1, keeps.grows.chain has.2⟩

theorem Standing.keep (standing : Standing w p) (begun : Begun after p → Begun w p)
    (state : (after.promises p).state = (w.promises p).state)
    (value : (after.promises p).value = (w.promises p).value) : Standing after p := by
  constructor
  · intro idle
    rw [state, value]
    exact standing.fresh fun has => idle (keeps.begun p has)
  · intro has how settled
    obtain ⟨first, head, fate⟩ := standing.fate (begun has) how (state ▸ settled)
    rw [value]
    exact ⟨first, keeps.head p first head, keeps.grows.fate fate⟩
  · intro has pending
    obtain ⟨promise, q, waits⟩ := standing.waits (begun has) (state ▸ pending)
    rw [value]
    exact ⟨promise, q, keeps.awaits waits⟩

end Keeps

theorem start_good : Good none (start : World V) := by
  constructor
  · exact fun p => List.suffix_rfl
  · exact fun p called => absurd rfl called
  · exact nofun
  · exact nofun
  · exact nofun

theorem Good.unmade (good : Good (some p) w) (other : (w.promises p).kind ≠ .made) :
    Good none w := by
  refine { good with standing := fun x _ made => good.standing x ?_ made }
  intro same
  exact other (Option.some.inj same ▸ made)

/-! ## Changes beside the promises of the program -/

/-- Other promises and closures come, and pending ones of other kinds change. -/
structure Aside (w after : World V) : Prop where
  calls : after.calls = w.calls
  closures : ∃ added, after.closures = w.closures ++ added ∧
    ∀ c ∈ added, c.called = false ∧ (after.promises c.target).kind ≠ .made
  kind : ∀ x, (after.promises x).kind = .made ↔ (w.promises x).kind = .made
  state : ∀ x, (after.promises x).state = (w.promises x).state
  failure : ∀ x, (w.promises x).state ≠ none → (after.promises x).failure = (w.promises x).failure
  value : ∀ x, (w.promises x).kind = .made ∨ (w.promises x).state ≠ none →
    (after.promises x).value = (w.promises x).value
  parent : ∀ x, (after.promises x).parent = (w.promises x).parent
  queue : ∀ x, ∀ next ∈ (after.promises x).queue,
    next ∈ (w.promises x).queue ∨ (after.promises next).kind ≠ .made

theorem Aside.refl (w : World V) : Aside w w where
  calls := rfl
  closures := ⟨[], (List.append_nil _).symm, nofun⟩
  kind _ := Iff.rfl
  state _ := rfl
  failure _ _ := rfl
  value _ _ := rfl
  parent _ := rfl
  queue _ _ among := .inl among

theorem Aside.trans {middle : World V} (first : Aside w middle) (second : Aside middle after) :
    Aside w after where
  calls := second.calls.trans first.calls
  closures := by
    obtain ⟨added, is, aside⟩ := first.closures
    obtain ⟨more, isMore, asideMore⟩ := second.closures
    refine ⟨added ++ more, by rw [isMore, is, List.append_assoc], ?_⟩
    intro c among
    rcases List.mem_append.mp among with early | late
    · obtain ⟨uncalled, other⟩ := aside c early
      exact ⟨uncalled, fun made => other ((second.kind _).mp made)⟩
    · exact asideMore c late
  kind x := (second.kind x).trans (first.kind x)
  state x := (second.state x).trans (first.state x)
  failure x settled :=
    (second.failure x (by rw [first.state]; exact settled)).trans (first.failure x settled)
  value x held := by
    refine (second.value x ?_).trans (first.value x held)
    exact held.imp (first.kind x).mpr fun settled => by rw [first.state]; exact settled
  parent x := (second.parent x).trans (first.parent x)
  queue x next among := by
    rcases second.queue x next among with early | other
    · exact (first.queue x next early).imp_right fun other made => other ((second.kind _).mp made)
    · exact .inr other

theorem Aside.grows (aside : Aside w after) : Grows w after where
  state x _ := aside.state x
  value x settled := aside.value x (.inr settled)
  failure := aside.failure

theorem Aside.live (aside : Aside w after) {x : Nat} (live : Live after x) : Live w x := by
  rcases live with pending | ⟨r, is, pending, parent⟩
  · rw [aside.state] at pending
    exact .inl pending
  · by_cases waits : (w.promises x).state = none
    · exact .inl waits
    · rw [aside.value x (.inr waits)] at is
      rw [aside.state] at pending
      rw [aside.parent] at parent
      exact .inr ⟨r, is, pending, parent⟩

theorem Good.aside {cur : Option Nat} (good : Good cur w) (aside : Aside w after) :
    Good cur after := by
  have queuedSame : ∀ p, queuedCalls after p = queuedCalls w p := by
    obtain ⟨added, is, uncalled⟩ := aside.closures
    exact queued_uncalled ⟨added, is, fun c among => (uncalled c among).1⟩ rfl
  have begun : ∀ p, Begun after p ↔ Begun w p := by
    intro p
    rw [Begun, Begun, queuedSame, aside.calls]
  have keeps : Keeps w after :=
    ⟨aside.grows, fun p => (begun p).mpr, fun _ _ head => aside.calls ▸ head⟩
  constructor
  · intro p
    rw [queuedSame, aside.calls]
    exact good.calls p
  · intro p
    rw [aside.calls, aside.kind]
    exact good.callers p
  · intro p other made
    rw [aside.kind] at made
    exact (good.standing p other made).keep keeps (begun p).mp (aside.state p)
      (aside.value p (.inl made))
  · intro c among uncalled made pending
    obtain ⟨added, is, others⟩ := aside.closures
    rw [is] at among
    rcases List.mem_append.mp among with old | new
    · rw [aside.kind] at made
      rw [aside.state] at pending
      exact keeps.told (good.told c old uncalled made pending)
    · exact absurd made (others c new).2
  · intro x live next among made pending
    rcases aside.queue x next among with old | other
    · rw [aside.kind] at made
      rw [aside.state] at pending
      exact keeps.queued (good.queued x (aside.live live) next old made pending)
    · exact absurd made other

/-! ## What programs do is beside, but for `M.new` and calls -/

theorem create_aside (sane : Sane w) (kind : Kind) (other : kind ≠ .made)
    (success failure : Option Handler) : Aside w (create w (newPromise kind success failure)) := by
  rw [create_eq w (sane.beyond w.count le_rfl)]
  refine
    { Aside.refl w with
      closures := ⟨[], (List.append_nil _).symm, nofun⟩
      kind := ?_
      failure := ?_
      queue := fun _ _ among => .inl among }
  · intro x
    by_cases new : x = w.count
    · rw [new, sane.beyond w.count le_rfl]
      exact ⟨fun made => absurd ((if_pos rfl).symm.trans made) other, nofun⟩
    · simp only [if_neg new]
  · exact fun x settled => if_neg (sane.settled settled).ne

theorem enqueue_aside (p : Nat) {next : Nat} (other : (w.promises next).kind ≠ .made) :
    Aside w (enqueue w p next) := by
  rw [enqueue_eq]
  refine { Aside.refl w with queue := ?_ }
  intro x added among
  change added ∈ (if x = p then _ else _) at among
  split at among
  · rename_i same
    rw [same]
    refine (List.mem_append.mp among).imp_right fun new => ?_
    rw [List.mem_singleton.mp new]
    exact other
  · exact .inl among

theorem tell_aside {target : Nat} (outcome : Outcome) (value : Val V)
    (other : (w.promises target).kind ≠ .made) : Aside w (tell w target outcome value) := by
  refine { Aside.refl w with closures := ⟨_, rfl, ?_⟩ }
  intro c among
  rw [List.mem_singleton.mp among]
  exact ⟨rfl, other⟩

theorem modify_aside {f : Promise V → Promise V} (notes : Notes w p f)
    (value : (w.promises p).kind = .made ∨ (w.promises p).state ≠ none →
      (f (w.promises p)).value = (w.promises p).value) : Aside w (modify w p f) := by
  refine
    { Aside.refl w with
      closures := ⟨[], (List.append_nil _).symm, nofun⟩
      kind := fun x => by rw [modify_field w p x (·.kind) f notes.kind]
      state := fun x => modify_field w p x (·.state) f notes.state
      failure := fun x _ => modify_field w p x (·.failure) f notes.failure
      value := ?_
      parent := fun x => modify_field w p x (·.parent) f notes.parent
      queue := ?_ }
  · intro x held
    by_cases same : x = p
    · rw [same] at held ⊢
      rw [modify_same]
      exact value held
    · rw [modify_other w p f same]
  · intro x next among
    rw [modify_field w p x (·.queue) f notes.queue] at among
    exact .inl among

theorem groups_aside (groups : Nat → AllGroup V) (groupCount : Nat)
    (busy : Option (Nat × Outcome)) :
    Aside w { w with groups := groups, groupCount := groupCount, busy := busy } :=
  { Aside.refl w with }

theorem andThen_aside (sane : Sane w) (self : Nat) (success failure : Option Handler) :
    Aside w (andThen w self success failure) := by
  rw [andThen]
  split_ifs
  · exact Aside.refl w
  have created := create_aside sane (.derived self) (by rintro ⟨⟩) success failure
  have other : ((create w (newPromise (.derived self) success failure)).promises w.count).kind ≠
      .made := by
    rw [create_new]
    rintro ⟨⟩
  dsimp only
  split
  · exact created.trans (enqueue_aside _ other)
  · exact created.trans (tell_aside _ _ other)

theorem final_aside (sane : Sane w) (self : Nat) (handler : Option Handler) :
    Aside w (final w self handler) := by
  rw [final]
  split_ifs
  · exact Aside.refl w
  · exact (andThen_aside sane self handler handler).trans
      (modify_aside ⟨rfl, rfl, rfl, rfl, rfl, rfl⟩ fun _ => rfl)

theorem all_aside (sane : Sane w) {args : List Nat} (below : ∀ arg ∈ args, arg < w.count) :
    Aside w (all w args) := by
  have attaching := all_attaching sane below
  have begun : Aside w
      { create w (newPromise .combined none none) with
        groupCount := w.groupCount + 1
        groups := Function.update w.groups w.groupCount
          { d := w.count, pending := args.length, results := fun _ => none, size := args.length,
            parts := [] } } :=
    (create_aside sane .combined (by rintro ⟨⟩) none none).trans
      (groups_aside _ (w.groupCount + 1) (create w (newPromise .combined none none)).busy)
  rw [all]
  split_ifs
  · apply begun.trans
    apply tell_aside
    rw [create_new]
    rintro ⟨⟩
  · refine (attachAll_keeps (fun after => Attaching (Synchronizes w.groupCount) args after ∧
      Aside w after) w.groupCount ?_ ?_ 0 ⟨attaching, begun⟩).2
    · exact fun after holds => ⟨holds.1.note _ _, holds.2.trans (groups_aside _ _ _)⟩
    · intro after i arg among holds
      exact ⟨holds.1.andThen among ⟨i, _, rfl⟩ ⟨i, _, rfl⟩,
        holds.2.trans (andThen_aside holds.1.sane arg _ _)⟩

theorem race_aside (sane : Sane w) {args : List Nat} (below : ∀ arg ∈ args, arg < w.count) :
    Aside w (race w args) := by
  refine (attachRace_keeps (fun after => Attaching (Races w.count) args after ∧ Aside w after)
    w.count ?_ ⟨race_attaching sane below, create_aside sane .combined nofun none none⟩).2
  intro after arg among holds
  exact ⟨holds.1.andThen among ⟨_, rfl⟩ ⟨_, rfl⟩,
    holds.2.trans (andThen_aside holds.1.sane arg _ _)⟩

theorem create_grows (sane : Sane w) (kind : Kind) (success failure : Option Handler) :
    Grows w (create w (newPromise kind success failure)) := by
  rw [create_eq w (sane.beyond w.count le_rfl)]
  exact ⟨fun _ _ => rfl, fun _ _ => rfl, fun _ settled => if_neg (sane.settled settled).ne⟩

theorem new_good (sane : Sane w) (good : Good none w) :
    Good none (create w (newPromise .made none none)) := by
  have uncalled : w.calls w.count = [] := by
    by_contra called
    exact absurd (sane.made_lt (good.callers w.count called)) (Nat.lt_irrefl _)
  have idle : ¬Begun w w.count := by
    have queued := good.calls w.count
    rw [uncalled] at queued
    rw [Begun, uncalled, List.suffix_nil.mp queued]
    exact not_not.mpr rfl
  have same {x : Nat} (below : x < w.count) := create_old w (newPromise .made none none) below
  have grows := create_grows sane .made none none
  -- all but the kinds and the handlers is as before
  rw [create_eq w (sane.beyond w.count le_rfl)] at same grows ⊢
  have keeps : Keeps w _ := ⟨grows, fun _ => id, fun _ _ => id⟩
  refine ⟨good.calls, fun p called => ite_eq_left_iff.mpr fun _ => good.callers p called,
    fun p _ made => ?_, fun c among uncalled made pending => ?_,
    fun x live next among made pending => ?_⟩
  · by_cases new : p = w.count
    · rw [new]
      refine ⟨fun _ => ?_, fun begun => absurd begun idle, fun begun => absurd begun idle⟩
      change (w.promises w.count).state = none ∧ (w.promises w.count).value.isPromise = false
      rw [sane.beyond w.count le_rfl]
      exact ⟨rfl, rfl⟩
    · exact (good.standing p nofun ((if_neg new).symm.trans made)).keep keeps id rfl rfl
  · rw [same (sane.target c among)] at made
    exact keeps.told (good.told c among uncalled made pending)
  · rw [same (sane.queue x next among)] at made
    exact keeps.queued (good.queued x live next among made pending)

end Chuck.PromiseFates
