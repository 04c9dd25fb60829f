import Chuck.PromiseTally

/-!
# Groups of `M.all` in every world

The countdown holds in every world of every run, whatever the program does: new promises
and groups, the loops of `M.all` and `M.race`, and all events.
-/

namespace Chuck.PromiseGroups

open PromiseModel PromiseFrames PromiseSane PromiseTally Support.FaultFreeRuns Function
open List hiding all

variable {V : Type} {w after : World V}

variable {args : List Nat} {g : Nat}

/-! ## New promises -/

def Loose (w : World V) : Handler → Prop
  | .user => True
  | .synchronizer _ _ _ => False
  | .racer d _ => ∀ g < w.groupCount, (w.groups g).d ≠ d

theorem new_handler (w : World V) (kind : Kind) (success failure : Option Handler)
    (outcome : Outcome) {handler : Handler}
    (has : ((create w (newPromise kind success failure)).promises w.count).handler outcome =
      some handler) : success = some handler ∨ failure = some handler := by
  rw [create_new] at has
  cases outcome
  · exact .inl has
  · exact .inr has

theorem create_counts (counts : Counts none w) (kind : Kind) (success failure : Option Handler)
    (bare : kind = .combined → success = none ∧ failure = none)
    (loose : ∀ handler, success = some handler ∨ failure = some handler → Loose w handler) :
    Counts none (create w (newPromise kind success failure)) := by
  set after := create w (newPromise kind success failure) with is
  have new : after.promises w.count = newPromise kind success failure := create_new w _
  have old {x : Nat} (other : x ≠ w.count) : after.promises x = w.promises x :=
    create_field w _ id other
  have given {outcome : Outcome} {handler : Handler}
      (has : (after.promises w.count).handler outcome = some handler) : Loose w handler :=
    loose handler (new_handler w kind success failure outcome has)
  refine ⟨?_, ?_, counts.distinct, ?_, ?_⟩
  · exact fun g below => (counts.tally g below).extend (Nat.le_succ _) fun x inside => old inside.ne
  · intro x
    by_cases same : x = w.count
    · rw [same, new]
      intro combined outcome
      obtain ⟨first, second⟩ := bare combined
      cases outcome
      · exact first
      · exact second
    · rw [old same]
      exact counts.bare x
  · intro p outcome d how has
    by_cases same : p = w.count
    · rw [same] at has
      exact given has
    · rw [old same] at has
      exact counts.racer p outcome d how has
  · intro p outcome g i how has
    by_cases same : p = w.count
    · rw [same] at has
      exact absurd (given has) id
    · rw [old same] at has
      exact counts.owner p outcome g i how has

theorem create_decides (sane : Sane w) (counts : Counts none w) (decides : Decides none w)
    (kind : Kind) (success failure : Option Handler) (groups : Nat → AllGroup V)
    (ds : ∀ g, (groups g).d = (w.groups g).d) (sizes : ∀ g, (groups g).size = (w.groups g).size)
    (pendings : ∀ g, (groups g).pending = (w.groups g).pending)
    (results : ∀ g, (groups g).results = (w.groups g).results) :
    Decides none { create w (newPromise kind success failure) with groups := groups } := by
  set after := { create w (newPromise kind success failure) with groups := groups } with is
  have new : after.promises w.count = newPromise kind success failure := create_new w _
  have old {x : Nat} (other : x ≠ w.count) : after.promises x = w.promises x :=
    create_field w _ id other
  have dOld {g : Nat} (below : g < w.groupCount) : after.promises (w.groups g).d =
      w.promises (w.groups g).d := old (counts.tally g below).combined.1.ne
  have decided (g : Nat) (outcome : Outcome) : Decided after g outcome ↔ Decided w g outcome := by
    change ((groups g).pending = 0 ∧ ((groups g).size = 0 ∨ ∃ i value,
      (groups g).results i = some (outcome, value))) ↔ _
    rw [pendings, sizes, results]
    rfl
  constructor
  · intro x e among
    by_cases same : x = w.count
    · rw [same, new] at among
      nomatch among
    · rw [old same] at among
      rw [old (sane.queue x e among).ne]
      exact decides.queued x e among
  · intro p outcome busy
    rw [old (sane.busy p outcome busy).1.ne]
    exact decides.running p outcome busy
  · intro c among
    rw [old (sane.target c among).ne]
    exact decides.plainly c among
  · intro g below c among
    change c.target = (groups g).d → _
    rw [ds, decided]
    exact decides.told g below c among
  · intro g below state
    change (after.promises (groups g).d).state = some state →
      (after.promises (groups g).d).value = _ ∧ _
    rw [ds, decided, dOld below]
    exact decides.settled g below state
  · intro g below
    change (groups g).pending = 0 → _ ≠ some (groups g).d →
      (after.promises (groups g).d).state ≠ none ∨ ∃ c ∈ w.closures, c.target = (groups g).d
    rw [pendings, ds, dOld below]
    exact decides.posted g below

/-! ## Promises of a group -/

def attached (w : World V) (g i arg : Nat) : World V :=
  { create w (newPromise (.derived arg) (some (.synchronizer g i .resolved))
      (some (.synchronizer g i .rejected))) with
    groups := update w.groups g
      { w.groups g with parts := (w.groups g).parts ++ [w.count] } }

section Attached

variable {g i arg : Nat}

theorem attached_other (w : World V) {k : Nat} (i arg : Nat) (other : k ≠ g) :
    (attached w g i arg).groups k = w.groups k := by
  rw [attached]
  dsimp only
  rw [update_of_ne other]

theorem attached_field {α : Type} (w : World V) (g i arg : Nat) (field : AllGroup V → α)
    (keeps : ∀ group parts, field { group with parts := parts } = field group) (k : Nat) :
    field ((attached w g i arg).groups k) = field (w.groups k) := by
  by_cases same : k = g
  · rw [same, attached]
    dsimp only
    rw [update_self]
    exact keeps _ _
  · rw [attached_other w i arg same]

theorem attached_same (w : World V) (g i arg : Nat) : (attached w g i arg).groups g =
    { w.groups g with parts := (w.groups g).parts ++ [w.count] } :=
  update_self ..

theorem attached_counts (counts : Counts none w) (index : (w.groups g).parts.length = i)
    (room : i < (w.groups g).size) (arg : Nat) : Counts none (attached w g i arg) := by
  set after := attached w g i arg with is
  have new : after.promises w.count = newPromise (.derived arg)
      (some (.synchronizer g i .resolved)) (some (.synchronizer g i .rejected)) := create_new w _
  have old {x : Nat} (other : x ≠ w.count) : after.promises x = w.promises x :=
    create_field w _ id other
  have ds := attached_field w g i arg (·.d) fun _ _ => rfl
  have handlers (outcome : Outcome) : (after.promises w.count).handler outcome =
      some (.synchronizer g i outcome) := by
    rw [new]
    cases outcome <;> rfl
  refine ⟨?_, ?_, ?_, ?_, ?_⟩
  · intro k inside
    have tally := (counts.tally k inside).extend (Nat.le_succ _) fun x before => old before.ne
    by_cases same : k = g
    · rw [same] at tally ⊢
      rw [is, attached_same]
      apply tally.append (index ▸ room) (Nat.lt_succ_self _)
      · rw [index]
        exact handlers
      · rw [new]
        rfl
    · rw [is, attached_other w i arg same]
      exact tally
  · intro x
    by_cases same : x = w.count
    · rw [same, new]
      exact nofun
    · rw [old same]
      exact counts.bare x
  · intro k first l second
    rw [ds, ds]
    exact counts.distinct k first l second
  · intro p outcome d how has k inside
    rw [ds]
    by_cases same : p = w.count
    · rw [same, handlers] at has
      nomatch Option.some.inj has
    · rw [old same] at has
      exact counts.racer p outcome d how has k inside
  · intro p outcome k j how has
    by_cases same : p = w.count
    · rw [same, handlers] at has
      injection Option.some.inj has with group place which
      refine ⟨which.symm, ?_⟩
      rw [← group, ← place, is, attached_same, same, ← index]
      exact getElem?_concat_length
    · rw [old same] at has
      obtain ⟨which, at_⟩ := counts.owner p outcome k j how has
      refine ⟨which, ?_⟩
      by_cases here : k = g
      · rw [here] at at_ ⊢
        rw [is, attached_same, getElem?_append_left (List.getElem?_eq_some_iff.mp at_).1]
        exact at_
      · rw [is, attached_other w i arg here]
        exact at_

theorem attached_decides (sane : Sane w) (counts : Counts none w) (decides : Decides none w)
    (g i arg : Nat) : Decides none (attached w g i arg) := by
  apply create_decides sane counts decides
  · exact attached_field w g i arg (·.d) fun _ _ => rfl
  · exact attached_field w g i arg (·.size) fun _ _ => rfl
  · exact attached_field w g i arg (·.pending) fun _ _ => rfl
  · exact attached_field w g i arg (·.results) fun _ _ => rfl

end Attached

/-! ## `andThen` and its loops -/

structure Tallied (w : World V) : Prop where
  sane : Sane w
  counts : Counts none w
  decides : Decides none w

theorem place_tallied (next : Nat) (counts : Counts none w) (decides : Decides none w)
    (other : (w.promises next).kind ≠ .combined) (self : Nat) :
    Counts none (match (w.promises (behind w self)).state with
      | none => enqueue w (behind w self) next
      | some _ =>
        tell w next (w.promises (behind w self)).handsOn (w.promises (behind w self)).value) ∧
    Decides none (match (w.promises (behind w self)).state with
      | none => enqueue w (behind w self) next
      | some _ => tell w next (w.promises (behind w self)).handsOn
          (w.promises (behind w self)).value) := by
  split
  · exact ⟨enqueue_counts counts _ next, enqueue_decides decides _ other⟩
  · refine ⟨counts.beside _ _ _, post_decides decides _ ?_ ?_ w.calls⟩
    · intro c among
      rw [mem_singleton.mp among]
      exact fun combined => absurd combined other
    · intro c among
      rw [mem_singleton.mp among]
      exact counts.not_d other

theorem andThen_tallied (tallied : Tallied w) {self : Nat} (below : self < w.count)
    (success failure : Option Handler)
    (owns : ∀ handler, success = some handler ∨ failure = some handler → Owns w handler)
    (loose : ∀ handler, success = some handler ∨ failure = some handler → Loose w handler) :
    Tallied (andThen w self success failure) := by
  have derivedSane := andThen_sane tallied.sane below success failure owns
  by_cases ends : (w.promises self).isFinal
  · rw [andThen, if_pos ends]
    exact tallied
  · have counts := create_counts tallied.counts (.derived self) success failure (by rintro ⟨⟩) loose
    have decides := create_decides tallied.sane tallied.counts tallied.decides (.derived self)
      success failure w.groups (fun _ => rfl) (fun _ => rfl) (fun _ => rfl) fun _ => rfl
    obtain ⟨placed, decided⟩ := place_tallied w.count counts decides
      (by rw [create_new]; rintro ⟨⟩) self
    rw [andThen, if_neg ends] at derivedSane ⊢
    exact ⟨derivedSane, placed, decided⟩

def noted (w : World V) (g : Nat) : World V :=
  { w with
    groups := update w.groups g
      { w.groups g with parts := (w.groups g).parts ++ [w.count] } }

structure Filling (w : World V) (g i : Nat) (args : List Nat) : Prop where
  tallied : Tallied w
  owns : ∀ handler, Synchronizes g handler → Owns w handler
  below : ∀ arg ∈ args, arg < w.count
  index : (w.groups g).parts.length = i
  room : i + args.length ≤ (w.groups g).size

theorem Filling.next {i arg : Nat} (filling : Filling w g i (arg :: args))
    (open_ : ¬(w.promises arg).isFinal = true) :
    Filling (andThen (noted w g) arg (some (.synchronizer g i .resolved))
      (some (.synchronizer g i .rejected))) g (i + 1) args := by
  have attaching : Attaching (Synchronizes g) (arg :: args) (noted w g) :=
    Attaching.note ⟨filling.tallied.sane, filling.owns, filling.below⟩ g _
  have handlers (how : Outcome) : Synchronizes g (.synchronizer g i how) := ⟨i, how, rfl⟩
  have attachedNext := attaching.andThen mem_cons_self (handlers .resolved)
    (handlers .rejected)
  have openNoted : ¬((noted w g).promises arg).isFinal = true := open_
  have groups := (andThen_groups (noted w g) arg (some (.synchronizer g i .resolved))
    (some (.synchronizer g i .rejected))).1
  have room := filling.room
  rw [length_cons] at room
  have counts := attached_counts filling.tallied.counts filling.index (by omega) arg
  have decides := attached_decides filling.tallied.sane filling.tallied.counts
    filling.tallied.decides g i arg
  obtain ⟨placed, decided⟩ := place_tallied w.count counts decides
    (by rw [attached]; dsimp only; rw [create_new]; exact nofun) arg
  refine ⟨⟨attachedNext.sane, ?_, ?_⟩, attachedNext.owns,
    fun other among => attachedNext.below other (mem_cons_of_mem _ among), ?_, ?_⟩
  · rw [andThen, if_neg openNoted]
    exact placed
  · rw [andThen, if_neg openNoted]
    exact decided
  · rw [groups, noted]
    dsimp only
    rw [update_self, length_append, length_singleton, filling.index]
  · rw [groups, noted]
    dsimp only
    rw [update_self]
    change i + 1 + args.length ≤ (w.groups g).size
    omega

theorem attachAll_tallied {i : Nat} (filling : Filling w g i args) :
    Tallied (attachAll g w i args) := by
  induction args generalizing w i with
  | nil => exact filling.tallied
  | cons arg args ih =>
    rw [attachAll]
    split_ifs with ends
    · exact filling.tallied
    · exact ih (filling.next ends)

def newGroup (w : World V) (size : Nat) : World V :=
  { create w (newPromise .combined none none) with
    groupCount := w.groupCount + 1
    groups := update w.groups w.groupCount
      { d := w.count, pending := size, results := fun _ => none, size := size, parts := [] } }

theorem newGroup_same (w : World V) (size : Nat) :
    (newGroup w size).groups w.groupCount =
      { d := w.count, pending := size, results := fun _ => none, size := size, parts := [] } := by
  rw [newGroup]
  dsimp only
  rw [update_self]

theorem newGroup_other (w : World V) (size : Nat) (other : g ≠ w.groupCount) :
    (newGroup w size).groups g = w.groups g := by
  rw [newGroup]
  dsimp only
  rw [update_of_ne other]

theorem newGroup_counts (sane : Sane w) (counts : Counts none w) (size : Nat) :
    Counts none (newGroup w size) := by
  have created := create_counts counts .combined none none (fun _ => ⟨rfl, rfl⟩)
    fun handler has => absurd has (by simp)
  set after := newGroup w size with is
  have same : after.groups w.groupCount = _ := newGroup_same w size
  have other {g : Nat} (apart : g ≠ w.groupCount) : after.groups g = w.groups g :=
    newGroup_other w size apart
  -- a group is the new one or an old one
  have either {g : Nat} (inside : g < after.groupCount) : g = w.groupCount ∨
      (g < w.groupCount ∧ after.groups g = w.groups g) := by
    rcases Nat.lt_succ_iff_lt_or_eq.mp inside with old | new
    · exact .inr ⟨old, other old.ne⟩
    · exact .inl new
  have owned {p : Nat} {outcome : Outcome} {handler : Handler}
      (has : (after.promises p).handler outcome = some handler) : Owns w handler := by
    by_cases new : p = w.count
    · rw [new] at has
      exact absurd (new_handler w .combined none none outcome has) (by simp)
    · apply sane.owns p outcome handler
      rw [← create_field w (newPromise .combined none none) (·.handler outcome) new]
      exact has
  refine ⟨?_, created.bare, ?_, ?_, ?_⟩
  · intro g inside
    rcases either inside with rfl | ⟨old, unchanged⟩
    · rw [same]
      exact ⟨⟨Nat.lt_succ_self _, congrArg Promise.kind (create_new w _)⟩, nofun, nofun,
        fun _ => rfl, Nat.zero_le _, (sub_zero _).symm⟩
    · rw [unchanged]
      exact (counts.tally g old).extend (Nat.le_succ _) fun x before => create_old w _ before
  · intro g first k second
    rcases either first with rfl | ⟨old, unchanged⟩
    · rcases either second with rfl | ⟨old', unchanged'⟩
      · exact fun _ => rfl
      · rw [same, unchanged']
        exact fun eq => absurd eq.symm (counts.tally k old').combined.1.ne
    · rcases either second with rfl | ⟨old', unchanged'⟩
      · rw [same, unchanged]
        exact fun eq => absurd eq (counts.tally g old).combined.1.ne
      · rw [unchanged, unchanged']
        exact counts.distinct g old k old'
  · intro p outcome d how has g inside
    rcases either inside with rfl | ⟨old, unchanged⟩
    · rw [same]
      rintro rfl
      exact absurd (owned has).1 (Nat.lt_irrefl _)
    · rw [unchanged]
      exact created.racer p outcome d how has g old
  · intro p outcome g i how has
    obtain ⟨which, at_⟩ := created.owner p outcome g i how has
    refine ⟨which, ?_⟩
    rw [other]
    · exact at_
    · rintro rfl
      exact absurd (owned has).1 (Nat.lt_irrefl _)

theorem newGroup_decides (sane : Sane w) (counts : Counts none w) (decides : Decides none w)
    (size : Nat) : Decides (some w.count) (newGroup w size) := by
  have created := create_decides sane counts decides .combined none none w.groups (fun _ => rfl)
    (fun _ => rfl) (fun _ => rfl) fun _ => rfl
  set after := newGroup w size with is
  have same : after.groups w.groupCount = _ := newGroup_same w size
  have either {g : Nat} (inside : g < after.groupCount) : g = w.groupCount ∨
      (g < w.groupCount ∧ after.groups g = w.groups g) := by
    rcases Nat.lt_succ_iff_lt_or_eq.mp inside with old | new
    · exact .inr ⟨old, newGroup_other w size old.ne⟩
    · exact .inl new
  have decided {g : Nat} (unchanged : after.groups g = w.groups g) (outcome : Outcome) :
      Decided after g outcome ↔ Decided w g outcome := by
    rw [Decided, unchanged]
    rfl
  refine ⟨created.queued, created.running, created.plainly, ?_, ?_, ?_⟩
  · intro g inside c among
    rcases either inside with rfl | ⟨old, unchanged⟩
    · rw [same]
      exact fun target => absurd target (sane.target c among).ne
    · rw [unchanged, decided unchanged]
      exact created.told g old c among
  · intro g inside state
    rcases either inside with rfl | ⟨old, unchanged⟩
    · rw [same]
      intro settled
      have new : (after.promises w.count).state = none := congrArg Promise.state (create_new w _)
      cases new.symm.trans settled
    · rw [unchanged, decided unchanged]
      exact created.settled g old state
  · intro g inside
    rcases either inside with rfl | ⟨old, unchanged⟩
    · rw [same]
      exact fun _ apart => absurd rfl apart
    · rw [unchanged]
      exact fun ended _ => created.posted g old ended (by rintro ⟨⟩)

theorem all_tallied (tallied : Tallied w) (below : ∀ arg ∈ args, arg < w.count) :
    Tallied (all w args) := by
  have attaching := all_attaching tallied.sane below
  have counts := newGroup_counts tallied.sane tallied.counts args.length
  have decides := newGroup_decides tallied.sane tallied.counts tallied.decides args.length
  have same := newGroup_same w args.length
  have allSane := all_sane tallied.sane below
  have owner {g : Nat} (inside : g < (newGroup w args.length).groupCount)
      (is : w.count = ((newGroup w args.length).groups g).d) : g = w.groupCount := by
    apply counts.distinct g inside w.groupCount (Nat.lt_succ_self _)
    rw [← is, same]
  rw [all] at allSane ⊢
  split_ifs at allSane ⊢ with empty
  · -- the promise of an empty list is told at once
    refine ⟨allSane, counts.beside _ _ _, decides.queued, decides.running, ?_, ?_,
      decides.settled, ?_⟩
    · intro c among
      rcases mem_append.mp among with old | new
      · exact decides.plainly c old
      · rw [mem_singleton.mp new]
        exact fun _ => rfl
    · intro g inside c among target
      rcases mem_append.mp among with old | new
      · exact decides.told g inside c old target
      · rw [mem_singleton.mp new] at target ⊢
        rw [owner inside target]
        refine ⟨rfl, ?_, .inl ?_⟩
        · exact (congrArg AllGroup.pending same).trans (congrArg Int.ofNat empty)
        · exact (congrArg AllGroup.size same).trans empty
    · intro g inside ended _
      by_cases here : w.count = ((newGroup w args.length).groups g).d
      · refine .inr ⟨_, mem_append_right _ mem_cons_self, here⟩
      · apply (decides.posted g inside ended fun eq => here (Option.some.inj eq)).imp_right
        rintro ⟨c, among, target⟩
        exact ⟨c, mem_append_left _ among, target⟩
  · apply attachAll_tallied
    refine ⟨⟨attaching.sane, counts, decides.place ?_⟩, attaching.owns, attaching.below, ?_, ?_⟩
    · intro g inside is ended
      rw [owner inside is, same] at ended
      exact absurd (Int.ofNat.inj ended) empty
    · exact congrArg (fun group => group.parts.length) same
    · rw [Nat.zero_add]
      exact (congrArg AllGroup.size same).ge

structure Racing (d : Nat) (args : List Nat) (w : World V) : Prop where
  attaching : Attaching (Races d) args w
  tallied : Tallied w
  apart : ∀ g < w.groupCount, (w.groups g).d ≠ d

theorem Racing.next {d arg : Nat} (racing : Racing d args w) (among : arg ∈ args) :
    Racing d args (andThen w arg (some (.racer d .resolved)) (some (.racer d .rejected))) := by
  obtain ⟨attaching, tallied, apart⟩ := racing
  have races : ∀ handler, some (Handler.racer d .resolved) = some handler ∨
      some (Handler.racer d .rejected) = some handler → Races d handler := by
    intro handler has
    rcases has with has | has
    · exact ⟨.resolved, (Option.some.inj has).symm⟩
    · exact ⟨.rejected, (Option.some.inj has).symm⟩
  obtain ⟨groups, groupCount⟩ := andThen_groups w arg (some (.racer d .resolved))
    (some (.racer d .rejected))
  refine ⟨attaching.andThen among ⟨_, rfl⟩ ⟨_, rfl⟩, ?_, ?_⟩
  · apply andThen_tallied tallied (attaching.below arg among)
    · exact fun handler has => attaching.owns handler (races handler has)
    · intro handler has
      obtain ⟨how, rfl⟩ := races handler has
      exact apart
  · rw [groups, groupCount]
    exact apart

theorem race_tallied (tallied : Tallied w) (below : ∀ arg ∈ args, arg < w.count) :
    Tallied (race w args) := by
  have counts := create_counts tallied.counts .combined none none (fun _ => ⟨rfl, rfl⟩)
    fun handler has => absurd has (by simp)
  have decides := create_decides tallied.sane tallied.counts tallied.decides .combined none none
    w.groups (fun _ => rfl) (fun _ => rfl) (fun _ => rfl) fun _ => rfl
  have attaching := race_attaching tallied.sane below
  apply (attachRace_keeps (Racing w.count args) w.count
    (fun after arg among racing => racing.next among) ?_).tallied
  refine ⟨attaching, ⟨attaching.sane, counts, decides⟩, ?_⟩
  exact fun g inside => (tallied.counts.tally g inside).combined.1.ne

/-! ## Events -/

theorem given_loose (given : Bool) (handler : Handler) (has : userHandler given = some handler) :
    Loose w handler := by
  cases given with
  | false => nomatch has
  | true => exact Option.some.inj has ▸ trivial

theorem final_tallied (tallied : Tallied w) {self : Nat} (below : self < w.count) (given : Bool) :
    Tallied (final w self (userHandler given)) := by
  have finalSane := final_sane tallied.sane below (user_owns given)
  rw [final] at finalSane ⊢
  split_ifs at finalSane ⊢ with ends
  · exact tallied
  have derived := andThen_tallied tallied below (userHandler given) (userHandler given)
    (fun handler has => user_owns given handler (has.elim id id))
    fun handler has => given_loose given handler (has.elim id id)
  refine ⟨finalSane, note_counts derived.counts ⟨rfl, rfl, rfl, rfl, rfl, rfl⟩ fun _ _ _ => rfl, ?_⟩
  apply note_decides derived.decides ?_ ⟨rfl, rfl, rfl, rfl, rfl, rfl⟩
  rw [andThen, if_neg ends]
  dsimp only
  split
  · rw [enqueue, modify_field _ _ _ (·.state) _ rfl, create_new]
    rfl
  · exact congrArg Promise.state (create_new w _)

theorem perform_tallied (tallied : Tallied w) {act : Act V} (can : possible w act = true) :
    Tallied (perform w act) := by
  have performed := perform_sane tallied.sane can
  cases act with
  | new =>
    refine ⟨performed, create_counts tallied.counts .made none none nofun
      fun handler has => absurd has (by simp), ?_⟩
    exact create_decides tallied.sane tallied.counts tallied.decides .made none none w.groups
      (fun _ => rfl) (fun _ => rfl) (fun _ => rfl) fun _ => rfl
  | call p outcome value =>
    simp only [possible, Bool.and_eq_true, decide_eq_true_eq] at can
    obtain ⟨⟨_, made⟩, _⟩ := can
    have other : (w.promises p).kind ≠ .combined := by
      rw [made]
      exact nofun
    refine ⟨performed, tallied.counts.beside _ _ _, post_decides tallied.decides _ ?_ ?_ _⟩
    · intro c among
      rw [mem_singleton.mp among]
      exact fun combined => absurd combined other
    · intro c among
      rw [mem_singleton.mp among]
      exact tallied.counts.not_d other
  | andThen p success failure =>
    apply andThen_tallied tallied (of_decide_eq_true can)
    · exact fun handler has => has.elim (user_owns success handler) (user_owns failure handler)
    · exact fun handler has => has.elim (given_loose success handler)
        (given_loose failure handler)
  | final p handler => exact final_tallied tallied (of_decide_eq_true can) handler
  | all args => exact all_tallied tallied (args_below w can)
  | race args => exact race_tallied tallied (args_below w can)

section Fires

variable {c : Closure V} {rest : List (Closure V)} (tallied : Tallied w)
  (queued : w.closures = c :: rest) (pending : (w.promises c.target).state = none)

include tallied queued pending

theorem fire_promise_tallied {q : Nat} (promise : c.value = .promise q) :
    Counts none (fire { w with closures := rest } c) ∧
      Decides none (fire { w with closures := rest } c) := by
  have among : c ∈ w.closures := queued ▸ mem_cons_self
  have other : (w.promises c.target).kind ≠ .combined := by
    intro combined
    have plain := tallied.decides.plainly c among combined
    rw [promise] at plain
    nomatch plain
  have apart := tallied.counts.not_d other
  have counts : Counts none { w with closures := rest } :=
    tallied.counts.beside _ _ _
  have decides := drop_decides tallied.decides queued
  by_cases self : q = c.target
  · rw [fire_self { w with closures := rest } pending (by rw [promise, self])]
    apply settle_tallies (counts.weaken _) decides
    exact fun g inside is => absurd is (apart g inside)
  cases settled : (w.promises q).state with
  | none =>
    rw [fire_pending { w with closures := rest } pending promise self settled]
    have notes : Notes { w with closures := rest } c.target
        fun promise => { promise with value := .promise q } := ⟨rfl, rfl, rfl, rfl, rfl, rfl⟩
    refine ⟨enqueue_counts (note_counts counts notes fun _ _ _ => rfl) _ _, ?_⟩
    apply (enqueue_decides (note_decides decides pending notes) q ?_).place
    · exact fun g inside is => absurd is (apart g inside)
    · rw [modify_same]
      exact other
  | some state =>
    rw [fire_adopts { w with closures := rest } pending promise self settled]
    apply settle_tallies (counts.weaken _) decides
    exact fun g inside is => absurd is (apart g inside)

theorem fire_plain_tallied (plain : c.value.isPromise = false) :
    Counts none (fire { w with closures := rest } c) ∧
      Decides none (fire { w with closures := rest } c) := by
  have among : c ∈ w.closures := queued ▸ mem_cons_self
  have dropped := drop_sane tallied.sane queued
  have counts : Counts none { w with closures := rest } :=
    tallied.counts.beside _ _ _
  have decides := drop_decides tallied.decides queued
  have notes : Notes { w with closures := rest } c.target fun promise =>
      { promise with value := c.value, got := some (c.outcome, c.value) } :=
    ⟨rfl, rfl, rfl, rfl, rfl, rfl⟩
  have notedDecides := note_decides decides pending notes
  -- the promise is counted only if it has a handler of `M.all`
  have notedCounts (loose : ∀ g i how, (w.promises c.target).handler c.outcome ≠
      some (.synchronizer g i how)) : Counts none (modify { w with closures := rest } c.target
        fun promise => { promise with value := c.value, got := some (c.outcome, c.value) }) := by
    apply note_counts counts notes
    intro g inside part
    obtain ⟨i, at_⟩ := getElem?_of_mem part
    exact absurd (((tallied.counts.tally g inside).part i c.target at_).2 c.outcome)
      (loose g i c.outcome)
  have handled {handler : Handler} (has : (w.promises c.target).handler c.outcome = some handler) :
      (w.promises c.target).kind ≠ .combined := by
    intro combined
    rw [tallied.counts.bare c.target combined c.outcome] at has
    nomatch has
  rw [fire_plain { w with closures := rest } pending plain]
  set before := modify { w with closures := rest } c.target fun promise =>
    { promise with value := c.value, got := some (c.outcome, c.value) } with is
  have target : before.promises c.target =
      { w.promises c.target with value := c.value, got := some (c.outcome, c.value) } :=
    modify_same _ _ _
  have unsettled : (before.promises c.target).state = none := by
    rw [target]
    exact pending
  cases has : (w.promises c.target).handler c.outcome with
  | none =>
    have counted := notedCounts fun g i how => has ▸ nofun
    apply settle_tallies (counted.weaken _) notedDecides
    exact fun g inside same => tallied.decides.told g inside c among same
  | some handler =>
    have other := handled has
    have apart := tallied.counts.not_d other
    cases handler with
    | user =>
      have counted := notedCounts fun g i how => has ▸ nofun
      refine ⟨counted.beside _ _ _, ?_⟩
      have settledPlace := notedDecides.place fun g inside same => absurd same (apart g inside)
      refine { settledPlace with running := ?_ }
      intro p outcome busy
      obtain ⟨rfl, rfl⟩ := Prod.mk.inj (Option.some.inj busy)
      change (before.promises c.target).kind ≠ .combined
      rw [target]
      exact other
    | synchronizer g i how =>
      obtain ⟨rfl, -⟩ := tallied.counts.owner c.target c.outcome g i how has
      have syncCounts := synchronized_counts dropped counts pending has c.value
      have syncDecides := synchronized_decides dropped counts pending has decides c.value
      have noted : (synchronized { w with closures := rest } c.target g i c.outcome
          c.value).promises c.target = before.promises c.target := by
        rw [synchronized_promises]
      apply ran_tallies syncCounts syncDecides
      · rw [noted]
        exact unsettled
      · rw [noted, target]
        exact other
    | racer d how =>
      have counted := notedCounts fun g i how => has ▸ nofun
      have toldCounts : Counts (some c.target) (tell before d how c.value) :=
        (counted.weaken _).beside _ _ _
      have toldDecides : Decides (some c.target) (tell before d how c.value) := by
        apply post_decides notedDecides
        · intro told new _
          rw [mem_singleton.mp new]
          exact plain
        · intro told new g inside
          rw [mem_singleton.mp new]
          exact (tallied.counts.racer c.target c.outcome d how has g inside).symm
      rw [handle]
      apply ran_tallies toldCounts toldDecides unsettled
      change (before.promises c.target).kind ≠ .combined
      rw [target]
      exact other

end Fires

theorem finish_tallied (tallied : Tallied w) {p : Nat} {outcome : Outcome} {result : Result V}
    (busy : w.busy = some (p, outcome)) (knows : known w result.value = true) :
    Tallied (finish w p outcome result) := by
  obtain ⟨-, pending, -⟩ := tallied.sane.busy p outcome busy
  have other := tallied.decides.running p outcome busy
  have counts : Counts (some p) { w with busy := none } :=
    (tallied.counts.weaken _).beside _ _ _
  have decides : Decides (some p) { w with busy := none } := by
    obtain ⟨queued, -, plainly, told, settled, posted⟩ := tallied.decides.weaken (some p)
    exact ⟨queued, nofun, plainly, told, settled, posted⟩
  have settled := ran_tallies counts decides pending other result
  cases result with
  | returned value =>
    exact ⟨finish_sane tallied.sane busy knows, (settled outcome value).1,
      (settled outcome value).2⟩
  | raised err =>
    exact ⟨finish_sane tallied.sane busy knows, (settled .rejected err).1,
      (settled .rejected err).2⟩

theorem step_tallied (tallied : Tallied w) {event : Event V} (stepped : step w event = some after) :
    Tallied after := by
  have sane := step_sane tallied.sane stepped
  cases event with
  | act act =>
    obtain ⟨can, rfl⟩ := step_act w stepped
    exact perform_tallied tallied can
  | drain =>
    obtain ⟨c, rest, idle, queued, rfl⟩ := step_drain w stepped
    have fired : Counts none (fire { w with closures := rest } c) ∧
        Decides none (fire { w with closures := rest } c) := by
      by_cases pending : (w.promises c.target).state = none
      · cases promise : c.value with
        | promise q => exact fire_promise_tallied tallied queued pending promise
        | _ => exact fire_plain_tallied tallied queued pending (by rw [promise]; rfl)
      · rw [fire_settled { w with closures := rest } c pending]
        refine ⟨tallied.counts.beside _ _ _, (drop_decides tallied.decides queued).place ?_⟩
        exact fun g inside _ _ => pending
    exact ⟨sane, fired.1, fired.2⟩
  | finish result =>
    obtain ⟨p, outcome, busy, knows, rfl⟩ := step_finish w stepped
    exact finish_tallied tallied busy knows

theorem reached_tallied {allowed : World V → Event V → Prop}
    (reached : Reaches step allowed (start : World V) w) : Tallied w := by
  apply reached.keeps Tallied ⟨start_sane, start_counts, start_decides⟩
  exact fun w event after tallied _ stepped => step_tallied tallied stepped

end Chuck.PromiseGroups
