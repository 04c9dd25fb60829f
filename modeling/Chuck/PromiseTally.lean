import Chuck.PromiseSane

/-!
# The countdown of `M.all`

What holds of the shared variables of `M.all` in every world. The promises that a group
derived are the ones with its handlers; `results` is what they were fired with, and
`pending` how many of the inputs have brought nothing yet. The promise that `M.all`
returned is told something by the handler that makes `pending` zero, and by nobody else.
-/

namespace Chuck.PromiseTally

open PromiseModel PromiseFrames PromiseSane Function List

variable {V : Type}
variable {cur : Option Nat} {p : Nat}

def firedCount (w : World V) (parts : List Nat) : Nat :=
  parts.countP fun p => (w.promises p).got.isSome

/-- The variables of a group follow from what its promises were fired with; `cur` is a
promise that is fired now. -/
structure Tally (cur : Option Nat) (w : World V) (g : Nat) (group : AllGroup V) : Prop where
  combined : group.d < w.count ∧ (w.promises group.d).kind = .combined
  part : ∀ i p, group.parts[i]? = some p → p < w.count ∧
    ∀ outcome, (w.promises p).handler outcome = some (.synchronizer g i outcome)
  fresh : ∀ p ∈ group.parts, cur ≠ some p →
    (w.promises p).state = none → (w.promises p).got = none
  results : ∀ i, group.results i = group.parts[i]?.bind fun p => (w.promises p).got
  size : group.parts.length ≤ group.size
  pending : group.pending = group.size - firedCount w group.parts

structure Counts (cur : Option Nat) (w : World V) : Prop where
  tally : ∀ g < w.groupCount, Tally cur w g (w.groups g)
  bare : ∀ x, (w.promises x).kind = .combined →
    ∀ outcome, (w.promises x).handler outcome = none
  distinct : ∀ g < w.groupCount, ∀ k < w.groupCount, (w.groups g).d = (w.groups k).d → g = k
  racer : ∀ p outcome d how, (w.promises p).handler outcome = some (.racer d how) →
    ∀ g < w.groupCount, (w.groups g).d ≠ d
  owner : ∀ p outcome g i how, (w.promises p).handler outcome = some (.synchronizer g i how) →
    how = outcome ∧ (w.groups g).parts[i]? = some p

def Decided (w : World V) (g : Nat) (outcome : Outcome) : Prop :=
  (w.groups g).pending = 0 ∧
    ((w.groups g).size = 0 ∨ ∃ i value, (w.groups g).results i = some (outcome, value))

/-- Only the end of a countdown tells a promise of `M.all` something; `cur` is a promise
for which a closure has just been taken. -/
structure Decides (cur : Option Nat) (w : World V) : Prop where
  queued : ∀ x, ∀ e ∈ (w.promises x).queue, (w.promises e).kind ≠ .combined
  running : ∀ p outcome, w.busy = some (p, outcome) → (w.promises p).kind ≠ .combined
  plainly : ∀ c ∈ w.closures, (w.promises c.target).kind = .combined → c.value.isPromise = false
  told : ∀ g < w.groupCount, ∀ c ∈ w.closures, c.target = (w.groups g).d →
    c.value = .results g ∧ Decided w g c.outcome
  settled : ∀ g < w.groupCount, ∀ state, (w.promises (w.groups g).d).state = some state →
    (w.promises (w.groups g).d).value = .results g ∧ Decided w g state
  posted : ∀ g < w.groupCount, (w.groups g).pending = 0 → cur ≠ some (w.groups g).d →
    (w.promises (w.groups g).d).state ≠ none ∨ ∃ c ∈ w.closures, c.target = (w.groups g).d

theorem start_counts : Counts none (start : World V) := by
  have bare : ∀ x outcome, ((start : World V).promises x).handler outcome = none := by
    intro x outcome
    cases outcome <;> rfl
  refine ⟨fun g below => absurd below (Nat.not_lt_zero g), fun x _ outcome => bare x outcome,
    fun g below => absurd below (Nat.not_lt_zero g), ?_, ?_⟩
  · intro p outcome d how has
    rw [bare] at has
    nomatch has
  · intro p outcome g i how has
    rw [bare] at has
    nomatch has

theorem start_decides : Decides none (start : World V) := by
  constructor
  · exact nofun
  · exact nofun
  · exact nofun
  · exact fun g below => absurd below (Nat.not_lt_zero g)
  · exact fun g below => absurd below (Nat.not_lt_zero g)
  · exact fun g below => absurd below (Nat.not_lt_zero g)

variable {w after : World V}

/-! ## Counts -/

section Tallies

variable {g : Nat} {group : AllGroup V}

theorem Tally.congr (tally : Tally cur w g group) (count : w.count ≤ after.count)
    (kind : (after.promises group.d).kind = (w.promises group.d).kind)
    (handlers : ∀ p ∈ group.parts, ∀ outcome,
      (after.promises p).handler outcome = (w.promises p).handler outcome)
    (gots : ∀ p ∈ group.parts, (after.promises p).got = (w.promises p).got)
    (states : ∀ p ∈ group.parts, (after.promises p).state = none → (w.promises p).state = none) :
    Tally cur after g group := by
  refine ⟨⟨tally.combined.1.trans_le count, kind.trans tally.combined.2⟩, ?_, ?_, ?_,
    tally.size, ?_⟩
  · intro i p at_
    obtain ⟨below, has⟩ := tally.part i p at_
    exact ⟨below.trans_le count, fun outcome =>
      (handlers p (mem_of_getElem? at_) outcome).trans (has outcome)⟩
  · intro p among apart pending
    exact (gots p among).trans (tally.fresh p among apart (states p among pending))
  · intro i
    refine (tally.results i).trans (Option.bind_congr fun p at_ => ?_)
    exact (gots p (mem_of_getElem? at_)).symm
  · rw [tally.pending, firedCount, firedCount]
    congr 2
    apply countP_congr
    intro p among
    rw [gots p among]

/-- New promises are nothing to a group. -/
theorem Tally.extend (tally : Tally cur w g group) (count : w.count ≤ after.count)
    (old : ∀ x < w.count, after.promises x = w.promises x) : Tally cur after g group := by
  have kept {p : Nat} (among : p ∈ group.parts) : after.promises p = w.promises p := by
    obtain ⟨i, at_⟩ := getElem?_of_mem among
    exact old p (tally.part i p at_).1
  refine tally.congr count (by rw [old _ tally.combined.1]) ?_ ?_ ?_
  all_goals
    intro p among
    rw [kept among]
  · exact fun _ => rfl
  · exact id

theorem Tally.append (tally : Tally cur w g group) (room : group.parts.length < group.size)
    (below : p < w.count) (handlers : ∀ outcome, (w.promises p).handler outcome =
      some (.synchronizer g group.parts.length outcome)) (unfired : (w.promises p).got = none) :
    Tally cur w g { group with parts := group.parts ++ [p] } := by
  have places {i x : Nat} (at_ : (group.parts ++ [p])[i]? = some x) :
      group.parts[i]? = some x ∨ i = group.parts.length ∧ x = p := by
    rw [getElem?_append] at at_
    split_ifs at at_ with inside
    · exact .inl at_
    · obtain ⟨first, is⟩ := List.getElem?_eq_some_iff.mp at_
      rw [length_singleton] at first
      rw [getElem_singleton] at is
      exact .inr ⟨by omega, is.symm⟩
  refine ⟨tally.combined, ?_, ?_, ?_, ?_, ?_⟩
  · intro i x at_
    rcases places at_ with old | ⟨rfl, rfl⟩
    · exact tally.part i x old
    · exact ⟨below, handlers⟩
  · intro x among apart
    rcases mem_append.mp among with old | new
    · exact tally.fresh x old apart
    · rw [mem_singleton.mp new]
      exact fun _ => unfired
  · intro i
    rw [tally.results i]
    cases at_ : (group.parts ++ [p])[i]? with
    | none => rw [getElem?_eq_none (by have := getElem?_eq_none_iff.mp at_; simp at this; omega)]
    | some x =>
      rcases places at_ with old | ⟨rfl, rfl⟩
      · rw [old]
      · rw [getElem?_eq_none le_rfl]
        exact unfired.symm
  · rw [length_append]
    exact room
  · rw [firedCount, countP_append, countP_singleton, unfired]
    exact tally.pending

theorem Tally.weaken (tally : Tally none w g group) (cur : Option Nat) : Tally cur w g group :=
  { tally with fresh := fun p among _ => tally.fresh p among nofun }

end Tallies

theorem Counts.congr (after : World V) (counts : Counts cur w) (groups : after.groups = w.groups)
    (groupCount : after.groupCount = w.groupCount) (count : after.count = w.count)
    (kinds : ∀ x, (after.promises x).kind = (w.promises x).kind)
    (handlers : ∀ x outcome, (after.promises x).handler outcome = (w.promises x).handler outcome)
    (gots : ∀ g < w.groupCount, ∀ p ∈ (w.groups g).parts,
      (after.promises p).got = (w.promises p).got)
    (states : ∀ x, (after.promises x).state = none → (w.promises x).state = none) :
    Counts cur after := by
  refine ⟨?_, ?_, ?_, ?_, ?_⟩
  · rw [groups, groupCount]
    exact fun g below => (counts.tally g below).congr count.ge (kinds _) (fun p _ => handlers p)
      (gots g below) fun p _ => states p
  · intro x
    rw [kinds]
    intro is outcome
    rw [handlers]
    exact counts.bare x is outcome
  · rw [groups, groupCount]
    exact counts.distinct
  · intro p outcome d how
    rw [handlers, groups, groupCount]
    exact counts.racer p outcome d how
  · intro p outcome g i how
    rw [handlers, groups]
    exact counts.owner p outcome g i how

theorem Counts.beside (counts : Counts cur w) (closures : List (Closure V))
    (calls : Nat → List (Outcome × Val V)) (busy : Option (Nat × Outcome)) :
    Counts cur { w with closures := closures, calls := calls, busy := busy } :=
  counts.congr _ rfl rfl rfl (fun _ => rfl) (fun _ _ => rfl) (fun _ _ _ _ => rfl) fun _ => id

theorem Counts.nodup (counts : Counts cur w) {g : Nat} (below : g < w.groupCount) :
    (w.groups g).parts.Nodup := by
  rw [nodup_iff_getElem?_ne_getElem?]
  intro i j before inside same
  have at_ := getElem?_eq_getElem inside
  have first := ((counts.tally g below).part j _ at_).2 .resolved
  have second := ((counts.tally g below).part i _ (same.trans at_)).2 .resolved
  rw [first] at second
  have equal := Option.some.inj second
  injection equal with _ here _
  omega

theorem firedCount_le (w : World V) (parts : List Nat) : firedCount w parts ≤ parts.length :=
  countP_le_length

theorem firedCount_fires {parts : List Nat} (nodup : parts.Nodup) (among : p ∈ parts)
    (others : ∀ x ∈ parts, x ≠ p → (after.promises x).got = (w.promises x).got)
    (before : (w.promises p).got = none) (now : (after.promises p).got ≠ none) :
    firedCount after parts = firedCount w parts + 1 := by
  induction parts with
  | nil => nomatch among
  | cons first parts ih =>
    rw [nodup_cons] at nodup
    by_cases same : first = p
    · have rest : firedCount after parts = firedCount w parts := by
        apply countP_congr
        intro x inside
        rw [others x (mem_cons_of_mem _ inside)]
        rintro rfl
        exact nodup.1 (same ▸ inside)
      rw [firedCount, firedCount, countP_cons_of_pos, countP_cons_of_neg]
      · exact congrArg (· + 1) rest
      · rw [same, before]
        exact Bool.false_ne_true
      · rw [same]
        exact Option.isSome_iff_ne_none.mpr now
    · have here := others first mem_cons_self same
      have rest := ih nodup.2 ((mem_cons.mp among).resolve_left (Ne.symm same))
        fun x inside => others x (mem_cons_of_mem _ inside)
      simp only [firedCount, countP_cons, here] at rest ⊢
      omega

theorem Counts.weaken (counts : Counts none w) (cur : Option Nat) : Counts cur w :=
  { counts with tally := fun g below => (counts.tally g below).weaken cur }

theorem Counts.place (counts : Counts (some p) w)
    (placed : (w.promises p).state = none → (w.promises p).got = none) : Counts none w := by
  refine { counts with tally := fun g below => { counts.tally g below with fresh := ?_ } }
  intro x among _ pending
  by_cases same : x = p
  · rw [same] at pending ⊢
    exact placed pending
  · exact (counts.tally g below).fresh x among (fun eq => same (Option.some.inj eq).symm) pending

theorem handler_congr {first second : Promise V} (success : first.success = second.success)
    (failure : first.failure = second.failure) (outcome : Outcome) :
    first.handler outcome = second.handler outcome := by
  cases outcome
  · exact success
  · exact failure

theorem note_counts (counts : Counts cur w) {f : Promise V → Promise V} (notes : Notes w p f)
    (uncounted : ∀ g < w.groupCount, p ∈ (w.groups g).parts →
      (f (w.promises p)).got = (w.promises p).got) : Counts cur (modify w p f) := by
  apply counts.congr (modify w p f) rfl rfl rfl
  · exact fun x => modify_field w p x (·.kind) f notes.kind
  · intro x
    exact handler_congr (modify_field w p x (·.success) f notes.success)
      (modify_field w p x (·.failure) f notes.failure)
  · intro g below x among
    by_cases same : x = p
    · rw [same] at among ⊢
      rw [modify_same]
      exact uncounted g below among
    · rw [modify_other w p f same]
  · intro x
    rw [modify_field w p x (·.state) f notes.state]
    exact id

theorem enqueue_counts (counts : Counts cur w) (p next : Nat) : Counts cur (enqueue w p next) := by
  rw [enqueue_eq]
  exact counts.congr _ rfl rfl rfl (fun _ => rfl) (fun _ _ => rfl) (fun _ _ _ _ => rfl) fun _ => id

theorem settle_counts (counts : Counts (some p) w) (state : Outcome) (value : Val V) :
    Counts none (settle w p state value) := by
  have decided := settle_state_same w p state value
  rw [settle_eq] at decided ⊢
  have kept := counts.congr { w with
      promises := settledPromise w p state value
      closures := w.closures ++ toldAll w p state value } rfl rfl rfl (fun _ => rfl)
    (fun x => settledPromise_handler state) fun _ _ _ _ => rfl
  apply Counts.place (kept ?_)
  · exact fun pending => absurd (decided.symm.trans pending) nofun
  · intro x (pending : (if x = p then some state else _) = none)
    split_ifs at pending
    exact pending

/-! ## Decisions -/

theorem Counts.not_d (counts : Counts cur w) {x : Nat} (other : (w.promises x).kind ≠ .combined) :
    ∀ g < w.groupCount, x ≠ (w.groups g).d := by
  intro g below same
  apply other
  rw [same]
  exact (counts.tally g below).combined.2

theorem Decides.weaken (decides : Decides none w) (cur : Option Nat) : Decides cur w :=
  { decides with posted := fun g below ended _ => decides.posted g below ended nofun }

theorem Decides.place (decides : Decides (some p) w)
    (placed : ∀ g < w.groupCount, p = (w.groups g).d → (w.groups g).pending = 0 →
      (w.promises p).state ≠ none) : Decides none w := by
  refine { decides with posted := ?_ }
  intro g below ended _
  by_cases same : p = (w.groups g).d
  · rw [← same]
    exact .inl (placed g below same ended)
  · exact decides.posted g below ended fun eq => same (Option.some.inj eq)

theorem enqueue_decides (decides : Decides cur w) (p : Nat) {next : Nat}
    (other : (w.promises next).kind ≠ .combined) : Decides cur (enqueue w p next) := by
  rw [enqueue_eq]
  refine { decides with queued := ?_ }
  intro x e among
  change e ∈ (if x = p then _ else _) at among
  split at among
  · rcases mem_append.mp among with old | new
    · exact decides.queued p e old
    · rw [mem_singleton.mp new]
      exact other
  · exact decides.queued x e among

theorem post_decides (decides : Decides cur w) (added : List (Closure V))
    (plain : ∀ c ∈ added, (w.promises c.target).kind = .combined → c.value.isPromise = false)
    (others : ∀ c ∈ added, ∀ g < w.groupCount, c.target ≠ (w.groups g).d)
    (calls : Nat → List (Outcome × Val V)) :
    Decides cur { w with closures := w.closures ++ added, calls := calls } := by
  refine ⟨decides.queued, decides.running, ?_, ?_, decides.settled, ?_⟩
  · exact fun c among => (mem_append.mp among).elim (decides.plainly c) (plain c)
  · intro g below c among target
    rcases mem_append.mp among with old | new
    · exact decides.told g below c old target
    · exact absurd target (others c new g below)
  · intro g below ended apart
    apply (decides.posted g below ended apart).imp_right
    rintro ⟨c, among, target⟩
    exact ⟨c, mem_append_left _ among, target⟩

theorem drop_decides {c : Closure V} {rest : List (Closure V)} (decides : Decides none w)
    (queued : w.closures = c :: rest) : Decides (some c.target) { w with closures := rest } := by
  have among {other : Closure V} (inside : other ∈ rest) : other ∈ w.closures :=
    queued ▸ mem_cons_of_mem _ inside
  refine ⟨decides.queued, decides.running, fun other inside => decides.plainly other (among inside),
    fun g below other inside => decides.told g below other (among inside), decides.settled, ?_⟩
  intro g below ended apart
  apply (decides.posted g below ended nofun).imp_right
  rintro ⟨other, inside, target⟩
  rw [queued] at inside
  rcases mem_cons.mp inside with same | inside
  · exact absurd (congrArg some (same ▸ target)) apart
  · exact ⟨other, inside, target⟩

theorem note_decides (decides : Decides cur w) (pending : (w.promises p).state = none)
    {f : Promise V → Promise V} (notes : Notes w p f) : Decides cur (modify w p f) := by
  have kinds (x : Nat) : ((modify w p f).promises x).kind = (w.promises x).kind :=
    modify_field w p x (·.kind) f notes.kind
  have states (x : Nat) : ((modify w p f).promises x).state = (w.promises x).state :=
    modify_field w p x (·.state) f notes.state
  constructor
  · intro x e
    rw [kinds, modify_field w p x (·.queue) f notes.queue]
    exact decides.queued x e
  · intro x outcome
    rw [kinds]
    exact decides.running x outcome
  · intro c among
    rw [kinds]
    exact decides.plainly c among
  · exact decides.told
  · intro g below state
    change ((modify w p f).promises (w.groups g).d).state = _ →
      ((modify w p f).promises (w.groups g).d).value = _ ∧ Decided w g state
    rw [states]
    intro is
    have other : (w.groups g).d ≠ p := by
      intro same
      rw [same, pending] at is
      nomatch is
    rw [modify_other w p f other]
    exact decides.settled g below state is
  · intro g below ended
    change _ → ((modify w p f).promises (w.groups g).d).state ≠ none ∨ _
    rw [states]
    exact decides.posted g below ended

theorem settle_decides (counts : Counts cur w) (decides : Decides (some p) w)
    (state : Outcome) (value : Val V)
    (fits : ∀ g < w.groupCount, p = (w.groups g).d → value = .results g ∧ Decided w g state) :
    Decides none (settle w p state value) := by
  rw [settle_eq]
  have queues (x e : Nat) (among : e ∈ settledQueue w p x value) :
      (w.promises e).kind ≠ .combined := by
    obtain ⟨y, there⟩ := settledQueue_from among
    exact decides.queued y e there
  -- a closure is an old one, or is for someone who waited
  have either {c : Closure V} (among : c ∈ w.closures ++ toldAll w p state value) :
      c ∈ w.closures ∨ (w.promises c.target).kind ≠ .combined :=
    (mem_append.mp among).imp_right fun told => queues p _ (mem_toldAll told).2.2.1
  constructor
  · exact queues
  · exact decides.running
  · exact fun c among is => decides.plainly c ((either among).resolve_right (absurd is)) is
  · intro g below c among target
    have old := (either among).resolve_right fun other => counts.not_d other g below target
    exact decides.told g below c old target
  · intro g below outcome is
    change (if (w.groups g).d = p then some state else _) = _ at is
    change (if (w.groups g).d = p then value else _) = _ ∧ _
    split_ifs at is ⊢ with same
    · rw [← Option.some.inj is]
      exact fits g below same.symm
    · exact decides.settled g below outcome is
  · intro g below ended _
    change (if (w.groups g).d = p then some state else _) ≠ none ∨ _
    split_ifs with same
    · exact .inl nofun
    · apply (decides.posted g below ended fun eq => same (Option.some.inj eq).symm).imp_right
      rintro ⟨c, among, target⟩
      exact ⟨c, mem_append_left _ among, target⟩

theorem settle_tallies (counts : Counts (some p) w) (decides : Decides (some p) w)
    (state : Outcome) (value : Val V)
    (fits : ∀ g < w.groupCount, p = (w.groups g).d → value = .results g ∧ Decided w g state) :
    Counts none (settle w p state value) ∧ Decides none (settle w p state value) :=
  ⟨settle_counts counts state value, settle_decides counts decides state value fits⟩

theorem ran_tallies (counts : Counts (some p) w) (decides : Decides (some p) w)
    (pending : (w.promises p).state = none) (other : (w.promises p).kind ≠ .combined)
    (result : Result V) (state : Outcome) (value : Val V) :
    Counts none (settle (noteRan w p result) p state value) ∧
      Decides none (settle (noteRan w p result) p state value) := by
  have notes : Notes w p fun promise => { promise with ran := promise.ran ++ [result] } :=
    ⟨rfl, rfl, rfl, rfl, rfl, rfl⟩
  apply settle_tallies (note_counts counts notes fun _ _ _ => rfl)
    (note_decides decides pending notes)
  exact fun g inside same => absurd same (counts.not_d other g inside)

/-! ## The handlers of `M.all` -/

/-- The world in which promise `t` of a group is fired, and its handler ran. -/
def synchronized (w : World V) (t g i : Nat) (how : Outcome) (value : Val V) : World V :=
  synchronize (modify w t fun promise => { promise with value := value, got := some (how, value) })
    g i how value

def counted (group : AllGroup V) (i : Nat) (how : Outcome) (value : Val V) : AllGroup V :=
  { group with
    results := update group.results i (some (how, value))
    pending := group.pending - 1 }

section Synchronizes

variable {t g i : Nat} {how : Outcome}

section

variable (w : World V) (t g i : Nat) (how : Outcome) (value : Val V)

theorem synchronized_groups :
    (synchronized w t g i how value).groups =
      update w.groups g (counted (w.groups g) i how value) := by
  rw [synchronized, synchronize]
  split_ifs <;> rfl

theorem synchronized_promises :
    (synchronized w t g i how value).promises =
      (modify w t fun promise =>
        { promise with value := value, got := some (how, value) }).promises :=
  synchronize_promises _ g i how value

theorem synchronized_rest :
    (synchronized w t g i how value).count = w.count ∧
      (synchronized w t g i how value).groupCount = w.groupCount ∧
      (synchronized w t g i how value).busy = w.busy := by
  rw [synchronized, synchronize]
  split_ifs <;> exact ⟨rfl, rfl, rfl⟩

theorem synchronized_closures :
    (synchronized w t g i how value).closures = w.closures ++
      if (w.groups g).pending - 1 = 0 then
        [{ target := (w.groups g).d, outcome := how, value := .results g, called := false }]
      else [] := by
  rw [synchronized, synchronize]
  by_cases last : (w.groups g).pending - 1 = 0
  · rw [if_pos last]
    exact congrArg World.closures (if_pos last)
  · rw [if_neg last, append_nil]
    apply (congrArg World.closures (if_neg last)).trans
    rfl

theorem synchronized_eq :
    synchronized w t g i how value = { w with
      promises := fun x => { w.promises x with
        value := if x = t then value else (w.promises x).value
        got := if x = t then some (how, value) else (w.promises x).got }
      groups := fun k => { w.groups k with
        results := if k = g then update (w.groups g).results i (some (how, value))
          else (w.groups k).results
        pending := if k = g then (w.groups g).pending - 1 else (w.groups k).pending }
      closures := w.closures ++ if (w.groups g).pending - 1 = 0 then
          [{ target := (w.groups g).d, outcome := how, value := .results g, called := false }]
        else [] } := by
  have groups : update w.groups g (counted (w.groups g) i how value) = fun k =>
      { w.groups k with
        results := if k = g then update (w.groups g).results i (some (how, value))
          else (w.groups k).results
        pending := if k = g then (w.groups g).pending - 1 else (w.groups k).pending } := by
    funext k
    by_cases here : k = g
    · rw [here, update_self, if_pos rfl, if_pos rfl, counted]
    · rw [update_of_ne here, if_neg here, if_neg here]
  rw [synchronized, synchronize, note_eq, ← groups]
  split_ifs
  · rfl
  · rw [append_nil]
    rfl

end

variable (sane : Sane w) (counts : Counts none w) (pending : (w.promises t).state = none)
  (has : (w.promises t).handler how = some (.synchronizer g i how))

include sane counts pending has

theorem some_pending : 0 < (w.groups g).pending := by
  obtain ⟨below, -⟩ := sane.owns t how _ has
  obtain ⟨-, at_⟩ := counts.owner t how g i how has
  have among := mem_of_getElem? at_
  have tally := counts.tally g below
  have unfired := tally.fresh t among nofun pending
  have fewer : firedCount w (w.groups g).parts < (w.groups g).parts.length := by
    apply lt_of_le_of_ne (firedCount_le w _)
    intro full
    have fired := countP_eq_length.mp full t among
    rw [unfired] at fired
    nomatch fired
  have size := tally.size
  rw [tally.pending]
  omega

theorem synchronized_counts (value : Val V) : Counts (some t) (synchronized w t g i how value) := by
  obtain ⟨below, -⟩ := sane.owns t how _ has
  obtain ⟨-, at_⟩ := counts.owner t how g i how has
  have among := mem_of_getElem? at_
  have unfired := (counts.tally g below).fresh t among nofun pending
  -- the fired promise is in one place only
  have alone {k j : Nat} (inside : k < w.groupCount) (placed : (w.groups k).parts[j]? = some t) :
      k = g ∧ j = i := by
    have elsewhere := ((counts.tally k inside).part j t placed).2 how
    rw [has] at elsewhere
    injection Option.some.inj elsewhere with group index _
    exact ⟨group.symm, index.symm⟩
  rw [synchronized_eq]
  refine ⟨fun k inside => ?_, counts.bare, counts.distinct, counts.racer, counts.owner⟩
  have tally := counts.tally k inside
  by_cases here : k = g
  · subst here
    simp only [if_true]
    refine ⟨tally.combined, tally.part, ?_, ?_, tally.size, ?_⟩
    · intro p inGroup apart unsettled
      refine (if_neg fun eq => ?_).trans (tally.fresh p inGroup nofun unsettled)
      exact apart (congrArg some eq.symm)
    · intro j
      by_cases last : j = i
      · rw [last]
        dsimp only
        rw [update_self, at_, Option.bind_some, if_pos rfl]
      · refine ((update_of_ne last ..).trans (tally.results j)).trans (Option.bind_congr ?_)
        exact fun p placed => (if_neg fun eq => last (alone inside (eq ▸ placed)).2).symm
    · rw [firedCount_fires (w := w) (p := t) (counts.nodup below) among
        (fun x _ apart => if_neg apart) unfired
        (ne_of_eq_of_ne (if_pos rfl) (Option.some_ne_none _)), tally.pending]
      dsimp only
      omega
  · simp only [if_neg here]
    refine (tally.weaken _).congr le_rfl rfl (fun _ _ _ => rfl)
      (fun p inGroup => if_neg fun eq => ?_)
      fun _ _ => id
    obtain ⟨j, placed⟩ := getElem?_of_mem inGroup
    exact here (alone inside (eq ▸ placed)).1

theorem synchronized_decides (decides : Decides (some t) w) (value : Val V) :
    Decides (some t) (synchronized w t g i how value) := by
  obtain ⟨below, -⟩ := sane.owns t how _ has
  have positive := some_pending sane counts pending has
  have undecided (outcome : Outcome) : ¬Decided w g outcome := fun decided => by
    rw [decided.1] at positive
    omega
  have decided {k : Nat} (apart : k ≠ g) (outcome : Outcome) :
      Decided (synchronized w t g i how value) k outcome ↔ Decided w k outcome := by
    rw [synchronized_eq, Decided, Decided]
    simp only [if_neg apart]
  have ends (last : (w.groups g).pending - 1 = 0) :
      Decided (synchronized w t g i how value) g how := by
    rw [synchronized_eq, Decided]
    simp only [if_true]
    exact ⟨last, .inr ⟨i, value, update_self ..⟩⟩
  rw [synchronized_eq] at decided ends ⊢
  -- a new closure tells the outcome of this handler, as the last one
  have told : ∀ c ∈ w.closures ++ (if (w.groups g).pending - 1 = 0 then
      [{ target := (w.groups g).d, outcome := how, value := .results g, called := false }]
      else []), c ∈ w.closures ∨ (c.target = (w.groups g).d ∧
      c.outcome = how ∧ c.value = .results g ∧ (w.groups g).pending - 1 = 0) := by
    intro c among
    apply (mem_append.mp among).imp_right
    intro new
    split_ifs at new with last
    · rw [mem_singleton.mp new]
      exact ⟨rfl, rfl, rfl, last⟩
    · nomatch new
  refine ⟨decides.queued, decides.running, ?_, ?_, ?_, ?_⟩
  · intro c among
    rcases told c among with old | ⟨_, _, value, _⟩
    · exact decides.plainly c old
    · intro _
      rw [value]
      rfl
  · intro k inside c among target
    by_cases here : k = g
    · rw [here] at target ⊢
      rcases told c among with old | ⟨_, outcome, value, last⟩
      · exact absurd (decides.told g below c old target).2 (undecided _)
      · rw [outcome]
        exact ⟨value, ends last⟩
    · rw [decided here]
      rcases told c among with old | ⟨d, _⟩
      · exact decides.told k inside c old target
      · exact absurd (counts.distinct k inside g below (target.symm.trans d)) here
  · intro k inside state settled
    have before := decides.settled k inside state settled
    have here : k ≠ g := by
      rintro rfl
      exact undecided state before.2
    rw [decided here]
    have elsewhere : (w.groups k).d ≠ t := by
      intro eq
      change (w.promises (w.groups k).d).state = some state at settled
      rw [eq, pending] at settled
      nomatch settled
    exact ⟨(if_neg elsewhere).trans before.1, before.2⟩
  · intro k inside ended apart
    dsimp only at ended
    by_cases here : k = g
    · rw [if_pos here] at ended
      refine .inr ⟨⟨(w.groups g).d, how, .results g, false⟩, ?_, by rw [here]⟩
      rw [if_pos ended]
      exact mem_append_right _ mem_cons_self
    · rw [if_neg here] at ended
      apply (decides.posted k inside ended apart).imp_right
      rintro ⟨c, among, target⟩
      exact ⟨c, mem_append_left _ among, target⟩

end Synchronizes

end Chuck.PromiseTally
