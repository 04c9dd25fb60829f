import Mathlib.Data.List.Basic

/-!
# Machines that read one item at a time

A step reads its item and goes on in a next state or stops with a final value,
or it stops and leaves the item unread. Running such a machine over a list can
be cut anywhere (`run_append`), so two runs are compared step by step
(`run_simulation`) and a property of the state is followed along a run
(`run_all`).
-/

namespace Chuck.Support.StreamMachine

variable {State Other Item Final : Type*}

inductive Next (State Final : Type*) where
  | more (state : State)
  | stop (final : Final)

inductive Step (State Final : Type*) where
  | read (next : Next State Final)
  | refuse (final : Final)

inductive Outcome (State Item Final : Type*) where
  | more (state : State)
  | stop (final : Final) (left : List Item)

def run (step : State → Item → Step State Final) : State → List Item → Outcome State Item Final
  | state, [] => .more state
  | state, item :: rest =>
    match step state item with
    | .read (.more next) => run step next rest
    | .read (.stop final) => .stop final rest
    | .refuse final => .stop final (item :: rest)

def proceed (step : State → Item → Step State Final) :
    Next State Final → List Item → Outcome State Item Final
  | .more next, rest => run step next rest
  | .stop final, rest => .stop final rest

def extend (step : State → Item → Step State Final) :
    Outcome State Item Final → List Item → Outcome State Item Final
  | .more state, rest => run step state rest
  | .stop final left, rest => .stop final (left ++ rest)

variable (step : State → Item → Step State Final)

theorem run_read {state : State} {item : Item} {next : Next State Final}
    (taken : step state item = .read next) (rest : List Item) :
    run step state (item :: rest) = proceed step next rest := by
  cases next <;> simp only [run, taken, proceed]

theorem run_refuse {state : State} {item : Item} {final : Final}
    (taken : step state item = .refuse final) (rest : List Item) :
    run step state (item :: rest) = .stop final (item :: rest) := by
  simp only [run, taken]

theorem run_append (state : State) (front back : List Item) :
    run step state (front ++ back) = extend step (run step state front) back := by
  induction front generalizing state with
  | nil => rfl
  | cons item front ih =>
    cases taken : step state item with
    | read next =>
      rw [List.cons_append, run_read step taken, run_read step taken]
      cases next with
      | more next => exact ih next
      | stop final => rfl
    | refuse final => rw [List.cons_append, run_refuse step taken, run_refuse step taken]; rfl

/-! ## Invariants -/

inductive Next.All (Inv : State → Prop) (Post : Final → Prop) : Next State Final → Prop where
  | more (state : State) (holds : Inv state) : Next.All Inv Post (.more state)
  | stop (final : Final) (holds : Post final) : Next.All Inv Post (.stop final)

inductive Step.All (Inv : State → Prop) (Post : Final → Prop) : Step State Final → Prop where
  | read (next : Next State Final) (holds : next.All Inv Post) : Step.All Inv Post (.read next)
  | refuse (final : Final) (holds : Post final) : Step.All Inv Post (.refuse final)

inductive Outcome.All (Inv : State → Prop) (Post : Final → Prop) :
    Outcome State Item Final → Prop where
  | more (state : State) (holds : Inv state) : Outcome.All Inv Post (.more state)
  | stop (final : Final) (left : List Item) (holds : Post final) :
      Outcome.All Inv Post (.stop final left)

section All

variable {step} {Inv Other : State → Prop} {Post Rest : Final → Prop} {state next : State}
  {final : Final}

theorem Next.All.imp {next : Next State Final} (all : next.All Inv Post)
    (goes : ∀ state, Inv state → Other state) (stops : ∀ final, Post final → Rest final) :
    next.All Other Rest := by
  cases all with
  | more state holds => exact .more state (goes state holds)
  | stop final holds => exact .stop final (stops final holds)

theorem Step.All.imp {taken : Step State Final} (all : taken.All Inv Post)
    (goes : ∀ state, Inv state → Other state) (stops : ∀ final, Post final → Rest final) :
    taken.All Other Rest := by
  cases all with
  | read next holds => exact .read next (holds.imp goes stops)
  | refuse final holds => exact .refuse final (stops final holds)

theorem Step.All.and {taken : Step State Final} (all : taken.All Inv Post)
    (others : taken.All Other Rest) :
    taken.All (fun state => Inv state ∧ Other state) fun final => Post final ∧ Rest final := by
  cases all with
  | refuse final holds =>
    cases others with
    | refuse _ also => exact .refuse final ⟨holds, also⟩
  | read next holds =>
    cases others with
    | read _ also =>
      cases holds with
      | more state holds =>
        cases also with
        | more _ also => exact .read _ (.more state ⟨holds, also⟩)
      | stop final holds =>
        cases also with
        | stop _ also => exact .read _ (.stop final ⟨holds, also⟩)

theorem Step.All.more {item : Item} (all : (step state item).All Inv Post)
    (taken : step state item = .read (.more next)) : Inv next := by
  rw [taken] at all
  cases all with
  | read _ all =>
    cases all with
    | more _ holds => exact holds

theorem Outcome.All.paused {items : List Item} (all : (run step state items).All Inv Post)
    (paused : run step state items = .more next) : Inv next := by
  rw [paused] at all
  cases all with
  | more _ holds => exact holds

theorem Outcome.All.stopped {items left : List Item} (all : (run step state items).All Inv Post)
    (stopped : run step state items = .stop final left) : Post final := by
  rw [stopped] at all
  cases all with
  | stop _ _ holds => exact holds

end All

/-- If every item of a run meets a guard in the state it is read in, a state
property that guarded steps keep holds wherever the run pauses, and what guarded
last steps establish holds wherever it stops. -/
theorem run_guarded (Guard : State → Item → Prop) {Inv : State → Prop} {Post : Final → Prop}
    (steps : ∀ state item, Inv state → Guard state item → (step state item).All Inv Post)
    {state : State} (holds : Inv state) (items : List Item)
    (guarded : ∀ front item back next, items = front ++ item :: back →
      run step state front = .more next → Guard next item) :
    (run step state items).All Inv Post := by
  induction items generalizing state with
  | nil => exact .more _ holds
  | cons item items ih =>
    have all := steps state item holds (guarded [] item items state rfl rfl)
    generalize taken : step state item = found at all
    cases all with
    | refuse final post =>
      rw [run_refuse step taken]
      exact .stop _ _ post
    | read next all =>
      rw [run_read step taken]
      cases all with
      | stop final post => exact .stop _ _ post
      | more next inv =>
        refine ih inv ?_
        intro front other back reached split ran
        refine guarded (item :: front) other back reached (by rw [split]; rfl) ?_
        rw [run_read step taken]
        exact ran

theorem run_all {Inv : State → Prop} {Post : Final → Prop}
    (steps : ∀ state item, Inv state → (step state item).All Inv Post) {state : State}
    (holds : Inv state) (items : List Item) : (run step state items).All Inv Post :=
  run_guarded step (fun _ _ => True) (fun state item inv _ => steps state item inv) holds items
    fun _ _ _ _ _ _ => trivial

/-- A property of the state and of the items read so far that every step keeps. -/
theorem run_history (Inv : List Item → State → Prop)
    (stepMore : ∀ front state item next, Inv front state →
      step state item = .read (.more next) → Inv (front ++ [item]) next)
    (state next : State) (front items : List Item) (holds : Inv front state)
    (ran : run step state items = .more next) : Inv (front ++ items) next := by
  induction items generalizing state front with
  | nil =>
    cases ran
    rwa [List.append_nil]
  | cons item items ih =>
    cases taken : step state item with
    | refuse final => rw [run_refuse step taken] at ran; cases ran
    | read onward =>
      rw [run_read step taken] at ran
      cases onward with
      | stop final => cases ran
      | more after =>
        rw [List.append_cons]
        exact ih after _ (stepMore front state item after holds taken) ran

theorem run_left_length (state : State) (items : List Item) (final : Final) (left : List Item)
    (stopped : run step state items = .stop final left) : left.length ≤ items.length := by
  induction items generalizing state with
  | nil => cases stopped
  | cons item items ih =>
    cases taken : step state item with
    | read next =>
      rw [run_read step taken] at stopped
      cases next with
      | more next => exact Nat.le_succ_of_le (ih next stopped)
      | stop final => cases stopped; exact Nat.le_succ _
    | refuse final => rw [run_refuse step taken] at stopped; cases stopped; exact Nat.le_refl _

inductive NextRel (Rel : State → Other → Prop) (Fin : Final → Final → Prop) :
    Next State Final → Next Other Final → Prop where
  | more (left : State) (right : Other) (related : Rel left right) :
      NextRel Rel Fin (.more left) (.more right)
  | stop (left right : Final) (related : Fin left right) :
      NextRel Rel Fin (.stop left) (.stop right)

/-- Two steps that agree on what is read and are related in what they reach. -/
inductive StepRel (Rel : State → Other → Prop) (Fin : Final → Final → Prop) :
    Step State Final → Step Other Final → Prop where
  | read (left : Next State Final) (right : Next Other Final)
      (related : NextRel Rel Fin left right) : StepRel Rel Fin (.read left) (.read right)
  | refuse (left right : Final) (related : Fin left right) :
      StepRel Rel Fin (.refuse left) (.refuse right)

theorem StepRel.mono {Rel Weak : State → Other → Prop} {Fin : Final → Final → Prop}
    {left : Step State Final} {right : Step Other Final}
    (weaken : ∀ left right, Rel left right → Weak left right)
    (related : StepRel Rel Fin left right) : StepRel Weak Fin left right := by
  cases related with
  | read left right related =>
    cases related with
    | more left right related => exact .read _ _ (.more left right (weaken left right related))
    | stop left right related => exact .read _ _ (.stop left right related)
  | refuse left right related => exact .refuse left right related

inductive OutcomeRel (Rel : State → Other → Prop) (Fin : Final → Final → Prop) :
    Outcome State Item Final → Outcome Other Item Final → Prop where
  | more (left : State) (right : Other) (related : Rel left right) :
      OutcomeRel Rel Fin (.more left) (.more right)
  | stop (left right : Final) (rest : List Item) (related : Fin left right) :
      OutcomeRel Rel Fin (.stop left rest) (.stop right rest)

theorem OutcomeRel.mono {Rel Weak : State → Other → Prop} {Fin : Final → Final → Prop}
    {left : Outcome State Item Final} {right : Outcome Other Item Final}
    (weaken : ∀ left right, Rel left right → Weak left right)
    (related : OutcomeRel Rel Fin left right) : OutcomeRel Weak Fin left right := by
  cases related with
  | more left right related => exact .more left right (weaken left right related)
  | stop left right rest related => exact .stop left right rest related

section

variable (other : Other → Item → Step Other Final) (Rel : State → Other → Prop)
  (Fin : Final → Final → Prop)
  (lockstep : ∀ left right item, Rel left right →
    StepRel Rel Fin (step left item) (other right item))

include lockstep

theorem run_simulation
    (left : State) (right : Other) (items : List Item) (related : Rel left right) :
    OutcomeRel Rel Fin (run step left items) (run other right items) := by
  induction items generalizing left right with
  | nil => exact .more left right related
  | cons item items ih =>
    have agreed := lockstep left right item related
    generalize takenLeft : step left item = first at agreed
    generalize takenRight : other right item = second at agreed
    cases agreed with
    | read nextLeft nextRight next =>
      rw [run_read step takenLeft, run_read other takenRight]
      cases next with
      | more left right next => exact ih left right next
      | stop left right final => exact .stop left right items final
    | refuse finalLeft finalRight final =>
      rw [run_refuse step takenLeft, run_refuse other takenRight]
      exact .stop finalLeft finalRight _ final

theorem proceed_simulation {left : Next State Final} {right : Next Other Final}
    (related : NextRel Rel Fin left right) (items : List Item) :
    OutcomeRel Rel Fin (proceed step left items) (proceed other right items) := by
  cases related with
  | more left right next => exact run_simulation step other Rel Fin lockstep left right items next
  | stop left right final => exact .stop left right items final

end

end Chuck.Support.StreamMachine
