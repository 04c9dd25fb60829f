import Mathlib.Tactic

/-!
# Runs of a machine whose steps may fault

A step returns nothing where the machine would fault. An invariant from which
every allowed step goes on, and which it keeps, holds in every state of every
run, and no run faults.
-/

namespace Chuck.Support.FaultFreeRuns

variable {State Input : Type}

section Runs

variable (step : State → Input → Option State) (allowed : State → Input → Prop) (start : State)

/-- The states of the runs whose inputs are allowed where they occur. -/
inductive Reaches : State → Prop where
  | start : Reaches start
  | next {s after : State} (input : Input) (before : Reaches s) (allows : allowed s input)
      (stepped : step s input = some after) : Reaches after

structure Carries (inv : State → Prop) : Prop where
  start : inv start
  step : ∀ s input, inv s → allowed s input → ∃ after, step s input = some after ∧ inv after

end Runs

variable {step : State → Input → Option State} {allowed : State → Input → Prop} {start : State}
  {inv : State → Prop}

theorem Reaches.keeps {s : State} (reached : Reaches step allowed start s)
    (kept : State → Prop) (holds : kept start)
    (keeps : ∀ s input after, kept s → allowed s input → step s input = some after → kept after) :
    kept s := by
  induction reached with
  | start => exact holds
  | next input before allows stepped ih => exact keeps _ input _ ih allows stepped

theorem Carries.invariant (carries : Carries step allowed start inv) {s : State}
    (reached : Reaches step allowed start s) : inv s := by
  apply reached.keeps inv carries.start
  intro s input after holds allows stepped
  obtain ⟨result, ran, kept⟩ := carries.step s input holds allows
  rw [stepped] at ran
  exact Option.some.inj ran ▸ kept

theorem Carries.goes_on (carries : Carries step allowed start inv) {s : State} {input : Input}
    (reached : Reaches step allowed start s) (allows : allowed s input) :
    ∃ after, step s input = some after ∧ inv after :=
  carries.step s input (carries.invariant reached) allows

/-! ## Runs over a list of inputs -/

section Lists

variable (step : State → Input → Option State) (allowed : State → Input → Prop)

def run : State → List Input → Option State
  | s, [] => some s
  | s, input :: inputs => (step s input).bind fun after => run after inputs

def runAllowed [∀ s input, Decidable (allowed s input)] : State → List Input → Bool
  | _, [] => true
  | s, input :: inputs =>
    decide (allowed s input) &&
      match step s input with
      | some after => runAllowed after inputs
      | none => true

end Lists

theorem run_append (s : State) (first second : List Input) :
    run step s (first ++ second) = (run step s first).bind fun after => run step after second := by
  induction first generalizing s with
  | nil => rfl
  | cons input first ih =>
    rw [List.cons_append, run, run, Option.bind_assoc]
    apply Option.bind_congr
    exact fun after _ => ih after

theorem Reaches.run [∀ s input, Decidable (allowed s input)] (inputs : List Input) {s after : State}
    (reached : Reaches step allowed start s) (allows : runAllowed step allowed s inputs = true)
    (ran : run step s inputs = some after) : Reaches step allowed start after := by
  induction inputs generalizing s with
  | nil => exact Option.some.inj ran ▸ reached
  | cons input inputs ih =>
    rw [runAllowed, Bool.and_eq_true, decide_eq_true_eq] at allows
    rw [FaultFreeRuns.run] at ran
    cases stepped : step s input with
    | none => simp [stepped] at ran
    | some middle =>
      rw [stepped] at allows ran
      exact ih (.next input reached allows.1 stepped) allows.2 ran

end Chuck.Support.FaultFreeRuns
