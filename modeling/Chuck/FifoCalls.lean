import Chuck.FifoModel

/-!
# Calls of any number of fifos

Whatever is called in between for other fifos, the answers of a fifo are those of a queue
of its own, and the items of all of them and of the pool are separate chains.
-/

namespace Chuck.FifoCalls

open FifoModel

variable {Slot V : Type}

/-- What can be called for a fifo; a value that is pushed is not nil or false. -/
inductive Call (V : Type) where
  | push (v : V)
  | pop
  | empty
  | clear

inductive Answer (V : Type) where
  | nothing
  | popped (v : Option V)
  | isEmpty (b : Bool)

/-! ## One queue -/

def answer : List V → Call V → Answer V × List V
  | values, .push v => (.nothing, values ++ [v])
  | values, .pop => (.popped values.head?, values.tail)
  | values, .empty => (.isEmpty values.isEmpty, values)
  | _, .clear => (.nothing, [])

def answers : List V → List (Call V) → List (Answer V) × List V
  | values, [] => ([], values)
  | values, call :: calls =>
    let (out, values) := answer values call
    let (outs, values) := answers values calls
    (out :: outs, values)

/-! ## All fifos -/

variable [DecidableEq Slot]

def clearLoop (slot : Slot) : Nat → Fifos Slot V → Option (Fifos Slot V)
  | 0, _ => none
  | fuel + 1, f =>
    match fifoPop f slot with
    | (none, f) => some f
    | (some _, f) => clearLoop slot fuel f

/-- A fifo has at most as many items as were made, so that is enough fuel. -/
def perform (f : Fifos Slot V) (slot : Slot) : Call V → Option (Answer V × Fifos Slot V)
  | .push v => some (.nothing, fifoPush f slot v)
  | .pop => some (.popped (fifoPop f slot).1, (fifoPop f slot).2)
  | .empty => some (.isEmpty (fifoEmpty f slot), f)
  | .clear => (clearLoop slot (f.made + 1) f).map fun f => (.nothing, f)

def performAll : Fifos Slot V → List (Slot × Call V) →
    Option (List (Slot × Answer V) × Fifos Slot V)
  | f, [] => some ([], f)
  | f, (slot, call) :: calls => do
    let (out, f) ← perform f slot call
    let (outs, f) ← performAll f calls
    some ((slot, out) :: outs, f)

def onSlot {α : Type} (slot : Slot) (log : List (Slot × α)) : List α :=
  (log.filter (·.1 = slot)).map (·.2)

section Runs

variable {f : Fifos Slot V} {lists : Slot → List V}

theorem clear_loop (slot : Slot) (fuel : Nat) (holds : Holds f lists)
    (enough : (lists slot).length < fuel) :
    ∃ after, clearLoop slot fuel f = some after ∧ Holds after (Function.update lists slot []) := by
  induction fuel generalizing f lists with
  | zero => exact absurd enough (Nat.not_lt_zero _)
  | succ fuel ih =>
    rw [clearLoop]
    cases listed : lists slot with
    | nil =>
      rw [fifo_pop_nil holds listed, ← listed, Function.update_eq_self]
      exact ⟨f, rfl, holds⟩
    | cons v rest =>
      obtain ⟨after, popped, left⟩ := fifo_pop_cons holds listed
      rw [listed, List.length_cons] at enough
      obtain ⟨last, ran, cleared⟩ := ih left (by rw [Function.update_self]; omega)
      rw [Function.update_idem] at cleared
      rw [popped]
      exact ⟨last, ran, cleared⟩

theorem perform_holds (holds : Holds f lists) (slot : Slot) (call : Call V) :
    ∃ after, perform f slot call = some ((answer (lists slot) call).1, after) ∧
      Holds after (Function.update lists slot (answer (lists slot) call).2) := by
  cases call with
  | push v => exact ⟨_, rfl, fifo_push holds v⟩
  | pop =>
    rw [perform]
    cases listed : lists slot with
    | nil =>
      rw [fifo_pop_nil holds listed]
      refine ⟨f, rfl, ?_⟩
      rw [answer, List.tail_nil, ← listed, Function.update_eq_self]
      exact holds
    | cons v rest =>
      obtain ⟨after, popped, left⟩ := fifo_pop_cons holds listed
      rw [popped]
      exact ⟨after, rfl, left⟩
  | empty =>
    refine ⟨f, ?_, ?_⟩
    · have same : fifoEmpty f slot = (lists slot).isEmpty := by
        rw [Bool.eq_iff_iff, fifo_empty holds, List.isEmpty_iff]
      rw [perform, answer, same]
    · rw [answer, Function.update_eq_self]
      exact holds
  | clear =>
    obtain ⟨after, ran, cleared⟩ :=
      clear_loop slot (f.made + 1) holds (Nat.lt_succ_of_le (fifo_length holds))
    refine ⟨after, ?_, cleared⟩
    rw [perform, ran]
    rfl

theorem perform_all_holds (calls : List (Slot × Call V)) (holds : Holds f lists) :
    ∃ log after, performAll f calls = some (log, after) ∧
      (∀ slot, onSlot slot log = (answers (lists slot) (onSlot slot calls)).1) ∧
      Holds after fun slot => (answers (lists slot) (onSlot slot calls)).2 := by
  induction calls generalizing f lists with
  | nil => exact ⟨[], f, rfl, fun _ => rfl, holds⟩
  | cons first calls ih =>
    obtain ⟨slot, call⟩ := first
    obtain ⟨middle, ran, held⟩ := perform_holds holds slot call
    obtain ⟨log, after, rest, logged, left⟩ := ih held
    have split (other : Slot) : answers (lists other) (onSlot other ((slot, call) :: calls)) =
        if slot = other then
          ((answer (lists slot) call).1 ::
            (answers (answer (lists slot) call).2 (onSlot other calls)).1,
            (answers (answer (lists slot) call).2 (onSlot other calls)).2)
        else answers (lists other) (onSlot other calls) := by
      split_ifs with same
      · subst same
        simp [onSlot, answers]
      · simp [onSlot, same]
    refine ⟨(slot, (answer (lists slot) call).1) :: log, after, ?_, fun other => ?_, ?_⟩
    · simp only [performAll, ran, rest, Option.bind_eq_bind, Option.bind_some]
    · rw [split]
      by_cases same : slot = other
      · subst same
        have own := logged slot
        rw [Function.update_self] at own
        simp only [onSlot, List.filter_cons, decide_true, if_true, List.map_cons] at own ⊢
        rw [own]
      · have own := logged other
        rw [Function.update_of_ne (Ne.symm same)] at own
        simpa [onSlot, same] using own
    · convert left using 1
      funext other
      rw [split]
      split_ifs with same
      · subst same
        rw [Function.update_self]
      · rw [Function.update_of_ne (Ne.symm same)]

end Runs

/-- The calls of one fifo are answered as if it were alone. The items of the fifos and of
the pool are chains apart from each other, and the tail of a fifo is the last of its own. -/
theorem fifos_independent (calls : List (Slot × Call V)) :
    ∃ log f items, performAll (Fifos.empty : Fifos Slot V) calls = some (log, f) ∧ Layout f items ∧
      ∀ slot, onSlot slot log = (answers [] (onSlot slot calls)).1 ∧
        (items (some slot)).map f.v = (answers [] (onSlot slot calls)).2.map some ∧
        (f.tail slot = none ↔ f.head slot = none) := by
  obtain ⟨log, f, ran, logged, items, layout, values⟩ := perform_all_holds calls empty_holds
  refine ⟨log, f, items, ran, layout, fun slot => ⟨logged slot, values slot, ?_⟩⟩
  rw [layout.tail, (layout.linked slot).nil_iff, List.getLast?_eq_none_iff]

end Chuck.FifoCalls
