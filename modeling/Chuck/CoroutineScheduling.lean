import Chuck.CoroutineQueueModel
import Chuck.Support.OrderedHandoff

/-!
# Scheduling of coroutines that wait for messages

A call of `pop` waits in `waits`, is due once its coroutine was resumed by the queue,
and returns when the coroutine runs. Seen this way a queue of the program is a queue
whose takers may wait. The lemmas say what the ready list and `sche_loop` do to it.
-/

namespace Chuck.CoroutineScheduling

open Support.OrderedHandoff FifoModel CoroutineQueueModel Function List

variable {Msg : Type}

variable {co q : Nat} {arg : Option Msg}

/-! ## What the state stands for -/

def contents (M : Nat → List Msg) (W : Nat → List Nat) : Slot → List (Value Msg)
  | .messageQueue q => (M q).map .message
  | .waits q => (W q).map .coroutine

def dueIn (waiting : Nat → Option (Nat × Nat)) (q : Nat) (entry : Nat × Option Msg) :
    Option (Nat × Option Msg) :=
  match waiting entry.1 with
  | some (queue, call) => if queue = q then some (call, entry.2) else none
  | none => none

def callsOf (waiting : Nat → Option (Nat × Nat)) (cos : List Nat) : List Nat :=
  cos.filterMap fun co => (waiting co).map Prod.snd

def desk (s : System Msg) (stored : List Msg) (waits : List Nat) (q : Nat) : Desk Msg where
  stored := stored
  waiting := callsOf s.waiting waits
  due := s.ready.filterMap (dueIn s.waiting q)
  returned := s.returned q
  takes := s.calls q
  pushed := s.pushed q
  closed := s.closed q

/-- Where the messages and the coroutines are, whoever runs. -/
structure Shape (s : System Msg) (M : Nat → List Msg) (W : Nat → List Nat) : Prop where
  holds : Holds s.fifos (contents M W)
  blocked : ∀ q, ∀ co ∈ W q, (∃ call, s.waiting co = some (q, call)) ∧ co ∉ s.ready.map Prod.fst
  single : ∀ q, (W q).Nodup
  distinct : (s.ready.map Prod.fst).Nodup
  listed : ∀ co ∈ s.ready.map Prod.fst, co < s.count
  inside : ∀ co call, s.waiting co = some call →
    co < s.count ∧ s.finished co = false ∧ (co ∈ W call.1 ∨ co ∈ s.ready.map Prod.fst)

/-- What holds whoever runs. `waking` are the queues whose waits are being woken. -/
structure Parked (s : System Msg) (M : Nat → List Msg) (W : Nat → List Nat)
    (waking : Nat → Prop) : Prop where
  shape : Shape s M W
  sound : ∀ q, Sound (waking q) (desk s (M q) (W q) q)

def Active (s : System Msg) : Prop :=
  ∀ co, s.running = some co →
    co ∉ s.ready.map Prod.fst ∧ s.waiting co = none ∧ s.finished co = false ∧ co < s.count

def Idle (s : System Msg) : Prop :=
  s.running = none → ∀ co ∈ s.ready.map Prod.fst, s.waiting co = none

structure Represents (s : System Msg) (M : Nat → List Msg) (W : Nat → List Nat)
    (waking : Nat → Prop) : Prop where
  parked : Parked s M W waking
  active : Active s
  idle : Idle s

section Frames

variable (waiting : Nat → Option (Nat × Nat)) {co : Nat} (call : Option (Nat × Nat))

theorem calls_of_update {cos : List Nat} (absent : co ∉ cos) :
    callsOf (update waiting co call) cos = callsOf waiting cos := by
  apply filterMap_congr
  intro other member
  rw [update_of_ne]
  rintro rfl
  exact absent member

theorem due_in_update (q : Nat) {ready : List (Nat × Option Msg)}
    (absent : co ∉ ready.map Prod.fst) :
    ready.filterMap (dueIn (update waiting co call) q) = ready.filterMap (dueIn waiting q) := by
  apply filterMap_congr
  intro entry member
  rw [dueIn, dueIn, update_of_ne]
  rintro rfl
  exact absent (mem_map_of_mem member)

end Frames

section Scheduling

variable {s : System Msg} {M : Nat → List Msg} {W : Nat → List Nat} {waking : Nat → Prop}

section

variable {co : Nat} {arg : Option Msg} {rest : List (Nat × Option Msg)}

theorem Shape.drop (shape : Shape s M W) (first : s.ready = (co, arg) :: rest) :
    co ∉ rest.map Prod.fst ∧ Shape { s with
      ready := rest, waiting := update s.waiting co none } M W := by
  have distinct := shape.distinct
  rw [first, map_cons, nodup_cons] at distinct
  have here : co ∈ s.ready.map Prod.fst := by
    rw [first]
    exact mem_cons_self
  have part : ∀ other ∈ rest.map Prod.fst, other ∈ s.ready.map Prod.fst := by
    intro other member
    rw [first]
    exact mem_cons_of_mem co member
  refine ⟨distinct.1, shape.holds, ?_, shape.single, distinct.2, ?_, ?_⟩
  · intro q other member
    obtain ⟨⟨call, calls⟩, unready⟩ := shape.blocked q other member
    have apart : other ≠ co := by
      rintro rfl
      exact unready here
    exact ⟨⟨call, (update_of_ne apart _ _).trans calls⟩,
      fun listed => unready (part other listed)⟩
  · exact fun other member => shape.listed other (part other member)
  · intro other call calls
    have apart : other ≠ co := by
      rintro rfl
      exact Option.some_ne_none call (calls.symm.trans (update_self _ _ _))
    obtain ⟨below, alive, somewhere⟩ :=
      shape.inside other call ((update_of_ne apart _ _).symm.trans calls)
    refine ⟨below, alive, somewhere.imp_right ?_⟩
    intro listed
    rw [first, map_cons, mem_cons] at listed
    exact listed.resolve_left apart

theorem Parked.skip (parked : Parked s M W waking) (first : s.ready = (co, arg) :: rest)
    (outside : s.waiting co = none) : Parked { s with ready := rest } M W waking := by
  obtain ⟨-, shape⟩ := parked.shape.drop first
  have same : update s.waiting co none = s.waiting := by
    rw [← outside, update_eq_self]
  rw [same] at shape
  refine ⟨shape, ?_⟩
  intro q
  have dues : s.ready.filterMap (dueIn s.waiting q) = rest.filterMap (dueIn s.waiting q) := by
    rw [first]
    apply filterMap_cons_none
    rw [dueIn, outside]
  have sound := parked.sound q
  rw [desk, dues] at sound
  exact sound

theorem Parked.enter (parked : Parked s M W waking) (first : s.ready = (co, arg) :: rest)
    (alive : s.finished co = false) :
    Represents (enter { s with ready := rest } co arg) M W waking := by
  obtain ⟨absent, shape⟩ := parked.shape.drop first
  have here : co ∈ s.ready.map Prod.fst := by
    rw [first]
    exact mem_cons_self
  have below := parked.shape.listed co here
  cases waits : s.waiting co with
  | none =>
    have entered : CoroutineQueueModel.enter { s with ready := rest } co arg =
        { s with ready := rest, running := some co } := by
      simp only [CoroutineQueueModel.enter, waits]
    have skipped := parked.skip first waits
    have shape := skipped.shape
    rw [entered]
    refine ⟨⟨{ shape with }, skipped.sound⟩, ?_, ?_⟩
    · rintro other ⟨⟩
      exact ⟨absent, waits, alive, below⟩
    · exact fun runs => absurd runs (Option.some_ne_none co)
  | some call =>
    obtain ⟨queue, number⟩ := call
    have entered : CoroutineQueueModel.enter { s with ready := rest } co arg =
        { s with
          ready := rest, running := some co, waiting := update s.waiting co none
          returned := update s.returned queue
            (s.returned queue ++ [(number, arg)]) } := by
      simp only [CoroutineQueueModel.enter, waits, popReturns]
    rw [entered]
    refine ⟨⟨{ shape with }, ?_⟩, ?_, ?_⟩
    · intro q
      have sound := parked.sound q
      have outside : co ∉ W q := fun member => (parked.shape.blocked q co member).2 here
      have calls := calls_of_update s.waiting none outside
      have dues := due_in_update s.waiting none q absent
      simp only [desk, calls, dues]
      by_cases same : queue = q
      · subst same
        rw [update_self]
        apply sound.return
        rw [desk, first]
        apply filterMap_cons_some
        rw [dueIn, waits]
        exact if_pos rfl
      · rw [update_of_ne (Ne.symm same)]
        have skip : s.ready.filterMap (dueIn s.waiting q) = rest.filterMap (dueIn s.waiting q) := by
          rw [first]
          apply filterMap_cons_none
          rw [dueIn, waits]
          exact if_neg same
        rw [desk, skip] at sound
        exact sound
    · rintro other ⟨⟩
      exact ⟨absent, update_self _ _ _, alive, below⟩
    · exact fun runs => absurd runs (Option.some_ne_none co)

end

theorem sche_loop (ready : List (Nat × Option Msg)) (s : System Msg)
    (parked : Parked { s with ready := ready } M W waking) :
    Represents (scheLoop s ready) M W waking := by
  induction ready with
  | nil =>
    have shape := parked.shape
    refine ⟨?_, ?_, ?_⟩
    · exact ⟨{ shape with }, parked.sound⟩
    · exact fun co runs => absurd runs.symm (Option.some_ne_none co)
    · exact nofun
  | cons entry rest ih =>
    obtain ⟨co, arg⟩ := entry
    rw [scheLoop]
    cases finished : s.finished co with
    | true =>
      rw [if_pos rfl]
      apply ih
      apply parked.skip rfl
      by_contra waits
      obtain ⟨call, waits⟩ := Option.ne_none_iff_exists'.mp waits
      have alive := (parked.shape.inside co call waits).2.1
      exact Bool.false_ne_true (alive.symm.trans finished)
    | false =>
      rw [if_neg Bool.false_ne_true]
      exact parked.enter rfl finished

theorem sche_loop_closing (ready : List (Nat × Option Msg)) (s : System Msg) :
    (scheLoop s ready).closing = s.closing := by
  induction ready with
  | nil => rfl
  | cons entry rest ih =>
    rw [scheLoop]
    split_ifs
    · exact ih
    · rw [CoroutineQueueModel.enter]
      split <;> rfl

theorem linked_iff (s : System Msg) (co : Nat) :
    linked s co = true ↔ co ∈ s.ready.map Prod.fst := by
  rw [linked, decide_eq_true_eq]

theorem mem_ready_append (s : System Msg) (co : Nat) (arg : Option Msg) (other : Nat) :
    other ∈ (s.ready ++ [(co, arg)]).map Prod.fst ↔ other ∈ s.ready.map Prod.fst ∨ other = co := by
  rw [map_append, mem_append, map_singleton, mem_singleton]

theorem resume_one (arg : Option Msg) (active : Active s) (other : s.running ≠ some co)
    (free : co ∉ s.ready.map Prod.fst)
    (parked : Parked { s with ready := s.ready ++ [(co, arg)] } M W waking) :
    ∃ after, coroutineResume s co arg = some after ∧ Represents after M W waking ∧
      after.closing = s.closing ∧ (s.running ≠ none → after.running = s.running) := by
  have unlinked : ¬linked s co = true := by
    rw [linked_iff]
    exact free
  have ready : coroutineResume s co arg = some
      (if s.running = none then
        scheLoop { s with ready := s.ready ++ [(co, arg)] } (s.ready ++ [(co, arg)])
      else { s with ready := s.ready ++ [(co, arg)] }) := by
    rw [coroutineResume, if_neg other, if_neg unlinked, pushReady, if_neg unlinked]
    rfl
  refine ⟨_, ready, ?_⟩
  by_cases main : s.running = none
  · rw [if_pos main]
    exact ⟨sche_loop _ _ parked, sche_loop_closing _ _, fun busy => absurd main busy⟩
  rw [if_neg main]
  refine ⟨⟨parked, ?_, fun runs => absurd runs main⟩, rfl, fun _ => rfl⟩
  intro current runs
  obtain ⟨unready, rest⟩ := active current runs
  refine ⟨?_, rest⟩
  rw [mem_ready_append, not_or]
  refine ⟨unready, ?_⟩
  rintro rfl
  exact other runs

theorem Shape.extend {fifos : Fifos Slot (Value Msg)}
    {left : Nat → List Nat} (shape : Shape s M W) (below : co < s.count)
    (free : co ∉ s.ready.map Prod.fst) (holds : Holds fifos (contents M left))
    (gone : ∀ q, co ∉ left q) (part : ∀ q, (left q).Sublist (W q))
    (only : ∀ q other, other ∈ W q → other ∈ left q ∨ other = co) :
    Shape { s with fifos := fifos, ready := s.ready ++ [(co, arg)] } M left := by
  refine ⟨holds, ?_, fun q => (shape.single q).sublist (part q), ?_, ?_, ?_⟩
  · intro q other member
    obtain ⟨calls, unready⟩ := shape.blocked q other ((part q).subset member)
    refine ⟨calls, ?_⟩
    rw [mem_ready_append, not_or]
    refine ⟨unready, ?_⟩
    rintro rfl
    exact gone q member
  · rw [map_append]
    apply nodup_append.mpr
    refine ⟨shape.distinct, nodup_singleton _, ?_⟩
    intro first member second single same
    have here : first = co := same.trans (mem_singleton.mp single)
    exact free (here ▸ member)
  · intro other member
    rcases (mem_ready_append s co arg other).mp member with old | rfl
    · exact shape.listed other old
    · exact below
  · intro other call calls
    obtain ⟨less, alive, somewhere⟩ := shape.inside other call calls
    refine ⟨less, alive, ?_⟩
    rw [mem_ready_append]
    rcases somewhere with waits | listed
    · rcases only call.1 other waits with still | same
      · exact .inl still
      · exact .inr (.inr same)
    · exact .inr (.inl listed)

theorem due_append_none (outside : ∀ call, s.waiting co ≠ some (q, call)) :
    (s.ready ++ [(co, arg)]).filterMap (dueIn s.waiting q) =
      s.ready.filterMap (dueIn s.waiting q) := by
  have none : dueIn s.waiting q (co, arg) = Option.none := by
    rw [dueIn]
    split
    · rename_i queue call waits
      apply if_neg
      rintro rfl
      exact outside call waits
    · rfl
  rw [filterMap_append, filterMap_cons_none none]
  exact append_nil _

theorem due_append_some {call : Nat} (waits : s.waiting co = some (q, call)) :
    (s.ready ++ [(co, arg)]).filterMap (dueIn s.waiting q) =
      s.ready.filterMap (dueIn s.waiting q) ++ [(call, arg)] := by
  have due : dueIn s.waiting q (co, arg) = some (call, arg) := by
    rw [dueIn, waits]
    exact if_pos rfl
  rw [filterMap_append, filterMap_cons_some due]
  rfl

theorem Parked.extend (parked : Parked s M W waking) (below : co < s.count)
    (free : co ∉ s.ready.map Prod.fst) (outside : s.waiting co = none) (arg : Option Msg) :
    Parked { s with ready := s.ready ++ [(co, arg)] } M W waking := by
  constructor
  · apply parked.shape.extend below free parked.shape.holds
    · intro q member
      obtain ⟨⟨call, calls⟩, -⟩ := parked.shape.blocked q co member
      exact Option.some_ne_none _ (calls.symm.trans outside)
    · exact fun q => List.Sublist.refl _
    · exact fun q other member => .inl member
  · intro q
    rw [desk, due_append_none fun call waits => Option.some_ne_none _ (waits.symm.trans outside)]
    exact parked.sound q

theorem Shape.no_waits (shape : Shape s M W) (none : callsOf s.waiting (W q) = []) : W q = [] := by
  cases first : W q with
  | nil => rfl
  | cons co rest =>
    obtain ⟨⟨call, waits⟩, -⟩ := shape.blocked q co (first ▸ mem_cons_self)
    rw [first, callsOf, filterMap_cons_some (by rw [waits]; rfl)] at none
    cases none

theorem Shape.release (arg : Option Msg) {rest : List Nat}
    {fifos : Fifos Slot (Value Msg)} (shape : Shape s M W) (first : W q = co :: rest)
    (holds : Holds fifos (contents M (update W q rest))) :
    ∃ call, s.waiting co = some (q, call) ∧ co ∉ s.ready.map Prod.fst ∧
      callsOf s.waiting (W q) = call :: callsOf s.waiting rest ∧
      Shape { s with fifos := fifos, ready := s.ready ++ [(co, arg)] } M
        (update W q rest) := by
  have here : co ∈ W q := first ▸ mem_cons_self
  obtain ⟨⟨call, calls⟩, free⟩ := shape.blocked q co here
  have single := shape.single q
  rw [first, nodup_cons] at single
  refine ⟨call, calls, free, ?_, ?_⟩
  · rw [first, callsOf, filterMap_cons_some]
    · rfl
    · rw [calls]
      rfl
  · apply shape.extend (shape.inside co _ calls).1 free holds
    · intro other member
      by_cases same : other = q
      · subst same
        rw [update_self] at member
        exact single.1 member
      · rw [update_of_ne same] at member
        obtain ⟨⟨also, waits⟩, -⟩ := shape.blocked other co member
        rw [calls, Option.some.injEq, Prod.mk.injEq] at waits
        exact same waits.1.symm
    · intro other
      by_cases same : other = q
      · subst same
        rw [update_self, first]
        exact sublist_cons_self co rest
      · rw [update_of_ne same]
    · intro other member present
      by_cases same : other = q
      · subst same
        rw [first, mem_cons] at present
        rw [update_self]
        exact present.symm
      · rw [update_of_ne same]
        exact .inl present

theorem release_desk {call : Nat} (waits : s.waiting co = some (q, call)) (other : Nat) :
    (s.ready ++ [(co, arg)]).filterMap (dueIn s.waiting other) =
      if other = q then s.ready.filterMap (dueIn s.waiting q) ++ [(call, arg)]
      else s.ready.filterMap (dueIn s.waiting other) := by
  by_cases same : other = q
  · subst same
    rw [if_pos rfl]
    exact due_append_some waits
  · rw [if_neg same]
    apply due_append_none
    intro also calls
    rw [waits, Option.some.injEq, Prod.mk.injEq] at calls
    exact same calls.1.symm

end Scheduling

end Chuck.CoroutineScheduling
