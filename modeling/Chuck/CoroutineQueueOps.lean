import Chuck.CoroutineScheduling

/-!
# The operations of coroutine queues

`push`, `pop` and `close` on one queue, in a coroutine or in the main thread, are the
operations of a queue whose takers may wait, and leave the other queues alone.
-/

namespace Chuck.CoroutineQueueOps

open Support.OrderedHandoff FifoModel CoroutineQueueModel CoroutineScheduling Function List

variable {Msg : Type}

/-! ## The fifos of the queues -/

section Contents

variable {f : Fifos Slot (Value Msg)} {M : Nat → List Msg} {W : Nat → List Nat} {q : Nat}

theorem contents_messages (msgs : List Msg) :
    contents (update M q msgs) W = update (contents M W) (.messageQueue q) (msgs.map .message) := by
  funext slot
  cases slot with
  | messageQueue other =>
    by_cases same : other = q
    · subst same
      rw [update_self, contents, update_self]
    · rw [update_of_ne fun eq => same (Slot.messageQueue.inj eq), contents,
        update_of_ne same, contents]
  | waits other => rw [update_of_ne Slot.noConfusion, contents, contents]

theorem contents_waits (cos : List Nat) :
    contents M (update W q cos) = update (contents M W) (.waits q) (cos.map .coroutine) := by
  funext slot
  cases slot with
  | messageQueue other => rw [update_of_ne Slot.noConfusion, contents, contents]
  | waits other =>
    by_cases same : other = q
    · subst same
      rw [update_self, contents, update_self]
    · rw [update_of_ne fun eq => same (Slot.waits.inj eq), contents,
        update_of_ne same, contents]

section

variable (holds : Holds f (contents M W))

include holds

theorem messages_empty : fifoEmpty f (.messageQueue q) = true ↔ M q = [] := by
  rw [fifo_empty holds, contents, map_eq_nil_iff]

theorem waits_empty : fifoEmpty f (.waits q) = true ↔ W q = [] := by
  rw [fifo_empty holds, contents, map_eq_nil_iff]

theorem push_message (msg : Msg) :
    Holds (fifoPush f (.messageQueue q) (.message msg))
      (contents (update M q (M q ++ [msg])) W) := by
  rw [contents_messages, map_append]
  exact fifo_push holds _

theorem push_waits (co : Nat) :
    Holds (fifoPush f (.waits q) (.coroutine co)) (contents M (update W q (W q ++ [co]))) := by
  rw [contents_waits, map_append]
  exact fifo_push holds _

theorem pop_message {msg : Msg} {rest : List Msg} (first : M q = msg :: rest) :
    ∃ after, fifoPop f (.messageQueue q) = (some (.message msg), after) ∧
      Holds after (contents (update M q rest) W) := by
  rw [contents_messages]
  apply fifo_pop_cons holds
  rw [contents, first, map_cons]

theorem pop_waits {co : Nat} {rest : List Nat} (first : W q = co :: rest) :
    ∃ after, fifoPop f (.waits q) = (some (.coroutine co), after) ∧
      Holds after (contents M (update W q rest)) := by
  rw [contents_waits]
  apply fifo_pop_cons holds
  rw [contents, first, map_cons]

end

end Contents

/-! ## The operations of the queues -/

section Operations

variable {s : System Msg} {M : Nat → List Msg} {W : Nat → List Nat} {waking : Nat → Prop} {q : Nat}

theorem sound_update (q : Nat) {M' : Nat → List Msg} {W' : Nat → List Nat} {after : System Msg}
    (sound : ∀ other, Sound (waking other) (desk s (M other) (W other) other))
    (here : Sound (waking q) (desk after (M' q) (W' q) q))
    (others : ∀ other, other ≠ q →
      desk after (M' other) (W' other) other = desk s (M other) (W other) other) :
    ∀ other, Sound (waking other) (desk after (M' other) (W' other) other) := by
  intro other
  by_cases same : other = q
  · rw [same]
    exact here
  · rw [others other same]
    exact sound other

theorem resume_first (rep : Represents s M W waking) {co : Nat} {rest : List Nat}
    {fifos : Fifos Slot (Value Msg)} (first : W q = co :: rest)
    (holds : Holds fifos (contents M (update W q rest))) (arg : Option Msg) (msgs : List Msg)
    (sound : ∀ call, callsOf s.waiting (W q) = call :: callsOf s.waiting rest →
      Sound (waking q) { desk s (M q) (W q) q with
        waiting := callsOf s.waiting rest
        due := s.ready.filterMap (dueIn s.waiting q) ++ [(call, arg)]
        pushed := msgs }) :
    ∃ after, coroutineResume { s with
        fifos := fifos, pushed := update s.pushed q msgs } co arg = some after ∧
      Represents after M (update W q rest) waking ∧ after.closing = s.closing ∧
      (s.running ≠ none → after.running = s.running) := by
  obtain ⟨call, waits, free, calls, shape⟩ := rep.parked.shape.release arg first holds
  have other : s.running ≠ some co := by
    intro runs
    obtain ⟨-, outside, -⟩ := rep.active co runs
    exact Option.some_ne_none _ (waits.symm.trans outside)
  let asked : System Msg :=
    { s with fifos := fifos, pushed := update s.pushed q msgs }
  have active : Active asked := rep.active
  apply resume_one arg active other free
  refine ⟨{ shape with }, ?_⟩
  apply sound_update q rep.parked.sound
  · simp only [asked, desk, release_desk waits, update_self, if_true]
    exact sound call calls
  · intro other apart
    simp only [asked, desk, release_desk waits, update_of_ne apart, if_neg apart]

theorem queue_push (rep : Represents s M W waking) (q : Nat) (msg : Msg) :
    ∃ after M' W', queuePush s q msg = some after ∧ Represents after M' W' waking ∧
      after.closing = s.closing := by
  have holds := rep.parked.shape.holds
  rw [queuePush]
  cases closed : s.closed q with
  | true => exact ⟨s, M, W, if_pos rfl, rep, rfl⟩
  | false =>
    rw [if_neg Bool.false_ne_true]
    have sound := rep.parked.sound q
    by_cases hands : (fifoEmpty s.fifos (.messageQueue q) && !fifoEmpty s.fifos (.waits q)) = true
    · rw [if_pos hands]
      rw [Bool.and_eq_true, messages_empty holds, Bool.not_eq_true', ← Bool.not_eq_true,
        waits_empty holds] at hands
      obtain ⟨co, rest, first⟩ := exists_cons_of_ne_nil hands.2
      obtain ⟨fifos, popped, left⟩ := pop_waits holds first
      obtain ⟨after, ran, held, closing, -⟩ := resume_first rep first left (some msg)
        (s.pushed q ++ [msg]) fun call calls => sound.hand closed hands.1 calls
      refine ⟨after, M, _, ?_, held, closing⟩
      simp only [popped]
      exact ran
    · rw [if_neg hands]
      have idle : callsOf s.waiting (W q) = [] := by
        by_contra waits
        apply hands
        rw [Bool.and_eq_true, messages_empty holds, Bool.not_eq_true', ← Bool.not_eq_true,
          waits_empty holds]
        refine ⟨sound.exclusive.resolve_right waits, ?_⟩
        intro none
        apply waits
        rw [none]
        rfl
      have shape := rep.parked.shape
      refine ⟨_, _, W, rfl, ⟨⟨{ shape with holds := push_message holds msg }, ?_⟩, rep.active,
        rep.idle⟩, rfl⟩
      apply sound_update q rep.parked.sound
      · simp only [desk, update_self]
        exact sound.store closed idle
      · intro other apart
        simp only [desk, update_of_ne apart]

theorem wait_shape {current : Nat} (shape : Shape s M W) (q call : Nat)
    (unready : current ∉ s.ready.map Prod.fst) (below : current < s.count)
    (alive : s.finished current = false) (away : ∀ other, current ∉ W other) :
    Shape { s with
      fifos := fifoPush s.fifos (.waits q) (.coroutine current)
      waiting := update s.waiting current (some (q, call)) } M
      (update W q (W q ++ [current])) := by
  have entry : ∀ other co, co ∈ update W q (W q ++ [current]) other ↔
      co ∈ W other ∨ co = current ∧ other = q := by
    intro other co
    by_cases same : other = q
    · subst same
      rw [update_self, mem_append, mem_singleton, and_iff_left rfl]
    · rw [update_of_ne same]
      exact ⟨.inl, fun member => member.resolve_right fun new => same new.2⟩
  refine ⟨push_waits shape.holds current, ?_, ?_, shape.distinct, shape.listed, ?_⟩
  · intro other co member
    rcases (entry other co).mp member with old | ⟨rfl, rfl⟩
    · have apart : co ≠ current := by
        rintro rfl
        exact away other old
      obtain ⟨⟨number, calls⟩, free⟩ := shape.blocked other co old
      exact ⟨⟨number, (update_of_ne apart _ _).trans calls⟩, free⟩
    · exact ⟨⟨call, update_self _ _ _⟩, unready⟩
  · intro other
    by_cases same : other = q
    · subst same
      rw [update_self]
      apply nodup_append.mpr
      refine ⟨shape.single other, nodup_singleton _, ?_⟩
      intro co member last single same
      rw [mem_singleton.mp single] at same
      exact away other (same ▸ member)
    · rw [update_of_ne same]
      exact shape.single other
  · intro co number calls
    by_cases same : co = current
    · subst same
      have here : update s.waiting co (some (q, call)) co = some number := calls
      rw [update_self, Option.some.injEq] at here
      refine ⟨below, alive, .inl ((entry _ co).mpr (.inr ⟨rfl, ?_⟩))⟩
      rw [← here]
    · obtain ⟨less, lives, somewhere⟩ :=
        shape.inside co number ((update_of_ne same _ _).symm.trans calls)
      exact ⟨less, lives, somewhere.imp_left fun old => (entry _ co).mpr (.inl old)⟩

theorem queue_pop (rep : Represents s M W waking) {current : Nat} (q : Nat)
    (runs : s.running = some current) :
    ∃ after M' W', queuePop s q current = some after ∧ Represents after M' W' waking ∧
      after.closing = s.closing := by
  have shape := rep.parked.shape
  have sound := rep.parked.sound q
  obtain ⟨unready, outside, alive, below⟩ := rep.active current runs
  rw [queuePop]
  cases first : M q with
  | cons msg rest =>
    obtain ⟨fifos, popped, left⟩ := pop_message shape.holds first
    simp only [popped]
    refine ⟨_, _, W, rfl, ⟨⟨{ shape with holds := left }, ?_⟩, rep.active, rep.idle⟩, rfl⟩
    apply sound_update q rep.parked.sound
    · simp only [desk, popReturns, update_self]
      exact sound.found first
    · intro other apart
      simp only [desk, popReturns, update_of_ne apart]
  | nil =>
    have popped : fifoPop s.fifos (.messageQueue q) = (none, s.fifos) := by
      apply fifo_pop_nil shape.holds
      rw [contents, first]
      rfl
    simp only [popped]
    cases closed : s.closed q with
    | true =>
      refine ⟨_, M, W, if_pos rfl, ⟨⟨{ shape with }, ?_⟩, rep.active, rep.idle⟩, rfl⟩
      apply sound_update q rep.parked.sound
      · simp only [desk, popReturns, update_self]
        exact sound.refuse closed first
      · intro other apart
        simp only [desk, popReturns, update_of_ne apart]
    | false =>
      have away : ∀ other, current ∉ W other := by
        intro other member
        obtain ⟨⟨call, waits⟩, -⟩ := shape.blocked other current member
        exact Option.some_ne_none _ (waits.symm.trans outside)
      refine ⟨_, M, update W q (W q ++ [current]), if_neg Bool.false_ne_true,
        sche_loop _ _ ⟨?_, ?_⟩, sche_loop_closing _ _⟩
      · have waits := wait_shape shape q (s.calls q) unready below alive away
        exact { waits with }
      · apply sound_update q rep.parked.sound
        · simp only [desk, update_self, due_in_update s.waiting _ q unready]
          have appended : callsOf (update s.waiting current (some (q, s.calls q)))
              (W q ++ [current]) = callsOf s.waiting (W q) ++ [s.calls q] := by
            rw [callsOf, filterMap_append, filterMap_cons_some
              (by rw [update_self]; rfl)]
            exact congrArg (· ++ [s.calls q]) (calls_of_update s.waiting _ (away q))
          rw [appended]
          exact sound.wait closed first
        · intro other apart
          simp only [desk, update_of_ne apart,
            due_in_update s.waiting _ other unready, calls_of_update s.waiting _ (away other)]

theorem close_round (rep : Represents s M W waking) (wakes : waking q) {co : Nat} {rest : List Nat}
    (first : W q = co :: rest) :
    ∃ after, closeRound s q = some (true, after) ∧
      Represents after M (update W q rest) waking ∧ after.closing = s.closing ∧
      (s.running ≠ none → after.running = s.running) := by
  obtain ⟨fifos, popped, left⟩ := pop_waits rep.parked.shape.holds first
  obtain ⟨after, ran, held⟩ := resume_first rep first left none (s.pushed q)
    fun call calls => (rep.parked.sound q).wake wakes calls
  refine ⟨after, ?_, held⟩
  rw [update_eq_self] at ran
  rw [closeRound, popped]
  simp only [ran, Option.map_some]

theorem close_round_last (rep : Represents s M W waking) (none : W q = []) :
    closeRound s q = some (false, s) := by
  have popped : fifoPop s.fifos (.waits q) = (Option.none, s.fifos) := by
    apply fifo_pop_nil rep.parked.shape.holds
    rw [contents, none]
    rfl
  rw [closeRound, popped]

theorem close_loop (fuel : Nat) (s : System Msg) (W : Nat → List Nat)
    (rep : Represents s M W waking) (wakes : waking q) (busy : s.running ≠ none)
    (fueled : (W q).length < fuel) :
    ∃ after W', closeLoop q fuel s = some after ∧ Represents after M W' waking ∧ W' q = [] ∧
      after.closing = s.closing := by
  induction fuel generalizing s W with
  | zero => exact absurd fueled (Nat.not_lt_zero _)
  | succ fuel ih =>
    rw [closeLoop]
    cases first : W q with
    | nil =>
      rw [close_round_last rep first]
      exact ⟨s, W, rfl, rep, first, rfl⟩
    | cons co rest =>
      obtain ⟨middle, ran, held, closing, runs⟩ := close_round rep wakes first
      have shorter : (update W q rest q).length < fuel := by
        rw [first, length_cons] at fueled
        rw [update_self]
        exact Nat.lt_of_succ_lt_succ fueled
      obtain ⟨after, W', last, done, empty, same⟩ :=
        ih middle _ held ((runs busy).symm ▸ busy) shorter
      refine ⟨after, W', ?_, done, empty, same.trans closing⟩
      rw [ran]
      exact last

theorem close_main (rep : Represents s M W waking) (wakes : waking q) :
    ∃ after W', closeMain s q = some after ∧
      ((Represents after M W' waking ∧ after.closing = s.closing) ∨
        (after = { s with closing := none } ∧ W' = W ∧ W q = [])) := by
  cases first : W q with
  | nil =>
    refine ⟨_, W, ?_, .inr ⟨rfl, rfl, rfl⟩⟩
    rw [closeMain, close_round_last rep first]
    rfl
  | cons co rest =>
    obtain ⟨after, ran, held, closing, -⟩ := close_round rep wakes first
    refine ⟨after, _, ?_, .inl ⟨held, closing⟩⟩
    rw [closeMain, ran]
    rfl

end Operations

end Chuck.CoroutineQueueOps
