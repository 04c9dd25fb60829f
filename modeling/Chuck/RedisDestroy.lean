import Chuck.RedisClientModel

/-!
# Destroying a Redis client whose callbacks use it

`destroy_redisclient` takes the waiting requests off the queue one after another and
tells each of them that the connection is lost. The socket is closed only behind that
loop, and `_chk_redis_execute` does not look at `CLIENT_CLOSE`: a request that one of
these callbacks makes is queued again, and the loop meets it later. Nothing of that
happens if the socket refuses everything these callbacks send.
-/

namespace Chuck.RedisDestroy

open RedisClientModel List

def lostEvent (pending : Pending) : Event where
  id := pending.id
  cause := .lost
  reply := connectionLose
  called := pending.cb

section Model

variable (oracle : List Event → List Act)

def lose (c : Client) (pending : Pending) : Client :=
  let c := { c with log := c.log ++ [lostEvent pending] }
  if pending.cb then (oracle c.log).foldl perform c else c

def drainLoop : Nat → Client → Option Client
  | 0, c => if c.waitreplys = [] then some c else none
  | fuel + 1, c =>
    match c.waitreplys with
    | [] => some c
    | head :: rest => drainLoop fuel (lose oracle { c with waitreplys := rest } head)

def destroyRedisclient (fuel : Nat) (c : Client) : Option Client :=
  (drainLoop oracle fuel { c with tree := none }).map fun c =>
    { c with timer := false, life := .destroyed }

end Model

def Accepted : Act → Bool
  | .execute _ accepted _ => accepted
  | .close => false

/-- The socket refuses everything that the callbacks of these requests send. -/
def Refused (oracle : List Event → List Act) : List Event → List Pending → Prop
  | _, [] => True
  | log, pending :: rest =>
    (pending.cb = true → ∀ act ∈ oracle (log ++ [lostEvent pending]), Accepted act = false) ∧
      Refused oracle (log ++ [lostEvent pending]) rest

/-! ## What a callback can do to a closed client -/

section Acts

variable {c : Client}

theorem perform_refused (closed : c.close = true) {act : Act} (refused : Accepted act = false) :
    perform c act = c := by
  cases act with
  | execute cb accepted now =>
    have none : accepted = false := refused
    rw [perform, execute, none]
    rfl
  | close => rw [perform, redisClose, if_pos closed]

theorem perform_accepted {act : Act} (accepted : Accepted act = true) :
    (perform c act).close = c.close ∧ (perform c act).log = c.log ∧
      (perform c act).sent = c.sent + 1 ∧ c.waitreplys <+: (perform c act).waitreplys := by
  cases act with
  | execute cb given now =>
    have taken : given = true := accepted
    rw [perform, execute, if_pos taken]
    exact ⟨rfl, rfl, rfl, prefix_append _ _⟩
  | close => nomatch accepted

theorem acts_refused (acts : List Act) (closed : c.close = true)
    (refused : ∀ act ∈ acts, Accepted act = false) : acts.foldl perform c = c := by
  induction acts with
  | nil => rfl
  | cons act acts ih =>
    rw [foldl_cons, perform_refused closed (refused act mem_cons_self)]
    exact ih fun other member => refused other (mem_cons_of_mem act member)

theorem acts_closed (acts : List Act) (c : Client) (closed : c.close = true) :
    (acts.foldl perform c).close = true ∧ (acts.foldl perform c).log = c.log ∧
      (acts.foldl perform c).sent = c.sent + acts.countP Accepted ∧
      c.waitreplys <+: (acts.foldl perform c).waitreplys := by
  induction acts generalizing c with
  | nil => exact ⟨closed, rfl, rfl, prefix_rfl⟩
  | cons act acts ih =>
    rw [foldl_cons]
    cases decided : Accepted act with
    | false =>
      rw [perform_refused closed decided, countP_cons_of_neg (by simp [decided])]
      exact ih c closed
    | true =>
      obtain ⟨same, log, sent, queue⟩ := perform_accepted (c := c) decided
      obtain ⟨closed', log', sent', queue'⟩ := ih (perform c act) (same.trans closed)
      refine ⟨closed', log'.trans log, ?_, queue.trans queue'⟩
      rw [sent', sent, countP_cons_of_pos decided]
      omega

end Acts

/-! ## The loop -/

section Draining

variable (oracle : List Event → List Act)

theorem lose_closed (c : Client) (pending : Pending) (closed : c.close = true) :
    (lose oracle c pending).close = true ∧
      (lose oracle c pending).log = c.log ++ [lostEvent pending] ∧
      c.sent ≤ (lose oracle c pending).sent := by
  rw [lose]
  split_ifs with called
  · obtain ⟨closed', log, sent, -⟩ :=
      acts_closed (oracle (c.log ++ [lostEvent pending])) { c with
        log := c.log ++ [lostEvent pending] } closed
    refine ⟨closed', log, ?_⟩
    rw [sent]
    exact Nat.le_add_right _ _
  · exact ⟨closed, rfl, Nat.le_refl _⟩

theorem lose_refused (c : Client) (pending : Pending) (closed : c.close = true)
    (refused : pending.cb = true →
      ∀ act ∈ oracle (c.log ++ [lostEvent pending]), Accepted act = false) :
    lose oracle c pending = { c with log := c.log ++ [lostEvent pending] } := by
  rw [lose]
  split_ifs with called
  · exact acts_refused _ closed (refused called)
  · rfl

theorem lose_same_sent (c : Client) (pending : Pending) (closed : c.close = true)
    (same : (lose oracle c pending).sent = c.sent) (called : pending.cb = true) :
    ∀ act ∈ oracle (c.log ++ [lostEvent pending]), Accepted act = false := by
  obtain ⟨-, -, sent, -⟩ := acts_closed (oracle (c.log ++ [lostEvent pending])) { c with
    log := c.log ++ [lostEvent pending] } closed
  rw [lose, if_pos called, sent] at same
  have none : (oracle (c.log ++ [lostEvent pending])).countP Accepted = 0 := by
    dsimp only at same
    omega
  intro act member
  exact Bool.not_eq_true _ ▸ countP_eq_zero.mp none act member

/-- If the loop ends with as many requests sent as before, the socket refused all that the
callbacks sent. -/
theorem drain_sent (fuel : Nat) (c after : Client) (closed : c.close = true)
    (ran : drainLoop oracle fuel c = some after) :
    c.sent ≤ after.sent ∧ (after.sent = c.sent → Refused oracle c.log c.waitreplys) := by
  induction fuel generalizing c with
  | zero =>
    rw [drainLoop] at ran
    split_ifs at ran with empty
    obtain rfl := Option.some.inj ran
    rw [empty]
    exact ⟨Nat.le_refl _, fun _ => trivial⟩
  | succ fuel ih =>
    rw [drainLoop] at ran
    cases queue : c.waitreplys with
    | nil =>
      rw [queue] at ran
      exact ⟨Nat.le_of_eq (congrArg Client.sent (Option.some.inj ran)), fun _ => trivial⟩
    | cons head rest =>
      rw [queue] at ran
      obtain ⟨closed', -, sent⟩ := lose_closed oracle { c with waitreplys := rest } head closed
      obtain ⟨later, rests⟩ := ih _ closed' ran
      refine ⟨Nat.le_trans sent later, fun same => ?_⟩
      have unsent : (lose oracle { c with waitreplys := rest } head).sent = c.sent := by
        dsimp only at sent
        omega
      have refused := lose_same_sent oracle { c with waitreplys := rest } head closed unsent
      rw [lose_refused oracle { c with waitreplys := rest } head closed refused] at rests
      exact ⟨refused, rests same⟩

theorem drain_refused (queue : List Pending) (c : Client) (closed : c.close = true)
    (waiting : c.waitreplys = queue) (refused : Refused oracle c.log queue) :
    drainLoop oracle queue.length c =
      some { c with waitreplys := [], log := c.log ++ queue.map lostEvent } := by
  induction queue generalizing c with
  | nil =>
    rw [length_nil, drainLoop, if_pos waiting, map_nil, append_nil, ← waiting]
  | cons head rest ih =>
    have lost := lose_refused oracle { c with waitreplys := rest } head closed refused.1
    rw [length_cons, drainLoop, waiting]
    dsimp only
    rw [lost, ih { c with waitreplys := rest, log := c.log ++ [lostEvent head] } closed rfl
      refused.2, map_cons, append_assoc]
    rfl

theorem destroy_refused (c : Client) (closed : c.close = true)
    (refused : Refused oracle c.log c.waitreplys) :
    destroyRedisclient oracle c.waitreplys.length c = some (destroy c) := by
  have drained := drain_refused oracle c.waitreplys { c with tree := none } closed rfl refused
  exact congrArg (Option.map _) drained

end Draining

/-- `CLIENT_CLOSE` has been set, and a callback that was running did `later` before
`destroy_redisclient` was called. The requests that waited then are still waiting, and
the client is destroyed with each of them told once and none added if and only if the
socket refuses everything that the callbacks send. -/
theorem destroy_tells_once_iff (oracle : List Event → List Act) (c : Client)
    (closing : c.close = true) (later : List Act) :
    c.waitreplys <+: (later.foldl perform c).waitreplys ∧
      ((∃ fuel after, destroyRedisclient oracle fuel (later.foldl perform c) = some after ∧
          after.life = .destroyed ∧ after.sent = (later.foldl perform c).sent ∧
          after.log = (later.foldl perform c).log ++
            (later.foldl perform c).waitreplys.map lostEvent) ↔
        Refused oracle (later.foldl perform c).log (later.foldl perform c).waitreplys) := by
  obtain ⟨closed, -, -, queue⟩ := acts_closed later c closing
  refine ⟨queue, ?_, ?_⟩
  · intro destroyed
    obtain ⟨fuel, after, ran, -, sent, -⟩ := destroyed
    obtain ⟨drained, looped, same⟩ := Option.map_eq_some_iff.mp ran
    apply (drain_sent oracle fuel { later.foldl perform c with tree := none } drained closed
      looped).2
    rw [← same] at sent
    exact sent
  · intro refused
    exact ⟨_, _, destroy_refused oracle _ closed refused, rfl, rfl, rfl⟩

def closingClient : Client :=
  { newClient with
    close := true, sent := 1, timer := true
    waitreplys := [{ id := 0, deadline := 10000, cb := true }] }

/-- The callback asks again and the socket refuses, and then it closes the client. -/
theorem refused_retry_destroyed :
    ∃ fuel after, destroyRedisclient (fun _ => [.execute true false 5, .close]) fuel closingClient =
        some after ∧ after.life = .destroyed ∧ after.sent = 1 ∧ after.log.length = 1 := by
  have refused : Refused (fun _ => [.execute true false 5, .close]) closingClient.log
      closingClient.waitreplys := ⟨fun _ => by decide, trivial⟩
  obtain ⟨fuel, after, ran, life, sent, log⟩ := (destroy_tells_once_iff
    (fun _ => [.execute true false 5, .close]) closingClient rfl []).2.mpr refused
  exact ⟨fuel, after, ran, life, sent, congrArg List.length log⟩

theorem reissue_never_drained (fuel : Nat) (c : Client) (pending : Pending)
    (waiting : c.waitreplys = [pending]) (called : pending.cb = true) :
    drainLoop (fun _ => [.execute true true 5]) fuel c = none := by
  induction fuel generalizing c pending with
  | zero =>
    rw [drainLoop, waiting]
    rfl
  | succ fuel ih =>
    rw [drainLoop, waiting]
    dsimp only
    rw [lose, if_pos called]
    exact ih _ _ rfl rfl

/-- The callback asks again whenever it is called and the socket takes it: the loop never
ends, where it would with a callback that does nothing. -/
theorem reissue_never_destroyed :
    (destroyRedisclient (fun _ => []) 2 closingClient).isSome = true ∧
      ∀ fuel, destroyRedisclient (fun _ => [.execute true true 5]) fuel closingClient = none := by
  refine ⟨by decide, fun fuel => ?_⟩
  rw [destroyRedisclient, reissue_never_drained fuel _ _ rfl rfl]
  rfl

end Chuck.RedisDestroy
