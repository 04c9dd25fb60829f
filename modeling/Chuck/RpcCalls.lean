import Chuck.RpcTables
import Chuck.Support.FaultFreeRuns

/-!
# Every call completes once

As long as no call enters the table of its client with the number of a call still in it,
which takes `2 ^ 64` calls, every call is completed once by the first of its response,
its timer and the close of its connection.
-/

namespace Chuck.RpcCalls

open Support.EntryList Support.FaultFreeRuns RpcModel RpcTables Function Option

variable {Reply : Type}

variable {s after : Rpc Reply} {m : Nat}

/-! ## Runs -/

/-- In every run in which no call enters a table with the number of a call still in it, no
callback is invoked twice. A response goes to a call on its connection with its number
and not after the connection was closed. Calls whose timer fired are invoked, and when
`M.OnConnClose` has returned all calls on the connection are. No event raises an error. -/
theorem calls_complete_once {pairs : List Seq → List Seq} (shuffles : ∀ ks, (pairs ks).Perm ks)
    {s : Rpc Reply} (reached : Reaches (step pairs) FreshNumber newRpc s) :
    (invokedCalls s.log).Nodup ∧
    (∀ i conn seqno reply, .invoked i (.response conn seqno reply) ∈ s.log →
      s.conn (s.origin i).1 = conn ∧ (s.origin i).2 = seqno) ∧
    (s.log.Pairwise fun earlier later => ∀ i conn seqno reply,
      later = .invoked i (.response conn seqno reply) → earlier ≠ .closed conn) ∧
    (∀ i < s.calls, s.timer i = .fired → i ∈ invokedCalls s.log) ∧
    (∀ conn, .closed conn ∈ s.log → (∀ c ks, (c, ks) ∈ s.loops → s.conn c ≠ conn) →
      ∀ i < s.calls, s.conn (s.origin i).1 = conn → i ∈ invokedCalls s.log) ∧
    ∀ event, FreshNumber s event → ∃ after, step pairs s event = some after := by
  have carries : Carries (step pairs) FreshNumber (newRpc : Rpc Reply) Good :=
    ⟨new_good, fun s event good fresh => step_good shuffles good event fresh⟩
  obtain ⟨tables, logged⟩ := carries.invariant reached
  refine ⟨logged.once, logged.matching, logged.timely, ?_, ?_, ?_⟩
  · intro i below fired
    rw [logged.settled i below, fired]
    exact Timer.noConfusion
  · intro conn closed returned i below here
    rw [logged.settled i below]
    intro opened
    have listed := (tables.begun i opened).2
    rcases (tables.awaited _ _ i listed).mp opened with live | ⟨ks, looping, -⟩
    · have gone := (logged.closes conn).mp closed
      have empty := (tables.current _ _ live).2.2 (here ▸ gone)
      rw [empty] at listed
      cases listed
    · exact returned _ ks looping here
  · intro event fresh
    obtain ⟨after, ran, -⟩ := carries.goes_on reached fresh
    exact ⟨after, ran⟩

instance decidableFreshNumber (s : Rpc Reply) :
    (event : Event Reply) → Decidable (FreshNumber s event)
  | .call _ _ _ => inferInstanceAs (Decidable (_ → _ → _ → _))
  | .client _ => isTrue trivial
  | .response _ _ _ => isTrue trivial
  | .timeout _ => isTrue trivial
  | .close _ => isTrue trivial
  | .next => isTrue trivial

def rpcSession : List (Event Nat) :=
  [.client 7, .call 0 true true, .call 0 true true, .call 0 true true, .response 7 2 99,
    .response 7 2 99, .response 8 1 5, .timeout 0, .close 7, .call 0 true true, .next, .next]

theorem rpc_session_completes :
    ∃ s, run (step id) newRpc rpcSession = some s ∧
      s.log = [.invoked 1 (.response 7 2 99), .invoked 0 .timeout, .closed 7,
        .invoked 2 .connectionLoss] ∧ (invokedCalls s.log).Nodup := by
  have runs : (run (step id) newRpc rpcSession).map (·.log) =
      some [.invoked 1 (.response 7 2 99), .invoked 0 .timeout, .closed 7,
        .invoked 2 .connectionLoss] := by
    decide +kernel
  obtain ⟨s, ran, log⟩ := map_eq_some_iff.mp runs
  have reached : Reaches (step id) FreshNumber newRpc s :=
    Reaches.run _ .start (by decide +kernel) ran
  exact ⟨s, ran, log, (calls_complete_once List.Perm.refl reached).1⟩

/-! ## Numbers that come again -/

/-- The number is that of call `m`, and the numbers in the tables are those of calls
before it. -/
def Numbered (s : Rpc Reply) (m : Nat) : Prop :=
  s.seq = BitVec.ofNat 64 (m + 1) ∧
    ∀ c, ∀ k ∈ keys (s.callbacks c), ∃ j < m, k = BitVec.ofNat 64 (j + 1)

theorem Numbered.fresh (numbered : Numbered s m) (few : m < 2 ^ 64)
    (c : Nat) : (s.callbacks c).lookup s.seq = none := by
  rw [lookup_none_iff]
  intro member
  obtain ⟨j, less, same⟩ := numbered.2 c _ member
  rw [numbered.1] at same
  have values := congrArg BitVec.toNat same
  rw [BitVec.toNat_ofNat, BitVec.toNat_ofNat] at values
  omega

theorem Numbered.removed (numbered : Numbered s m) (seq : after.seq = s.seq)
    (part : ∀ c, keys (after.callbacks c) ⊆ keys (s.callbacks c)) : Numbered after m :=
  ⟨seq.trans numbered.1, fun c k member => numbered.2 c k (part c member)⟩

theorem keys_remove_subset (table : List (Seq × Nat)) (seqno : Seq) :
    keys (remove table seqno) ⊆ keys table :=
  (List.filter_sublist.map Prod.fst).subset

theorem keys_update_subset {tables : Nat → List (Seq × Nat)} {client : Nat}
    {table : List (Seq × Nat)} (part : keys table ⊆ keys (tables client)) (c : Nat) :
    keys (update tables client table c) ⊆ keys (tables c) := by
  by_cases same : c = client
  · rw [same, update_self]
    exact part
  · rw [update_of_ne same]
    exact List.Subset.refl _

theorem Numbered.call (numbered : Numbered s m) (client : Nat)
    (callback sent : Bool) : Numbered (call s client callback sent) (m + 1) := by
  have next : s.seq + 1 = BitVec.ofNat 64 (m + 1 + 1) := by
    rw [numbered.1]
    exact (BitVec.ofNat_add (m + 1) 1).symm
  have kept : ∀ c, ∀ k ∈ keys (s.callbacks c), ∃ j < m + 1, k = BitVec.ofNat 64 (j + 1) := by
    intro c k member
    obtain ⟨j, less, same⟩ := numbered.2 c k member
    exact ⟨j, Nat.lt_succ_of_lt less, same⟩
  rw [RpcModel.call]
  split_ifs
  · refine ⟨next, ?_⟩
    intro c k member
    simp only [setCallbacks] at member
    by_cases same : c = client
    · rw [same, update_self, keys_store] at member
      split_ifs at member
      · exact kept client k member
      · rcases List.mem_append.mp member with old | new
        · exact kept client k old
        · exact ⟨m, Nat.lt_succ_self m, (List.mem_singleton.mp new).trans numbered.1⟩
    · rw [update_of_ne same] at member
      exact kept c k member
  · exact ⟨next, kept⟩
  · exact ⟨next, kept⟩

def uses : Event Reply → Nat
  | .call _ _ _ => 1
  | _ => 0

theorem un_register_callbacks {call : Nat} (ran : unRegister s call = some after) :
    after.seq = s.seq ∧ after.callbacks = s.callbacks := by
  rw [unRegister] at ran
  split_ifs at ran
  rw [← Option.some.inj ran]
  exact ⟨rfl, rfl⟩

theorem numbered_step {pairs : List Seq → List Seq} (numbered : Numbered s m) {event : Event Reply}
    (ran : step pairs s event = some after) : ∃ n ≤ m + uses event, Numbered after n := by
  cases event with
  | client conn =>
    refine ⟨m, Nat.le_refl m, ?_⟩
    rw [← Option.some.inj ran, rpcClient]
    split
    · exact numbered
    · exact numbered.removed rfl (keys_update_subset (List.nil_subset _))
  | call client callback sent =>
    rw [step] at ran
    split_ifs at ran
    · rw [← Option.some.inj ran]
      exact ⟨m + 1, le_rfl, numbered.call client callback sent⟩
    · rw [← Option.some.inj ran]
      exact ⟨m, Nat.le_succ m, numbered⟩
  | response conn seqno reply =>
    refine ⟨m, Nat.le_refl m, ?_⟩
    rw [step, onRPCMsg] at ran
    split at ran
    · rw [← Option.some.inj ran]
      exact numbered
    · split at ran
      · rw [← Option.some.inj ran]
        exact numbered
      · obtain ⟨middle, ended, rfl⟩ := map_eq_some_iff.mp ran
        obtain ⟨seq, callbacks⟩ := un_register_callbacks ended
        refine numbered.removed seq ?_
        intro c
        rw [invoke, callbacks]
        exact keys_update_subset (keys_remove_subset _ _) c
  | timeout call =>
    refine ⟨m, Nat.le_refl m, ?_⟩
    rw [step] at ran
    split_ifs at ran
    · rw [← Option.some.inj ran]
      exact numbered.removed rfl (keys_update_subset (keys_remove_subset _ _))
    · rw [← Option.some.inj ran]
      exact numbered
  | close conn =>
    refine ⟨m, Nat.le_refl m, ?_⟩
    rw [← Option.some.inj ran, onConnClose]
    split <;> exact numbered
  | next =>
    refine ⟨m, Nat.le_refl m, ?_⟩
    rw [step, closeNext] at ran
    split at ran
    · rw [← Option.some.inj ran]
      exact numbered
    · rw [← Option.some.inj ran]
      exact numbered
    · dsimp only at ran
      split at ran
      · rw [← Option.some.inj ran]
        exact numbered
      · obtain ⟨middle, ended, rfl⟩ := map_eq_some_iff.mp ran
        obtain ⟨seq, callbacks⟩ := un_register_callbacks ended
        refine numbered.removed seq ?_
        intro c
        rw [invoke, callbacks]
        exact List.Subset.refl _

/-- With at most `2 ^ 64` calls no number comes again. -/
theorem few_calls_fresh {pairs : List Seq → List Seq} (events : List (Event Reply))
    (reached : Reaches (step pairs) FreshNumber newRpc s) (numbered : Numbered s m)
    (few : m + (events.map uses).sum ≤ 2 ^ 64) (ran : run (step pairs) s events = some after) :
    Reaches (step pairs) FreshNumber newRpc after := by
  induction events generalizing s m with
  | nil => exact Option.some.inj ran ▸ reached
  | cons event events ih =>
    rw [List.map_cons, List.sum_cons] at few
    rw [run] at ran
    cases stepped : step pairs s event with
    | none => simp [stepped] at ran
    | some middle =>
      rw [stepped, bind_some] at ran
      obtain ⟨n, bound, next⟩ := numbered_step numbered stepped
      have fresh : FreshNumber s event := by
        cases event with
        | call client callback sent =>
          rw [uses] at few
          exact fun _ _ _ => numbered.fresh (by omega) client
        | _ => trivial
      exact ih (.next event reached fresh stepped) next (by omega) ran

/-- Events in any order, with at most `2 ^ 64` calls among them, raise no error, and every call
is open with its timer or has been completed once. -/
theorem few_calls_accounted {pairs : List Seq → List Seq} (shuffles : ∀ ks, (pairs ks).Perm ks)
    (events : List (Event Reply)) (few : (events.map uses).sum ≤ 2 ^ 64) :
    ∃ s, run (step pairs) newRpc events = some s ∧ (invokedCalls s.log).Nodup ∧
      ∀ i < s.calls, i ∈ invokedCalls s.log ↔ s.timer i ≠ .registered := by
  have carries : Carries (step pairs) FreshNumber (newRpc : Rpc Reply) Good :=
    ⟨new_good, fun s event good fresh => step_good shuffles good event fresh⟩
  have numbered : Numbered (newRpc : Rpc Reply) 0 := ⟨rfl, fun c k member => by cases member⟩
  have runs : ∃ s, run (step pairs) newRpc events = some s := by
    induction events using List.reverseRecOn with
    | nil => exact ⟨_, rfl⟩
    | append_singleton earlier event ih =>
      rw [List.map_append, List.sum_append] at few
      obtain ⟨s, ran⟩ := ih (by omega)
      have reached := few_calls_fresh earlier .start numbered (by omega) ran
      have goes (fresh : FreshNumber s event) : ∃ after, step pairs s event = some after :=
        (carries.goes_on reached fresh).imp fun _ => And.left
      obtain ⟨after, stepped⟩ : ∃ after, step pairs s event = some after := by
        cases event with
        | call client callback sent =>
          rw [step]
          split_ifs <;> exact ⟨_, rfl⟩
        | _ => exact goes trivial
      refine ⟨after, ?_⟩
      rw [run_append, ran, bind_some, run, stepped]
      rfl
  obtain ⟨s, ran⟩ := runs
  have reached := few_calls_fresh events .start numbered (by omega) ran
  have logged := (carries.invariant reached).logged
  exact ⟨s, ran, logged.once, logged.settled⟩

theorem rpc_session_accounted :
    ∃ s, run (step id) newRpc rpcSession = some s ∧ (invokedCalls s.log).Nodup ∧
      ∀ i < s.calls, i ∈ invokedCalls s.log ↔ s.timer i ≠ .registered :=
  few_calls_accounted List.Perm.refl rpcSession (by decide)

theorem calls_elsewhere (n : Nat) (s : Rpc Reply) (below : 1 < s.made)
    (working : s.lost (s.conn 1) = false) :
    ∃ origin timer callbacks,
      run (step id) s (List.replicate n (.call 1 true true)) = some { s with
        seq := s.seq + BitVec.ofNat 64 n, calls := s.calls + n
        origin := origin, timer := timer, callbacks := callbacks } ∧
      callbacks 0 = s.callbacks 0 ∧ ∀ i < s.calls, origin i = s.origin i := by
  induction n generalizing s with
  | zero =>
    refine ⟨s.origin, s.timer, s.callbacks, ?_, rfl, fun _ _ => rfl⟩
    simp [run]
  | succ n ih =>
    let next := call s 1 true true
    have made : next = { s with
        seq := s.seq + 1, calls := s.calls + 1
        origin := update s.origin s.calls (1, s.seq)
        timer := update s.timer s.calls .registered
        callbacks := update s.callbacks 1 (store (s.callbacks 1) s.seq s.calls) } := by
      simp only [next, call, working, setCallbacks, Bool.not_false, Bool.and_self, if_true]
    have stepped : step id s (.call 1 true true) = some next := if_pos below
    obtain ⟨origin, timer, callbacks, ran, table, origins⟩ :=
      ih next (by rw [made]; exact below) (by rw [made]; exact working)
    refine ⟨origin, timer, callbacks, ?_, ?_, ?_⟩
    · rw [List.replicate_succ, run, stepped, bind_some, ran, made]
      have sums : s.seq + 1 + BitVec.ofNat 64 n = s.seq + BitVec.ofNat 64 (n + 1) := by
        rw [BitVec.add_assoc, BitVec.ofNat_add, BitVec.add_comm 1]
        rfl
      simp only [sums, Nat.add_assoc, Nat.add_comm 1 n]
    · rw [table, made]
      exact update_of_ne Nat.zero_ne_one (store (s.callbacks 1) s.seq s.calls) s.callbacks
    · intro i less
      rw [origins i (by rw [made]; exact Nat.lt_succ_of_lt less), made]
      exact update_of_ne less.ne _ _

theorem close_after_repeat (s : Rpc Reply) (live : s.clients 0 = some 0) (made : 0 < s.made)
    (conn : s.conn 0 = 0) (working : s.lost 0 = false) (idle : s.loops = []) (quiet : s.log = [])
    (listed : s.callbacks 0 = [(s.seq, 0)]) :
    ∃ after, run (step id) s [.call 0 true true, .close 0, .next, .next] = some after ∧
      after.log = [.closed 0, .invoked s.calls .connectionLoss] ∧ after.loops = [] ∧
      after.calls = s.calls + 1 ∧ after.conn = s.conn ∧
      after.origin = update s.origin s.calls (0, s.seq) := by
  have replaced : store (s.callbacks 0) s.seq s.calls = [(s.seq, s.calls)] := by
    rw [listed, store, if_pos rfl]
  have stored : call s 0 true true = { s with
      seq := s.seq + 1, calls := s.calls + 1
      origin := update s.origin s.calls (0, s.seq)
      timer := update s.timer s.calls .registered
      callbacks := update s.callbacks 0 [(s.seq, s.calls)] } := by
    simp only [call, conn, working, setCallbacks, replaced, Bool.not_false, Bool.and_self, if_true]
  have called : step id s (.call 0 true true) = some (call s 0 true true) := if_pos made
  rw [run, called, bind_some, stored]
  simp only [run, step, onConnClose, live, closeNext, idle, update_self, keys, List.map_cons,
    List.map_nil, id, lookup_cons, if_true, unRegister, invoke, quiet, bind_some,
    map_some, List.nil_append, reduceCtorEq, if_false]
  exact ⟨_, rfl, rfl, rfl, rfl, rfl, rfl⟩

/-- A call on connection 0, as many on connection 1 as make its number come again, another
call on connection 0 and the close of that connection. -/
def repeatedNumber : List (Event Nat) :=
  List.append [.client 0, .client 1, .call 0 true true]
    (List.append (List.replicate (2 ^ 64 - 1) (.call 1 true true))
      [.call 0 true true, .close 0, .next, .next])

/-- The close does not complete the first call. -/
theorem repeated_number_loses_call :
    ∃ s, run (step id) newRpc repeatedNumber = some s ∧
      .closed 0 ∈ s.log ∧ s.loops = [] ∧ 0 < s.calls ∧ s.conn (s.origin 0).1 = 0 ∧
      0 ∉ invokedCalls s.log := by
  let first : Rpc Nat := call (rpcClient (rpcClient newRpc 0) 1) 0 true true
  have begins : run (step id) newRpc [.client 0, .client 1, .call 0 true true] = some first := rfl
  obtain ⟨origin, timer, callbacks, ran, table, origins⟩ :=
    calls_elsewhere (2 ^ 64 - 1) first (by decide) (by decide)
  have wrapped : first.seq + BitVec.ofNat 64 (2 ^ 64 - 1) = 1 := by decide
  rw [wrapped] at ran
  let many : Rpc Nat := { first with
    seq := 1, calls := first.calls + (2 ^ 64 - 1)
    origin := origin, timer := timer, callbacks := callbacks }
  have listed : many.callbacks 0 = [(many.seq, 0)] := table
  have later : many.calls ≠ 0 := Nat.succ_ne_zero _
  have start : many.origin 0 = (0, 1) := origins 0 (Nat.zero_lt_one)
  obtain ⟨after, ended, log, loops, calls, conn, starts⟩ :=
    close_after_repeat many rfl (Nat.zero_lt_two) rfl rfl rfl rfl listed
  refine ⟨after, ?_, ?_, loops, ?_, ?_, ?_⟩
  · rw [repeatedNumber, List.append_eq, run_append, begins, bind_some, List.append_eq,
      run_append, ran, bind_some]
    exact ended
  · rw [log]
    exact List.mem_cons_self
  · rw [calls]
    exact Nat.succ_pos _
  · rw [conn, starts, update_of_ne later.symm, start]
    rfl
  · rw [log]
    exact fun member => later (List.mem_singleton.mp member).symm

end Chuck.RpcCalls
