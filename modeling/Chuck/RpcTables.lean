import Chuck.RpcModel

/-!
# The tables of open calls

A call is open as long as its timer is registered. Then it is in the table of its
client, and the client is the current one of its connection or the loop of
`M.OnConnClose` will still visit it. Whatever completes a call ends its timer.
-/

namespace Chuck.RpcTables

open Support.EntryList RpcModel Function List

variable {Reply : Type}

def FreshNumber (s : Rpc Reply) : Event Reply → Prop
  | .call client callback sent =>
    -- other calls do not enter the table
    callback = true → sent = true → s.lost (s.conn client) = false →
      (s.callbacks client).lookup s.seq = none
  | _ => True

/-- The client is the current one of its connection, or the loop of
`M.OnConnClose` will still visit the number. -/
def Awaited (s : Rpc Reply) (c : Nat) (k : Seq) : Prop :=
  s.clients (s.conn c) = some c ∨ ∃ ks, (c, ks) ∈ s.loops ∧ k ∈ ks

structure Tables (s : Rpc Reply) : Prop where
  nodup : ∀ c, (keys (s.callbacks c)).Nodup
  stored : ∀ c k i, (s.callbacks c).lookup k = some i → s.origin i = (c, k) ∧ i < s.calls
  unused : ∀ c, s.made ≤ c → s.callbacks c = []
  owners : ∀ i < s.calls, (s.origin i).1 < s.made
  begun : ∀ i, s.timer i = .registered →
    i < s.calls ∧ (s.callbacks (s.origin i).1).lookup (s.origin i).2 = some i
  awaited : ∀ c k i, (s.callbacks c).lookup k = some i →
    (s.timer i = .registered ↔ Awaited s c k)
  current : ∀ conn c, s.clients conn = some c → s.conn c = conn ∧ c < s.made ∧
    (s.lost conn = true → s.callbacks c = [])
  single : ∀ c < s.made, s.lost (s.conn c) = false → s.clients (s.conn c) = some c
  looping : ∀ c ks, (c, ks) ∈ s.loops → c < s.made ∧ s.lost (s.conn c) = true ∧
    s.clients (s.conn c) ≠ some c ∧ ks.Nodup
  apart : (s.loops.map Prod.fst).Nodup

def invokedCalls (log : List (Entry Reply)) : List Nat :=
  log.filterMap fun
    | .invoked i _ => some i
    | .closed _ => none

structure Logged (s : Rpc Reply) : Prop where
  once : (invokedCalls s.log).Nodup
  settled : ∀ i < s.calls, i ∈ invokedCalls s.log ↔ s.timer i ≠ .registered
  known : ∀ i ∈ invokedCalls s.log, i < s.calls
  matching : ∀ i conn seqno reply, .invoked i (.response conn seqno reply) ∈ s.log →
    s.conn (s.origin i).1 = conn ∧ (s.origin i).2 = seqno
  timely : s.log.Pairwise fun earlier later => ∀ i conn seqno reply,
    later = .invoked i (.response conn seqno reply) → earlier ≠ .closed conn
  closes : ∀ conn, .closed conn ∈ s.log ↔ s.lost conn = true

structure Good (s : Rpc Reply) : Prop where
  tables : Tables s
  logged : Logged s

section Steps

variable {s : Rpc Reply}

/-! ## Clients and calls -/

theorem Good.numbered (good : Good s) (seq : Seq) : Good { s with seq := seq } :=
  ⟨{ good.tables with },
    { good.logged with }⟩

theorem client_good (good : Good s) (conn : Nat) : Good (rpcClient s conn) := by
  rw [rpcClient]
  cases vacant : s.clients conn with
  | some c => exact good
  | none =>
    obtain ⟨tables, logged⟩ := good
    have same : update s.callbacks s.made [] = s.callbacks := by
      rw [← tables.unused s.made (Nat.le_refl _), update_eq_self]
    have conns : ∀ c < s.made, update s.conn s.made conn c = s.conn c := fun c below =>
      update_of_ne (Nat.ne_of_lt below) _ _
    have clients : ∀ c < s.made, update s.clients conn (some s.made) (s.conn c) = some c ↔
        s.clients (s.conn c) = some c := by
      intro c below
      by_cases here : s.conn c = conn
      · rw [here, update_self, vacant, Option.some.injEq]
        constructor
        · exact fun new => absurd new.symm (Nat.ne_of_lt below)
        · exact fun none => absurd none.symm (Option.some_ne_none c)
      · rw [update_of_ne here]
    simp only [same]
    constructor
    · refine ⟨tables.nodup, tables.stored, ?_, ?_, tables.begun, ?_, ?_, ?_, ?_, tables.apart⟩
      · exact fun c above => tables.unused c (Nat.le_of_succ_le above)
      · exact fun i below => Nat.lt_succ_of_lt (tables.owners i below)
      · intro c k i listed
        obtain ⟨origin, called⟩ := tables.stored c k i listed
        have below := tables.owners i called
        rw [origin] at below
        simp only [Awaited, conns c below, clients c below]
        exact tables.awaited c k i listed
      · intro other c found
        dsimp only at found ⊢
        by_cases here : other = conn
        · subst here
          rw [update_self, Option.some.injEq] at found
          subst found
          exact ⟨update_self _ _ _, Nat.lt_succ_self _,
            fun _ => tables.unused s.made (Nat.le_refl _)⟩
        · rw [update_of_ne here] at found
          obtain ⟨conn', below, rest⟩ := tables.current other c found
          exact ⟨(conns c below).trans conn', Nat.lt_succ_of_lt below, rest⟩
      · intro c below working
        rcases Nat.lt_succ_iff_lt_or_eq.mp below with old | rfl
        · simp only [conns c old] at working ⊢
          exact (clients c old).mpr (tables.single c old working)
        · simp only [update_self]
      · intro c ks looping
        have old := tables.looping c ks looping
        simp only [conns c old.1, ne_eq, clients c old.1]
        exact ⟨Nat.lt_succ_of_lt old.1, old.2⟩
    · refine { logged with matching := ?_ }
      intro i other seqno reply member
      have invoked : i ∈ invokedCalls s.log := mem_filterMap.mpr ⟨_, member, rfl⟩
      simp only [conns _ (tables.owners i (logged.known i invoked))]
      exact logged.matching i other seqno reply member

/-- A call enters the table of its client under a number that is not in it. -/
theorem Tables.add (tables : Tables s) {client : Nat} (below : client < s.made)
    (working : s.lost (s.conn client) = false)
    (fresh : (s.callbacks client).lookup s.seq = none) (seq : Seq) :
    Tables { s with
      seq := seq, calls := s.calls + 1
      origin := update s.origin s.calls (client, s.seq)
      timer := update s.timer s.calls .registered
      callbacks := update s.callbacks client
        (store (s.callbacks client) s.seq s.calls) } := by
  have live := tables.single client below working
  have entry : ∀ c k i,
      (update s.callbacks client (store (s.callbacks client) s.seq s.calls) c).lookup k =
        some i ↔ (i = s.calls ∧ c = client ∧ k = s.seq) ∨ (s.callbacks c).lookup k = some i := by
    intro c k i
    by_cases here : c = client
    · subst here
      rw [update_self, lookup_store]
      by_cases same : k = s.seq
      · rw [if_pos same, same, fresh]
        simp [eq_comm]
      · rw [if_neg same]
        simp [same]
    · rw [update_of_ne here]
      simp [here]
  have origins : ∀ i < s.calls,
      update s.origin s.calls (client, s.seq) i = s.origin i :=
    fun i less => update_of_ne (Nat.ne_of_lt less) _ _
  -- What holds of the new call and of the others holds of all.
  have split : ∀ i, update s.timer s.calls .registered i = .registered →
      i = s.calls ∨ s.timer i = .registered ∧ i < s.calls := by
    intro i registered
    by_cases new : i = s.calls
    · exact .inl new
    · rw [update_of_ne new] at registered
      exact .inr ⟨registered, (tables.begun i registered).1⟩
  refine ⟨?_, ?_, ?_, ?_, ?_, ?_, ?_, tables.single, tables.looping, tables.apart⟩
  · intro c
    dsimp only
    by_cases here : c = client
    · rw [here, update_self]
      exact nodup_keys_store (tables.nodup client) _ _
    · rw [update_of_ne here]
      exact tables.nodup c
  · intro c k i found
    rcases (entry c k i).mp found with ⟨rfl, rfl, rfl⟩ | old
    · exact ⟨update_self _ _ _, Nat.lt_succ_self _⟩
    · obtain ⟨origin, less⟩ := tables.stored c k i old
      exact ⟨(origins i less).trans origin, Nat.lt_succ_of_lt less⟩
  · intro c above
    have other : c ≠ client := Nat.ne_of_gt (Nat.lt_of_lt_of_le below above)
    exact (update_of_ne other _ _).trans (tables.unused c above)
  · intro i less
    dsimp only
    rcases Nat.lt_succ_iff_lt_or_eq.mp less with old | rfl
    · rw [origins i old]
      exact tables.owners i old
    · rw [update_self]
      exact below
  · intro i registered
    dsimp only
    rcases split i registered with rfl | ⟨old, less⟩
    · rw [update_self, entry]
      exact ⟨Nat.lt_succ_self _, .inl ⟨rfl, rfl, rfl⟩⟩
    · rw [origins i less, entry]
      exact ⟨Nat.lt_succ_of_lt less, .inr (tables.begun i old).2⟩
  · intro c k i listed
    dsimp only
    rcases (entry c k i).mp listed with ⟨rfl, rfl, -⟩ | old
    · exact ⟨fun _ => .inl live, fun _ => update_self _ _ _⟩
    · rw [update_of_ne (Nat.ne_of_lt (tables.stored c k i old).2)]
      exact tables.awaited c k i old
  · intro conn c found
    obtain ⟨same, less, empty⟩ := tables.current conn c found
    refine ⟨same, less, fun gone => ?_⟩
    have other : c ≠ client := by
      rintro rfl
      rw [same] at working
      exact Bool.false_ne_true (working.symm.trans gone)
    exact (update_of_ne other _ _).trans (empty gone)

theorem Logged.add (logged : Logged s) (client : Nat) (seq : Seq)
    (callbacks : Nat → List (Seq × Nat)) :
    Logged { s with
      seq := seq, calls := s.calls + 1
      origin := update s.origin s.calls (client, s.seq)
      timer := update s.timer s.calls .registered
      callbacks := callbacks } := by
  refine ⟨logged.once, ?_, ?_, ?_, logged.timely, logged.closes⟩
  · intro i less
    dsimp only
    rcases Nat.lt_succ_iff_lt_or_eq.mp less with old | rfl
    · rw [update_of_ne (Nat.ne_of_lt old)]
      exact logged.settled i old
    · rw [update_self]
      constructor
      · exact fun invoked => absurd (logged.known _ invoked) (Nat.lt_irrefl _)
      · exact fun ended => absurd rfl ended
  · exact fun i invoked => Nat.lt_succ_of_lt (logged.known i invoked)
  · intro i conn seqno reply member
    have invoked : i ∈ invokedCalls s.log := mem_filterMap.mpr ⟨_, member, rfl⟩
    dsimp only
    rw [update_of_ne (Nat.ne_of_lt (logged.known i invoked))]
    exact logged.matching i conn seqno reply member

theorem call_good (good : Good s) {client : Nat} (below : client < s.made) {callback sent : Bool}
    (fresh : FreshNumber s (.call client callback sent)) : Good (call s client callback sent) := by
  rw [call]
  by_cases goes : (sent && !s.lost (s.conn client)) = true
  · rw [if_pos goes]
    cases callback with
    | false => exact good.numbered _
    | true =>
      rw [Bool.and_eq_true, Bool.not_eq_true'] at goes
      simp only [if_true, setCallbacks]
      exact ⟨good.tables.add below goes.2 (fresh rfl goes.1 goes.2) _, good.logged.add client _ _⟩
  · rw [if_neg goes]
    exact good.numbered _

/-! ## Completions -/

theorem invoked_append (log : List (Entry Reply)) (i : Nat) (outcome : Outcome Reply) :
    invokedCalls (log ++ [.invoked i outcome]) = invokedCalls log ++ [i] := by
  rw [invokedCalls, filterMap_append]
  rfl

theorem Logged.complete (logged : Logged s) {i : Nat} (below : i < s.calls)
    (opened : s.timer i = .registered) {timer : Timer} (ended : timer ≠ .registered)
    {outcome : Outcome Reply} (callbacks : Nat → List (Seq × Nat)) (loops : List (Nat × List Seq))
    (fits : ∀ conn seqno reply, outcome = .response conn seqno reply →
      s.conn (s.origin i).1 = conn ∧ (s.origin i).2 = seqno ∧ s.lost conn = false) :
    Logged { s with
      timer := update s.timer i timer, callbacks := callbacks, loops := loops
      log := s.log ++ [.invoked i outcome] } := by
  have open_ : i ∉ invokedCalls s.log := fun invoked =>
    (logged.settled i below).mp invoked opened
  refine ⟨?_, ?_, ?_, ?_, ?_, ?_⟩
  · rw [invoked_append, ← concat_eq_append]
    exact List.Nodup.concat open_ logged.once
  · intro j less
    rw [invoked_append, mem_append, mem_singleton]
    dsimp only
    by_cases same : j = i
    · subst same
      rw [update_self]
      exact ⟨fun _ => ended, fun _ => .inr rfl⟩
    · rw [update_of_ne same, or_iff_left same]
      exact logged.settled j less
  · intro j invoked
    rw [invoked_append, mem_append, mem_singleton] at invoked
    rcases invoked with old | rfl
    · exact logged.known j old
    · exact below
  · intro j conn seqno reply member
    rcases mem_append.mp member with old | new
    · exact logged.matching j conn seqno reply old
    · obtain ⟨rfl, same⟩ := Entry.invoked.inj (mem_singleton.mp new)
      obtain ⟨here, number, -⟩ := fits conn seqno reply same.symm
      exact ⟨here, number⟩
  · apply pairwise_append.mpr
    refine ⟨logged.timely, pairwise_singleton _ _, ?_⟩
    intro earlier member later new j conn seqno reply same
    rw [mem_singleton.mp new] at same
    obtain ⟨-, -, working⟩ := fits conn seqno reply (Entry.invoked.inj same).2
    rintro rfl
    have gone := (logged.closes conn).mp member
    exact Bool.false_ne_true (working.symm.trans gone)
  · intro conn
    rw [mem_append, mem_singleton, or_iff_left nofun]
    exact logged.closes conn

/-- A completed call leaves its table; the others stay as they are. -/
theorem Tables.complete (tables : Tables s) {i : Nat} (opened : s.timer i = .registered)
    {timer : Timer} (ended : timer ≠ .registered) (log : List (Entry Reply)) :
    Tables { s with
      timer := update s.timer i timer
      callbacks := update s.callbacks (s.origin i).1
        (remove (s.callbacks (s.origin i).1) (s.origin i).2)
      log := log } := by
  have here := (tables.begun i opened).2
  have entry : ∀ c k j, (update s.callbacks (s.origin i).1
      (remove (s.callbacks (s.origin i).1) (s.origin i).2) c).lookup k = some j ↔
        j ≠ i ∧ (s.callbacks c).lookup k = some j := by
    intro c k j
    have only (found : (s.callbacks c).lookup k = some j) :
        j = i ↔ c = (s.origin i).1 ∧ k = (s.origin i).2 := by
      have origin := (tables.stored c k j found).1
      constructor
      · rintro rfl
        rw [origin]
        exact ⟨rfl, rfl⟩
      · rintro ⟨rfl, rfl⟩
        exact Option.some.inj (found.symm.trans here)
    rw [and_congr_left fun found => not_congr (only found)]
    by_cases same : c = (s.origin i).1
    · rw [same, update_self, lookup_remove]
      by_cases number : k = (s.origin i).2 <;> simp [number]
    · rw [update_of_ne same]
      simp [same]
  have others : ∀ j, update s.timer i timer j = .registered →
      j ≠ i ∧ s.timer j = .registered := by
    intro j registered
    have other : j ≠ i := by
      rintro rfl
      rw [update_self] at registered
      exact ended registered
    rw [update_of_ne other] at registered
    exact ⟨other, registered⟩
  have emptied : ∀ c, s.callbacks c = [] → update s.callbacks (s.origin i).1
      (remove (s.callbacks (s.origin i).1) (s.origin i).2) c = [] := by
    intro c empty
    by_cases same : c = (s.origin i).1
    · subst same
      rw [update_self, empty]
      rfl
    · rw [update_of_ne same]
      exact empty
  refine ⟨?_, ?_, ?_, tables.owners, ?_, ?_, ?_, tables.single, tables.looping, tables.apart⟩
  · intro c
    dsimp only
    by_cases same : c = (s.origin i).1
    · rw [same, update_self]
      exact nodup_keys_remove (tables.nodup _) _
    · rw [update_of_ne same]
      exact tables.nodup c
  · exact fun c k j found => tables.stored c k j ((entry c k j).mp found).2
  · exact fun c above => emptied c (tables.unused c above)
  · intro j registered
    obtain ⟨other, old⟩ := others j registered
    obtain ⟨less, listed⟩ := tables.begun j old
    exact ⟨less, (entry _ _ j).mpr ⟨other, listed⟩⟩
  · intro c k j listed
    obtain ⟨other, old⟩ := (entry c k j).mp listed
    dsimp only
    rw [update_of_ne other]
    exact tables.awaited c k j old
  · intro conn c found
    obtain ⟨same, less, empty⟩ := tables.current conn c found
    exact ⟨same, less, fun gone => emptied c (empty gone)⟩

theorem un_register {call : Nat} (opened : s.timer call = .registered) :
    unRegister s call = some { s with timer := update s.timer call .unregistered } := by
  rw [unRegister, if_neg]
  rw [opened]
  exact Timer.noConfusion

theorem response_good (good : Good s) (conn : Nat) (seqno : Seq) (reply : Reply) :
    ∃ after, onRPCMsg s conn seqno reply = some after ∧ Good after := by
  rw [onRPCMsg]
  cases client : s.clients conn with
  | none => exact ⟨s, rfl, good⟩
  | some c =>
    cases listed : (s.callbacks c).lookup seqno with
    | none =>
      refine ⟨s, ?_, good⟩
      simp only [listed]
    | some i =>
      obtain ⟨tables, logged⟩ := good
      obtain ⟨same, -, empty⟩ := tables.current conn c client
      obtain ⟨origin, below⟩ := tables.stored c seqno i listed
      have opened := (tables.awaited c seqno i listed).mpr (.inl (same ▸ client))
      have working : s.lost conn = false := by
        rw [← Bool.not_eq_true]
        intro gone
        rw [empty gone] at listed
        cases listed
      have ended : Timer.unregistered ≠ .registered := Timer.noConfusion
      have completed := tables.complete opened ended
        (s.log ++ [.invoked i (.response conn seqno reply)])
      rw [origin] at completed
      refine ⟨_, ?_, completed, logged.complete below opened ended _ _ ?_⟩
      · have still : (setCallbacks s c (remove (s.callbacks c) seqno)).timer i = .registered :=
          opened
        simp only [listed]
        rw [un_register still]
        rfl
      · rintro conn' seqno' reply' ⟨⟩
        rw [origin]
        exact ⟨same, rfl, working⟩

theorem timeout_good (good : Good s) {call : Nat} (opened : s.timer call = .registered) :
    Good (onTimer s call) := by
  have ended : Timer.fired ≠ .registered := Timer.noConfusion
  refine ⟨good.tables.complete opened ended _, ?_⟩
  apply good.logged.complete (good.tables.begun call opened).1 opened ended
  intro conn seqno reply same
  cases same

/-! ## The loop of `M.OnConnClose` -/

theorem Logged.lose (logged : Logged s) (conn : Nat) (clients : Nat → Option Nat)
    (loops : List (Nat × List Seq)) :
    Logged { s with
      lost := update s.lost conn true, log := s.log ++ [.closed conn]
      clients := clients, loops := loops } := by
  have same : invokedCalls (s.log ++ [.closed conn]) = invokedCalls s.log := by
    rw [invokedCalls, filterMap_append]
    exact append_nil _
  refine ⟨?_, ?_, ?_, ?_, ?_, ?_⟩
  · rw [same]
    exact logged.once
  · rw [same]
    exact logged.settled
  · rw [same]
    exact logged.known
  · intro i other seqno reply member
    rw [mem_append, mem_singleton, or_iff_left nofun] at member
    exact logged.matching i other seqno reply member
  · apply pairwise_append.mpr
    refine ⟨logged.timely, pairwise_singleton _ _, ?_⟩
    intro earlier member later new i other seqno reply same
    rw [mem_singleton.mp new] at same
    cases same
  · intro other
    rw [mem_append, mem_singleton, Entry.closed.injEq, logged.closes]
    dsimp only
    by_cases here : other = conn
    · rw [here, update_self]
      exact ⟨fun _ => rfl, fun _ => .inr rfl⟩
    · rw [update_of_ne here, or_iff_left here]

/-- The callbacks of the lost client are handed to a loop, which visits each number once. -/
theorem close_good {pairs : List Seq → List Seq} (shuffles : ∀ ks, (pairs ks).Perm ks)
    (good : Good s) (conn : Nat) : Good (onConnClose pairs s conn) := by
  obtain ⟨tables, logged⟩ := good
  have stale {other c : Nat} (found : update s.clients conn none other = some c) :
      other ≠ conn ∧ s.clients other = some c := by
    have apart : other ≠ conn := by
      rintro rfl
      rw [update_self] at found
      exact Option.some_ne_none c found.symm
    rw [update_of_ne apart] at found
    exact ⟨apart, found⟩
  have current : ∀ other c, update s.clients conn none other = some c → s.conn c = other ∧
      c < s.made ∧ (update s.lost conn true other = true → s.callbacks c = []) := by
    intro other c found
    obtain ⟨apart, live⟩ := stale found
    rw [update_of_ne apart]
    exact tables.current other c live
  have single : ∀ c, c < s.made → update s.lost conn true (s.conn c) = false →
      update s.clients conn none (s.conn c) = some c := by
    intro c less working
    have apart : s.conn c ≠ conn := by
      intro here
      rw [here, update_self] at working
      exact Bool.false_ne_true working.symm
    rw [update_of_ne apart] at working ⊢
    exact tables.single c less working
  have looping : ∀ c ks, (c, ks) ∈ s.loops → c < s.made ∧
      update s.lost conn true (s.conn c) = true ∧
      update s.clients conn none (s.conn c) ≠ some c ∧ ks.Nodup := by
    intro c ks looping
    obtain ⟨less, gone, other, rest⟩ := tables.looping c ks looping
    refine ⟨less, ?_, fun found => other (stale found).2, rest⟩
    by_cases here : s.conn c = conn
    · rw [here, update_self]
    · rw [update_of_ne here]
      exact gone
  rw [onConnClose]
  cases client : s.clients conn with
  | none =>
    rw [← client, update_eq_self] at current single looping
    exact ⟨{ tables with current := current, single := single, looping := looping },
      logged.lose conn _ _⟩
  | some c =>
    obtain ⟨same, below, -⟩ := tables.current conn c client
    refine ⟨⟨tables.nodup, tables.stored, tables.unused, tables.owners, tables.begun, ?_, current,
      single, ?_, ?_⟩, logged.lose conn _ _⟩
    · intro d k i listed
      refine (tables.awaited d k i listed).trans ⟨?_, ?_⟩
      · rintro (live | ⟨ks, looping, member⟩)
        · by_cases here : s.conn d = conn
          · obtain rfl : c = d := Option.some.inj (client.symm.trans (here ▸ live))
            exact .inr ⟨_, mem_cons_self, (shuffles _).mem_iff.mpr (mem_keys_of_lookup listed)⟩
          · exact .inl ((update_of_ne here _ _).trans live)
        · exact .inr ⟨ks, mem_cons_of_mem _ looping, member⟩
      · rintro (live | ⟨ks, looping, member⟩)
        · exact .inl (stale live).2
        · rcases mem_cons.mp looping with new | old
          · obtain ⟨rfl, -⟩ := Prod.mk.inj new
            exact .inl (same ▸ client)
          · exact .inr ⟨ks, old, member⟩
    · intro d ks member
      rcases mem_cons.mp member with new | old
      · obtain ⟨rfl, rfl⟩ := Prod.mk.inj new
        refine ⟨below, ?_, fun found => (stale found).1 same,
          (shuffles _).nodup_iff.mpr (tables.nodup d)⟩
        dsimp only
        rw [same, update_self]
      · exact looping d ks old
    · rw [map_cons, nodup_cons]
      refine ⟨?_, tables.apart⟩
      intro listed
      obtain ⟨⟨d, ks⟩, looping, rfl⟩ := mem_map.mp listed
      exact (tables.looping d ks looping).2.2.1 (same ▸ client)

theorem Tables.advance (tables : Tables s) {c : Nat} {seqno : Seq} {rest : List Seq}
    {outer : List (Nat × List Seq)} (loops : s.loops = (c, seqno :: rest) :: outer)
    (timer : Nat → Timer) (log : List (Entry Reply))
    (kept : ∀ i, timer i = .registered ↔ s.timer i = .registered ∧ s.origin i ≠ (c, seqno)) :
    Tables { s with loops := (c, rest) :: outer, timer := timer, log := log } := by
  have first : (c, seqno :: rest) ∈ s.loops := by
    rw [loops]
    exact mem_cons_self
  obtain ⟨less, gone, stale, single⟩ := tables.looping c _ first
  rw [nodup_cons] at single
  have apart := tables.apart
  rw [loops, map_cons, nodup_cons] at apart
  refine ⟨tables.nodup, tables.stored, tables.unused, tables.owners, ?_, ?_, tables.current,
    tables.single, ?_, ?_⟩
  · exact fun i opened => tables.begun i ((kept i).mp opened).1
  · intro d k i listed
    dsimp only
    rw [kept, tables.awaited d k i listed, (tables.stored d k i listed).1]
    constructor
    · rintro ⟨live | ⟨ks, looping, member⟩, other⟩
      · exact .inl live
      rw [loops] at looping
      rcases mem_cons.mp looping with here | later
      · obtain ⟨rfl, rfl⟩ := Prod.mk.inj here
        refine .inr ⟨rest, mem_cons_self, (mem_cons.mp member).resolve_left ?_⟩
        exact fun number => other (number ▸ rfl)
      · exact .inr ⟨ks, mem_cons_of_mem _ later, member⟩
    · rintro (live | ⟨ks, looping, member⟩)
      · exact ⟨.inl live, fun same => stale ((Prod.mk.inj same).1 ▸ live)⟩
      rcases mem_cons.mp looping with here | later
      · obtain ⟨rfl, rfl⟩ := Prod.mk.inj here
        refine ⟨.inr ⟨_, first, mem_cons_of_mem _ member⟩, fun same => ?_⟩
        exact single.1 ((Prod.mk.inj same).2 ▸ member)
      · refine ⟨.inr ⟨ks, loops ▸ mem_cons_of_mem _ later, member⟩, fun same => ?_⟩
        exact apart.1 (mem_map.mpr ⟨(d, ks), later, (Prod.mk.inj same).1⟩)
  · intro d ks looping
    rcases mem_cons.mp looping with here | later
    · obtain ⟨rfl, rfl⟩ := Prod.mk.inj here
      exact ⟨less, gone, stale, single.2⟩
    · exact tables.looping d ks (loops ▸ mem_cons_of_mem _ later)
  · rw [map_cons, nodup_cons]
    exact apart

theorem next_good (good : Good s) : ∃ after, closeNext s = some after ∧ Good after := by
  obtain ⟨tables, logged⟩ := good
  rw [closeNext]
  match loops : s.loops with
  | [] => exact ⟨s, rfl, tables, logged⟩
  | (c, []) :: outer =>
    have apart := tables.apart
    rw [loops, map_cons, nodup_cons] at apart
    refine ⟨_, rfl, { tables with awaited := ?_, looping := ?_, apart := apart.2 }, { logged with }⟩
    · intro d k i listed
      refine (tables.awaited d k i listed).trans (or_congr_right ⟨?_, ?_⟩)
      · rintro ⟨ks, looping, member⟩
        rw [loops] at looping
        rcases mem_cons.mp looping with here | later
        · rw [(Prod.mk.inj here).2] at member
          nomatch member
        · exact ⟨ks, later, member⟩
      · rintro ⟨ks, later, member⟩
        exact ⟨ks, loops ▸ mem_cons_of_mem _ later, member⟩
    · exact fun d ks looping => tables.looping d ks (loops ▸ mem_cons_of_mem _ looping)
  | (c, seqno :: rest) :: outer =>
    have first : (c, seqno :: rest) ∈ s.loops := by
      rw [loops]
      exact mem_cons_self
    cases listed : (s.callbacks c).lookup seqno with
    | none =>
      refine ⟨_, ?_, tables.advance loops s.timer s.log ?_, { logged with }⟩
      · simp only [listed]
      · intro i
        refine ⟨fun opened => ⟨opened, ?_⟩, fun both => both.1⟩
        intro here
        have entry := (tables.begun i opened).2
        rw [here, listed] at entry
        cases entry
    | some i =>
      have opened :=
        (tables.awaited c seqno i listed).mpr (.inr ⟨_, first, mem_cons_self⟩)
      obtain ⟨origin, below⟩ := tables.stored c seqno i listed
      have ended : Timer.unregistered ≠ .registered := Timer.noConfusion
      have still : ({ s with loops := (c, rest) :: outer } : Rpc Reply).timer i = .registered :=
        opened
      refine ⟨_, ?_, tables.advance loops (update s.timer i .unregistered)
        (s.log ++ [.invoked i .connectionLoss]) ?_,
        logged.complete below opened ended s.callbacks _ ?_⟩
      · simp only [listed]
        rw [un_register still]
        rfl
      · intro j
        by_cases same : j = i
        · subst same
          rw [update_self]
          exact ⟨fun registered => absurd registered ended, fun both => absurd origin both.2⟩
        · rw [update_of_ne same]
          refine ⟨fun registered => ⟨registered, ?_⟩, fun both => both.1⟩
          intro here
          have entry := (tables.begun j registered).2
          rw [here, listed] at entry
          exact same (Option.some.inj entry).symm
      · intro conn number reply same
        cases same

theorem step_good {pairs : List Seq → List Seq} (shuffles : ∀ ks, (pairs ks).Perm ks)
    (good : Good s) (event : Event Reply) (fresh : FreshNumber s event) :
    ∃ after, step pairs s event = some after ∧ Good after := by
  cases event with
  | client conn => exact ⟨_, rfl, client_good good conn⟩
  | call client callback sent =>
    rw [step]
    split_ifs with below
    · exact ⟨_, rfl, call_good good below fresh⟩
    · exact ⟨s, rfl, good⟩
  | response conn seqno reply => exact response_good good conn seqno reply
  | timeout call =>
    rw [step]
    split_ifs with opened
    · exact ⟨_, rfl, timeout_good good opened⟩
    · exact ⟨s, rfl, good⟩
  | close conn => exact ⟨_, rfl, close_good shuffles good conn⟩
  | next => exact next_good good

theorem new_good : Good (newRpc : Rpc Reply) := by
  refine ⟨⟨fun _ => nodup_nil, nofun, fun _ _ => rfl, nofun, nofun, nofun, nofun, nofun, nofun,
    nodup_nil⟩, ⟨nodup_nil, nofun, nofun, nofun, List.Pairwise.nil, ?_⟩⟩
  intro conn
  exact ⟨nofun, nofun⟩

end Steps

end Chuck.RpcTables
