import Chuck.RedisClientModel
import Chuck.RedisReplyFraming

/-!
# Routing of Redis replies

The client matches replies with commands by position: a queue of commands that
wait, and a counter of replies to skip because their commands have timed out.
`Ledger` says how the two stand to the commands sent and the replies parsed.
Every execute, reply, tick and callback keeps it, as long as the parser finds
the end of every reply.
-/

namespace Chuck.RedisReplyRouting

open RedisParserModel RedisParserMachine RedisParserFragments RedisReplyCodec RedisReplyFraming
open RedisClientModel List

/-- The reply was parsed from the bytes of the value, all of them and no others. -/
def ParsedFrom (stack : Nat) (value : Resp) (reply : ReplyTree) : Prop :=
  ∃ pieces tree, (∀ piece ∈ pieces, piece ≠ []) ∧ pieces.flatten = encode value ∧
    feed stack parseTreeNew pieces = (.ok, tree, (encode value).length) ∧ reply = tree.reply

def wire (answers : Nat → Resp) (count : Nat) : List Byte :=
  encodeAll ((List.range count).map answers)

def Input.bytes : Input → List Byte
  | .data chunks => chunks.flatten
  | _ => []

def Served (answers : Nat → Resp) (arrived : List Byte) (c : Client) : Input → Prop
  | .data chunks => (∀ chunk ∈ chunks, chunk ≠ []) ∧
      arrived ++ chunks.flatten <+: wire answers c.sent
  | _ => True

/-- The bytes arrived and the client after a run in which fewer than `2 ^ 31`
commands are unanswered at any time. -/
inductive Reaches (oracle : List Event → List Act) (stack : Nat) (answers : Nat → Resp) :
    List Byte → Client → Prop where
  | start : Reaches oracle stack answers [] newClient
  | step {arrived : List Byte} {c : Client} (input : Input)
      (before : Reaches oracle stack answers arrived c) (served : Served answers arrived c input)
      (few : c.sent < c.parsed + 2 ^ 31) :
      Reaches oracle stack answers (arrived ++ Input.bytes input) (clientStep oracle stack c input)

structure Routed (stack : Nat) (answers : Nat → Resp) (arrived : List Byte) (c : Client) :
    Prop where
  running : c.life ≠ .crashed
  answered : ∀ event ∈ c.log, event.cause = .answered →
    ParsedFrom stack (answers event.id) event.reply
  once : (c.log.map Event.id).Nodup
  counted : c.life = .alive → c.timeoutCount =
    (c.log.countP fun event => event.cause = .expired ∧ c.parsed ≤ event.id : Nat)
  parsed : c.life = .alive → ∃ part, arrived = wire answers c.parsed ++ part ∧
    part <+: encode (answers c.parsed) ∧ part ≠ encode (answers c.parsed)

/-! ## The queue and the counter -/

section Ledgers

variable (stack : Nat) (answers : Nat → Resp)
variable {rest : List Pending}

/-- `late` commands have timed out and are not answered yet. Commands are
settled in the order in which they were queued. -/
structure Ledger (late : Nat) (c : Client) : Prop where
  count : c.timeoutCount = late
  bound : c.parsed + late ≤ c.sent
  waiting : c.waitreplys.map Pending.id =
    List.range' (c.parsed + late) (c.sent - (c.parsed + late))
  logged : c.log.map Event.id = List.range (c.parsed + late)
  events : ∀ event ∈ c.log, event.cause = .expired ∨ event.cause = .answered ∧
    event.id < c.parsed ∧ ParsedFrom stack (answers event.id) event.reply

structure Kept (c next : Client) : Prop where
  life : next.life = c.life
  tree : next.tree = c.tree
  parsed : next.parsed = c.parsed
  sent : c.sent ≤ next.sent

variable {stack answers} {late : Nat} {c : Client}

theorem Ledger.answered (ledger : Ledger stack answers late c) (event : Event)
    (member : event ∈ c.log) (cause : event.cause = .answered) :
    ParsedFrom stack (answers event.id) event.reply := by
  rcases ledger.events event member with expired | ⟨-, -, source⟩
  · cases cause.symm.trans expired
  · exact source

theorem Ledger.ids (ledger : Ledger stack answers late c) :
    c.log.map Event.id ++ c.waitreplys.map Pending.id = List.range c.sent := by
  have joined := @range'_append_1 0 (c.parsed + late) (c.sent - (c.parsed + late))
  rw [Nat.zero_add, Nat.add_sub_cancel' ledger.bound] at joined
  rw [ledger.logged, ledger.waiting, range_eq_range', range_eq_range', joined]

theorem Ledger.flags (ledger : Ledger stack answers late c) (tree : Option ParseTree)
    (close inCb : Bool) :
    Ledger stack answers late { c with tree := tree, close := close, inCb := inCb } :=
  { ledger with }

theorem execute_ledger (ledger : Ledger stack answers late c) (cb accepted : Bool) (now : Nat) :
    Ledger stack answers late (execute c cb accepted now) := by
  unfold execute
  by_cases queued : accepted = true
  · rw [if_pos queued]
    refine { ledger with bound := Nat.le_succ_of_le ledger.bound, waiting := ?_ }
    have bound := ledger.bound
    have longer : c.sent + 1 - (c.parsed + late) = c.sent - (c.parsed + late) + 1 := by omega
    simp only [map_append, ledger.waiting, map_cons, map_nil, longer,
      range'_concat]
    congr 2
    omega
  · rw [if_neg queued]
    exact ledger

theorem acts_ledger (acts : List Act) (ledger : Ledger stack answers late c)
    (busy : c.inCb = true) :
    Ledger stack answers late (acts.foldl perform c) ∧ Kept c (acts.foldl perform c) ∧
      (acts.foldl perform c).inCb = true := by
  induction acts generalizing c with
  | nil => exact ⟨ledger, ⟨rfl, rfl, rfl, le_rfl⟩, busy⟩
  | cons act acts ih =>
    rw [foldl_cons]
    cases act with
    | execute cb accepted now =>
      have step := execute_ledger ledger cb accepted now
      have kept : Kept c (execute c cb accepted now) := by
        unfold execute
        split_ifs
        · exact ⟨rfl, rfl, rfl, Nat.le_succ _⟩
        · exact ⟨rfl, rfl, rfl, le_rfl⟩
      have still : (execute c cb accepted now).inCb = true := by
        unfold execute
        split_ifs <;> exact busy
      obtain ⟨after, keptAfter, busyAfter⟩ := ih step still
      exact ⟨after, ⟨keptAfter.life.trans kept.life, keptAfter.tree.trans kept.tree,
        keptAfter.parsed.trans kept.parsed, kept.sent.trans keptAfter.sent⟩, busyAfter⟩
    | close =>
      by_cases closed : c.close = true
      · have same : perform c .close = c := if_pos closed
        rw [same]
        exact ih ledger busy
      · have flagged : perform c .close = { c with close := true } := by
          simp only [perform, redisClose]
          rw [if_neg closed, if_pos busy]
        rw [flagged]
        obtain ⟨after, kept, busyAfter⟩ := ih (ledger.flags c.tree true c.inCb) busy
        exact ⟨after, { kept with }, busyAfter⟩

theorem settle_ledger (oracle : List Event → List Act) {event : Event}
    (ledger : Ledger stack answers late { c with log := c.log ++ [event] })
    (idle : c.inCb = false) :
    Ledger stack answers late (settle oracle c event) ∧ Kept c (settle oracle c event) ∧
      (settle oracle c event).inCb = false ∧
      (event.called = false → (settle oracle c event).close = c.close) := by
  unfold settle
  by_cases called : event.called = true
  · simp only [called, if_true]
    obtain ⟨after, kept, busy⟩ := acts_ledger (oracle (c.log ++ [event]))
      (ledger.flags c.tree c.close true) rfl
    refine ⟨after.flags _ _ _, { kept with }, ?_, fun other => ?_⟩
    · simp only [busy, Bool.not_true]
    · cases other
  · simp only [called]
    exact ⟨ledger, ⟨rfl, rfl, rfl, le_rfl⟩, idle, fun _ => rfl⟩

theorem ledger_head (ledger : Ledger stack answers late c) {head : Pending}
    (queue : c.waitreplys = head :: rest) :
    head.id = c.parsed + late ∧ c.parsed + late + 1 ≤ c.sent ∧
      rest.map Pending.id =
        List.range' (c.parsed + late + 1) (c.sent - (c.parsed + late + 1)) := by
  have waiting := ledger.waiting
  rw [queue, map_cons] at waiting
  have some : c.sent - (c.parsed + late) ≠ 0 := by
    intro none
    rw [none] at waiting
    cases waiting
  obtain ⟨count, length⟩ := Nat.exists_eq_succ_of_ne_zero some
  rw [length, range'_succ] at waiting
  obtain ⟨first, others⟩ := List.cons.inj waiting
  refine ⟨first, by omega, ?_⟩
  rw [others, show c.sent - (c.parsed + late + 1) = count by omega]

theorem expire_ledger (ledger : Ledger stack answers late c) {head : Pending}
    (queue : c.waitreplys = head :: rest) (few : late + 1 < 2 ^ 31) :
    Ledger stack answers (late + 1)
      { c with
        waitreplys := rest
        timeoutCount := toInt32 (c.timeoutCount + 1)
        log := c.log ++ [{ id := head.id, cause := .expired, reply := executeTimeout,
                           called := head.cb }] } := by
  obtain ⟨first, bound, others⟩ := ledger_head ledger queue
  refine ⟨?_, by simpa [Nat.add_assoc] using bound, others, ?_, ?_⟩
  · rw [ledger.count]
    exact to_int32_small (by omega) (by omega)
  · rw [map_append, ledger.logged, ← Nat.add_assoc, range_succ]
    simp [first]
  · intro event member
    rcases mem_append.mp member with old | new
    · exact ledger.events event old
    · rw [mem_singleton.mp new]
      exact .inl rfl

theorem answer_ledger (ledger : Ledger stack answers 0 c) {head : Pending}
    (queue : c.waitreplys = head :: rest) {reply : ReplyTree}
    (source : ParsedFrom stack (answers c.parsed) reply) :
    Ledger stack answers 0
      { c with
        parsed := c.parsed + 1
        waitreplys := rest
        log := c.log ++ [{ id := head.id, cause := .answered, reply := reply,
                           called := head.cb }] } := by
  obtain ⟨first, bound, others⟩ := ledger_head ledger queue
  refine ⟨ledger.count, bound, others, ?_, ?_⟩
  · rw [map_append, ledger.logged, Nat.add_zero, Nat.add_zero, range_succ]
    simp [first]
  · intro event member
    rcases mem_append.mp member with old | new
    · exact (ledger.events event old).imp_right fun has =>
        ⟨has.1, Nat.lt_succ_of_lt has.2.1, has.2.2⟩
    · rw [mem_singleton.mp new, first]
      exact .inr ⟨rfl, Nat.lt_succ_self _, source⟩

theorem skip_ledger (ledger : Ledger stack answers (late + 1) c) :
    Ledger stack answers late
      { c with parsed := c.parsed + 1, timeoutCount := c.timeoutCount - 1 } := by
  have shift : c.parsed + 1 + late = c.parsed + (late + 1) := by omega
  refine ⟨?_, ?_, ?_, ?_, fun event member => (ledger.events event member).imp_right fun has =>
    ⟨has.1, Nat.lt_succ_of_lt has.2.1, has.2.2⟩⟩
  · simp only [ledger.count]
    omega
  · simpa only [shift] using ledger.bound
  · simpa only [shift] using ledger.waiting
  · simpa only [shift] using ledger.logged

theorem take_reply_ledger (oracle : List Event → List Act) (ledger : Ledger stack answers late c)
    (idle : c.inCb = false) (asked : c.parsed < c.sent) {reply : ReplyTree}
    (source : ParsedFrom stack (answers c.parsed) reply) :
    ∃ after, Ledger stack answers after (takeReply oracle c reply) ∧
      (takeReply oracle c reply).life = c.life ∧ (takeReply oracle c reply).inCb = false ∧
      (takeReply oracle c reply).parsed = c.parsed + 1 ∧
      c.sent ≤ (takeReply oracle c reply).sent := by
  cases late with
  | succ late =>
    have skipped : c.timeoutCount > 0 := by
      rw [ledger.count]
      omega
    have same : takeReply oracle c reply =
        { c with parsed := c.parsed + 1, timeoutCount := c.timeoutCount - 1 } := if_pos skipped
    rw [same]
    exact ⟨late, skip_ledger ledger, rfl, idle, rfl, le_rfl⟩
  | zero =>
    have none : ¬c.timeoutCount > 0 := by
      rw [ledger.count]
      omega
    simp only [takeReply, none, if_false]
    cases queue : c.waitreplys with
    | nil =>
      have waiting := ledger.waiting
      rw [queue, map_nil] at waiting
      have empty := congrArg List.length waiting
      simp only [length_nil, length_range'] at empty
      omega
    | cons head rest =>
      obtain ⟨after, kept, idleAfter, -⟩ := settle_ledger oracle
        (c := { c with parsed := c.parsed + 1, waitreplys := rest })
        (answer_ledger ledger queue source) idle
      exact ⟨0, after, kept.life, idleAfter, kept.parsed, kept.sent⟩

end Ledgers

/-! ## Bytes that arrive -/

theorem encode_all_append (front back : List Resp) :
    encodeAll (front ++ back) = encodeAll front ++ encodeAll back := by
  induction front with
  | nil => rfl
  | cons value front ih => simp [encodeAll, ih]

section Streams

variable {stack : Nat} {answers : Nat → Resp}
variable {parsed sent : Nat}

def owed (answers : Nat → Resp) (parsed sent : Nat) : List Byte :=
  encodeAll ((List.range' parsed (sent - parsed)).map answers)

theorem wire_split (answers : Nat → Resp) (bound : parsed ≤ sent) :
    wire answers sent = wire answers parsed ++ owed answers parsed sent := by
  have split : List.range sent = List.range parsed ++ List.range' parsed (sent - parsed) := by
    rw [range_eq_range', range_eq_range',
      show sent = parsed + (sent - parsed) by omega, ← range'_append_1]
    simp
  rw [wire, wire, owed, split, map_append, encode_all_append]

theorem wire_succ (answers : Nat → Resp) (parsed : Nat) :
    wire answers (parsed + 1) = wire answers parsed ++ encode (answers parsed) := by
  rw [wire, wire, range_succ, map_append, encode_all_append]
  simp [encodeAll]

theorem owed_succ (answers : Nat → Resp) (asked : parsed < sent) :
    owed answers parsed sent = encode (answers parsed) ++ owed answers (parsed + 1) sent := by
  have length : sent - parsed = sent - (parsed + 1) + 1 := by omega
  rw [owed, owed, length, range'_succ]
  simp [encodeAll]

theorem owed_none (answers : Nat → Resp) (none : sent ≤ parsed) :
    owed answers parsed sent = [] := by
  rw [owed, Nat.sub_eq_zero_of_le none]
  rfl

theorem owed_grows (answers : Nat → Resp) {more : Nat} (grown : sent ≤ more) :
    owed answers parsed sent <+: owed answers parsed more := by
  have split : List.range' parsed (more - parsed) = List.range' parsed (sent - parsed) ++
      List.range' (parsed + (sent - parsed)) (more - parsed - (sent - parsed)) := by
    rw [range'_append_1]
    congr 1
    omega
  rw [owed, owed, split, map_append, encode_all_append]
  exact prefix_append _ _

/-- A client between two calls of the parser, with the bytes of the unfinished
reply and those that are still to come. -/
structure Flowing (stack : Nat) (answers : Nat → Resp) (fed : List (List Byte))
    (coming : List Byte) (c : Client) : Prop where
  life : c.life = .alive
  idle : c.inCb = false
  ledger : ∃ late, Ledger stack answers late c
  midway : Midway stack fed (c.tree.getD parseTreeNew)
  promised : fed.flatten ++ coming <+: owed answers c.parsed c.sent

theorem fed_part {value : Resp} (decodable : Decodable stack value) {fed : List (List Byte)}
    {tree : ParseTree} (midway : Midway stack fed tree) {more rest : List Byte}
    (promised : fed.flatten ++ more <+: encode value ++ rest) :
    ∃ back, back ≠ [] ∧ encode value = fed.flatten ++ back := by
  obtain ⟨-, -, -, kept, -, -, -, reached⟩ := midway
  have front : fed.flatten <+: encode value ++ rest := (prefix_append _ _).trans promised
  rcases prefix_or_prefix_of_prefix front (prefix_append (encode value) rest) with
    part | whole
  · obtain ⟨back, split⟩ := part
    refine ⟨back, ?_, split.symm⟩
    rintro rfl
    obtain ⟨tree, ran⟩ := decodable_read decodable []
    rw [← split, append_nil, append_nil, reached] at ran
    cases ran
  · obtain ⟨extra, split⟩ := whole
    obtain ⟨tree, ran⟩ := decodable_read decodable extra
    rw [split, reached] at ran
    cases ran

/-- After some bytes: the books are kept, and unless a callback has closed the
client it stands in the stream right behind those bytes. -/
structure Consumed (stack : Nat) (answers : Nat → Resp) (seen coming : List Byte) (c : Client) :
    Prop where
  life : c.life = .alive
  idle : c.inCb = false
  ledger : ∃ late, Ledger stack answers late c
  flows : c.close = false → ∃ fed, Flowing stack answers fed coming c ∧
    seen = wire answers c.parsed ++ fed.flatten

theorem Flowing.consumed {fed : List (List Byte)} {coming seen : List Byte} {c : Client}
    (flowing : Flowing stack answers fed coming c)
    (position : seen = wire answers c.parsed ++ fed.flatten) :
    Consumed stack answers seen coming c :=
  { flowing with flows := fun _ => ⟨fed, flowing, position⟩ }

variable (oracle : List Event → List Act) (decodable : ∀ k, Decodable stack (answers k))

include decodable

theorem chunk_loop_consumed (fuel : Nat) (input coming : List Byte) (fed : List (List Byte))
    (c : Client) (enough : input.length ≤ fuel)
    (flowing : Flowing stack answers fed (input ++ coming) c) :
    Consumed stack answers (wire answers c.parsed ++ (fed.flatten ++ input)) coming
      (chunkLoop oracle stack fuel c input) := by
  induction fuel generalizing input fed c with
  | zero =>
    obtain rfl : input = [] := length_eq_zero_iff.mp (Nat.le_zero.mp enough)
    exact Flowing.consumed flowing (by rw [append_nil]; rfl)
  | succ fuel ih =>
    rw [chunkLoop]
    by_cases given : input = []
    · subst given
      rw [if_pos rfl]
      exact Flowing.consumed flowing (by rw [append_nil])
    rw [if_neg given]
    obtain ⟨life, idle, ⟨late, ledger⟩, midway, promised⟩ := flowing
    have asked : c.parsed < c.sent := by
      by_contra none
      rw [owed_none answers (not_lt.mp none), prefix_nil] at promised
      simp [given] at promised
    rw [owed_succ answers asked] at promised
    obtain ⟨back, backGiven, split⟩ := fed_part (decodable c.parsed) midway promised
    rw [split, append_assoc, prefix_append_right_inj] at promised
    by_cases part : input.length < back.length
    · -- The reply goes on in the next chunk.
      obtain ⟨unread, rfl⟩ := prefix_of_prefix_length_le
        ((prefix_append input coming).trans promised) (prefix_append back _)
        part.le
      have unreadGiven : unread ≠ [] := by
        rintro rfl
        simp at part
      obtain ⟨next, called, midwayNext⟩ := midway_more (decodable c.parsed) midway given
        unreadGiven split
      rw [called]
      have flows : Flowing stack answers (fed ++ [input]) coming
          { c with tree := some next } := by
        refine ⟨life, idle, ⟨late, ledger.flags _ _ _⟩, midwayNext, ?_⟩
        change _ <+: owed answers c.parsed c.sent
        rw [owed_succ answers asked, split, flatten_append, flatten_singleton,
          append_assoc, append_assoc, prefix_append_right_inj]
        exact promised
      exact flows.consumed (by rw [flatten_append, flatten_singleton])
    · -- The reply ends in this chunk.
      obtain ⟨rest, rfl⟩ := prefix_of_prefix_length_le
        ((prefix_append back _) : back <+: back ++ owed answers (c.parsed + 1) c.sent)
        ((prefix_append input coming).trans promised) (not_lt.mp part)
      rw [append_assoc, prefix_append_right_inj] at promised
      obtain ⟨final, called, whole⟩ := midway_ends (decodable c.parsed) midway backGiven split
        rest
      have source : ParsedFrom stack (answers c.parsed) final.reply :=
        ⟨fed ++ [back], final, by
          intro piece member
          rcases mem_append.mp member with old | new
          · exact midway.solid piece old
          · rw [mem_singleton.mp new]
            exact backGiven, by
          rw [flatten_append, flatten_singleton, split], whole, rfl⟩
      obtain ⟨after, ledgerAfter, lifeAfter, idleAfter, parsedAfter, sentAfter⟩ :=
        take_reply_ledger oracle (ledger.flags (some final) c.close c.inCb) idle asked source
      rw [called]
      simp only
      generalize takeReply oracle { c with tree := some final } final.reply = next at *
      have fresh : Flowing stack answers [] (rest ++ coming) { next with tree := none } := by
        refine ⟨lifeAfter.trans life, idleAfter, ⟨after, ledgerAfter.flags none _ _⟩,
          midway_start stack, ?_⟩
        change _ <+: owed answers next.parsed next.sent
        rw [parsedAfter]
        exact promised.trans (owed_grows answers sentAfter)
      have seen : wire answers c.parsed ++ (fed.flatten ++ (back ++ rest)) =
          wire answers next.parsed ++ ([].flatten ++ rest) := by
        rw [parsedAfter, wire_succ, split]
        simp
      by_cases closed : next.close = false
      · rw [if_pos ⟨lifeAfter.trans life, closed⟩, seen]
        refine ih rest [] { next with tree := none } ?_ fresh
        have := length_pos_iff.mpr backGiven
        simp only [length_append] at enough
        omega
      · rw [if_neg (fun both => closed both.2)]
        exact { fresh with flows := fun still => absurd still closed }

theorem chunks_loop_consumed (chunks : List (List Byte)) (fed : List (List Byte)) (c : Client)
    (flowing : Flowing stack answers fed chunks.flatten c) :
    Consumed stack answers (wire answers c.parsed ++ (fed.flatten ++ chunks.flatten)) []
      (chunksLoop oracle stack c chunks) := by
  induction chunks generalizing fed c with
  | nil => exact flowing.consumed (by simp)
  | cons chunk chunks ih =>
    have first := chunk_loop_consumed oracle decodable chunk.length chunk chunks.flatten fed c
      le_rfl (by simpa using flowing)
    rw [chunksLoop]
    generalize chunkLoop oracle stack chunk.length c chunk = next at *
    by_cases closed : next.close = false
    · obtain ⟨fedNext, flows, position⟩ := first.flows closed
      have rest := ih fedNext next flows
      rw [if_pos ⟨first.life, closed⟩]
      rw [← append_assoc, ← position] at rest
      simpa using rest
    · rw [if_neg (fun both => closed both.2)]
      exact { first with flows := fun still => absurd still closed }

end Streams

/-! ## Runs of the client -/

section Runs

variable {stack : Nat} {answers : Nat → Resp}
variable {arrived : List Byte}

structure Settled (stack : Nat) (answers : Nat → Resp) (c : Client) : Prop where
  life : c.life = .destroyed
  once : (c.log.map Event.id).Nodup
  answered : ∀ event ∈ c.log, event.cause = .answered →
    ParsedFrom stack (answers event.id) event.reply

theorem destroy_settled {late : Nat} {c : Client} (ledger : Ledger stack answers late c) :
    Settled stack answers (destroy c) := by
  refine ⟨rfl, ?_, ?_⟩
  · have ids : (destroy c).log.map Event.id = List.range c.sent := by
      rw [← ledger.ids]
      simp [destroy]
    rw [ids]
    exact nodup_range
  · intro event member cause
    rcases mem_append.mp member with old | new
    · exact ledger.answered event old cause
    · obtain ⟨pending, -, rfl⟩ := mem_map.mp new
      cases cause

def Standing (stack : Nat) (answers : Nat → Resp) (arrived : List Byte) (c : Client) : Prop :=
  Settled stack answers c ∨
    c.close = false ∧ ∃ fed, Flowing stack answers fed [] c ∧
      arrived = wire answers c.parsed ++ fed.flatten

theorem timeout_loop_standing (oracle : List Event → List Act) (now : Nat) (fuel : Nat) (c : Client)
    {late : Nat} (ledger : Ledger stack answers late c) (few : late + fuel < 2 ^ 31)
    (still : c.close = false) {fed : List (List Byte)} (flowing : Flowing stack answers fed [] c)
    (position : arrived = wire answers c.parsed ++ fed.flatten) :
    Standing stack answers arrived (timeoutLoop oracle now fuel c) := by
  induction fuel generalizing c late with
  | zero => exact .inr ⟨still, fed, flowing, position⟩
  | succ fuel ih =>
    rw [timeoutLoop]
    cases queue : c.waitreplys with
    | nil => exact .inr ⟨still, fed, flowing, position⟩
    | cons head rest =>
      simp only
      by_cases due : now ≥ head.deadline
      · rw [if_pos due]
        obtain ⟨after, kept, idle, silent⟩ := settle_ledger oracle
          (c := { c with
            waitreplys := rest
            timeoutCount := toInt32 (c.timeoutCount + 1) })
          (expire_ledger ledger queue (by omega)) flowing.idle
        generalize settle oracle _ _ = next at *
        by_cases closed : head.cb = true ∧ next.close = true
        · rw [if_pos closed]
          exact .inl (destroy_settled after)
        rw [if_neg closed]
        have unclosed : next.close = false := by
          cases called : head.cb with
          | false => exact (silent called).trans still
          | true => simpa [called] using closed
        refine ih next after (by omega) unclosed ⟨kept.life.trans flowing.life, idle,
          ⟨_, after⟩, ?_, ?_⟩ ?_
        · rw [kept.tree]
          exact flowing.midway
        · rw [kept.parsed]
          exact flowing.promised.trans (owed_grows answers kept.sent)
        · rw [kept.parsed]
          exact position
      · rw [if_neg due]
        exact .inr ⟨still, fed, flowing, position⟩

variable (oracle : List Event → List Act) (decodable : ∀ k, Decodable stack (answers k))

include decodable in
theorem data_cb_standing {c : Client} {fed chunks : List (List Byte)}
    (flowing : Flowing stack answers fed chunks.flatten c)
    (position : arrived = wire answers c.parsed ++ fed.flatten) :
    Standing stack answers (arrived ++ chunks.flatten) (dataCb oracle stack c (some chunks)) := by
  have consumed := chunks_loop_consumed oracle decodable chunks fed c flowing
  rw [← append_assoc, ← position] at consumed
  simp only [dataCb]
  generalize chunksLoop oracle stack c chunks = next at *
  obtain ⟨late, ledger⟩ := consumed.ledger
  by_cases closed : next.close = true
  · rw [if_pos ⟨consumed.life, closed⟩]
    exact .inl (destroy_settled ledger)
  · rw [if_neg (fun both => closed both.2)]
    exact .inr ⟨by simpa using closed, consumed.flows (by simpa using closed)⟩

include decodable in
theorem client_step_standing {c : Client} (input : Input)
    (standing : Standing stack answers arrived c) (served : Served answers arrived c input)
    (few : c.sent < c.parsed + 2 ^ 31) :
    Standing stack answers (arrived ++ Input.bytes input) (clientStep oracle stack c input) := by
  unfold clientStep
  rcases standing with settled | ⟨still, fed, flowing, position⟩
  · have gone : c.life ≠ .alive := by simp [settled.life]
    rw [if_neg gone]
    exact .inl settled
  rw [if_pos flowing.life]
  obtain ⟨late, ledger⟩ := flowing.ledger
  cases input with
  | execute cb accepted now =>
    have after := execute_ledger ledger cb accepted now
    rw [show arrived ++ Input.bytes (.execute cb accepted now) = arrived from
      append_nil _]
    refine .inr ?_
    simp only [execute] at after ⊢
    split_ifs at after ⊢
    · exact ⟨still, fed, ⟨flowing.life, flowing.idle, ⟨late, after⟩, flowing.midway,
        flowing.promised.trans (owed_grows answers (Nat.le_succ _))⟩, position⟩
    · exact ⟨still, fed, flowing, position⟩
  | data chunks =>
    obtain ⟨-, promised⟩ := served
    have bound : c.parsed ≤ c.sent := Nat.le_trans (Nat.le_add_right _ _) ledger.bound
    rw [position, wire_split answers bound, append_assoc,
      prefix_append_right_inj] at promised
    exact data_cb_standing oracle decodable
      ⟨flowing.life, flowing.idle, ⟨late, ledger⟩, flowing.midway, promised⟩ position
  | disconnected =>
    have closed : dataCb oracle stack c none = destroy { c with close := true } :=
      if_pos ⟨flowing.life, rfl⟩
    rw [closed]
    exact .inl (destroy_settled (ledger.flags c.tree true c.inCb))
  | tick now =>
    rw [show arrived ++ Input.bytes (.tick now) = arrived from append_nil _]
    have waiting := congrArg List.length ledger.waiting
    simp only [length_map, length_range'] at waiting
    have bound := ledger.bound
    by_cases timer : c.timer = true
    · have ticked : timeoutCb oracle c now = timeoutLoop oracle now c.waitreplys.length c := by
        simp only [timeoutCb, flowing.idle]
        rfl
      simp only [timer, if_true, ticked]
      exact timeout_loop_standing oracle now _ c ledger (by omega) still flowing position
    · simp only [timer]
      exact .inr ⟨still, fed, flowing, position⟩
  | close =>
    have closed : redisClose c = destroy { c with close := true } := by
      simp only [redisClose, still, flowing.idle]
      rfl
    rw [closed]
    exact .inl (destroy_settled (ledger.flags c.tree true c.inCb))

theorem new_client_standing : Standing stack answers [] newClient := by
  refine .inr ⟨rfl, [], ⟨rfl, rfl, ⟨0, ?_⟩, midway_start stack, ?_⟩, rfl⟩
  · exact ⟨rfl, le_rfl, rfl, rfl, by simp [newClient]⟩
  · exact nil_prefix

include decodable in
theorem Reaches.standing {c : Client} (reached : Reaches oracle stack answers arrived c) :
    Standing stack answers arrived c := by
  induction reached with
  | start => exact new_client_standing
  | step input before served few ih =>
    exact client_step_standing oracle decodable input ih served few

theorem ledger_late_count {late : Nat} {c : Client} (ledger : Ledger stack answers late c) :
    (c.log.countP fun event => event.cause = .expired ∧ c.parsed ≤ event.id) = late := by
  have ids : (c.log.countP fun event => event.cause = .expired ∧ c.parsed ≤ event.id) =
      (c.log.map Event.id).countP fun id => c.parsed ≤ id := by
    rw [countP_map]
    refine countP_congr fun event member => ?_
    simp only [decide_eq_true_eq, Function.comp_apply]
    exact ⟨fun both => both.2, fun later => ⟨(ledger.events event member).resolve_right
      fun has => absurd has.2.1 (not_lt.mpr later), later⟩⟩
  rw [ids, ledger.logged, range_add, countP_append]
  have none : (List.range c.parsed).countP (fun id => c.parsed ≤ id) = 0 := by
    simp [countP_eq_zero]
  have all : ((List.range late).map (c.parsed + ·)).countP (fun id => c.parsed ≤ id) = late := by
    rw [countP_eq_length.mpr (by simp)]
    simp
  rw [none, all, Nat.zero_add]

end Runs

/-- In every run in which the server answers with well-formed values that hold
no nil array, replies reach the commands they answer. -/
theorem replies_routed (oracle : List Event → List Act) (stack : Nat) (answers : Nat → Resp)
    (wellFormed : ∀ k, WellFormed (answers k)) (levels : ∀ k, depth (answers k) ≤ stack)
    (clean : ∀ k, nilArrays (answers k) = 0) (arrived : List Byte) (c : Client)
    (reached : Reaches oracle stack answers arrived c) : Routed stack answers arrived c := by
  have decodable : ∀ k, Decodable stack (answers k) :=
    fun k => ⟨wellFormed k, clean k, levels k⟩
  rcases reached.standing oracle decodable with settled | ⟨-, fed, flowing, position⟩
  · have gone : c.life ≠ .alive := by simp [settled.life]
    exact ⟨by simp [settled.life], settled.answered, settled.once,
      fun alive => absurd alive gone, fun alive => absurd alive gone⟩
  obtain ⟨late, ledger⟩ := flowing.ledger
  refine ⟨by simp [flowing.life], ledger.answered, ?_, fun _ => ?_, fun _ => ?_⟩
  · rw [ledger.logged]
    exact nodup_range
  · rw [ledger.count, ledger_late_count ledger]
  · have bound : c.parsed < c.sent + 1 := by
      have := ledger.bound
      omega
    have promised := flowing.promised.trans (owed_grows answers (Nat.le_succ c.sent))
    rw [owed_succ answers bound] at promised
    obtain ⟨back, given, split⟩ := fed_part (decodable c.parsed) flowing.midway promised
    exact ⟨fed.flatten, position, ⟨back, split.symm⟩, fun whole => given (by
      rw [whole] at split
      simpa using split)⟩

theorem Reaches.after {oracle : List Event → List Act} {stack : Nat} {answers : Nat → Resp}
    {arrived total : List Byte} {c : Client} (before : Reaches oracle stack answers arrived c)
    (input : Input) (served : Served answers arrived c input) (few : c.sent < c.parsed + 2 ^ 31)
    (bytes : arrived ++ Input.bytes input = total) :
    Reaches oracle stack answers total (clientStep oracle stack c input) :=
  bytes ▸ .step input before served few

def executesAgain (log : List Event) : List Act :=
  if log.length = 1 then [.execute true true 10000] else []

/-- The first command times out, its callback sends a second one, and both replies arrive, cut
inside the first. -/
def lateReply : Client :=
  let asked := clientStep executesAgain 1 newClient (.execute true true 0)
  let expired := clientStep executesAgain 1 asked (.tick 10000)
  clientStep executesAgain 1 expired (.data [[43, 79, 75], [13, 10, 43, 79, 75, 13, 10]])

theorem late_reply_reached : Reaches executesAgain 1 (fun _ => .status [79, 75])
    [43, 79, 75, 13, 10, 43, 79, 75, 13, 10] lateReply := by
  have asked := @Reaches.after executesAgain 1 (fun _ => .status [79, 75]) _ [] _ .start
    (.execute true true 0) trivial (by decide +kernel) rfl
  have expired := asked.after (.tick 10000) trivial (by decide +kernel) rfl
  refine expired.after (.data [[43, 79, 75], [13, 10, 43, 79, 75, 13, 10]]) ⟨by simp, ?_⟩
    (by decide +kernel) rfl
  have sent : (clientStep executesAgain 1 (clientStep executesAgain 1 newClient
      (.execute true true 0)) (.tick 10000)).sent = 2 := by
    decide +kernel
  rw [sent]
  exact ⟨[], rfl⟩

/-- The late reply is skipped. -/
theorem late_reply_routed :
    (lateReply.log.map fun event => (event.id, event.cause)) = [(0, .expired), (1, .answered)] ∧
      Routed 1 (fun _ => .status [79, 75]) [43, 79, 75, 13, 10, 43, 79, 75, 13, 10] lateReply :=
  ⟨by decide +kernel, replies_routed executesAgain 1 (fun _ => .status [79, 75])
    (fun _ => ⟨by decide, by decide, by decide⟩) (fun _ => by decide) (fun _ => rfl) _ _
    late_reply_reached⟩

theorem status_parsed_from {reply : ReplyTree} (source : ParsedFrom 2 (.status [49]) reply) :
    reply = .mk .status 0 1 [49] 0 [] := by
  obtain ⟨pieces, tree, solid, flat, fed, rfl⟩ := source
  have given : pieces ≠ [] := by
    rintro rfl
    cases flat
  have safe : CutsSafe 2 (resume (startAt [])) pieces.flatten := by
    rw [flat]
    intro front back split frontGiven backGiven next reached
    have places : front = [43] ∨ front = [43, 49] ∨ front = [43, 49, 13] := by
      have split : [43, 49, 13, 10] = front ++ back := split
      simp [cons_eq_append_iff] at split
      grind
    rcases places with rfl | rfl | rfl <;> cases reached <;>
      exact ⟨fun kind => (by cases kind), fun kind => (by cases kind)⟩
  have seen := feed_cuts_safe pieces (startAt []) (fresh_sound 2) given solid safe
  rw [flat] at seen
  have same : observe (feed 2 parseTreeNew pieces) = (.ok, .mk .status 0 1 [49] 0 [], 4) := seen
  rw [fed] at same
  exact congrArg (fun out => out.2.1) same

/-- A nil array and two status lines for three commands: the array takes the
first line for its element, and the second line reaches the second command. -/
theorem nil_array_misroutes :
    let answers : Nat → Resp := fun k =>
      if k = 0 then .nilArray else if k = 1 then .status [49] else .status [50]
    let first := clientStep (fun _ => []) 2 newClient (.execute true true 0)
    let second := clientStep (fun _ => []) 2 first (.execute true true 0)
    let third := clientStep (fun _ => []) 2 second (.execute true true 0)
    let bytes : List Byte := [42, 45, 49, 13, 10, 43, 49, 13, 10, 43, 50, 13, 10]
    let c := clientStep (fun _ => []) 2 third (.data [bytes])
    Reaches (fun _ => []) 2 answers bytes c ∧ ¬Routed 2 answers bytes c := by
  intro answers first second third bytes c
  have firstReached : Reaches (fun _ => []) 2 answers [] first :=
    Reaches.after .start (.execute true true 0) trivial (by decide +kernel) rfl
  have secondReached : Reaches (fun _ => []) 2 answers [] second :=
    firstReached.after (.execute true true 0) trivial (by decide +kernel) rfl
  have thirdReached : Reaches (fun _ => []) 2 answers [] third :=
    secondReached.after (.execute true true 0) trivial (by decide +kernel) rfl
  refine ⟨thirdReached.after (.data [bytes]) ⟨by simp [bytes], ⟨[], rfl⟩⟩ (by decide +kernel) rfl,
    fun routed => ?_⟩
  have event : (⟨1, .answered, .mk .status 0 1 [50] 0 [], true⟩ : Event) ∈ c.log :=
    .tail _ (.head _)
  cases status_parsed_from (routed.answered _ event rfl)

end Chuck.RedisReplyRouting
