import Chuck.PromiseSocketReads
import Chuck.Support.EntryList
import Chuck.Support.FaultFreeRuns

/-!
# Runs of a `PromiseSocket`

Every read is settled once, and no byte is lost or served twice. Reads are served in
the order of the calls as long as none is served from the buffer while others wait.
-/

namespace Chuck.PromiseSocketRuns

open Support.LinkedItems Support.EntryList Support.FaultFreeRuns ByteChunkModel
open ByteBufferRefinement PromiseSocketModel PromiseSocketReads List

variable (junk : Nat → Nat → Byte) {c : PromiseSocket} {xs : List Nat} {L : List Byte}

/-! ## Events -/

theorem pending_few (rep : Represents c xs L) : xs.length < c.calls + 1 := by
  apply Nat.lt_succ_of_le
  apply length_le_of_below rep.accounts.nodup
  exact fun i member => ((rep.accounts.pending i).mp member).1

theorem on_data (rep : Represents c xs L) (conn : c.conn = true) {bytes : List Byte}
    (room : c.buff.datasize + bytes.length < 2 ^ 32) :
    ∃ (after : PromiseSocket) (ys : List Nat) (rest : List Byte) (msgs : List (Nat × List Byte)),
      onData junk c bytes = some after ∧ Represents after ys rest ∧ after.conn = c.conn ∧
      after.released = c.released ∧ xs = msgs.map Prod.fst ++ ys ∧
      after.settled = c.settled ++ msgs.map fun entry => (entry.1, .resolved entry.2) := by
  have fits : (L ++ bytes).length < 2 ^ 32 := by
    rw [length_append, ← rep.owns.counted]
    exact room
  obtain ⟨mem, b, appended, owns⟩ := append_owns junk rep.owns bytes fits
  have grown : Represents { c with mem := mem, buff := b, received := c.received ++ bytes } xs
      (L ++ bytes) := by
    refine { rep with owns := owns, conserved := ?_ }
    rw [← append_assoc, rep.conserved]
  obtain ⟨after, ys, rest, msgs, ran, held, kept, parts, settled⟩ :=
    serve_loop (c.calls + 1) _ xs _ grown conn (pending_few rep)
  rw [onData, appended, Option.bind_some]
  simp only [ran, Option.map_some]
  by_cases high : after.buff.datasize > highWater
  · refine ⟨_, ys, rest, msgs, rfl, ?_⟩
    rw [if_pos high]
    exact ⟨{ held with },
      kept.conn, kept.released, parts, settled⟩
  · refine ⟨_, ys, rest, msgs, rfl, ?_⟩
    rw [if_neg high]
    exact ⟨held, kept.conn, kept.released, parts, settled⟩

theorem on_timer (rep : Represents c xs L) (i : Nat) :
    ∃ after ys, onTimer c i = some after ∧ Represents after ys L ∧ Kept c after ∧
      ys.Sublist xs ∧
      (after.settled = c.settled ∨ after.settled = c.settled ++ [(i, .rejected .timeout)]) := by
  have quiet : Represents { c with timer := Function.update c.timer i false } ([] ++ xs) L :=
    { rep with }
  obtain ⟨after, ys, ran, held, kept, part, settled⟩ :=
    timeout_loop [] xs (c.calls + 1) quiet (pending_few rep)
  rw [← rep.linked.head_eq] at ran
  exact ⟨after, ys, ran, held, { kept with }, part, settled⟩

theorem recv_all_refused (reads : List (Nat × Bool)) (c : PromiseSocket)
    (rep : Represents c xs L) (lost : c.conn = false) :
    ∃ after, recvAll c reads = some after ∧ Represents after xs L ∧ after.conn = false ∧
      after.released = c.released := by
  induction reads generalizing c with
  | nil => exact ⟨c, rfl, rep, lost, rfl⟩
  | cons read reads ih =>
    obtain ⟨byteCount, timeout⟩ := read
    obtain ⟨middle, ran, -, conn, released, -, outcome⟩ := recv_cases rep byteCount timeout
    rcases outcome with ⟨-, held, -⟩ | ⟨open_, -⟩ | ⟨open_, -⟩
    · obtain ⟨after, rest, last, closed, same⟩ := ih middle held (conn.trans lost)
      refine ⟨after, ?_, last, closed, same.trans released⟩
      rw [recvAll, ran]
      exact rest
    · rw [lost] at open_
      cases open_
    · rw [lost] at open_
      cases open_

theorem close_all (rep : Represents c xs L) :
    ∃ after, closeLoop (c.calls + 1) c = some after ∧ Represents after [] L ∧ Kept c after := by
  have tailed : Represents { c with promiseTail := xs.getLast? } xs L :=
    { rep with tail := rfl }
  exact close_loop (c.calls + 1) c xs tailed (pending_few rep)

/-! ## Every read is settled once -/

/-- The buffer has room for the data, and no read is made by the user's callback in a
`Close` that releases the socket at once. -/
def Settles (c : PromiseSocket) : Event → Prop
  | .data bytes => c.buff.datasize + bytes.length < 2 ^ 32
  | .close atOnce onClose => atOnce = true → onClose = []
  | _ => True

def Sound (c : PromiseSocket) : Prop :=
  ∃ xs L, Represents c xs L ∧ (c.released = true → c.conn = false ∧ xs = [])

theorem recv_sound (sound : Sound c) (byteCount : Nat) (timeout : Bool) :
    ∃ after, recv c byteCount timeout = some after ∧ Sound after := by
  obtain ⟨xs, L, rep, closed⟩ := sound
  obtain ⟨after, ran, -, conn, released, -, outcome⟩ := recv_cases rep byteCount timeout
  have unreleased : c.conn = true → after.released = true → after.conn = false := by
    intro _ gone
    rw [conn]
    exact (closed (released ▸ gone)).1
  refine ⟨after, ran, ?_⟩
  rcases outcome with ⟨lost, held, -⟩ | ⟨here, -, held, -⟩ | ⟨here, -, held, -⟩
  · exact ⟨xs, L, held, fun gone => ⟨conn.trans lost, (closed (released ▸ gone)).2⟩⟩
  · refine ⟨xs, _, held, fun gone => ?_⟩
    nomatch (unreleased here gone).symm.trans (conn.trans here)
  · refine ⟨_, L, held, fun gone => ?_⟩
    nomatch (unreleased here gone).symm.trans (conn.trans here)

theorem close_sound (sound : Sound c) {atOnce : Bool} {onClose : List (Nat × Bool)}
    (quiet : atOnce = true → onClose = []) :
    ∃ after, closeSocket c atOnce onClose = some after ∧ Sound after := by
  rw [closeSocket]
  obtain ⟨xs, L, rep, closed⟩ := sound
  cases here : c.conn with
  | false =>
    rw [if_neg Bool.false_ne_true]
    exact ⟨c, rfl, xs, L, rep, closed⟩
  | true =>
    rw [if_pos rfl]
    cases atOnce with
    | false =>
      rw [if_neg Bool.false_ne_true]
      refine ⟨_, rfl, xs, L, ?_, fun gone => ⟨rfl, (closed gone).2⟩⟩
      exact { rep with }
    | true =>
      obtain ⟨after, ran, held, kept⟩ := close_all rep
      rw [if_pos rfl, quiet rfl, closeCallback, ran, Option.bind_some, recvAll, Option.map_some]
      refine ⟨_, rfl, [], L, ?_, fun _ => ⟨rfl, rfl⟩⟩
      exact { held with }

theorem release_sound (sound : Sound c) (onClose : List (Nat × Bool)) :
    ∃ after, step junk c (.release onClose) = some after ∧ Sound after := by
  rw [step]
  by_cases due : (c.conn || c.released) = true
  · rw [if_pos due]
    exact ⟨c, rfl, sound⟩
  rw [if_neg due]
  rw [Bool.or_eq_true, not_or, Bool.not_eq_true, Bool.not_eq_true] at due
  obtain ⟨xs, L, rep, -⟩ := sound
  obtain ⟨closed, ran, held, kept⟩ := close_all rep
  have marked : Represents { closed with released := true } [] L :=
    { held with }
  obtain ⟨after, reads, last, lost, -⟩ :=
    recv_all_refused onClose _ marked (kept.conn.trans due.1)
  refine ⟨after, ?_, [], L, last, fun _ => ⟨lost, rfl⟩⟩
  rw [closeCallback, ran, Option.bind_some]
  exact reads

theorem step_sound (sound : Sound c) (event : Event) (settles : Settles c event) :
    ∃ after, step junk c event = some after ∧ Sound after := by
  cases event with
  | recv byteCount timeout => exact recv_sound sound byteCount timeout
  | data bytes =>
    rw [step]
    by_cases comes : (c.conn && c.reading) = true
    · have conn := (Bool.and_eq_true_iff.mp comes).1
      obtain ⟨xs, L, rep, closed⟩ := sound
      obtain ⟨after, ys, rest, msgs, ran, held, same, released, parts, -⟩ :=
        on_data junk rep conn settles
      rw [if_pos comes]
      refine ⟨after, ran, ys, rest, held, fun gone => ?_⟩
      exact absurd ((closed (released ▸ gone)).1.symm.trans conn) Bool.false_ne_true
    · rw [if_neg comes]
      exact ⟨c, rfl, sound⟩
  | timeout i =>
    rw [step]
    by_cases armed : c.timer i = true
    · obtain ⟨xs, L, rep, closed⟩ := sound
      obtain ⟨after, ys, ran, held, kept, part, -⟩ := on_timer rep i
      rw [if_pos armed]
      refine ⟨after, ran, ys, L, held, fun gone => ?_⟩
      obtain ⟨lost, none⟩ := closed (kept.released ▸ gone)
      rw [none, sublist_nil] at part
      exact ⟨kept.conn.trans lost, part⟩
    · rw [if_neg armed]
      exact ⟨c, rfl, sound⟩
  | close atOnce onClose => exact close_sound sound settles
  | release onClose => exact release_sound junk sound onClose

instance decidableSettles (c : PromiseSocket) : (event : Event) → Decidable (Settles c event)
  | .data bytes => inferInstanceAs (Decidable (c.buff.datasize + bytes.length < 2 ^ 32))
  | .close atOnce onClose => inferInstanceAs (Decidable (atOnce = true → onClose = []))
  | .recv _ _ => isTrue trivial
  | .timeout _ => isTrue trivial
  | .release _ => isTrue trivial

theorem new_buffer_owns {mem start : Memory} {b : ByteBuffer}
    (made : bytebufferNew junk mem 1024 = some (start, b)) : Owns start b [] := by
  obtain ⟨after, fresh, same, owns⟩ := new_owns junk mem 1024
  rw [made, Option.some.injEq, Prod.mk.injEq] at same
  rw [same.1, same.2]
  exact owns

/-- In every run with room in the buffer and no read from a callback of a `Close` at once,
no read is settled twice, all are settled when the socket is released, the list has the
unsettled ones with its tail at the last, and the bytes served and those in the buffer
are the bytes received. No event faults. -/
theorem reads_settled_once (mem : Memory) {start : Memory} {b : ByteBuffer}
    (made : bytebufferNew junk mem 1024 = some (start, b)) {c : PromiseSocket}
    (reached : Reaches (step junk) Settles (newSocket start b) c) :
    (c.settled.map Prod.fst).Nodup ∧
    (c.released = true → ∀ i < c.calls, i ∈ c.settled.map Prod.fst) ∧
    (∃ xs, Linked c.next c.promise xs ∧ c.promiseTail = xs.getLast? ∧ xs.Nodup ∧
      ∀ i, i ∈ xs ↔ i < c.calls ∧ i ∉ c.settled.map Prod.fst) ∧
    (∃ left, bytebufferRead c.mem c.buff 0 c.buff.datasize = some left ∧
      resolvedBytes c.settled ++ left = c.received) ∧
    ∀ event, Settles c event → ∃ after, step junk c event = some after := by
  have carries : Carries (step junk) Settles (newSocket start b) Sound := by
    constructor
    · exact ⟨[], [], new_represents (new_buffer_owns junk made),
        fun gone => absurd gone Bool.false_ne_true⟩
    · exact fun s event sound settles => step_sound junk sound event settles
  obtain ⟨xs, L, rep, closed⟩ := carries.invariant reached
  refine ⟨rep.accounts.once, ?_, ⟨xs, rep.linked, rep.tail, rep.accounts.nodup,
    rep.accounts.pending⟩, ⟨L, ?_, rep.conserved⟩, ?_⟩
  · intro gone i below
    by_contra unsettled
    have pending := (rep.accounts.pending i).mpr ⟨below, unsettled⟩
    rw [(closed gone).2] at pending
    exact not_mem_nil pending
  · rw [read_owns rep.owns, drop_zero, rep.owns.counted, take_length]
  · intro event settles
    obtain ⟨after, ran, -⟩ := carries.goes_on reached settles
    exact ⟨after, ran⟩

def freshBuffer : Memory × ByteBuffer :=
  (bytebufferNew (fun _ _ => 0) ⟨fun _ => none, 0⟩ 1024).get rfl

def session (events : List Event) : Option PromiseSocket :=
  run (step fun _ _ => 0) (newSocket freshBuffer.1 freshBuffer.2) events

/-- Two reads wait, the first times out, data serves the second, and a third is pending
at the close. -/
theorem read_session_settled :
    ∃ c, session [.recv 3 true, .data [1, 2], .recv 4 false, .timeout 0, .data [3, 4, 5],
        .recv 2 false, .close true []] = some c ∧
      c.calls = 3 ∧ c.released = true ∧ ∀ i < c.calls, i ∈ c.settled.map Prod.fst := by
  have runs : ((session [.recv 3 true, .data [1, 2], .recv 4 false, .timeout 0, .data [3, 4, 5],
      .recv 2 false, .close true []]).map fun c => (c.calls, c.released)) = some (3, true) := by
    decide +kernel
  obtain ⟨c, ran, fields⟩ := Option.map_eq_some_iff.mp runs
  rw [Prod.mk.injEq] at fields
  refine ⟨c, ran, fields.1, fields.2, ?_⟩
  have reached : Reaches (step fun _ _ => 0) Settles (newSocket freshBuffer.1 freshBuffer.2) c :=
    Reaches.run _ .start (by decide +kernel) ran
  exact (reads_settled_once _ _ rfl reached).2.1 fields.2

/-- A read made in the callback of `Close` is never settled. -/
theorem read_in_close_callback_lost :
    ((session [.close true [(5, false)]]).map fun c =>
      (c.released, c.calls, c.settled, c.promise)) = some (true, 1, [], some 0) := by
  decide +kernel

/-! ## Reads are served in the order of the calls -/

/-- A read is not served from the buffer while others wait, the buffer has room for the
data, and the socket stays open. -/
def Unhurried (c : PromiseSocket) : Event → Prop
  | .recv byteCount _ => c.promise = none ∨ c.buff.datasize < byteCount % 2 ^ 32
  | .data bytes => c.buff.datasize + bytes.length < 2 ^ 32
  | .timeout _ => True
  | .close _ _ => False
  | .release _ => False

def messages (settled : List (Nat × Settlement)) : List (Nat × List Byte) :=
  settled.filterMap fun
    | (i, .resolved msg) => some (i, msg)
    | (_, .rejected _) => none

def inCallOrder (c : PromiseSocket) : List (List Byte) :=
  (List.range c.calls).filterMap fun i => (messages c.settled).lookup i

theorem messages_append (settled new : List (Nat × Settlement)) :
    messages (settled ++ new) = messages settled ++ messages new :=
  filterMap_append

theorem messages_resolved (msgs : List (Nat × List Byte)) :
    messages (msgs.map fun entry => (entry.1, .resolved entry.2)) = msgs := by
  rw [messages, filterMap_map]
  exact filterMap_some

theorem resolved_bytes_messages (settled : List (Nat × Settlement)) :
    resolvedBytes settled = ((messages settled).map Prod.snd).flatten := by
  induction settled with
  | nil => rfl
  | cons entry settled ih =>
    obtain ⟨i, msg | err⟩ := entry
    · have split : messages ((i, .resolved msg) :: settled) = (i, msg) :: messages settled := rfl
      rw [split, map_cons, flatten_cons, ← ih]
      rfl
    · exact ih

theorem message_settled {settled : List (Nat × Settlement)} {i : Nat}
    (member : i ∈ keys (messages settled)) : i ∈ settled.map Prod.fst := by
  obtain ⟨⟨j, msg⟩, listed, rfl⟩ := mem_map.mp member
  obtain ⟨⟨k, settlement⟩, entry, same⟩ := mem_filterMap.mp listed
  cases settlement with
  | resolved msg =>
    obtain ⟨rfl, rfl⟩ := Prod.mk.inj (Option.some.inj same)
    exact mem_map.mpr ⟨_, entry, rfl⟩
  | rejected err => cases same

/-- The requests that got a message and then those that wait are in the order of the calls. -/
def InOrder (c : PromiseSocket) : Prop :=
  ∃ xs L, Represents c xs L ∧ c.conn = true ∧
    (keys (messages c.settled) ++ xs).Pairwise (· < ·)

theorem order_extends (rep : Represents c xs L)
    (ordered : (keys (messages c.settled) ++ xs).Pairwise (· < ·)) :
    (keys (messages c.settled) ++ xs ++ [c.calls]).Pairwise (· < ·) := by
  apply pairwise_append.mpr
  refine ⟨ordered, pairwise_singleton _ _, ?_⟩
  intro i member j new
  rw [mem_singleton.mp new]
  rcases mem_append.mp member with resolved | waiting
  · exact rep.accounts.known i (message_settled resolved)
  · exact ((rep.accounts.pending i).mp waiting).1

theorem step_in_order (inOrder : InOrder c) (event : Event) (unhurried : Unhurried c event) :
    ∃ after, step junk c event = some after ∧ InOrder after := by
  obtain ⟨xs, L, rep, conn, ordered⟩ := inOrder
  cases event with
  | recv byteCount timeout =>
    obtain ⟨after, ran, -, same, -, -, outcome⟩ := recv_cases rep byteCount timeout
    have further := order_extends rep ordered
    refine ⟨after, ran, ?_⟩
    rcases outcome with ⟨lost, -⟩ | ⟨-, enough, held, settled⟩ | ⟨-, -, held, settled⟩
    · nomatch lost.symm.trans conn
    · have alone : xs = [] := by
        apply rep.linked.nil_iff.mp
        apply unhurried.resolve_right
        rw [rep.owns.counted]
        exact not_lt.mpr enough
      subst alone
      refine ⟨[], _, held, same.trans conn, ?_⟩
      rw [settled, messages_append, Support.EntryList.keys, map_append]
      rw [append_nil] at further ⊢
      exact further
    · refine ⟨_, L, held, same.trans conn, ?_⟩
      rw [settled, ← append_assoc]
      exact further
  | data bytes =>
    rw [step]
    by_cases comes : (c.conn && c.reading) = true
    · obtain ⟨after, ys, rest, msgs, ran, held, same, -, rfl, settled⟩ :=
        on_data junk rep conn unhurried
      rw [if_pos comes]
      refine ⟨after, ran, ys, rest, held, same.trans conn, ?_⟩
      rw [settled, messages_append, messages_resolved, Support.EntryList.keys, map_append,
        append_assoc]
      exact ordered
    · rw [if_neg comes]
      exact ⟨c, rfl, xs, L, rep, conn, ordered⟩
  | timeout i =>
    rw [step]
    by_cases armed : c.timer i = true
    · obtain ⟨after, ys, ran, held, kept, part, settled⟩ := on_timer rep i
      have same : messages after.settled = messages c.settled := by
        rcases settled with unchanged | rejected
        · rw [unchanged]
        · rw [rejected, messages_append]
          exact append_nil _
      rw [if_pos armed]
      refine ⟨after, ran, ys, L, held, kept.conn.trans conn, ?_⟩
      rw [same]
      exact ordered.sublist (part.append_left _)
    · rw [if_neg armed]
      exact ⟨c, rfl, xs, L, rep, conn, ordered⟩
  | close atOnce onClose => exact unhurried.elim
  | release onClose => exact unhurried.elim

instance decidableUnhurried (c : PromiseSocket) : (event : Event) → Decidable (Unhurried c event)
  | .recv byteCount _ =>
    inferInstanceAs (Decidable (c.promise = none ∨ c.buff.datasize < byteCount % 2 ^ 32))
  | .data bytes => inferInstanceAs (Decidable (c.buff.datasize + bytes.length < 2 ^ 32))
  | .timeout _ => isTrue trivial
  | .close _ _ => isFalse id
  | .release _ => isFalse id

/-- In every run where no read is served from the buffer while others wait, the messages
in the order of the calls are the received bytes, cut into slices, up to those not
served yet. No event faults. -/
theorem reads_served_in_order (mem : Memory) {start : Memory} {b : ByteBuffer}
    (made : bytebufferNew junk mem 1024 = some (start, b)) {c : PromiseSocket}
    (reached : Reaches (step junk) Unhurried (newSocket start b) c) :
    (inCallOrder c).flatten <+: c.received ∧
    ∀ event, Unhurried c event → ∃ after, step junk c event = some after := by
  have carries : Carries (step junk) Unhurried (newSocket start b) InOrder := by
    constructor
    · exact ⟨[], [], new_represents (new_buffer_owns junk made), rfl, List.Pairwise.nil⟩
    · exact fun s event inOrder unhurried => step_in_order junk inOrder event unhurried
  obtain ⟨xs, L, rep, -, ordered⟩ := carries.invariant reached
  constructor
  · have sorted := (pairwise_append.mp ordered).1
    have listed : inCallOrder c = (messages c.settled).map Prod.snd := by
      rw [inCallOrder, range_eq_range']
      apply lookup_range c.calls sorted
      intro i member
      rw [Nat.zero_add]
      exact ⟨Nat.zero_le i, rep.accounts.known i (message_settled member)⟩
    rw [listed, ← resolved_bytes_messages, ← rep.conserved]
    exact prefix_append _ _
  · intro event unhurried
    obtain ⟨after, ran, -⟩ := carries.goes_on reached unhurried
    exact ⟨after, ran⟩

/-- The second read is too large for the buffer too, and waits behind the first. -/
theorem read_session_in_order :
    ∃ c, session [.recv 3 true, .data [1, 2], .recv 4 false, .timeout 0, .data [3, 4, 5],
        .recv 1 false] = some c ∧
      inCallOrder c = [[1, 2, 3, 4], [5]] ∧ (inCallOrder c).flatten <+: c.received := by
  have runs : ((session [.recv 3 true, .data [1, 2], .recv 4 false, .timeout 0, .data [3, 4, 5],
      .recv 1 false]).map inCallOrder) = some [[1, 2, 3, 4], [5]] := by
    decide +kernel
  obtain ⟨c, ran, slices⟩ := Option.map_eq_some_iff.mp runs
  refine ⟨c, ran, slices, ?_⟩
  have reached : Reaches (step fun _ _ => 0) Unhurried (newSocket freshBuffer.1 freshBuffer.2) c :=
    Reaches.run _ .start (by decide +kernel) ran
  exact (reads_served_in_order _ _ rfl reached).1

/-- Two bytes are buffered for a read of three; a read of one byte overtakes it. -/
theorem small_read_overtakes :
    ((session [.recv 3 false, .data [1, 2], .recv 1 false, .data [3, 4]]).map fun c =>
      (inCallOrder c, c.received)) = some ([[2, 3, 4], [1]], [1, 2, 3, 4]) ∧
    ¬[[2, 3, 4], [1]].flatten <+: ([1, 2, 3, 4] : List Byte) := by
  decide +kernel

end Chuck.PromiseSocketRuns
