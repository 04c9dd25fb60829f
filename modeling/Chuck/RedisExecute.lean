import Chuck.Support.FaultFreeRuns
import Chuck.RedisClientModel
import Chuck.StreamSendOrder
import Chuck.StreamSendResult
import Chuck.StreamSocketLife

/-!
# Commands of a Redis client and what becomes of their bytes

`_chk_redis_execute` forgets a command whenever `chk_stream_socket_send` returns
anything but zero. The socket may have queued the bytes, or written them, and
report an error all the same. Only after an error outside `on_events` that ends writing
are they left where they are.
-/

namespace Chuck.RedisExecute

open RedisClientModel (Client execute newClient)
open Support.PartialQueue Support.FaultFreeRuns StreamSocketModel StreamSendList StreamSendSteps
open StreamSendOrder StreamSendResult List

variable {Data : Type}

inductive ExecuteError where
  | ok
  | redisRequest
  deriving DecidableEq, Repr

/-- `_chk_redis_execute` with `chk_stream_socket_send`; `memory` is whether the
`calloc` succeeds. -/
def redisExecuteBuffer (c : Client) (s : StreamSocket Data) (buffer : SendBuffer Data)
    (memory cb : Bool) (now : Nat) (outcome : WriteOutcome) :
    Option (ExecuteError × Client × StreamSocket Data) :=
  if memory then
    (send s false buffer outcome).map fun (error, s) =>
      if error ≠ .ok then (.redisRequest, execute c cb false now, s)
      else (.ok, execute c cb true now, s)
  else some (.redisRequest, c, s)

/-- `chk_redis_execute` and `chk_redis_execute_lua`; there is no buffer if the
command could not be put into one. -/
def redisExecute (c : Client) (s : StreamSocket Data) (command : Option (SendBuffer Data))
    (memory cb : Bool) (now : Nat) (outcome : WriteOutcome) :
    Option (ExecuteError × Client × StreamSocket Data) :=
  match command with
  | some buffer => redisExecuteBuffer c s buffer memory cb now outcome
  | none => some (.redisRequest, c, s)

/-! ## Where a byte is -/

def Somewhere (byte : Data) (s : StreamSocket Data) : Prop :=
  byte ∈ s.wire ∨ ∃ urgent, byte ∈ (contents (s.list urgent)).flatten

section Bytes

variable {used : Bool → List Data} {s after : StreamSocket Data} {byte : Data}

theorem Somewhere.congr (normal : after.sendList = s.sendList)
    (urgent : after.urgentList = s.urgentList) (wire : after.wire = s.wire) :
    Somewhere byte after ↔ Somewhere byte s := by
  have same : ∀ cls, after.list cls = s.list cls := fun cls => by
    cases cls with
    | false => exact normal
    | true => exact urgent
  rw [Somewhere, Somewhere, wire]
  simp only [same]

theorem exists_class (urgent : Bool) (p : Bool → Prop) :
    (∃ cls, p cls) ↔ p urgent ∨ p (!urgent) := by
  cases urgent <;> simp [Bool.exists_bool, or_comm]

theorem moved_somewhere {urgent : Bool} {n : Nat} (moved : Moved urgent used s after n) :
    Somewhere byte after ↔ Somewhere byte s := by
  have left := (spend_taken n (used urgent) (contents (s.list urgent)) moved.enough).2
  have split := take_append_drop n (contents (s.list urgent)).flatten
  have own : byte ∈ (contents (s.list urgent)).flatten ↔
      byte ∈ (contents (s.list urgent)).flatten.take n ∨
        byte ∈ (contents (after.list urgent)).flatten := by
    rw [moved.own, left, ← mem_append, split]
  rw [Somewhere, Somewhere, moved.wire, mem_append,
    exists_class urgent fun cls => byte ∈ (contents (after.list cls)).flatten,
    exists_class urgent fun cls => byte ∈ (contents (s.list cls)).flatten, moved.other, own]
  tauto

theorem queue_somewhere (urgent : Bool) (b : SendBuffer Data) :
    Somewhere byte (queue s urgent b) ↔ Somewhere byte s ∨ byte ∈ b.content := by
  obtain ⟨own, other⟩ := list_queue s urgent b
  have wire : (queue s urgent b).wire = s.wire := by cases urgent <;> rfl
  rw [Somewhere, Somewhere, wire,
    exists_class urgent fun cls => byte ∈ (contents ((queue s urgent b).list cls)).flatten,
    exists_class urgent fun cls => byte ∈ (contents (s.list cls)).flatten, own, other,
    contents_push, flatten_append, mem_append, flatten_cons, flatten_nil, append_nil]
  tauto

theorem sent_somewhere {urgent : Bool} {b : SendBuffer Data} {outcome : WriteOutcome}
    {error : SendError} (flowing : Flowing used s) (sound : Accepts s b → Sound b)
    (sent : Sent s urgent b outcome error after) :
    Somewhere byte after ↔ Somewhere byte s ∨ Accepts s b ∧ byte ∈ b.content := by
  cases sent with
  | refused refuses error which => simp [refuses]
  | attempted accepts now middle written =>
    obtain ⟨n, moved⟩ := written_moved (queue_flowing flowing urgent (sound accepts)) written
    rw [after_write_eq]
    refine Iff.trans (Somewhere.congr (s := middle) rfl rfl rfl) ?_
    rw [moved_somewhere moved, queue_somewhere]
    simp [accepts]
  | waiting accepts later =>
    have queued : Somewhere byte (queue s urgent b) ↔
        Somewhere byte s ∨ Accepts s b ∧ byte ∈ b.content := by
      rw [queue_somewhere]
      simp [accepts]
    split_ifs
    · exact queued
    · rw [enable_write_eq]
      exact Iff.trans (Somewhere.congr (s := queue s urgent b) rfl rfl rfl) queued

end Bytes

/-! ## What is sent in the end -/

def Foreign (byte : Data) : Act Data → Prop
  | .send _ b _ => byte ∉ b.content
  | .write _ => True

/-- However the socket is used from now on, none of these bytes is written. -/
def Unsent (bytes : List Data) (s : StreamSocket Data) : Prop :=
  ∀ accepted acts last, (∀ act ∈ acts, act.Sound) →
    (∀ act ∈ acts, ∀ byte ∈ bytes, Foreign byte act) →
    performs ⟨s, accepted⟩ acts = some last → ∀ byte ∈ bytes, byte ∉ last.socket.wire

section Runs

variable {used : Bool → List Data} {byte : Data}

theorem performs_nowhere (acts : List (Act Data)) (sender last : Sender Data)
    (flowing : Flowing used sender.socket) (alive : sender.socket.released = false)
    (sound : ∀ act ∈ acts, act.Sound) (foreign : ∀ act ∈ acts, Foreign byte act)
    (nowhere : ¬Somewhere byte sender.socket) (ran : performs sender acts = some last) :
    ¬Somewhere byte last.socket := by
  induction acts generalizing sender used with
  | nil =>
    obtain rfl := Option.some.inj ran
    exact nowhere
  | cons act acts ih =>
    have later : ∀ other ∈ acts, other.Sound := (forall_mem_cons.mp sound).2
    have others : ∀ other ∈ acts, Foreign byte other := (forall_mem_cons.mp foreign).2
    have here := sound act mem_cons_self
    have unlike := foreign act mem_cons_self
    cases act with
    | send urgent b outcome =>
      have fine : Accepts sender.socket b → Sound b := fun accepts =>
        Act.sound_buffer here accepts
      obtain ⟨error, after, sending, sent⟩ := send_cases flowing alive fine urgent outcome
      obtain ⟨⟨_, flows⟩, lives⟩ := sent_flowing flowing alive fine sent
      rw [performs, perform, sending] at ran
      refine ih ⟨after, _⟩ flows lives later others ?_ ran
      rw [sent_somewhere flowing fine sent]
      exact fun there => there.elim nowhere fun own => unlike own.2
    | write outcome =>
      obtain ⟨after, writing, written⟩ := process_write flowing alive outcome
      obtain ⟨n, moved⟩ := written_moved flowing written
      rw [performs, perform, writing] at ran
      refine ih ⟨after, _⟩ moved.flowing (moved.alive.trans alive) later others ?_ ran
      rw [moved_somewhere moved]
      exact nowhere

def pending (s : StreamSocket Data) : Nat :=
  (contents s.sendList).flatten.length + (contents s.urgentList).flatten.length

theorem full_write {s : StreamSocket Data} (flowing : Flowing used s) (alive : s.released = false)
    (waiting : ¬sendListEmpty s) :
    ∃ after used, processWrite s (.wrote maxCount) = some after ∧ Flowing used after ∧
      after.released = false ∧ pending after < pending s ∧
      ∀ byte, Somewhere byte after ↔ Somewhere byte s := by
  obtain ⟨after, ran, written⟩ := process_write flowing alive (.wrote maxCount)
  cases written with
  | idle empty => exact absurd empty waiting
  | again some blocked => rcases blocked with same | same <;> exact WriteOutcome.noConfusion same
  | failed some errno hard error =>
    rcases error with same | ⟨same, -⟩
    · exact WriteOutcome.noConfusion same
    · exact absurd (WriteOutcome.wrote.inj same) (by decide)
  | took some taken rest nonempty few front popped kernel =>
    have moved := updated_moved flowing few front popped
    have long := length_pos_iff.mpr nonempty
    have left := congrArg List.length
      (spend_taken taken.length (used (chosen s)) _ moved.enough).2
    rw [← moved.own, length_drop] at left
    have enough := moved.enough
    have other := moved.other
    refine ⟨_, _, ran, moved.flowing.congr ?_ ?_ ?_ ?_, ?_, ?_, fun byte => ?_⟩
    all_goals rw [wrote_some_eq]
    · exact moved.flowing.flag
    · exact moved.alive.trans alive
    · generalize updated s taken rest = next at *
      generalize chosen s = cls at *
      cases cls <;> simp only [pending, StreamSocket.list, Bool.not_false, Bool.not_true] at * <;>
        rw [other] <;> omega
    · exact Iff.trans (Somewhere.congr (s := updated s taken rest) rfl rfl rfl)
        (moved_somewhere moved)

theorem writes_drain (total : Nat) (sender : Sender Data) (flowing : Flowing used sender.socket)
    (alive : sender.socket.released = false) (bound : pending sender.socket ≤ total) :
    ∃ acts last, (∀ act ∈ acts, ∃ outcome, act = .write outcome) ∧
      performs sender acts = some last ∧
      ∀ byte, Somewhere byte sender.socket → byte ∈ last.socket.wire := by
  induction total generalizing sender used with
  | zero =>
    refine ⟨[], sender, by simp, rfl, fun byte there => ?_⟩
    rcases there with wire | ⟨urgent, queued⟩
    · exact wire
    · have length := length_pos_of_mem queued
      simp only [pending] at bound
      cases urgent <;> simp only [StreamSocket.list] at length <;> omega
  | succ total ih =>
    by_cases empty : sendListEmpty sender.socket
    · refine ⟨[], sender, by simp, rfl, fun byte there => ?_⟩
      rcases there with wire | ⟨urgent, queued⟩
      · exact wire
      · cases urgent <;> simp only [StreamSocket.list, empty.1, empty.2] at queued <;>
          exact absurd queued (by simp [contents])
    · obtain ⟨after, next, ran, flows, lives, fewer, same⟩ := full_write flowing alive empty
      obtain ⟨acts, last, writes, runs, reach⟩ :=
        ih { sender with socket := after } flows lives (by simp only; omega)
      refine ⟨.write (.wrote maxCount) :: acts, last, ?_, ?_, fun byte there =>
        reach byte ((same byte).mpr there)⟩
      · rintro act (_ | ⟨_, member⟩)
        · exact ⟨_, rfl⟩
        · exact writes act member
      · rw [performs, perform, ran]
        exact runs

theorem unsent_iff {s : StreamSocket Data} (flowing : Flowing used s) (alive : s.released = false)
    (bytes : List Data) : Unsent bytes s ↔ ∀ byte ∈ bytes, ¬Somewhere byte s := by
  constructor
  · intro unsent byte member there
    obtain ⟨acts, last, writes, ran, reach⟩ := writes_drain _ ⟨s, []⟩ flowing alive le_rfl
    refine unsent [] acts last ?_ ?_ ran byte member (reach byte there)
    all_goals
      intro act among
      obtain ⟨outcome, rfl⟩ := writes act among
    · trivial
    · exact fun _ _ => trivial
  · intro nowhere accepted acts last sound foreign ran byte member wire
    exact performs_nowhere acts ⟨s, accepted⟩ last flowing alive sound
      (fun act among => foreign act among byte member) (nowhere byte member) ran (.inl wire)

end Runs

/-! ## Refused commands -/

def bytesLeft (s : StreamSocket Data) (b : SendBuffer Data) (outcome : WriteOutcome) : Nat :=
  (s.sendBytes + b.datasize + (2 ^ 32 - (takenBy (queue s false b) outcome).length)) % 2 ^ 32

/-- The send puts the buffer into its list, tries to write, and then reports that
the list was taken whole, or an error, or too much being queued. -/
def RefusesLate (s : StreamSocket Data) (b : SendBuffer Data) (outcome : WriteOutcome) : Prop :=
  Accepts s b ∧ writesNow s b = true ∧
    (TakesAll (queue s false b) false outcome ∨ (HardError outcome ∧ outcome ≠ .failed 0) ∨
      s.highWaterMark ≤ bytesLeft s b outcome)

section Refusing

variable {used : Bool → List Data} {s after : StreamSocket Data} {b : SendBuffer Data}
  {outcome : WriteOutcome} {error : SendError}

theorem written_send_bytes (flowing : Flowing used s) (written : Written s outcome after) :
    after.sendBytes = (s.sendBytes + (2 ^ 32 - (takenBy s outcome).length)) % 2 ^ 32 := by
  have small : s.sendBytes < 2 ^ 32 := by
    rw [flowing.counted]
    exact Nat.mod_lt _ (by decide)
  have unchanged : takenBy s outcome = [] →
      s.sendBytes = (s.sendBytes + (2 ^ 32 - (takenBy s outcome).length)) % 2 ^ 32 := by
    intro nothing
    rw [nothing, length_nil]
    omega
  cases written with
  | idle empty =>
    apply unchanged
    obtain ⟨iovecs, prepared, none, -⟩ := prepare_send flowing
    rw [takenBy, prepared, none empty]
    cases outcome <;> simp [doWrite, offered]
  | took waiting taken rest nonempty few front popped kernel =>
    rw [wrote_some_eq, ← kernel, updated]
    cases chosen s <;> rfl
  | again waiting blocked =>
    apply unchanged
    rcases blocked with rfl | rfl <;> rfl
  | failed waiting errno hard error =>
    rw [write_failed_eq]
    apply unchanged
    rcases error with rfl | ⟨rfl, -⟩
    · rfl
    · simp [takenBy, doWrite]

theorem refused_late (flowing : Flowing used s) (sound : Sound b) (accepts : Accepts s b)
    (sent : Sent s false b outcome error after) : error ≠ .ok ↔ RefusesLate s b outcome := by
  cases sent with
  | refused refuses error which => exact absurd accepts refuses
  | waiting accepts later =>
    exact iff_of_false (fun bad => bad rfl)
      fun late => Bool.false_ne_true (later.symm.trans late.2.1)
  | attempted accepts now middle written =>
    have flows := queue_flowing flowing false sound
    have bytes : middle.sendBytes = bytesLeft s b outcome :=
      (written_send_bytes flows written).trans (Nat.mod_add_mod _ _ _)
    rcases attempt_result flows (queue_waiting s false b) written with
      ⟨all, result⟩ | ⟨short, hard, code, result⟩ | ⟨short, soft, result⟩ <;> rw [result]
    · exact iff_of_true SendError.noConfusion ⟨accepts, now, .inl all⟩
    · exact iff_of_true SendError.noConfusion ⟨accepts, now, .inr (.inl ⟨hard, code⟩)⟩
    have mark : middle.sendBytes ≥ (queue s false b).highWaterMark ↔
        s.highWaterMark ≤ bytesLeft s b outcome := by
      rw [bytes]
      exact Iff.rfl
    constructor
    · intro bad
      refine ⟨accepts, now, .inr (.inr (mark.mp ?_))⟩
      by_contra low
      exact bad (if_neg low)
    · rintro ⟨-, -, all | ⟨hard, code⟩ | high⟩
      · exact absurd all short
      · exact absurd (soft hard) code
      · rw [if_pos (mark.mpr high)]
        exact SendError.noConfusion

theorem sent_unsent (flowing : Flowing used s) (alive : s.released = false) (sound : Sound b)
    (fresh : ∀ byte ∈ b.content, ¬Somewhere byte s)
    (sent : Sent s false b outcome error after) : Unsent b.content after ↔ ¬Accepts s b := by
  obtain ⟨⟨_, flows⟩, lives⟩ := sent_flowing flowing alive (fun _ => sound) sent
  rw [unsent_iff flows lives]
  have places : ∀ byte, Somewhere byte after ↔ Somewhere byte s ∨ Accepts s b ∧ byte ∈ b.content :=
    fun byte => sent_somewhere flowing (fun _ => sound) sent
  constructor
  · intro nowhere accepts
    obtain ⟨byte, member⟩ := exists_mem_of_ne_nil b.content sound.content_ne
    exact nowhere byte member ((places byte).mpr (.inr ⟨accepts, member⟩))
  · intro refuses byte member there
    rcases (places byte).mp there with before | ⟨accepts, -⟩
    · exact fresh byte member before
    · exact refuses accepts

/-- A refused command is never sent exactly if it was not refused behind an attempt
to write, and a command that was not refused is waited for. -/
theorem refused_command_unsent {c : Client} (command : Option (SendBuffer Data))
    (memory cb : Bool) (now : Nat) (outcome : WriteOutcome) (flowing : Flowing used s)
    (alive : s.released = false) (sound : ∀ b ∈ command, Sound b)
    (fresh : ∀ b ∈ command, ∀ byte ∈ b.content, ¬Somewhere byte s) :
    ∃ code c' s', redisExecute c s command memory cb now outcome = some (code, c', s') ∧
      (code = .ok → c'.waitreplys = c.waitreplys ++
        [{ id := c.sent, deadline := (now + 10 * 1000) % 2 ^ 64, cb := cb }]) ∧
      ((code ≠ .ok → ∀ b ∈ command, Unsent b.content s') ↔
        ¬(memory = true ∧ ∃ b ∈ command, RefusesLate s b outcome)) := by
  cases command with
  | none =>
    refine ⟨_, _, _, rfl, ExecuteError.noConfusion, ?_⟩
    simp
  | some b =>
    have fine := sound b rfl
    have unseen := fresh b rfl
    cases memory with
    | false =>
      refine ⟨_, _, _, rfl, ExecuteError.noConfusion, ?_⟩
      simpa [unsent_iff flowing alive] using unseen
    | true =>
      obtain ⟨error, after, ran, sent⟩ := send_cases flowing alive (fun _ => fine) false outcome
      have unsent := sent_unsent flowing alive fine unseen sent
      have late := fun accepts => refused_late flowing fine accepts sent
      rw [redisExecute, redisExecuteBuffer, if_pos rfl, ran]
      simp only [Option.map_some]
      by_cases ok : error = .ok
      · rw [if_neg (not_not.mpr ok)]
        refine ⟨_, _, _, rfl, fun _ => rfl, iff_of_true (fun bad => absurd rfl bad) ?_⟩
        rintro ⟨-, _, ⟨⟩, refuses⟩
        exact (late refuses.1).mpr refuses ok
      · rw [if_pos ok]
        refine ⟨_, _, _, rfl, ExecuteError.noConfusion, ?_⟩
        have only : Unsent b.content after ↔ ¬RefusesLate s b outcome :=
          unsent.trans ⟨fun refuses late => refuses late.1,
            fun early accepts => early ((late accepts).mp ok)⟩
        simpa using only

/-- A command on a socket that has been closed. -/
theorem closed_command_unsent :
    ∃ c' s', redisExecute newClient { idleSocket with closed := true } (some threeBytes) true true
        5 .again = some (.redisRequest, c', s') ∧ Unsent [1, 2, 3] s' := by
  obtain ⟨code, c', s', ran, -, exact_⟩ := refused_command_unsent (c := newClient)
    (s := { idleSocket with closed := true }) (some threeBytes) true true 5 .again
    (.empty rfl rfl rfl) rfl (by rintro _ ⟨⟩; exact three_bytes_sound) (by
      rintro _ ⟨⟩ byte - (wire | ⟨urgent, queued⟩)
      · exact not_mem_nil wire
      · cases urgent <;> exact not_mem_nil queued)
  have unsent := exact_.mpr (by rintro ⟨-, _, ⟨⟩, accepts, -⟩; exact absurd accepts (by decide))
  obtain rfl : code = .redisRequest := Option.some.inj (congrArg (Option.map Prod.fst) ran.symm)
  exact ⟨c', s', ran, unsent ExecuteError.noConfusion _ rfl⟩

/-- The kernel takes all of a command, the client forgets it, and no entry waits
for its reply. -/
theorem taken_command_refused :
    (redisExecute newClient idleSocket (some threeBytes) true true 5 (.wrote 3)).map
        (fun result => (result.1, result.2.1.waitreplys, result.2.2.wire)) =
      some (.redisRequest, [], [1, 2, 3]) := by
  decide +kernel

end Refusing

/-! ## After a hard error -/

section Silence

open StreamSocketLife

variable {wire : List Data} {s after : StreamSocket Data} {life next : Life Data}
  {input : Input Data}

/-- The loop reports that a socket can be written to only if it was asked, and a socket that
was taken out of its loop is not added again. -/
def Asked (life : Life Data) (input : Input Data) : Prop :=
  input.Sound ∧ input ≠ .call .addHandle ∧
    ∀ read, input = .events read true → life.socket.writeEnabled = true

def Silent (wire : List Data) (s : StreamSocket Data) : Prop :=
  s.wclose = true ∧ s.writeEnabled = false ∧ s.wire = wire

/-- Whether `process_write` is still to come in this `on_events`. -/
def writes : Phase → Bool
  | .reading write | .unpacking write | .callback _ write => write
  | .writing => true
  | .outside | .leaving => false

theorem writes_after_read (write : Bool) : writes (afterRead write) = write := by
  cases write <;> rfl

theorem freed_silent (silent : Silent wire s) : Silent wire (freed s) := by
  unfold freed unwatchHandle
  split_ifs
  · exact ⟨silent.1, rfl, silent.2.2⟩
  · exact silent

theorem handled_silent (silent : Silent wire s) (handled : Handled s after) :
    Silent wire after := by
  cases handled with
  | unchanged => exact silent
  | handshake going => exact silent
  | disabled =>
    rw [disable_read_eq]
    exact silent
  | ended =>
    rw [disable_read_eq]
    exact silent
  | broken => exact ⟨rfl, silent.2⟩
  | removed =>
    unfold unwatchHandle
    split_ifs
    · exact ⟨silent.1, rfl, silent.2.2⟩
    · exact silent

theorem called_silent {c : Call Data} (silent : Silent wire s) (called : Called s c after)
    (apart : c ≠ .addHandle) : Silent wire after := by
  cases called with
  | added => exact absurd rfl apart
  | sent urgent b outcome error after sound sent =>
    have refuses : ¬Accepts s b := fun accepts => nomatch accepts.2.2.2.symm.trans silent.1
    cases sent with
    | refused => exact silent
    | attempted accepts => exact absurd accepts refuses
    | waiting accepts => exact absurd accepts refuses
  | delayed delay unset => nomatch unset.symm.trans silent.1
  | shut | deferred => exact ⟨rfl, silent.2⟩
  | again => exact silent
  | released => exact freed_silent ⟨rfl, silent.2⟩
  | paused =>
    rw [pause_read_eq]
    exact silent
  | resumed =>
    rw [resume_read_eq]
    exact silent

theorem read_writes (s : StreamSocket Data) (write : Bool) (result : ReadResult) :
    writes (readStep s write result).2 = write := by
  cases result with
  | handshake => exact writes_after_read write
  | eof =>
    rw [readStep]
    split_ifs <;> rfl
  | _ => rfl

theorem return_writes (s : StreamSocket Data) (write : Bool) (next : Next) :
    writes (returnStep s write next).2 = write := by
  cases next with
  | unpack =>
    rw [returnStep]
    split_ifs
    · exact writes_after_read write
    · rfl
  | _ => exact writes_after_read write

theorem stepped_silent (asked : Asked life input) (silent : Silent wire life.socket)
    (still : writes life.phase = false) (stepped : Stepped life input next) :
    Silent wire next.socket ∧ writes next.phase = false := by
  cases stepped with
  | idle => exact ⟨silent, still⟩
  | called c after callable alive called =>
    exact ⟨called_silent silent called fun same => asked.2.1 (congrArg _ same), still⟩
  | fired => exact ⟨freed_silent silent, still⟩
  | entered read write =>
    refine ⟨silent, ?_⟩
    cases write with
    | true => nomatch silent.2.1.symm.trans (asked.2.2 read rfl)
    | false => cases read <;> rfl
  | read write result reading =>
    rw [reading] at still
    exact ⟨handled_silent silent (read_step life.socket write result).1,
      (read_writes life.socket write result).trans still⟩
  | unpacked write result unpacking =>
    rw [unpacking] at still
    refine ⟨silent, Eq.trans ?_ still⟩
    cases result with
    | nothing => exact writes_after_read write
    | _ => rfl
  | returned next write callback =>
    rw [callback] at still
    exact ⟨handled_silent silent (return_step life.socket write next).1,
      (return_writes life.socket write next).trans still⟩
  | wrote outcome after writing => nomatch writing ▸ still
  | left => exact ⟨silent, rfl⟩
  | ended => exact ⟨freed_silent silent, rfl⟩

theorem reached_silent (steady : Steady life) (silent : Silent wire life.socket)
    (still : writes life.phase = false) (reached : Reaches step Asked life next) :
    Silent wire next.socket := by
  have carries : Carries step Asked life fun life =>
      Steady life ∧ Silent wire life.socket ∧ writes life.phase = false := by
    refine ⟨⟨steady, silent, still⟩, ?_⟩
    rintro life input ⟨steady, silent, still⟩ asked
    obtain ⟨next, ran, stepped⟩ := step_cases steady asked.1
    exact ⟨next, ran, stepped_steady steady stepped, stepped_silent asked silent still stepped⟩
  exact (carries.invariant reached).2.1

theorem hard_error_silent {b : SendBuffer Data} {outcome : WriteOutcome} {error : SendError}
    (attached : s.loop = true) (reading : s.rclose = false) (accepts : Accepts s b)
    (now : writesNow s b = true) (hard : HardError outcome) (coded : outcome ≠ .failed 0)
    (sent : Sent s false b outcome error after) : error ≠ .ok ∧ Silent s.wire after := by
  obtain ⟨errno, rfl, hard⟩ := hard
  have some_ : errno ≠ 0 := fun same => coded (congrArg _ same)
  cases sent with
  | refused refuses => exact absurd accepts refuses
  | waiting _ later => nomatch later.symm.trans now
  | attempted _ _ middle written =>
    cases written with
    | idle empty => exact absurd empty.1 (queue_waiting s false b)
    | took _ taken rest nonempty _ _ _ kernel => exact absurd kernel nonempty
    | again _ blocked =>
      rcases blocked with same | same
      · nomatch same
      · exact absurd (WriteOutcome.failed.inj same) hard
    | failed _ errno' hard' error =>
      obtain rfl : errno = errno' :=
        error.elim WriteOutcome.failed.inj fun wrote => nomatch wrote.1
      have same : (writeFailed (answered (queue s false b) [] errno)).errno = errno := by
        rw [write_failed_eq]
        rfl
      rw [afterWrite, same, if_neg fun goes => goes.elim hard fun zero => some_ zero.1]
      refine ⟨SendError.noConfusion, ?_⟩
      unfold writeFailed disableWrite
      dsimp only
      rw [if_neg (by simp [answered, queue, StreamSocket.setList, reading])]
      split_ifs with enabled
      · exact ⟨rfl, rfl, append_nil _⟩
      · exact absurd attached ‹_›
      · exact ⟨rfl, Bool.eq_false_iff.mpr enabled, append_nil _⟩

/-- A command refused behind a write that failed outside `on_events` is not sent either, however
the socket is used from then on. -/
theorem failed_command_unsent {c : Client} {b : SendBuffer Data} (cb : Bool) (now : Nat)
    {outcome : WriteOutcome} (steady : Steady life) (outside : life.phase = .outside)
    (attached : life.socket.loop = true) (reading : life.socket.rclose = false) (sound : Sound b)
    (accepts : Accepts life.socket b)
    (writing : writesNow life.socket b = true) (hard : HardError outcome)
    (coded : outcome ≠ .failed 0) (fresh : ∀ byte ∈ b.content, byte ∉ life.socket.wire) :
    ∃ c' s', redisExecute c life.socket (some b) true cb now outcome =
        some (.redisRequest, c', s') ∧
      ∀ last, Reaches step Asked ⟨s', .outside⟩ last →
        ∀ byte ∈ b.content, byte ∉ last.socket.wire := by
  have alive := steady.watched attached
  obtain ⟨used, flowing⟩ := steady.flowing alive
  obtain ⟨error, after, ran, sent⟩ := send_cases flowing alive (fun _ => sound) false outcome
  obtain ⟨bad, silent⟩ := hard_error_silent attached reading accepts writing hard coded sent
  have called :=
    called_steady steady alive (.sent false b outcome error after (fun _ => sound) sent)
  rw [outside] at called
  refine ⟨execute c cb false now, after, ?_, fun last reached => ?_⟩
  · rw [redisExecute, redisExecuteBuffer, if_pos rfl, ran]
    simp only [Option.map_some, if_pos bad]
  · rw [(reached_silent called silent rfl reached).2.2]
    exact fresh

end Silence

end Chuck.RedisExecute
