import Chuck.StreamSendList

/-!
# What one write and one send do

`prepare_send` and `update_send_list` only share the flag `sending_urgent`, and
the way that finishes a buffer sent in part leaves it as it was. What makes them
agree is that the flag is clear whenever the first buffer of `send_list` has been
sent in part, and that never both lists start with such a buffer.
-/

namespace Chuck.StreamSendSteps

open Support.PartialQueue StreamSocketModel StreamSendList List

variable {Data : Type}

/-! ## One `process_write` -/

def chosen (s : StreamSocket Data) : Bool := decide (s.urgentList ≠ [] ∧ ¬halfSent s)

/-- `used` is what has been sent of the first buffer of each list. -/
structure Flowing (used : Bool → List Data) (s : StreamSocket Data) : Prop where
  queued : ∀ urgent, Queued (used urgent) (s.list urgent)
  flag : used false ≠ [] → s.sendingUrgent = false
  single : used false = [] ∨ used true = []
  counted : s.sendBytes =
    ((contents s.sendList).flatten.length + (contents s.urgentList).flatten.length) % 2 ^ 32

section Writing

variable {used : Bool → List Data} {s : StreamSocket Data}

theorem half_sent_iff (flowing : Flowing used s) : halfSent s ↔ used false ≠ [] := by
  have queued : Queued (used false) s.sendList := flowing.queued false
  rw [halfSent]
  cases list : s.sendList with
  | nil =>
    have none : used false = [] := by
      by_contra some
      exact queued.started some list
    simp [none]
  | cons b rest =>
    rw [list] at queued
    have head := queued.head
    simp [head]

theorem prepare_send (flowing : Flowing used s) :
    ∃ iovecs, prepareSend s = ({ s with sendingUrgent := chosen s }, iovecs) ∧
      (sendListEmpty s → iovecs = []) ∧
      (¬sendListEmpty s → iovecs ≠ [] ∧ offered s.ssl iovecs ≠ [] ∧
        offered s.ssl iovecs <+: (contents (s.list (chosen s))).flatten) := by
  have normal : Queued (used false) s.sendList := flowing.queued false
  have urgents : Queued (used true) s.urgentList := flowing.queued true
  rw [prepareSend]
  by_cases urgent : s.urgentList = []
  · have own : chosen s = false := by simp [chosen, urgent]
    rw [if_neg (by simp [urgent]), if_neg (by simp [urgent]), own]
    refine ⟨_, rfl, fun empty => by rw [empty.1]; rfl, fun waiting => ?_⟩
    obtain ⟨b, rest, list⟩ := exists_cons_of_ne_nil fun none => waiting ⟨none, urgent⟩
    rw [StreamSocket.list, list]
    rw [list] at normal
    exact offered_list s.ssl normal.sound
  · by_cases half : halfSent s
    · have flag := flowing.flag ((half_sent_iff flowing).mp half)
      have own : chosen s = false := by simp [chosen, half]
      obtain ⟨b, rest, list⟩ : ∃ b rest, s.sendList = b :: rest := by
        obtain ⟨b, member, -⟩ := half
        exact ⟨b, head?_eq_some_iff.mp member⟩
      rw [if_pos ⟨urgent, half⟩, own, ← flag]
      refine ⟨_, rfl, fun empty => absurd empty.2 urgent, fun _ => ?_⟩
      rw [flag, StreamSocket.list, list, contents, map_cons, flatten_cons]
      rw [list] at normal
      obtain ⟨filled, some, front⟩ := offered_buffer s.ssl (normal.sound b mem_cons_self)
      exact ⟨filled, some, front.trans (prefix_append _ _)⟩
    · have own : chosen s = true := by simp [chosen, half, urgent]
      rw [if_neg (by simp [half]), if_pos urgent, own]
      refine ⟨_, rfl, fun empty => absurd empty.2 urgent, fun _ => ?_⟩
      obtain ⟨u, more, list⟩ := exists_cons_of_ne_nil urgent
      rw [StreamSocket.list, list]
      rw [list] at urgents
      exact offered_list s.ssl urgents.sound

def answered (s : StreamSocket Data) (taken : List Data) (errno : Nat) : StreamSocket Data :=
  { s with sendingUrgent := chosen s, errno := errno, wire := s.wire ++ taken }

def updated (s : StreamSocket Data) (taken : List Data) (rest : List (SendBuffer Data)) :
    StreamSocket Data :=
  StreamSocket.setList
    { answered s taken 0 with
      sendBytes := (s.sendBytes + (2 ^ 32 - taken.length)) % 2 ^ 32 } (chosen s) rest

def takenBy (s : StreamSocket Data) (outcome : WriteOutcome) : List Data :=
  (doWrite s.ssl (prepareSend s).2 outcome).1

inductive Written (s : StreamSocket Data) (outcome : WriteOutcome) : StreamSocket Data → Prop where
  | idle (empty : sendListEmpty s) : Written s outcome { s with sendingUrgent := false }
  | took (waiting : ¬sendListEmpty s) (taken : List Data) (rest : List (SendBuffer Data))
      (nonempty : taken ≠ []) (few : taken.length ≤ maxCount)
      (front : taken <+: (contents (s.list (chosen s))).flatten)
      (popped : popSent (s.list (chosen s)) taken.length = some rest)
      (kernel : taken = takenBy s outcome) :
      Written s outcome (wroteSome (updated s taken rest))
  | again (waiting : ¬sendListEmpty s) (blocked : outcome = .again ∨ outcome = .failed eagain) :
      Written s outcome (answered s [] eagain)
  | failed (waiting : ¬sendListEmpty s) (errno : Nat) (hard : errno ≠ eagain)
      (error : outcome = .failed errno ∨ outcome = .wrote 0 ∧ errno = 0) :
      Written s outcome (writeFailed (answered s [] errno))

theorem process_write (flowing : Flowing used s) (alive : s.released = false)
    (outcome : WriteOutcome) :
    ∃ after, processWrite s outcome = some after ∧ Written s outcome after := by
  obtain ⟨iovecs, prepared, none, some⟩ := prepare_send flowing
  rw [processWrite, touch, alive]
  simp only [Bool.false_eq_true, if_false, Option.bind_eq_bind, Option.bind_some, prepared]
  by_cases empty : sendListEmpty s
  · have idle : chosen s = false := by simp [chosen, empty.2]
    rw [none empty, idle]
    exact ⟨_, rfl, .idle empty⟩
  obtain ⟨filled, nonempty, front⟩ := some empty
  rw [if_neg (by simpa using filled)]
  cases outcome with
  | wrote n =>
    rw [doWrite, settleWrite]
    have short := length_take_le (min n maxCount) (offered s.ssl iovecs)
    have first := (List.take_prefix (min n maxCount) _).trans front
    cases taken : (offered s.ssl iovecs).take (min n maxCount) with
    | nil =>
      have zero : n = 0 := by
        rcases take_eq_nil_iff.mp taken with zero | absurd
        · rw [maxCount] at zero
          omega
        · exact (nonempty absurd).elim
      rw [zero]
      exact ⟨_, rfl, .failed empty 0 (by decide) (.inr ⟨rfl, rfl⟩)⟩
    | cons byte bytes =>
      rw [taken] at first short
      obtain ⟨rest, popped, -, -⟩ := pop_sent (flowing.queued (chosen s)) first.length_le
      refine ⟨_, ?_, .took empty (byte :: bytes) rest (cons_ne_nil _ _) (by omega)
        first popped (by rw [takenBy, prepared, doWrite, taken])⟩
      simp only [isEmpty_cons, Bool.false_eq_true, if_false, updateSendList]
      rw [show StreamSocket.list _ (chosen s) = s.list (chosen s) by cases chosen s <;> rfl,
        popped]
      rfl
  | again => exact ⟨_, rfl, .again empty (.inl rfl)⟩
  | failed errno =>
    by_cases hard : errno = eagain
    · rw [hard]
      exact ⟨_, rfl, .again empty (.inr rfl)⟩
    · refine ⟨_, ?_, .failed empty errno hard (.inl rfl)⟩
      rw [doWrite, settleWrite, isEmpty_nil, if_pos rfl, if_pos hard]
      rfl

/-! What a write leaves alone. -/

section

variable (s : StreamSocket Data)

theorem wrote_some_eq :
    wroteSome s =
      { s with wclose := (wroteSome s).wclose, writeEnabled := (wroteSome s).writeEnabled } := by
  unfold wroteSome disableWrite
  split_ifs <;> rfl

theorem list_took (taken : List Data) (rest : List (SendBuffer Data)) (cls : Bool) :
    (wroteSome (updated s taken rest)).list cls = if cls = chosen s then rest else s.list cls := by
  rw [wrote_some_eq, updated]
  cases cls <;> cases chosen s <;> rfl

theorem errno_took (taken : List Data) (rest : List (SendBuffer Data)) :
    (wroteSome (updated s taken rest)).errno = 0 := by
  rw [wrote_some_eq, updated]
  cases chosen s <;> rfl

theorem send_list_empty_iff : sendListEmpty s ↔ ∀ cls, s.list cls = [] := by
  rw [Bool.forall_bool]
  rfl

theorem write_failed_eq :
    writeFailed s =
      { s with
        wclose := true, writeError := s.errno, writeEnabled := (writeFailed s).writeEnabled } := by
  unfold writeFailed disableWrite
  dsimp only
  split_ifs <;> rfl

theorem enable_write_eq :
    enableWrite s = { s with writeEnabled := (enableWrite s).writeEnabled } := by
  unfold enableWrite
  split_ifs <;> rfl

end

theorem after_write_eq (urgent : Bool) (s : StreamSocket Data) :
    (afterWrite urgent s).2 =
      { s with writeEnabled := (afterWrite urgent s).2.writeEnabled } := by
  rw [afterWrite]
  split_ifs
  · exact enable_write_eq s
  · exact enable_write_eq s
  · rfl

theorem Flowing.congr {other : StreamSocket Data} (flowing : Flowing used s)
    (normal : other.sendList = s.sendList) (urgent : other.urgentList = s.urgentList)
    (bytes : other.sendBytes = s.sendBytes)
    (flag : used false ≠ [] → other.sendingUrgent = false) : Flowing used other := by
  refine ⟨fun cls => ?_, flag, flowing.single, ?_⟩
  · have queued := flowing.queued cls
    cases cls with
    | false => rwa [StreamSocket.list, normal]
    | true => rwa [StreamSocket.list, urgent]
  · rw [bytes, normal, urgent]
    exact flowing.counted

theorem Flowing.empty (normal : s.sendList = []) (urgent : s.urgentList = [])
    (bytes : s.sendBytes = 0) : Flowing (fun _ => []) s := by
  refine ⟨fun cls => ?_, fun some => absurd rfl some, .inl rfl, ?_⟩
  · cases cls with
    | false =>
      rw [StreamSocket.list, normal]
      exact Queued.nil
    | true =>
      rw [StreamSocket.list, urgent]
      exact Queued.nil
  · rw [bytes, normal, urgent]
    rfl

theorem chosen_alone (flowing : Flowing used s) : used (!chosen s) = [] := by
  by_cases own : chosen s = true
  · rw [own, Bool.not_true]
    by_contra half
    exact (of_decide_eq_true own).2 ((half_sent_iff flowing).mpr half)
  rw [Bool.not_eq_true] at own
  rw [own, Bool.not_false]
  by_cases half : used false = []
  · have none : s.urgentList = [] := by
      by_contra some
      exact of_decide_eq_false own ⟨some, fun there => (half_sent_iff flowing).mp there half⟩
    by_contra some
    exact (flowing.queued true).started some none
  · exact flowing.single.resolve_left half

end Writing

structure Moved (urgent : Bool) (used : Bool → List Data) (s after : StreamSocket Data) (n : Nat) :
    Prop where
  enough : n ≤ (contents (s.list urgent)).flatten.length
  wire : after.wire = s.wire ++ (contents (s.list urgent)).flatten.take n
  own : contents (after.list urgent) = (spend n (used urgent) (contents (s.list urgent))).2.2
  other : after.list (!urgent) = s.list (!urgent)
  flowing : Flowing (Function.update used urgent
    (spend n (used urgent) (contents (s.list urgent))).2.1) after
  alive : after.released = s.released

section Moving

variable {used : Bool → List Data} {s after : StreamSocket Data} {outcome : WriteOutcome}

theorem Moved.nothing (flowing : Flowing used s) (normal : after.sendList = s.sendList)
    (urgent : after.urgentList = s.urgentList) (bytes : after.sendBytes = s.sendBytes)
    (flag : after.sendingUrgent = chosen s) (wire : after.wire = s.wire)
    (alive : after.released = s.released) : Moved (chosen s) used s after 0 := by
  have same : ∀ cls, after.list cls = s.list cls := fun cls => by
    cases cls with
    | false => exact normal
    | true => exact urgent
  have clear : used false ≠ [] → after.sendingUrgent = false := fun half => by
    rw [flag, chosen, decide_eq_false_iff_not]
    exact fun ready => ready.2 ((half_sent_iff flowing).mpr half)
  have none := spend_zero (used (chosen s)) (flowing.queued (chosen s)).full
  refine ⟨Nat.zero_le _, ?_, ?_, same _, ?_, alive⟩
  · rw [wire, take_zero, append_nil]
  · rw [none, same]
  · rw [none, Function.update_eq_self]
    exact flowing.congr normal urgent bytes clear

theorem updated_moved (flowing : Flowing used s) {taken : List Data} {rest : List (SendBuffer Data)}
    (few : taken.length ≤ maxCount) (front : taken <+: (contents (s.list (chosen s))).flatten)
    (popped : popSent (s.list (chosen s)) taken.length = some rest) :
    Moved (chosen s) used s (updated s taken rest) taken.length := by
  have alone := chosen_alone flowing
  have enough := front.length_le
  obtain ⟨same, ran, left, queued⟩ := pop_sent (flowing.queued (chosen s)) enough
  obtain rfl : same = rest := Option.some.inj (ran.symm.trans popped)
  have dropped := congrArg List.length (spend_taken _ (used (chosen s)) _ enough).2
  rw [← left, length_drop] at dropped
  have counted := flowing.counted
  have small : taken.length < 2 ^ 32 := few.trans_lt (by decide)
  have others := flowing.queued (!chosen s)
  have wire := prefix_iff_eq_take.mp front
  unfold updated answered
  generalize own : chosen s = cls at *
  cases cls with
  | false =>
    refine ⟨enough, congrArg (s.wire ++ ·) wire, left, rfl,
      ⟨fun urgent => ?_, fun _ => rfl, ?_, ?_⟩, rfl⟩
    · cases urgent with
      | false => exact queued
      | true => exact others
    · exact .inr alone
    · simp only [StreamSocket.setList, StreamSocket.list, Bool.false_eq_true, if_false] at *
      omega
  | true =>
    refine ⟨enough, congrArg (s.wire ++ ·) wire, left, rfl,
      ⟨fun urgent => ?_, fun half => absurd alone half, .inl alone, ?_⟩, rfl⟩
    · cases urgent with
      | false => exact others
      | true => exact queued
    · simp only [StreamSocket.setList, StreamSocket.list, if_true] at *
      omega

theorem written_moved (flowing : Flowing used s) (written : Written s outcome after) :
    ∃ n, Moved (chosen s) used s after n := by
  cases written with
  | idle empty =>
    refine ⟨0, .nothing flowing rfl rfl rfl ?_ rfl rfl⟩
    simp [chosen, empty.2]
  | again waiting blocked =>
    exact ⟨0, .nothing flowing rfl rfl rfl rfl (append_nil _) rfl⟩
  | failed waiting errno hard error =>
    refine ⟨0, ?_⟩
    rw [write_failed_eq]
    exact .nothing flowing rfl rfl rfl rfl (append_nil _) rfl
  | took waiting taken rest nonempty few front popped kernel =>
    have moved := updated_moved flowing few front popped
    refine ⟨taken.length, moved.enough, ?_, ?_, ?_, ?_, ?_⟩ <;> rw [wrote_some_eq]
    · exact moved.wire
    · exact moved.own
    · exact moved.other
    · exact moved.flowing.congr rfl rfl rfl moved.flowing.flag
    · exact moved.alive

end Moving

/-! ## One send -/

def Accepts (s : StreamSocket Data) (b : SendBuffer Data) : Prop :=
  b.readOnly = false ∧ b.datasize ≠ 0 ∧ s.closed = false ∧ s.wclose = false

instance (s : StreamSocket Data) (b : SendBuffer Data) : Decidable (Accepts s b) :=
  inferInstanceAs (Decidable (_ ∧ _))

inductive Sent (s : StreamSocket Data) (urgent : Bool) (b : SendBuffer Data)
    (outcome : WriteOutcome) : SendError → StreamSocket Data → Prop where
  | refused (refuses : ¬Accepts s b) (error : SendError)
      (which : error = .bufferReadOnly ∨ error = .invaildBuffer ∨ error = .socketClose) :
      Sent s urgent b outcome error s
  | attempted (accepts : Accepts s b) (now : writesNow s b = true) (after : StreamSocket Data)
      (written : Written (queue s urgent b) outcome after) :
      Sent s urgent b outcome (afterWrite urgent after).1 (afterWrite urgent after).2
  | waiting (accepts : Accepts s b) (later : writesNow s b = false) :
      Sent s urgent b outcome .ok
        (if s.writeEnabled then queue s urgent b else enableWrite (queue s urgent b))

section Sending

variable {used : Bool → List Data} {s : StreamSocket Data} {b : SendBuffer Data}

theorem list_queue (s : StreamSocket Data) (urgent : Bool) (b : SendBuffer Data) :
    (queue s urgent b).list urgent = s.list urgent ++ [{ b with internal := b.datasize }] ∧
      (queue s urgent b).list (!urgent) = s.list (!urgent) := by
  cases urgent <;> exact ⟨rfl, rfl⟩

theorem contents_push (list : List (SendBuffer Data)) (b : SendBuffer Data) :
    contents (list ++ [{ b with internal := b.datasize }]) = contents list ++ [b.content] := by
  rw [contents, map_append]
  rfl

theorem queue_flowing (flowing : Flowing used s) (urgent : Bool) (sound : Sound b) :
    Flowing used (queue s urgent b) := by
  have counted := flowing.counted
  have size := sound.length_content
  have own := (flowing.queued urgent).push sound
  have other := flowing.queued (!urgent)
  cases urgent with
  | false =>
    refine ⟨fun cls => ?_, flowing.flag, flowing.single, ?_⟩
    · cases cls with
      | false => exact own
      | true => exact other
    · simp only [queue, StreamSocket.setList, StreamSocket.list, Bool.false_eq_true, if_false,
        contents_push, flatten_append, length_append, flatten_cons,
        flatten_nil, append_nil]
      omega
  | true =>
    refine ⟨fun cls => ?_, flowing.flag, flowing.single, ?_⟩
    · cases cls with
      | false => exact other
      | true => exact own
    · simp only [queue, StreamSocket.setList, StreamSocket.list, if_true, contents_push,
        flatten_append, length_append, flatten_cons, flatten_nil,
        append_nil]
      omega

theorem released_queue (s : StreamSocket Data) (urgent : Bool) (b : SendBuffer Data) :
    (queue s urgent b).released = s.released := by
  cases urgent <;> rfl

theorem send_cases (flowing : Flowing used s) (alive : s.released = false)
    (sound : Accepts s b → Sound b) (urgent : Bool) (outcome : WriteOutcome) :
    ∃ error after, send s urgent b outcome = some (error, after) ∧
      Sent s urgent b outcome error after := by
  have takes : ¬b.readOnly = true → ¬b.datasize = 0 → ¬(s.closed = true ∨ s.wclose = true) →
      Accepts s b := fun only none shut =>
    ⟨by simpa using only, none, by simpa using (not_or.mp shut).1,
      by simpa using (not_or.mp shut).2⟩
  rw [send, touch, alive]
  simp only [Bool.false_eq_true, if_false, Option.bind_eq_bind, Option.bind_some]
  split_ifs with only none shut now enabled
  · exact ⟨_, _, rfl, .refused (fun accepts => by simp [accepts.1] at only) _ (.inl rfl)⟩
  · exact ⟨_, _, rfl, .refused (fun accepts => accepts.2.1 none) _ (.inr (.inl rfl))⟩
  · refine ⟨_, _, rfl, .refused (fun accepts => ?_) _ (.inr (.inr rfl))⟩
    simp [accepts.2.2.1, accepts.2.2.2] at shut
  · have accepts := takes only none shut
    obtain ⟨after, ran, written⟩ := process_write
      (queue_flowing flowing urgent (sound accepts))
      ((released_queue s urgent b).trans alive) outcome
    rw [ran]
    exact ⟨_, _, rfl, .attempted accepts now after written⟩
  · refine ⟨_, _, rfl, ?_⟩
    have waits : Sent s urgent b outcome _ _ := .waiting (takes only none shut) (by simpa using now)
    rwa [if_pos enabled] at waits
  · refine ⟨_, _, rfl, ?_⟩
    have waits : Sent s urgent b outcome _ _ := .waiting (takes only none shut) (by simpa using now)
    rwa [if_neg enabled] at waits

theorem sent_flowing {after : StreamSocket Data} {urgent : Bool} {outcome : WriteOutcome}
    {error : SendError} (flowing : Flowing used s) (alive : s.released = false)
    (sound : Accepts s b → Sound b) (sent : Sent s urgent b outcome error after) :
    (∃ used, Flowing used after) ∧ after.released = false := by
  cases sent with
  | refused refuses error which => exact ⟨⟨used, flowing⟩, alive⟩
  | attempted accepts now middle written =>
    obtain ⟨n, moved⟩ := written_moved (queue_flowing flowing urgent (sound accepts)) written
    rw [after_write_eq]
    exact ⟨⟨_, moved.flowing.congr rfl rfl rfl moved.flowing.flag⟩,
      moved.alive.trans ((released_queue s urgent b).trans alive)⟩
  | waiting accepts later =>
    have flows := queue_flowing flowing urgent (sound accepts)
    split_ifs
    · exact ⟨⟨used, flows⟩, (released_queue s urgent b).trans alive⟩
    · rw [enable_write_eq]
      exact ⟨⟨used, flows.congr rfl rfl rfl flows.flag⟩, (released_queue s urgent b).trans alive⟩

end Sending

end Chuck.StreamSendSteps
