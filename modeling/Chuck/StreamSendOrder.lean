import Chuck.StreamSendSteps

/-!
# The order of the bytes on the wire

Buffers of two classes are sent over one connection. However they are cut by
partial writes, the bytes on the wire are those of whole buffers one after
another, each class in its order, and urgent buffers overtake all others that
have not been started.
-/

namespace Chuck.StreamSendOrder

open Support.PartialQueue StreamSocketModel StreamSendList StreamSendSteps Function List

variable {Data : Type}

variable {b : SendBuffer Data} {after : StreamSocket Data} {urgent : Bool} {outcome : WriteOutcome}

/-! ## Runs -/

inductive Act (Data : Type) where
  | send (urgent : Bool) (b : SendBuffer Data) (outcome : WriteOutcome)
  | write (outcome : WriteOutcome)

/-- A socket, and the buffers it has accepted so far. -/
structure Sender (Data : Type) where
  socket : StreamSocket Data
  accepted : List (Bool × List Data)

def perform (sender : Sender Data) : Act Data → Option (Sender Data)
  | .send urgent b outcome =>
    (send sender.socket urgent b outcome).map fun (_, socket) =>
      { socket := socket
        accepted := sender.accepted ++
          if Accepts sender.socket b then [(urgent, b.content)] else [] }
  | .write outcome =>
    (processWrite sender.socket outcome).map fun socket => { sender with socket := socket }

def performs : Sender Data → List (Act Data) → Option (Sender Data)
  | sender, [] => some sender
  | sender, act :: acts => (perform sender act).bind fun next => performs next acts

def Act.Sound : Act Data → Prop
  | .send _ b _ => b.readOnly = false → b.datasize ≠ 0 → StreamSendList.Sound b
  | .write _ => True

def ofClass (urgent : Bool) (buffers : List (Bool × List Data)) : List (List Data) :=
  (buffers.filter (·.1 = urgent)).map Prod.snd

def bytes (buffers : List (Bool × List Data)) : List Data := (buffers.map Prod.snd).flatten

theorem of_class_append (urgent : Bool) (front back : List (Bool × List Data)) :
    ofClass urgent (front ++ back) = ofClass urgent front ++ ofClass urgent back := by
  rw [ofClass, filter_append, map_append]
  rfl

theorem of_class_own (urgent : Bool) (items : List (List Data)) :
    ofClass urgent (items.map (urgent, ·)) = items := by
  rw [ofClass, filter_map, map_map]
  simp [comp_def]

theorem of_class_other (urgent : Bool) (items : List (List Data)) :
    ofClass (!urgent) (items.map (urgent, ·)) = [] := by
  rw [ofClass, filter_map, map_map]
  simp [comp_def]

theorem bytes_append (front back : List (Bool × List Data)) :
    bytes (front ++ back) = bytes front ++ bytes back := by
  rw [bytes, map_append, flatten_append]
  rfl

theorem bytes_tagged (urgent : Bool) (items : List (List Data)) :
    bytes (items.map (urgent, ·)) = items.flatten := by
  rw [bytes, map_map]
  simp [comp_def]

/-! ## The stream -/

/-- The wire holds the buffers of `done`, and what is `used` of the next one; the
rest of what was accepted is still queued. -/
structure Streamed (done : List (Bool × List Data)) (used : Bool → List Data)
    (sender : Sender Data) : Prop where
  flowing : Flowing used sender.socket
  alive : sender.socket.released = false
  wire : sender.socket.wire = bytes done ++ (used false ++ used true)
  order : ∀ urgent, ofClass urgent sender.accepted =
    ofClass urgent done ++ wholes (used urgent) (contents (sender.socket.list urgent))

section Steps

variable {done : List (Bool × List Data)} {used : Bool → List Data} {sender : Sender Data}

theorem moved_streamed {n : Nat} (streamed : Streamed done used sender)
    (moved : Moved (chosen sender.socket) used sender.socket after n) :
    ∃ done used, Streamed done used { sender with socket := after } := by
  have alone := chosen_alone streamed.flowing
  have wholesSame := spend_wholes n (used (chosen sender.socket))
    (contents (sender.socket.list (chosen sender.socket)))
  have taken := (spend_taken n (used (chosen sender.socket)) _ moved.enough).1
  have own := moved.own
  have other := moved.other
  have wire := moved.wire
  have order := streamed.order
  have flowing := moved.flowing
  rw [streamed.wire] at wire
  generalize chosen sender.socket = cls at *
  generalize spend n (used cls) (contents (sender.socket.list cls)) = spent at *
  refine ⟨done ++ spent.1.map (cls, ·), _, flowing, moved.alive.trans streamed.alive, ?_,
    fun urgent => ?_⟩
  · rw [wire, bytes_append, bytes_tagged]
    cases cls <;> simp_all
  · by_cases same : urgent = cls
    · subst same
      rw [of_class_append, of_class_own, order, update_self, own, append_assoc,
        wholesSame]
    · obtain rfl : urgent = !cls := Bool.eq_not_of_ne same
      rw [of_class_append, of_class_other, append_nil, order, update_of_ne same, other]

theorem queue_streamed (urgent : Bool) (streamed : Streamed done used sender) (sound : Sound b) :
    Streamed done used
      { socket := queue sender.socket urgent b
        accepted := sender.accepted ++ [(urgent, b.content)] } := by
  obtain ⟨own, other⟩ := list_queue sender.socket urgent b
  refine ⟨queue_flowing streamed.flowing urgent sound,
    (released_queue sender.socket urgent b).trans streamed.alive, ?_, fun cls => ?_⟩
  · cases urgent <;> exact streamed.wire
  · have started : used urgent ≠ [] → contents (sender.socket.list urgent) ≠ [] := fun some none =>
      (streamed.flowing.queued urgent).started some (map_eq_nil_iff.mp none)
    by_cases same : cls = urgent
    · subst same
      rw [of_class_append, own, contents_push, wholes_push _ _ started, streamed.order,
        append_assoc]
      congr 2
      exact of_class_own cls [b.content]
    · obtain rfl : cls = !urgent := Bool.eq_not_of_ne same
      rw [of_class_append, other, streamed.order]
      exact (congrArg (_ ++ ·) (of_class_other urgent [b.content])).trans (append_nil _)

theorem Streamed.congr (streamed : Streamed done used sender)
    (normal : after.sendList = sender.socket.sendList)
    (urgent : after.urgentList = sender.socket.urgentList)
    (bytes : after.sendBytes = sender.socket.sendBytes)
    (flag : after.sendingUrgent = sender.socket.sendingUrgent)
    (wire : after.wire = sender.socket.wire) (alive : after.released = sender.socket.released) :
    Streamed done used { sender with socket := after } := by
  refine ⟨streamed.flowing.congr normal urgent bytes fun half => flag.trans
    (streamed.flowing.flag half), alive.trans streamed.alive, wire.trans streamed.wire,
    fun cls => ?_⟩
  rw [streamed.order]
  cases cls with
  | false => rw [StreamSocket.list, StreamSocket.list, normal]
  | true => rw [StreamSocket.list, StreamSocket.list, urgent]

theorem sent_streamed {error : SendError} (streamed : Streamed done used sender)
    (sound : Accepts sender.socket b → Sound b)
    (sent : Sent sender.socket urgent b outcome error after) :
    ∃ done used, Streamed done used
      { socket := after
        accepted := sender.accepted ++
          if Accepts sender.socket b then [(urgent, b.content)] else [] } := by
  cases sent with
  | refused refuses error which =>
    rw [if_neg refuses, append_nil]
    exact ⟨done, used, streamed⟩
  | attempted accepts now after written =>
    have queued := queue_streamed urgent streamed (sound accepts)
    obtain ⟨n, moved⟩ := written_moved queued.flowing written
    obtain ⟨done, used, moved⟩ := moved_streamed queued moved
    rw [if_pos accepts, after_write_eq]
    exact ⟨done, used, moved.congr rfl rfl rfl rfl rfl rfl⟩
  | waiting accepts later =>
    have queued := queue_streamed urgent streamed (sound accepts)
    rw [if_pos accepts]
    refine ⟨done, used, ?_⟩
    split_ifs
    · exact queued
    · rw [enable_write_eq]
      exact queued.congr rfl rfl rfl rfl rfl rfl

theorem Act.sound_buffer (sound : Act.Sound (.send urgent b outcome)) {s : StreamSocket Data}
    (accepts : Accepts s b) : StreamSendList.Sound b :=
  sound accepts.1 accepts.2.1

theorem perform_streamed (streamed : Streamed done used sender) {act : Act Data}
    (sound : act.Sound) :
    ∃ next, perform sender act = some next ∧ ∃ done used, Streamed done used next := by
  cases act with
  | send urgent b outcome =>
    obtain ⟨error, after, ran, sent⟩ := send_cases streamed.flowing
      streamed.alive (fun accepts => Act.sound_buffer sound accepts) urgent outcome
    rw [perform, ran]
    exact ⟨_, rfl, sent_streamed streamed (fun accepts => Act.sound_buffer sound accepts) sent⟩
  | write outcome =>
    obtain ⟨after, ran, written⟩ := process_write streamed.flowing streamed.alive outcome
    obtain ⟨n, moved⟩ := written_moved streamed.flowing written
    rw [perform, ran]
    exact ⟨_, rfl, moved_streamed streamed moved⟩

theorem performs_streamed (acts : List (Act Data)) (sound : ∀ act ∈ acts, act.Sound)
    (streamed : Streamed done used sender) :
    ∃ last, performs sender acts = some last ∧ ∃ done used, Streamed done used last := by
  induction acts generalizing sender done used with
  | nil => exact ⟨sender, rfl, done, used, streamed⟩
  | cons act acts ih =>
    obtain ⟨next, ran, _, _, onward⟩ := perform_streamed streamed (sound act mem_cons_self)
    rw [performs, ran]
    exact ih (forall_mem_cons.mp sound).2 onward

theorem used_front (queued : ∀ urgent, Queued (used urgent) (sender.socket.list urgent))
    (urgent : Bool) :
    used urgent <+: (wholes (used urgent) (contents (sender.socket.list urgent))).flatten := by
  have started := (queued urgent).started
  cases list : sender.socket.list urgent with
  | nil =>
    have none : used urgent = [] := by
      by_contra some
      exact started some list
    rw [none]
    exact nil_prefix
  | cons b rest =>
    rw [contents, map_cons, wholes, flatten_cons, append_assoc]
    exact prefix_append _ _

/-- The wire is the front of the accepted buffers in some order that keeps each
class in its own. -/
theorem streamed_order (streamed : Streamed done used sender) :
    ∃ order, (∀ urgent, ofClass urgent order = ofClass urgent sender.accepted) ∧
      sender.socket.wire <+: bytes order := by
  have queued := streamed.flowing.queued
  have wire := streamed.wire
  -- The class that has been started comes first.
  obtain ⟨cls, idle⟩ : ∃ cls, used (!cls) = [] := by
    rcases streamed.flowing.single with none | none
    · exact ⟨true, none⟩
    · exact ⟨false, none⟩
  refine ⟨done ++ (wholes (used cls) (contents (sender.socket.list cls))).map (cls, ·) ++
    (wholes (used (!cls)) (contents (sender.socket.list (!cls)))).map (!cls, ·),
    fun urgent => ?_, ?_⟩
  · rw [of_class_append, of_class_append, streamed.order]
    by_cases same : urgent = cls
    · subst same
      have none := of_class_other (!urgent)
        (wholes (used (!urgent)) (contents (sender.socket.list (!urgent))))
      rw [Bool.not_not] at none
      rw [of_class_own, none, append_nil]
    · obtain rfl : urgent = !cls := Bool.eq_not_of_ne same
      rw [of_class_own, of_class_other, append_nil]
  · rw [bytes_append, bytes_append, bytes_tagged]
    have both : used false ++ used true = used cls := by
      cases cls <;> simp_all
    rw [wire, both, append_assoc, prefix_append_right_inj]
    exact (used_front queued cls).trans (prefix_append _ _)

end Steps

/-! ## Urgent buffers -/

/-- Since the wire was `base` the bytes of `urgents` have been written, or they are
the next ones. -/
def Ahead (base urgents : List Data) (s : StreamSocket Data) : Prop :=
  ∃ since, s.wire = base ++ since ∧
    (urgents <+: since ∨ ¬halfSent s ∧ urgents <+: since ++ (contents s.urgentList).flatten)

section Urgent

variable {used : Bool → List Data} {s after : StreamSocket Data} {base urgents : List Data}

theorem Ahead.congr (ahead : Ahead base urgents s) (normal : after.sendList = s.sendList)
    (urgent : after.urgentList = s.urgentList) (wire : after.wire = s.wire) :
    Ahead base urgents after := by
  rw [Ahead, halfSent, normal, urgent, wire]
  exact ahead

theorem moved_ahead {n : Nat} (moved : Moved (chosen s) used s after n)
    (ahead : Ahead base urgents s) : Ahead base urgents after := by
  obtain ⟨since, wire, state⟩ := ahead
  refine ⟨since ++ (contents (s.list (chosen s))).flatten.take n, ?_, ?_⟩
  · rw [moved.wire, wire, append_assoc]
  · rcases state with written | ⟨whole, next⟩
    · exact .inl (written.trans (prefix_append _ _))
    by_cases none : s.urgentList = []
    · rw [none, contents, map_nil, flatten_nil, append_nil] at next
      exact .inl (next.trans (prefix_append _ _))
    have own : chosen s = true := decide_eq_true ⟨none, whole⟩
    have left := (spend_taken n (used true) (contents (s.list true)) (own ▸ moved.enough)).2
    have urgent := moved.own
    have normal : after.list false = s.list false := by
      have other := moved.other
      rwa [own] at other
    rw [own] at urgent ⊢
    refine .inr ⟨?_, ?_⟩
    · rw [halfSent, show after.sendList = s.sendList from normal]
      exact whole
    · rw [show after.urgentList = after.list true from rfl, urgent, left, append_assoc,
        take_append_drop]
      exact next

theorem queue_whole (whole : ¬halfSent s) (urgent : Bool) (b : SendBuffer Data) :
    ¬halfSent (queue s urgent b) := by
  cases urgent with
  | true => exact whole
  | false =>
    rw [halfSent] at whole ⊢
    change ¬∃ c ∈ (s.sendList ++ [{ b with internal := b.datasize }]).head?,
      c.internal ≠ c.datasize
    cases list : s.sendList with
    | nil => simp
    | cons first rest =>
      rw [list] at whole
      exact whole

theorem queue_ahead (ahead : Ahead base urgents s) (urgent : Bool) (b : SendBuffer Data) :
    Ahead base urgents (queue s urgent b) := by
  obtain ⟨since, wire, state⟩ := ahead
  refine ⟨since, ?_, state.imp id fun next => ⟨queue_whole next.1 urgent b, ?_⟩⟩
  · cases urgent <;> exact wire
  · refine next.2.trans ?_
    rw [prefix_append_right_inj]
    cases urgent with
    | false => exact prefix_rfl
    | true =>
      change _ <+: (contents (s.urgentList ++ [{ b with internal := b.datasize }])).flatten
      rw [contents_push, flatten_append]
      exact prefix_append _ _

theorem sent_ahead {error : SendError} (flowing : Flowing used s) (sound : Accepts s b → Sound b)
    (sent : Sent s urgent b outcome error after) (ahead : ¬Accepts s b → Ahead base urgents s)
    (queued : Accepts s b → Ahead base urgents (queue s urgent b)) : Ahead base urgents after := by
  cases sent with
  | refused refuses error which => exact ahead refuses
  | attempted accepts now middle written =>
    have flows := queue_flowing flowing urgent (sound accepts)
    obtain ⟨n, moved⟩ := written_moved flows written
    rw [after_write_eq]
    exact (moved_ahead moved (queued accepts)).congr rfl rfl rfl
  | waiting accepts later =>
    split_ifs
    · exact queued accepts
    · rw [enable_write_eq]
      exact (queued accepts).congr rfl rfl rfl

theorem performs_ahead (acts : List (Act Data)) (sound : ∀ act ∈ acts, act.Sound)
    {sender last : Sender Data} {done : List (Bool × List Data)}
    (streamed : Streamed done used sender) (ahead : Ahead base urgents sender.socket)
    (ran : performs sender acts = some last) : Ahead base urgents last.socket := by
  induction acts generalizing sender done used with
  | nil =>
    obtain rfl := Option.some.inj ran
    exact ahead
  | cons act acts ih =>
    have here := sound act mem_cons_self
    obtain ⟨next, stepped, _, _, onward⟩ := perform_streamed streamed here
    rw [performs, stepped] at ran
    refine ih (forall_mem_cons.mp sound).2 onward ?_ ran
    cases act with
    | send urgent b outcome =>
      obtain ⟨error, after, sending, sent⟩ := send_cases streamed.flowing streamed.alive
        (fun accepts => Act.sound_buffer here accepts) urgent outcome
      rw [perform, sending] at stepped
      obtain rfl := Option.some.inj stepped
      exact sent_ahead streamed.flowing (fun accepts => Act.sound_buffer here accepts) sent
        (fun _ => ahead) fun _ => queue_ahead ahead urgent b
    | write outcome =>
      obtain ⟨after, writing, written⟩ := process_write streamed.flowing streamed.alive outcome
      obtain ⟨n, moved⟩ := written_moved streamed.flowing written
      rw [perform, writing] at stepped
      obtain rfl := Option.some.inj stepped
      exact moved_ahead moved ahead

end Urgent

theorem performs_append (front back : List (Act Data)) (sender : Sender Data) :
    performs sender (front ++ back) = (performs sender front).bind (performs · back) := by
  induction front generalizing sender with
  | nil => rfl
  | cons act front ih =>
    rw [cons_append, performs, performs, Option.bind_assoc]
    congr 1
    funext next
    exact ih next

theorem length_contents {used : List Data} {list : List (SendBuffer Data)}
    (queued : Queued used list) :
    (contents list).flatten.length = (list.map SendBuffer.datasize).sum := by
  rw [length_flatten, contents, map_map]
  congr 1
  apply map_congr_left
  exact fun b member => (queued.sound b member).length_content

/-- In every run of sends and writes the bytes on the wire are the front of the
accepted buffers one after another, in some order that keeps the buffers of each
class in the order they were sent in. `send_bytes` counts what is queued, and a
buffer of `send_list` that was sent in part finds `sending_urgent` clear. An
urgent buffer that is sent while there is no such buffer follows the urgent ones
before it at once: they are the next bytes on the wire, ahead of every buffer of
`send_list`. -/
theorem wire_in_order (start : StreamSocket Data) (acts : List (Act Data))
    (idle : sendListEmpty start) (zero : start.sendBytes = 0) (quiet : start.wire = [])
    (alive : start.released = false) (sound : ∀ act ∈ acts, act.Sound) :
    ∃ last, performs ⟨start, []⟩ acts = some last ∧
      (∃ order, (∀ urgent, ofClass urgent order = ofClass urgent last.accepted) ∧
        last.socket.wire <+: bytes order) ∧
      last.socket.sendBytes =
        ((last.socket.sendList ++ last.socket.urgentList).map SendBuffer.datasize).sum % 2 ^ 32 ∧
      (halfSent last.socket → last.socket.sendingUrgent = false) ∧
      ∀ before b outcome after mid, acts = before ++ .send true b outcome :: after →
        performs ⟨start, []⟩ before = some mid → ¬halfSent mid.socket → Accepts mid.socket b →
        ∃ since, last.socket.wire = mid.socket.wire ++ since ∧
          ((contents mid.socket.urgentList).flatten ++ b.content <+: since ∨
            since <+: (contents mid.socket.urgentList).flatten ++ b.content) := by
  have started : Streamed [] (fun _ => []) (⟨start, []⟩ : Sender Data) := by
    refine ⟨.empty idle.1 idle.2 zero, alive, quiet, fun urgent => ?_⟩
    cases urgent with
      | false => rw [StreamSocket.list, idle.1]; rfl
      | true => rw [StreamSocket.list, idle.2]; rfl
  obtain ⟨last, ran, done, used, streamed⟩ := performs_streamed acts sound started
  have flowing := streamed.flowing
  refine ⟨last, ran, streamed_order streamed, ?_, fun half =>
    flowing.flag ((half_sent_iff flowing).mp half), ?_⟩
  · have normal := length_contents (flowing.queued false)
    have urgent := length_contents (flowing.queued true)
    simp only [StreamSocket.list] at normal urgent
    rw [flowing.counted, normal, urgent, map_append, sum_append]
  · rintro before b outcome after mid rfl reached whole accepts
    rw [performs_append, reached, Option.bind_some, performs] at ran
    obtain ⟨middle, came, _, _, here⟩ := performs_streamed before
      (forall_mem_append.mp sound).1 started
    obtain rfl := Option.some.inj (came.symm.trans reached)
    have fine := sound _ (mem_append_right _ mem_cons_self)
    obtain ⟨error, sentTo, sending, sent⟩ := send_cases here.flowing here.alive
      (fun accepts => Act.sound_buffer fine accepts) true outcome
    obtain ⟨next, stepped, _, _, onward⟩ := perform_streamed here fine
    rw [stepped, Option.bind_some] at ran
    rw [perform, sending] at stepped
    obtain rfl := Option.some.inj stepped
    -- Right after it was queued, the urgent buffer ends the bytes that come next.
    have queued : Ahead middle.socket.wire
        ((contents middle.socket.urgentList).flatten ++ b.content)
        (queue middle.socket true b) := by
      refine ⟨[], (append_nil _).symm, .inr ⟨queue_whole whole true b, ?_⟩⟩
      change _ <+:
        (contents (middle.socket.urgentList ++ [{ b with internal := b.datasize }])).flatten
      rw [contents_push, flatten_append, flatten_cons, flatten_nil, append_nil]
    have ahead := sent_ahead here.flowing (fun accepts => Act.sound_buffer fine accepts) sent
      (fun refuses => absurd accepts refuses) fun _ => queued
    obtain ⟨since, wire, state⟩ := performs_ahead after
      (fun act member => sound act
        (mem_append_right _ (mem_cons_of_mem _ member))) onward ahead ran
    refine ⟨since, wire, ?_⟩
    rcases state with written | ⟨-, next⟩
    · exact .inl written
    · exact prefix_or_prefix_of_prefix next (prefix_append _ _)

/-- A buffer of five bytes is cut by the kernel behind two, and an urgent one of two
bytes is sent before the rest of it is written. -/
theorem wire_in_order_cut :
    ∃ last, performs
        ⟨{ newSocket true false false with loop := true }, ([] : List (Bool × List Nat))⟩
        [.send false ⟨0, 5, 1, [[0, 1, 2], [3, 4, 5]], false⟩ (.wrote 2),
          .send true ⟨0, 2, 0, [[6, 7]], false⟩ .again, .write (.wrote 9), .write (.wrote 9)] =
        some last ∧
      last.socket.wire = [1, 2, 3, 4, 5, 6, 7] ∧
      ∃ order, (∀ urgent, ofClass urgent order = ofClass urgent last.accepted) ∧
        last.socket.wire <+: bytes order := by
  have first : Sound (⟨0, 5, 1, [[0, 1, 2], [3, 4, 5]], false⟩ : SendBuffer Nat) :=
    ⟨by decide, by decide, by simp, by simp⟩
  have second : Sound (⟨0, 2, 0, [[6, 7]], false⟩ : SendBuffer Nat) :=
    ⟨by decide, by decide, by simp, by simp⟩
  obtain ⟨last, ran, order, -⟩ := wire_in_order
    { newSocket true false false with loop := true }
    [.send false ⟨0, 5, 1, [[0, 1, 2], [3, 4, 5]], false⟩ (.wrote 2),
      .send true ⟨0, 2, 0, [[6, 7]], false⟩ .again, .write (.wrote 9), .write (.wrote 9)]
    ⟨rfl, rfl⟩ rfl rfl rfl (by simp [Act.Sound, first, second])
  refine ⟨last, ran, ?_, order⟩
  have wire : (performs
      ⟨{ newSocket true false false with loop := true }, ([] : List (Bool × List Nat))⟩
      [.send false ⟨0, 5, 1, [[0, 1, 2], [3, 4, 5]], false⟩ (.wrote 2),
        .send true ⟨0, 2, 0, [[6, 7]], false⟩ .again, .write (.wrote 9), .write (.wrote 9)]).map
      (·.socket.wire) = some [1, 2, 3, 4, 5, 6, 7] := by decide +kernel
  rw [ran] at wire
  exact Option.some.inj wire

end Chuck.StreamSendOrder
