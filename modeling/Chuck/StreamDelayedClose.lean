import Chuck.Support.FaultFreeRuns
import Chuck.StreamSocketLife

/-!
# A close with a delay

`chk_stream_socket_close` with a delay leaves the socket to its timer as long as data is
queued, but only if `SOCKET_WCLOSE` is clear. That bit is also set by
`chk_stream_socket_shutdown_write` while data waits to be sent, and by a read that
fails; then the socket is freed with its data.
-/

namespace Chuck.StreamDelayedClose

open Support.FaultFreeRuns Support.PartialQueue StreamSocketModel StreamSendList StreamSendSteps
open StreamSocketLife List Option

variable {Data : Type}

variable {outcome : WriteOutcome}

/-! ## The machine, with a record of what happened -/

def fails (s : StreamSocket Data) (outcome : WriteOutcome) : Bool :=
  !(prepareSend s).2.isEmpty && (takenBy s outcome).isEmpty &&
    (doWrite s.ssl (prepareSend s).2 outcome).2 != eagain

def accepts (life : Life Data) : Input Data → List Data
  | .call (.send _ b _) => if life.callable = true ∧ Accepts life.socket b then b.content else []
  | _ => []

def delays (life : Life Data) : Input Data → Bool
  | .call (.close delay) =>
    life.callable && !life.socket.closed && life.socket.loop && decide (delay > 0)
  | _ => false

def fires (life : Life Data) : Input Data → Bool
  | .timer =>
    match life.phase with
    | .outside => life.socket.delayCloseTimer
    | _ => false
  | _ => false

def failsWrite (life : Life Data) : Input Data → Bool
  | .write outcome =>
    match life.phase with
    | .writing => fails life.socket outcome
    | _ => false
  | .call (.send urgent b outcome) =>
    life.callable && decide (Accepts life.socket b) && writesNow life.socket b &&
      fails (queue life.socket urgent b) outcome
  | _ => false

structure Closing (Data : Type) where
  life : Life Data
  accepted : List Data
  delayed : Bool
  timerFired : Bool
  writeFailed : Bool

def newClosing (noDelay ssl handshake : Bool) : Closing Data :=
  ⟨newLife noDelay ssl handshake, [], false, false, false⟩

def record (c : Closing Data) (input : Input Data) (next : Life Data) : Closing Data :=
  { life := next
    accepted := c.accepted ++ accepts c.life input
    delayed := c.delayed || delays c.life input
    timerFired := c.timerFired || fires c.life input
    writeFailed := c.writeFailed || failsWrite c.life input }

def advances (c : Closing Data) (input : Input Data) : Option (Closing Data) :=
  (step c.life input).map (record c input)

def Settled (c : Closing Data) : Prop :=
  c.writeFailed = true ∨ sendListEmpty c.life.socket

/-- Buffers are well formed. Unless nothing is left to send, or a write has failed, the
program does not close a socket with a delay when `SOCKET_WCLOSE` is set, and does not shut
it down after such a close, and no read of it fails then. -/
def Careful (c : Closing Data) (input : Input Data) : Prop :=
  input.Sound ∧
    match input with
    | .call (.close delay) => delays c.life (.call (.close delay)) = true →
        c.life.socket.wclose = true → Settled c
    | .call .shutdownWrite => c.delayed = true → Settled c
    | .read .failed => c.delayed = true → Settled c
    | _ => True

/-! ## Bytes -/

def unsent (s : StreamSocket Data) : List Data :=
  (contents s.sendList).flatten ++ (contents s.urgentList).flatten

section Bytes

variable {used : Bool → List Data} {s after : StreamSocket Data}

theorem unsent_classes (s : StreamSocket Data) (cls : Bool) :
    (unsent s).Perm ((contents (s.list cls)).flatten ++ (contents (s.list (!cls))).flatten) := by
  cases cls with
  | false => exact .refl _
  | true => exact perm_append_comm

theorem unsent_empty (empty : sendListEmpty s) : unsent s = [] := by
  rw [unsent, empty.1, empty.2]
  rfl

theorem moved_bytes {cls : Bool} {n : Nat} (moved : Moved cls used s after n) :
    (after.wire ++ unsent after).Perm (s.wire ++ unsent s) := by
  have left := (spend_taken n (used cls) _ moved.enough).2
  calc (after.wire ++ unsent after).Perm _ := (unsent_classes after cls).append_left _
    _ = s.wire ++ ((contents (s.list cls)).flatten ++ (contents (s.list (!cls))).flatten) := by
        rw [moved.wire, moved.own, moved.other, left, append_assoc, ← append_assoc (List.take _ _),
          take_append_drop]
    List.Perm _ (s.wire ++ unsent s) := (unsent_classes s cls).symm.append_left _

theorem queue_bytes (s : StreamSocket Data) (urgent : Bool) (b : SendBuffer Data) :
    ((queue s urgent b).wire ++ unsent (queue s urgent b)).Perm
      (s.wire ++ unsent s ++ b.content) := by
  have wire : (queue s urgent b).wire = s.wire := by cases urgent <;> rfl
  obtain ⟨own, other⟩ := list_queue s urgent b
  rw [wire, append_assoc]
  apply List.Perm.append_left
  calc (unsent (queue s urgent b)).Perm _ := unsent_classes _ (!urgent)
    _ = (contents (s.list (!urgent))).flatten ++ (contents (s.list (!!urgent))).flatten ++
        b.content := by
        rw [Bool.not_not, own, other, contents_push, flatten_append, append_assoc]
        simp
    List.Perm _ (unsent s ++ b.content) := (unsent_classes s (!urgent)).symm.append_right _

theorem sent_bytes {urgent : Bool} {b : SendBuffer Data}
    {error : SendError} (flowing : Flowing used s) (sound : Accepts s b → Sound b)
    (sent : Sent s urgent b outcome error after) :
    (after.wire ++ unsent after).Perm
      (s.wire ++ unsent s ++ if Accepts s b then b.content else []) := by
  cases sent with
  | refused refuses error which =>
    rw [if_neg refuses, append_nil]
  | attempted accepts now middle written =>
    obtain ⟨n, moved⟩ := written_moved (queue_flowing flowing urgent (sound accepts)) written
    rw [if_pos accepts, after_write_eq]
    exact (moved_bytes moved).trans (queue_bytes s urgent b)
  | waiting accepts later =>
    rw [if_pos accepts]
    split_ifs
    · exact queue_bytes s urgent b
    · rw [enable_write_eq]
      exact queue_bytes s urgent b

theorem written_shut (flowing : Flowing used s)
    (written : Written s outcome after) (shut : after.wclose = true) :
    s.wclose = true ∨ fails s outcome = true ∨ sendListEmpty after := by
  cases written with
  | idle empty => exact .inl shut
  | took waiting taken rest nonempty few front popped kernel =>
    have before : (updated s taken rest).wclose = s.wclose := by
      unfold updated
      cases chosen s <;> rfl
    by_cases emptied : sendListEmpty (updated s taken rest)
    · right
      right
      rw [wrote_some_eq]
      exact emptied
    · rw [wroteSome, if_neg emptied, before] at shut
      exact .inl shut
  | again waiting blocked => exact .inl shut
  | failed waiting errno hard error =>
    obtain ⟨iovecs, prepared, -, some⟩ := prepare_send flowing
    right
    left
    rw [fails, takenBy, prepared]
    rcases error with rfl | ⟨rfl, rfl⟩
    · simp [doWrite, (some waiting).1, hard]
    · simp [doWrite, (some waiting).1, eagain]

theorem written_empty (written : Written s outcome after)
    (empty : sendListEmpty s) : sendListEmpty after := by
  cases written with
  | idle => exact empty
  | took waiting => exact absurd empty waiting
  | again waiting => exact absurd empty waiting
  | failed waiting => exact absurd empty waiting

end Bytes

/-! ## What holds throughout -/

/-- While the socket is there, the bytes accepted are on the wire or in the lists; once it has
been closed with a delay, `SOCKET_WCLOSE` is set only when that is harmless. -/
structure Kept (c : Closing Data) : Prop where
  steady : Steady c.life
  account : c.life.socket.released = false →
    c.accepted.Perm (c.life.socket.wire ++ unsent c.life.socket)
  waits : c.life.socket.released = false → c.delayed = true →
    c.life.socket.closed = true ∧ (c.life.socket.wclose = true → Settled c)
  ends : c.life.socket.released = true → c.delayed = true →
    c.timerFired = true ∨ c.writeFailed = true ∨ c.accepted.Perm c.life.socket.wire

theorem new_kept (noDelay ssl handshake : Bool) :
    Kept (newClosing noDelay ssl handshake : Closing Data) :=
  ⟨new_steady noDelay ssl handshake, fun _ => .refl _, nofun, nofun⟩

section Keeping

variable {c : Closing Data} {next : Life Data} {s after : StreamSocket Data}

theorem Kept.aside (kept : Kept c) (steady : Steady next)
    (same : next.socket =
      { c.life.socket with
        handshake := next.socket.handshake, rclose := next.socket.rclose
        wclose := next.socket.wclose, loop := next.socket.loop
        inloop := next.socket.inloop, readEnabled := next.socket.readEnabled
        writeEnabled := next.socket.writeEnabled })
    (shut : next.socket.wclose = c.life.socket.wclose ∨ (c.delayed = true → Settled c)) :
    Kept { c with life := next } := by
  have normal : next.socket.sendList = c.life.socket.sendList := by rw [same]
  have urgent : next.socket.urgentList = c.life.socket.urgentList := by rw [same]
  have wire : next.socket.wire = c.life.socket.wire := by rw [same]
  have closed : next.socket.closed = c.life.socket.closed := by rw [same]
  have released : next.socket.released = c.life.socket.released := by rw [same]
  have settled : Settled c → Settled { c with life := next } := by
    rw [Settled, Settled, sendListEmpty, sendListEmpty, normal, urgent]
    exact id
  refine ⟨steady, fun alive => ?_, fun alive delayed => ?_, fun gone delayed => ?_⟩
  · rw [unsent, normal, urgent, wire]
    exact kept.account (released.symm.trans alive)
  · obtain ⟨shutting, harmless⟩ := kept.waits (released.symm.trans alive) delayed
    refine ⟨closed.trans shutting, fun set => settled ?_⟩
    rcases shut with unset | early
    · exact harmless (unset.symm.trans set)
    · exact early delayed
  · rw [wire]
    exact kept.ends (released.symm.trans gone) delayed

theorem Kept.over {accepted : List Data} {delayed timerFired writeFailed : Bool}
    (outside : s.inloop = false) (account : accepted.Perm (s.wire ++ unsent s))
    (excused : delayed = true → timerFired = true ∨ writeFailed = true ∨ sendListEmpty s) :
    Kept ⟨⟨freed s, .outside⟩, accepted, delayed, timerFired, writeFailed⟩ := by
  have wire : (freed s).wire = s.wire := by
    unfold freed
    rw [unwatch_handle_eq]
  refine ⟨freed_steady s outside, nofun, nofun, fun _ late => ?_⟩
  rcases excused late with fired | failed | empty
  · exact .inl fired
  · exact .inr (.inl failed)
  · rw [unsent_empty empty, append_nil] at account
    rw [wire]
    exact .inr (.inr account)

theorem record_aside {input : Input Data} (nothing : accepts c.life input = [])
    (never : delays c.life input = false) (quiet : fires c.life input = false)
    (fine : failsWrite c.life input = false) (next : Life Data) :
    record c input next = { c with life := next } := by
  rw [record, nothing, never, quiet, fine, append_nil, Bool.or_false, Bool.or_false,
    Bool.or_false]

theorem ignored_record {input : Input Data} (ignored : Ignores c.life input) :
    record c input c.life = c := by
  cases input with
  | call call =>
    have callable : c.life.callable = false := ignored
    cases call with
    | send urgent b outcome =>
      exact record_aside (by simp [accepts, callable]) rfl rfl (by simp [failsWrite, callable]) _
    | close delay => exact record_aside rfl (by simp [delays, callable]) rfl rfl _
    | _ => exact record_aside rfl rfl rfl rfl _
  | timer =>
    refine record_aside rfl rfl ?_ rfl _
    cases phase : c.life.phase with
    | outside => simp [fires, phase, ignored phase]
    | _ => simp [fires, phase]
  | write outcome =>
    refine record_aside rfl rfl rfl ?_ _
    cases phase : c.life.phase with
    | writing => exact absurd phase ignored
    | _ => simp [failsWrite, phase]
  | _ => exact record_aside rfl rfl rfl rfl _

theorem close_settled (kept : Kept c) (alive : c.life.socket.released = false) {delay : Nat}
    (careful : Careful c (.call (.close delay))) (opened : c.life.socket.closed = false)
    (hurried : Hurried c.life.socket delay)
    (now : (c.delayed || delays c.life (.call (.close delay))) = true) : Settled c := by
  have earlier : c.delayed = false := by
    rw [← Bool.not_eq_true]
    intro delayed
    nomatch opened.symm.trans (kept.waits alive delayed).1
  rw [earlier, Bool.false_or] at now
  have asked : c.life.socket.loop = true ∧ 0 < delay := by
    simp only [delays, Bool.and_eq_true, decide_eq_true_eq] at now
    exact ⟨now.1.2, now.2⟩
  exact (hurried asked.1 asked.2).elim (careful.2 now) .inr

/-- A close that does not wait is recorded, and nothing is left to send by then. -/
theorem hurried_keeps (kept : Kept c) (alive : c.life.socket.released = false) {delay : Nat}
    (careful : Careful c (.call (.close delay))) (opened : c.life.socket.closed = false)
    (hurried : Hurried c.life.socket delay) (steady : Steady ⟨after, c.life.phase⟩)
    (called : (after = { c.life.socket with closed := true, rclose := true, wclose := true }) ∨
      c.life.socket.inloop = false ∧
        after = freed { c.life.socket with closed := true, rclose := true, wclose := true }) :
    Kept (record c (.call (.close delay)) ⟨after, c.life.phase⟩) := by
  have account := kept.account alive
  have settled := close_settled kept alive careful opened hurried
  have same : record c (.call (.close delay)) ⟨after, c.life.phase⟩ =
      ⟨⟨after, c.life.phase⟩, c.accepted, c.delayed || delays c.life (.call (.close delay)),
        c.timerFired, c.writeFailed⟩ := by
    simp only [record, accepts, fires, failsWrite, append_nil, Bool.or_false]
  rw [same]
  rcases called with rfl | ⟨outside, rfl⟩
  · exact ⟨steady, fun _ => account, fun _ now => ⟨rfl, fun _ => settled now⟩,
      fun gone => nomatch alive.symm.trans gone⟩
  · have phase : c.life.phase = .outside := by
      by_contra inside
      exact Bool.false_ne_true (outside.symm.trans (kept.steady.stack.mpr inside))
    rw [phase]
    exact Kept.over outside account fun now => .inr (settled now)

theorem delay_keeps (kept : Kept c) (alive : c.life.socket.released = false) {delay : Nat}
    (unset : c.life.socket.wclose = false)
    (steady : Steady ⟨delayClose c.life.socket, c.life.phase⟩) :
    Kept (record c (.call (.close delay)) ⟨delayClose c.life.socket, c.life.phase⟩) := by
  refine ⟨steady, fun _ => ?_, fun _ _ => ?_, fun gone => ?_⟩
  · simp only [record, delayClose, accepts, append_nil]
    rw [disable_read_eq]
    exact kept.account alive
  · simp only [record, delayClose]
    rw [disable_read_eq]
    exact ⟨rfl, fun set => absurd (unset.symm.trans set) Bool.false_ne_true⟩
  · simp only [record, delayClose] at gone
    rw [disable_read_eq] at gone
    nomatch alive.symm.trans gone

theorem send_keeps (kept : Kept c) (callable : c.life.callable = true)
    (alive : c.life.socket.released = false) {urgent : Bool} {b : SendBuffer Data}
    {error : SendError} (sound : Accepts c.life.socket b → Sound b)
    (steady : Steady ⟨after, c.life.phase⟩)
    (sent : Sent c.life.socket urgent b outcome error after) :
    Kept (record c (.call (.send urgent b outcome)) ⟨after, c.life.phase⟩) := by
  have alike := sent_alike sent
  obtain ⟨used, flowing⟩ := kept.steady.flowing alive
  refine ⟨steady, fun _ => ?_, fun _ delayed => ?_, fun gone => ?_⟩
  · have moved := sent_bytes flowing sound sent
    simp only [record, accepts, callable, true_and]
    exact ((kept.account alive).append_right _).trans moved.symm
  · -- a socket closed with a delay takes no more data
    simp only [record, delays, Bool.or_false] at delayed
    obtain ⟨closed, harmless⟩ := kept.waits alive delayed
    have refuses : ¬Accepts c.life.socket b := fun accepts =>
      absurd (accepts.2.2.1.symm.trans closed) Bool.false_ne_true
    cases sent with
    | refused refuses error which =>
      rw [record_aside (by simp [accepts, refuses]) rfl rfl (by simp [failsWrite, refuses])]
      exact ⟨closed, harmless⟩
    | attempted accepts => exact absurd accepts refuses
    | waiting accepts => exact absurd accepts refuses
  · nomatch (alike.released.trans alive).symm.trans gone

theorem write_keeps (kept : Kept c) (alive : c.life.socket.released = false)
    (writing : c.life.phase = .writing)
    (steady : Steady ⟨after, .leaving⟩) (written : Written c.life.socket outcome after) :
    Kept (record c (.write outcome) ⟨after, .leaving⟩) := by
  have alike := written_alike written
  obtain ⟨used, flowing⟩ := kept.steady.flowing alive
  refine ⟨steady, fun _ => ?_, fun _ delayed => ?_, fun gone => ?_⟩
  · obtain ⟨n, moved⟩ := written_moved flowing written
    simp only [record, accepts, append_nil]
    exact (kept.account alive).trans (moved_bytes moved).symm
  · simp only [record, delays, Bool.or_false] at delayed
    obtain ⟨closed, harmless⟩ := kept.waits alive delayed
    refine ⟨alike.closed.trans closed, fun shut => ?_⟩
    simp only [Settled, record, failsWrite, writing]
    rcases written_shut flowing written shut with set | failed | empty
    · rcases harmless set with failed | empty
      · exact .inl (by rw [failed, Bool.true_or])
      · exact .inr (written_empty written empty)
    · exact .inl (by rw [failed, Bool.or_true])
    · exact .inr empty
  · nomatch (alike.released.trans alive).symm.trans gone

theorem call_keeps (kept : Kept c) {call : Call Data} (careful : Careful c (.call call))
    (callable : c.life.callable = true) (alive : c.life.socket.released = false)
    (steady : Steady ⟨after, c.life.phase⟩) (called : Called c.life.socket call after) :
    Kept (record c (.call call) ⟨after, c.life.phase⟩) := by
  cases called with
  | sent urgent b outcome error after sound sent =>
    exact send_keeps kept callable alive sound steady sent
  | again delay closed =>
    rw [record_aside rfl (by simp [delays, closed]) rfl rfl]
    exact kept
  | delayed delay unset waiting => exact delay_keeps kept alive unset steady
  | deferred delay opened hurried inside =>
    exact hurried_keeps kept alive careful opened hurried steady (.inl rfl)
  | released delay opened hurried outside =>
    exact hurried_keeps kept alive careful opened hurried steady (.inr ⟨outside, rfl⟩)
  | added =>
    rw [record_aside rfl rfl rfl rfl]
    refine kept.aside steady ?_ (.inl ?_) <;> rw [loop_add_eq]
  | shut =>
    rw [record_aside rfl rfl rfl rfl]
    exact kept.aside steady rfl (.inr careful.2)
  | paused =>
    rw [record_aside rfl rfl rfl rfl]
    refine kept.aside steady ?_ (.inl ?_) <;> rw [pause_read_eq]
  | resumed =>
    rw [record_aside rfl rfl rfl rfl]
    refine kept.aside steady ?_ (.inl ?_) <;> rw [resume_read_eq]

theorem read_wclose (s : StreamSocket Data) (write : Bool) {result : ReadResult}
    (fine : result ≠ .failed) : (readStep s write result).1.wclose = s.wclose := by
  cases result with
  | eof =>
    rw [readStep]
    split_ifs <;> rw [disable_read_eq]
  | failed => exact absurd rfl fine
  | _ => rfl

theorem return_wclose (s : StreamSocket Data) (write : Bool) (next : Next) :
    (returnStep s write next).1.wclose = s.wclose := by
  cases next with
  | removeHandle => rw [returnStep, unwatch_handle_eq]
  | disableRead => rw [returnStep, disable_read_eq]
  | _ => rfl

theorem handled_keeps (kept : Kept c) {phase : Phase} (steady : Steady ⟨after, phase⟩)
    (handled : Handled c.life.socket after)
    (shut : after.wclose = c.life.socket.wclose ∨ (c.delayed = true → Settled c)) :
    Kept { c with life := ⟨after, phase⟩ } := by
  refine kept.aside steady ?_ shut
  have same := handled_eq handled
  rw [same]

theorem fired_keeps (kept : Kept c) (outside : c.life.phase = .outside)
    (live : c.life.socket.delayCloseTimer = true) :
    Kept (record c .timer
      ⟨freed { c.life.socket with delayCloseTimer := false }, c.life.phase⟩) := by
  have left : c.life.socket.inloop = false := by
    rw [← Bool.not_eq_true]
    exact fun inloop => kept.steady.stack.mp inloop outside
  rw [outside, record]
  refine Kept.over left ?_ fun _ => .inl ?_
  · simp only [accepts, append_nil]
    exact kept.account (kept.steady.timer live)
  · simp [fires, outside, live]

theorem ended_keeps (kept : Kept c) (leaving : c.life.phase = .leaving)
    (shut : c.life.socket.wclose = true) :
    Kept { c with
      life := ⟨freed { c.life.socket with inloop := !c.life.socket.inloop }, .outside⟩ } := by
  have within : c.life.phase ≠ .outside := by
    rw [leaving]
    exact Phase.noConfusion
  have alive := kept.steady.inside within
  have left : (!c.life.socket.inloop) = false := by
    rw [kept.steady.stack.mpr within]
    rfl
  exact Kept.over left (kept.account alive) fun delayed => .inr ((kept.waits alive delayed).2 shut)

theorem step_keeps {input : Input Data} (kept : Kept c) (careful : Careful c input)
    (ran : step c.life input = some next) : Kept (record c input next) := by
  obtain ⟨found, steps, stepped⟩ := step_cases kept.steady careful.1
  obtain rfl := Option.some.inj (steps.symm.trans ran)
  have steady := stepped_steady kept.steady stepped
  cases stepped with
  | idle input ignored =>
    rw [ignored_record ignored]
    exact kept
  | called call after callable alive called =>
    exact call_keeps kept careful callable alive steady called
  | fired outside live => exact fired_keeps kept outside live
  | wrote outcome after writing written =>
    exact write_keeps kept (kept.steady.alive_inside writing Phase.noConfusion) writing steady
      written
  | entered =>
    rw [record_aside rfl rfl rfl rfl]
    exact kept.aside steady rfl (.inl rfl)
  | read write result reading =>
    rw [record_aside rfl rfl rfl rfl]
    apply handled_keeps kept steady (read_step c.life.socket write result).1
    by_cases failed : result = .failed
    · subst failed
      exact .inr careful.2
    · exact .inl (read_wclose _ _ failed)
  | unpacked write result unpacking =>
    rw [record_aside rfl rfl rfl rfl]
    exact kept.aside steady rfl (.inl rfl)
  | returned next write callback =>
    rw [record_aside rfl rfl rfl rfl]
    exact handled_keeps kept steady (return_step c.life.socket write next).1
      (.inl (return_wclose _ _ _))
  | left leaving stays =>
    rw [record_aside rfl rfl rfl rfl]
    exact kept.aside steady rfl (.inl rfl)
  | ended leaving shut =>
    rw [record_aside rfl rfl rfl rfl]
    exact ended_keeps kept leaving shut.2.1

end Keeping

/-- In a run that keeps the condition, a socket closed with a delay is freed when everything
accepted is on the wire, or its timer has fired, or a write has failed. -/
theorem delayed_close_delivers {Data : Type} (noDelay ssl handshake : Bool) {c : Closing Data}
    (reached : Reaches advances Careful (newClosing noDelay ssl handshake) c)
    (delayed : c.delayed = true) (gone : c.life.socket.released = true) :
    c.timerFired = true ∨ c.writeFailed = true ∨ c.accepted.Perm c.life.socket.wire := by
  have kept : Kept c := by
    refine reached.keeps Kept (new_kept noDelay ssl handshake) ?_
    intro before input after good allowed stepped
    obtain ⟨next, ran, rfl⟩ := map_eq_some_iff.mp stepped
    exact step_keeps good allowed ran
  exact kept.ends gone delayed

/-! ## Two sessions -/

instance (b : SendBuffer Data) : Decidable (Sound b) :=
  decidable_of_iff
    ((0 < b.datasize ∧ b.spos + b.datasize ≤ b.chunks.flatten.length) ∧
      (∀ chunk ∈ b.chunks.head?, b.spos < chunk.length) ∧ ∀ chunk ∈ b.chunks, ¬chunk.isEmpty)
    ⟨fun ⟨⟨least, inside⟩, first, full⟩ =>
        ⟨least, inside, first, fun chunk among => by simpa using full chunk among⟩,
      fun sound => ⟨⟨sound.some, sound.inside⟩, sound.first, fun chunk among => by
        simpa using sound.full chunk among⟩⟩

instance (c : Closing Data) : Decidable (Settled c) := inferInstanceAs (Decidable (_ ∨ _))

instance (input : Input Data) : Decidable input.Sound :=
  match input with
  | .call (.send _ b _) =>
    inferInstanceAs (Decidable (b.readOnly = false → b.datasize ≠ 0 → Sound b))
  | .call .addHandle | .call .shutdownWrite | .call (.close _) | .call .pauseRead
  | .call .resumeRead | .timer | .events _ _ | .read _ | .unpacked _ | .returned | .write _
  | .leave => isTrue trivial

instance (c : Closing Data) (input : Input Data) : Decidable (Careful c input) := by
  unfold Careful
  split <;> infer_instance

def threeBytes : List (Input Nat) :=
  [.call .addHandle, .call (.send false ⟨0, 3, 0, [[1, 2, 3]], false⟩ .again)]

/-- The socket is closed with a delay, and the loop writes the bytes. -/
theorem delayed_close_delivers_three : ∃ c : Closing Nat,
    Reaches advances Careful (newClosing false false false) c ∧ c.delayed = true ∧
      c.life.socket.released = true ∧ c.accepted.Perm c.life.socket.wire := by
  have ran : ((run advances (newClosing false false false)
      (threeBytes ++ [.call (.close 5), .events false true, .write (.wrote 3), .leave])).map
        fun c => (c.delayed, c.life.socket.released, c.timerFired, c.writeFailed)) =
      some (true, true, false, false) := by decide +kernel
  obtain ⟨c, ran, fields⟩ := map_eq_some_iff.mp ran
  simp only [Prod.mk.injEq] at fields
  obtain ⟨delayed, gone, quiet, fine⟩ := fields
  have reached := Reaches.run _ (.start : Reaches advances Careful _ _) (by decide +kernel) ran
  refine ⟨c, reached, delayed, gone, ?_⟩
  have ends := delayed_close_delivers false false false reached delayed gone
  simpa [quiet, fine] using ends

/-- The write side is shut down while the bytes wait: a close with a delay of a second frees
the socket at once. -/
theorem shutdown_drops_data :
    ((run advances (newClosing false false false)
        (threeBytes ++ [.call .shutdownWrite, .call (.close 1000)])).map fun c =>
      ((c.delayed, c.life.socket.released), (c.timerFired, c.writeFailed), c.accepted,
        c.life.socket.wire)) =
      some ((true, true), (false, false), [1, 2, 3], []) := by
  decide +kernel

end Chuck.StreamDelayedClose
