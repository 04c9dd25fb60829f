import Chuck.StreamSendSteps

/-!
# The life of a stream socket

`on_events` runs in pieces, so that what its callbacks do comes between them, and
every state a callback can see is a state of the machine. A program may use the
socket while no `on_events` of it is running, as long as it has not been freed,
and in the callbacks. The kernel, the decoder and the timer are free, except that
events are reported for watched handles only and only a live timer fires.
-/

namespace Chuck.StreamSocketLife

open StreamSocketModel StreamSendList StreamSendSteps

variable {Data : Type}

/-! ## The machine -/

inductive Next where
  | unpack
  | finish
  | removeHandle
  | disableRead

inductive Phase where
  | outside
  | reading (write : Bool)
  | unpacking (write : Bool)
  | callback (next : Next) (write : Bool)
  | writing
  | leaving

structure Life (Data : Type) where
  socket : StreamSocket Data
  phase : Phase

def newLife (noDelay ssl handshake : Bool) : Life Data :=
  ⟨newSocket noDelay ssl handshake, .outside⟩

inductive Call (Data : Type) where
  | addHandle
  | send (urgent : Bool) (b : SendBuffer Data) (outcome : WriteOutcome)
  | shutdownWrite
  | close (delay : Nat)
  | pauseRead
  | resumeRead

inductive ReadResult where
  | handshake (done : Bool)
  | handshakeFailed
  | noMemory
  | data
  | eof
  | failed

def ReadResult.inHandshake : ReadResult → Bool
  | .handshake _ => true
  | .handshakeFailed => true
  | _ => false

inductive Unpacked where
  | packet
  | error
  | nothing

inductive Input (Data : Type) where
  | call (c : Call Data)
  | timer
  | events (read write : Bool)
  | read (result : ReadResult)
  | unpacked (result : Unpacked)
  | returned
  | write (outcome : WriteOutcome)
  | leave

def invoke (s : StreamSocket Data) : Call Data → Option (StreamSocket Data)
  | .addHandle => (touch s).map loopAdd
  | .send urgent b outcome => (send s urgent b outcome).map Prod.snd
  | .shutdownWrite => shutdownWrite s
  | .close delay => closeSocket s delay
  | .pauseRead => (touch s).map pauseRead
  | .resumeRead => (touch s).map resumeRead

def afterRead (write : Bool) : Phase := if write then .writing else .leaving

def enterPhase (read write : Bool) : Phase := if read then .reading write else afterRead write

def readStep (s : StreamSocket Data) (write : Bool) : ReadResult → StreamSocket Data × Phase
  | .handshake done => ({ s with handshake := !done }, afterRead write)
  | .handshakeFailed => (s, .callback .removeHandle write)
  | .noMemory => (s, .callback .removeHandle write)
  | .data => (s, .unpacking write)
  | .eof =>
    if s.writeError ≠ 0 then (disableRead s, .callback .removeHandle write)
    else ({ disableRead s with rclose := true }, .callback .disableRead write)
  | .failed => ({ s with rclose := true, wclose := true }, .callback .removeHandle write)

def unpackStep (write : Bool) : Unpacked → Phase
  | .packet => .callback .unpack write
  | .error => .callback .finish write
  | .nothing => afterRead write

def returnStep (s : StreamSocket Data) (write : Bool) : Next → StreamSocket Data × Phase
  | .unpack => (s, if s.rclose then afterRead write else .unpacking write)
  | .finish => (s, afterRead write)
  | .removeHandle => (unwatchHandle s, afterRead write)
  | .disableRead => (disableRead s, afterRead write)

def leaveStep (s : StreamSocket Data) : Option (StreamSocket Data) :=
  let s := { s with inloop := !s.inloop }
  if s.closed ∧ s.wclose ∧ s.rclose then releaseSocket s else some s

def Life.callable (life : Life Data) : Bool :=
  match life.phase with
  | .outside => !life.socket.released
  | .callback _ _ => true
  | _ => false

def step (life : Life Data) : Input Data → Option (Life Data)
  | .call c =>
    if life.callable then (invoke life.socket c).map fun s => { life with socket := s }
    else some life
  | .timer =>
    match life.phase with
    | .outside =>
      if life.socket.delayCloseTimer then
        (delayCloseTimerCb life.socket).map fun s => { life with socket := s }
      else some life
    | _ => some life
  | .events read write =>
    match life.phase with
    | .outside =>
      if life.socket.loop then
        (touch life.socket).map fun s =>
          ⟨{ s with inloop := true }, enterPhase read write⟩
      else some life
    | _ => some life
  | .read result =>
    match life.phase with
    | .reading write =>
      if result.inHandshake = life.socket.handshake then
        (touch life.socket).map fun s =>
          ⟨(readStep s write result).1, (readStep s write result).2⟩
      else some life
    | _ => some life
  | .unpacked result =>
    match life.phase with
    | .unpacking write => (touch life.socket).map fun s => ⟨s, unpackStep write result⟩
    | _ => some life
  | .returned =>
    match life.phase with
    | .callback next write =>
      (touch life.socket).map fun s =>
        ⟨(returnStep s write next).1, (returnStep s write next).2⟩
    | _ => some life
  | .write outcome =>
    match life.phase with
    | .writing => (processWrite life.socket outcome).map fun s => ⟨s, .leaving⟩
    | _ => some life
  | .leave =>
    match life.phase with
    | .leaving => do
        let s ← touch life.socket
        (leaveStep s).map fun s => ⟨s, .outside⟩
    | _ => some life

/-! ## What a step can do -/

def delayClose (s : StreamSocket Data) : StreamSocket Data :=
  { disableRead { s with closed := true, rclose := true } with delayCloseTimer := true }

def freed (s : StreamSocket Data) : StreamSocket Data :=
  { unwatchHandle s with
    delayCloseTimer := false, sendList := [], urgentList := [], released := true }

def Call.Sound : Call Data → Prop
  | .send _ b _ => b.readOnly = false → b.datasize ≠ 0 → StreamSendList.Sound b
  | _ => True

def Input.Sound : Input Data → Prop
  | .call c => c.Sound
  | _ => True

/-- A close with this delay does not wait for the data. -/
def Hurried (s : StreamSocket Data) (delay : Nat) : Prop :=
  s.loop = true → 0 < delay → s.wclose = true ∨ sendListEmpty s

inductive Called (s : StreamSocket Data) : Call Data → StreamSocket Data → Prop where
  | added : Called s .addHandle (loopAdd s)
  | sent (urgent : Bool) (b : SendBuffer Data) (outcome : WriteOutcome) (error : SendError)
      (after : StreamSocket Data) (sound : Accepts s b → StreamSendList.Sound b)
      (sent : Sent s urgent b outcome error after) : Called s (.send urgent b outcome) after
  | shut : Called s .shutdownWrite { s with wclose := true }
  | again (delay : Nat) (closed : s.closed = true) : Called s (.close delay) s
  | delayed (delay : Nat) (opened : s.wclose = false) (waiting : ¬sendListEmpty s) :
      Called s (.close delay) (delayClose s)
  | deferred (delay : Nat) (opened : s.closed = false) (hurried : Hurried s delay)
      (inside : s.inloop = true) :
      Called s (.close delay) { s with closed := true, rclose := true, wclose := true }
  | released (delay : Nat) (opened : s.closed = false) (hurried : Hurried s delay)
      (outside : s.inloop = false) :
      Called s (.close delay) (freed { s with closed := true, rclose := true, wclose := true })
  | paused : Called s .pauseRead (pauseRead s)
  | resumed : Called s .resumeRead (resumeRead s)

inductive Handled (s : StreamSocket Data) : StreamSocket Data → Prop where
  | unchanged : Handled s s
  | handshake (going : Bool) : Handled s { s with handshake := going }
  | disabled : Handled s (disableRead s)
  | ended : Handled s { disableRead s with rclose := true }
  | broken : Handled s { s with rclose := true, wclose := true }
  | removed : Handled s (unwatchHandle s)

def Ignores (life : Life Data) : Input Data → Prop
  | .call _ => life.callable = false
  | .timer => life.phase = .outside → life.socket.delayCloseTimer = false
  | .write _ => life.phase ≠ .writing
  | _ => True

inductive Stepped (life : Life Data) : Input Data → Life Data → Prop where
  | idle (input : Input Data) (ignored : Ignores life input) : Stepped life input life
  | called (c : Call Data) (after : StreamSocket Data) (callable : life.callable = true)
      (alive : life.socket.released = false) (called : Called life.socket c after) :
      Stepped life (.call c) { life with socket := after }
  | fired (outside : life.phase = .outside) (live : life.socket.delayCloseTimer = true) :
      Stepped life .timer
        { life with socket := freed { life.socket with delayCloseTimer := false } }
  | entered (read write : Bool) (outside : life.phase = .outside)
      (watched : life.socket.loop = true) :
      Stepped life (.events read write)
        ⟨{ life.socket with inloop := true }, enterPhase read write⟩
  | read (write : Bool) (result : ReadResult) (reading : life.phase = .reading write) :
      Stepped life (.read result)
        ⟨(readStep life.socket write result).1, (readStep life.socket write result).2⟩
  | unpacked (write : Bool) (result : Unpacked) (unpacking : life.phase = .unpacking write) :
      Stepped life (.unpacked result) ⟨life.socket, unpackStep write result⟩
  | returned (next : Next) (write : Bool) (callback : life.phase = .callback next write) :
      Stepped life .returned
        ⟨(returnStep life.socket write next).1, (returnStep life.socket write next).2⟩
  | wrote (outcome : WriteOutcome) (after : StreamSocket Data) (writing : life.phase = .writing)
      (written : Written life.socket outcome after) :
      Stepped life (.write outcome) ⟨after, .leaving⟩
  | left (leaving : life.phase = .leaving)
      (stays : ¬(life.socket.closed ∧ life.socket.wclose ∧ life.socket.rclose)) :
      Stepped life .leave ⟨{ life.socket with inloop := !life.socket.inloop }, .outside⟩
  | ended (leaving : life.phase = .leaving)
      (shut : life.socket.closed ∧ life.socket.wclose ∧ life.socket.rclose) :
      Stepped life .leave ⟨freed { life.socket with inloop := !life.socket.inloop }, .outside⟩

section Steps

variable {used : Bool → List Data} {s : StreamSocket Data} {life : Life Data}

theorem touch_alive (alive : s.released = false) : touch s = some s := by
  rw [touch, alive]
  rfl

theorem release_socket (alive : s.released = false) : releaseSocket s = some (freed s) := by
  rw [releaseSocket, touch_alive alive]
  rfl

theorem close_socket (alive : s.released = false) (delay : Nat) :
    ∃ after, closeSocket s delay = some after ∧ Called s (.close delay) after := by
  rw [closeSocket, touch_alive alive]
  simp only [Option.bind_eq_bind, Option.bind_some]
  by_cases closed : s.closed = true
  · rw [if_pos closed]
    exact ⟨s, rfl, .again delay closed⟩
  rw [if_neg closed]
  rw [Bool.not_eq_true] at closed
  split_ifs with waits inside
  · exact ⟨_, rfl, .delayed delay waits.1 waits.2.2.1⟩
  all_goals
    have hurried : Hurried s delay := by
      intro attached late
      by_contra neither
      rw [not_or, Bool.not_eq_true] at neither
      exact waits ⟨neither.1, late, neither.2, attached⟩
  · exact ⟨_, rfl, .deferred delay closed hurried inside⟩
  · rw [release_socket (by exact alive)]
    exact ⟨_, rfl, .released delay closed hurried (by simpa using inside)⟩

theorem invoke_cases (flowing : Flowing used s) (alive : s.released = false) {c : Call Data}
    (sound : c.Sound) : ∃ after, invoke s c = some after ∧ Called s c after := by
  cases c with
  | addHandle =>
    rw [invoke, touch_alive alive]
    exact ⟨_, rfl, .added⟩
  | send urgent b outcome =>
    have fine : Accepts s b → Sound b := fun accepts => sound accepts.1 accepts.2.1
    obtain ⟨error, after, ran, sent⟩ := send_cases flowing alive fine urgent outcome
    rw [invoke, ran]
    exact ⟨after, rfl, .sent urgent b outcome error after fine sent⟩
  | shutdownWrite =>
    rw [invoke, shutdownWrite, touch_alive alive]
    exact ⟨_, rfl, .shut⟩
  | close delay => exact close_socket alive delay
  | pauseRead =>
    rw [invoke, touch_alive alive]
    exact ⟨_, rfl, .paused⟩
  | resumeRead =>
    rw [invoke, touch_alive alive]
    exact ⟨_, rfl, .resumed⟩

theorem after_read_inside (write : Bool) : afterRead write ≠ .outside := by
  cases write <;> exact Phase.noConfusion

theorem enter_inside (read write : Bool) : enterPhase read write ≠ .outside := by
  cases read
  · exact after_read_inside write
  · exact Phase.noConfusion

theorem read_step (s : StreamSocket Data) (write : Bool) (result : ReadResult) :
    Handled s (readStep s write result).1 ∧ (readStep s write result).2 ≠ .outside := by
  cases result with
  | handshake done => exact ⟨.handshake _, after_read_inside write⟩
  | handshakeFailed => exact ⟨.unchanged, Phase.noConfusion⟩
  | noMemory => exact ⟨.unchanged, Phase.noConfusion⟩
  | data => exact ⟨.unchanged, Phase.noConfusion⟩
  | eof =>
    rw [readStep]
    split_ifs
    · exact ⟨.disabled, Phase.noConfusion⟩
    · exact ⟨.ended, Phase.noConfusion⟩
  | failed => exact ⟨.broken, Phase.noConfusion⟩

theorem unpack_inside (write : Bool) (result : Unpacked) : unpackStep write result ≠ .outside := by
  cases result with
  | nothing => exact after_read_inside write
  | _ => exact Phase.noConfusion

theorem return_step (s : StreamSocket Data) (write : Bool) (next : Next) :
    Handled s (returnStep s write next).1 ∧ (returnStep s write next).2 ≠ .outside := by
  cases next with
  | unpack =>
    refine ⟨.unchanged, ?_⟩
    rw [returnStep]
    split_ifs
    · exact after_read_inside write
    · exact Phase.noConfusion
  | finish => exact ⟨.unchanged, after_read_inside write⟩
  | removeHandle => exact ⟨.removed, after_read_inside write⟩
  | disableRead => exact ⟨.disabled, after_read_inside write⟩

end Steps

/-! What the changes of a handle leave alone. -/

theorem unwatch_handle_eq (s : StreamSocket Data) :
    unwatchHandle s =
      { s with
        loop := false, readEnabled := (unwatchHandle s).readEnabled
        writeEnabled := (unwatchHandle s).writeEnabled } := by
  unfold unwatchHandle
  split_ifs with attached
  · rfl
  · rw [Bool.not_eq_true] at attached
    cases s
    simp_all

theorem disable_read_eq (s : StreamSocket Data) :
    disableRead s = { s with readEnabled := (disableRead s).readEnabled } := by
  unfold disableRead
  split_ifs <;> rfl

theorem loop_add_eq (s : StreamSocket Data) :
    loopAdd s =
      { s with
        loop := (loopAdd s).loop, readEnabled := (loopAdd s).readEnabled
        writeEnabled := (loopAdd s).writeEnabled } := by
  unfold loopAdd
  split_ifs <;> rfl

theorem pause_read_eq (s : StreamSocket Data) :
    pauseRead s = { s with readEnabled := (pauseRead s).readEnabled } := by
  unfold pauseRead disableRead
  split_ifs <;> rfl

theorem resume_read_eq (s : StreamSocket Data) :
    resumeRead s = { s with readEnabled := (resumeRead s).readEnabled } := by
  unfold resumeRead enableRead
  split_ifs <;> rfl

theorem handled_eq {s after : StreamSocket Data} (handled : Handled s after) :
    after =
      { s with
        handshake := after.handshake, rclose := after.rclose, wclose := after.wclose
        loop := after.loop, readEnabled := after.readEnabled
        writeEnabled := after.writeEnabled } := by
  cases handled with
  | unchanged => rfl
  | handshake going => rfl
  | disabled => exact (disable_read_eq s).trans (by rw [disable_read_eq])
  | ended => rw [disable_read_eq]
  | broken => rfl
  | removed => rw [unwatch_handle_eq]

/-! ## What holds throughout -/

/-- A closed socket that is still there can be closed for good, or waits for its
data with a timer. -/
def Waits (s : StreamSocket Data) : Prop :=
  s.closed = true → s.rclose = true ∧
    (s.wclose = false → ¬sendListEmpty s ∧ s.delayCloseTimer = true)

/-- The socket is alive while its `on_events` is running, and closed only with a
reason to wait. -/
structure Steady (life : Life Data) : Prop where
  stack : life.socket.inloop = true ↔ life.phase ≠ .outside
  inside : life.phase ≠ .outside → life.socket.released = false
  flowing : life.socket.released = false → ∃ used, Flowing used life.socket
  waits : life.socket.released = false → Waits life.socket
  timer : life.socket.delayCloseTimer = true → life.socket.released = false
  watched : life.socket.loop = true → life.socket.released = false

section Keeping

variable {life next : Life Data} {input : Input Data}

theorem Steady.alive_inside (steady : Steady life) {phase : Phase} (here : life.phase = phase)
    (inside : phase ≠ .outside) : life.socket.released = false :=
  steady.inside (here ▸ inside)

theorem Steady.callable_alive (steady : Steady life) (callable : life.callable = true) :
    life.socket.released = false := by
  cases phase : life.phase with
  | outside =>
    rw [Life.callable, phase] at callable
    simpa using callable
  | _ => exact steady.alive_inside phase Phase.noConfusion

/-! One lemma for each input: what it does, or that it is ignored. -/

def Steps (life : Life Data) (input : Input Data) : Prop :=
  ∃ next, step life input = some next ∧ Stepped life input next

theorem step_call (steady : Steady life) {c : Call Data} (sound : c.Sound) :
    Steps life (.call c) := by
  rw [Steps, step]
  split_ifs with callable
  · have alive := steady.callable_alive callable
    obtain ⟨used, flowing⟩ := steady.flowing alive
    obtain ⟨after, ran, called⟩ := invoke_cases flowing alive sound
    rw [ran]
    exact ⟨_, rfl, .called c after callable alive called⟩
  · exact ⟨life, rfl, .idle _ (Bool.eq_false_iff.mpr callable)⟩

theorem step_timer (steady : Steady life) : Steps life .timer := by
  rw [Steps, step]
  cases phase : life.phase with
  | outside =>
    split_ifs with live
    · have alive := steady.timer live
      rw [delayCloseTimerCb, touch_alive alive]
      simp only [Option.bind_eq_bind, Option.bind_some]
      rw [release_socket (by exact alive)]
      exact ⟨_, rfl, phase ▸ .fired phase live⟩
    · exact ⟨life, rfl, .idle _ fun _ => Bool.eq_false_iff.mpr live⟩
  | _ => exact ⟨life, rfl, .idle _ fun outside => nomatch phase.symm.trans outside⟩

theorem step_events (steady : Steady life) (read write : Bool) :
    Steps life (.events read write) := by
  rw [Steps, step]
  cases phase : life.phase with
  | outside =>
    dsimp only
    split_ifs with watched
    · rw [touch_alive (steady.watched watched)]
      exact ⟨_, rfl, .entered read write phase watched⟩
    · exact ⟨life, rfl, .idle _ trivial⟩
  | _ => exact ⟨life, rfl, .idle _ trivial⟩

theorem step_read (steady : Steady life) (result : ReadResult) : Steps life (.read result) := by
  rw [Steps, step]
  cases phase : life.phase with
  | reading write =>
    dsimp only
    split_ifs
    · rw [touch_alive (steady.alive_inside phase Phase.noConfusion)]
      exact ⟨_, rfl, .read write result phase⟩
    · exact ⟨life, rfl, .idle _ trivial⟩
  | _ => exact ⟨life, rfl, .idle _ trivial⟩

theorem step_unpacked (steady : Steady life) (result : Unpacked) :
    Steps life (.unpacked result) := by
  rw [Steps, step]
  cases phase : life.phase with
  | unpacking write =>
    rw [touch_alive (steady.alive_inside phase Phase.noConfusion)]
    exact ⟨_, rfl, .unpacked write result phase⟩
  | _ => exact ⟨life, rfl, .idle _ trivial⟩

theorem step_returned (steady : Steady life) : Steps life .returned := by
  rw [Steps, step]
  cases phase : life.phase with
  | callback next write =>
    rw [touch_alive (steady.alive_inside phase Phase.noConfusion)]
    exact ⟨_, rfl, .returned next write phase⟩
  | _ => exact ⟨life, rfl, .idle _ trivial⟩

theorem step_write (steady : Steady life) (outcome : WriteOutcome) :
    Steps life (.write outcome) := by
  rw [Steps, step]
  cases phase : life.phase with
  | writing =>
    have alive := steady.alive_inside phase Phase.noConfusion
    obtain ⟨used, flowing⟩ := steady.flowing alive
    obtain ⟨after, ran, written⟩ := process_write flowing alive outcome
    rw [ran]
    exact ⟨_, rfl, .wrote outcome after phase written⟩
  | _ => exact ⟨life, rfl, .idle _ fun writing => nomatch phase.symm.trans writing⟩

theorem step_leave (steady : Steady life) : Steps life .leave := by
  rw [Steps, step]
  cases phase : life.phase with
  | leaving =>
    have alive := steady.alive_inside phase Phase.noConfusion
    rw [touch_alive alive]
    simp only [Option.bind_eq_bind, Option.bind_some, leaveStep]
    split_ifs with shut
    · rw [release_socket (by exact alive)]
      exact ⟨_, rfl, .ended phase shut⟩
    · exact ⟨_, rfl, .left phase shut⟩
  | _ => exact ⟨life, rfl, .idle _ trivial⟩

theorem step_cases (steady : Steady life) (sound : input.Sound) : Steps life input := by
  cases input with
  | call c => exact step_call steady sound
  | timer => exact step_timer steady
  | events read write => exact step_events steady read write
  | read result => exact step_read steady result
  | unpacked result => exact step_unpacked steady result
  | returned => exact step_returned steady
  | write outcome => exact step_write steady outcome
  | leave => exact step_leave steady

/-! Each kind of step keeps the socket steady. -/

theorem freed_steady (s : StreamSocket Data) (outside : s.inloop = false) :
    Steady ⟨freed s, .outside⟩ := by
  unfold freed
  rw [unwatch_handle_eq]
  exact ⟨⟨fun inloop => absurd (outside.symm.trans inloop) Bool.false_ne_true,
      fun inside => absurd rfl inside⟩, fun inside => absurd rfl inside,
    Bool.noConfusion, Bool.noConfusion, Bool.noConfusion, Bool.noConfusion⟩

theorem Steady.alive (alive : next.socket.released = false)
    (stack : next.socket.inloop = true ↔ next.phase ≠ .outside)
    (flowing : ∃ used, Flowing used next.socket) (waits : Waits next.socket) : Steady next :=
  ⟨stack, fun _ => alive, fun _ => flowing, fun _ => waits, fun _ => alive, fun _ => alive⟩

end Keeping

/-- Two sockets that differ in nothing that decides when they are released. -/
structure Alike (s after : StreamSocket Data) : Prop where
  closed : after.closed = s.closed
  rclose : after.rclose = s.rclose
  inloop : after.inloop = s.inloop
  loop : after.loop = s.loop
  timer : after.delayCloseTimer = s.delayCloseTimer
  released : after.released = s.released

section Parts

variable {used : Bool → List Data} {s after : StreamSocket Data} {outcome : WriteOutcome}

theorem written_alike (written : Written s outcome after) : Alike s after := by
  cases written with
  | idle empty => exact ⟨rfl, rfl, rfl, rfl, rfl, rfl⟩
  | took waiting taken rest nonempty few front popped kernel =>
    rw [wrote_some_eq]
    unfold updated
    cases chosen s <;> exact ⟨rfl, rfl, rfl, rfl, rfl, rfl⟩
  | again waiting blocked => exact ⟨rfl, rfl, rfl, rfl, rfl, rfl⟩
  | failed waiting errno hard error =>
    rw [write_failed_eq]
    exact ⟨rfl, rfl, rfl, rfl, rfl, rfl⟩

theorem queue_alike (s : StreamSocket Data) (urgent : Bool) (b : SendBuffer Data) :
    Alike s (queue s urgent b) := by
  cases urgent <;> exact ⟨rfl, rfl, rfl, rfl, rfl, rfl⟩

theorem Alike.trans {middle : StreamSocket Data} (first : Alike s middle)
    (second : Alike middle after) : Alike s after :=
  ⟨second.closed.trans first.closed, second.rclose.trans first.rclose,
    second.inloop.trans first.inloop, second.loop.trans first.loop,
    second.timer.trans first.timer, second.released.trans first.released⟩

theorem enable_write_alike (s : StreamSocket Data) : Alike s (enableWrite s) := by
  rw [enable_write_eq]
  exact ⟨rfl, rfl, rfl, rfl, rfl, rfl⟩

theorem sent_alike {urgent : Bool} {b : SendBuffer Data} {error : SendError}
    (sent : Sent s urgent b outcome error after) : Alike s after := by
  cases sent with
  | refused refuses error which => exact ⟨rfl, rfl, rfl, rfl, rfl, rfl⟩
  | attempted accepts now middle written =>
    apply ((queue_alike s urgent b).trans (written_alike written)).trans
    rw [after_write_eq]
    exact ⟨rfl, rfl, rfl, rfl, rfl, rfl⟩
  | waiting accepts later =>
    apply (queue_alike s urgent b).trans
    split_ifs
    · exact ⟨rfl, rfl, rfl, rfl, rfl, rfl⟩
    · exact enable_write_alike _

theorem written_waits (waits : Waits s) (written : Written s outcome after) : Waits after := by
  intro closed
  have alike := written_alike written
  rw [alike.closed] at closed
  obtain ⟨rclose, data⟩ := waits closed
  refine ⟨alike.rclose.trans rclose, fun opened => ?_⟩
  cases written with
  | idle empty => exact absurd empty (data opened).1
  | took waiting taken rest nonempty few front popped kernel =>
    have shut : (updated s taken rest).rclose = true := by
      unfold updated
      cases chosen s <;> exact rclose
    have before : (updated s taken rest).wclose = s.wclose := by
      unfold updated
      cases chosen s <;> rfl
    by_cases emptied : sendListEmpty (updated s taken rest)
    · rw [wroteSome, if_pos emptied, if_pos shut] at opened
      exact absurd opened Bool.noConfusion
    · rw [wroteSome, if_neg emptied] at opened ⊢
      rw [before] at opened
      refine ⟨emptied, ?_⟩
      unfold updated
      cases chosen s <;> exact (data opened).2
  | again waiting blocked => exact data opened
  | failed waiting errno hard error =>
    rw [write_failed_eq] at opened
    exact absurd opened Bool.noConfusion

theorem handled_waits (waits : Waits s) (handled : Handled s after) : Waits after := by
  intro closed
  cases handled with
  | unchanged => exact waits closed
  | handshake going => exact waits closed
  | disabled =>
    rw [disable_read_eq] at closed ⊢
    exact waits closed
  | ended =>
    rw [disable_read_eq] at closed ⊢
    exact ⟨rfl, (waits closed).2⟩
  | broken => exact ⟨rfl, Bool.noConfusion⟩
  | removed =>
    rw [unwatch_handle_eq] at closed ⊢
    exact waits closed

theorem called_waits {c : Call Data} (waits : Waits s) (alive : after.released = false)
    (called : Called s c after) : Waits after := by
  intro closed
  cases called with
  | added =>
    rw [loop_add_eq] at closed ⊢
    exact waits closed
  | sent urgent b outcome error after sound sent =>
    rw [(sent_alike sent).closed] at closed
    cases sent with
    | refused refuses error which => exact waits closed
    | attempted accepts now middle written =>
      nomatch accepts.2.2.1.symm.trans closed
    | waiting accepts later =>
      nomatch accepts.2.2.1.symm.trans closed
  | shut => exact ⟨(waits closed).1, Bool.noConfusion⟩
  | again delay already => exact waits closed
  | delayed delay opened waiting =>
    unfold delayClose
    rw [disable_read_eq]
    exact ⟨rfl, fun _ => ⟨waiting, rfl⟩⟩
  | deferred => exact ⟨rfl, Bool.noConfusion⟩
  | released => exact absurd alive Bool.noConfusion
  | paused =>
    rw [pause_read_eq] at closed ⊢
    exact waits closed
  | resumed =>
    rw [resume_read_eq] at closed ⊢
    exact waits closed

/-- A call that does not release the socket leaves its lists in order, and leaves
`on_events` where it is. -/
theorem called_flowing {c : Call Data} (flowing : Flowing used s) (alive : s.released = false)
    (called : Called s c after) :
    (∃ before, s.inloop = false ∧ before.inloop = false ∧ after = freed before) ∨
      ((∃ used, Flowing used after) ∧ after.released = false ∧ after.inloop = s.inloop) := by
  cases called with
  | added =>
    rw [loop_add_eq]
    exact .inr ⟨⟨used, flowing.congr rfl rfl rfl flowing.flag⟩, alive, rfl⟩
  | sent urgent b outcome error after sound sent =>
    obtain ⟨flows, lives⟩ := sent_flowing flowing alive sound sent
    exact .inr ⟨flows, lives, (sent_alike sent).inloop⟩
  | shut => exact .inr ⟨⟨used, flowing.congr rfl rfl rfl flowing.flag⟩, alive, rfl⟩
  | again delay closed => exact .inr ⟨⟨used, flowing⟩, alive, rfl⟩
  | delayed delay opened waiting =>
    unfold delayClose
    rw [disable_read_eq]
    exact .inr ⟨⟨used, flowing.congr rfl rfl rfl flowing.flag⟩, alive, rfl⟩
  | deferred => exact .inr ⟨⟨used, flowing.congr rfl rfl rfl flowing.flag⟩, alive, rfl⟩
  | released delay opened hurried outside =>
    exact .inl ⟨{ s with closed := true, rclose := true, wclose := true }, outside, outside, rfl⟩
  | paused =>
    rw [pause_read_eq]
    exact .inr ⟨⟨used, flowing.congr rfl rfl rfl flowing.flag⟩, alive, rfl⟩
  | resumed =>
    rw [resume_read_eq]
    exact .inr ⟨⟨used, flowing.congr rfl rfl rfl flowing.flag⟩, alive, rfl⟩

end Parts

section Stepping

variable {life next : Life Data} {input : Input Data} {after : StreamSocket Data} {phase : Phase}
  (steady : Steady life)

include steady

theorem called_steady {c : Call Data} (alive : life.socket.released = false)
    (called : Called life.socket c after) : Steady { life with socket := after } := by
  obtain ⟨used, flowing⟩ := steady.flowing alive
  rcases called_flowing flowing alive called with ⟨before, none, left, rfl⟩ | ⟨flows, lives, same⟩
  · have outside : life.phase = .outside := by
      by_contra inside
      exact Bool.false_ne_true (none.symm.trans (steady.stack.mpr inside))
    rw [outside]
    exact freed_steady before left
  · refine .alive lives ?_ flows (called_waits (steady.waits alive) lives called)
    rw [same]
    exact steady.stack

theorem handled_steady (inside : life.phase ≠ .outside) (still : phase ≠ .outside)
    (handled : Handled life.socket after) : Steady ⟨after, phase⟩ := by
  have alive := steady.inside inside
  obtain ⟨used, flowing⟩ := steady.flowing alive
  have waits := handled_waits (steady.waits alive) handled
  rw [handled_eq handled] at waits ⊢
  exact .alive alive ⟨fun _ => still, fun _ => steady.stack.mpr inside⟩
    ⟨used, flowing.congr rfl rfl rfl flowing.flag⟩ waits

theorem wrote_steady {outcome : WriteOutcome} (inside : life.phase ≠ .outside)
    (written : Written life.socket outcome after) : Steady ⟨after, .leaving⟩ := by
  have alive := steady.inside inside
  obtain ⟨used, flowing⟩ := steady.flowing alive
  obtain ⟨n, moved⟩ := written_moved flowing written
  have alike := written_alike written
  exact .alive (alike.released.trans alive)
    ⟨fun _ => Phase.noConfusion, fun _ => alike.inloop.trans (steady.stack.mpr inside)⟩
    ⟨_, moved.flowing⟩ (written_waits (steady.waits alive) written)

theorem stepped_steady (stepped : Stepped life input next) : Steady next := by
  have inside {phase : Phase} (here : life.phase = phase) (within : phase ≠ .outside) :
      life.phase ≠ .outside := here ▸ within
  cases stepped with
  | idle => exact steady
  | called c after callable alive called => exact called_steady steady alive called
  | fired outside live =>
    have left : life.socket.inloop = false := by
      rw [← Bool.not_eq_true, steady.stack]
      exact not_not.mpr outside
    rw [outside]
    exact freed_steady _ left
  | entered read write before watched =>
    have alive := steady.watched watched
    obtain ⟨used, flowing⟩ := steady.flowing alive
    exact .alive alive ⟨fun _ => enter_inside read write, fun _ => rfl⟩
      ⟨used, flowing.congr rfl rfl rfl flowing.flag⟩ (steady.waits alive)
  | read write result reading =>
    obtain ⟨handled, still⟩ := read_step life.socket write result
    exact handled_steady steady (inside reading Phase.noConfusion) still handled
  | unpacked write result unpacking =>
    exact handled_steady steady (inside unpacking Phase.noConfusion) (unpack_inside write result)
      .unchanged
  | returned next write callback =>
    obtain ⟨handled, still⟩ := return_step life.socket write next
    exact handled_steady steady (inside callback Phase.noConfusion) still handled
  | wrote outcome after writing written =>
    exact wrote_steady steady (inside writing Phase.noConfusion) written
  | left leaving stays =>
    have alive := steady.alive_inside leaving Phase.noConfusion
    obtain ⟨used, flowing⟩ := steady.flowing alive
    have inloop := steady.stack.mpr (inside leaving Phase.noConfusion)
    refine .alive alive ⟨fun still => ?_, fun inside => absurd rfl inside⟩
      ⟨used, flowing.congr rfl rfl rfl flowing.flag⟩ (steady.waits alive)
    simp [inloop] at still
  | ended leaving shut =>
    apply freed_steady
    simp [steady.stack.mpr (inside leaving Phase.noConfusion)]

end Stepping

theorem new_steady (noDelay ssl handshake : Bool) :
    Steady (newLife noDelay ssl handshake : Life Data) :=
  .alive rfl ⟨Bool.noConfusion, fun inside => absurd rfl inside⟩ ⟨_, .empty rfl rfl rfl⟩
    Bool.noConfusion

end Chuck.StreamSocketLife
