import Chuck.Support.FaultFreeRuns
import Chuck.StreamSocketLife

/-!
# The end of a stream socket

Four flags and a timer decide whether a socket is freed at once, at the end of
`on_events`, or when its data has been sent or the timer fires. It is freed once,
nothing uses it afterwards, and nothing closed is forgotten.
-/

namespace Chuck.StreamTeardown

open Support.FaultFreeRuns StreamSocketModel StreamSendSteps StreamSocketLife

variable {Data : Type}

/-- Buffers are well formed, and `chk_stream_socket_shutdown_write` is called by
callbacks only. -/
def Orderly (life : Life Data) (input : Input Data) : Prop :=
  input.Sound ∧ (input = .call .shutdownWrite → life.phase ≠ .outside)

def Open (s : StreamSocket Data) : Prop :=
  s.closed = true → s.released = false → s.wclose = false

structure Orderliness (life : Life Data) : Prop where
  steady : Steady life
  opened : life.phase = .outside → Open life.socket

section Steps

variable {life next : Life Data} {input : Input Data}

theorem called_open {s after : StreamSocket Data} {c : Call Data} (outside : s.inloop = false)
    (reading : c ≠ .shutdownWrite) (opened : Open s) (called : Called s c after) : Open after := by
  intro closed alive
  cases called with
  | added =>
    rw [loop_add_eq] at closed alive ⊢
    exact opened closed alive
  | sent urgent b outcome error after sound sent =>
    have same := sent_alike sent
    rw [same.closed] at closed
    rw [same.released] at alive
    cases sent with
    | refused refuses error which => exact opened closed alive
    | attempted accepts now middle written =>
      nomatch accepts.2.2.1.symm.trans closed
    | waiting accepts later =>
      nomatch accepts.2.2.1.symm.trans closed
  | shut => exact absurd rfl reading
  | again delay already => exact opened closed alive
  | delayed delay still waiting =>
    unfold delayClose
    rw [disable_read_eq]
    exact still
  | deferred delay still hurried inside => nomatch outside.symm.trans inside
  | released => exact absurd alive Bool.noConfusion
  | paused =>
    rw [pause_read_eq] at closed alive ⊢
    exact opened closed alive
  | resumed =>
    rw [resume_read_eq] at closed alive ⊢
    exact opened closed alive

theorem stepped_open (orderly : Orderly life input) (before : Orderliness life)
    (stepped : Stepped life input next) : next.phase = .outside → Open next.socket := by
  intro outside
  cases stepped with
  | idle => exact before.opened outside
  | called c after callable alive called =>
    have none : life.socket.inloop = false := by
      rw [← Bool.not_eq_true, before.steady.stack]
      exact not_not.mpr outside
    apply called_open none _ (before.opened outside) called
    intro shut
    exact orderly.2 (congrArg _ shut) outside
  | fired phase live => exact fun _ alive => absurd alive Bool.noConfusion
  | entered read write => exact absurd outside (enter_inside read write)
  | read write result => exact absurd outside (read_step life.socket write result).2
  | unpacked write result => exact absurd outside (unpack_inside write result)
  | returned next write => exact absurd outside (return_step life.socket write next).2
  | wrote outcome after writing written => exact absurd outside Phase.noConfusion
  | left leaving stays =>
    intro closed alive
    have shut := (before.steady.waits alive closed).1
    rw [← Bool.not_eq_true]
    exact fun wclose => stays ⟨closed, wclose, shut⟩
  | ended => exact fun _ alive => absurd alive Bool.noConfusion

theorem orderliness_carries (noDelay ssl handshake : Bool) :
    Carries step Orderly (newLife noDelay ssl handshake : Life Data) Orderliness := by
  constructor
  · exact ⟨new_steady noDelay ssl handshake, fun _ => Bool.noConfusion⟩
  · intro life input before orderly
    obtain ⟨next, ran, stepped⟩ := step_cases before.steady orderly.1
    exact ⟨next, ran, stepped_steady before.steady stepped, stepped_open orderly before stepped⟩

theorem released_final (steady : Steady life) (released : life.socket.released = true)
    (input : Input Data) : step life input = some life := by
  have outside : life.phase = .outside := by
    by_contra inside
    exact Bool.false_ne_true ((steady.inside inside).symm.trans released)
  have timer : ¬life.socket.delayCloseTimer = true := fun live =>
    Bool.false_ne_true ((steady.timer live).symm.trans released)
  have loop : ¬life.socket.loop = true := fun watched =>
    Bool.false_ne_true ((steady.watched watched).symm.trans released)
  cases input with
  | call c =>
    rw [step, if_neg]
    rw [Life.callable, outside]
    simp [released]
  | timer =>
    rw [step, outside]
    exact if_neg timer
  | events read write =>
    rw [step, outside]
    exact if_neg loop
  | _ => rw [step, outside]

end Steps

/-- In every run no step uses a socket that has been freed, `release_socket`
included; it is never freed while its `on_events` is running, and nothing happens
to it afterwards; and a socket that was closed and is still there, while no
`on_events` is running, waits for its data with a live timer. -/
theorem teardown_once {noDelay ssl handshake : Bool} {life : Life Data}
    (reached : Reaches step Orderly (newLife noDelay ssl handshake) life) :
    (∀ input, Orderly life input → ∃ next, step life input = some next) ∧
      (life.socket.released = true →
        life.phase = .outside ∧ ∀ input, step life input = some life) ∧
      (life.phase = .outside → life.socket.closed = true → life.socket.released = false →
        life.socket.rclose = true ∧ life.socket.wclose = false ∧
          ¬sendListEmpty life.socket ∧ life.socket.delayCloseTimer = true) := by
  have carries : Carries step Orderly (newLife noDelay ssl handshake : Life Data) Orderliness :=
    orderliness_carries noDelay ssl handshake
  have orderly := carries.invariant reached
  refine ⟨fun input allowed => ?_, fun released => ⟨?_, ?_⟩, fun outside closed alive => ?_⟩
  · obtain ⟨next, ran, -⟩ := carries.goes_on reached allowed
    exact ⟨next, ran⟩
  · by_contra inside
    exact Bool.false_ne_true ((orderly.steady.inside inside).symm.trans released)
  · exact released_final orderly.steady released
  · obtain ⟨shut, data⟩ := orderly.steady.waits alive closed
    have opened := orderly.opened outside closed alive
    exact ⟨shut, opened, data opened⟩

/-- Three bytes are queued on an attached socket, which is then closed with a delay. -/
theorem delayed_close_waits : ∃ life : Life Nat,
    Reaches step Orderly (newLife false false false) life ∧
      life.socket.closed = true ∧ life.socket.delayCloseTimer = true := by
  have added := Reaches.next (Input.call .addHandle)
    (.start : Reaches step Orderly (newLife false false false : Life Nat) _)
    ⟨trivial, by simp⟩ rfl
  have sent := added.next (Input.call (.send false ⟨0, 3, 0, [[1, 2, 3]], false⟩ .again))
    ⟨fun _ _ => ⟨by decide, by decide, by simp, by simp⟩, by simp⟩ rfl
  have closed := sent.next (Input.call (.close 5)) ⟨trivial, by simp⟩ rfl
  have state := (teardown_once closed).2.2 rfl rfl rfl
  exact ⟨_, closed, rfl, state.2.2.2⟩

end Chuck.StreamTeardown
