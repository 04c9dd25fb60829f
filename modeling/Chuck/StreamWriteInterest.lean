import Chuck.Support.FaultFreeRuns
import Chuck.StreamSocketLife

/-!
# Queued data is watched for

A socket with queued data that is attached to a loop has write events enabled:
they are enabled wherever data can be queued or the socket attached, and disabled
only by a write that empties both lists.
-/

namespace Chuck.StreamWriteInterest

open Support.FaultFreeRuns StreamSocketModel StreamSendList StreamSendSteps StreamSocketLife

variable {Data : Type}

def NoError : WriteOutcome → Prop
  | .wrote n => n ≠ 0
  | .again => True
  | .failed errno => errno = eagain

def Smooth : Input Data → Prop
  | .call (.send urgent b outcome) => Call.Sound (.send urgent b outcome) ∧ NoError outcome
  | .write outcome => NoError outcome
  | _ => True

def Watching (s : StreamSocket Data) : Prop :=
  s.loop = true → s.released = false → ¬sendListEmpty s → s.writeEnabled = true

theorem smooth_sound {input : Input Data} (smooth : Smooth input) : input.Sound := by
  cases input with
  | call c =>
    cases c with
    | send urgent b outcome => exact smooth.1
    | _ => trivial
  | _ => trivial

section Steps

variable {s after : StreamSocket Data} {outcome : WriteOutcome}

theorem written_enabled (smooth : NoError outcome) (written : Written s outcome after)
    (waiting : ¬sendListEmpty after) : after.writeEnabled = s.writeEnabled := by
  cases written with
  | idle empty => exact absurd empty waiting
  | took before taken rest nonempty few front popped kernel =>
    have left : ¬sendListEmpty (updated s taken rest) := by
      rw [wrote_some_eq] at waiting
      exact waiting
    rw [wroteSome, if_neg left, updated]
    cases chosen s <;> rfl
  | again before blocked => rfl
  | failed before errno hard error =>
    rcases error with rfl | ⟨rfl, -⟩
    · exact absurd smooth hard
    · exact absurd rfl smooth

theorem written_waiting (written : Written s outcome after) (waiting : ¬sendListEmpty after) :
    ¬sendListEmpty s := by
  cases written with
  | idle empty => exact absurd empty waiting
  | took before taken rest nonempty few front popped kernel => exact before
  | again before blocked => exact before
  | failed before errno hard error => exact before

theorem written_watching (smooth : NoError outcome) (watching : Watching s)
    (written : Written s outcome after) : Watching after := by
  intro attached alive waiting
  have alike := written_alike written
  rw [written_enabled smooth written waiting]
  exact watching (alike.loop.symm.trans attached) (alike.released.symm.trans alive)
    (written_waiting written waiting)

theorem emptied_waiting {urgent : Bool} {b : SendBuffer Data} (smooth : NoError outcome)
    (written : Written (queue s urgent b) outcome after)
    (emptied : ¬(after.errno = eagain ∨ after.errno = 0 ∧ after.list urgent ≠ []))
    (waiting : ¬sendListEmpty after) : ¬sendListEmpty s := by
  obtain ⟨own, other⟩ := list_queue s urgent b
  cases written with
  | idle empty => exact absurd empty waiting
  | took before taken rest nonempty few front popped kernel =>
    have none : (wroteSome (updated (queue s urgent b) taken rest)).list urgent = [] := by
      by_contra some
      exact emptied (.inr ⟨errno_took _ _ _, some⟩)
    by_cases mine : urgent = chosen (queue s urgent b)
    · rw [send_list_empty_iff] at waiting ⊢
      intro empty
      apply waiting
      intro cls
      by_cases same : cls = urgent
      · rw [same, none]
      · rw [list_took, if_neg fun here => same (here.trans mine.symm),
          Bool.eq_not_of_ne same, other, empty]
    · rw [list_took, if_neg mine, own] at none
      exact absurd none (List.append_ne_nil_of_right_ne_nil _ (List.cons_ne_nil _ _))
  | again before blocked => exact absurd (.inl rfl) emptied
  | failed before errno hard error =>
    rcases error with rfl | ⟨rfl, -⟩
    · exact absurd smooth hard
    · exact absurd rfl smooth

theorem enable_write_enables (s : StreamSocket Data) (attached : s.loop = true) :
    (enableWrite s).writeEnabled = true := by
  rw [enableWrite, if_pos attached]

theorem sent_watching {urgent : Bool} {b : SendBuffer Data} {error : SendError}
    (smooth : NoError outcome) (watching : Watching s)
    (sent : Sent s urgent b outcome error after) : Watching after := by
  have alike := sent_alike sent
  intro attached alive waiting
  rw [alike.loop] at attached
  rw [alike.released] at alive
  cases sent with
  | refused refuses error which => exact watching attached alive waiting
  | attempted accepts now middle written =>
    have loop : middle.loop = true :=
      ((queue_alike s urgent b).trans (written_alike written)).loop.trans attached
    by_cases going : middle.errno = eagain ∨ middle.errno = 0 ∧ middle.list urgent ≠ []
    · rw [afterWrite, if_pos going]
      exact enable_write_enables middle loop
    · rw [afterWrite, if_neg going] at waiting ⊢
      rw [written_enabled smooth written waiting]
      have before := watching attached alive (emptied_waiting smooth written going waiting)
      cases urgent <;> exact before
  | waiting accepts later =>
    by_cases enabled : s.writeEnabled = true
    · rw [if_pos enabled]
      cases urgent <;> exact enabled
    · rw [if_neg enabled]
      exact enable_write_enables _ ((queue_alike s urgent b).loop.trans attached)

theorem handled_watching (watching : Watching s) (handled : Handled s after) : Watching after := by
  cases handled with
  | unchanged => exact watching
  | handshake going => exact watching
  | disabled =>
    rw [disable_read_eq]
    exact watching
  | ended =>
    rw [disable_read_eq]
    exact watching
  | broken => exact watching
  | removed =>
    rw [unwatch_handle_eq]
    exact Bool.noConfusion

theorem called_watching {c : Call Data} (smooth : Smooth (.call c)) (watching : Watching s)
    (called : Called s c after) : Watching after := by
  cases called with
  | added =>
    by_cases refused : s.loop = true ∨ s.closed = true
    · rw [loopAdd, if_pos refused]
      exact watching
    · rw [loopAdd, if_neg refused]
      intro _ _ waiting
      have some : ¬sendListEmpty s := waiting
      simp [some]
  | sent urgent b outcome error after sound sent => exact sent_watching smooth.2 watching sent
  | shut => exact watching
  | again delay closed => exact watching
  | delayed delay opened waiting =>
    unfold delayClose
    rw [disable_read_eq]
    exact watching
  | deferred => exact watching
  | released => exact fun _ alive => absurd alive Bool.noConfusion
  | paused =>
    rw [pause_read_eq]
    exact watching
  | resumed =>
    rw [resume_read_eq]
    exact watching

theorem stepped_watching {life next : Life Data} {input : Input Data} (smooth : Smooth input)
    (watching : Watching life.socket) (stepped : Stepped life input next) :
    Watching next.socket := by
  cases stepped with
  | idle => exact watching
  | called c after callable alive called => exact called_watching smooth watching called
  | fired outside live => exact fun _ alive => absurd alive Bool.noConfusion
  | entered => exact watching
  | read write result => exact handled_watching watching (read_step life.socket write result).1
  | unpacked => exact watching
  | returned next write => exact handled_watching watching (return_step life.socket write next).1
  | wrote outcome after writing written => exact written_watching smooth watching written
  | left leaving stays => exact watching
  | ended => exact fun _ alive => absurd alive Bool.noConfusion

end Steps

/-- However a socket is used, as long as no write fails, queued data of an attached
socket is watched for. -/
theorem queued_data_watched {noDelay ssl handshake : Bool} {life : Life Data}
    (reached : Reaches step (fun _ input => Smooth input) (newLife noDelay ssl handshake) life)
    (attached : life.socket.loop = true) (alive : life.socket.released = false)
    (waiting : ¬sendListEmpty life.socket) : life.socket.writeEnabled = true := by
  have carries : Carries step (fun _ input => Smooth input)
      (newLife noDelay ssl handshake : Life Data)
      fun life => Steady life ∧ Watching life.socket := by
    constructor
    · exact ⟨new_steady noDelay ssl handshake, fun loop => absurd loop Bool.noConfusion⟩
    · rintro life input ⟨steady, watching⟩ smooth
      obtain ⟨next, ran, stepped⟩ := step_cases steady (smooth_sound smooth)
      exact ⟨next, ran, stepped_steady steady stepped, stepped_watching smooth watching stepped⟩
  exact (carries.invariant reached).2 attached alive waiting

/-- Three bytes are sent on an attached socket without delay, and the kernel takes
two of them. -/
theorem short_write_watched : ∃ life : Life Nat,
    Reaches step (fun _ input => Smooth input) (newLife true false false) life ∧
      life.socket.wire = [1, 2] ∧ life.socket.writeEnabled = true := by
  have added := Reaches.next (Input.call .addHandle)
    (.start : Reaches step (fun _ input => Smooth input) (newLife true false false : Life Nat) _)
    trivial rfl
  have sent := added.next (Input.call (.send false ⟨0, 3, 0, [[1, 2, 3]], false⟩ (.wrote 2)))
    ⟨fun _ _ => ⟨by decide, by decide, by simp, by simp⟩, by simp [NoError]⟩ rfl
  exact ⟨_, sent, rfl, queued_data_watched sent rfl rfl fun empty => List.cons_ne_nil _ _ empty.1⟩

end Chuck.StreamWriteInterest
