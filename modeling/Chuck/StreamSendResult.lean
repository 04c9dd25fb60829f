import Chuck.StreamSendSteps

/-!
# What the result of a send says

After an attempt to write, `_chk_stream_socket_send` looks at `errno` and at
whether the buffer's own list is empty. A list that the kernel has taken whole
is empty as well, and that is reported as `chk_error_stream_write`.
-/

namespace Chuck.StreamSendResult

open Support.PartialQueue StreamSocketModel StreamSendList StreamSendSteps List

variable {Data : Type}

def HardError (outcome : WriteOutcome) : Prop := ∃ errno, outcome = .failed errno ∧ errno ≠ eagain

def TakesAll (s : StreamSocket Data) (urgent : Bool) (outcome : WriteOutcome) : Prop :=
  chosen s = urgent ∧ takenBy s outcome = (contents (s.list urgent)).flatten

section Attempts

variable {used : Bool → List Data} {s after : StreamSocket Data} {urgent : Bool}
  {outcome : WriteOutcome}

theorem popped_empty {used taken : List Data} {list rest : List (SendBuffer Data)}
    (queued : Queued used list) (front : taken <+: (contents list).flatten)
    (popped : popSent list taken.length = some rest) :
    rest = [] ↔ taken = (contents list).flatten := by
  obtain ⟨same, ran, left, again⟩ := pop_sent queued front.length_le
  obtain rfl : same = rest := Option.some.inj (ran.symm.trans popped)
  have dropped := (spend_taken _ used _ front.length_le).2
  rw [← left] at dropped
  constructor
  · rintro rfl
    rw [contents, map_nil, flatten_nil, eq_comm, drop_eq_nil_iff] at dropped
    exact front.eq_of_length_le dropped
  · intro all
    rw [← all, drop_length, flatten_eq_nil_iff] at dropped
    by_contra some
    obtain ⟨b, more, rfl⟩ := exists_cons_of_ne_nil some
    exact again.full b.content mem_cons_self (dropped _ mem_cons_self)

theorem taken_nothing (waiting : s.list urgent ≠ []) (flowing : Flowing used s)
    (nothing : takenBy s outcome = []) : ¬TakesAll s urgent outcome := by
  rintro ⟨-, all⟩
  rw [nothing, eq_comm, flatten_eq_nil_iff] at all
  obtain ⟨b, more, list⟩ := exists_cons_of_ne_nil waiting
  have member : b.content ∈ contents (s.list urgent) := by
    rw [list]
    exact mem_cons_self
  exact (flowing.queued urgent).full _ member (all _ member)

/-- The result after an attempt: it is `chk_error_stream_write` if the list was
taken whole, or if the write failed and left an `errno`. -/
theorem attempt_result (flowing : Flowing used s) (waiting : s.list urgent ≠ [])
    (written : Written s outcome after) :
    (TakesAll s urgent outcome ∧ (afterWrite urgent after).1 = .streamWrite) ∨
      (¬TakesAll s urgent outcome ∧ HardError outcome ∧ outcome ≠ .failed 0 ∧
        (afterWrite urgent after).1 = .streamWrite) ∨
      (¬TakesAll s urgent outcome ∧ (HardError outcome → outcome = .failed 0) ∧
        (afterWrite urgent after).1 =
          if after.sendBytes ≥ s.highWaterMark then .highwaterMark else .ok) := by
  cases written with
  | idle empty =>
    cases urgent with
    | false => exact absurd empty.1 waiting
    | true => exact absurd empty.2 waiting
  | took some taken rest nonempty few front popped kernel =>
    have wrote : ¬HardError outcome := by
      rintro ⟨errno, rfl, -⟩
      exact nonempty kernel
    have errno := errno_took s taken rest
    have mark : (wroteSome (updated s taken rest)).highWaterMark = s.highWaterMark := by
      rw [wrote_some_eq, updated]
      cases chosen s <;> rfl
    by_cases own : chosen s = urgent
    · have list : (wroteSome (updated s taken rest)).list urgent = rest := by
        rw [list_took, if_pos own.symm]
      have emptied := popped_empty (flowing.queued (chosen s)) front popped
      rw [own, kernel] at emptied
      rw [afterWrite, errno, list, mark]
      by_cases all : rest = []
      · exact .inl ⟨⟨own, emptied.mp all⟩, by simp [all, eagain]⟩
      · refine .inr (.inr ⟨fun whole => all (emptied.mpr whole.2), fun hard => absurd hard wrote,
          ?_⟩)
        rw [if_pos (.inr ⟨rfl, all⟩)]
    · have list : (wroteSome (updated s taken rest)).list urgent = s.list urgent := by
        rw [list_took, if_neg (Ne.symm own)]
      refine .inr (.inr ⟨fun whole => own whole.1, fun hard => absurd hard wrote, ?_⟩)
      rw [afterWrite, errno, list, mark, if_pos (.inr ⟨rfl, waiting⟩)]
  | again some blocked =>
    have nothing : takenBy s outcome = [] := by
      rcases blocked with rfl | rfl <;> rfl
    refine .inr (.inr ⟨taken_nothing waiting flowing nothing, fun hard => ?_, ?_⟩)
    · obtain ⟨errno, same, other⟩ := hard
      rcases blocked with rfl | rfl
      · exact WriteOutcome.noConfusion same
      · exact absurd (WriteOutcome.failed.inj same).symm other
    · rw [afterWrite, if_pos (.inl rfl)]
      rfl
  | failed some errno hard error =>
    have nothing : takenBy s outcome = [] := by
      rcases error with rfl | ⟨rfl, -⟩
      · rfl
      · simp [takenBy, doWrite]
    have short := taken_nothing waiting flowing nothing
    have code : (writeFailed (answered s [] errno)).errno = errno := by
      rw [write_failed_eq]
      rfl
    have list : (writeFailed (answered s [] errno)).list urgent = s.list urgent := by
      rw [write_failed_eq]
      cases urgent <;> rfl
    rw [afterWrite, code, list]
    by_cases zero : errno = 0
    · refine .inr (.inr ⟨short, fun failed => ?_, ?_⟩)
      · rcases error with same | ⟨same, -⟩
        · rw [same, zero]
        · obtain ⟨other, clash, -⟩ := failed
          rw [same] at clash
          exact WriteOutcome.noConfusion clash
      · rw [if_pos (.inr ⟨zero, waiting⟩), write_failed_eq]
        rfl
    · have failed : outcome = .failed errno := error.resolve_right fun wrote => zero wrote.2
      refine .inr (.inl ⟨short, ⟨errno, failed, hard⟩, ?_, ?_⟩)
      · rw [failed]
        exact fun same => zero (WriteOutcome.failed.inj same)
      · rw [if_neg (by simp [hard, zero])]

end Attempts

/-! ## The result -/

/-- The send makes an attempt to write, and the kernel takes all that is queued in
the buffer's own list. -/
def WritesAll (s : StreamSocket Data) (urgent : Bool) (b : SendBuffer Data)
    (outcome : WriteOutcome) : Prop :=
  Accepts s b ∧ writesNow s b = true ∧ TakesAll (queue s urgent b) urgent outcome

/-- `chk_error_stream_write` means that an attempt to write has failed; otherwise
an accepted buffer has been written or waits, and the result is one of the other
two. -/
def Truthful (s : StreamSocket Data) (b : SendBuffer Data) (outcome : WriteOutcome)
    (error : SendError) : Prop :=
  (error = .streamWrite → writesNow s b = true ∧ HardError outcome) ∧
    (Accepts s b → ¬(writesNow s b = true ∧ HardError outcome) →
      error = .ok ∨ error = .highwaterMark)

theorem queue_waiting (s : StreamSocket Data) (urgent : Bool) (b : SendBuffer Data) :
    (queue s urgent b).list urgent ≠ [] := by
  rw [(list_queue s urgent b).1]
  exact append_ne_nil_of_right_ne_nil _ (cons_ne_nil _ _)

/-- The result of a send is true exactly if the attempt to write did not take all
of the buffer's list. -/
theorem send_result_truthful {used : Bool → List Data} {s : StreamSocket Data}
    {b : SendBuffer Data} (flowing : Flowing used s) (alive : s.released = false)
    (sound : Sound b) (urgent : Bool) (outcome : WriteOutcome) :
    ∃ error after, send s urgent b outcome = some (error, after) ∧
      (Truthful s b outcome error ↔ ¬WritesAll s urgent b outcome) := by
  obtain ⟨error, after, ran, sent⟩ := send_cases flowing alive (fun _ => sound) urgent outcome
  refine ⟨error, after, ran, ?_⟩
  cases sent with
  | refused refuses error which =>
    refine iff_of_true ⟨fun same => ?_, fun accepts => absurd accepts refuses⟩
      fun all => refuses all.1
    rcases which with rfl | rfl | rfl <;> exact SendError.noConfusion same
  | waiting accepts later =>
    exact iff_of_true ⟨fun same => SendError.noConfusion same, fun _ _ => .inl rfl⟩
      fun all => Bool.false_ne_true (later.symm.trans all.2.1)
  | attempted accepts now middle written =>
    have flows := queue_flowing flowing urgent sound
    rcases attempt_result flows (queue_waiting s urgent b) written with
      ⟨all, result⟩ | ⟨short, hard, -, result⟩ | ⟨short, -, result⟩
    · have wrote : ¬HardError outcome := by
        rintro ⟨errno, rfl, -⟩
        exact taken_nothing (queue_waiting s urgent b) flows rfl all
      rw [result]
      exact iff_of_false (fun truth => wrote (truth.1 rfl).2) (not_not.mpr ⟨accepts, now, all⟩)
    · rw [result]
      exact iff_of_true ⟨fun _ => ⟨now, hard⟩, fun _ soft => absurd ⟨now, hard⟩ soft⟩
        fun whole => short whole.2.2
    · rw [result]
      refine iff_of_true ⟨fun same => ?_, fun _ _ => ?_⟩ fun whole => short whole.2.2
      · split_ifs at same
      · split_ifs
        · exact .inr rfl
        · exact .inl rfl

/-- An idle socket without delay and three bytes to send. -/
def idleSocket : StreamSocket Nat := { newSocket true false false with loop := true }

def threeBytes : SendBuffer Nat := ⟨0, 3, 0, [[1, 2, 3]], false⟩

theorem three_bytes_sound : Sound threeBytes := ⟨by decide, by decide, by decide, by decide⟩

/-- The kernel takes two of the bytes. -/
theorem short_write_truthful :
    ∃ error after, send idleSocket false threeBytes (.wrote 2) = some (error, after) ∧
      Truthful idleSocket threeBytes (.wrote 2) error := by
  obtain ⟨error, after, ran, exact_⟩ := send_result_truthful (s := idleSocket)
    (.empty rfl rfl rfl) rfl three_bytes_sound false (.wrote 2)
  refine ⟨error, after, ran, exact_.mpr fun all => ?_⟩
  exact absurd all.2.2.2 (by decide)

/-- The kernel takes all of them, and the result is `chk_error_stream_write`. -/
theorem whole_write_reports_error :
    (send idleSocket false threeBytes (.wrote 3)).map
        (fun result => (result.1, result.2.wire, result.2.sendBytes)) =
      some (.streamWrite, [1, 2, 3], 0) := by
  decide +kernel

end Chuck.StreamSendResult
