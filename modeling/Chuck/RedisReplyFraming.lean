import Chuck.RedisReplyCodec

/-!
# Where replies end

A reply without nil arrays is finished by its last byte and by no earlier one,
in whatever pieces its bytes arrive. A cut may cost an integer its sign, so the
call that goes on is compared with the uncut run up to that sign: both find the
end of the reply at the same byte.
-/

namespace Chuck.RedisReplyFraming

open RedisParserModel RedisParserMachine RedisParserFragments RedisReplyCodec
open Support.StreamMachine

def checked (stack : Nat) (machine : Machine) (c : Byte) : Step Machine Halt :=
  if machine.phase = .text ∧ machine.node.type = some .bulk then .refuse (.fault, machine.tree)
  else step stack machine c

theorem checked_limited {stack : Nat} (machine : Machine) (c : Byte) (limited : Limited machine) :
    checked stack machine c = step stack machine c :=
  if_neg fun unlimited => limited unlimited.1 unlimited.2

theorem checked_more {stack : Nat} {machine next : Machine} {input : List Byte}
    (ran : run (checked stack) machine input = .more next) :
    run (step stack) machine input = .more next := by
  induction input generalizing machine with
  | nil => exact ran
  | cons c input ih =>
    by_cases unlimited : machine.phase = .text ∧ machine.node.type = some .bulk
    · rw [run_refuse _ (if_pos unlimited)] at ran
      cases ran
    have same : checked stack machine c = step stack machine c := if_neg unlimited
    cases taken : step stack machine c with
    | refuse final =>
      rw [run_refuse _ (same.trans taken)] at ran
      cases ran
    | read reached =>
      rw [run_read _ (same.trans taken)] at ran
      rw [run_read _ taken]
      cases reached with
      | more reached => exact ih ran
      | stop final => cases ran

structure Decodable (stack : Nat) (value : Resp) : Prop where
  wellFormed : WellFormed value
  clean : nilArrays value = 0
  levels : depth value ≤ stack

theorem decodable_read {stack : Nat} {value : Resp} (decodable : Decodable stack value)
    (rest : List Byte) :
    ∃ tree, run (step stack) (startAt []) (encode value ++ rest) = .stop (.ok, tree) rest := by
  obtain ⟨tree, -, -, ran⟩ := value_step stack value [] decodable.wellFormed decodable.clean
    (by simpa using decodable.levels) rest
  exact ⟨tree, ran⟩

theorem inside_reply {stack : Nat} {value : Resp} (decodable : Decodable stack value)
    {front back : List Byte} (split : encode value = front ++ back) (more : back ≠ []) :
    ∃ kept, run (step stack) (startAt []) front = .more kept ∧ Limited kept := by
  obtain ⟨tree, -, -, ran⟩ := @value_read stack (checked stack) checked_limited value []
    decodable.wellFormed decodable.clean (by simpa using decodable.levels) []
  rw [List.append_nil, split, run_append] at ran
  cases reached : run (checked stack) (startAt []) front with
  | stop final left =>
    rw [reached] at ran
    have leftover : left ++ back = [] := congrArg (fun out => match out with
      | .stop _ rest => rest
      | .more _ => []) ran
    exact absurd (List.append_eq_nil_iff.mp leftover).2 more
  | more kept =>
    refine ⟨kept, checked_more reached, fun text bulk => ?_⟩
    obtain ⟨c, back, rfl⟩ := List.exists_cons_of_ne_nil more
    rw [reached] at ran
    have stopped : run (checked stack) kept (c :: back) = .stop (.fault, kept.tree) (c :: back) :=
      run_refuse _ (if_pos ⟨text, bulk⟩) back
    cases stopped.symm.trans ran

/-! ## Cut runs against the uncut run -/

def Any (_ _ : ParseTree) : Prop := True

theorem any_congruent : Congruent Any := ⟨fun _ => trivial, fun _ _ _ _ => trivial⟩

/-- A run that was cut and the uncut one stand at the same byte of the same
token; integers may differ. -/
structure Track (lost kept : Machine) : Prop where
  frames : List.Forall₂ (FrameAlike Any) lost.frames kept.frames
  phase : lost.phase = kept.phase
  node : lost.node = kept.node ∨ kept.phase = .number ∧ lost.node.brk = kept.node.brk

theorem alike_track (lost kept : Machine) (alike : Alike Any lost kept) : Track lost kept :=
  ⟨alike.frames, alike.phase, .inl alike.node⟩

theorem integer_byte_none {node : Node} {c : Byte} (other : Node)
    (read : integerByte node c = none) : integerByte other c = none := by
  unfold integerByte at read ⊢
  split_ifs at read ⊢
  rfl

theorem number_track {stack : Nat} {frames others : List Frame}
    (alike : List.Forall₂ (FrameAlike Any) frames others) (room : frames.length < stack)
    (lost kept : Node) (brk : lost.brk = kept.brk) (c : Byte) :
    StepRel Track (HaltAlike Any)
      (step stack ⟨frames, .number, lost⟩ c)
      (step stack ⟨others, .number, kept⟩ c) := by
  have same : frames.length = others.length := alike.length_eq
  rw [step_shallow room, step_shallow (same ▸ room)]
  simp only [lineStep, brk]
  by_cases ordinary : c ≠ kept.brk
  · rw [if_pos ordinary, if_pos ordinary]
    cases readLost : integerByte lost c with
    | none =>
      rw [integer_byte_none kept readLost]
      exact .refuse _ _ ⟨rfl, trivial⟩
    | some nextLost =>
      cases readKept : integerByte kept c with
      | none =>
        rw [integer_byte_none lost readKept] at readLost
        cases readLost
      | some nextKept =>
        refine .read _ _ (.more _ _ ⟨alike, rfl, .inr ⟨rfl, ?_⟩⟩)
        have kept {node next : Node} (read : integerByte node c = some next) :
            next.brk = node.brk := (@line_byte_brk .number _ _ _ read).1
        exact (kept readLost).trans (brk.trans (kept readKept).symm)
  · rw [if_neg ordinary, if_neg ordinary]
    by_cases last : kept.brk = lf
    · rw [if_pos last, if_pos last]
      exact StepRel.mono alike_track (.read _ _ (close_alike any_congruent alike trivial))
    · rw [if_neg last, if_neg last]
      exact .read _ _ (.more _ _ ⟨alike, rfl, .inr ⟨rfl, rfl⟩⟩)

theorem step_track (stack : Nat) (lost kept : Machine) (c : Byte) (track : Track lost kept) :
    StepRel Track (HaltAlike Any) (step stack lost c) (step stack kept c) := by
  obtain ⟨frames, phase, lost⟩ := lost
  obtain ⟨others, _, kept⟩ := kept
  obtain ⟨alike, rfl, node⟩ := track
  rcases node with same | ⟨number, brk⟩
  · exact StepRel.mono alike_track (step_alike any_congruent stack _ _ c ⟨alike, rfl, same⟩)
  have number : phase = .number := number
  subst number
  by_cases room : frames.length < stack
  · exact number_track alike room lost kept brk c
  · have same : frames.length = others.length := alike.length_eq
    unfold step
    rw [if_pos (not_lt.mp room), if_pos (same ▸ not_lt.mp room)]
    exact .refuse _ _ ⟨rfl, trivial⟩

theorem run_track (stack : Nat) {lost kept : Machine} (track : Track lost kept)
    (input : List Byte) :
    OutcomeRel Track (HaltAlike Any) (run (step stack) lost input) (run (step stack) kept input) :=
  run_simulation (step stack) (step stack) Track (HaltAlike Any) (step_track stack) lost kept input
    track

theorem resume_track {stack : Nat} {lost kept : Machine} (sound : lost.Sound stack)
    (limited : Limited kept) (track : Track lost kept) : Track (resume lost) kept := by
  obtain ⟨frames, phase, lost⟩ := lost
  obtain ⟨others, _, kept⟩ := kept
  obtain ⟨alike, rfl, node⟩ := track
  rw [resume_eq sound.focus]
  cases phase with
  | number =>
    have brk : lost.brk = kept.brk := by
      rcases node with same | ⟨-, brk⟩
      · exact congrArg Node.brk same
      · exact brk
    exact ⟨alike, rfl, .inr ⟨rfl, brk⟩⟩
  | text =>
    rcases node with same | ⟨number, -⟩
    · have same : lost = kept := same
      subst same
      have line : lost.type ≠ some .bulk := limited rfl
      simp only [line, if_false]
      exact ⟨alike, rfl, .inl rfl⟩
    · cases number
  | opcode | length | body | count => exact ⟨alike, rfl, node⟩

/-! ## Replies that arrive in pieces -/

theorem feed_append (stack : Nat) (tree : ParseTree) (fed more : List (List Byte)) :
    feed stack tree (fed ++ more) =
      match feed stack tree fed with
      | (.retry, next, count) =>
        ((feed stack next more).1, (feed stack next more).2.1, count + (feed stack next more).2.2)
      | out => out := by
  induction fed generalizing tree with
  | nil => simp [feed]
  | cons piece fed ih =>
    rw [List.cons_append, feed, feed]
    obtain ⟨ret, next, rest⟩ := parse stack tree piece
    cases ret with
    | retry =>
      simp only [ih next]
      obtain ⟨ret, last, count⟩ := feed stack next fed
      cases ret <;> simp [Nat.add_assoc]
    | ok | err | fault | deep => rfl

structure Midway (stack : Nat) (fed : List (List Byte)) (tree : ParseTree) : Prop where
  solid : ∀ piece ∈ fed, piece ≠ []
  asked : feed stack parseTreeNew fed = (.retry, tree, fed.flatten.length)
  tracks : ∃ lost kept, tree = lost.tree ∧ lost.Sound stack ∧ Track lost kept ∧
    run (step stack) (startAt []) fed.flatten = .more kept

theorem midway_start (stack : Nat) : Midway stack [] parseTreeNew :=
  ⟨by simp, rfl, startAt [], startAt [], rfl, fresh_sound stack, ⟨.nil, rfl, .inl rfl⟩, rfl⟩

section Calls

variable {stack : Nat} {value : Resp} (decodable : Decodable stack value)
  {fed : List (List Byte)} {tree : ParseTree} (midway : Midway stack fed tree)

include decodable midway

theorem midway_more {input back : List Byte} (given : input ≠ []) (more : back ≠ [])
    (split : encode value = fed.flatten ++ (input ++ back)) :
    ∃ next, parse stack tree input = (.retry, next, []) ∧ Midway stack (fed ++ [input]) next := by
  obtain ⟨solid, asked, lost, kept, rfl, sound, track, reached⟩ := midway
  obtain ⟨here, hereRan, limited⟩ := inside_reply decodable split (by simp [given])
  obtain rfl : kept = here := by
    rw [reached] at hereRan
    cases hereRan
    rfl
  obtain ⟨after, afterRan, -⟩ := @inside_reply stack value decodable (fed.flatten ++ input) back
    (by rw [split, List.append_assoc]) more
  have keptRan : run (step stack) kept input = .more after := by
    rw [run_append, reached] at afterRan
    exact afterRan
  have simulated := run_track stack (resume_track sound limited track) input
  have called := parse_machine stack lost input sound.ready given
  rw [keptRan] at simulated
  generalize lostRan : run (step stack) (resume lost) input = outcome at simulated called
  cases simulated with
  | more next _ tracked =>
    refine ⟨next.tree, called, ?_, ?_, next, after, rfl, run_sound (resume_sound sound) lostRan,
      tracked, ?_⟩
    · intro piece member
      rcases List.mem_append.mp member with old | new
      · exact solid piece old
      · rw [List.mem_singleton.mp new]
        exact given
    · rw [feed_append, asked]
      simp only [feed, called]
      simp [codeOf]
    · rw [List.flatten_append, List.flatten_singleton]
      exact afterRan

theorem midway_ends {back : List Byte} (more : back ≠ [])
    (split : encode value = fed.flatten ++ back) (rest : List Byte) :
    ∃ final, parse stack tree (back ++ rest) = (.ok, final, rest) ∧
      feed stack parseTreeNew (fed ++ [back]) = (.ok, final, (encode value).length) := by
  obtain ⟨solid, asked, lost, kept, rfl, sound, track, reached⟩ := midway
  obtain ⟨here, hereRan, limited⟩ := inside_reply decodable split more
  obtain rfl : kept = here := by
    rw [reached] at hereRan
    cases hereRan
    rfl
  obtain ⟨whole, wholeRan⟩ := decodable_read decodable []
  rw [List.append_nil, split, run_append, reached] at wholeRan
  have simulated := run_track stack (resume_track sound limited track) back
  rw [show run (step stack) kept back = .stop (.ok, whole) [] from wholeRan] at simulated
  have called := parse_machine stack lost back sound.ready more
  have calledOn := parse_machine stack lost (back ++ rest) sound.ready (by simp [more])
  rw [run_append] at calledOn
  generalize run (step stack) (resume lost) back = outcome at simulated called calledOn
  cases simulated with
  | stop final _ _ related =>
    obtain ⟨ret, final⟩ := final
    obtain rfl : ret = .ok := related.1
    refine ⟨final, calledOn, ?_⟩
    rw [feed_append, asked]
    simp only [feed, called]
    simp [codeOf, split]

end Calls

end Chuck.RedisReplyFraming
