import Chuck.RedisParserFragments

/-!
# The shape of the trees the Redis reply parser makes

What one byte does to the type of the reply that is being read and to the arrays
around it. Two facts about whole runs follow: a number is only ever read for a
reply of that type, and a finished array has as many elements as it announced,
in whatever fragments it was fed.
-/

namespace Chuck.RedisParserShapes

open RedisParserModel RedisParserMachine RedisParserFragments Support.StreamMachine

variable {frames : List Frame} {next : Machine}

variable {stack : Nat} {machine : Machine}

/-! ## Numbers -/

def Numbered (machine : Machine) : Prop :=
  machine.phase = .number → machine.node.reply.type = .integer

theorem start_numbered (frames : List Frame) : Numbered (startAt frames) := nofun

theorem step_numbered (numbered : Numbered machine) (c : Byte) :
    (step stack machine c).All Numbered fun _ => True := by
  refine (step_advance stack machine c).imp (fun next advance => ?_) fun _ => id
  cases advance with
  | elsewhere _ text number length => exact fun here => absurd here number
  | opens op start read =>
    intro number
    cases op with
    | integer => rfl
    | bulk =>
      change (if _ then Phase.body else Phase.length) = .number at number
      split_ifs at number
    | status | error | multi => cases number
  | accepts node ordinary read =>
    intro here
    rw [show machine.phase = .number from here] at read
    rcases integer_byte_some read with ⟨-, rfl⟩ | ⟨-, rfl⟩
    · exact numbered here
    · exact numbered here
  | turns first more => exact numbered
  | unlimited length last given all => exact Phase.noConfusion

theorem run_numbered {input : List Byte} (numbered : Numbered machine)
    (paused : run (step stack) machine input = .more next) : Numbered next :=
  (run_all (step stack) (fun _ c held => step_numbered held c) numbered input).paused paused

/-! ## Arrays -/

mutual

def Whole : ReplyTree → Prop
  | .mk type _ _ _ elements element =>
    (type = .array → elements = element.length) ∧ AllWhole element

def AllWhole : List ReplyTree → Prop
  | [] => True
  | reply :: more => Whole reply ∧ AllWhole more

end

theorem replies_length (childs : List ParseTree) : (replies childs).length = childs.length := by
  induction childs with
  | nil => rfl
  | cons child more ih => rw [replies, List.length_cons, ih, List.length_cons]

theorem all_whole_snoc {childs : List ParseTree} {child : ParseTree}
    (before : AllWhole (replies childs)) (last : Whole child.reply) :
    AllWhole (replies (childs ++ [child])) := by
  induction childs with
  | nil => exact ⟨last, trivial⟩
  | cons first childs ih => exact ⟨before.1, ih before.2⟩

/-- The finished children of an array, and how many are still to come. -/
structure Frame.Whole (frame : Frame) : Prop where
  counted : frame.node.reply.elements = frame.before.length + 1 + frame.left
  before : AllWhole (replies frame.before)

/-- Only an array has the type of one while it is being read. -/
structure Machine.Whole (machine : Machine) : Prop where
  focus : machine.node.type ≠ some .multi → machine.node.reply.type ≠ .array
  frames : ∀ frame ∈ machine.frames, Frame.Whole frame

theorem start_whole (whole : ∀ frame ∈ frames, Frame.Whole frame) :
    Machine.Whole (startAt frames) :=
  ⟨fun _ => ReplyType.noConfusion, whole⟩

theorem close_whole {tree : ParseTree} (whole : ∀ frame ∈ frames, Frame.Whole frame)
    (child : Whole tree.reply) :
    (close frames tree).All Machine.Whole fun final => final.1 = .ok → Whole final.2.reply := by
  induction frames generalizing tree with
  | nil => exact .stop _ fun _ => child
  | cons frame frames ih =>
    obtain ⟨node, before, left⟩ := frame
    obtain ⟨⟨counted, done⟩, outer⟩ := List.forall_mem_cons.mp whole
    cases left with
    | zero =>
      refine ih outer ⟨fun _ => ?_, all_whole_snoc done child⟩
      rw [replies_length, List.length_append]
      exact counted
    | succ left =>
      refine .more _ (start_whole (List.forall_mem_cons.mpr ⟨⟨?_, ?_⟩, outer⟩))
      · change node.reply.elements = (before ++ [tree]).length + 1 + left
        have announced : node.reply.elements = before.length + 1 + (left + 1) := counted
        rw [List.length_append, announced, List.length_singleton]
        omega
      · exact all_whole_snoc done child

theorem take_whole {op : OpCode} {node : Node} (focus : op ≠ .multi → node.reply.type ≠ .array)
    (typed : node.type = some op) (whole : ∀ frame ∈ frames, Frame.Whole frame) :
    Machine.Whole ⟨frames, takePhase op node, takeNode op node⟩ := by
  refine ⟨fun other => ?_, whole⟩
  have kind : op ≠ .multi := by
    rintro rfl
    exact other typed
  cases op <;> exact focus kind

theorem step_whole (sound : machine.Sound stack) (whole : Machine.Whole machine) (c : Byte) :
    (step stack machine c).All Machine.Whole fun final => final.1 = .ok → Whole final.2.reply := by
  obtain ⟨frames, phase, node⟩ := machine
  have focus : PhaseOk phase node := sound.focus
  by_cases room : frames.length < stack
  · have still {phase : Phase} {next : Node} (same : next.type = node.type)
        (kind : next.reply.type = node.reply.type ∨ next.reply.type = .nil) :
        Machine.Whole ⟨frames, phase, next⟩ := by
      refine ⟨fun other => ?_, whole.frames⟩
      rcases kind with kept | nil
      · exact kept ▸ whole.focus (same ▸ other)
      · exact nil ▸ ReplyType.noConfusion
    -- a leaf is no array, and an array without elements announced none
    have leaf {ended : Node} (other : node.type ≠ some .multi)
        (kind : ended.reply.type = node.reply.type) :
        (close frames (.mk ended [])).All Machine.Whole
          fun final => final.1 = .ok → Whole final.2.reply :=
      close_whole whole.frames ⟨fun array => absurd (kind ▸ array) (whole.focus other), trivial⟩
    rw [step_shallow room]
    cases phase with
    | opcode =>
      cases opCode c with
      | none => exact .read _ (.stop _ Ret.noConfusion)
      | some op =>
        refine .read _ (.more _ (take_whole (fun other => ?_) rfl whole.frames))
        cases op with
        | multi => exact absurd rfl other
        | status | error | integer | bulk => exact ReplyType.noConfusion
    | text =>
      have other : node.type ≠ some .multi := by
        rcases focus.1 with kind | kind | kind <;> simp [kind]
      refine line_step_all (fun next _ stored => ?_) (fun _ _ => Ret.noConfusion)
        (fun _ _ => close_string_all (leaf other rfl) Ret.noConfusion)
        fun _ _ => still rfl (.inl rfl)
      obtain ⟨-, rfl⟩ := store_byte_some stored
      exact still rfl (.inl rfl)
    | number =>
      refine line_step_all (fun next _ read => ?_) (fun _ _ => Ret.noConfusion)
        (fun _ _ => leaf (by simp [focus.1]) rfl) fun _ _ => still rfl (.inl rfl)
      rcases integer_byte_some read with ⟨-, rfl⟩ | ⟨-, rfl⟩
      · exact still rfl (.inl rfl)
      · exact still rfl (.inl rfl)
    | length =>
      refine line_step_all (fun next _ read => ?_) (fun _ _ => Ret.noConfusion)
        (fun _ _ => close_length_all (fun _ => leaf (by simp [focus.1]) rfl)
          fun _ => still rfl (.inl rfl))
        fun _ _ => still rfl (.inl rfl)
      rcases len_byte_some read with ⟨-, rfl⟩ | ⟨-, rfl⟩
      · exact still rfl (.inr rfl)
      · exact still rfl (.inl rfl)
    | body =>
      refine bulk_step_all (fun next _ stored => ?_) (fun _ _ => Ret.noConfusion)
        (fun _ => close_string_all (leaf (by simp [focus.1]) rfl) Ret.noConfusion)
        fun _ _ => still rfl (.inl rfl)
      obtain ⟨-, rfl⟩ := store_byte_some stored
      exact still rfl (.inl rfl)
    | count =>
      refine line_step_all (fun next _ read => ?_) (fun _ _ => Ret.noConfusion)
        (fun _ _ => close_count_all
          (fun none => close_whole whole.frames ⟨fun _ => none, trivial⟩)
          (fun _ => Ret.noConfusion) fun left counted => ?_)
        fun _ _ => still rfl (.inl rfl)
      · rcases elements_byte_some read with ⟨-, rfl⟩ | ⟨-, rfl⟩
        · exact still rfl (.inr rfl)
        · exact still rfl (.inl rfl)
      · refine start_whole (List.forall_mem_cons.mpr ⟨⟨?_, trivial⟩, whole.frames⟩)
        exact counted.trans (show left + 1 = 0 + 1 + left by omega)
  · unfold step
    rw [if_pos (Nat.not_lt.mp room)]
    exact .refuse _ Ret.noConfusion

theorem run_whole (sound : machine.Sound stack) (whole : Machine.Whole machine)
    (input : List Byte) :
    (run (step stack) machine input).All (fun next => next.Sound stack ∧ Machine.Whole next)
      fun final => True ∧ (final.1 = .ok → Whole final.2.reply) :=
  run_all (step stack) (fun _ c held =>
    (step_keeps_sound held.1 c).and (step_whole held.1 held.2 c)) ⟨sound, whole⟩ input

theorem resume_whole (whole : Machine.Whole machine) : Machine.Whole (resume machine) := by
  unfold resume
  cases typed : machine.node.type with
  | none => exact ⟨whole.focus, whole.frames⟩
  | some op =>
    apply take_whole _ typed whole.frames
    intro other
    apply whole.focus
    rw [typed]
    exact fun same => other (Option.some.inj same)

theorem feed_whole (fragments : List (List Byte)) (machine : Machine) (sound : machine.Sound stack)
    (whole : Machine.Whole machine) (solid : ∀ f ∈ fragments, f ≠ []) {reply : ReplyTree}
    {consumed : Nat} (fed : observe (feed stack machine.tree fragments) = (.ok, reply, consumed)) :
    Whole reply := by
  induction fragments generalizing machine consumed with
  | nil =>
    have code := congrArg Prod.fst fed
    cases code
  | cons fragment more ih =>
    have given := solid fragment List.mem_cons_self
    have followed := run_whole (resume_sound sound) (resume_whole whole) fragment
    cases ended : run (step stack) (resume machine) fragment with
    | more next =>
      rw [feed_paused sound given ended] at fed
      have code := congrArg Prod.fst fed
      have tree := congrArg (fun out => out.2.1) fed
      have later : observe (feed stack next.tree more) =
          (.ok, reply, (observe (feed stack next.tree more)).2.2) :=
        Prod.ext code (Prod.ext tree rfl)
      obtain ⟨sound, whole⟩ := followed.paused ended
      exact ih next sound whole (List.forall_mem_cons.mp solid).2 later
    | stop final left =>
      rw [feed_stopped sound given ended] at fed
      obtain ⟨ret, tree⟩ := final
      have code : ret = .ok := congrArg Prod.fst fed
      have same : tree.reply = reply := congrArg (fun out => out.2.1) fed
      subst code
      exact same ▸ (followed.stopped ended).2 rfl

end Chuck.RedisParserShapes
