import Chuck.RedisParserMachine
import Mathlib.Data.List.Forall2

/-!
# Feeding the Redis reply parser in fragments

A reply usually arrives in several reads, and `data_cb` calls `parse` once per
fragment on the same tree. The machine run tells what an uncut input does; a
new call differs from going on in two places only (`resume_eq`). This module
follows both to the end of the input and so finds the byte strings for which
the cuts do not matter.
-/

namespace Chuck.RedisParserFragments

open RedisParserModel RedisParserMachine Support.StreamMachine List

variable {stack : Nat} {machine next : Machine} {c : Byte} {frames others : List Frame}
  {back : List Byte} {node : Node} {tree other : ParseTree} {phase : Phase}
  {finish : Node → Next Machine Halt}

/-- The fragments one after another, as long as `parse` asks for more: code,
tree and number of bytes consumed. -/
def feed (stack : Nat) : ParseTree → List (List Byte) → Ret × ParseTree × Nat
  | tree, [] => (.retry, tree, 0)
  | tree, fragment :: more =>
    match parse stack tree fragment with
    | (.retry, tree, rest) =>
      let (ret, tree, consumed) := feed stack tree more
      (ret, tree, fragment.length - rest.length + consumed)
    | (ret, tree, rest) => (ret, tree, fragment.length - rest.length)

def observe (out : Ret × ParseTree × Nat) : Ret × ReplyTree × Nat :=
  (out.1, out.2.1.reply, out.2.2)

mutual

def focusNode : ParseTree → Node
  | .mk node childs => focusAmong node childs node.pos

def focusAmong (node : Node) : List ParseTree → Nat → Node
  | [], _ => node
  | child :: _, 0 => focusNode child
  | _ :: more, index + 1 => focusAmong node more index

end

/-! ## Runs that differ in finished children only -/

section Alike

variable (Rel : ParseTree → ParseTree → Prop)

structure FrameAlike (left right : Frame) : Prop where
  node : left.node = right.node
  count : left.left = right.left
  before : List.Forall₂ Rel left.before right.before

structure Alike (left right : Machine) : Prop where
  frames : List.Forall₂ (FrameAlike Rel) left.frames right.frames
  phase : left.phase = right.phase
  node : left.node = right.node

def HaltAlike (left right : Halt) : Prop := left.1 = right.1 ∧ Rel left.2 right.2

structure Congruent : Prop where
  refl : ∀ tree, Rel tree tree
  array : ∀ node childs others, List.Forall₂ Rel childs others →
    Rel (.mk node childs) (.mk node others)

variable {Rel} (congruent : Congruent Rel)

include congruent

theorem plug_alike (alike : List.Forall₂ (FrameAlike Rel) frames others)
    (related : Rel tree other) : Rel (plug frames tree) (plug others other) := by
  induction alike generalizing tree other with
  | nil => exact related
  | cons first rest ih =>
    refine ih ?_
    unfold Frame.tree
    rw [first.node, first.count]
    refine congruent.array _ _ _ (rel_append first.before (.cons related ?_))
    exact List.forall₂_same.mpr (fun tree _ => congruent.refl tree)

theorem close_alike
    (alike : List.Forall₂ (FrameAlike Rel) frames others) (related : Rel tree other) :
    NextRel (Alike Rel) (HaltAlike Rel) (close frames tree) (close others other) := by
  induction alike generalizing tree other with
  | nil => exact .stop _ _ ⟨rfl, related⟩
  | @cons frame another frames others first rest ih =>
    have finished : List.Forall₂ Rel (frame.before ++ [tree]) (another.before ++ [other]) :=
      rel_append first.before (.cons related .nil)
    unfold close
    rw [← first.count]
    cases frame.left with
    | zero =>
      refine ih ?_
      rw [first.node]
      exact congruent.array _ _ _ finished
    | succ left =>
      refine .more _ _ ⟨.cons ⟨?_, rfl, finished⟩ rest, rfl, rfl⟩
      simp only [nextFrame, first.node]

omit congruent

theorem line_step_alike {onByte : Node → Byte → Option Node} {bad : Ret}
    {other : Node → Next Machine Halt} (congruent : Congruent Rel)
    (alike : List.Forall₂ (FrameAlike Rel) frames others)
    (finishes : ∀ node, NextRel (Alike Rel) (HaltAlike Rel) (finish node) (other node))
    (node : Node) (c : Byte) :
    StepRel (Alike Rel) (HaltAlike Rel) (lineStep frames phase onByte bad finish node c)
      (lineStep others phase onByte bad other node c) := by
  unfold lineStep
  split_ifs
  · cases onByte node c with
    | some next => exact .read _ _ (.more _ _ ⟨alike, rfl, rfl⟩)
    | none => exact .refuse _ _ ⟨rfl, plug_alike congruent alike (congruent.refl _)⟩
  · exact .read _ _ (finishes node)
  · exact .read _ _ (.more _ _ ⟨alike, rfl, rfl⟩)

section

variable {frames others : List Frame} (congruent : Congruent Rel)
  (alike : List.Forall₂ (FrameAlike Rel) frames others) (node : Node)

include congruent alike

theorem close_string_alike :
    NextRel (Alike Rel) (HaltAlike Rel) (closeString frames node) (closeString others node) := by
  unfold closeString
  split_ifs
  · exact close_alike congruent alike (congruent.refl _)
  · exact .stop _ _ ⟨rfl, plug_alike congruent alike (congruent.refl _)⟩

theorem close_length_alike :
    NextRel (Alike Rel) (HaltAlike Rel) (closeLength frames node) (closeLength others node) := by
  unfold closeLength
  simp only
  by_cases nil : node.reply.type = .nil
  · rw [if_pos nil, if_pos nil]
    exact close_alike congruent alike (congruent.refl _)
  · rw [if_neg nil, if_neg nil]
    exact .more _ _ ⟨alike, rfl, rfl⟩

theorem close_count_alike :
    NextRel (Alike Rel) (HaltAlike Rel) (closeCount frames node) (closeCount others node) := by
  unfold closeCount
  cases elements : node.reply.elements with
  | zero => exact close_alike congruent alike (congruent.refl _)
  | succ left =>
    simp only
    split_ifs
    · exact .stop _ _ ⟨rfl, plug_alike congruent alike (congruent.refl _)⟩
    · exact .more _ _ ⟨.cons ⟨rfl, rfl, .nil⟩ alike, rfl, rfl⟩

end

theorem step_alike (congruent : Congruent Rel) (stack : Nat) (left right : Machine) (c : Byte)
    (alike : Alike Rel left right) :
    StepRel (Alike Rel) (HaltAlike Rel) (step stack left c) (step stack right c) := by
  obtain ⟨frames, phase, node⟩ := left
  obtain ⟨others, _, _⟩ := right
  obtain ⟨alike, rfl, rfl⟩ := alike
  have same : frames.length = others.length := alike.length_eq
  by_cases room : frames.length < stack
  · rw [step_shallow room, step_shallow (same ▸ room)]
    cases phase with
    | opcode =>
      cases opCode c with
      | none => exact .read _ _ (.stop _ _ ⟨rfl, plug_alike congruent alike (congruent.refl _)⟩)
      | some op => exact .read _ _ (.more _ _ ⟨alike, rfl, rfl⟩)
    | text =>
      exact line_step_alike congruent alike
        (fun node => close_string_alike congruent alike _) node c
    | number =>
      exact line_step_alike congruent alike
        (fun node => close_alike congruent alike (congruent.refl _)) node c
    | length =>
      exact line_step_alike congruent alike (close_length_alike congruent alike) node c
    | body =>
      simp only [bulkStep]
      split_ifs
      · cases storeByte node c with
        | some next => exact .read _ _ (.more _ _ ⟨alike, rfl, rfl⟩)
        | none => exact .refuse _ _ ⟨rfl, plug_alike congruent alike (congruent.refl _)⟩
      · exact .read _ _ (close_string_alike congruent alike _)
      · exact .read _ _ (.more _ _ ⟨alike, rfl, rfl⟩)
    | count =>
      exact line_step_alike congruent alike (close_count_alike congruent alike) node c
  · unfold step
    rw [if_pos (Nat.not_lt.mp room), if_pos (same ▸ Nat.not_lt.mp room)]
    exact .refuse _ _ ⟨rfl, plug_alike congruent alike (congruent.refl _)⟩

theorem run_alike (congruent : Congruent Rel) (stack : Nat) {left right : Machine}
    (alike : Alike Rel left right) (input : List Byte) :
    OutcomeRel (Alike Rel) (HaltAlike Rel) (run (step stack) left input)
      (run (step stack) right input) :=
  run_simulation (step stack) (step stack) (Alike Rel) (HaltAlike Rel)
    (step_alike congruent stack) left right input alike

theorem proceed_alike (congruent : Congruent Rel) (stack : Nat)
    (alike : List.Forall₂ (FrameAlike Rel) frames others)
    (related : Rel tree other) (rest : List Byte) :
    OutcomeRel (Alike Rel) (HaltAlike Rel) (proceed (step stack) (close frames tree) rest)
      (proceed (step stack) (close others other) rest) :=
  proceed_simulation (step stack) (step stack) (Alike Rel) (HaltAlike Rel)
    (step_alike congruent stack) (close_alike congruent alike related) rest

end Alike

/-! ## What a finished node leaves in the reply -/

abbrev Scalar := ReplyType × Int × Int × List Byte × Nat

def scalarOf (node : Node) : Scalar :=
  (node.reply.type, node.reply.integer, node.reply.len, node.reply.bytes, node.reply.elements)

mutual

def scalars : ReplyTree → List Scalar
  | .mk type integer len bytes elements element =>
    scalarsAmong element ++ [(type, integer, len, bytes, elements)]

def scalarsAmong : List ReplyTree → List Scalar
  | [] => []
  | reply :: more => scalars reply ++ scalarsAmong more

end

theorem scalars_among_append (front back : List ParseTree) :
    scalarsAmong (replies (front ++ back)) =
      scalarsAmong (replies front) ++ scalarsAmong (replies back) := by
  induction front with
  | nil => rfl
  | cons tree front ih =>
    simp only [cons_append, replies, scalarsAmong, ih, append_assoc]

theorem scalars_array (node : Node) (childs : List ParseTree) :
    scalars (ParseTree.mk node childs).reply =
      scalarsAmong (replies childs) ++ [scalarOf node] := by
  simp only [ParseTree.reply, scalars, scalarOf]

def settled : List Frame → List Scalar
  | [] => []
  | frame :: frames => settled frames ++ scalarsAmong (replies frame.before)

theorem plug_scalars (frames : List Frame) (tree : ParseTree) :
    settled frames ++ scalars tree.reply <+: scalars (plug frames tree).reply := by
  induction frames generalizing tree with
  | nil => exact prefix_rfl
  | cons frame frames ih =>
    refine List.IsPrefix.trans ?_ (ih (frame.tree tree))
    unfold Frame.tree
    rw [scalars_array, scalars_among_append]
    simp only [settled, replies, scalarsAmong, append_assoc]
    exact prefix_append_right_inj _ |>.mpr
      (prefix_append_right_inj _ |>.mpr (prefix_append _ _))

abbrev Keeps (front : List Scalar) : Next Machine Halt → Prop :=
  Next.All (fun next => front <+: settled next.frames) fun final => front <+: scalars final.2.reply

theorem Keeps.mono {front longer : List Scalar} {next : Next Machine Halt}
    (keeps : Keeps longer next) (shorter : front <+: longer) : Keeps front next :=
  keeps.imp (fun _ => shorter.trans) fun _ => shorter.trans

theorem close_keeps (frames : List Frame) (tree : ParseTree) :
    Keeps (settled frames ++ scalars tree.reply) (close frames tree) := by
  induction frames generalizing tree with
  | nil => exact .stop _ prefix_rfl
  | cons frame frames ih =>
    obtain ⟨node, before, left⟩ := frame
    cases left with
    | zero =>
      refine (ih (.mk { node with pos := node.pos + 1 } (before ++ [tree]))).mono ?_
      rw [scalars_array, scalars_among_append]
      simp only [settled, replies, scalarsAmong, append_assoc, append_nil]
      exact prefix_append_right_inj _ |>.mpr
        (prefix_append_right_inj _ |>.mpr (prefix_append _ _))
    | succ left =>
      refine .more _ ?_
      simp only [settled, startAt, nextFrame, scalars_among_append, replies,
        scalarsAmong, append_assoc, append_nil]
      exact prefix_rfl

theorem plug_keeps (frames : List Frame) (tree : ParseTree) :
    settled frames <+: scalars (plug frames tree).reply :=
  (prefix_append _ _).trans (plug_scalars frames tree)

theorem close_text_keeps (frames : List Frame) (node : Node) :
    Keeps (settled frames ++ [scalarOf (endText node)]) (closeText frames node) := by
  unfold closeText closeString
  split_ifs
  · exact close_keeps frames (.mk (endText node) [])
  · exact .stop _ (plug_scalars frames (.mk (endText node) []))

theorem step_keeps (stack : Nat) (machine : Machine) (c : Byte) :
    (step stack machine c).All (fun next => settled machine.frames <+: settled next.frames)
      fun final => settled machine.frames <+: scalars final.2.reply := by
  refine step_cases ?_ ?_ ?_ ?_ ?_ stack machine.phase machine.node c
  · intro phase node
    exact .read _ (.more _ prefix_rfl)
  · intro node left
    refine .read _ (.more _ ?_)
    simp only [startAt, settled, replies, scalarsAmong, append_nil]
    exact prefix_rfl
  · intro node
    exact .read _ ((close_keeps machine.frames _).mono (prefix_append _ _))
  · intro ret node _ _
    exact .read _ (.stop _ (plug_keeps machine.frames _))
  · intro ret node _ _
    exact .refuse _ (plug_keeps machine.frames _)

theorem run_keeps (stack : Nat) {front : List Scalar}
    (kept : front <+: settled machine.frames) (input : List Byte) :
    front <+: scalars (codeOf (run (step stack) machine input)).2.1.reply := by
  have followed : (run (step stack) machine input).All (fun next => front <+: settled next.frames)
      fun final => front <+: scalars final.2.reply :=
    run_all (step stack) (fun state c held =>
      (step_keeps stack state c).imp (fun _ => held.trans) fun _ => held.trans) kept input
  generalize run (step stack) machine input = out at followed
  cases followed with
  | more next kept => exact kept.trans (plug_keeps next.frames _)
  | stop final left kept => exact kept

theorem proceed_keeps (stack : Nat) {front : List Scalar} {next : Next Machine Halt}
    (keeps : Keeps front next) (input : List Byte) :
    front <+: scalars (codeOf (proceed (step stack) next input)).2.1.reply := by
  cases keeps with
  | more next kept => exact run_keeps stack kept input
  | stop final kept => exact kept

/-! ## A stopped run has a verdict -/

theorem step_decided (stack : Nat) (machine : Machine) (c : Byte) :
    (step stack machine c).All (fun _ => True) fun final => final.1 ≠ .retry :=
  step_cases (fun _ _ => .read _ (.more _ trivial)) (fun _ _ => .read _ (.more _ trivial))
    (fun _ => .read _ (close_all (fun _ => trivial) (fun _ => Ret.noConfusion) machine.frames _))
    (fun _ _ _ verdict => .read _ (.stop _ verdict)) (fun _ _ _ verdict => .refuse _ verdict)
    stack machine.phase machine.node c

theorem run_decided {input left : List Byte} {final : Halt}
    (stopped : run (step stack) machine input = .stop final left) : final.1 ≠ .retry :=
  (run_all (step stack) (fun state c _ => step_decided stack state c) trivial input).stopped stopped

/-! ## Feeding in terms of runs -/

def view (total : Nat) (out : Ret × ParseTree × List Byte) : Ret × ReplyTree × Nat :=
  (out.1, out.2.1.reply, total - out.2.2.length)

section Feeding

variable {stack : Nat} {machine : Machine} {fragment : List Byte}

theorem feed_paused (sound : machine.Sound stack) (given : fragment ≠ [])
    (paused : run (step stack) (resume machine) fragment = .more next) (more : List (List Byte)) :
    observe (feed stack machine.tree (fragment :: more)) =
      ((observe (feed stack next.tree more)).1, (observe (feed stack next.tree more)).2.1,
        fragment.length + (observe (feed stack next.tree more)).2.2) := by
  rw [feed, parse_machine stack machine fragment sound.ready given, paused]
  rfl

theorem feed_stopped (sound : machine.Sound stack) (given : fragment ≠ []) {final : Halt}
    {left : List Byte} (stopped : run (step stack) (resume machine) fragment = .stop final left)
    (more : List (List Byte)) :
    observe (feed stack machine.tree (fragment :: more)) =
      (final.1, final.2.reply, fragment.length - left.length) := by
  have verdict := run_decided stopped
  obtain ⟨ret, tree⟩ := final
  rw [feed, parse_machine stack machine fragment sound.ready given, stopped]
  cases ret with
  | ok => rfl
  | retry => exact absurd rfl verdict
  | err => rfl
  | fault => rfl
  | deep => rfl

theorem feed_single (sound : machine.Sound stack) (given : fragment ≠ []) :
    observe (feed stack machine.tree [fragment]) =
      view fragment.length (codeOf (run (step stack) (resume machine) fragment)) := by
  cases ended : run (step stack) (resume machine) fragment with
  | more next => rw [feed_paused sound given ended]; rfl
  | stop final left => rw [feed_stopped sound given ended]; rfl

end Feeding

/-! ## Cuts that do not matter -/

/-- The rest of an integer line: the digits read so far and still to come,
whether another minus sign comes, and what follows the line. -/
def numberTail : Byte → Int → List Byte → Option (Int × Bool × List Byte)
  | _, _, [] => none
  | brk, value, c :: rest =>
    if c ≠ brk then
      if c = minus then (numberTail brk value rest).map (fun tail => (tail.1, true, tail.2.2))
      else if isNum c then numberTail brk (toInt64 (value * 10 + digit c)) rest
      else none
    else if brk = lf then some (value, false, rest)
    else numberTail lf value rest

/-- A cut in front of `back` is harmless at this node. An integer whose minus
sign has been read loses it, which shows unless the value is its own negation.
A string announced with length `-2` is read again from its length line, which
shows unless nothing but the first terminator follows. -/
structure CutSafe (node : Node) (back : List Byte) : Prop where
  integer : node.type = some .integer → node.want = sizeMax → ∀ value rest,
    numberTail node.brk node.reply.integer back = some (value, false, rest) →
      toInt64 (-value) = value
  bulk : node.type = some .bulk → node.want = 0 → node.reply.str ≠ .null →
    node.brk = cr ∧ back = [cr]

theorem number_tail_append (brk : Byte) (value : Int) (front back : List Byte)
    (tail : Int × Bool × List Byte) (found : numberTail brk value front = some tail) :
    numberTail brk value (front ++ back) = some (tail.1, tail.2.1, tail.2.2 ++ back) := by
  induction front generalizing brk value tail with
  | nil => cases found
  | cons c front ih =>
    rw [numberTail] at found
    rw [cons_append, numberTail]
    split_ifs at found ⊢ with ordinary sign number last
    · obtain ⟨inner, foundInner, rfl⟩ := Option.map_eq_some_iff.mp found
      rw [ih brk value inner foundInner]
      rfl
    · exact ih _ _ _ found
    · cases found
      rfl
    · exact ih _ _ _ found

theorem CutSafe.front {front : List Byte} (safe : CutSafe node (front ++ back)) (given : front ≠ [])
    (more : back ≠ []) : CutSafe node front := by
  refine ⟨fun kind sign value rest found => ?_, fun kind line str => ?_⟩
  · exact safe.integer kind sign value _ (number_tail_append _ _ front back _ found)
  · obtain ⟨-, single⟩ := safe.bulk kind line str
    have lengths := congrArg List.length single
    have := length_pos_iff.mpr given
    have := length_pos_iff.mpr more
    simp only [length_append, length_cons, length_nil] at lengths
    omega

theorem to_int64_sign (value : Int) : toInt64 (value * (sizeMax : Nat)) = toInt64 (-value) := by
  have apart : value * (sizeMax : Nat) - -value = value * (2 ^ 64 : Nat) := by
    unfold sizeMax
    omega
  rw [to_int64_bmod, to_int64_bmod, Int.bmod_eq_bmod_iff_bmod_sub_eq_zero, apart]
  exact Int.mul_bmod_left ..

def SameReply (left right : ParseTree) : Prop := left.reply = right.reply

theorem same_reply_congruent : Congruent SameReply := by
  refine ⟨fun _ => rfl, fun node childs others related => ?_⟩
  have same : replies childs = replies others := by
    induction related with
    | nil => rfl
    | cons first _ ih => rw [replies, replies, first, ih]
  simp only [SameReply, ParseTree.reply, same]

def NodeLag (lost kept : Node) : Prop :=
  lost = kept ∨ (kept.type = some .integer ∧ kept.want = sizeMax ∧
    lost = { kept with want := 1 })

def Lag (lost kept : Machine) : Prop :=
  lost.tree.reply = kept.tree.reply ∧ NodeLag lost.node kept.node

theorem alike_lag (lost kept : Machine) (alike : Alike SameReply lost kept) : Lag lost kept := by
  refine ⟨?_, .inl alike.node⟩
  unfold Machine.tree
  rw [alike.node]
  exact plug_alike same_reply_congruent alike.frames rfl

theorem NodeLag.safe {lost kept : Node} (lag : NodeLag lost kept)
    (safe : CutSafe kept back) : CutSafe lost back := by
  rcases lag with rfl | ⟨kind, -, rfl⟩
  · exact safe
  · refine ⟨fun _ sign => ?_, fun bulk => ?_⟩
    · simp [sizeMax] at sign
    · simp [kind] at bulk

theorem frames_alike_refl (frames : List Frame) :
    List.Forall₂ (FrameAlike SameReply) frames frames :=
  List.forall₂_same.mpr fun _ _ => ⟨rfl, rfl, List.forall₂_same.mpr fun _ _ => rfl⟩

theorem run_lag_refl (stack : Nat) (machine : Machine) (input : List Byte) :
    OutcomeRel Lag (HaltAlike SameReply) (run (step stack) machine input)
      (run (step stack) machine input) :=
  (run_alike same_reply_congruent stack
    ⟨frames_alike_refl machine.frames, rfl, rfl⟩ input).mono alike_lag

/-- A forgotten minus sign shows only in the value at the end of the line. -/
theorem sign_lag (room : frames.length < stack) (node : Node)
    (input : List Byte) (focus : PhaseOk .number node) (sign : node.want = sizeMax)
    (harmless : ∀ value rest, numberTail node.brk node.reply.integer input =
      some (value, false, rest) → toInt64 (-value) = value) :
    OutcomeRel Lag (HaltAlike SameReply)
      (run (step stack) ⟨frames, .number, { node with want := 1 }⟩ input)
      (run (step stack) ⟨frames, .number, node⟩ input) := by
  have same : ∀ node : Node, SameReply (plug frames (.mk { node with want := 1 } []))
      (plug frames (.mk node [])) := fun node =>
    plug_alike same_reply_congruent (frames_alike_refl frames) rfl
  induction input generalizing node with
  | nil => exact .more _ _ ⟨same node, .inr ⟨focus.1, sign, rfl⟩⟩
  | cons c rest ih =>
    have kept := step_shallow room .number node c
    have lost := step_shallow room .number { node with want := 1 } c
    simp only [lineStep] at kept lost
    simp only [numberTail] at harmless
    by_cases ordinary : c ≠ node.brk
    · rw [if_pos ordinary] at kept lost harmless
      by_cases again : c = minus
      · -- A second minus sign makes the two nodes equal.
        simp only [integerByte, again, if_true] at kept lost
        rw [again, run_read _ kept, run_read _ lost]
        exact run_lag_refl stack _ rest
      · rw [if_neg again] at harmless
        by_cases number : isNum c
        · rw [if_pos number] at harmless
          simp only [integerByte, again, number, if_true, if_false] at kept lost
          rw [run_read _ kept, run_read _ lost]
          refine ih { node with reply :=
            { node.reply with integer := toInt64 (node.reply.integer * 10 + digit c) } }
            ⟨focus.1, focus.2.1, focus.2.2.1, to_int64_idem _⟩ sign harmless
        · simp only [integerByte, again, number, if_false] at kept lost
          rw [run_refuse _ kept, run_refuse _ lost]
          exact .stop _ _ _ ⟨rfl, same node⟩
    · rw [if_neg ordinary] at kept lost harmless
      by_cases last : node.brk = lf
      · rw [if_pos last] at kept lost harmless
        rw [run_read _ kept, run_read _ lost]
        have negated := harmless _ _ rfl
        have values : toInt64 (node.reply.integer * (1 : Nat)) =
            toInt64 (node.reply.integer * node.want) := by
          rw [sign, to_int64_sign, negated]
          exact (congrArg toInt64 (Int.mul_one _)).trans focus.2.2.2
        refine (proceed_alike same_reply_congruent stack (frames_alike_refl frames) ?_ rest).mono
          alike_lag
        simp only [SameReply, ParseTree.reply, values]
      · rw [if_neg last] at kept lost harmless
        rw [run_read _ kept, run_read _ lost]
        exact ih { node with brk := lf } focus sign harmless

theorem resume_lag (sound : machine.Sound stack)
    (input : List Byte) (safe : CutSafe machine.node input) :
    OutcomeRel Lag (HaltAlike SameReply) (run (step stack) (resume machine) input)
      (run (step stack) machine input) := by
  obtain ⟨frames, phase, node⟩ := machine
  have focus := sound.focus
  have room := sound.room
  rw [resume_eq focus]
  cases phase with
  | opcode => exact run_lag_refl stack _ input
  | text =>
    obtain ⟨-, -, line, str⟩ := focus
    by_cases bulk : node.type = some .bulk
    · obtain ⟨first, rfl⟩ := safe.bulk bulk line str
      have here : node.brk = cr := first
      have kept := step_shallow (room (by simp)) .text node cr
      have lost := step_shallow (room (by simp)) .length node cr
      simp only [lineStep, here, ne_eq, not_true, if_false, show cr ≠ lf by decide] at kept lost
      simp only [bulk, if_true]
      rw [run_read _ kept, run_read _ lost]
      exact .more _ _ ⟨rfl, .inl rfl⟩
    · simp only [bulk, if_false]
      exact run_lag_refl stack _ input
  | number =>
    rcases focus.2.2.1 with plus | sign
    · have same : { node with want := 1 } = node := by rw [← plus]
      simp only [same]
      exact run_lag_refl stack _ input
    · exact sign_lag (room (by simp)) node input focus sign (safe.integer focus.1 sign)
  | length => exact run_lag_refl stack _ input
  | body => exact run_lag_refl stack _ input
  | count => exact run_lag_refl stack _ input

theorem lag_view {left right : Outcome Machine Byte Halt} (total : Nat)
    (related : OutcomeRel Lag (HaltAlike SameReply) left right) :
    view total (codeOf left) = view total (codeOf right) := by
  cases related with
  | more lost kept lag =>
    simp only [codeOf, view, lag.1]
  | stop lost kept rest alike =>
    obtain ⟨same, reply⟩ := alike
    have reply : lost.2.reply = kept.2.reply := reply
    simp only [codeOf, view, same, reply]

theorem code_left_length (stack : Nat) (machine : Machine) (input : List Byte) :
    (codeOf (run (step stack) machine input)).2.2.length ≤ input.length := by
  cases ended : run (step stack) machine input with
  | more next => exact Nat.zero_le _
  | stop final left => exact run_left_length _ _ _ _ _ ended

theorem view_shift (extra total : Nat) (out : Ret × ParseTree × List Byte)
    (left : out.2.2.length ≤ total) :
    view (extra + total) out =
      ((view total out).1, (view total out).2.1, extra + (view total out).2.2) := by
  simp only [view, Nat.add_sub_assoc left]

def CutsSafe (stack : Nat) (machine : Machine) (input : List Byte) : Prop :=
  ∀ front back, input = front ++ back → front ≠ [] → back ≠ [] →
    ∀ next, run (step stack) machine front = .more next → CutSafe next.node back

theorem feed_cuts_safe (fragments : List (List Byte)) (machine : Machine)
    (sound : machine.Sound stack) (given : fragments ≠ []) (solid : ∀ f ∈ fragments, f ≠ [])
    (safe : CutsSafe stack (resume machine) fragments.flatten) :
    observe (feed stack machine.tree fragments) =
      view fragments.flatten.length
        (codeOf (run (step stack) (resume machine) fragments.flatten)) := by
  induction fragments generalizing machine with
  | nil => exact absurd rfl given
  | cons fragment more ih =>
    have nonempty : fragment ≠ [] := solid fragment mem_cons_self
    by_cases only : more = []
    · subst only
      simp only [flatten_cons, flatten_nil, append_nil]
      exact feed_single sound nonempty
    have solidMore : ∀ f ∈ more, f ≠ [] := (forall_mem_cons.mp solid).2
    have backGiven : more.flatten ≠ [] := by
      obtain ⟨first, others, rfl⟩ := exists_cons_of_ne_nil only
      simp [solidMore first mem_cons_self]
    rw [flatten_cons] at safe ⊢
    rw [run_append]
    cases ended : run (step stack) (resume machine) fragment with
    | stop final left =>
      rw [feed_stopped sound nonempty ended]
      simp only [extend, codeOf, view, length_append, Nat.add_sub_add_right]
    | more next =>
      have nextSound : next.Sound stack := run_sound (resume_sound sound) ended
      have cut : CutSafe next.node more.flatten :=
        safe fragment more.flatten rfl nonempty backGiven next ended
      have safeMore : CutsSafe stack (resume next) more.flatten := by
        intro front back split frontGiven backGiven' lost lostPaused
        have lag := resume_lag nextSound front
          (CutSafe.front (split ▸ cut) frontGiven backGiven')
        rw [lostPaused] at lag
        generalize keptRun : run (step stack) next front = outcome at lag
        cases lag with
        | more _ kept related =>
          refine related.2.safe (safe (fragment ++ front) back ?_ ?_ backGiven' kept ?_)
          · rw [split, append_assoc]
          · simp [nonempty]
          · rw [run_append, ended]
            exact keptRun
      rw [feed_paused sound nonempty ended, ih next nextSound only solidMore safeMore,
        lag_view _ (resume_lag nextSound more.flatten cut)]
      simp only [extend, length_append]
      rw [view_shift _ _ _ (code_left_length stack next more.flatten)]

/-! ## Cuts that matter -/

def lineByte : Phase → Node → Byte → Option Node
  | .text => storeByte
  | .number => integerByte
  | .length => lenByte
  | .count => elementsByte
  | .opcode | .body => fun _ _ => none

/-- What a byte after which the machine goes on does to the line being read. -/
inductive Advance (machine : Machine) (c : Byte) : Machine → Prop where
  | elsewhere (next : Machine) (text : next.phase ≠ .text) (number : next.phase ≠ .number)
      (length : next.phase ≠ .length) : Advance machine c next
  | opens (op : OpCode) (start : machine.phase = .opcode) (read : opCode c = some op) :
      Advance machine c ⟨machine.frames, takePhase op (typedNode op machine.node),
        takeNode op (typedNode op machine.node)⟩
  | accepts (node : Node) (ordinary : c ≠ machine.node.brk)
      (read : lineByte machine.phase machine.node c = some node) :
      Advance machine c { machine with node := node }
  | turns (first : machine.node.brk = c) (more : c ≠ lf) :
      Advance machine c { machine with node := { machine.node with brk := lf } }
  | unlimited (length : machine.phase = .length) (last : machine.node.brk = lf)
      (given : machine.node.reply.type ≠ .nil)
      (all : (openBody { machine.node with brk := cr }).want = 0) :
      Advance machine c
        ⟨machine.frames, .text, openBody { machine.node with brk := cr }⟩

section Advance

variable {stack : Nat} {frames : List Frame} {phase : Phase} {node : Node} {machine next : Machine}
  {c : Byte}

theorem line_step_advance {bad : Ret} {finish : Node → Next Machine Halt}
    (finishes : node.brk = lf →
      (finish node).All (Advance ⟨frames, phase, node⟩ c) fun _ => True) :
    (lineStep frames phase (lineByte phase) bad finish node c).All
      (Advance ⟨frames, phase, node⟩ c) fun _ => True :=
  line_step_all (fun next ordinary read => .accepts next ordinary read) (fun _ _ => trivial)
    (fun _ last => finishes last) fun same more => .turns same.symm (same ▸ more)

theorem step_advance (stack : Nat) (machine : Machine) (c : Byte) :
    (step stack machine c).All (Advance machine c) fun _ => True := by
  obtain ⟨frames, phase, node⟩ := machine
  by_cases room : frames.length < stack
  · have starts (others : List Frame) : Advance ⟨frames, phase, node⟩ c (startAt others) :=
      .elsewhere _ (by simp [startAt]) (by simp [startAt]) (by simp [startAt])
    have closes (tree : ParseTree) :
        (close frames tree).All (Advance ⟨frames, phase, node⟩ c) fun _ => True :=
      close_all starts (fun _ => trivial) frames tree
    have inside (node' : Node) : Advance ⟨frames, phase, node⟩ c ⟨frames, .body, node'⟩ :=
      .elsewhere _ (by simp) (by simp) (by simp)
    rw [step_shallow room]
    cases phase with
    | opcode =>
      cases read : opCode c with
      | none => exact .read _ (.stop _ trivial)
      | some op => exact .read _ (.more _ (.opens op rfl read))
    | text => exact line_step_advance fun _ => close_string_all (closes _) trivial
    | number => exact line_step_advance fun _ => closes _
    | length =>
      refine line_step_advance fun last => close_length_all (fun _ => closes _) fun given => ?_
      split_ifs with all
      · exact .unlimited rfl last given all
      · exact inside _
    | body =>
      exact bulk_step_all (fun _ _ _ => inside _) (fun _ _ => trivial)
        (fun _ => close_string_all (closes _) trivial) fun _ _ => inside _
    | count =>
      exact line_step_advance fun _ =>
        close_count_all (fun _ => closes _) (fun _ => trivial) fun _ _ => starts _
  · unfold step
    rw [if_pos (Nat.not_lt.mp room)]
    exact .refuse _ trivial

end Advance

/-- What has been read of the line the machine stands in, at the end of the bytes
read so far. A length of at most nine digits is the number they write. -/
structure Traced (front : List Byte) (machine : Machine) : Prop where
  number : machine.phase = .number → ∃ line, 58 :: line <:+ front ∧ lf ∉ line ∧
    (machine.node.want = sizeMax → minus ∈ line)
  length : machine.phase = .length → machine.node.reply.str = .null ∧ machine.node.pos = 0 ∧
    toInt32 machine.node.reply.len = machine.node.reply.len ∧
    (machine.node.reply.type ≠ .nil → ∃ line count, 36 :: line <:+ front ∧
      (∀ c ∈ line, (isNum c || c == cr) = true) ∧
      (machine.node.brk = cr ∧ line.length = count ∨
        machine.node.brk = lf ∧ line.length = count + 1) ∧
      (count ≤ 9 → 0 ≤ machine.node.reply.len ∧ machine.node.reply.len < (10 ^ count : Nat)))
  unlimited : machine.phase = .text → machine.node.type = some .bulk →
    machine.node.reply.type ≠ .nil ∧ machine.node.reply.len = -2 ∧
      machine.node.reply.str = .tmpBuff ∧ machine.node.pos ≤ sizeTmpBuff ∧
      (machine.node.brk = cr ∨ machine.node.brk = lf) ∧
      ∃ line back, 36 :: line ++ back <:+ front ∧ (∀ c ∈ line, (isNum c || c == cr) = true) ∧
        11 ≤ line.length

section Traced

variable {front line : List Byte}

theorem open_body_unlimited (range : toInt32 node.reply.len = node.reply.len)
    (unlimited : (openBody node).want = 0) : node.reply.len = -2 := by
  simp only [openBody, toSizeT, to_int32_bmod, Int.bmod] at unlimited range
  omega

theorem op_code_some {op : OpCode} (read : opCode c = some op) :
    (op = .integer → c = 58) ∧ (op = .bulk → c = 36) := by
  unfold opCode at read
  split_ifs at read <;> cases read <;> simp_all

theorem is_num_digit (number : isNum c = true) : digit c ≤ 9 := by
  simp only [isNum, Bool.and_eq_true, decide_eq_true_eq, UInt8.le_iff_toNat_le] at number
  have := number.2
  simp only [digit]
  change c.toNat ≤ 57 at this
  omega

theorem suffix_next (suffix : line <:+ front) (c : Byte) : line ++ [c] <:+ front ++ [c] := by
  obtain ⟨before, rfl⟩ := suffix
  exact ⟨before, (append_assoc ..).symm⟩

theorem next_len_exact {len : Int} {count : Nat} (number : isNum c = true) (few : count + 1 ≤ 9)
    (exact : 0 ≤ len ∧ len < (10 ^ count : Nat)) :
    0 ≤ toInt32 (len * 10 + digit c) ∧ toInt32 (len * 10 + digit c) < (10 ^ (count + 1) : Nat) := by
  have one := is_num_digit number
  have small : 10 ^ (count + 1) ≤ 10 ^ 9 := Nat.pow_le_pow_right (by simp) few
  have more : 10 ^ (count + 1) = 10 ^ count * 10 := Nat.pow_succ ..
  rw [to_int32_bmod, Int.bmod_eq_of_le (by omega) (by omega)]
  omega

theorem start_traced (front : List Byte) (frames : List Frame) : Traced front (startAt frames) :=
  ⟨fun other => (by cases other), fun other => (by cases other), fun other => (by cases other)⟩

theorem opens_traced (op : OpCode) (read : opCode c = some op) (frames : List Frame) :
    Traced (front ++ [c])
      ⟨frames, takePhase op (typedNode op newNode), takeNode op (typedNode op newNode)⟩ := by
  obtain ⟨integer, bulk⟩ := op_code_some read
  cases op with
  | integer =>
    obtain rfl := integer rfl
    refine ⟨fun _ => ⟨[], suffix_append front [58], not_mem_nil, fun sign => ?_⟩,
      fun other => (by cases other), fun other => (by cases other)⟩
    simp [takeNode, sizeMax] at sign
  | bulk =>
    obtain rfl := bulk rfl
    refine ⟨fun other => (by cases other), fun _ => ⟨rfl, rfl, rfl, fun _ => ⟨[], 0, ?_⟩⟩,
      fun other => (by cases other)⟩
    exact ⟨suffix_append front [36], by simp, .inl ⟨rfl, rfl⟩,
      fun _ => ⟨Int.le_refl 0, Int.one_pos⟩⟩
  | status | error | multi =>
    exact ⟨fun other => (by cases other), fun other => (by cases other),
      fun _ kind => (by cases kind)⟩

theorem accepts_traced (traced : Traced front machine)
    (read : lineByte machine.phase machine.node c = some node) :
    Traced (front ++ [c]) { machine with node := node } := by
  refine ⟨fun number => ?_, fun length => ?_, fun text bulk => ?_⟩
  · obtain ⟨line, suffix, inside, sign⟩ := traced.number number
    rw [show machine.phase = .number from number] at read
    have other : lf ≠ c := by
      rintro rfl
      rcases integer_byte_some read with ⟨sign, -⟩ | ⟨number, -⟩
      · simp [lf, minus] at sign
      · simp [isNum, lf] at number
    refine ⟨line ++ [c], suffix_next suffix c, by simp [inside, other], ?_⟩
    rcases integer_byte_some read with ⟨rfl, -⟩ | ⟨-, rfl⟩
    · simp
    · exact fun signed => mem_append_left _ (sign signed)
  · obtain ⟨str, first, range, written⟩ := traced.length length
    rw [show machine.phase = .length from length] at read
    rcases len_byte_some read with ⟨-, rfl⟩ | ⟨number, rfl⟩
    · exact ⟨str, first, range, fun given => absurd rfl given⟩
    · refine ⟨str, first, by simp only [to_int32_bmod, Int.bmod_bmod], fun given => ?_⟩
      obtain ⟨line, count, suffix, plain, brk, exact⟩ := written given
      refine ⟨line ++ [c], count + 1, suffix_next suffix c, ?_, by simpa using brk,
        fun few => next_len_exact number few (exact (Nat.le_of_succ_le few))⟩
      simpa [or_imp, forall_and, number] using plain
  · rw [show machine.phase = .text from text] at read
    obtain ⟨fits, rfl⟩ := store_byte_some read
    obtain ⟨typed, len, str, -, brk, line, back, suffix, rest⟩ := traced.unlimited text bulk
    rw [str] at fits
    exact ⟨typed, len, str, fits, brk, line, back ++ [c],
      append_assoc (36 :: line) .. ▸ suffix_next suffix c, rest⟩

theorem turns_traced (traced : Traced front machine) (first : machine.node.brk = c)
    (more : c ≠ lf) :
    Traced (front ++ [c]) { machine with node := { machine.node with brk := lf } } := by
  refine ⟨fun number => ?_, fun length => ?_, fun text bulk => ?_⟩
  · obtain ⟨line, suffix, inside, sign⟩ := traced.number number
    exact ⟨line ++ [c], suffix_next suffix c, by simp [inside, more.symm],
      fun signed => mem_append_left _ (sign signed)⟩
  · obtain ⟨str, start, range, written⟩ := traced.length length
    refine ⟨str, start, range, fun given => ?_⟩
    obtain ⟨line, count, suffix, plain, brk, exact⟩ := written given
    obtain ⟨turned, counted⟩ : machine.node.brk = cr ∧ line.length = count :=
      brk.resolve_right fun last => more (first.symm.trans last.1)
    refine ⟨line ++ [c], count, suffix_next suffix c, ?_, .inr ⟨rfl, by simp [counted]⟩, exact⟩
    simpa [or_imp, forall_and, first.symm.trans turned] using plain
  · obtain ⟨typed, len, str, bound, -, line, back, suffix, rest⟩ := traced.unlimited text bulk
    exact ⟨typed, len, str, bound, .inr rfl, line, back ++ [c],
      append_assoc (36 :: line) .. ▸ suffix_next suffix c, rest⟩

theorem unlimited_traced (traced : Traced front machine) (length : machine.phase = .length)
    (last : machine.node.brk = lf) (given : machine.node.reply.type ≠ .nil)
    (all : (openBody { machine.node with brk := cr }).want = 0) :
    Traced (front ++ [c]) ⟨machine.frames, .text, openBody { machine.node with brk := cr }⟩ := by
  obtain ⟨str, first, range, written⟩ := traced.length length
  obtain ⟨line, count, suffix, plain, brk, exact⟩ := written given
  have len : machine.node.reply.len = -2 := open_body_unlimited range all
  have counted : line.length = count + 1 :=
    (brk.resolve_left fun first => absurd (first.1.symm.trans last) (by decide)).2
  have long : 11 ≤ line.length := by
    by_contra short
    have := (exact (by omega)).1
    omega
  refine ⟨fun other => (by cases other), fun other => (by cases other), fun _ _ => ⟨given, len,
    ?_, ?_, .inl rfl, line, [c], suffix_next suffix c, plain, long⟩⟩
  · simp [openBody, str, len, toInt32, sizeTmpBuff]
  · simp [openBody, first]

theorem run_traced (reached : run (step stack) (startAt frames) front = .more next)
    (sound : (startAt frames).Sound stack) : Traced front next := by
  refine (run_history (step stack) (fun front machine => machine.Sound stack ∧ Traced front machine)
    ?_ (startAt frames) next [] front ⟨sound, start_traced [] frames⟩ reached).2
  rintro front machine c next ⟨sound, traced⟩ taken
  refine ⟨step_sound sound taken, ?_⟩
  cases (step_advance stack machine c).more taken with
  | elsewhere _ text number length =>
    exact ⟨fun is => absurd is number, fun is => absurd is length, fun is => absurd is text⟩
  | opens op unread read =>
    have fresh := sound.focus
    rw [unread] at fresh
    rw [show machine.node = newNode from fresh]
    exact opens_traced op read machine.frames
  | accepts node ordinary read => exact accepts_traced traced read
  | turns first more => exact turns_traced traced first more
  | unlimited length last given all => exact unlimited_traced traced length last given all

end Traced

/-- Some fragments of the input, after an uncut start, show a difference. -/
def Differs (stack : Nat) (machine : Machine) (input : List Byte) : Prop :=
  ∃ skip cuts next, input = skip ++ cuts.flatten ∧ cuts ≠ [] ∧ (∀ f ∈ cuts, f ≠ []) ∧
    run (step stack) machine skip = .more next ∧
    observe (feed stack next.tree cuts) ≠
      view cuts.flatten.length (codeOf (run (step stack) next cuts.flatten))

theorem differs_step (taken : step stack machine c = .read (.more next))
    (differs : Differs stack next back) : Differs stack machine (c :: back) := by
  obtain ⟨skip, cuts, last, rfl, given, solid, paused, shows⟩ := differs
  exact ⟨c :: skip, cuts, last, rfl, given, solid, (run_read _ taken skip).trans paused, shows⟩

theorem view_differs {total other : Nat} {left right : Ret × ParseTree × List Byte}
    (differ : left.2.1.reply ≠ right.2.1.reply) : view total left ≠ view other right :=
  fun same => differ (congrArg (fun out => out.2.1) same)

theorem Differs.now (sound : machine.Sound stack) (given : back ≠ [])
    (shows : view back.length (codeOf (run (step stack) (resume machine) back)) ≠
      view back.length (codeOf (run (step stack) machine back))) : Differs stack machine back := by
  refine ⟨[], [back], machine, by simp, by simp, by simpa using given, rfl, ?_⟩
  rw [feed_single sound given]
  simpa only [flatten_cons, flatten_nil, append_nil] using shows

theorem Differs.later {lost : Machine} (sound : machine.Sound stack)
    (paused : run (step stack) (resume machine) [c] = .more lost) (given : back ≠ [])
    (shows : (codeOf (run (step stack) (resume lost) back)).2.1.reply ≠
      (codeOf (run (step stack) machine (c :: back))).2.1.reply) :
    Differs stack machine (c :: back) := by
  refine ⟨[], [[c], back], machine, by simp, by simp, by simpa using given, rfl, ?_⟩
  rw [feed_paused sound (by simp) paused,
    feed_single (run_sound (resume_sound sound) paused) given]
  intro same
  apply shows
  simpa [view] using congrArg (fun out => out.2.1) same

theorem reply_differs {front : List Scalar} {first second : Scalar} {left right : ReplyTree}
    (inLeft : front ++ [first] <+: scalars left) (inRight : front ++ [second] <+: scalars right)
    (different : first ≠ second) : left ≠ right := by
  rintro rfl
  have same := List.IsPrefix.eq_of_length
    (prefix_of_prefix_length_le inLeft inRight (by simp)) (by simp)
  exact different (List.cons.inj (append_cancel_left same)).1

theorem number_tail_range (brk : Byte) (value : Int) (input : List Byte)
    (range : toInt64 value = value) (tail : Int × Bool × List Byte)
    (found : numberTail brk value input = some tail) : toInt64 tail.1 = tail.1 := by
  induction input generalizing brk value tail with
  | nil => cases found
  | cons c input ih =>
    rw [numberTail] at found
    split_ifs at found with ordinary sign number last
    · obtain ⟨inner, foundInner, rfl⟩ := Option.map_eq_some_iff.mp found
      exact ih brk value range inner foundInner
    · exact ih _ _ (to_int64_idem _) _ found
    · cases found
      exact range
    · exact ih _ _ range _ found

theorem run_number (room : frames.length < stack)
    (node : Node) (input : List Byte) (value : Int) (rest : List Byte)
    (found : numberTail node.brk node.reply.integer input = some (value, false, rest)) :
    run (step stack) ⟨frames, .number, node⟩ input =
      proceed (step stack) (closeNumber frames
        { node with brk := lf, reply := { node.reply with integer := value } }) rest := by
  induction input generalizing node with
  | nil => cases found
  | cons c input ih =>
    have taken := step_shallow room .number node c
    simp only [lineStep] at taken
    simp only [numberTail] at found
    split_ifs at taken found with ordinary sign number last
    · obtain ⟨inner, -, same⟩ := Option.map_eq_some_iff.mp found
      cases same
    · simp only [integerByte, sign, number, if_true, if_false] at taken
      rw [run_read _ taken]
      exact ih _ found
    · cases found
      rw [run_read _ taken, ← last]
    · rw [run_read _ taken]
      exact ih _ found

theorem sign_differs (sound : Machine.Sound stack ⟨frames, .number, node⟩)
    (sign : node.want = sizeMax) {value : Int} {rest : List Byte}
    (found : numberTail node.brk node.reply.integer back = some (value, false, rest))
    (visible : toInt64 (-value) ≠ value) : Differs stack ⟨frames, .number, node⟩ back := by
  have room := sound.room (by simp)
  have focus := sound.focus
  have given : back ≠ [] := by
    rintro rfl
    cases found
  have range : toInt64 value = value :=
    number_tail_range _ _ _ focus.2.2.2 _ found
  refine .now sound given (view_differs ?_)
  rw [resume_eq focus, run_number room node back value rest found,
    run_number room { node with want := 1 } back value rest found]
  have lost := proceed_keeps stack (close_keeps frames (.mk { node with
    want := 1, brk := lf, reply := { node.reply with integer := toInt64 (value * (1 : Nat)) } } []))
    rest
  have kept := proceed_keeps stack (close_keeps frames (.mk { node with
    brk := lf, reply := { node.reply with integer := toInt64 (value * node.want) } } [])) rest
  refine reply_differs lost kept fun equal => ?_
  have values := congrArg (fun scalar => scalar.2.1) equal
  simp only [sign, to_int64_sign] at values
  rw [← values] at visible
  exact visible ((congrArg toInt64 (Int.mul_one value)).trans range)

theorem line_leaf {onByte : Node → Byte → Option Node} {bad : Ret}
    (reads : ∀ node c, step stack ⟨frames, phase, node⟩ c =
      lineStep frames phase onByte bad finish node c) (Holds : Node → Prop) (Shows : Scalar → Prop)
    (seen : ∀ node, Holds node → Shows (scalarOf node))
    (onStep : ∀ node c next, Holds node → onByte node c = some next → Holds next)
    (onBreak : ∀ node, Holds node → Holds { node with brk := lf })
    (finishes : ∀ node, Holds node → ∃ scalar, Shows scalar ∧
      Keeps (settled frames ++ [scalar]) (finish node)) (node : Node) (holds : Holds node)
    (input : List Byte) :
    ∃ scalar, Shows scalar ∧ settled frames ++ [scalar] <+:
      scalars (codeOf (run (step stack) ⟨frames, phase, node⟩ input)).2.1.reply := by
  induction input generalizing node with
  | nil => exact ⟨scalarOf node, seen node holds, plug_scalars frames (.mk node [])⟩
  | cons c input ih =>
    have taken := reads node c
    unfold lineStep at taken
    by_cases ordinary : c ≠ node.brk
    · rw [if_pos ordinary] at taken
      cases accepted : onByte node c with
      | some next =>
        rw [accepted] at taken
        rw [run_read _ taken]
        exact ih next (onStep node c next holds accepted)
      | none =>
        rw [accepted] at taken
        rw [run_refuse _ taken]
        exact ⟨scalarOf node, seen node holds, plug_scalars frames (.mk node [])⟩
    · rw [if_neg ordinary] at taken
      by_cases last : node.brk = lf
      · rw [if_pos last] at taken
        rw [run_read _ taken]
        obtain ⟨scalar, shows, keeps⟩ := finishes node holds
        exact ⟨scalar, shows, proceed_keeps stack keeps input⟩
      · rw [if_neg last] at taken
        rw [run_read _ taken]
        exact ih _ (onBreak node holds)

/-- A string announced with length `-2`, between its length line and its end. -/
structure Unlimited (stack : Nat) (frames : List Frame) (node : Node) : Prop where
  sound : Machine.Sound stack { frames := frames, phase := .text, node := node }
  bulk : node.type = some .bulk
  typed : node.reply.type ≠ .nil
  len : node.reply.len = -2
  str : node.reply.str = .tmpBuff
  bound : node.pos ≤ sizeTmpBuff
  brk : node.brk = cr ∨ node.brk = lf

section Unlimited

variable {stack : Nat} {frames : List Frame} {node : Node}

theorem Unlimited.room (here : Unlimited stack frames node) : frames.length < stack :=
  here.sound.room (by simp)

theorem Unlimited.resume (here : Unlimited stack frames node) :
    RedisParserMachine.resume ⟨frames, .text, node⟩ = ⟨frames, .length, node⟩ := by
  rw [resume_eq here.sound.focus]
  simp only [here.bulk, if_true]

theorem Unlimited.kept_type (here : Unlimited stack frames node) (input : List Byte) :
    ∃ scalar, scalar.1 ≠ .nil ∧ settled frames ++ [scalar] <+:
      scalars (codeOf (run (step stack) ⟨frames, .text, node⟩ input)).2.1.reply := by
  refine line_leaf (fun node c => step_shallow here.room .text node c)
    (fun node => node.reply.type ≠ .nil) (fun scalar => scalar.1 ≠ .nil) (fun _ holds => holds)
    ?_ (fun _ holds => holds) ?_ node here.typed input
  · intro node c next holds stored
    obtain ⟨-, rfl⟩ := store_byte_some stored
    exact holds
  · intro node holds
    refine ⟨scalarOf (endText node), ?_, close_text_keeps frames node⟩
    simp only [scalarOf, endText]
    exact holds

theorem nil_length_type (room : frames.length < stack) (node : Node)
    (nil : node.reply.type = .nil) (input : List Byte) :
    ∃ scalar, scalar.1 = .nil ∧ settled frames ++ [scalar] <+:
      scalars (codeOf (run (step stack) ⟨frames, .length, node⟩ input)).2.1.reply := by
  refine line_leaf (fun node c => step_shallow room .length node c)
    (fun node => node.reply.type = .nil) (fun scalar => scalar.1 = .nil) (fun _ holds => holds)
    ?_ (fun _ holds => holds) ?_ node nil input
  · intro node c next holds read
    rcases len_byte_some read with ⟨-, rfl⟩ | ⟨-, rfl⟩
    · rfl
    · exact holds
  · intro node holds
    refine ⟨scalarOf node, holds, ?_⟩
    unfold closeLength
    simp only [holds, if_true]
    exact close_keeps frames (.mk { node with brk := cr } [])

theorem is_num_op_code (number : isNum c = true) : opCode c = none := by
  unfold opCode
  split_ifs with h1 h2 h3 h4 h5
  all_goals first
    | rfl
    | (subst_vars; exact absurd number (by decide))

theorem Unlimited.kept_len (here : Unlimited stack frames node) :
    0 ≤ (scalarOf (endText node)).2.2.1 := by
  have bound := here.bound
  simp only [scalarOf, endText, to_int32_bmod, Int.bmod, sizeTmpBuff] at bound ⊢
  omega

theorem kept_short (stack : Nat) (frames : List Frame) (node : Node) (rest : List Byte)
    (noOp : opCode c = none) :
    rest.length ≤
      (codeOf (proceed (step stack) (closeText frames node) (c :: rest))).2.2.length := by
  have closed : ∀ frames tree, rest.length ≤
      (codeOf (proceed (step stack) (close frames tree) (c :: rest))).2.2.length := by
    intro frames
    induction frames with
    | nil =>
      intro tree
      exact Nat.le_succ _
    | cons frame frames ih =>
      intro tree
      obtain ⟨node, before, left⟩ := frame
      cases left with
      | zero => exact ih _
      | succ left =>
        simp only [close, proceed]
        set others := nextFrame { node := node, before := before, left := left + 1 } tree left ::
          frames
        by_cases room : others.length < stack
        · have taken := step_shallow room .opcode newNode c
          simp only [noOp] at taken
          rw [startAt, run_read _ taken]
          exact Nat.le_refl _
        · have taken : step stack (startAt others) c =
              .refuse (.deep, (startAt others).tree) := if_pos (Nat.not_lt.mp room)
          rw [run_refuse _ taken]
          exact Nat.le_succ _
  unfold closeText closeString
  split_ifs
  · exact closed frames _
  · exact Nat.le_succ _

theorem proceed_left_length (stack : Nat) (next : Next Machine Halt) (input : List Byte) :
    (codeOf (proceed (step stack) next input)).2.2.length ≤ input.length := by
  cases next with
  | more next => exact code_left_length stack next input
  | stop final => exact Nat.le_refl _

theorem length_line_shows (room : frames.length < stack) (node : Node) (len : node.reply.len < 0)
    (c : Byte) (rest : List Byte) :
    (∃ scalar : Scalar, scalar.2.2.1 < 0 ∧ settled frames ++ [scalar] <+:
      scalars (codeOf (run (step stack) ⟨frames, .length, node⟩ (c :: rest))).2.1.reply) ∨
    (codeOf (run (step stack) ⟨frames, .length, node⟩ (c :: rest))).2.2.length ≤ rest.length := by
  have taken := step_shallow room .length node c
  unfold lineStep at taken
  split_ifs at taken with ordinary last
  · cases accepted : lenByte node c with
    | some next =>
      rw [accepted] at taken
      rw [run_read _ taken]
      exact .inr (proceed_left_length stack _ rest)
    | none =>
      rw [accepted] at taken
      rw [run_refuse _ taken]
      exact .inl ⟨scalarOf node, len, plug_scalars frames (.mk node [])⟩
  · rw [run_read _ taken]
    exact .inr (proceed_left_length stack _ rest)
  · rw [run_read _ taken]
    exact .inr (proceed_left_length stack _ rest)

section

variable (here : Unlimited stack frames node)

include here

theorem Unlimited.again (last : node.brk = lf) :
    run (step stack) ⟨frames, .length, node⟩ [lf] =
      .more ⟨frames, .text, { node with brk := cr }⟩ := by
  have taken := step_shallow here.room .length node lf
  obtain ⟨-, -, line, str⟩ := here.sound.focus
  have line : node.want = 0 := line
  have opened : openBody { node with brk := cr } = { node with brk := cr } := by
    have zero : toSizeT (toInt32 0) = 0 := by decide
    simp only [openBody, here.str, here.len, reduceCtorEq, if_false, Int.reduceNeg,
      Int.add_left_neg, zero]
    rw [← here.str, ← line, ← here.len]
  simp only [lineStep, last, ne_eq, not_true, if_false, if_true, closeLength, here.typed] at taken
  rw [run_read _ taken, opened]
  simp only [line, if_true]
  rfl

theorem Unlimited.restart : Unlimited stack frames { node with brk := cr } :=
  { here with
      sound := { here.sound with }, brk := .inl rfl }

theorem Unlimited.kept_end (last : node.brk = lf) (rest : List Byte) :
    run (step stack) ⟨frames, .text, node⟩ (lf :: rest) =
      proceed (step stack) (closeText frames node) rest := by
  have taken := step_shallow here.room .text node lf
  simp only [lineStep, last, ne_eq, not_true, if_false, if_true] at taken
  exact run_read _ taken rest

theorem Unlimited.negative_differs {rest : List Byte} {reply : ReplyTree} {scalar : Scalar}
    (negative : scalar.2.2.1 < 0) (shown : settled frames ++ [scalar] <+: scalars reply) :
    reply ≠ (codeOf (proceed (step stack) (closeText frames node) rest)).2.1.reply := by
  refine reply_differs shown (proceed_keeps stack (close_text_keeps frames node) rest) ?_
  rintro rfl
  have kept := here.kept_len
  omega

theorem Unlimited.nil_differs (lost : Node) (nil : lost.reply.type = .nil)
    (input whole : List Byte) :
    (codeOf (run (step stack) ⟨frames, .length, lost⟩ input)).2.1.reply ≠
      (codeOf (run (step stack) ⟨frames, .text, node⟩ whole)).2.1.reply := by
  obtain ⟨first, nil, lostLeaf⟩ := nil_length_type here.room lost nil input
  obtain ⟨second, notNil, keptLeaf⟩ := here.kept_type whole
  refine reply_differs lostLeaf keptLeaf ?_
  rintro rfl
  exact notNil nil

theorem Unlimited.negative : (scalarOf { node with brk := cr }).2.2.1 < 0 := by
  have len := here.len
  simp only [scalarOf]
  omega

theorem Unlimited.read_on_differs (last : node.brk = lf) {x : Byte} (rest : List Byte)
    (noOp : opCode x = none) {next : Node} (len : next.reply.len < 0)
    (taken : step stack ⟨frames, .length, { node with brk := cr }⟩ x =
      .read (.more ⟨frames, .length, next⟩)) :
    Differs stack ⟨frames, .text, node⟩ (lf :: x :: rest) := by
  have first := here.again last
  rw [← here.resume] at first
  have restarted := here.restart
  have lostSound : Machine.Sound stack ⟨frames, .length, next⟩ := by
    refine step_sound ?_ taken
    rw [← restarted.resume]
    exact resume_sound restarted.sound
  have second : run (step stack) (RedisParserMachine.resume
      ⟨frames, .text, { node with brk := cr }⟩) [x] =
      .more ⟨frames, .length, next⟩ := by
    rw [restarted.resume, run_read _ taken]
    rfl
  cases rest with
  | nil =>
    refine .later here.sound first (by simp) ?_
    rw [second, here.kept_end last]
    exact here.negative_differs len (plug_scalars frames (.mk next []))
  | cons y rest =>
    refine ⟨[], [[lf], [x], y :: rest], _, by simp, by simp, by simp, rfl, ?_⟩
    rw [feed_paused here.sound (by simp) first, feed_paused restarted.sound (by simp) second,
      feed_single lostSound (by simp), resume_eq lostSound.focus]
    simp only [flatten_cons, flatten_nil, append_nil, singleton_append]
    rw [here.kept_end last]
    intro same
    rcases length_line_shows here.room next len y rest with ⟨scalar, negative, shown⟩ | short
    · exact here.negative_differs negative shown (congrArg (fun out => out.2.1) same)
    · -- The uncut run has read two bytes at most, the fragments three.
      have consumed := congrArg (fun out => out.2.2) same
      have kept := kept_short stack frames node (y :: rest) noOp
      simp only [view, length_cons, length_nil] at consumed kept
      omega

theorem Unlimited.end_differs (last : node.brk = lf) (back : List Byte) :
    Differs stack ⟨frames, .text, node⟩ (lf :: back) := by
  have first := here.again last
  rw [← here.resume] at first
  have restarted := here.restart
  cases back with
  | nil =>
    refine .now here.sound (by simp) (view_differs ?_)
    rw [first, here.kept_end last]
    exact here.negative_differs here.negative (plug_scalars frames (.mk { node with brk := cr } []))
  | cons x rest =>
    have taken := step_shallow here.room .length { node with brk := cr } x
    simp only [lineStep] at taken
    by_cases ordinary : x ≠ cr
    · rw [if_pos ordinary] at taken
      cases accepted : lenByte { node with brk := cr } x with
      | none =>
        refine .later here.sound first (by simp) ?_
        rw [accepted] at taken
        rw [restarted.resume, run_refuse _ taken, here.kept_end last]
        exact here.negative_differs here.negative
          (plug_scalars frames (.mk { node with brk := cr } []))
      | some next =>
        rw [accepted] at taken
        rcases len_byte_some accepted with ⟨-, rfl⟩ | ⟨number, rfl⟩
        · refine .later here.sound first (by simp) ?_
          rw [restarted.resume, run_read _ taken]
          exact here.nil_differs { node with brk := cr, reply := { node.reply with type := .nil } }
            rfl rest (lf :: x :: rest)
        · refine here.read_on_differs last rest (is_num_op_code number) ?_ taken
          have small := is_num_digit number
          have len := here.len
          simp only [len, to_int32_bmod, Int.bmod]
          omega
    · have terminator : x = cr := not_not.mp ordinary
      subst terminator
      simp only [ne_eq, not_true, if_false, show cr ≠ lf by decide] at taken
      exact here.read_on_differs last rest (by decide) (by have len := here.len; simp only; omega)
        taken

theorem Unlimited.stored {next : Node}
    (stored : storeByte node c = some next) : Unlimited stack frames next := by
  obtain ⟨fits, rfl⟩ := store_byte_some stored
  rw [here.str] at fits
  exact { here with sound := { here.sound with }, bound := fits }

theorem Unlimited.digit_differs (ordinary : c ≠ node.brk) (number : isNum c = true) {next : Node}
    (stored : storeByte node c = some next) (back : List Byte)
    (short : back = [] ∨ (node.brk = cr ∧ back = [cr])) :
    Differs stack ⟨frames, .text, node⟩ (c :: back) := by
  have kept := step_shallow here.room .text node c
  have lost := step_shallow here.room .length node c
  have notMinus : c ≠ minus := by
    rintro rfl
    exact absurd number (by decide)
  simp only [lineStep, if_pos ordinary, stored] at kept
  simp only [lineStep, if_pos ordinary, lenByte, notMinus, number, if_true, if_false] at lost
  obtain ⟨-, rfl⟩ := store_byte_some stored
  refine .now here.sound (by simp) (view_differs ?_)
  rw [here.resume, run_read _ kept, run_read _ lost]
  -- Neither run ends the line, so both trees show the bytes stored so far.
  obtain ⟨brk, lostRun, keptRun⟩ : ∃ brk,
      proceed (step stack) (.more ⟨frames, .length, { node with
          reply := { node.reply with len := toInt32 (node.reply.len * 10 + digit c) } }⟩) back =
        .more ⟨frames, .length, { node with
          brk := brk
          reply := { node.reply with len := toInt32 (node.reply.len * 10 + digit c) } }⟩ ∧
      proceed (step stack) (.more ⟨frames, .text, { node with
          pos := node.pos + 1
          reply := { node.reply with bytes := node.reply.bytes ++ [c] } }⟩) back =
        .more ⟨frames, .text, { node with
          brk := brk
          pos := node.pos + 1
          reply := { node.reply with bytes := node.reply.bytes ++ [c] } }⟩ := by
    rcases short with rfl | ⟨first, rfl⟩
    · exact ⟨node.brk, rfl, rfl⟩
    refine ⟨lf, ?_, ?_⟩
    · have taken := step_shallow here.room .length { node with
        reply := { node.reply with len := toInt32 (node.reply.len * 10 + digit c) } } cr
      simp only [lineStep, first, ne_eq, not_true, if_false, show cr ≠ lf by decide] at taken
      simp only [proceed, first]
      rw [run_read _ taken]
      rfl
    · have taken := step_shallow here.room .text { node with
        pos := node.pos + 1
        reply := { node.reply with bytes := node.reply.bytes ++ [c] } } cr
      simp only [lineStep, first, ne_eq, not_true, if_false, show cr ≠ lf by decide] at taken
      simp only [proceed, first]
      rw [run_read _ taken]
      rfl
  rw [lostRun, keptRun]
  refine reply_differs (plug_scalars frames (.mk _ [])) (plug_scalars frames (.mk _ []))
    fun equal => ?_
  have bytes := congrArg (fun scalar => scalar.2.2.2.1.length) equal
  simp at bytes

end

/-- A cut behind the length line of such a string shows, unless only the first
terminator follows. -/
theorem Unlimited.differs (back : List Byte) (node : Node) (here : Unlimited stack frames node)
    (given : back ≠ []) (visible : ¬(node.brk = cr ∧ back = [cr])) :
    Differs stack ⟨frames, .text, node⟩ back := by
  induction back generalizing node with
  | nil => exact absurd rfl given
  | cons c back ih =>
    have kept := step_shallow here.room .text node c
    have lost := step_shallow here.room .length node c
    simp only [lineStep] at kept lost
    by_cases ordinary : c ≠ node.brk
    · rw [if_pos ordinary] at kept lost
      have cutHere : view (c :: back).length (codeOf (run (step stack)
          ⟨frames, .length, node⟩ (c :: back))) ≠
          view (c :: back).length (codeOf (run (step stack)
            ⟨frames, .text, node⟩ (c :: back))) →
          Differs stack ⟨frames, .text, node⟩ (c :: back) := by
        intro shows
        refine .now here.sound (by simp) ?_
        rwa [here.resume]
      cases stored : storeByte node c with
      | none =>
        rw [stored] at kept
        refine cutHere ?_
        cases accepted : lenByte node c with
        | none =>
          rw [accepted] at lost
          rw [run_refuse _ kept, run_refuse _ lost]
          exact fun same => Ret.noConfusion (congrArg (fun out => out.1) same)
        | some next =>
          rw [accepted] at lost
          rw [run_refuse _ kept, run_read _ lost]
          intro same
          have consumed := congrArg (fun out => out.2.2) same
          have read := proceed_left_length stack (.more
            ⟨frames, .length, next⟩) back
          change _ = (c :: back).length - (c :: back).length at consumed
          simp only [view, length_cons, Nat.sub_self] at consumed
          omega
      | some next =>
        rw [stored] at kept
        cases accepted : lenByte node c with
        | none =>
          rw [accepted] at lost
          refine cutHere ?_
          rw [run_read _ kept, run_refuse _ lost]
          intro same
          have consumed := congrArg (fun out => out.2.2) same
          have read := proceed_left_length stack (.more
            ⟨frames, .text, next⟩) back
          change (c :: back).length - (c :: back).length = _ at consumed
          simp only [view, length_cons, Nat.sub_self] at consumed
          omega
        | some other =>
          rw [accepted] at lost
          rcases len_byte_some accepted with ⟨-, rfl⟩ | ⟨number, rfl⟩
          · refine cutHere (view_differs ?_)
            rw [run_read _ lost]
            exact here.nil_differs { node with reply := { node.reply with type := .nil } } rfl back
              (c :: back)
          · by_cases short : back = [] ∨ (node.brk = cr ∧ back = [cr])
            · exact here.digit_differs ordinary number stored back short
            · obtain ⟨more, further⟩ := not_or.mp short
              obtain ⟨-, rfl⟩ := store_byte_some stored
              exact differs_step kept (ih _ (here.stored stored) more further)
    · rw [if_neg ordinary] at kept
      have terminator : c = node.brk := not_not.mp ordinary
      by_cases last : node.brk = lf
      · rw [terminator, last]
        exact here.end_differs last back
      · rw [if_neg last] at kept
        have first : node.brk = cr := here.brk.resolve_right last
        refine differs_step kept (ih { node with brk := lf } ?_ ?_ ?_)
        · exact { here with sound := { here.sound with }, brk := .inr rfl }
        · rintro rfl
          exact visible ⟨first, by rw [terminator, first]⟩
        · exact fun same => absurd (show lf = cr from same.1) (by decide)

end Unlimited

/-! ## The byte strings whose cuts do not matter -/

theorem focus_among (node : Node) (before : List ParseTree) (child : ParseTree)
    (after : List ParseTree) :
    focusAmong node (before ++ child :: after) before.length = focusNode child := by
  induction before with
  | nil => rfl
  | cons first before ih => exact ih

theorem focus_plug (frames : List Frame) (tree : ParseTree)
    (ready : ∀ frame ∈ frames, frame.Ready) : focusNode (plug frames tree) = focusNode tree := by
  induction frames generalizing tree with
  | nil => rfl
  | cons frame frames ih =>
    rw [plug, ih _ (forall_mem_cons.mp ready).2]
    have current := (ready frame mem_cons_self).current
    simp only [Frame.tree, focusNode, current, focus_among]

theorem focus_machine (sound : machine.Sound stack) : focusNode machine.tree = machine.node :=
  focus_plug machine.frames _ sound.frames

theorem fresh_sound (stack : Nat) : (startAt []).Sound stack :=
  start_sound (by simp) (Nat.zero_le _)

theorem phase_of_integer (focus : PhaseOk phase node)
    (kind : node.type = some .integer) : phase = .number := by
  cases phase <;> simp_all [PhaseOk, newNode]

theorem phase_of_unlimited (focus : PhaseOk phase node) (kind : node.type = some .bulk)
    (line : node.want = 0) {front : List Byte} (traced : Traced front ⟨frames, phase, node⟩) :
    phase = .text ∨ (phase = .length ∧ node.reply.str = .null) := by
  cases phase with
  | opcode =>
    have fresh : node = newNode := focus
    simp [fresh, newNode] at kind
  | text => exact .inl rfl
  | number => simp [focus.1] at kind
  | length => exact .inr ⟨rfl, (traced.length rfl).1⟩
  | body => exact absurd line focus.2.2.1
  | count => simp [focus.1] at kind

theorem differs_whole {front : List Byte}
    (reached : run (step stack) (startAt []) front = .more machine) (given : front ≠ [])
    (differs : Differs stack machine back) :
    ∃ fragments : List (List Byte), (∀ f ∈ fragments, f ≠ []) ∧
      fragments.flatten = front ++ back ∧
      observe (feed stack parseTreeNew fragments) ≠
        observe (feed stack parseTreeNew [front ++ back]) := by
  obtain ⟨skip, cuts, next, rfl, cutsGiven, solid, paused, shows⟩ := differs
  have here : run (step stack) (resume (startAt [])) (front ++ skip) = .more next := by
    rw [run_append]
    change extend _ (run (step stack) (startAt []) front) skip = _
    rw [reached]
    exact paused
  refine ⟨(front ++ skip) :: cuts, ?_, by simp, ?_⟩
  · rintro f (_ | ⟨_, member⟩)
    · simp [given]
    · exact solid f member
  · have sound := fresh_sound stack
    change observe (feed stack (startAt []).tree _) ≠ observe (feed stack (startAt []).tree _)
    rw [feed_paused sound (by simp [given]) here, feed_single sound (by simp [given]),
      ← append_assoc, run_append, here]
    simp only [extend, length_append]
    rw [view_shift _ _ _ (code_left_length stack next cuts.flatten)]
    intro same
    apply shows
    have code := congrArg (fun out => out.1) same
    have reply := congrArg (fun out => out.2.1) same
    have consumed := congrArg (fun out => out.2.2) same
    exact Prod.ext code (Prod.ext reply (Nat.add_left_cancel consumed))

theorem fresh_parse (stack : Nat) (front : List Byte) (given : front ≠ []) :
    parse (stack + 1) parseTreeNew front = codeOf (run (step (stack + 1)) (startAt []) front) :=
  parse_machine (stack + 1) (startAt []) front (fresh_sound (stack + 1)).ready given

theorem safe_of_independent {front : List Byte}
    (independent : ∀ fragments : List (List Byte), (∀ f ∈ fragments, f ≠ []) →
      fragments.flatten = front ++ back →
      observe (feed (stack + 1) parseTreeNew fragments) =
        observe (feed (stack + 1) parseTreeNew [front ++ back])) (frontGiven : front ≠ [])
    (backGiven : back ≠ []) (reached : run (step (stack + 1)) (startAt []) front = .more machine) :
    CutSafe machine.node back := by
  have sound := run_sound (fresh_sound (stack + 1)) reached
  have traced := run_traced reached (fresh_sound (stack + 1))
  have invisible : ¬Differs (stack + 1) machine back := by
    intro differs
    obtain ⟨fragments, solid, whole, shows⟩ := differs_whole reached frontGiven differs
    exact shows (independent fragments solid whole)
  obtain ⟨frames, phase, node⟩ := machine
  have focus := sound.focus
  refine ⟨fun kind sign value rest found => ?_, fun kind line str => ?_⟩
  · have kind : node.type = some .integer := kind
    obtain rfl : phase = .number := phase_of_integer focus kind
    by_contra visible
    exact invisible (sign_differs sound sign found visible)
  · have kind : node.type = some .bulk := kind
    obtain rfl | ⟨rfl, null⟩ := phase_of_unlimited focus kind line traced
    · obtain ⟨typed, len, buffer, bound, brk, -⟩ := traced.unlimited rfl kind
      by_contra visible
      exact invisible (Unlimited.differs back node
        ⟨sound, kind, typed, len, buffer, bound, brk⟩ backGiven visible)
    · exact absurd null str

theorem independent_of_safe {fragments : List (List Byte)} (solid : ∀ f ∈ fragments, f ≠ [])
    (safe : CutsSafe (stack + 1) (startAt []) fragments.flatten) :
    observe (feed (stack + 1) parseTreeNew fragments) =
      observe (feed (stack + 1) parseTreeNew [fragments.flatten]) := by
  have sound := fresh_sound (stack + 1)
  by_cases none : fragments = []
  · subst none
    rfl
  · have given : fragments.flatten ≠ [] := by
      obtain ⟨first, others, rfl⟩ := exists_cons_of_ne_nil none
      simp [solid first mem_cons_self]
    exact (feed_cuts_safe fragments (startAt []) sound none solid safe).trans
      (feed_single sound given).symm

/-- Feeding the fragments of `input` ends like feeding it in one piece, for
every way of cutting it, exactly if every cut at which the parser asks for more
bytes is harmless. -/
theorem fragmentation_independent_iff (stack : Nat) (input : List Byte) :
    (∀ fragments : List (List Byte), (∀ f ∈ fragments, f ≠ []) → fragments.flatten = input →
      observe (feed (stack + 1) parseTreeNew fragments) =
        observe (feed (stack + 1) parseTreeNew [input])) ↔
    ∀ front back tree, input = front ++ back → front ≠ [] → back ≠ [] →
      parse (stack + 1) parseTreeNew front = (.retry, tree, []) →
      CutSafe (focusNode tree) back := by
  have sound := fresh_sound (stack + 1)
  constructor
  · rintro independent front back tree rfl frontGiven backGiven asked
    rw [fresh_parse stack front frontGiven] at asked
    cases reached : run (step (stack + 1)) (startAt []) front with
    | stop final left =>
      rw [reached] at asked
      exact absurd (congrArg (fun out => out.1) asked) (run_decided reached)
    | more machine =>
      rw [reached] at asked
      cases asked
      rw [focus_machine (run_sound sound reached)]
      exact safe_of_independent independent frontGiven backGiven reached
  · rintro safe fragments solid rfl
    refine independent_of_safe solid ?_
    intro front back split frontGiven backGiven next paused
    have asked := fresh_parse stack front frontGiven
    rw [paused] at asked
    have cut := safe front back next.tree split frontGiven backGiven asked
    rwa [focus_machine (run_sound sound paused)] at cut

/-! ## Inputs that may be cut anywhere -/

/-- No minus sign stands between a `:` and the next line feed, and no `$` is
followed by eleven digits and `\r`. -/
structure Uncritical (input : List Byte) : Prop where
  number : ∀ rest, 58 :: rest <:+ input → minus ∉ rest.takeWhile (· != lf)
  length : ∀ rest, 36 :: rest <:+ input → (rest.takeWhile fun c => isNum c || c == cr).length < 11

/-- For a cut to show, the bytes have to hold a minus sign in an integer line or
a length of ten digits. -/
theorem uncritical_fragmentation_independent (stack : Nat) (fragments : List (List Byte))
    (solid : ∀ f ∈ fragments, f ≠ []) (uncritical : Uncritical fragments.flatten) :
    observe (feed (stack + 1) parseTreeNew fragments) =
      observe (feed (stack + 1) parseTreeNew [fragments.flatten]) := by
  refine independent_of_safe solid ?_
  intro front back split frontGiven backGiven machine reached
  have sound := run_sound (fresh_sound (stack + 1)) reached
  have traced := run_traced reached (fresh_sound (stack + 1))
  refine ⟨fun kind sign => ?_, fun kind line str => ?_⟩
  · obtain ⟨line, suffix, inside, signed⟩ :=
      traced.number (phase_of_integer sound.focus kind)
    refine absurd ?_ (uncritical.number (line ++ back) ?_)
    · rw [takeWhile_append_of_pos]
      · exact mem_append_left _ (signed sign)
      · intro c member
        have other : c ≠ lf := fun same => inside (same ▸ member)
        simpa using other
    · rw [split]
      obtain ⟨before, rfl⟩ := suffix
      exact ⟨before, by simp⟩
  · obtain text | ⟨-, null⟩ := phase_of_unlimited sound.focus kind line traced
    · obtain ⟨-, -, -, -, -, line, rest, suffix, plain, long⟩ := traced.unlimited text kind
      have short := uncritical.length (line ++ (rest ++ back)) (by
        rw [split]
        obtain ⟨before, rfl⟩ := suffix
        exact ⟨before, by simp⟩)
      rw [takeWhile_append_of_pos plain, length_append] at short
      omega
    · exact absurd null str

/-- The integer `-5`, cut behind its sign, arrives as `5`. -/
theorem negative_integer_cut :
    observe (feed 1 parseTreeNew [[58, 45], [53, 13, 10]]) =
        (.ok, .mk .integer 5 0 [] 0 [], 5) ∧
      observe (feed 1 parseTreeNew [[58, 45, 53, 13, 10]]) =
        (.ok, .mk .integer (-5) 0 [] 0 [], 5) ∧
      observe (feed 1 parseTreeNew [[58, 45], [53, 13, 10]]) ≠
        observe (feed 1 parseTreeNew [[58, 45, 53, 13, 10]]) := by
  have fragments : observe (feed 1 parseTreeNew [[58, 45], [53, 13, 10]]) =
      (.ok, .mk .integer 5 0 [] 0 [], 5) := rfl
  have whole : observe (feed 1 parseTreeNew [[58, 45, 53, 13, 10]]) =
      (.ok, .mk .integer (-5) 0 [] 0 [], 5) := rfl
  refine ⟨fragments, whole, ?_⟩
  rw [fragments, whole]
  simp

end Chuck.RedisParserFragments
