import Chuck.RedisParserModel
import Chuck.Support.StreamMachine

/-!
# The Redis reply parser as a pushdown machine

The recursive parser walks down from the root to the node it stopped at and
goes on from there. Here that node is kept in the focus, with the arrays around
it as a stack of frames, so that each byte is one step. `parse_machine` says
that a call of `parse` is a run of this machine, started after `resume` has
reread the focus the way the source does at the start of a call.
-/

namespace Chuck.RedisParserMachine

open RedisParserModel Support.StreamMachine List

inductive Phase where
  | opcode
  | text
  | number
  | length
  | body
  | count
  deriving DecidableEq, Repr

/-- An array behind its count line: the finished children and the number of
children that follow the current one. -/
structure Frame where
  node : Node
  before : List ParseTree
  left : Nat

def Frame.tree (frame : Frame) (child : ParseTree) : ParseTree :=
  .mk frame.node (frame.before ++ child :: List.replicate frame.left parseTreeNew)

def plug : List Frame → ParseTree → ParseTree
  | [], tree => tree
  | frame :: frames, tree => plug frames (frame.tree tree)

structure Machine where
  frames : List Frame
  phase : Phase
  node : Node

variable {c : Byte} {machine : Machine}

def Machine.tree (machine : Machine) : ParseTree :=
  plug machine.frames (.mk machine.node [])

abbrev Halt := Ret × ParseTree

def startAt (frames : List Frame) : Machine :=
  { frames := frames, phase := .opcode, node := newNode }

def nextFrame (frame : Frame) (child : ParseTree) (left : Nat) : Frame :=
  { node := { frame.node with pos := frame.node.pos + 1 }
    before := frame.before ++ [child]
    left := left }

def close : List Frame → ParseTree → Next Machine Halt
  | [], tree => .stop (.ok, tree)
  | frame :: frames, tree =>
    match frame.left with
    | 0 => close frames (.mk { frame.node with pos := frame.node.pos + 1 } (frame.before ++ [tree]))
    | left + 1 => .more (startAt (nextFrame frame tree left :: frames))

def readied (node : Node) : Node :=
  { node with reply := { node.reply with
      str := if node.reply.str = .null then .tmpBuff else node.reply.str } }

def takePhase (op : OpCode) (node : Node) : Phase :=
  match op with
  | .status | .error => .text
  | .integer => .number
  | .bulk => if node.want ≠ 0 then .body else .length
  | .multi => .count

/-- The node as the `switch` of `parse` takes it up: the sign of an integer is
set anew on every call. -/
def takeNode (op : OpCode) (node : Node) : Node :=
  match op with
  | .status | .error => readied node
  | .integer => { node with want := 1 }
  | .bulk | .multi => node

def typedNode (op : OpCode) (node : Node) : Node :=
  { node with type := some op, reply := { node.reply with type := opType op } }

def openBody (node : Node) : Node :=
  { node with
    want := toSizeT (toInt32 (node.reply.len + 2))
    reply := { node.reply with
      str := if node.reply.str = .null then
          if toInt32 (node.reply.len + 1) > sizeTmpBuff then .heap (node.reply.len + 1).toNat
          else .tmpBuff
        else node.reply.str } }

/-- One byte of a line: `finish` takes over at the last terminator. -/
def lineStep (frames : List Frame) (phase : Phase) (onByte : Node → Byte → Option Node) (bad : Ret)
    (finish : Node → Next Machine Halt) (node : Node) (c : Byte) : Step Machine Halt :=
  if c ≠ node.brk then
    match onByte node c with
    | some next => .read (.more { frames := frames, phase := phase, node := next })
    | none => .refuse (bad, plug frames (.mk node []))
  else if node.brk = lf then .read (finish node)
  else .read (.more { frames := frames, phase := phase, node := { node with brk := lf } })

def closeString (frames : List Frame) (node : Node) : Next Machine Halt :=
  if toSizeT node.reply.len = node.pos ∧ node.pos < node.reply.str.capacity then
    close frames (.mk node [])
  else .stop (.fault, plug frames (.mk node []))

def endText (node : Node) : Node :=
  { node with reply := { node.reply with len := toInt32 node.pos } }

def closeText (frames : List Frame) (node : Node) : Next Machine Halt :=
  closeString frames (endText node)

def closeNumber (frames : List Frame) (node : Node) : Next Machine Halt :=
  close frames (.mk { node with reply :=
    { node.reply with integer := toInt64 (node.reply.integer * node.want) } } [])

def closeLength (frames : List Frame) (node : Node) : Next Machine Halt :=
  let node := { node with brk := cr }
  if node.reply.type = .nil then close frames (.mk node [])
  else
    let node := openBody node
    .more { frames := frames, phase := if node.want = 0 then .text else .body, node := node }

def closeCount (frames : List Frame) (node : Node) : Next Machine Halt :=
  let node := { node with brk := cr, want := node.reply.elements }
  match node.want with
  | 0 => close frames (.mk node [])
  | left + 1 =>
    if node.want * 8 ≥ 2 ^ 64 then .stop (.err, plug frames (.mk node []))
    else .more (startAt ({ node := node, before := [], left := left } :: frames))

def bulkStep (frames : List Frame) (node : Node) (c : Byte) : Step Machine Halt :=
  if node.want > 2 then
    match storeByte node c with
    | some next => .read (.more ⟨frames, .body, { next with want := next.want - 1 }⟩)
    | none => .refuse (.fault, plug frames (.mk node []))
  else
    let node := { node with want := node.want - 1 }
    if node.want = 0 then .read (closeString frames node)
    else .read (.more { frames := frames, phase := .body, node := node })

def step (stack : Nat) (machine : Machine) (c : Byte) : Step Machine Halt :=
  let frames := machine.frames
  if stack ≤ frames.length then .refuse (.deep, machine.tree)
  else
    match machine.phase with
    | .opcode =>
      match opCode c with
      | none => .read (.stop (.err, machine.tree))
      | some op =>
        let node := typedNode op machine.node
        .read (.more { frames := frames, phase := takePhase op node, node := takeNode op node })
    | .text => lineStep frames .text storeByte .fault (closeText frames) machine.node c
    | .number => lineStep frames .number integerByte .err (closeNumber frames) machine.node c
    | .length => lineStep frames .length lenByte .err (closeLength frames) machine.node c
    | .body => bulkStep frames machine.node c
    | .count => lineStep frames .count elementsByte .err (closeCount frames) machine.node c

def codeOf : Outcome Machine Byte Halt → Ret × ParseTree × List Byte
  | .more machine => (.retry, machine.tree, [])
  | .stop (ret, tree) left => (ret, tree, left)

def resume (machine : Machine) : Machine :=
  match machine.node.type with
  | none => { machine with phase := .opcode }
  | some op =>
    { machine with phase := takePhase op machine.node, node := takeNode op machine.node }

/-! ## What each byte does to a node -/

theorem store_byte_some {node next : Node} (stored : storeByte node c = some next) :
    node.pos < node.reply.str.capacity ∧
      next = { node with
        pos := node.pos + 1
        reply := { node.reply with bytes := node.reply.bytes ++ [c] } } := by
  unfold storeByte at stored
  split_ifs at stored with fits
  cases stored
  exact ⟨fits, rfl⟩

theorem integer_byte_some {node next : Node} (read : integerByte node c = some next) :
    (c = minus ∧ next = { node with want := sizeMax }) ∨
      (isNum c = true ∧ next = { node with reply :=
        { node.reply with integer := toInt64 (node.reply.integer * 10 + digit c) } }) := by
  unfold integerByte at read
  split_ifs at read with sign number <;> cases read
  · exact .inl ⟨sign, rfl⟩
  · exact .inr ⟨number, rfl⟩

theorem len_byte_some {node next : Node} (read : lenByte node c = some next) :
    (c = minus ∧ next = { node with reply := { node.reply with type := .nil } }) ∨
      (isNum c = true ∧ next = { node with reply :=
        { node.reply with len := toInt32 (node.reply.len * 10 + digit c) } }) := by
  unfold lenByte at read
  split_ifs at read with sign number <;> cases read
  · exact .inl ⟨sign, rfl⟩
  · exact .inr ⟨number, rfl⟩

theorem elements_byte_some {node next : Node} (read : elementsByte node c = some next) :
    (c = minus ∧ next = { node with reply := { node.reply with type := .nil } }) ∨
      (isNum c = true ∧ next = { node with reply :=
        { node.reply with elements := (node.reply.elements * 10 + digit c) % 2 ^ 64 } }) := by
  unfold elementsByte at read
  split_ifs at read with sign number <;> cases read
  · exact .inl ⟨sign, rfl⟩
  · exact .inr ⟨number, rfl⟩

/-! ## One call of the parser is one run -/

def lift (stack : Nat) (frames : List Frame) :
    Ret × ParseTree × List Byte → Ret × ParseTree × List Byte
  | (.ok, tree, rest) => codeOf (proceed (step stack) (close frames tree) rest)
  | (ret, tree, rest) => (ret, plug frames tree, rest)

theorem lift_nil (stack : Nat) (out : Ret × ParseTree × List Byte) : lift stack [] out = out := by
  obtain ⟨ret, tree, rest⟩ := out
  cases ret <;> rfl

section Lines

variable {stack : Nat} {frames : List Frame} {phase : Phase}
  {onByte : Node → Byte → Option Node} {bad : Ret} {finish : Node → Next Machine Halt}

theorem run_line
    (reads : ∀ node c, step stack ⟨frames, phase, node⟩ c =
      lineStep frames phase onByte bad finish node c) (node : Node) (input : List Byte) :
    run (step stack) ⟨frames, phase, node⟩ input =
      match lineLoop onByte node input with
      | .done node rest => proceed (step stack) (finish node) rest
      | .more node => .more ⟨frames, phase, node⟩
      | .bad node rest => .stop (bad, plug frames (.mk node [])) rest := by
  induction input generalizing node with
  | nil => rfl
  | cons c rest ih =>
    have taken := reads node c
    simp only [lineLoop]
    unfold lineStep at taken
    by_cases ordinary : c ≠ node.brk
    · rw [if_pos ordinary] at taken ⊢
      cases accepted : onByte node c with
      | some next =>
        rw [accepted] at taken
        rw [run_read _ taken]
        exact ih next
      | none =>
        rw [accepted] at taken
        rw [run_refuse _ taken]
    · rw [if_neg ordinary] at taken ⊢
      by_cases last : node.brk = lf
      · rw [if_pos last] at taken ⊢
        rw [run_read _ taken]
      · rw [if_neg last] at taken ⊢
        rw [run_read _ taken]
        exact ih _

end Lines

section Leaves

variable {stack : Nat} {frames : List Frame}

theorem step_shallow (room : frames.length < stack) (phase : Phase) (node : Node) (c : Byte) :
    step stack ⟨frames, phase, node⟩ c =
      match phase with
      | .opcode =>
        match opCode c with
        | none => .read (.stop (.err, plug frames (.mk node [])))
        | some op =>
          .read (.more {
            frames := frames
            phase := takePhase op (typedNode op node)
            node := takeNode op (typedNode op node) })
      | .text => lineStep frames .text storeByte .fault (closeText frames) node c
      | .number => lineStep frames .number integerByte .err (closeNumber frames) node c
      | .length => lineStep frames .length lenByte .err (closeLength frames) node c
      | .body => bulkStep frames node c
      | .count => lineStep frames .count elementsByte .err (closeCount frames) node c := by
  unfold step
  rw [if_neg (Nat.not_le.mpr room)]
  cases phase <;> rfl

theorem lift_end_string (node : Node) (rest : List Byte) :
    lift stack frames (withLeaf [] (endString node rest)) =
      codeOf (proceed (step stack) (closeString frames node) rest) := by
  unfold endString closeString
  split_ifs <;> rfl

theorem run_bulk (room : frames.length < stack) (node : Node) (input : List Byte)
    (wanted : node.want ≠ 0) :
    run (step stack) ⟨frames, .body, node⟩ input =
      match bulkLoop node input with
      | (.ok, node, rest) => proceed (step stack) (closeString frames node) rest
      | (.retry, node, _) => .more ⟨frames, .body, node⟩
      | (ret, node, rest) => .stop (ret, plug frames (.mk node [])) rest := by
  induction input generalizing node with
  | nil =>
    simp only [bulkLoop]
    rw [if_neg wanted]
    rfl
  | cons c rest ih =>
    have taken := step_shallow room .body node c
    simp only [bulkStep] at taken
    simp only [bulkLoop]
    rw [if_neg wanted]
    by_cases content : node.want > 2
    · rw [if_pos content] at taken ⊢
      cases stored : storeByte node c with
      | some next =>
        have same : next.want = node.want := by
          unfold storeByte at stored
          split_ifs at stored
          cases stored
          rfl
        rw [stored] at taken
        rw [run_read _ taken]
        exact ih { next with want := next.want - 1 } (by simp only; omega)
      | none =>
        rw [stored] at taken
        rw [run_refuse _ taken]
    · rw [if_neg content] at taken ⊢
      by_cases last : node.want - 1 = 0
      · rw [if_pos last] at taken
        rw [run_read _ taken]
        -- The loop stops on the first byte of `rest` without reading it.
        cases rest with
        | nil => simp only [bulkLoop, last, if_true]
        | cons c rest => simp only [bulkLoop, last, if_true]
      · rw [if_neg last] at taken
        rw [run_read _ taken]
        exact ih { node with want := node.want - 1 } last

theorem bulk_loop_retry {node next : Node} {input rest : List Byte}
    (retried : bulkLoop node input = (.retry, next, rest)) : rest = [] := by
  induction input generalizing node with
  | nil =>
    rw [bulkLoop] at retried
    split_ifs at retried
    · cases retried
    · exact (congrArg (fun out => out.2.2) retried).symm
  | cons c input ih =>
    rw [bulkLoop] at retried
    split_ifs at retried with finished content
    · cases retried
    · cases stored : storeByte node c with
      | some next => rw [stored] at retried; exact ih retried
      | none => rw [stored] at retried; cases retried
    · exact ih retried

section

variable (room : frames.length < stack) (node : Node) (input : List Byte)

include room input

theorem string_machine :
    lift stack frames (withLeaf [] (parseString node input)) =
      codeOf (run (step stack)
        ⟨frames, if node.want = 0 then .text else .body, readied node⟩ input) := by
  have prepared : (if node.reply.str = .null then
      { node with reply := { node.reply with str := .tmpBuff } } else node) = readied node := by
    unfold readied
    split_ifs <;> rfl
  unfold parseString
  rw [prepared]
  change lift stack frames (withLeaf []
    (if (readied node).want ≠ 0 then _ else _)) = codeOf (run _
      { frames := frames, phase := if (readied node).want = 0 then .text else .body, node := _ } _)
  by_cases wanted : (readied node).want = 0
  · rw [if_neg (not_not.mpr wanted), if_pos wanted,
      run_line (fun node c => step_shallow room .text node c)]
    cases lineLoop storeByte (readied node) input with
    | done node rest => exact lift_end_string _ rest
    | more node => rfl
    | bad node rest => rfl
  · rw [if_pos wanted, if_neg wanted, run_bulk room _ _ wanted]
    rcases looped : bulkLoop (readied node) input with ⟨ret, node, rest⟩
    cases ret with
    | ok => exact lift_end_string node rest
    | retry => rw [bulk_loop_retry looped]; rfl
    | err => rfl
    | fault => rfl
    | deep => rfl

theorem number_machine :
    lift stack frames (withLeaf [] (parseInteger node input)) =
      codeOf (run (step stack) ⟨frames, .number, node⟩ input) := by
  unfold parseInteger
  rw [run_line (fun node c => step_shallow room .number node c)]
  cases lineLoop integerByte node input with
  | done node rest => rfl
  | more node => rfl
  | bad node rest => rfl

theorem body_machine :
    lift stack frames (withLeaf []
      (breplyBody { node with want := toSizeT (toInt32 (node.reply.len + 2)) } input)) =
      codeOf (run (step stack)
        ⟨frames, if (openBody node).want = 0 then .text else .body, openBody node⟩ input) := by
  unfold breplyBody
  rw [string_machine room]
  congr 2
  by_cases null : node.reply.str = .null
  · by_cases large : toInt32 (node.reply.len + 1) > sizeTmpBuff
    · simp [null, large, readied, openBody]
    · simp [null, large, readied, openBody]
  · simp [null, readied, openBody]

theorem length_machine (unread : node.want = 0) :
    lift stack frames (withLeaf [] (parseBreply node input)) =
      codeOf (run (step stack) ⟨frames, .length, node⟩ input) := by
  unfold parseBreply
  rw [if_neg (not_not.mpr unread), run_line (fun node c => step_shallow room .length node c)]
  cases lineLoop lenByte node input with
  | done node rest =>
    simp only [closeLength]
    by_cases nil : node.reply.type = .nil
    · rw [if_pos nil, if_pos nil]
      rfl
    · rw [if_neg nil, if_neg nil]
      exact body_machine room { node with brk := cr } rest
  | more node => rfl
  | bad node rest => rfl

end

end Leaves

section Arrays

variable {stack level : Nat} {frames : List Frame}

def arrayOut (frame : Frame) : Ret × Nat × List ParseTree × List Byte → Ret × ParseTree × List Byte
  | (ret, finished, parsed, rest) =>
    (ret, .mk { frame.node with pos := frame.node.pos + finished } (frame.before ++ parsed), rest)

theorem array_out_shift (frame : Frame) (child : ParseTree) (left : Nat)
    (out : Ret × Nat × List ParseTree × List Byte) :
    arrayOut frame (out.1, out.2.1 + 1, child :: out.2.2.1, out.2.2.2) =
      arrayOut (nextFrame frame child left) out := by
  simp [arrayOut, nextFrame, Nat.add_assoc, Nat.add_comm 1]

theorem childs_after (frame : Frame) (child : ParseTree) (input : List Byte) (given : input ≠ [])
    (others : ∀ child left rest, frame.left = left + 1 →
      lift stack frames (arrayOut (nextFrame frame child left) (childLoop (parse level)
        (parseTreeNew :: List.replicate left parseTreeNew) rest)) =
      codeOf (run (step stack) (startAt (nextFrame frame child left :: frames)) rest)) :
    lift stack frames (arrayOut frame (childLoop (parse level)
      (child :: List.replicate frame.left parseTreeNew) input)) =
      lift stack (frame :: frames) (parse level child input) := by
  obtain ⟨node, before, left⟩ := frame
  rw [childLoop, if_neg given]
  rcases parse level child input with ⟨ret, child, rest⟩
  cases ret with
  | ok =>
    cases left with
    | zero => rfl
    | succ left =>
      exact (congrArg (lift stack frames) (array_out_shift _ child left _)).trans
        (others child left rest rfl)
  | retry => rfl
  | err => rfl
  | fault => rfl
  | deep => rfl

variable (fresh : ∀ frame input, input ≠ [] →
  lift stack (frame :: frames) (parse level parseTreeNew input) =
    codeOf (run (step stack) (startAt (frame :: frames)) input))

include fresh

theorem childs_start (frame : Frame) (input : List Byte) :
    lift stack frames (arrayOut frame (childLoop (parse level)
      (parseTreeNew :: List.replicate frame.left parseTreeNew) input)) =
      codeOf (run (step stack) (startAt (frame :: frames)) input) := by
  obtain ⟨left, same⟩ : ∃ left, frame.left = left := ⟨_, rfl⟩
  induction left generalizing frame input with
  | zero =>
    by_cases given : input = []
    · subst given
      rfl
    · rw [childs_after frame parseTreeNew input given, fresh frame input given]
      intro _ left _ more
      omega
  | succ left ih =>
    by_cases given : input = []
    · subst given
      rfl
    · rw [childs_after frame parseTreeNew input given, fresh frame input given]
      intro child left' rest more
      exact ih (nextFrame frame child left') rest (by simp only [nextFrame]; omega)

theorem childs_machine (frame : Frame) (child : ParseTree) (machine : Machine)
    (input : List Byte) (given : input ≠ [])
    (first : lift stack (frame :: frames) (parse level child input) =
      codeOf (run (step stack) machine input)) :
    lift stack frames (arrayOut frame (childLoop (parse level)
      (child :: List.replicate frame.left parseTreeNew) input)) =
      codeOf (run (step stack) machine input) := by
  rw [childs_after frame child input given, first]
  intro child left rest _
  exact childs_start fresh (nextFrame frame child left) rest

omit fresh

theorem line_loop_keeps {onByte : Node → Byte → Option Node} (Keeps : Node → Prop)
    (onStep : ∀ node c next, Keeps node → onByte node c = some next → Keeps next)
    (onBreak : ∀ node, Keeps node → Keeps { node with brk := lf })
    {node final : Node} {input rest : List Byte} (holds : Keeps node)
    (finished : lineLoop onByte node input = .done final rest) : Keeps final := by
  induction input generalizing node with
  | nil => cases finished
  | cons c input ih =>
    rw [lineLoop] at finished
    split_ifs at finished with ordinary last
    · cases accepted : onByte node c with
      | some next =>
        rw [accepted] at finished
        exact ih (onStep node c next holds accepted) finished
      | none => rw [accepted] at finished; cases finished
    · cases finished
      exact holds
    · exact ih (onBreak node holds) finished

include fresh

theorem count_machine (room : frames.length < stack) (node : Node) (input : List Byte)
    (unread : node.want = 0) (first : node.pos = 0) :
    lift stack frames (parseMbreply (parse level) node [] input) =
      codeOf (run (step stack) ⟨frames, .count, node⟩ input) := by
  unfold parseMbreply
  rw [if_neg (not_not.mpr unread), run_line (fun node c => step_shallow room .count node c)]
  cases looped : lineLoop elementsByte node input with
  | more node => rfl
  | bad node rest => rfl
  | done node rest =>
    have start : node.pos = 0 := line_loop_keeps (fun node => node.pos = 0)
      (fun node c next holds accepted => by
        rcases elements_byte_some accepted with ⟨-, rfl⟩ | ⟨-, rfl⟩ <;> exact holds)
      (fun node holds => holds) first looped
    simp only [closeCount]
    cases elements : node.reply.elements with
    | zero => simp [mbreplyBody, childLoop, lift, proceed, start]
    | succ left =>
      by_cases large : (left + 1) * 8 ≥ 2 ^ 64
      · have full : left + 1 > 0 ∧ ([] : List ParseTree) = [] ∧ (left + 1) * 8 ≥ 2 ^ 64 :=
          ⟨Nat.succ_pos left, rfl, large⟩
        rw [mbreplyBody, if_pos full]
        dsimp only
        rw [if_pos large]
        rfl
      · simp only [large, if_false]
        refine Eq.trans ?_ (childs_start fresh
          { node := { node with brk := cr, want := left + 1 }, before := [], left := left } rest)
        have fits : ¬(left + 1 > 0 ∧ ([] : List ParseTree) = [] ∧ (left + 1) * 8 ≥ 2 ^ 64) :=
          fun full => large full.2.2
        rw [mbreplyBody, if_neg fits]
        simp [start, arrayOut, replicate_succ]

omit fresh

structure Ready (node : Node) : Prop where
  fresh : node.type = none → node = newNode
  typed : node.type ≠ none → node.reply.type ≠ .none
  text : node.type = some .status ∨ node.type = some .error →
    node.want = 0 ∧ node.reply.str ≠ .null
  bulk : node.type = some .bulk → node.want ≠ 0 → node.reply.str ≠ .null
  multi : node.type = some .multi → node.want = 0 ∧ node.pos = 0

structure Frame.Ready (frame : Frame) : Prop where
  multi : frame.node.type = some .multi
  typed : frame.node.reply.type ≠ .none
  wanted : frame.node.want ≠ 0
  current : frame.node.pos = frame.before.length

include fresh

theorem switch_machine (room : frames.length < stack) (op : OpCode) (node : Node)
    (input : List Byte) (typed : node.reply.type ≠ .none)
    (text : op = .status ∨ op = .error → node.want = 0)
    (bulk : op = .bulk → node.want ≠ 0 → node.reply.str ≠ .null)
    (multi : op = .multi → node.want = 0 ∧ node.pos = 0) :
    lift stack frames (parseSwitch (parse level) op node [] input) =
      codeOf (run (step stack) ⟨frames, takePhase op node, takeNode op node⟩ input) := by
  unfold parseSwitch
  rw [if_neg typed]
  cases op with
  | status =>
    have string := string_machine room node input
    rw [if_pos (text (.inl rfl))] at string
    exact string
  | error =>
    have string := string_machine room node input
    rw [if_pos (text (.inr rfl))] at string
    exact string
  | integer => exact number_machine room { node with want := 1 } input
  | bulk =>
    by_cases unread : node.want = 0
    · simp only [takePhase, unread, ne_eq, not_true, if_false]
      exact length_machine room node input unread
    · have kept : readied node = node := by simp only [readied, bulk rfl unread, if_false]
      have string := string_machine room node input
      simp only [unread, if_false, kept] at string
      simp only [parseBreply, breplyBody, takePhase, unread, ne_eq, not_false_iff, if_true,
        bulk rfl unread, false_and, if_false]
      exact string
  | multi => exact count_machine fresh room node input (multi rfl).1 (multi rfl).2

omit fresh

end Arrays

theorem leaf_machine (stack level : Nat) (frames : List Frame) (node : Node) (input : List Byte)
    (levels : level + frames.length = stack) (ready : Ready node)
    (called : level ≠ 0 ∨ node.type = none ∧ input ≠ []) :
    lift stack frames (parse level (.mk node []) input) =
      codeOf (run (step stack) (resume ⟨frames, .opcode, node⟩) input) := by
  induction level generalizing frames node input with
  | zero =>
    obtain ⟨untyped, given⟩ := called.resolve_left (fun same => same rfl)
    obtain ⟨c, rest, rfl⟩ := exists_cons_of_ne_nil given
    have exhausted : step stack ⟨frames, .opcode, node⟩ c =
        .refuse (.deep, plug frames (.mk node [])) := by
      unfold step
      rw [if_pos (by simp only; omega)]
      rfl
    simp only [resume, untyped]
    rw [run_refuse _ exhausted]
    rfl
  | succ level ih =>
    have room : frames.length < stack := by omega
    have fresh : ∀ frame input, input ≠ [] →
        lift stack (frame :: frames) (parse level parseTreeNew input) =
          codeOf (run (step stack) (startAt (frame :: frames)) input) := by
      intro frame input given
      exact ih (frame :: frames) newNode input (by simp only [length_cons]; omega)
        ⟨fun _ => rfl, by simp [newNode], by simp [newNode], by simp [newNode],
          by simp [newNode]⟩ (.inr ⟨rfl, given⟩)
    cases typed : node.type with
    | none =>
      cases input with
      | nil => simp [parse, resume, typed, run, codeOf, lift, Machine.tree]
      | cons c rest =>
        have taken := step_shallow room .opcode node c
        simp only [parse, resume, typed]
        cases read : opCode c with
        | none =>
          simp only [read] at taken
          rw [run_read _ taken]
          rfl
        | some op =>
          simp only [read] at taken
          rw [run_read _ taken]
          have start := ready.fresh typed
          subst start
          have started : parseSwitch (parse level) op { newNode with type := some op } []
              rest = parseSwitch (parse level) op (typedNode op newNode) [] rest := by
            cases op <;> rfl
          refine (congrArg (lift stack frames) started).trans ?_
          exact switch_machine fresh room op (typedNode op newNode) rest
            (by cases op <;> simp [typedNode, opType]) (fun _ => rfl)
            (fun _ wanted => absurd rfl wanted) (fun _ => ⟨rfl, rfl⟩)
    | some op =>
      have held : node.reply.type ≠ .none := ready.typed (by rw [typed]; simp)
      simp only [parse, resume, typed]
      refine switch_machine fresh room op node input held ?_ ?_ ?_
      · rintro (rfl | rfl)
        · exact (ready.text (.inl typed)).1
        · exact (ready.text (.inr typed)).1
      · rintro rfl
        exact ready.bulk typed
      · rintro rfl
        exact ready.multi typed

theorem new_node_ready : Ready newNode :=
  ⟨fun _ => rfl, by simp [newNode], by simp [newNode], by simp [newNode], by simp [newNode]⟩

theorem parse_frame (level : Nat) (frame : Frame) (child : ParseTree) (input : List Byte)
    (ready : frame.Ready) :
    parse (level + 1) (frame.tree child) input =
      arrayOut frame (childLoop (parse level)
        (child :: List.replicate frame.left parseTreeNew) input) := by
  have current := ready.current
  simp only [Frame.tree, parse, ready.multi, parseSwitch, ready.typed, if_false, parseMbreply,
    ready.wanted, ne_eq, not_false_iff, if_true, mbreplyBody, append_eq_nil_iff, reduceCtorEq,
    and_false, false_and, drop_append, take_append, current, Nat.sub_self,
    drop_length, take_length, drop_zero, nil_append, take_zero,
    append_nil, arrayOut]

theorem parse_frames (stack level : Nat) (frames : List Frame) (child : ParseTree)
    (machine : Machine) (input : List Byte) (levels : level + frames.length = stack)
    (ready : ∀ frame ∈ frames, frame.Ready) (given : input ≠ [])
    (first : lift stack frames (parse level child input) =
      codeOf (run (step stack) machine input)) :
    parse stack (plug frames child) input = codeOf (run (step stack) machine input) := by
  induction frames generalizing level child with
  | nil =>
    have same : level = stack := levels
    rw [← first, lift_nil, same]
    rfl
  | cons frame frames ih =>
    have fresh : ∀ frame input, input ≠ [] →
        lift stack (frame :: frames) (parse level parseTreeNew input) =
          codeOf (run (step stack) (startAt (frame :: frames)) input) := by
      intro frame input given
      exact leaf_machine stack level (frame :: frames) newNode input
        levels new_node_ready (.inr ⟨rfl, given⟩)
    refine ih (level + 1) (frame.tree child) (by simp only [length_cons] at levels; omega)
      (forall_mem_cons.mp ready).2 ?_
    rw [parse_frame level frame child input (ready frame mem_cons_self)]
    exact childs_machine fresh frame child machine input given first

structure Machine.Ready (stack : Nat) (machine : Machine) : Prop where
  node : RedisParserMachine.Ready machine.node
  frames : ∀ frame ∈ machine.frames, frame.Ready
  levels : machine.frames.length ≤ stack
  room : machine.node.type ≠ none → machine.frames.length < stack

/-- A call of `parse` with at least one byte is a run of the machine. -/
theorem parse_machine (stack : Nat) (machine : Machine) (input : List Byte)
    (ready : machine.Ready stack) (given : input ≠ []) :
    parse stack machine.tree input = codeOf (run (step stack) (resume machine) input) := by
  refine parse_frames stack (stack - machine.frames.length) machine.frames (.mk machine.node [])
    (resume machine) input (by have := ready.levels; omega) ready.frames given ?_
  refine leaf_machine stack (stack - machine.frames.length) machine.frames machine.node input
    (by have := ready.levels; omega) ready.node ?_
  by_cases typed : machine.node.type = none
  · exact .inr ⟨typed, given⟩
  · have room := ready.room typed
    exact .inl (by omega)

/-! ## What a step can do -/

section StepCases

variable {P : Step Machine Halt → Prop} {frames : List Frame}
  (goes : ∀ phase node, P (.read (.more { frames := frames, phase := phase, node := node })))
  (opens : ∀ node left,
    P (.read (.more (startAt ({ node := node, before := [], left := left } :: frames)))))
  (closes : ∀ node, P (.read (close frames (.mk node []))))
  (stops : ∀ ret node, ret ≠ .ok → ret ≠ .retry →
    P (.read (.stop (ret, plug frames (.mk node [])))))
  (refuses : ∀ ret node, ret ≠ .ok → ret ≠ .retry → P (.refuse (ret, plug frames (.mk node []))))

include goes refuses

theorem line_step_cases {phase : Phase} {onByte : Node → Byte → Option Node} {bad : Ret}
    {finish : Node → Next Machine Halt} (verdict : bad ≠ .ok ∧ bad ≠ .retry)
    (finishes : ∀ node, P (.read (finish node))) (node : Node) (c : Byte) :
    P (lineStep frames phase onByte bad finish node c) := by
  unfold lineStep
  split_ifs
  · cases onByte node c with
    | some next => exact goes phase next
    | none => exact refuses bad node verdict.1 verdict.2
  · exact finishes node
  · exact goes phase _

include opens closes stops

/-- Whatever the phase, a step changes the focus, opens an array, finishes the
focus or gives up. -/
theorem step_cases (stack : Nat) (phase : Phase) (node : Node) (c : Byte) :
    P (step stack ⟨frames, phase, node⟩ c) := by
  have strings : ∀ node, P (.read (closeString frames node)) := by
    intro node
    unfold closeString
    split_ifs
    · exact closes node
    · exact stops .fault node (by simp) (by simp)
  by_cases room : frames.length < stack
  · rw [step_shallow room]
    cases phase with
    | opcode =>
      cases opCode c with
      | none => exact stops .err node (by simp) (by simp)
      | some op => exact goes _ _
    | text => exact line_step_cases goes refuses (by simp) (fun node => strings _) node c
    | number => exact line_step_cases goes refuses (by simp) (fun node => closes _) node c
    | length =>
      refine line_step_cases goes refuses (by simp) (fun node => ?_) node c
      unfold closeLength
      simp only
      by_cases nil : node.reply.type = .nil
      · rw [if_pos nil]
        exact closes _
      · rw [if_neg nil]
        exact goes _ _
    | body =>
      simp only [bulkStep]
      split_ifs
      · cases storeByte node c with
        | some next => exact goes _ _
        | none => exact refuses .fault node (by simp) (by simp)
      · exact strings _
      · exact goes _ _
    | count =>
      refine line_step_cases goes refuses (by simp) (fun node => ?_) node c
      unfold closeCount
      cases elements : node.reply.elements with
      | zero => exact closes _
      | succ left =>
        simp only
        split_ifs
        · exact stops .err _ (by simp) (by simp)
        · exact opens _ left
  · unfold step
    rw [if_pos (Nat.not_lt.mp room)]
    exact refuses .deep node (by simp) (by simp)

end StepCases

theorem refuse_not_ok {stack : Nat} {final : Halt}
    (refused : step stack machine c = .refuse final) : final.1 ≠ .ok :=
  step_cases (P := fun taken => ∀ final, taken = .refuse final → final.1 ≠ .ok)
    (fun _ _ _ same => by cases same) (fun _ _ _ same => by cases same)
    (fun _ _ same => by cases same) (fun _ _ _ _ _ same => by cases same)
    (fun _ _ failed _ _ same => by cases same; exact failed)
    stack machine.phase machine.node c final refused

theorem run_ok_shorter {stack : Nat} {input left : List Byte} {tree : ParseTree}
    (stopped : run (step stack) machine input = .stop (.ok, tree) left) :
    left.length < input.length := by
  cases input with
  | nil => cases stopped
  | cons c input =>
    cases taken : step stack machine c with
    | refuse final =>
      rw [run_refuse _ taken] at stopped
      cases stopped
      exact absurd rfl (refuse_not_ok taken)
    | read next =>
      rw [run_read _ taken] at stopped
      cases next with
      | stop final =>
        cases stopped
        exact Nat.lt_succ_self _
      | more next => exact Nat.lt_succ_of_le (run_left_length _ _ _ _ _ stopped)

/-! ## States the machine can reach -/

def PhaseOk (phase : Phase) (node : Node) : Prop :=
  match phase with
  | .opcode => node = newNode
  | .text => (node.type = some .status ∨ node.type = some .error ∨ node.type = some .bulk) ∧
      node.reply.type ≠ .none ∧ node.want = 0 ∧ node.reply.str ≠ .null
  | .number => node.type = some .integer ∧ node.reply.type ≠ .none ∧
      (node.want = 1 ∨ node.want = sizeMax) ∧ toInt64 node.reply.integer = node.reply.integer
  | .length => node.type = some .bulk ∧ node.reply.type ≠ .none ∧ node.want = 0
  | .body => node.type = some .bulk ∧ node.reply.type ≠ .none ∧ node.want ≠ 0 ∧
      node.reply.str ≠ .null
  | .count => node.type = some .multi ∧ node.reply.type ≠ .none ∧ node.want = 0 ∧ node.pos = 0

structure Machine.Sound (stack : Nat) (machine : Machine) : Prop where
  focus : PhaseOk machine.phase machine.node
  frames : ∀ frame ∈ machine.frames, frame.Ready
  levels : machine.frames.length ≤ stack
  room : machine.phase ≠ .opcode → machine.frames.length < stack

theorem to_int32_bmod (value : Int) : toInt32 value = value.bmod (2 ^ 32) :=
  BitVec.toInt_ofInt value

theorem to_int64_bmod (value : Int) : toInt64 value = value.bmod (2 ^ 64) :=
  BitVec.toInt_ofInt value

theorem to_int64_idem (value : Int) : toInt64 (toInt64 value) = toInt64 value := by
  rw [to_int64_bmod, to_int64_bmod, Int.bmod_bmod]

theorem start_sound {stack : Nat} {frames : List Frame} (ready : ∀ frame ∈ frames, frame.Ready)
    (levels : frames.length ≤ stack) : (startAt frames).Sound stack :=
  ⟨rfl, ready, levels, fun other => absurd rfl other⟩

/-! What a step reaches, taken apart in the way the source reads a byte. -/

section Reached

variable {Inv : Machine → Prop} {Post : Halt → Prop} {frames : List Frame} {node : Node}

theorem line_step_all {phase : Phase} {onByte : Node → Byte → Option Node} {bad : Ret}
    {finish : Node → Next Machine Halt}
    (accepts : ∀ next, c ≠ node.brk → onByte node c = some next → Inv ⟨frames, phase, next⟩)
    (rejects : c ≠ node.brk → onByte node c = none → Post (bad, plug frames (.mk node [])))
    (finishes : c = node.brk → node.brk = lf → (finish node).All Inv Post)
    (turns : c = node.brk → node.brk ≠ lf → Inv ⟨frames, phase, { node with brk := lf }⟩) :
    (lineStep frames phase onByte bad finish node c).All Inv Post := by
  unfold lineStep
  split_ifs with ordinary last
  · cases accepted : onByte node c with
    | some next => exact .read _ (.more _ (accepts next ordinary accepted))
    | none => exact .refuse _ (rejects ordinary accepted)
  · exact .read _ (finishes (not_not.mp ordinary) last)
  · exact .read _ (.more _ (turns (not_not.mp ordinary) last))

theorem bulk_step_all
    (stores : ∀ next, 2 < node.want → storeByte node c = some next →
      Inv ⟨frames, .body, { next with want := next.want - 1 }⟩)
    (faults : 2 < node.want → storeByte node c = none → Post (.fault, plug frames (.mk node [])))
    (ends : node.want ≤ 2 → (closeString frames { node with want := node.want - 1 }).All Inv Post)
    (skips : node.want ≤ 2 → node.want - 1 ≠ 0 →
      Inv ⟨frames, .body, { node with want := node.want - 1 }⟩) :
    (bulkStep frames node c).All Inv Post := by
  unfold bulkStep
  dsimp only
  split_ifs with content last
  · cases stored : storeByte node c with
    | some next => exact .read _ (.more _ (stores next content stored))
    | none => exact .refuse _ (faults content stored)
  · exact .read _ (ends (Nat.not_lt.mp content))
  · exact .read _ (.more _ (skips (Nat.not_lt.mp content) last))

theorem close_all (goes : ∀ others, Inv (startAt others)) (ends : ∀ tree, Post (.ok, tree))
    (frames : List Frame) (tree : ParseTree) : (close frames tree).All Inv Post := by
  induction frames generalizing tree with
  | nil => exact .stop _ (ends tree)
  | cons frame frames ih =>
    obtain ⟨node, before, left⟩ := frame
    cases left with
    | zero => exact ih _
    | succ left => exact .more _ (goes _)

theorem close_string_all (closes : (close frames (.mk node [])).All Inv Post)
    (faults : Post (.fault, plug frames (.mk node []))) :
    (closeString frames node).All Inv Post := by
  unfold closeString
  split_ifs
  · exact closes
  · exact .stop _ faults

theorem close_length_all
    (nil : node.reply.type = .nil → (close frames (.mk { node with brk := cr } [])).All Inv Post)
    (opens : node.reply.type ≠ .nil → Inv ⟨frames,
      if (openBody { node with brk := cr }).want = 0 then .text else .body,
      openBody { node with brk := cr }⟩) : (closeLength frames node).All Inv Post := by
  rw [closeLength]
  by_cases none_ : node.reply.type = .nil
  · exact if_pos none_ ▸ nil none_
  · exact if_neg none_ ▸ .more _ (opens none_)

theorem close_count_all (empty : node.reply.elements = 0 →
      (close frames (.mk { node with brk := cr, want := 0 } [])).All Inv Post)
    (large : ∀ tree, Post (.err, tree))
    (opens : ∀ left, node.reply.elements = left + 1 → Inv (startAt
      ({ node := { node with brk := cr, want := left + 1 }, before := [], left := left } ::
        frames))) :
    (closeCount frames node).All Inv Post := by
  unfold closeCount
  cases elements : node.reply.elements with
  | zero => exact empty elements
  | succ left =>
    dsimp only
    split_ifs
    · exact .stop _ (large _)
    · exact .more _ (opens left elements)

end Reached

theorem close_sound {stack : Nat} {frames : List Frame} (ready : ∀ frame ∈ frames, frame.Ready)
    (levels : frames.length ≤ stack) (tree : ParseTree) :
    (close frames tree).All (Machine.Sound stack) fun _ => True := by
  induction frames generalizing tree with
  | nil => exact .stop _ trivial
  | cons frame frames ih =>
    obtain ⟨node, before, left⟩ := frame
    obtain ⟨first, outer⟩ := forall_mem_cons.mp ready
    cases left with
    | zero => exact ih outer (Nat.le_of_succ_le levels) _
    | succ left =>
      refine .more _ (start_sound (forall_mem_cons.mpr ⟨?_, outer⟩) levels)
      exact { first with current := by simpa [nextFrame] using first.current }

theorem step_keeps_sound {stack : Nat} (sound : machine.Sound stack) (c : Byte) :
    (step stack machine c).All (Machine.Sound stack) fun _ => True := by
  obtain ⟨frames, phase, node⟩ := machine
  obtain ⟨focus, ready, levels, -⟩ := sound
  by_cases room : frames.length < stack
  · have still {phase : Phase} {node : Node} (focus : PhaseOk phase node) :
        Machine.Sound stack ⟨frames, phase, node⟩ := ⟨focus, ready, levels, fun _ => room⟩
    have closes (node : Node) := close_sound ready levels (.mk node [])
    rw [step_shallow room]
    cases phase with
    | opcode =>
      cases opCode c with
      | none => exact .read _ (.stop _ trivial)
      | some op =>
        refine .read _ (.more _ (still ?_))
        rw [show node = newNode from focus]
        cases op <;>
          simp [PhaseOk, takePhase, takeNode, typedNode, readied, newNode, opType, toInt64]
    | text =>
      refine line_step_all (fun next _ stored => ?_) (fun _ _ => trivial)
        (fun _ _ => close_string_all (closes _) trivial) fun _ _ => still focus
      obtain ⟨-, rfl⟩ := store_byte_some stored
      exact still focus
    | number =>
      refine line_step_all (fun next _ read => ?_) (fun _ _ => trivial) (fun _ _ => closes _)
        fun _ _ => still focus
      rcases integer_byte_some read with ⟨-, rfl⟩ | ⟨-, rfl⟩
      · exact still ⟨focus.1, focus.2.1, .inr rfl, focus.2.2.2⟩
      · exact still ⟨focus.1, focus.2.1, focus.2.2.1, to_int64_idem _⟩
    | length =>
      refine line_step_all (fun next _ read => ?_) (fun _ _ => trivial) (fun _ _ => ?_)
        fun _ _ => still focus
      · rcases len_byte_some read with ⟨-, rfl⟩ | ⟨-, rfl⟩
        · exact still ⟨focus.1, by simp, focus.2.2⟩
        · exact still focus
      · refine close_length_all (fun _ => closes _) fun _ => still ?_
        have allocated : (openBody { node with brk := cr }).reply.str ≠ .null := by
          simp only [openBody]
          split_ifs <;> simp_all
        split_ifs with all
        · exact ⟨.inr (.inr focus.1), focus.2.1, all, allocated⟩
        · exact ⟨focus.1, focus.2.1, all, allocated⟩
    | body =>
      refine bulk_step_all (fun next content stored => ?_) (fun _ _ => trivial)
        (fun _ => close_string_all (closes _) trivial)
        fun _ more => still ⟨focus.1, focus.2.1, more, focus.2.2.2⟩
      obtain ⟨-, rfl⟩ := store_byte_some stored
      exact still ⟨focus.1, focus.2.1, by simp only; omega, focus.2.2.2⟩
    | count =>
      refine line_step_all (fun next _ read => ?_) (fun _ _ => trivial) (fun _ _ => ?_)
        fun _ _ => still focus
      · rcases elements_byte_some read with ⟨-, rfl⟩ | ⟨-, rfl⟩
        · exact still ⟨focus.1, by simp, focus.2.2⟩
        · exact still focus
      · refine close_count_all (fun _ => closes _) (fun _ => trivial) fun left _ =>
          start_sound (forall_mem_cons.mpr ⟨?_, ready⟩) room
        exact ⟨focus.1, focus.2.1, by simp, focus.2.2.2⟩
  · unfold step
    rw [if_pos (Nat.not_lt.mp room)]
    exact .refuse _ trivial

theorem step_sound {stack : Nat} {next : Machine} (sound : machine.Sound stack)
    (taken : step stack machine c = .read (.more next)) : next.Sound stack :=
  (step_keeps_sound sound c).more taken

theorem run_sound {stack : Nat} {next : Machine} {input : List Byte} (sound : machine.Sound stack)
    (paused : run (step stack) machine input = .more next) : next.Sound stack :=
  (run_all (step stack) (fun _ c sound => step_keeps_sound sound c) sound input).paused paused

theorem phase_ok_ready {phase : Phase} {node : Node} (focus : PhaseOk phase node) :
    RedisParserMachine.Ready node := by
  cases phase with
  | opcode =>
    have fresh : node = newNode := focus
    subst fresh
    exact new_node_ready
  | text =>
    obtain ⟨kind, typed, line, str⟩ := focus
    refine ⟨?_, fun _ => typed, fun _ => ⟨line, str⟩, fun _ _ => str, ?_⟩
    · intro untyped
      simp [untyped] at kind
    · intro multi
      simp [multi] at kind
  | number =>
    obtain ⟨kind, typed, -⟩ := focus
    exact ⟨by simp [kind], fun _ => typed, by simp [kind], by simp [kind], by simp [kind]⟩
  | length =>
    obtain ⟨kind, typed, unread⟩ := focus
    exact ⟨by simp [kind], fun _ => typed, by simp [kind],
      fun _ wanted => absurd unread wanted, by simp [kind]⟩
  | body =>
    obtain ⟨kind, typed, -, str⟩ := focus
    exact ⟨by simp [kind], fun _ => typed, by simp [kind], fun _ _ => str, by simp [kind]⟩
  | count =>
    obtain ⟨kind, typed, unread, first⟩ := focus
    exact ⟨by simp [kind], fun _ => typed, by simp [kind], by simp [kind],
      fun _ => ⟨unread, first⟩⟩

theorem Machine.Sound.ready {stack : Nat} (sound : machine.Sound stack) : machine.Ready stack := by
  refine ⟨phase_ok_ready sound.focus, sound.frames, sound.levels, fun typed => sound.room ?_⟩
  intro unread
  have fresh := sound.focus
  rw [unread] at fresh
  exact typed (congrArg Node.type fresh)

/-- A new call changes nothing but two things: the sign of an integer is
forgotten, and a string whose `want` is zero is taken for its length line. -/
theorem resume_eq {phase : Phase} {node : Node} (focus : PhaseOk phase node) (frames : List Frame) :
    resume ⟨frames, phase, node⟩ =
      match phase with
      | .number => ⟨frames, .number, { node with want := 1 }⟩
      | .text => ⟨frames, if node.type = some .bulk then .length else .text, node⟩
      | _ => ⟨frames, phase, node⟩ := by
  cases phase with
  | opcode =>
    have fresh : node = newNode := focus
    subst fresh
    rfl
  | text =>
    obtain ⟨kind, -, line, str⟩ := focus
    have kept : readied node = node := by simp only [readied, str, if_false]
    rcases kind with kind | kind | kind <;>
      simp [resume, kind, takePhase, takeNode, kept, line]
  | number => simp [resume, focus.1, takePhase, takeNode]
  | length => simp [resume, focus.1, focus.2.2, takePhase, takeNode]
  | body => simp [resume, focus.1, focus.2.2.1, takePhase, takeNode]
  | count => simp [resume, focus.1, takePhase, takeNode]

theorem resume_sound {stack : Nat} (sound : machine.Sound stack) :
    (resume machine).Sound stack := by
  obtain ⟨frames, phase, node⟩ := machine
  obtain ⟨focus, ready, levels, room⟩ := sound
  rw [resume_eq focus]
  cases phase with
  | opcode => exact ⟨focus, ready, levels, room⟩
  | text =>
    obtain ⟨kind, typed, line, str⟩ := focus
    by_cases bulk : node.type = some .bulk
    · simp only [bulk, if_true]
      exact ⟨⟨bulk, typed, line⟩, ready, levels, fun _ => room (by simp)⟩
    · simp only [bulk, if_false]
      exact ⟨⟨kind, typed, line, str⟩, ready, levels, room⟩
  | number =>
    obtain ⟨kind, typed, -, range⟩ := focus
    exact ⟨⟨kind, typed, .inl rfl, range⟩, ready, levels, fun _ => room (by simp)⟩
  | length => exact ⟨focus, ready, levels, room⟩
  | body => exact ⟨focus, ready, levels, room⟩
  | count => exact ⟨focus, ready, levels, room⟩

end Chuck.RedisParserMachine
