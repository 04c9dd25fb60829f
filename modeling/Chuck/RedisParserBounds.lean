import Chuck.RedisReplyCodec

/-!
# Stores of the Redis reply parser

`data_cb` feeds the bytes of a connection to the parser piece by piece and
starts a new tree after every reply. A line of text has no length check, and
the announced length of a string is a wrapping 32-bit number. `ByteSafe` says
what a byte must respect for all stores to stay in their buffers; a byte that
breaks it can always be continued to a store out of bounds or a failed
assertion.
-/

namespace Chuck.RedisParserBounds

open RedisParserModel RedisParserMachine RedisParserFragments RedisReplyCodec
open Support.StreamMachine

variable {stack : Nat}

/-- The loop of `data_cb` over one piece of data: a new tree after every reply.
Every call reads at least one byte, so the number of bytes is enough fuel. -/
def replyLoop (stack : Nat) : Nat → ParseTree → List Byte → Ret × ParseTree
  | 0, tree, _ => (.retry, tree)
  | fuel + 1, tree, input =>
    if input = [] then (.retry, tree)
    else
      match parse stack tree input with
      | (.ok, _, rest) => replyLoop stack fuel parseTreeNew rest
      | (ret, tree, _) => (ret, tree)

variable {machine : Machine} {c : Byte}

def session (stack : Nat) : ParseTree → List (List Byte) → Ret × ParseTree
  | tree, [] => (.retry, tree)
  | tree, piece :: more =>
    match replyLoop stack piece.length tree piece with
    | (.retry, tree) => session stack tree more
    | out => out

/-- A line of text is stored while it is shorter than 511 bytes, and a string
that is not nil is announced with a length that leaves room for `\r\n`. -/
def ByteSafe (node : Node) (c : Byte) : Prop :=
  match node.type with
  | some .status | some .error => c ≠ node.brk → node.pos < 511
  | some .bulk =>
    node.want = 0 → node.brk = lf → c = lf → node.reply.type ≠ .nil →
      0 ≤ node.reply.len ∧ node.reply.len < 2 ^ 31 - 2
  | _ => True

/-- Every byte of the pieces respects `ByteSafe` in the state it is read in. -/
def Careful (stack : Nat) (tree : ParseTree) (pieces : List (List Byte)) : Prop :=
  ∀ done front c back more, pieces = done ++ (front ++ c :: back) :: more →
    ∀ next, session stack tree (done ++ [front]) = (.retry, next) → ByteSafe (focusNode next) c

/-! ## A session as a run -/

def again : Next Machine Halt → Next Machine Halt
  | .stop (.ok, _) => .more (startAt [])
  | next => next

def serve (stack : Nat) (machine : Machine) (c : Byte) : Step Machine Halt :=
  match step stack machine c with
  | .read next => .read (again next)
  | .refuse final => .refuse final

def served : Outcome Machine Byte Halt → Ret × ParseTree
  | .more machine => (.retry, machine.tree)
  | .stop final _ => final

theorem run_serve (stack : Nat) (machine : Machine) (input : List Byte) :
    run (serve stack) machine input =
      match run (step stack) machine input with
      | .stop (.ok, _) left => run (serve stack) (startAt []) left
      | outcome => outcome := by
  induction input generalizing machine with
  | nil => rfl
  | cons c input ih =>
    cases taken : step stack machine c with
    | refuse final =>
      have same : serve stack machine c = .refuse final := by simp only [serve, taken]
      have failed := refuse_not_ok taken
      rw [run_refuse _ taken, run_refuse _ same]
      obtain ⟨ret, tree⟩ := final
      cases ret <;> simp_all
    | read next =>
      have same : serve stack machine c = .read (again next) := by simp only [serve, taken]
      rw [run_read _ taken, run_read _ same]
      cases next with
      | more next => exact ih next
      | stop final =>
        obtain ⟨ret, tree⟩ := final
        cases ret <;> rfl

theorem serve_all {Inv : Machine → Prop} {Post : Halt → Prop}
    (all : (step stack machine c).All Inv Post) (fresh : Inv (startAt [])) :
    (serve stack machine c).All Inv Post := by
  unfold serve
  generalize step stack machine c = taken at all
  cases all with
  | refuse final post => exact .refuse final post
  | read next all =>
    cases all with
    | more next inv => exact .read _ (.more next inv)
    | stop final post =>
      obtain ⟨ret, tree⟩ := final
      cases ret with
      | ok => exact .read _ (.more _ fresh)
      | retry | err | fault | deep => exact .read _ (.stop _ post)

theorem run_serve_sound {next : Machine} {input : List Byte} (sound : machine.Sound stack)
    (paused : run (serve stack) machine input = .more next) : next.Sound stack :=
  (run_all (serve stack) (fun _ c sound =>
    serve_all (step_keeps_sound sound c) (fresh_sound stack)) sound input).paused paused

theorem reply_loop_serve (fuel : Nat) {input : List Byte}
    (sound : machine.Sound stack) (given : input ≠ []) (enough : input.length ≤ fuel) :
    replyLoop stack fuel machine.tree input =
      served (run (serve stack) (resume machine) input) := by
  induction fuel generalizing machine input with
  | zero => exact absurd (List.length_eq_zero_iff.mp (Nat.le_zero.mp enough)) given
  | succ fuel ih =>
    rw [replyLoop, if_neg given, parse_machine stack machine input sound.ready given, run_serve]
    cases ran : run (step stack) (resume machine) input with
    | more next => rfl
    | stop final left =>
      obtain ⟨ret, tree⟩ := final
      cases ret with
      | ok =>
        simp only [codeOf]
        have shorter : left.length ≤ fuel :=
          Nat.le_of_lt_succ (Nat.lt_of_lt_of_le (run_ok_shorter ran) enough)
        by_cases empty : left = []
        · subst empty
          cases fuel <;> rfl
        · exact ih (fresh_sound stack) empty shorter
      | retry | err | fault | deep => rfl

/-! ## What careful bytes keep -/

/-- The buffer of the focus and the bytes it still has to take. -/
def FocusBounded (phase : Phase) (node : Node) : Prop :=
  match phase with
  | .text => (node.type = some .status ∨ node.type = some .error) ∧
      node.reply.str = .tmpBuff ∧ node.pos ≤ 511 ∧ (node.brk = cr ∨ node.brk = lf)
  | .length => node.reply.str = .null ∧ node.pos = 0 ∧
      toInt32 node.reply.len = node.reply.len
  | .body => node.reply.len = (node.pos + (node.want - 2) : Nat) ∧
      node.pos + (node.want - 2) < 2 ^ 64 ∧
      node.pos + (node.want - 2) < node.reply.str.capacity
  | _ => True

structure Bounded (stack : Nat) (machine : Machine) : Prop where
  sound : machine.Sound stack
  focus : FocusBounded machine.phase machine.node

theorem start_bounded {frames : List Frame}
    (sound : (startAt frames).Sound stack) : Bounded stack (startAt frames) :=
  ⟨sound, trivial⟩

theorem fresh_bounded (stack : Nat) : Bounded stack (startAt []) :=
  start_bounded (fresh_sound stack)

theorem resume_bounded (bounded : Bounded stack machine) : Bounded stack (resume machine) := by
  refine ⟨resume_sound bounded.sound, ?_⟩
  obtain ⟨frames, phase, node⟩ := machine
  obtain ⟨sound, focus⟩ := bounded
  rw [resume_eq sound.focus]
  cases phase with
  | text =>
    have line : node.type ≠ some .bulk := by
      rcases focus.1 with kind | kind <;> exact fun bulk => by cases kind.symm.trans bulk
    simpa only [line, if_false] using focus
  | number => trivial
  | opcode | length | body | count => exact focus

theorem resume_safe (sound : machine.Sound stack) (c : Byte) :
    ByteSafe (resume machine).node c ↔ ByteSafe machine.node c := by
  obtain ⟨frames, phase, node⟩ := machine
  rw [resume_eq sound.focus]
  cases phase with
  | number =>
    have kind : node.type = some .integer := sound.focus.1
    simp only [ByteSafe, kind]
  | opcode | text | length | body | count => exact Iff.rfl

theorem close_bounded (frames : List Frame) (tree : ParseTree) : (close frames tree).All
    (fun next => FocusBounded next.phase next.node) fun final => final.1 ≠ .fault :=
  close_all (fun _ => trivial) (fun _ => Ret.noConfusion) frames tree

theorem close_string_bounded (frames : List Frame) {node : Node}
    (len : node.reply.len = (node.pos : Nat)) (small : node.pos < 2 ^ 64)
    (fits : node.pos < node.reply.str.capacity) : (closeString frames node).All
      (fun next => FocusBounded next.phase next.node) fun final => final.1 ≠ .fault := by
  rw [close_string_fits node len small fits]
  exact close_bounded frames _

theorem to_int32_idem (value : Int) : toInt32 (toInt32 value) = toInt32 value := by
  rw [to_int32_bmod, to_int32_bmod, Int.bmod_bmod]

theorem open_body_bounded (node : Node) (null : node.reply.str = .null) (first : node.pos = 0)
    (low : 0 ≤ node.reply.len) (high : node.reply.len < 2 ^ 31 - 2) :
    (openBody node).want ≠ 0 ∧ FocusBounded .body (openBody node) := by
  have wanted : (openBody node).want = node.reply.len.toNat + 2 := by
    have sum : toInt32 (node.reply.len + 2) = (node.reply.len.toNat + 2 : Nat) := by
      rw [to_int32_small (by omega) (by omega)]
      omega
    change toSizeT (toInt32 (node.reply.len + 2)) = _
    rw [sum, to_size_small _ (by omega)]
  have roomy : node.reply.len.toNat < (openBody node).reply.str.capacity := by
    simp only [openBody, null, if_true]
    rw [to_int32_small (by omega) (by omega)]
    split_ifs with large
    · simp only [StrBuf.capacity]
      omega
    · simp only [StrBuf.capacity, sizeTmpBuff] at large ⊢
      omega
  have start : (openBody node).pos = 0 := first
  have len : (openBody node).reply.len = node.reply.len := rfl
  refine ⟨by omega, ?_, ?_, ?_⟩
  · rw [wanted, start, len]
    omega
  · rw [wanted, start]
    omega
  · rw [wanted, start]
    omega

theorem bulk_step_bounded (frames : List Frame) (node : Node) (c : Byte)
    (focus : FocusBounded .body node) : (bulkStep frames node c).All
      (fun next => FocusBounded next.phase next.node) fun final => final.1 ≠ .fault := by
  obtain ⟨len, small, fits⟩ := focus
  refine bulk_step_all (fun next content stored => ?_) (fun content full => ?_) (fun none => ?_)
    fun none _ => ?_
  · obtain ⟨-, rfl⟩ := store_byte_some stored
    refine ⟨?_, ?_, ?_⟩
    · simp only [len]
      omega
    · simp only
      omega
    · simp only
      omega
  · have free : node.pos < node.reply.str.capacity := by omega
    simp only [storeByte, free, if_true] at full
    cases full
  · rw [Nat.sub_eq_zero_of_le none, Nat.add_zero] at len small fits
    exact close_string_bounded frames len small fits
  · have same : node.want - 1 - 2 = node.want - 2 := by omega
    simp only [FocusBounded, same]
    exact ⟨len, small, fits⟩

theorem step_bounded (bounded : Bounded stack machine)
    (safe : ByteSafe machine.node c) : (step stack machine c).All
      (fun next => FocusBounded next.phase next.node) fun final => final.1 ≠ .fault := by
  obtain ⟨frames, phase, node⟩ := machine
  obtain ⟨sound, focus⟩ := bounded
  replace focus : FocusBounded phase node := focus
  replace safe : ByteSafe node c := safe
  by_cases room : frames.length < stack
  · rw [step_shallow room]
    cases phase with
    | opcode =>
      have fresh : node = newNode := sound.focus
      cases opCode c with
      | none => exact .read _ (.stop _ Ret.noConfusion)
      | some op =>
        refine .read _ (.more _ ?_)
        rw [fresh]
        cases op <;> simp [FocusBounded, takePhase, takeNode, typedNode, readied, newNode, toInt32]
    | text =>
      obtain ⟨kind, buffer, short, brk⟩ := focus
      have room : c ≠ node.brk → node.pos < 511 := by
        rcases kind with kind | kind <;> simp only [ByteSafe, kind] at safe <;> exact safe
      have size : node.reply.str.capacity = 512 := congrArg StrBuf.capacity buffer
      refine line_step_all ?_ ?_ ?_ fun _ _ => ⟨kind, buffer, short, .inr rfl⟩
      · intro next ordinary stored
        obtain ⟨-, rfl⟩ := store_byte_some stored
        exact ⟨kind, buffer, room ordinary, brk⟩
      · intro ordinary full
        have free : node.pos < node.reply.str.capacity := by
          have := room ordinary
          omega
        simp only [storeByte, free, if_true] at full
        cases full
      · intro _ _
        refine close_string_bounded frames ?_ (show node.pos < _ by omega)
          (show node.pos < node.reply.str.capacity by omega)
        exact to_int32_small (by omega) (by omega)
    | number =>
      exact line_step_all (fun _ _ _ => trivial) (fun _ _ => Ret.noConfusion)
        (fun _ _ => close_bounded frames _) fun _ _ => trivial
    | length =>
      obtain ⟨null, first, range⟩ := focus
      have kind : node.type = some .bulk := sound.focus.1
      refine line_step_all ?_ (fun _ _ => Ret.noConfusion) ?_ fun _ _ => ⟨null, first, range⟩
      · intro next ordinary read
        rcases len_byte_some read with ⟨-, rfl⟩ | ⟨-, rfl⟩
        · exact ⟨null, first, range⟩
        · exact ⟨null, first, to_int32_idem _⟩
      · intro last turned
        refine close_length_all (fun _ => close_bounded frames _) fun given => ?_
        simp only [ByteSafe, kind] at safe
        obtain ⟨low, high⟩ := safe sound.focus.2.2 turned (last.trans turned) given
        obtain ⟨wanted, opened⟩ := open_body_bounded { node with brk := cr } null first low high
        rw [if_neg wanted]
        exact opened
    | body => exact bulk_step_bounded frames node c focus
    | count =>
      exact line_step_all (fun _ _ _ => trivial) (fun _ _ => Ret.noConfusion)
        (fun _ _ => close_count_all (fun _ => close_bounded frames _) (fun _ => Ret.noConfusion)
          fun _ _ => trivial)
        fun _ _ => trivial
  · unfold step
    rw [if_pos (not_lt.mp room)]
    exact .refuse _ Ret.noConfusion

theorem run_bounded (input : List Byte) (bounded : Bounded stack machine)
    (careful : ∀ front c back next, input = front ++ c :: back →
      run (serve stack) machine front = .more next → ByteSafe next.node c) :
    (run (serve stack) machine input).All (Bounded stack) fun final => final.1 ≠ .fault :=
  run_guarded (serve stack) (fun machine c => ByteSafe machine.node c)
    (fun _ c bounded safe => serve_all
      (((step_keeps_sound bounded.sound c).and (step_bounded bounded safe)).imp
        (fun _ both => ⟨both.1, both.2⟩) fun _ both => both.2) (fresh_bounded stack))
    bounded input careful

theorem serve_decided (machine : Machine) (input : List Byte) {left : List Byte} {final : Halt}
    (stopped : run (serve stack) machine input = .stop final left) : final.1 ≠ .retry :=
  (run_all (serve stack) (fun state c _ => serve_all (step_decided stack state c) trivial)
    trivial input).stopped stopped

/-! ## Sessions -/

theorem session_append (stack : Nat) (tree : ParseTree) (done more : List (List Byte)) :
    session stack tree (done ++ more) =
      match session stack tree done with
      | (.retry, next) => session stack next more
      | out => out := by
  induction done generalizing tree with
  | nil => rfl
  | cons piece done ih =>
    rw [List.cons_append, session, session]
    obtain ⟨ret, next⟩ := replyLoop stack piece.length tree piece
    cases ret with
    | retry => exact ih next
    | ok | err | fault | deep => rfl

theorem session_single (stack : Nat) (tree : ParseTree) (piece : List Byte) :
    session stack tree [piece] = replyLoop stack piece.length tree piece := by
  rw [session]
  obtain ⟨ret, next⟩ := replyLoop stack piece.length tree piece
  cases ret <;> rfl

theorem session_bounded (pieces : List (List Byte)) (machine : Machine)
    (bounded : Bounded stack machine) (careful : Careful stack machine.tree pieces) :
    (session stack machine.tree pieces).1 ≠ .fault ∧
      ∀ tree, session stack machine.tree pieces = (.retry, tree) →
        ∃ next, Bounded stack next ∧ tree = next.tree := by
  induction pieces generalizing machine with
  | nil => exact ⟨Ret.noConfusion, fun tree same => ⟨machine, bounded, by cases same; rfl⟩⟩
  | cons piece pieces ih =>
    have split := session_append stack machine.tree [piece] pieces
    rw [List.singleton_append, session_single] at split
    have later : ∀ next : Machine, replyLoop stack piece.length machine.tree piece =
        (.retry, next.tree) → Careful stack next.tree pieces := by
      intro next reached done front c back more pieces tree state
      refine careful (piece :: done) front c back more (by rw [pieces]; rfl) tree ?_
      rw [List.cons_append, session, reached]
      exact state
    by_cases empty : piece = []
    · subst empty
      rw [split]
      exact ih machine bounded (later machine rfl)
    have loop := reply_loop_serve piece.length bounded.sound empty le_rfl
    have safe := run_bounded piece (resume_bounded bounded) (by
      intro front c back next whole reached
      have here := careful [] front c back pieces (by rw [whole]; rfl)
      rw [List.nil_append, session_single] at here
      by_cases start : front = []
      · subst start
        cases reached
        have safe := here machine.tree rfl
        rw [focus_machine bounded.sound] at safe
        exact (resume_safe bounded.sound c).mpr safe
      · have paused := reply_loop_serve front.length bounded.sound start le_rfl
        rw [reached] at paused
        have safe := here next.tree paused
        rwa [focus_machine (run_serve_sound (resume_sound bounded.sound) reached)] at safe)
    rw [split, loop]
    cases ran : run (serve stack) (resume machine) piece with
    | more next =>
      rw [ran] at loop
      exact ih next (safe.paused ran) (later next loop)
    | stop final left =>
      obtain ⟨ret, tree⟩ := final
      have decided := serve_decided _ _ ran
      have inside := safe.stopped ran
      cases ret with
      | retry => exact absurd rfl decided
      | fault => exact absurd rfl inside
      | ok | err | deep =>
        exact ⟨Ret.noConfusion, fun _ same => by cases same⟩

/-! ## Unsafe bytes -/

section Overflow

variable {stack : Nat} {frames : List Frame} (room : frames.length < stack)

include room

theorem text_overflows (count : Nat) (node : Node) (brk : node.brk ≠ 97)
    (beyond : node.reply.str.capacity < node.pos + count) (inside : 0 < count) :
    ∃ tree left, run (step stack) ⟨frames, .text, node⟩
      (List.replicate count 97) = .stop (.fault, tree) left := by
  induction count generalizing node with
  | zero => exact absurd inside (Nat.lt_irrefl 0)
  | succ count ih =>
    have taken := step_shallow room .text node 97
    simp only [lineStep, ne_eq, brk.symm, not_false_iff, if_true] at taken
    rw [List.replicate_succ]
    by_cases free : node.pos < node.reply.str.capacity
    · simp only [storeByte, free, if_true] at taken
      rw [run_read _ taken]
      exact ih _ brk (by simp only; omega) (by omega)
    · simp only [storeByte, free, if_false] at taken
      exact ⟨_, _, run_refuse _ taken _⟩

theorem body_overflows (count : Nat) (node : Node)
    (beyond : node.reply.str.capacity < node.pos + count) (inside : 0 < count)
    (wanted : count + 2 ≤ node.want) :
    ∃ tree left, run (step stack) ⟨frames, .body, node⟩
      (List.replicate count 97) = .stop (.fault, tree) left := by
  induction count generalizing node with
  | zero => exact absurd inside (Nat.lt_irrefl 0)
  | succ count ih =>
    have taken := step_shallow room .body node 97
    have content : node.want > 2 := by omega
    simp only [bulkStep, content, if_true] at taken
    rw [List.replicate_succ]
    by_cases free : node.pos < node.reply.str.capacity
    · simp only [storeByte, free, if_true] at taken
      rw [run_read _ taken]
      exact ih _ (by simp only; omega) (by omega) (by simp only; omega)
    · simp only [storeByte, free, if_false] at taken
      exact ⟨_, _, run_refuse _ taken _⟩

theorem full_line_faults (node : Node) (full : node.reply.str.capacity ≤ node.pos)
    (brk : node.brk = lf) (rest : List Byte) :
    ∃ tree left, run (step stack) ⟨frames, .text, node⟩
      (lf :: rest) = .stop (.fault, tree) left := by
  have taken := step_shallow room .text node lf
  have ended : closeText frames node = .stop (.fault, plug frames (.mk (endText node) [])) := by
    unfold closeText closeString
    exact if_neg (fun fits => not_lt.mpr full fits.2)
  simp only [lineStep, brk, ne_eq, not_true_eq_false, if_false, if_true, ended] at taken
  exact ⟨_, _, run_read _ taken rest⟩

theorem full_text_faults (node : Node) (full : node.reply.str.capacity ≤ node.pos)
    (brk : node.brk = cr ∨ node.brk = lf) :
    ∃ back tree left, run (step stack) ⟨frames, .text, node⟩ back = .stop (.fault, tree) left := by
  rcases brk with brk | brk
  · have turned := step_shallow room .text node cr
    have other : cr ≠ lf := by decide
    simp only [lineStep, brk, ne_eq, not_true_eq_false, if_false, other] at turned
    refine ⟨[cr, lf], ?_⟩
    rw [run_read _ turned]
    exact full_line_faults room { node with brk := lf } full rfl []
  · exact ⟨[lf], full_line_faults room node full brk []⟩

theorem last_byte_faults (node : Node) (c : Byte) (ordinary : c ≠ node.brk)
    (brk : node.brk = cr ∨ node.brk = lf) (last : node.pos + 1 = node.reply.str.capacity) :
    ∃ back tree left, run (step stack) ⟨frames, .text, node⟩
      (c :: back) = .stop (.fault, tree) left := by
  have taken := step_shallow room .text node c
  have free : node.pos < node.reply.str.capacity := by omega
  simp only [lineStep, ordinary, ne_eq, not_false_iff, if_true, storeByte, free] at taken
  obtain ⟨back, tree, left, ran⟩ := full_text_faults room { node with
    pos := node.pos + 1
    reply := { node.reply with bytes := node.reply.bytes ++ [c] } } (Nat.le_of_eq last.symm) brk
  refine ⟨back, tree, left, ?_⟩
  rw [run_read _ taken]
  exact ran

/-- A string announced with a length out of range: the length plus two wraps to
a huge number, to one or to zero. -/
theorem opened_faults (node : Node) (null : node.reply.str = .null) (first : node.pos = 0)
    (range : toInt32 node.reply.len = node.reply.len) (brk : node.brk = cr)
    (out : ¬(0 ≤ node.reply.len ∧ node.reply.len < 2 ^ 31 - 2)) :
    ∃ back tree left, run (step stack)
      ⟨frames, if (openBody node).want = 0 then .text else .body, openBody node⟩ back =
      .stop (.fault, tree) left := by
  have start : (openBody node).pos = 0 := first
  have wanted : (openBody node).want = toSizeT (toInt32 (node.reply.len + 2)) := rfl
  have limits : -2 ^ 31 ≤ node.reply.len ∧ node.reply.len < 2 ^ 31 := by
    simp only [to_int32_bmod, Int.bmod] at range
    omega
  have buffer : (openBody node).reply.str.capacity ≤ 2 ^ 31 := by
    simp only [openBody, null, if_true]
    split_ifs
    · simp only [StrBuf.capacity]
      omega
    · decide
  by_cases unlimited : node.reply.len = -2
  · have none : (openBody node).want = 0 := by
      rw [wanted, unlimited]
      rfl
    rw [if_pos none]
    exact ⟨_, text_overflows room ((openBody node).reply.str.capacity + 1) (openBody node)
      (by rw [show (openBody node).brk = cr from brk]; decide) (by omega) (by omega)⟩
  · by_cases negative : node.reply.len = -1
    · have one : (openBody node).want = 1 := by
        rw [wanted, negative]
        rfl
      have len : (openBody node).reply.len = -1 := negative
      have unequal : ¬toSizeT (-1) = 0 := by decide
      have taken := step_shallow room .body (openBody node) 97
      have small : ¬1 > 2 := by decide
      simp only [bulkStep, one, small, if_false, Nat.sub_self, if_true, closeString, len, start,
        unequal, false_and] at taken
      rw [if_neg (by omega)]
      exact ⟨[97], _, _, run_read _ taken []⟩
    · have huge : (openBody node).reply.str.capacity + 3 ≤ (openBody node).want := by
        have size : 2 ^ 32 ≤ toSizeT (toInt32 (node.reply.len + 2)) := by
          simp only [to_int32_bmod, Int.bmod, toSizeT]
          omega
        omega
      rw [if_neg (by omega)]
      exact ⟨_, body_overflows room ((openBody node).reply.str.capacity + 1) (openBody node)
        (by omega) (by omega) (by omega)⟩

end Overflow

/-- Behind safe bytes, a byte that is not safe can be continued to a store out
of bounds or a failed assertion. -/
theorem unsafe_byte_faults (bounded : Bounded stack machine) (breaks : ¬ByteSafe machine.node c) :
    ∃ back tree left, run (step stack) machine (c :: back) = .stop (.fault, tree) left := by
  obtain ⟨frames, phase, node⟩ := machine
  obtain ⟨sound, focus⟩ := bounded
  replace focus : FocusBounded phase node := focus
  replace breaks : ¬ByteSafe node c := breaks
  have state : PhaseOk phase node := sound.focus
  have room : phase ≠ .opcode → frames.length < stack := sound.room
  cases phase with
  | opcode =>
    have fresh : node = newNode := state
    exact absurd (by rw [fresh]; trivial) breaks
  | number => exact absurd (by simp only [ByteSafe, state.1]) breaks
  | count => exact absurd (by simp only [ByteSafe, state.1]) breaks
  | body =>
    refine absurd ?_ breaks
    simp only [ByteSafe, state.1]
    exact fun none => absurd none state.2.2.1
  | text =>
    obtain ⟨kind, buffer, short, brk⟩ := focus
    have long : ¬(c ≠ node.brk → node.pos < 511) := by
      rcases kind with kind | kind <;> simp only [ByteSafe, kind] at breaks <;> exact breaks
    have size : node.reply.str.capacity = 512 := congrArg StrBuf.capacity buffer
    obtain ⟨ordinary, full⟩ := Classical.not_imp.mp long
    exact last_byte_faults (room Phase.noConfusion) node c ordinary brk (by omega)
  | length =>
    obtain ⟨null, first, range⟩ := focus
    simp only [ByteSafe, state.1] at breaks
    push Not at breaks
    obtain ⟨unread, turned, last, solid, out⟩ := breaks
    have taken := step_shallow (room Phase.noConfusion) .length node c
    have opened : closeLength frames node = .more {
        frames := frames
        phase := if (openBody { node with brk := cr }).want = 0 then .text else .body
        node := openBody { node with brk := cr } } := by
      simp only [closeLength]
      rw [if_neg solid]
    simp only [lineStep, last, turned, ne_eq, not_true_eq_false, if_false, if_true, opened] at taken
    obtain ⟨back, tree, left, ran⟩ := opened_faults (room Phase.noConfusion)
      { node with brk := cr } null first range rfl (fun inside => absurd inside.2
        (Int.not_lt.mpr (out inside.1)))
    refine ⟨back, tree, left, ?_⟩
    rw [last, run_read _ taken]
    exact ran

/-- While every byte respects `ByteSafe`, no store of the parser leaves its
buffer and no assertion fails, in whatever pieces the bytes arrive; and the
first byte that does not respect it can be continued to a fault. -/
theorem stores_in_bounds (stack : Nat) (pieces : List (List Byte))
    (careful : Careful stack parseTreeNew pieces) :
    (session stack parseTreeNew pieces).1 ≠ .fault ∧
      ∀ tree c, session stack parseTreeNew pieces = (.retry, tree) →
        ¬ByteSafe (focusNode tree) c →
        ∃ back, (session stack parseTreeNew (pieces ++ [c :: back])).1 = .fault := by
  obtain ⟨inside, reached⟩ := session_bounded pieces (startAt []) (fresh_bounded stack) careful
  refine ⟨inside, fun tree c paused breaks => ?_⟩
  obtain ⟨machine, bounded, rfl⟩ := reached tree paused
  rw [focus_machine bounded.sound] at breaks
  rw [← resume_safe bounded.sound c] at breaks
  obtain ⟨back, tree, left, ran⟩ := unsafe_byte_faults (resume_bounded bounded) breaks
  refine ⟨back, ?_⟩
  rw [session_append, paused]
  simp only
  rw [session_single, reply_loop_serve _ bounded.sound (by simp) le_rfl, run_serve, ran]
  rfl

/-- The line `+a`, cut in front of its terminators. -/
theorem status_line_in_bounds :
    Careful 1 parseTreeNew [[43, 97], [13, 10]] ∧
      (session 1 parseTreeNew [[43, 97], [13, 10]]).1 ≠ .fault := by
  have careful : Careful 1 parseTreeNew [[43, 97], [13, 10]] := by
    intro done front c back more split next reached
    have places : (done = [] ∧ front = [] ∨ done = [] ∧ front = [43]) ∨
        (done = [[43, 97]] ∧ front = [] ∨ done = [[43, 97]] ∧ front = [13]) := by
      simp [List.cons_eq_append_iff, List.append_eq_cons_iff] at split
      grind
    rcases places with (⟨rfl, rfl⟩ | ⟨rfl, rfl⟩) | ⟨rfl, rfl⟩ | ⟨rfl, rfl⟩ <;> cases reached
    · trivial
    · exact fun _ => by decide
    · exact fun _ => by decide
    · exact fun _ => by decide
  exact ⟨careful, (stores_in_bounds 1 _ careful).1⟩

/-- A status line of 512 bytes puts its zero behind the buffer, and a string of
length 4294967295 fails the assertion at its first byte. -/
theorem long_line_faults :
    (session 1 parseTreeNew [43 :: (List.replicate 512 97 ++ [13, 10])]).1 = .fault ∧
      (session 1 parseTreeNew
        [[36, 52, 50, 57, 52, 57, 54, 55, 50, 57, 53, 13, 10], [97]]).1 = .fault := by
  decide +kernel

end Chuck.RedisParserBounds
