import Chuck.RedisIntegerArguments
import Chuck.RedisParserShapes
import Chuck.RedisReplyFraming
import Mathlib.Data.List.TakeWhile

/-!
# Formatted Redis commands

A format is a sequence of pieces, and its words are the runs of pieces between
spaces. `redisvFormatCommand` writes the array of the words as bulk strings, with
the length it computed ahead, and the reply parser reads that array back in any
fragmentation: what makes cuts matter, an integer line or a string without an end,
does not occur in a command.
-/

namespace Chuck.RedisCommandFormat

open RedisParserModel RedisParserMachine RedisParserFragments RedisParserShapes RedisReplyCodec
open RedisReplyFraming RedisCommandModel RedisIntegerArguments Support.StreamMachine List

variable {args : List (List Byte)}

/-! ## What a format means -/

/-- A piece of a format together with the argument it takes. -/
inductive Piece where
  | literal (c : Byte)
  | space
  | str (text : List Byte)
  | blob (bytes : List Byte)
  | percent
  deriving DecidableEq

def Piece.isSpace (piece : Piece) : Bool := piece = .space

def Piece.written : Piece → List Byte
  | .literal c => [c]
  | .space => [32]
  | .str _ => [37, 115]
  | .blob _ => [37, 98]
  | .percent => [37, 37]

def Piece.passed : Piece → List VaArg
  | .str text => [.str text]
  | .blob bytes => [.blob bytes]
  | _ => []

def Piece.expansion : Piece → List Byte
  | .literal c => [c]
  | .space => []
  | .str text => text
  | .blob bytes => bytes
  | .percent => [37]

/-- A literal character is none of those with a meaning of their own, and a string
argument ends at its first zero. -/
def Piece.Plain : Piece → Prop
  | .literal c => c ≠ 0 ∧ c ≠ 32 ∧ c ≠ 37
  | .str text => 0 ∉ text
  | _ => True

def format (pieces : List Piece) : List Byte := pieces.flatMap Piece.written

def arguments (pieces : List Piece) : List VaArg := pieces.flatMap Piece.passed

def expand (run : List Piece) : List Byte := run.flatMap Piece.expansion

def words (pieces : List Piece) : List (List Byte) :=
  ((pieces.splitOnP Piece.isSpace).filter (· ≠ [])).map expand

def command (pieces : List Piece) : Resp := .array ((words pieces).map .bulk)

/-! ## The loop over the format -/

/-- The arguments still to come when `touched` tells whether `curarg` is one already. -/
def pending (touched : Bool) (curarg : List Byte) (pieces : List Piece) : List (List Byte) :=
  match pieces.splitOnP Piece.isSpace with
  | [] => []
  | run :: more =>
    (if touched ∨ run ≠ [] then [curarg ++ expand run] else []) ++
      (more.filter (· ≠ [])).map expand

theorem pending_start (pieces : List Piece) : pending false [] pieces = words pieces := by
  rw [pending, words]
  cases split : pieces.splitOnP Piece.isSpace with
  | nil => exact absurd split (splitOnP_ne_nil _ _)
  | cons run more =>
    by_cases empty : run = []
    · simp [empty]
    · simp [empty]

theorem pending_nil (touched : Bool) (curarg : List Byte) :
    pending touched curarg [] = if touched then [curarg] else [] := by
  cases touched <;> simp [pending, expand]

theorem pending_space (touched : Bool) (curarg : List Byte) (pieces : List Piece) :
    pending touched curarg (.space :: pieces) =
      (if touched then [curarg] else []) ++ pending false [] pieces := by
  rw [pending_start, words, pending, splitOnP_cons_eq_if_modifyHead,
    if_pos (show Piece.isSpace .space by rfl)]
  cases touched <;> simp [expand]

theorem pending_joined (touched : Bool) (curarg : List Byte) {piece : Piece}
    (other : piece.isSpace = false) (pieces : List Piece) :
    pending touched curarg (piece :: pieces) = pending true (curarg ++ piece.expansion) pieces := by
  rw [pending, pending, splitOnP_cons_eq_if_modifyHead, if_neg (by simp [other])]
  cases split : pieces.splitOnP Piece.isSpace with
  | nil => exact absurd split (splitOnP_ne_nil _ _)
  | cons run more => simp [expand]

def bulks (args : List (List Byte)) : List Byte := args.flatMap emitBulk

theorem bulk_length (stack : Nat) (arg : List Byte) (small : (emitBulk arg).length < 2 ^ 31) :
    bulklen (stack + 1) arg.length = some (emitBulk arg).length := by
  simp only [emitBulk, length_cons, length_append, length_nil] at small ⊢
  rw [bulklen, to_int64_small (by omega) (by omega), intlen_decimal stack (by omega),
    Option.map_some, Nat.mod_eq_of_lt (by omega)]
  congr 1
  omega

/-- The locals between two turns, with the arguments that will be found. -/
structure Midway (s : Building) (pieces : List Piece) (args : List (List Byte)) : Prop where
  text : s.c = format pieces
  ap : s.ap = arguments pieces
  found : s.curargv ++ pending s.touched s.curarg pieces = args
  measured : s.totlen = (bulks s.curargv).length
  idle : s.touched = false → s.curarg = []

theorem push_arg (stack : Nat) (s : Building)
    (small : (bulks (s.curargv ++ [s.curarg])).length < 2 ^ 31)
    (measured : s.totlen = (bulks s.curargv).length) :
    pushArg (stack + 1) s = .ok { s with
      curargv := s.curargv ++ [s.curarg]
      totlen := (bulks (s.curargv ++ [s.curarg])).length
      curarg := []
      touched := false } := by
  have split : (bulks (s.curargv ++ [s.curarg])).length =
      (bulks s.curargv).length + (emitBulk s.curarg).length := by
    simp [bulks]
  rw [split] at small ⊢
  rw [pushArg, bulk_length stack s.curarg (by omega)]
  dsimp only
  rw [measured, to_int32_small (by omega) (by omega), Nat.cast_add]

section Loop

variable (vprintf : List Byte → VaArg → List Byte) (stack : Nat)

theorem format_piece {s : Building} {piece : Piece} {pieces : List Piece}
    (midway : Midway s (piece :: pieces) args) (plain : piece.Plain)
    (small : (bulks args).length < 2 ^ 31) :
    ∃ c after next, s.c = c :: after ∧ c ≠ 0 ∧
      formatChar vprintf (stack + 1) s c after = .ok next ∧ Midway next pieces args := by
  obtain ⟨text, ap, found, measured, idle⟩ := midway
  rw [format, flatMap_cons] at text
  rw [arguments, flatMap_cons] at ap
  cases piece with
  | literal c =>
    obtain ⟨nonzero, other, percent⟩ := plain
    rw [pending_joined _ _ (by rfl)] at found
    refine ⟨c, format pieces,
      { s with c := format pieces, curarg := s.curarg ++ [c], touched := true },
      text, nonzero, ?_, ⟨rfl, ap, found, measured, nofun⟩⟩
    rw [formatChar, if_pos (.inl percent), if_neg other]
  | space =>
    rw [pending_space] at found
    cases touched : s.touched with
    | false =>
      rw [touched, if_neg Bool.false_ne_true, nil_append] at found
      refine ⟨32, format pieces, { s with c := format pieces }, text, by decide, ?_,
        ⟨rfl, ap, ?_, measured, idle⟩⟩
      · rw [formatChar, if_pos (.inl (by decide)), if_pos rfl, touched,
          if_neg Bool.false_ne_true]
      · rw [touched, idle touched]
        exact found
    | true =>
      rw [touched, if_pos rfl, ← append_assoc] at found
      have within : (bulks (s.curargv ++ [s.curarg])).length < 2 ^ 31 := by
        rw [← found, bulks, flatMap_append, length_append] at small
        exact lt_of_le_of_lt (Nat.le_add_right _ _) small
      refine ⟨32, format pieces,
        { s with
          c := format pieces, curargv := s.curargv ++ [s.curarg]
          totlen := (bulks (s.curargv ++ [s.curarg])).length, curarg := [], touched := false },
        text, by decide, ?_, ⟨rfl, ap, found, rfl, fun _ => rfl⟩⟩
      rw [formatChar, if_pos (.inl (by decide)), if_pos rfl, touched, if_pos rfl]
      exact push_arg stack { s with c := format pieces } within measured
  | str text' =>
    have whole : text'.takeWhile (· ≠ 0) = text' := by
      apply takeWhile_eq_self_iff.mpr
      intro c member
      have nonzero : c ≠ 0 := fun zero => plain (zero ▸ member)
      simp [nonzero]
    rw [pending_joined _ _ (by rfl)] at found
    refine ⟨37, 115 :: format pieces,
      { s with
        c := format pieces, ap := arguments pieces, curarg := s.curarg ++ text'
        touched := true },
      text, by decide, ?_, ⟨rfl, rfl, found, measured, nofun⟩⟩
    rw [formatChar, if_neg (by simp), convert, if_pos (by rfl), ap]
    simp only [Piece.passed, cons_append, nil_append, whole, tail_cons]
    rfl
  | blob bytes =>
    rw [pending_joined _ _ (by rfl)] at found
    refine ⟨37, 98 :: format pieces,
      { s with
        c := format pieces, ap := arguments pieces, curarg := s.curarg ++ bytes
        touched := true },
      text, by decide, ?_, ⟨rfl, rfl, found, measured, nofun⟩⟩
    rw [formatChar, if_neg (by simp), convert, if_neg (by simp), if_pos (by rfl), ap]
    simp [Piece.passed, arguments]
  | percent =>
    rw [pending_joined _ _ (by rfl)] at found
    refine ⟨37, 37 :: format pieces,
      { s with c := format pieces, curarg := s.curarg ++ [37], touched := true },
      text, by decide, ?_, ⟨rfl, ap, found, measured, nofun⟩⟩
    rw [formatChar, if_neg (by simp), convert, if_neg (by simp), if_neg (by simp),
      if_pos (by rfl)]
    rfl

theorem format_loop (pieces : List Piece) (fuel : Nat) {s : Building}
    (midway : Midway s pieces args) (plain : ∀ piece ∈ pieces, piece.Plain)
    (small : (bulks args).length < 2 ^ 31) (turns : pieces.length ≤ fuel) :
    ∃ last, formatLoop vprintf (stack + 1) fuel s = .ok last ∧ Midway last [] args := by
  induction pieces generalizing fuel s with
  | nil =>
    have ended : s.c = [] := midway.text
    refine ⟨s, ?_, midway⟩
    cases fuel with
    | zero => rfl
    | succ fuel => rw [formatLoop, ended]
  | cons piece pieces ih =>
    cases fuel with
    | zero => exact absurd turns (by simp)
    | succ fuel =>
      obtain ⟨c, after, next, text, nonzero, turned, reached⟩ := format_piece vprintf stack
        midway (plain piece mem_cons_self) small
      obtain ⟨last, looped, ended⟩ := ih fuel reached
        (forall_mem_cons.mp plain).2
        (Nat.le_of_succ_le_succ turns)
      refine ⟨last, ?_, ended⟩
      rw [formatLoop, text]
      dsimp only
      rw [if_neg nonzero, turned]
      exact looped

end Loop

theorem format_length (pieces : List Piece) : pieces.length ≤ (format pieces).length := by
  induction pieces with
  | nil => exact Nat.zero_le _
  | cons piece pieces ih =>
    have positive : 0 < piece.written.length := by cases piece <;> exact Nat.succ_pos _
    rw [format, flatMap_cons, length_append, length_cons]
    exact Nat.add_comm 1 _ ▸ Nat.add_le_add positive ih

/-! ## The bytes of the command -/

theorem encode_all_bulks (args : List (List Byte)) : encodeAll (args.map .bulk) = bulks args := by
  induction args with
  | nil => rfl
  | cons arg args ih =>
    rw [map_cons, encodeAll, ih, bulks, bulks, flatMap_cons]
    rfl

theorem signed_nat (n : Nat) : signed n = decimal n := by
  rw [signed, if_neg (by omega), Int.natAbs_natCast]

theorem encode_command (pieces : List Piece) :
    encode (command pieces) =
      42 :: (decimal (words pieces).length ++ [cr, lf] ++ bulks (words pieces)) := by
  rw [command, encode, length_map, encode_all_bulks]

theorem format_command (vprintf : List Byte → VaArg → List Byte) (stack : Nat) (pieces : List Piece)
    (plain : ∀ piece ∈ pieces, piece.Plain) (small : (encode (command pieces)).length < 2 ^ 31) :
    redisvFormatCommand vprintf (stack + 1) (format pieces) (arguments pieces) =
      .ok ((encode (command pieces)).length, encode (command pieces)) := by
  rw [encode_command] at small ⊢
  simp only [length_cons, length_append, length_nil] at small
  have started : Midway
      { c := format pieces, ap := arguments pieces, curarg := [], touched := false, curargv := []
        totlen := 0 } pieces (words pieces) :=
    ⟨rfl, rfl, pending_start pieces, rfl, fun _ => rfl⟩
  obtain ⟨last, looped, ended⟩ := format_loop vprintf stack pieces (format pieces).length started
    plain (by omega) (format_length pieces)
  have emitted : ∀ s : Building, s.curargv = words pieces →
      s.totlen = (bulks (words pieces)).length →
      emitCommand (stack + 1) s = .ok ((encode (command pieces)).length,
        encode (command pieces)) := by
    intro s stored measured
    have fits : (words pieces).length ≤ (bulks (words pieces)).length := by
      have each : ∀ args : List (List Byte), args.length ≤ (bulks args).length := by
        intro args
        induction args with
        | nil => exact Nat.zero_le _
        | cons arg args ih =>
          simp only [bulks, flatMap_cons, length_append, length_cons, emitBulk] at ih ⊢
          omega
      exact each _
    rw [encode_command, emitCommand, stored, intlen_decimal stack (by omega), measured]
    dsimp only
    rw [signed_nat, to_int32_small (by omega) (by omega)]
    have total : ((42 :: (decimal (words pieces).length ++ [cr, lf] ++
        (words pieces).flatMap emitBulk)).length : Int) =
        ((bulks (words pieces)).length : Int) +
          ((1 + (decimal (words pieces).length).length + 2 : Nat) : Int) := by
      simp only [bulks, length_cons, length_append, length_nil]
      omega
    rw [if_pos total]
    simp only [Except.ok.injEq, Prod.mk.injEq]
    exact ⟨total.symm, rfl⟩
  rw [← encode_command, redisvFormatCommand, looped]
  dsimp only
  have found := ended.found
  rw [pending_nil] at found
  cases touched : last.touched with
  | false =>
    rw [touched, if_neg Bool.false_ne_true, append_nil] at found
    rw [if_neg Bool.false_ne_true]
    exact emitted last found (found ▸ ended.measured)
  | true =>
    rw [touched, if_pos rfl] at found
    rw [if_pos rfl, push_arg stack last (by rw [found]; omega) ended.measured]
    exact emitted _ found (by rw [found])

/-! ## Reading a command back -/

theorem number_shows {stack : Nat} {frames : List Frame} {node : Node}
    (room : frames.length < stack) (type : node.reply.type = .integer) (input : List Byte) :
    ∃ scalar ∈ scalars (codeOf (run (step stack) ⟨frames, .number, node⟩ input)).2.1.reply,
      scalar.1 = .integer := by
  obtain ⟨scalar, shows, inside⟩ := line_leaf (fun node c => step_shallow room .number node c)
    (fun node => node.reply.type = .integer) (fun scalar => scalar.1 = .integer)
    (fun _ holds => holds)
    (fun node c next holds read => by
      rcases integer_byte_some read with ⟨-, rfl⟩ | ⟨-, rfl⟩
      · exact holds
      · exact holds)
    (fun _ holds => holds)
    (fun node holds => ⟨_, holds, close_keeps frames (.mk { node with reply :=
      { node.reply with integer := toInt64 (node.reply.integer * node.want) } } [])⟩)
    node type input
  exact ⟨scalar, inside.subset (by simp), shows⟩

theorem bulks_show_among (args : List (List Byte)) (element : List ReplyTree)
    (denotes : DenoteAll (args.map .bulk) element) (bare : AllBare element) :
    ∀ scalar ∈ scalarsAmong element, scalar.1 ≠ .integer := by
  induction args generalizing element with
  | nil =>
    cases element with
    | nil => simp [scalarsAmong]
    | cons reply rest => exact denotes.elim
  | cons arg args ih =>
    cases element with
    | nil => exact denotes.elim
    | cons reply rest =>
      obtain ⟨type, integer, len, bytes, elements, inner⟩ := reply
      obtain ⟨⟨rfl, -, -⟩, more⟩ := denotes
      obtain ⟨⟨leaf, -⟩, bareMore⟩ := bare
      have none : inner = [] := leaf ReplyType.noConfusion
      subst none
      intro scalar member
      rw [scalarsAmong, scalars, scalarsAmong, nil_append, singleton_append,
        mem_cons] at member
      rcases member with rfl | later
      · exact ReplyType.noConfusion
      · exact ih rest more bareMore scalar later

theorem bulks_show {reply : ReplyTree} (denotes : Denotes (.array (args.map .bulk)) reply)
    (bare : Bare reply) : ∀ scalar ∈ scalars reply, scalar.1 ≠ .integer := by
  obtain ⟨type, integer, len, bytes, elements, element⟩ := reply
  obtain ⟨rfl, -, each⟩ := denotes
  intro scalar member
  rw [scalars, mem_append, mem_singleton] at member
  rcases member with inside | rfl
  · exact bulks_show_among args element each bare.2 scalar inside
  · exact ReplyType.noConfusion

theorem command_cuts_safe {stack : Nat} (decodable : Decodable stack (.array (args.map .bulk))) :
    CutsSafe stack (startAt []) (encode (.array (args.map .bulk))) := by
  intro front back split _ more next paused
  have sound := run_sound (fresh_sound stack) paused
  obtain ⟨kept, keptPaused, limited⟩ := inside_reply decodable split more
  have same : kept = next := by
    rw [paused] at keptPaused
    exact (Outcome.more.inj keptPaused).symm
  subst same
  constructor
  · intro kind
    -- the number would show in the tree of the whole command
    obtain ⟨tree, denotes, bare, ran⟩ := value_step stack _ [] decodable.wellFormed
      decodable.clean (by simpa using decodable.levels) []
    rw [append_nil, split, run_append, paused] at ran
    have number := phase_of_integer sound.focus kind
    have typed := run_numbered (start_numbered []) paused number
    obtain ⟨frames, phase, node⟩ := kept
    have phased : phase = .number := number
    subst phased
    have shown := number_shows (sound.room nofun) typed back
    rw [show run (step stack) _ back = _ from ran] at shown
    obtain ⟨scalar, member, integer⟩ := shown
    exact absurd integer (bulks_show denotes bare scalar member)
  · intro kind line string
    have traced := run_traced paused (fresh_sound stack)
    rcases phase_of_unlimited sound.focus kind line traced with text | ⟨-, null⟩
    · exact absurd kind (limited text)
    · exact absurd null string

theorem command_decodable (stack : Nat)
    (small : (encode (.array (args.map .bulk))).length < 2 ^ 31) :
    Decodable (stack + 2) (.array (args.map .bulk)) := by
  rw [encode, encode_all_bulks] at small
  simp only [length_cons, length_append, length_map, length_nil] at small
  have bounded : ∀ args : List (List Byte), (bulks args).length < 2 ^ 31 →
      AllWellFormed (args.map .bulk) ∧ nilArraysAll (args.map .bulk) = 0 ∧
        depthAll (args.map .bulk) ≤ 1 ∧ args.length ≤ (bulks args).length := by
    intro args
    induction args with
    | nil => exact fun _ => ⟨trivial, rfl, Nat.zero_le _, Nat.zero_le _⟩
    | cons arg args ih =>
      intro fits
      simp only [bulks, flatMap_cons, length_append, emitBulk, length_cons,
        length_nil] at fits
      obtain ⟨formed, clean, levels, counted⟩ := ih (by simp only [bulks]; omega)
      refine ⟨⟨?_, formed⟩, ?_, ?_, ?_⟩
      · rw [WellFormed]
        omega
      · exact (Nat.zero_add _).trans clean
      · exact Nat.max_le.mpr ⟨le_rfl, levels⟩
      · simp only [bulks, flatMap_cons, length_append, emitBulk, length_cons]
          at counted ⊢
        omega
  obtain ⟨formed, clean, levels, counted⟩ := bounded args (by omega)
  refine ⟨⟨?_, formed⟩, clean, ?_⟩
  · rw [length_map]
    omega
  · rw [depth]
    omega

theorem command_fed (stack : Nat) (small : (encode (.array (args.map .bulk))).length < 2 ^ 31)
    (fragments : List (List Byte)) (solid : ∀ f ∈ fragments, f ≠ [])
    (whole : fragments.flatten = encode (.array (args.map .bulk))) :
    ∃ reply, observe (feed (stack + 2) parseTreeNew fragments) =
        (.ok, reply, (encode (.array (args.map .bulk))).length) ∧
      Denotes (.array (args.map .bulk)) reply := by
  have decodable := command_decodable stack small
  have given : fragments ≠ [] := by
    rintro rfl
    rw [encode] at whole
    cases whole
  have safe := command_cuts_safe decodable
  rw [← whole] at safe
  have fed := feed_cuts_safe fragments (startAt []) (fresh_sound _) given solid safe
  obtain ⟨tree, denotes, -, ran⟩ := value_step (stack + 2) _ [] decodable.wellFormed
    decodable.clean (by simpa using decodable.levels) []
  rw [append_nil] at ran
  refine ⟨tree.reply, ?_, denotes⟩
  rw [whole, show resume (startAt []) = startAt [] from rfl, ran] at fed
  exact fed

/-- A formatted command has the returned length and is read back, in any
fragmentation, as the array of the words of its format. -/
theorem formatted_command_parses (vprintf : List Byte → VaArg → List Byte) (calls levels : Nat)
    (pieces : List Piece) (plain : ∀ piece ∈ pieces, piece.Plain)
    (small : (encode (command pieces)).length < 2 ^ 31) :
    ∃ cmd : List Byte,
      redisvFormatCommand vprintf (calls + 1) (format pieces) (arguments pieces) =
        .ok (cmd.length, cmd) ∧
      ∀ fragments : List (List Byte), (∀ f ∈ fragments, f ≠ []) → fragments.flatten = cmd →
        ∃ reply, observe (feed (levels + 2) parseTreeNew fragments) = (.ok, reply, cmd.length) ∧
          Denotes (command pieces) reply :=
  ⟨encode (command pieces), format_command vprintf calls pieces plain small,
    fun fragments solid whole => command_fed levels small fragments solid whole⟩

/-- `SET %s  x%b%%` with the key `a b` and a value of the bytes CR, LF and zero. -/
def setPieces : List Piece :=
  [.literal 83, .literal 69, .literal 84, .space, .str [97, 32, 98], .space, .space, .literal 120,
    .blob [13, 10, 0], .percent]

theorem set_command_parses :
    words setPieces = [[83, 69, 84], [97, 32, 98], [120, 13, 10, 0, 37]] ∧
    ∃ cmd : List Byte,
      redisvFormatCommand (fun _ _ => []) 1 (format setPieces) (arguments setPieces) =
        .ok (cmd.length, cmd) ∧
      ∀ fragments : List (List Byte), (∀ f ∈ fragments, f ≠ []) → fragments.flatten = cmd →
        ∃ reply, observe (feed 2 parseTreeNew fragments) = (.ok, reply, cmd.length) ∧
          Denotes (command setPieces) reply := by
  have plain : ∀ piece ∈ setPieces, piece.Plain := by
    simp [setPieces, Piece.Plain]
  have small : (encode (command setPieces)).length < 2 ^ 31 := by
    rw [encode_command]
    decide +kernel
  exact ⟨by decide +kernel, formatted_command_parses (fun _ _ => []) 0 0 setPieces plain small⟩

/-! ## Commands in a row -/

theorem bulks_denoted {others : List (List Byte)} {element : List ReplyTree}
    (left : DenoteAll (args.map .bulk) element) (right : DenoteAll (others.map .bulk) element) :
    args = others := by
  induction element generalizing args others with
  | nil => cases args <;> cases others <;> simp_all [DenoteAll]
  | cons reply rest ih =>
    obtain ⟨type, integer, len, bytes, elements, element⟩ := reply
    cases args with
    | nil => exact left.elim
    | cons arg args =>
      cases others with
      | nil => exact right.elim
      | cons other others =>
        rw [← left.1.2.1, ← right.1.2.1, ih left.2 right.2]

/-- No argument of `%s` or `%b` can end its command or begin another: the bytes sent, whatever
follows them, determine the words of a command and where it ends. -/
theorem commands_unambiguous (vprintf : List Byte → VaArg → List Byte) (calls : Nat)
    (pieces others : List Piece) (plain : ∀ piece ∈ pieces ++ others, piece.Plain)
    (small : (encode (command pieces)).length < 2 ^ 31)
    (other : (encode (command others)).length < 2 ^ 31) :
    ∃ cmd cmd' : List Byte,
      redisvFormatCommand vprintf (calls + 1) (format pieces) (arguments pieces) =
        .ok (cmd.length, cmd) ∧
      redisvFormatCommand vprintf (calls + 1) (format others) (arguments others) =
        .ok (cmd'.length, cmd') ∧
      ∀ rest more, cmd ++ rest = cmd' ++ more → words pieces = words others ∧ rest = more := by
  refine ⟨_, _, format_command vprintf calls pieces
    (fun p member => plain p (by simp [member])) small,
    format_command vprintf calls others (fun p member => plain p (by simp [member])) other,
    fun rest more same => ?_⟩
  -- the parser stops at the end of either command, with the tree that denotes its words
  have left := command_decodable 0 small
  have right := command_decodable 0 other
  obtain ⟨tree, denotes, -, ran⟩ := value_step 2 _ [] left.wellFormed left.clean
    (by simpa using left.levels) rest
  obtain ⟨tree', denotes', -, ran'⟩ := value_step 2 _ [] right.wellFormed right.clean
    (by simpa using right.levels) more
  rw [← command, same, command, ran'] at ran
  obtain ⟨rfl, rfl⟩ : tree' = tree ∧ more = rest := by
    simpa [close, proceed] using ran
  generalize tree'.reply = reply at denotes denotes'
  obtain ⟨type, integer, len, bytes, elements, element⟩ := reply
  exact ⟨bulks_denoted denotes.2.2 denotes'.2.2, rfl⟩

/-- `%s %b x%b` with the same words. -/
def samePieces : List Piece :=
  [.str [83, 69, 84], .space, .blob [97, 32, 98], .space, .literal 120, .blob [13, 10, 0, 37]]

theorem set_command_unambiguous :
    ∃ cmd cmd' : List Byte,
      redisvFormatCommand (fun _ _ => []) 1 (format setPieces) (arguments setPieces) =
        .ok (cmd.length, cmd) ∧
      redisvFormatCommand (fun _ _ => []) 1 (format samePieces) (arguments samePieces) =
        .ok (cmd'.length, cmd') ∧
      cmd = cmd' ∧ words setPieces = words samePieces := by
  obtain ⟨cmd, cmd', made, made', same⟩ := commands_unambiguous (fun _ _ => []) 0 setPieces
    samePieces (by simp [setPieces, samePieces, Piece.Plain])
      (by rw [encode_command]; decide +kernel)
    (by rw [encode_command]; decide +kernel)
  have equal : cmd = cmd' := by
    have both : redisvFormatCommand (fun _ _ => []) 1 (format setPieces) (arguments setPieces) =
        redisvFormatCommand (fun _ _ => []) 1 (format samePieces) (arguments samePieces) := by
      decide +kernel
    rw [made, made'] at both
    exact (Prod.mk.inj (Except.ok.inj both)).2
  exact ⟨cmd, cmd', made, made', equal, (same [] [] (by rw [equal])).1⟩

end Chuck.RedisCommandFormat
