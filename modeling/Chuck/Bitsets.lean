import Chuck.Support.FaultFreeRuns

/-!
# Bit sets

`chk_bitset.h`. `chk_bitset_new` makes a word of 32 bits for every four indices, so the
words are always enough. `chk_bitset_clear` flips the bit: an index that is not set when
it is cleared is set afterwards.
-/

namespace Chuck.Bitsets

open Support.FaultFreeRuns List

structure Bitset where
  size : Nat
  bits : List (BitVec 32)

def bitsetNew (size : Nat) : Bitset where
  size := size
  bits := List.replicate (if size % 4 = 0 then size / 4 else size / 4 + 1) 0

/-- The word that has the index is combined with the mask `1 << index % 32`. There is no
result if the word is not one of those allocated. -/
def change (combine : BitVec 32 → BitVec 32 → BitVec 32) (bs : Bitset) (index : Nat) :
    Option Bitset :=
  if index ≤ bs.size then
    bs.bits[index / 32]?.map fun word =>
      { bs with bits := bs.bits.set (index / 32) (combine word (1#32 <<< (index % 32))) }
  else some bs

def bitsetSet : Bitset → Nat → Option Bitset := change (· ||| ·)

def bitsetClear : Bitset → Nat → Option Bitset := change (· ^^^ ·)

def bitsetTest (bs : Bitset) (index : Nat) : Option Nat :=
  if index ≤ bs.size then
    bs.bits[index / 32]?.map fun word => if word &&& 1#32 <<< (index % 32) ≠ 0 then 1 else 0
  else some 0

inductive Op where
  | set (index : Nat)
  | clear (index : Nat)

def Op.index : Op → Nat
  | .set index => index
  | .clear index => index

def step (bs : Bitset) : Op → Option Bitset
  | .set index => bitsetSet bs index
  | .clear index => bitsetClear bs index

/-! ## Sets of indices -/

def expected (s : Finset Nat) : Op → Finset Nat
  | .set index => insert index s
  | .clear index => s.erase index

def flipped (s : Finset Nat) : Op → Finset Nat
  | .set index => insert index s
  | .clear index => symmDiff s {index}

def indices (ops : List Op) : Finset Nat := ops.foldl expected ∅

/-- The indices below `n` have their words, and the bits there are those of the set. -/
structure Shows (n : Nat) (s : Finset Nat) (bs : Bitset) : Prop where
  size : bs.size = n
  bits : ∀ i < n, ∃ word, bs.bits[i / 32]? = some word ∧ word.getLsbD (i % 32) = decide (i ∈ s)

variable {n : Nat} {s : Finset Nat} {bs : Bitset}

theorem new_shows (n : Nat) : Shows n ∅ (bitsetNew n) := by
  refine ⟨rfl, fun i below => ⟨0, ?_, BitVec.getLsbD_zero⟩⟩
  apply getElem?_replicate_of_lt
  split_ifs <;> omega

theorem Shows.test (shows : Shows n s bs) {i : Nat} (below : i < n) :
    bitsetTest bs i = some (if i ∈ s then 1 else 0) := by
  obtain ⟨word, found, bit⟩ := shows.bits i below
  have known : i ≤ bs.size := shows.size ▸ Nat.le_of_lt below
  have mask : BitVec.twoPow 32 (i % 32) ≠ 0 := by
    intro zero
    have value := BitVec.toNat_twoPow_of_lt (Nat.mod_lt i (show 0 < 32 by decide))
    rw [zero] at value
    exact absurd value.symm (Nat.two_pow_pos _).ne'
  rw [bitsetTest, if_pos known, found, Option.map_some, ← BitVec.twoPow_eq, BitVec.and_twoPow, bit]
  by_cases member : i ∈ s
  · rw [if_pos member, decide_eq_true member, if_pos rfl, if_pos mask]
  · rw [if_neg member, decide_eq_false member, if_neg Bool.false_ne_true]
    rfl

/-- The bit of one index is combined with `true`, and those of the others with `false`. -/
theorem Shows.change (shows : Shows n s bs) {i : Nat} (below : i < n) {t : Finset Nat}
    {combine : BitVec 32 → BitVec 32 → BitVec 32} (bit : Bool → Bool → Bool)
    (bitwise : ∀ word mask k, (combine word mask).getLsbD k = bit (word.getLsbD k) (mask.getLsbD k))
    (keeps : ∀ b, bit b false = b)
    (members : ∀ j, decide (j ∈ t) = bit (decide (j ∈ s)) (decide (j = i))) :
    ∃ after, Bitsets.change combine bs i = some after ∧ Shows n t after := by
  obtain ⟨first, here, -⟩ := shows.bits i below
  rw [Bitsets.change, if_pos (shows.size ▸ Nat.le_of_lt below), here]
  refine ⟨_, rfl, shows.size, fun j lower => ?_⟩
  obtain ⟨word, found, old⟩ := shows.bits j lower
  rw [members j, ← old]
  by_cases same : i / 32 = j / 32
  · have place : i % 32 < 32 ∧ (i % 32 = j % 32 ↔ j = i) := by omega
    cases here.symm.trans (same ▸ found)
    refine ⟨combine first (1#32 <<< (i % 32)), ?_, ?_⟩
    · rw [same]
      exact List.getElem?_set_self (List.getElem?_eq_some_iff.mp found).1
    · rw [bitwise, ← BitVec.twoPow_eq, BitVec.getLsbD_twoPow, decide_eq_true place.1, Bool.true_and]
      simp only [place.2]
  · have apart : j ≠ i := fun equal => same (by rw [equal])
    rw [decide_eq_false apart, keeps]
    exact ⟨word, (getElem?_set_ne same).trans found, rfl⟩

theorem step_shows (shows : Shows n s bs) {op : Op} (below : op.index < n) :
    ∃ after, step bs op = some after ∧ Shows n (flipped s op) after := by
  cases op with
  | set i =>
    apply shows.change below or (fun _ _ _ => BitVec.getLsbD_or) Bool.or_false
    intro j
    rw [flipped, ← Bool.decide_or, decide_eq_decide, Finset.mem_insert, or_comm]
    rfl
  | clear i =>
    apply shows.change below xor (fun _ _ _ => BitVec.getLsbD_xor) Bool.xor_false
    intro j
    rw [flipped, Op.index]
    by_cases same : j = i <;> simp [Finset.mem_symmDiff, same]

theorem run_shows (ops : List Op) (inside : ∀ op ∈ ops, op.index < n) :
    ∃ bs, run step (bitsetNew n) ops = some bs ∧ Shows n (ops.foldl flipped ∅) bs := by
  induction ops using List.reverseRecOn with
  | nil => exact ⟨_, rfl, new_shows n⟩
  | append_singleton ops op ih =>
    obtain ⟨bs, ran, shows⟩ := ih fun other member => inside other (mem_append_left _ member)
    obtain ⟨after, stepped, shown⟩ := step_shows shows (inside op (by simp))
    refine ⟨after, ?_, ?_⟩
    · rw [run_append, ran, Option.bind_some, run, stepped]
      rfl
    · rw [foldl_concat]
      exact shown

/-- After every operation, `chk_bitset_test` finds the indices that are set and not
cleared afterwards, and a further operation changes what it finds for its own index only. -/
def ActsAsSet (n : Nat) (ops : List Op) : Prop :=
  ∀ done, done <+: ops → ∃ bs, run step (bitsetNew n) done = some bs ∧
    (∀ i < n, bitsetTest bs i = some (if i ∈ indices done then 1 else 0)) ∧
    ∀ op, op.index < n → ∃ after, step bs op = some after ∧
      ∀ i < n, i ≠ op.index → bitsetTest after i = bitsetTest bs i

/-- The two agree as long as only indices that are set are cleared. -/
theorem flipped_indices (done : List Op)
    (present : ∀ front i rest, done = front ++ .clear i :: rest → i ∈ indices front) :
    done.foldl flipped ∅ = indices done := by
  induction done using List.reverseRecOn with
  | nil => rfl
  | append_singleton done op ih =>
    have same := ih fun front i rest split => present front i (rest ++ [op]) (by rw [split]; simp)
    rw [indices, foldl_concat, foldl_concat, same, ← indices]
    cases op with
    | set i => rfl
    | clear i =>
      have member := present done i [] rfl
      ext j
      rw [flipped, expected, Finset.mem_symmDiff, Finset.mem_erase, Finset.mem_singleton]
      by_cases own : j = i
      · simp [own, member]
      · simp [own]

/-- The operations act as those of a set if every index that is cleared is set then. -/
theorem acts_as_set_iff (ops : List Op) (inside : ∀ op ∈ ops, op.index < n) :
    ActsAsSet n ops ↔ ∀ done i rest, ops = done ++ .clear i :: rest → i ∈ indices done := by
  constructor
  · intro acts done i rest split
    have below : i < n := inside (.clear i) (by rw [split]; simp)
    obtain ⟨bs, ran, shows⟩ :=
      run_shows done fun op member => inside op (by rw [split]; simp [member])
    obtain ⟨after, stepped, shown⟩ := step_shows shows (show (Op.clear i).index < n from below)
    obtain ⟨_, ranBefore, before, -⟩ := acts done ⟨_, split.symm⟩
    obtain ⟨_, ranAfter, behind, -⟩ := acts (done ++ [.clear i]) ⟨rest, by rw [split]; simp⟩
    rw [run_append, ran, Option.bind_some, run, stepped] at ranAfter
    cases ran.symm.trans ranBefore
    cases ranAfter
    -- a bit that is not set is set by the clear
    by_contra absent
    have unset := (shows.test below).symm.trans (before i below)
    have set := (shown.test below).symm.trans (behind i below)
    simp only [absent, if_false, Option.some.injEq, ite_eq_right_iff, one_ne_zero, imp_false]
      at unset
    simp [flipped, Finset.mem_symmDiff, unset, indices, expected] at set
  · intro present done part
    obtain ⟨rest, whole⟩ := part
    have known : ∀ op ∈ done, op.index < n := fun op member =>
      inside op (whole ▸ mem_append_left rest member)
    have same := flipped_indices done fun front i more split =>
      present front i (more ++ rest) (by rw [← whole, split]; simp)
    obtain ⟨bs, ran, shows⟩ := run_shows done known
    refine ⟨bs, ran, fun i below => same ▸ shows.test below, fun op below => ?_⟩
    obtain ⟨after, stepped, shown⟩ := step_shows shows below
    refine ⟨after, stepped, fun i lower apart => ?_⟩
    rw [shown.test lower, shows.test lower]
    cases op <;> simp_all [flipped, Finset.mem_symmDiff, Op.index]

theorem set_and_cleared : ActsAsSet 40 [.set 35, .clear 35] := by
  apply (acts_as_set_iff _ (by simp [Op.index])).mpr
  intro done i rest split
  match done with
  | [] => cases split
  | [_] =>
    cases split
    decide
  | _ :: _ :: done => cases done <;> cases split

/-- An index that was never set is set by clearing it. -/
theorem cleared_index_set :
    ((bitsetClear (bitsetNew 40) 35).bind fun bs => bitsetTest bs 35) = some 1 ∧
      35 ∉ indices [.clear 35] ∧ ¬ActsAsSet 40 [.clear 35] := by
  refine ⟨by decide, by decide, fun acts => ?_⟩
  obtain ⟨bs, ran, found, -⟩ := acts [.clear 35] prefix_rfl
  cases ran
  exact absurd (found 35 (by decide)) (by decide)

end Chuck.Bitsets
