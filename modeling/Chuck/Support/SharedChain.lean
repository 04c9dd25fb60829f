import Mathlib.Data.Finset.Card
import Mathlib.Data.Finset.Interval
import Mathlib.Order.Interval.Finset.Nat
import Mathlib.Data.List.Count

/-!
# Chains of reference-counted cells

A heap of cells that are linked in chains. The count of a cell is the number of
its holders plus one if a cell before it links to it, and a cell whose count
drops to zero is freed together with its link. `Chain` describes one chain by
the numbers of its cells, oldest first, and the list of the cells held from
outside: every operation that a holder makes turns one such description into
another.
-/

namespace Chuck.Support.SharedChain

open Function List

variable {Payload : Type*}

structure Cell (Payload : Type*) where
  refcount : Nat
  next : Option Nat
  payload : Payload

/-- The cells in use; addresses from `fresh` on have never been used. -/
structure Heap (Payload : Type*) where
  cells : Nat → Option (Cell Payload)
  fresh : Nat

def Heap.set (heap : Heap Payload) (address : Nat) (cell : Option (Cell Payload)) : Heap Payload :=
  { heap with cells := fun other => if other = address then cell else heap.cells other }

@[simp] theorem Heap.set_same (heap : Heap Payload) (address : Nat)
    (cell : Option (Cell Payload)) : (heap.set address cell).cells address = cell :=
  if_pos rfl

theorem Heap.set_other (heap : Heap Payload) {address other : Nat} (cell : Option (Cell Payload))
    (different : other ≠ address) : (heap.set address cell).cells other = heap.cells other :=
  if_neg different

def Heap.alloc (heap : Heap Payload) (payload : Payload) : Nat × Heap Payload :=
  (heap.fresh,
    { heap.set heap.fresh (some { refcount := 1, next := none, payload := payload }) with
      fresh := heap.fresh + 1 })

def Heap.retain (heap : Heap Payload) (address : Nat) : Option (Heap Payload) :=
  match heap.cells address with
  | some cell =>
    if cell.refcount = 0 then none
    else some (heap.set address (some { cell with refcount := cell.refcount + 1 }))
  | none => none

def Heap.releaseLoop : Nat → Heap Payload → Nat → Option (Heap Payload)
  | 0, _, _ => none
  | fuel + 1, heap, address =>
    match heap.cells address with
    | none => none
    | some cell =>
      if cell.refcount > 1 then
        some (heap.set address (some { cell with refcount := cell.refcount - 1 }))
      else if cell.refcount = 0 then none
      else
        match cell.next with
        | none => some (heap.set address none)
        | some next => (releaseLoop fuel heap next).map (·.set address none)

def Heap.release (heap : Heap Payload) (address : Nat) : Option (Heap Payload) :=
  heap.releaseLoop (heap.fresh + 1) address

section Counts

variable {heap : Heap Payload} {address : Nat} {cell : Cell Payload}
  (here : heap.cells address = some cell)

include here

theorem Heap.retain_counted (counted : 0 < cell.refcount) :
    heap.retain address =
      some (heap.set address (some { cell with refcount := cell.refcount + 1 })) := by
  rw [Heap.retain, here]
  exact if_neg counted.ne'

theorem Heap.release_shared (fuel : Nat) (shared : 1 < cell.refcount) :
    heap.releaseLoop (fuel + 1) address =
      some (heap.set address (some { cell with refcount := cell.refcount - 1 })) := by
  rw [Heap.releaseLoop, here]
  exact if_pos shared

theorem Heap.release_last (fuel : Nat) (last : cell.refcount = 1) (none : cell.next = none) :
    heap.releaseLoop (fuel + 1) address = some (heap.set address Option.none) := by
  rw [Heap.releaseLoop, here]
  simp [last, none]

theorem Heap.release_linked (fuel : Nat) (last : cell.refcount = 1) {next : Nat}
    (linked : cell.next = some next) :
    heap.releaseLoop (fuel + 1) address =
      (heap.releaseLoop fuel next).map (·.set address none) := by
  rw [Heap.releaseLoop, here]
  simp [last, linked]

end Counts

/-! ## Descriptions of a chain -/

section Segments

variable (addr : Nat → Nat) (payload : Nat → Payload)

def cellAt (hi i refcount : Nat) : Cell Payload :=
  { refcount := refcount
    next := if i + 1 < hi then some (addr (i + 1)) else none
    payload := payload i }

/-- The cells from `lo` on. The first one is counted `extra` times on top of
its holders. -/
structure Segment (heap : Heap Payload) (lo hi : Nat) (holders : List Nat) (extra : Nat) :
    Prop where
  cell : ∀ i, lo ≤ i → i < hi → heap.cells (addr i) =
    some (cellAt addr payload hi i (holders.count i + if lo < i then 1 else extra))
  apart : ∀ i j, lo ≤ i → i < hi → lo ≤ j → j < hi → addr i = addr j → i = j
  used : ∀ i, lo ≤ i → i < hi → addr i < heap.fresh
  inside : ∀ i ∈ holders, lo ≤ i ∧ i < hi

structure Chain (heap : Heap Payload) (lo hi : Nat) (holders : List Nat) : Prop where
  segment : Segment addr payload heap lo hi holders 0
  first : lo ∈ holders

variable {addr payload} {heap : Heap Payload} {lo hi : Nat} {holders : List Nat} {extra : Nat}

theorem Segment.length_le (segment : Segment addr payload heap lo hi holders extra) :
    hi - lo ≤ heap.fresh := by
  have small := Finset.card_le_card_of_injOn addr
    (s := Finset.Ico lo hi) (t := Finset.range heap.fresh)
    (fun i member => by
      have bounds := Finset.mem_Ico.mp member
      exact Finset.mem_range.mpr (segment.used i bounds.1 bounds.2))
    (fun i first j second same => by
      have left := Finset.mem_Ico.mp first
      have right := Finset.mem_Ico.mp second
      exact segment.apart i j left.1 left.2 right.1 right.2 same)
  rwa [Nat.card_Ico, Finset.card_range] at small

theorem Segment.tail (segment : Segment addr payload heap lo hi holders extra)
    (above : ∀ i ∈ holders, lo < i) : Segment addr payload heap (lo + 1) hi holders 1 := by
  refine ⟨fun i lower upper => ?_, fun i j first _ second => ?_, fun i lower => ?_,
    fun i member => ⟨above i member, (segment.inside i member).2⟩⟩
  · rw [segment.cell i (by omega) upper, if_pos (by omega), ite_self]
  · exact segment.apart i j (by omega) ‹_› (by omega)
  · exact segment.used i (by omega)

theorem Segment.frame (segment : Segment addr payload heap lo hi holders extra) {address : Nat}
    (outside : ∀ i, lo ≤ i → i < hi → addr i ≠ address) (cell : Option (Cell Payload)) :
    Segment addr payload (heap.set address cell) lo hi holders extra := by
  refine { segment with cell := fun i lower upper => ?_ }
  rw [Heap.set_other _ _ (outside i lower upper), segment.cell i lower upper]

/-- An operation on the cells `lo` to `hi` that leaves every other cell in use
alone. -/
def Spares (addr : Nat → Nat) (lo hi : Nat) (heap after : Heap Payload) : Prop :=
  heap.fresh ≤ after.fresh ∧
    ∀ a, a < heap.fresh → (∀ i, lo ≤ i → i < hi → addr i ≠ a) → after.cells a = heap.cells a

theorem Spares.refl : Spares addr lo hi heap heap :=
  ⟨le_rfl, fun _ _ _ => rfl⟩

theorem Spares.set {k : Nat} (lower : lo ≤ k) (upper : k < hi) (cell : Option (Cell Payload)) :
    Spares addr lo hi heap (heap.set (addr k) cell) :=
  ⟨le_rfl, fun _ _ outside => Heap.set_other _ _ (outside k lower upper).symm⟩

theorem Spares.trans {again : Nat → Nat} {low high : Nat} {between after : Heap Payload}
    (first : Spares addr lo hi heap between) (second : Spares again low high between after)
    (within : ∀ i, low ≤ i → i < high → again i < heap.fresh →
      ∃ j, lo ≤ j ∧ j < hi ∧ addr j = again i) : Spares addr lo hi heap after := by
  refine ⟨first.1.trans second.1, fun a small outside => ?_⟩
  rw [second.2 a (small.trans_le first.1) ?_, first.2 a small outside]
  intro i lower upper same
  obtain ⟨j, above, below, equal⟩ := within i lower upper (same ▸ small)
  exact outside j above below (equal.trans same)

theorem Spares.widen {low high : Nat} {after : Heap Payload}
    (spares : Spares addr low high heap after) (lower : lo ≤ low) (upper : high ≤ hi) :
    Spares addr lo hi heap after :=
  ⟨spares.1, fun a small outside => spares.2 a small fun i above below =>
    outside i (lower.trans above) (below.trans_le upper)⟩

theorem Segment.spared (segment : Segment addr payload heap lo hi holders extra) {other : Nat → Nat}
    {low high : Nat} {after : Heap Payload} (spares : Spares other low high heap after)
    (disjoint : ∀ i j, lo ≤ i → i < hi → low ≤ j → j < high → other j ≠ addr i) :
    Segment addr payload after lo hi holders extra := by
  refine ⟨fun i lower upper => ?_, segment.apart, fun i lower upper =>
    Nat.lt_of_lt_of_le (segment.used i lower upper) spares.1, segment.inside⟩
  rw [spares.2 _ (segment.used i lower upper) fun j => disjoint i j lower upper,
    segment.cell i lower upper]

theorem Segment.recount (segment : Segment addr payload heap lo hi holders extra) {k : Nat}
    (lower : lo ≤ k) (upper : k < hi) {others : List Nat} {again count : Nat}
    (here : others.count k + (if lo < k then 1 else again) = count)
    (same : ∀ i, i ≠ k → others.count i = holders.count i)
    (kept : k ≠ lo → again = extra) (inside : ∀ i ∈ others, lo ≤ i ∧ i < hi) :
    Segment addr payload (heap.set (addr k) (some (cellAt addr payload hi k count))) lo hi
      others again := by
  refine ⟨fun i low high => ?_, segment.apart, segment.used, inside⟩
  by_cases this : i = k
  · rw [this, Heap.set_same, here]
  · have different : addr i ≠ addr k := fun equal =>
      this (segment.apart i k low high lower upper equal)
    rw [Heap.set_other _ _ different, segment.cell i low high, same i this]
    by_cases first : lo < i
    · rw [if_pos first, if_pos first]
    · rw [if_neg first, if_neg first, kept (by omega)]

/-- Giving up a count of the first cell frees it, and the cells behind it, up
to the first cell that is held. -/
theorem Segment.release_first (fuel : Nat) (segment : Segment addr payload heap lo hi holders 1)
    (nonempty : lo < hi) (enough : hi - lo ≤ fuel) :
    ∃ after, heap.releaseLoop fuel (addr lo) = some after ∧ after.fresh = heap.fresh ∧
      Spares addr lo hi heap after ∧
      ∀ first ∈ holders, (∀ i ∈ holders, first ≤ i) →
        Chain addr payload after first hi holders := by
  induction fuel generalizing lo with
  | zero => omega
  | succ fuel ih =>
    have cell := segment.cell lo le_rfl nonempty
    rw [if_neg (Nat.lt_irrefl lo)] at cell
    by_cases held : lo ∈ holders
    · have counted : 0 < holders.count lo := count_pos_iff.mpr held
      refine ⟨_, Heap.release_shared cell fuel (Nat.succ_lt_succ counted), rfl,
        Spares.set le_rfl nonempty _, fun first member least => ?_⟩
      obtain rfl : first = lo :=
        Nat.le_antisymm (least lo held) (segment.inside first member).1
      exact ⟨segment.recount le_rfl nonempty (by rw [if_neg (Nat.lt_irrefl _)]; rfl)
        (fun _ _ => rfl) (fun other => absurd rfl other) segment.inside, held⟩
    · have counted : holders.count lo + 1 = 1 := by rw [count_eq_zero.mpr held]
      have above : ∀ i ∈ holders, lo < i := by
        intro i member
        have bounds := segment.inside i member
        have other : i ≠ lo := fun same => held (same ▸ member)
        omega
      have outside : ∀ i, lo + 1 ≤ i → i < hi → addr i ≠ addr lo := by
        intro i low high same
        have := segment.apart i lo (by omega) high le_rfl nonempty same
        omega
      by_cases last : lo + 1 < hi
      · obtain ⟨after, released, fresh, spares, rest⟩ :=
          ih (segment.tail above) last (by omega)
        have unlinked := Heap.release_linked cell fuel counted (if_pos last)
        rw [released] at unlinked
        have spared : Spares addr lo hi heap (after.set (addr lo) none) :=
          (spares.widen (Nat.le_succ lo) (Nat.le_refl hi)).trans
            (Spares.set (Nat.le_refl lo) nonempty none) fun i low high _ => ⟨i, low, high, rfl⟩
        refine ⟨_, unlinked, fresh, spared, fun first member least => ?_⟩
        have chain := rest first member least
        refine ⟨chain.segment.frame (fun i low high => outside i ?_ high) none, chain.first⟩
        have := above first member
        omega
      · refine ⟨_, Heap.release_last cell fuel counted (if_neg last), rfl,
          Spares.set le_rfl nonempty _, fun first member _ => ?_⟩
        have := (segment.inside first member).2
        have := above first member
        omega

end Segments

/-! ## What a holder can do -/

section Holders

variable {addr : Nat → Nat} {payload : Nat → Payload} {heap : Heap Payload} {lo hi : Nat}
  {holders : List Nat}

theorem Chain.perm {others : List Nat} (chain : Chain addr payload heap lo hi holders)
    (same : holders.Perm others) : Chain addr payload heap lo hi others := by
  refine ⟨⟨fun i lower upper => ?_, chain.segment.apart, chain.segment.used, fun i member =>
    chain.segment.inside i (same.mem_iff.mpr member)⟩, same.mem_iff.mp chain.first⟩
  rw [chain.segment.cell i lower upper, same.count_eq]

theorem Chain.nonempty (chain : Chain addr payload heap lo hi holders) : lo < hi :=
  (chain.segment.inside lo chain.first).2

theorem Chain.counted (chain : Chain addr payload heap lo hi holders) {i : Nat}
    (lower : lo ≤ i) : 0 < holders.count i + if lo < i then 1 else 0 := by
  split_ifs with later
  · exact Nat.succ_pos _
  · obtain rfl : i = lo := by omega
    exact count_pos_iff.mpr chain.first

theorem Chain.retain (chain : Chain addr payload heap lo hi holders) {i : Nat} (lower : lo ≤ i)
    (upper : i < hi) : ∃ after, heap.retain (addr i) = some after ∧ after.fresh = heap.fresh ∧
      Spares addr lo hi heap after ∧ Chain addr payload after lo hi (i :: holders) := by
  have cell := chain.segment.cell i lower upper
  refine ⟨_, Heap.retain_counted cell (chain.counted lower), rfl, Spares.set lower upper _,
    chain.segment.recount lower upper ?_ ?_ (fun _ => rfl) ?_, mem_cons_of_mem _ chain.first⟩
  · rw [count_cons_self, Nat.add_right_comm]
    rfl
  · intro j other
    rw [count_cons_of_ne (Ne.symm other)]
  · intro j member
    rcases mem_cons.mp member with rfl | old
    · exact ⟨lower, upper⟩
    · exact chain.segment.inside j old

theorem Chain.release {i : Nat} (chain : Chain addr payload heap lo hi (i :: holders)) :
    ∃ after, heap.release (addr i) = some after ∧ after.fresh = heap.fresh ∧
      Spares addr lo hi heap after ∧
      ∀ first ∈ holders, (∀ j ∈ holders, first ≤ j) →
        Chain addr payload after first hi holders := by
  obtain ⟨lower, upper⟩ := chain.segment.inside i mem_cons_self
  have inside : ∀ j ∈ holders, lo ≤ j ∧ j < hi := (forall_mem_cons.mp chain.segment.inside).2
  by_cases start : i = lo
  · subst start
    have segment : Segment addr payload heap i hi holders 1 := by
      refine ⟨fun j low high => ?_, chain.segment.apart, chain.segment.used, inside⟩
      rw [chain.segment.cell j low high]
      by_cases this : j = i
      · rw [this, count_cons_self, if_neg (Nat.lt_irrefl _), if_neg (Nat.lt_irrefl _)]
      · rw [count_cons_of_ne (Ne.symm this), if_pos (by omega), if_pos (by omega)]
    exact segment.release_first _ upper (Nat.le_succ_of_le segment.length_le)
  · have first : lo ∈ holders := (mem_cons.mp chain.first).resolve_left (Ne.symm start)
    have cell := chain.segment.cell i lower upper
    rw [count_cons_self, if_pos (by omega)] at cell
    refine ⟨_, Heap.release_shared cell _ (Nat.succ_lt_succ (Nat.succ_pos _)), rfl,
      Spares.set lower upper _, fun least member smallest => ?_⟩
    obtain rfl : least = lo := Nat.le_antisymm (smallest lo first) (inside least member).1
    refine ⟨chain.segment.recount lower upper (by rw [if_pos (by omega)]; rfl) ?_ (fun _ => rfl)
      inside, first⟩
    intro j other
    rw [count_cons_of_ne (Ne.symm other)]

theorem Segment.alloc {extra : Nat} (segment : Segment addr payload heap lo hi holders extra)
    (content : Payload) : Segment addr payload (heap.alloc content).2 lo hi holders extra :=
  ⟨fun i lower upper => (Heap.set_other _ _ (Nat.ne_of_lt (segment.used i lower upper))).trans
    (segment.cell i lower upper), segment.apart, fun i lower upper =>
      Nat.lt_succ_of_lt (segment.used i lower upper), segment.inside⟩

theorem Chain.alloc (heap : Heap Payload) (lo : Nat) (content : Payload) :
    Chain (fun _ => (heap.alloc content).1) (fun _ => content) (heap.alloc content).2 lo (lo + 1)
      [lo] := by
  refine ⟨⟨fun i lower upper => ?_, fun i j low high low' high' _ => by omega,
    fun i _ _ => Nat.lt_succ_self _, fun i member => ?_⟩, mem_singleton_self lo⟩
  · obtain rfl : i = lo := by omega
    refine (Heap.set_same _ _ _).trans ?_
    rw [count_singleton_self, if_neg (Nat.lt_irrefl _)]
    simp [cellAt]
  · rw [mem_singleton.mp member]
    omega

def Heap.extend (heap : Heap Payload) (last : Nat) (content : Payload) : Option (Heap Payload) :=
  let (address, grown) := heap.alloc content
  (grown.cells last).map fun cell => grown.set last (some { cell with next := some address })

theorem Chain.extend (chain : Chain addr payload heap lo hi holders) (content : Payload) :
    ∃ after, heap.extend (addr (hi - 1)) content = some after ∧
      after.fresh = heap.fresh + 1 ∧ Spares addr lo hi heap after ∧
      Chain (update addr hi heap.fresh) (update payload hi content) after lo
        (hi + 1) holders := by
  have nonempty := chain.nonempty
  have segment := chain.segment
  have apart : ∀ i, lo ≤ i → i < hi → addr i ≠ heap.fresh :=
    fun i lower upper => Nat.ne_of_lt (segment.used i lower upper)
  have grown : ∀ i, lo ≤ i → i < hi →
      (heap.alloc content).2.cells (addr i) = heap.cells (addr i) :=
    fun i lower upper => Heap.set_other _ _ (apart i lower upper)
  have last := (grown (hi - 1) (by omega) (by omega)).trans
    (segment.cell (hi - 1) (by omega) (by omega))
  have old : ∀ i, i < hi → update addr hi heap.fresh i = addr i :=
    fun i upper => update_of_ne upper.ne _ _
  have oldContent : ∀ i, i < hi → update payload hi content i = payload i :=
    fun i upper => update_of_ne upper.ne _ _
  refine ⟨_, congrArg (Option.map _) last, rfl, ⟨Nat.le_succ _, fun a small outside => ?_⟩,
    ⟨fun i lower upper => ?_, fun i j low high low' high' same => ?_, fun i lower upper => ?_,
      fun i member => ?_⟩, chain.first⟩
  · refine (Heap.set_other _ _ (outside (hi - 1) (by omega) (by omega)).symm).trans ?_
    exact Heap.set_other _ _ small.ne
  · by_cases new : i = hi
    · subst new
      have other : i ∉ holders := fun member => absurd (segment.inside i member).2 (Nat.lt_irrefl _)
      have different : heap.fresh ≠ addr (i - 1) := (apart (i - 1) (by omega) (by omega)).symm
      rw [update_self, Heap.set_other _ _ different, count_eq_zero.mpr other,
        if_pos nonempty]
      refine (Heap.set_same _ _ _).trans ?_
      simp [cellAt]
    · have small : i < hi := by omega
      rw [old i small]
      by_cases final : i = hi - 1
      · subst final
        have next : hi - 1 + 1 = hi := by omega
        rw [Heap.set_same]
        simp only [cellAt, next, Nat.lt_succ_self, if_true, update_self,
          oldContent _ small]
      · have different : addr i ≠ addr (hi - 1) := fun same =>
          final (segment.apart i (hi - 1) lower small (by omega) (by omega) same)
        rw [Heap.set_other _ _ different]
        refine (grown i lower small).trans ?_
        rw [segment.cell i lower small]
        have link : i + 1 < hi := by omega
        simp only [cellAt, link, Nat.lt_succ_of_lt link, if_true, old _ link, oldContent i small]
  · by_cases new : i = hi
    · subst new
      by_cases other : j = i
      · exact other.symm
      · rw [update_self, old j (by omega)] at same
        exact absurd same.symm (apart j low' (by omega))
    · rw [old i (by omega)] at same
      by_cases other : j = hi
      · subst other
        rw [update_self] at same
        exact absurd same (apart i low (by omega))
      · rw [old j (by omega)] at same
        exact segment.apart i j low (by omega) low' (by omega) same
  · by_cases new : i = hi
    · subst new
      rw [update_self]
      exact Nat.lt_succ_self _
    · rw [old i (by omega)]
      exact Nat.lt_succ_of_lt (segment.used i lower (by omega))
  · have bounds := segment.inside i member
    omega

theorem Chain.store (chain : Chain addr payload heap lo hi holders) {i : Nat} (lower : lo ≤ i)
    (upper : i < hi) (content : Payload) {cell : Cell Payload}
    (here : heap.cells (addr i) = some cell) :
    Chain addr (update payload i content)
      (heap.set (addr i) (some { cell with payload := content })) lo hi holders := by
  have segment := chain.segment
  have known := Option.some.inj (here.symm.trans (segment.cell i lower upper))
  refine ⟨{ segment with cell := fun j low high => ?_ }, chain.first⟩
  by_cases this : j = i
  · subst this
    rw [Heap.set_same, known]
    simp [cellAt]
  · have different : addr j ≠ addr i := fun same =>
      this (segment.apart j i low high lower upper same)
    rw [Heap.set_other _ _ different, segment.cell j low high]
    simp [cellAt, update_of_ne this]

theorem Chain.split (chain : Chain addr payload heap lo hi holders) {c : Nat} (lower : lo ≤ c)
    (more : c + 1 < hi) {cell : Cell Payload} (here : heap.cells (addr c) = some cell) :
    Chain addr payload (heap.set (addr c) (some { cell with next := none })) lo (c + 1)
        (holders.filter (· ≤ c)) ∧
      Chain addr payload (heap.set (addr c) (some { cell with next := none })) (c + 1) hi
        ((c + 1) :: holders.filter (c < ·)) := by
  have segment := chain.segment
  have known := Option.some.inj (here.symm.trans (segment.cell c lower (by omega)))
  have different : ∀ i, lo ≤ i → i < hi → i ≠ c → addr i ≠ addr c :=
    fun i low high other same => other (segment.apart i c low high lower (by omega) same)
  refine ⟨⟨⟨fun i low high => ?_, fun i j low high low' high' => segment.apart i j low (by omega)
    low' (by omega), fun i low high => segment.used i low (by omega), fun i member => ?_⟩,
    mem_filter.mpr ⟨chain.first, decide_eq_true lower⟩⟩,
    ⟨⟨fun i low high => ?_, fun i j low high low' high' => segment.apart i j (by omega) high
      (by omega) high', fun i low high => segment.used i (by omega) high, fun i member => ?_⟩,
      mem_cons_self⟩⟩
  · have kept : (holders.filter (· ≤ c)).count i = holders.count i :=
      count_filter (by simp; omega)
    rw [kept]
    by_cases this : i = c
    · rw [this, Heap.set_same, known]
      simp [cellAt]
    · rw [Heap.set_other _ _ (different i low (by omega) this), segment.cell i low (by omega)]
      have link : i + 1 < c + 1 := by omega
      simp only [cellAt, link, (by omega : i + 1 < hi), if_true]
  · obtain ⟨old, small⟩ := mem_filter.mp member
    exact ⟨(segment.inside i old).1, Nat.lt_succ_of_le (of_decide_eq_true small)⟩
  · rw [Heap.set_other _ _ (different i (by omega) high (by omega)),
      segment.cell i (by omega) high, if_pos (by omega)]
    have kept : (holders.filter (c < ·)).count i = holders.count i :=
      count_filter (by simp; omega)
    by_cases next : i = c + 1
    · rw [next, count_cons_self, if_neg (Nat.lt_irrefl _), ← next, kept]
    · rw [count_cons_of_ne (Ne.symm next), if_pos (by omega), kept]
  · rcases mem_cons.mp member with rfl | old
    · omega
    · obtain ⟨held, large⟩ := mem_filter.mp old
      exact ⟨of_decide_eq_true large, (segment.inside i held).2⟩

/-- A holder cuts its cell off and goes on to the next one, taking over the
link. Holders up to the cut keep the first part. -/
theorem Chain.takeOver {c : Nat} (chain : Chain addr payload heap lo hi (c :: holders))
    (more : c + 1 < hi) {cell : Cell Payload} (here : heap.cells (addr c) = some cell) :
    ∃ after, (heap.set (addr c) (some { cell with next := none })).release (addr c) =
        some after ∧ after.fresh = heap.fresh ∧ Spares addr lo (c + 1) heap after ∧
      Chain addr payload after (c + 1) hi ((c + 1) :: holders.filter (c < ·)) ∧
      ∀ first ∈ holders, first ≤ c → (∀ j ∈ holders, first ≤ j) →
        Chain addr payload after first (c + 1) (holders.filter (· ≤ c)) := by
  obtain ⟨lower, -⟩ := chain.segment.inside c mem_cons_self
  obtain ⟨front, back⟩ := chain.split lower more here
  rw [filter_cons_of_pos (by simp)] at front
  rw [filter_cons_of_neg (by simp)] at back
  obtain ⟨after, released, fresh, spares, rest⟩ := front.release
  have cut : Spares addr lo (c + 1) heap (heap.set (addr c) (some { cell with next := none })) :=
    Spares.set lower (Nat.lt_succ_self c) _
  refine ⟨after, released, fresh, cut.trans spares fun i low high _ => ⟨i, low, high, rfl⟩,
    ⟨back.segment.spared spares fun i j low high low' high' same => ?_, back.first⟩,
    fun first member small least => rest first
      (mem_filter.mpr ⟨member, decide_eq_true small⟩) fun j other =>
        least j (mem_of_mem_filter other)⟩
  have := chain.segment.apart j i low' (by omega) (by omega) high same
  omega

end Holders

/-! ## Chains that may be gone

Once nobody holds a chain any more there is nothing to say about it. -/

section Held

variable (addr : Nat → Nat) (payload : Nat → Payload)

def Held (heap : Heap Payload) (hi : Nat) (holders : List Nat) : Prop :=
  holders = [] ∨ ∃ lo, Chain addr payload heap lo hi holders

def link (hi i : Nat) : List Nat := if i < hi then [i] else []

variable {addr payload} {heap : Heap Payload} {hi i : Nat} {holders : List Nat}

theorem link_of_lt (inside : i < hi) : link hi i = [i] := if_pos inside

theorem link_end (hi : Nat) : link hi hi = [] := if_neg (Nat.lt_irrefl hi)

theorem Held.chain (held : Held addr payload heap hi holders) (member : i ∈ holders) :
    ∃ lo, Chain addr payload heap lo hi holders :=
  held.resolve_left (ne_nil_of_mem member)

theorem Held.inside (held : Held addr payload heap hi holders) (member : i ∈ holders) : i < hi := by
  obtain ⟨lo, chain⟩ := held.chain member
  exact (chain.segment.inside i member).2

theorem Held.perm {others : List Nat} (held : Held addr payload heap hi holders)
    (same : holders.Perm others) : Held addr payload heap hi others := by
  rcases held with none | ⟨lo, chain⟩
  · subst none
    exact .inl same.nil_eq.symm
  · exact .inr ⟨lo, chain.perm same⟩

theorem Held.cell (held : Held addr payload heap hi holders) {first : Nat}
    (member : first ∈ holders) (later : first ≤ i) (inside : i < hi) :
    ∃ count, heap.cells (addr i) = some (cellAt addr payload hi i count) := by
  obtain ⟨lo, chain⟩ := held.chain member
  exact ⟨_, chain.segment.cell i
    (Nat.le_trans (chain.segment.inside first member).1 later) inside⟩

theorem Held.retain (held : Held addr payload heap hi holders) {first : Nat}
    (member : first ∈ holders) (later : first ≤ i) (inside : i < hi) :
    ∃ after, heap.retain (addr i) = some after ∧ Held addr payload after hi (i :: holders) := by
  obtain ⟨lo, chain⟩ := held.chain member
  obtain ⟨after, retained, -, -, next⟩ :=
    chain.retain (Nat.le_trans (chain.segment.inside first member).1 later) inside
  exact ⟨after, retained, .inr ⟨lo, next⟩⟩

theorem Held.release (held : Held addr payload heap hi (i :: holders)) :
    ∃ after, heap.release (addr i) = some after ∧ Held addr payload after hi holders := by
  obtain ⟨lo, chain⟩ := held.chain mem_cons_self
  obtain ⟨after, released, -, -, rest⟩ := chain.release
  refine ⟨after, released, ?_⟩
  cases least : holders.min? with
  | none => exact .inl (min?_eq_none_iff.mp least)
  | some first =>
    have smallest := min?_eq_some_iff.mp least
    exact .inr ⟨first, rest first smallest.1 smallest.2⟩

theorem Held.extend (held : Held addr payload heap hi holders) (member : i ∈ holders)
    (content : Payload) :
    ∃ after, heap.extend (addr (hi - 1)) content = some after ∧
      Held (update addr hi heap.fresh) (update payload hi content) after (hi + 1)
        holders := by
  obtain ⟨lo, chain⟩ := held.chain member
  obtain ⟨after, extended, -, -, next⟩ := chain.extend content
  exact ⟨after, extended, .inr ⟨lo, next⟩⟩

theorem Held.store (held : Held addr payload heap hi holders) {first : Nat}
    (member : first ∈ holders) (later : first ≤ i) (inside : i < hi) (content : Payload)
    {cell : Cell Payload} (here : heap.cells (addr i) = some cell) :
    Held addr (update payload i content)
      (heap.set (addr i) (some { cell with payload := content })) hi holders := by
  obtain ⟨lo, chain⟩ := held.chain member
  exact .inr ⟨lo, chain.store (Nat.le_trans (chain.segment.inside first member).1 later) inside
    content here⟩

theorem Heap.set_id (heap : Heap Payload) {address : Nat} {cell : Cell Payload}
    (here : heap.cells address = some cell) : heap.set address (some cell) = heap := by
  have cells : (heap.set address (some cell)).cells = heap.cells := by
    funext other
    by_cases this : other = address
    · rw [this, Heap.set_same, here]
    · exact Heap.set_other _ _ this
  cases heap
  simp_all [Heap.set]

/-- A holder gives up its cell, cuts it off and goes on to the next one. Nobody
else may depend on the link. -/
theorem Held.cross (held : Held addr payload heap hi (i :: holders))
    (clear : i + 1 < hi → ∀ j ∈ holders, i < j) {cell : Cell Payload}
    (here : heap.cells (addr i) = some cell) :
    ∃ after, (heap.set (addr i) (some { cell with next := none })).release (addr i) =
        some after ∧ Held addr payload after hi (link hi (i + 1) ++ holders) := by
  obtain ⟨lo, chain⟩ := held.chain mem_cons_self
  by_cases more : i + 1 < hi
  · obtain ⟨after, released, -, -, next, -⟩ := chain.takeOver more here
    have later : holders.filter (i < ·) = holders :=
      filter_eq_self.mpr fun j member => decide_eq_true (clear more j member)
    rw [later] at next
    rw [link_of_lt more]
    exact ⟨after, released, .inr ⟨i + 1, next⟩⟩
  · obtain ⟨lower, upper⟩ := chain.segment.inside i mem_cons_self
    have known := Option.some.inj (here.symm.trans (chain.segment.cell i lower upper))
    have unlinked : ({ cell with next := none } : Cell Payload) = cell := by
      rw [known]
      simp [cellAt, more]
    rw [unlinked, Heap.set_id heap here, link, if_neg more]
    exact held.release

end Held

end Chuck.Support.SharedChain
