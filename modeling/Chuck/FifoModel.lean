import Chuck.Support.LinkedItems

/-!
# Source-shaped `fifo.lua`

Every fifo of the program takes its link items from one pool and gives them back to
it, so the items of all fifos are one store. `slot` is which fifo. A fifo is a list of
values whatever the others do.
-/

namespace Chuck.FifoModel

open Support.LinkedItems Function List

variable {Slot V : Type}

structure Fifos (Slot V : Type) where
  /-- `linkItemPool.head.next`. -/
  pool : Option Nat
  head : Slot → Option Nat
  tail : Slot → Option Nat
  next : Nat → Option Nat
  v : Nat → Option V
  /-- Number of item tables made. -/
  made : Nat

def Fifos.empty : Fifos Slot V where
  pool := none
  head := fun _ => none
  tail := fun _ => none
  next := fun _ => none
  v := fun _ => none
  made := 0

def poolGet (f : Fifos Slot V) : Nat × Fifos Slot V :=
  match f.pool with
  | some item =>
    (item, { f with pool := f.next item, next := update f.next item none })
  | none =>
    (f.made, { f with
      next := update f.next f.made none
      v := update f.v f.made none
      made := f.made + 1 })

def poolPut (f : Fifos Slot V) (item : Nat) : Fifos Slot V :=
  { f with next := update f.next item f.pool, pool := some item }

variable [DecidableEq Slot]

def linkLast (f : Fifos Slot V) (slot : Slot) (item : Nat) : Fifos Slot V :=
  match f.tail slot with
  | none =>
    { f with
      head := update f.head slot (some item)
      tail := update f.tail slot (some item) }
  | some tail =>
    { f with
      next := update f.next tail (some item)
      tail := update f.tail slot (some item) }

/-- `fifo:push` of a value that is not nil or false. -/
def fifoPush (f : Fifos Slot V) (slot : Slot) (v : V) : Fifos Slot V :=
  let (item, f) := poolGet f
  linkLast { f with v := update f.v item (some v) } slot item

def unlinkFirst (f : Fifos Slot V) (slot : Slot) (item : Nat) : Fifos Slot V :=
  { f with
    head := update f.head slot (f.next item)
    tail := if f.next item = none then update f.tail slot none else f.tail }

def fifoPop (f : Fifos Slot V) (slot : Slot) : Option V × Fifos Slot V :=
  match f.head slot with
  | some item => (f.v item, poolPut (unlinkFirst f slot item) item)
  | none => (none, f)

def fifoEmpty (f : Fifos Slot V) (slot : Slot) : Bool := f.head slot = none

/-! ## The items of the fifos -/

/-- The items of every fifo, and under `none` those of the pool. -/
structure Layout (f : Fifos Slot V) (items : Option Slot → List Nat) : Prop where
  pool : Linked f.next f.pool (items none)
  linked : ∀ slot, Linked f.next (f.head slot) (items (some slot))
  tail : ∀ slot, f.tail slot = (items (some slot)).getLast?
  nodup : ∀ place, (items place).Nodup
  apart : ∀ place other item, item ∈ items place → item ∈ items other → place = other
  known : ∀ place, ∀ item ∈ items place, item < f.made

def Holds (f : Fifos Slot V) (lists : Slot → List V) : Prop :=
  ∃ items, Layout f items ∧ ∀ slot, (items (some slot)).map f.v = (lists slot).map some

section Refinement

variable {f : Fifos Slot V} {items : Option Slot → List Nat} {lists : Slot → List V} {slot : Slot}

omit [DecidableEq Slot] in
theorem empty_holds : Holds (Fifos.empty : Fifos Slot V) fun _ => [] :=
  ⟨fun _ => [], ⟨rfl, fun _ => rfl, fun _ => rfl, fun _ => nodup_nil,
    nofun, nofun⟩,
    fun _ => rfl⟩

structure Spare (f : Fifos Slot V) (items : Option Slot → List Nat) (item : Nat) : Prop where
  absent : ∀ place, item ∉ items place
  last : f.next item = none
  known : item < f.made

theorem pool_get (layout : Layout f items) :
    ∃ item after rest, poolGet f = (item, after) ∧
      Layout after (update items none rest) ∧
      Spare after (update items none rest) item ∧
      ∀ slot, ∀ other ∈ items (some slot), after.v other = f.v other := by
  cases listed : items none with
  | nil =>
    have fresh : ∀ place, f.made ∉ items place := fun place member =>
      Nat.lt_irrefl _ (layout.known place _ member)
    have same : update items none [] = items := by
      rw [← listed, update_eq_self]
    have taken : f.pool = none := layout.pool.nil_iff.mpr listed
    refine ⟨f.made, _, [], by rw [poolGet, taken], ?_, ?_, ?_⟩
    · rw [same]
      refine ⟨?_, ?_, layout.tail, layout.nodup, layout.apart, ?_⟩
      · exact taken ▸ layout.pool.update_other (fresh none) none
      · exact fun slot => (layout.linked slot).update_other (fresh (some slot)) none
      · exact fun place item member => Nat.lt_succ_of_lt (layout.known place item member)
    · rw [same]
      exact ⟨fresh, update_self _ _ _, Nat.lt_succ_self _⟩
    · intro slot other member
      apply update_of_ne
      rintro rfl
      exact fresh (some slot) member
  | cons item rest =>
    have pool := layout.pool
    have single := layout.nodup none
    rw [listed] at pool single
    rw [nodup_cons] at single
    have here : item ∈ items none := listed ▸ mem_cons_self
    have elsewhere : ∀ slot, item ∉ items (some slot) := fun slot member =>
      Option.some_ne_none slot (layout.apart _ _ item member here)
    have part : ∀ place, update items none rest place ⊆ items place := by
      intro place
      cases place with
      | none =>
        rw [update_self, listed]
        exact subset_cons_self item rest
      | some slot => exact List.Subset.refl _
    refine ⟨item, _, rest, by rw [poolGet, pool.1], ⟨?_, ?_, ?_, ?_, ?_, ?_⟩, ?_, ?_⟩
    · exact pool.2.update_other single.1 none
    · exact fun slot => (layout.linked slot).update_other (elsewhere slot) none
    · exact layout.tail
    · intro place
      cases place with
      | none => exact single.2
      | some slot => exact layout.nodup (some slot)
    · exact fun place other item left right =>
        layout.apart place other item (part place left) (part other right)
    · exact fun place item member => layout.known place item (part place member)
    · refine ⟨?_, update_self _ _ _, layout.known none item here⟩
      intro place
      cases place with
      | none => exact single.1
      | some slot => exact elsewhere slot
    · exact fun _ _ _ => rfl

structure Parted (items : Option Slot → List Nat) (made : Nat) : Prop where
  nodup : ∀ place, (items place).Nodup
  apart : ∀ place other item, item ∈ items place → item ∈ items other → place = other
  known : ∀ place, ∀ item ∈ items place, item < made

omit [DecidableEq Slot] in
theorem Layout.parted (layout : Layout f items) : Parted items f.made :=
  ⟨layout.nodup, layout.apart, layout.known⟩

theorem Parted.extend {made : Nat} (parted : Parted items made) {place : Option Slot} {item : Nat}
    (absent : ∀ other, item ∉ items other) (known : item < made) {grown : List Nat}
    (same : grown.Perm (item :: items place)) : Parted (update items place grown) made := by
  have entry : ∀ other i, i ∈ update items place grown other →
      i ∈ items other ∨ i = item ∧ other = place := by
    intro other i member
    by_cases here : other = place
    · subst here
      rw [update_self, same.mem_iff, mem_cons] at member
      rcases member with new | old
      · exact .inr ⟨new, rfl⟩
      · exact .inl old
    · rw [update_of_ne here] at member
      exact .inl member
  constructor
  · intro other
    by_cases here : other = place
    · subst here
      rw [update_self, same.nodup_iff, nodup_cons]
      exact ⟨absent other, parted.nodup other⟩
    · rw [update_of_ne here]
      exact parted.nodup other
  · intro first second i left right
    rcases entry first i left with old | ⟨rfl, here⟩
    · rcases entry second i right with also | ⟨rfl, -⟩
      · exact parted.apart first second i old also
      · exact absurd old (absent first)
    · rcases entry second i right with also | ⟨-, there⟩
      · exact absurd also (absent second)
      · exact here.trans there.symm
  · intro other i member
    rcases entry other i member with old | ⟨rfl, -⟩
    · exact parted.known other i old
    · exact known

theorem Parted.shrink {made : Nat} (parted : Parted items made) {place : Option Slot} {item : Nat}
    {rest : List Nat} (listed : items place = item :: rest) :
    Parted (update items place rest) made ∧ ∀ other, item ∉ update items place rest other := by
  have single := parted.nodup place
  rw [listed, nodup_cons] at single
  have here : item ∈ items place := listed ▸ mem_cons_self
  have part : ∀ other, update items place rest other ⊆ items other := by
    intro other
    by_cases same : other = place
    · subst same
      rw [update_self, listed]
      exact subset_cons_self item rest
    · rw [update_of_ne same]
      exact List.Subset.refl _
  refine ⟨⟨?_, ?_, ?_⟩, ?_⟩
  · intro other
    by_cases same : other = place
    · subst same
      rw [update_self]
      exact single.2
    · rw [update_of_ne same]
      exact parted.nodup other
  · exact fun first second i left right =>
      parted.apart first second i (part first left) (part second right)
  · exact fun other i member => parted.known other i (part other member)
  · intro other member
    have same := parted.apart other place item (part other member) here
    subst same
    rw [update_self] at member
    exact single.1 member

theorem link_last (slot : Slot) (layout : Layout f items) {item : Nat}
    (spare : Spare f items item) :
    Layout (linkLast f slot item) (update items (some slot) (items (some slot) ++ [item])) := by
  have parted := layout.parted.extend spare.absent spare.known
    (perm_append_singleton item (items (some slot)))
  have pooled : update items (some slot) (items (some slot) ++ [item]) none = items none :=
    update_of_ne (Option.some_ne_none slot).symm _ _
  have others : ∀ {other}, other ≠ slot →
      update items (some slot) (items (some slot) ++ [item]) (some other) =
        items (some other) := fun ne =>
    update_of_ne (fun same => ne (Option.some.inj same)) _ _
  have tails : ∀ other, update f.tail slot (some item) other =
      (update items (some slot) (items (some slot) ++ [item]) (some other)).getLast? := by
    intro other
    by_cases here : other = slot
    · subst here
      rw [update_self, update_self, getLast?_concat]
    · rw [update_of_ne here, others here]
      exact layout.tail other
  rcases eq_nil_or_concat (items (some slot)) with none | ⟨front, t, listed⟩
  · have single : f.tail slot = Option.none := by
      rw [layout.tail, none]
      rfl
    rw [linkLast, single]
    refine ⟨pooled ▸ layout.pool, ?_, tails, parted.nodup, parted.apart, parted.known⟩
    intro other
    by_cases here : other = slot
    · subst here
      rw [update_self, none]
      exact ⟨update_self _ _ _, spare.last⟩
    · simp only [others here, update_of_ne here]
      exact layout.linked other
  · rw [concat_eq_append] at listed
    have last : f.tail slot = some t := by
      rw [layout.tail, listed, getLast?_concat]
    have here : t ∈ items (some slot) := by
      rw [listed]
      exact mem_append_right front mem_cons_self
    rw [linkLast, last]
    refine ⟨?_, ?_, tails, parted.nodup, parted.apart, parted.known⟩
    · rw [pooled]
      apply layout.pool.update_other
      exact fun member => Option.some_ne_none slot (layout.apart _ _ t here member)
    · intro other
      by_cases same : other = slot
      · subst same
        have linked := layout.linked other
        have distinct := layout.nodup (some other)
        have fresh := spare.absent (some other)
        rw [listed] at linked distinct fresh
        rw [update_self, listed]
        exact linked.push distinct spare.last fresh
      · rw [others same]
        apply (layout.linked other).update_other
        exact fun member => same (Option.some.inj (layout.apart _ _ t member here))

theorem unlink_first (layout : Layout f items) {item : Nat} {rest : List Nat}
    (listed : items (some slot) = item :: rest) :
    Layout (poolPut (unlinkFirst f slot item) item)
      (update (update items (some slot) rest) none (item :: items none)) := by
  obtain ⟨shrunk, absent⟩ := layout.parted.shrink listed
  have known : item < f.made := layout.known (some slot) item (listed ▸ mem_cons_self)
  have pooled : update items (some slot) rest none = items none :=
    update_of_ne (Option.some_ne_none slot).symm _ _
  have parted := shrunk.extend absent known (List.Perm.refl (item :: update items _ rest none))
  rw [pooled] at parted
  have linked := layout.linked slot
  have tail := layout.tail slot
  rw [listed] at linked tail
  have kept : ∀ other, update (update items (some slot) rest) none
      (item :: items none) (some other) = update items (some slot) rest (some other) :=
    fun other => update_of_ne (Option.some_ne_none other) _ _
  refine ⟨?_, ?_, ?_, parted.nodup, parted.apart, parted.known⟩
  · rw [update_self]
    refine ⟨rfl, ?_⟩
    simp only [poolPut, unlinkFirst, update_self]
    exact layout.pool.update_other (pooled ▸ absent none) _
  · intro other
    rw [kept]
    have free := absent (some other)
    by_cases here : other = slot
    · subst here
      rw [update_self] at free ⊢
      simp only [poolPut, unlinkFirst, update_self]
      exact linked.2.update_other free _
    · have same : update items (some slot) rest (some other) = items (some other) :=
        update_of_ne (fun same => here (Option.some.inj same)) _ _
      rw [same] at free ⊢
      simp only [poolPut, unlinkFirst, update_of_ne here]
      exact (layout.linked other).update_other free _
  · intro other
    simp only [kept, poolPut, unlinkFirst, linked.2.head_eq]
    by_cases here : other = slot
    · subst here
      rw [update_self]
      cases rest with
      | nil => simp
      | cons second rest => simpa using tail
    · have same : update items (some slot) rest (some other) = items (some other) :=
        update_of_ne (fun same => here (Option.some.inj same)) _ _
      rw [same, ← layout.tail other]
      split_ifs
      · exact update_of_ne here _ _
      · rfl

/-! ## The fifos as lists -/

omit [DecidableEq Slot] in
theorem fifo_empty (holds : Holds f lists) : fifoEmpty f slot = true ↔ lists slot = [] := by
  obtain ⟨items, layout, values⟩ := holds
  rw [fifoEmpty, decide_eq_true_eq, (layout.linked slot).nil_iff, ← map_eq_nil_iff, values,
    map_eq_nil_iff]

omit [DecidableEq Slot] in
theorem fifo_length (holds : Holds f lists) : (lists slot).length ≤ f.made := by
  obtain ⟨items, layout, values⟩ := holds
  have same := congrArg List.length (values slot)
  rw [length_map, length_map] at same
  rw [← same]
  exact length_le_of_below (layout.nodup (some slot)) (layout.known (some slot))

theorem link_last_v (f : Fifos Slot V) (slot : Slot) (item : Nat) :
    (linkLast f slot item).v = f.v := by
  rw [linkLast]
  split <;> rfl

theorem fifo_push (holds : Holds f lists) (v : V) :
    Holds (fifoPush f slot v) (update lists slot (lists slot ++ [v])) := by
  obtain ⟨items, layout, values⟩ := holds
  obtain ⟨item, after, rest, got, taken, spare, same⟩ := pool_get layout
  let filled := { after with v := update after.v item (some v) }
  have pushed : fifoPush f slot v = linkLast filled slot item := by
    rw [fifoPush, got]
  have ready : Layout filled (update items none rest) :=
    { taken with }
  have linked := link_last slot ready ⟨spare.absent, spare.last, spare.known⟩
  have old : ∀ other, (items (some other)).map filled.v = (lists other).map some := by
    intro other
    rw [← values other]
    apply map_congr_left
    intro i member
    rw [← same other i member]
    apply update_of_ne
    rintro rfl
    exact spare.absent (some other) member
  refine ⟨_, pushed ▸ linked, ?_⟩
  intro other
  rw [pushed, link_last_v]
  by_cases here : other = slot
  · subst here
    have new : filled.v item = some v := update_self _ _ _
    rw [update_self, update_self, map_append, map_append,
      map_singleton, map_singleton, new, ← old other]
    rfl
  · rw [update_of_ne here, update_of_ne fun same => here (Option.some.inj same)]
    exact old other

theorem fifo_pop_nil (holds : Holds f lists) (none : lists slot = []) :
    fifoPop f slot = (Option.none, f) := by
  have empty := (fifo_empty holds).mpr none
  rw [fifoEmpty, decide_eq_true_eq] at empty
  rw [fifoPop, empty]

theorem fifo_pop_cons (holds : Holds f lists) {v : V} {rest : List V}
    (first : lists slot = v :: rest) :
    ∃ after, fifoPop f slot = (some v, after) ∧ Holds after (update lists slot rest) := by
  obtain ⟨items, layout, values⟩ := holds
  have value := values slot
  rw [first, map_cons] at value
  obtain ⟨item, left, listed, head, tail⟩ := map_eq_cons_iff.mp value
  refine ⟨poolPut (unlinkFirst f slot item) item, ?_, _, unlink_first layout listed, ?_⟩
  · have linked := layout.linked slot
    rw [listed] at linked
    rw [fifoPop, linked.1, ← head]
  · intro other
    rw [update_of_ne (Option.some_ne_none other)]
    by_cases here : other = slot
    · subst here
      rw [update_self, update_self]
      exact tail
    · rw [update_of_ne here, update_of_ne fun same => here (Option.some.inj same)]
      exact values other

end Refinement

end Chuck.FifoModel
