import Chuck.EventHandlerModel
import Mathlib.Data.List.Induction
import Mathlib.Data.List.Nodup

/-!
# Handler slots

A handler keeps its own index and a reference to its slot. Every operation leaves them right, so
`UnRegister` removes the handler it is called on and no other. `OnEvent` removes handlers from
the array it walks over, and takes the array to be at its end one handler too early.
-/

namespace Chuck.EventHandlers

open EventHandlerModel Function List

/-- Every handler of a slot knows its index and its slot, and no handler in queue mode comes
after one in exclusive mode. -/
structure Consistent (world : World) : Prop where
  linked : ∀ slot i h, (world.slots slot)[i]? = some h →
    h < world.made ∧ (world.objects h).idx = some (i + 1) ∧ (world.objects h).slot = some slot
  ordered : ∀ slot, (world.slots slot).Pairwise fun a b =>
    (world.objects a).mutexMode = true → (world.objects b).mutexMode = true

section Lists

variable {world : World}

theorem renumber_objects {handlers : List Nat} (distinct : handlers.Nodup) (k : Nat)
    (world : World) :
    (renumber handlers k world).slots = world.slots ∧
      (renumber handlers k world).made = world.made ∧
      (∀ x ∉ handlers, (renumber handlers k world).objects x = world.objects x) ∧
      ∀ j x, handlers[j]? = some x →
        (renumber handlers k world).objects x = { world.objects x with idx := some (k + j) } := by
  induction handlers generalizing k world with
  | nil => exact ⟨rfl, rfl, fun _ _ => rfl, fun j x found => by simp at found⟩
  | cons v rest ih =>
    obtain ⟨absent, distinct⟩ := nodup_cons.mp distinct
    obtain ⟨slots, made, others, own⟩ :=
      ih distinct (k + 1) (world.set v { world.objects v with idx := some k })
    have kept (x : Nat) (other : x ≠ v) :
        (world.set v { world.objects v with idx := some k }).objects x = world.objects x :=
      update_of_ne other ..
    refine ⟨slots, made, fun x apart => ?_, fun j x found => ?_⟩
    · obtain ⟨other, later⟩ := not_or.mp (fun either => apart (mem_cons.mpr either))
      exact (others x later).trans (kept x other)
    · rw [renumber]
      cases j with
      | zero =>
        obtain rfl : v = x := Option.some.inj found
        exact (others v absent).trans (update_self ..)
      | succ j =>
        rw [getElem?_cons_succ] at found
        have other : x ≠ v := fun same => absent (same ▸ mem_of_getElem? found)
        rw [own j x found, kept x other, Nat.add_right_comm, Nat.add_assoc]

end Lists

section Keeps

variable {world : World} (consistent : Consistent world)

include consistent

theorem Consistent.distinct (slot : Nat) : (world.slots slot).Nodup := by
  rw [nodup_iff_getElem?_ne_getElem?]
  intro i j less bound same
  rw [getElem?_eq_getElem bound] at same
  have first := (consistent.linked slot i _ same).2.1
  have second := (consistent.linked slot j _ (getElem?_eq_getElem bound)).2.1
  have equal := Option.some.inj (first.symm.trans second)
  omega

theorem Consistent.apart {slot other h : Nat} (member : h ∈ world.slots other)
    (different : other ≠ slot) : h ∉ world.slots slot := by
  intro also
  obtain ⟨i, found⟩ := mem_iff_getElem?.mp member
  obtain ⟨j, again⟩ := mem_iff_getElem?.mp also
  have first := (consistent.linked other i h found).2.2
  have second := (consistent.linked slot j h again).2.2
  exact different (Option.some.inj (first.symm.trans second))

/-- `UnRegister` of a handler that is in a slot takes this one out, and gives the others the
indices that they then have. -/
theorem unregister_live {slot h : Nat} {front back : List Nat}
    (place : world.slots slot = front ++ h :: back) :
    ∃ after, unRegister world h = (after, none) ∧ after.made = world.made ∧
      after.slots = update world.slots slot (front ++ back) ∧
      (∀ j x, (front ++ back)[j]? = some x →
        after.objects x = { world.objects x with idx := some (j + 1) }) ∧
      ∀ x ∉ world.slots slot, after.objects x = world.objects x := by
  have found : (world.slots slot)[front.length]? = some h := by simp [place]
  obtain ⟨-, idx, own⟩ := consistent.linked slot front.length h found
  have distinct := consistent.distinct slot
  rw [place] at distinct
  have apart : h ∉ front ++ back := (nodup_middle.mp distinct).notMem
  have rest : (front ++ back).Nodup := (nodup_middle.mp distinct).of_cons
  obtain ⟨slots, made, others, moved⟩ := renumber_objects rest 1
    { world with slots := update world.slots slot (front ++ back) }
  have here : entry (world.slots slot) (front.length + 1) = some h := found
  have erased : (world.slots slot).eraseIdx (front.length + 1 - 1) = front ++ back := by
    rw [place, Nat.add_sub_cancel, eraseIdx_append_of_length_le (Nat.le_refl _)]
    simp
  unfold unRegister
  dsimp only
  rw [own]
  rw [idx]
  dsimp only
  rw [if_neg (not_not.mpr here), erased]
  refine ⟨_, rfl, ?_⟩
  have outside {x : Nat} (absent : x ∉ world.slots slot) : x ≠ h ∧ x ∉ front ++ back := by
    rw [place] at absent
    refine ⟨fun same => absent (same ▸ by simp), fun among => absent ?_⟩
    exact ((sublist_cons_self h back).append_left front).subset among
  by_cases last : back = []
  · subst last
    rw [if_neg (by simp)]
    refine ⟨rfl, rfl, fun j x at_ => ?_, fun x absent => update_of_ne (outside absent).1 ..⟩
    have other : x ≠ h := fun same => apart (same ▸ mem_of_getElem? at_)
    refine (update_of_ne other ..).trans ?_
    have known := (consistent.linked slot j x (by
      rw [append_nil] at at_
      rw [place, List.getElem?_append_left (List.getElem?_eq_some_iff.mp at_).1, at_])).2.1
    rw [← known]
  · have inner : front.length + 1 ≠ (front ++ back).length + 1 := by
      simpa using last
    rw [if_pos inner]
    refine ⟨made, slots, fun j x at_ => ?_, fun x absent => ?_⟩
    · have other : x ≠ h := fun same => apart (same ▸ mem_of_getElem? at_)
      refine (update_of_ne other ..).trans ?_
      rw [moved j x at_, Nat.add_comm]
    · exact (update_of_ne (outside absent).1 ..).trans (others x (outside absent).2)

omit consistent in
theorem unregister_stale {h : Nat} (stale : ∀ slot, h ∉ world.slots slot) :
    ∃ text, unRegister world h = (world, some text) := by
  unfold unRegister
  dsimp only
  split
  · exact ⟨_, rfl⟩
  next slot _ =>
  split
  · exact ⟨_, rfl⟩
  next idx _ =>
  have absent : entry (world.slots slot) idx ≠ some h := by
    intro found
    unfold entry at found
    split_ifs at found
    exact stale slot (mem_of_getElem? found)
  rw [if_pos absent]
  exact ⟨_, rfl⟩

/-- An operation that changes the handlers of one slot keeps the others as they are. -/
theorem Consistent.updated {after : World} {slot : Nat} {handlers : List Nat}
    (made : world.made ≤ after.made) (slots : after.slots = update world.slots slot handlers)
    (others : ∀ other ≠ slot, ∀ x ∈ world.slots other, after.objects x = world.objects x)
    (linked : ∀ i h, handlers[i]? = some h → h < after.made ∧
      (after.objects h).idx = some (i + 1) ∧ (after.objects h).slot = some slot)
    (ordered : handlers.Pairwise fun a b =>
      (after.objects a).mutexMode = true → (after.objects b).mutexMode = true) :
    Consistent after := by
  constructor
  · intro other i h found
    rw [slots] at found
    by_cases same : other = slot
    · subst same
      rw [update_self] at found
      exact linked i h found
    · rw [update_of_ne same] at found
      rw [others other same h (mem_of_getElem? found)]
      obtain ⟨named, known⟩ := consistent.linked other i h found
      exact ⟨Nat.lt_of_lt_of_le named made, known⟩
  · intro other
    rw [slots]
    by_cases same : other = slot
    · subst same
      rw [update_self]
      exact ordered
    · rw [update_of_ne same]
      refine (consistent.ordered other).imp_of_mem fun left right => ?_
      rw [others other same _ left, others other same _ right]
      exact id

theorem unregister_consistent (h : Nat) : Consistent (unRegister world h).1 := by
  by_cases live : ∃ slot, h ∈ world.slots slot
  · obtain ⟨slot, member⟩ := live
    obtain ⟨front, back, place⟩ := append_of_mem member
    obtain ⟨after, result, made, slots, own, others⟩ := unregister_live consistent place
    have shorter : (front ++ back).Sublist (world.slots slot) := by
      rw [place]
      exact (sublist_cons_self h back).append_left front
    rw [result]
    refine consistent.updated (Nat.le_of_eq made.symm) slots (fun other apart x among => ?_)
      (fun j x found => ?_) ?_
    · exact others x (consistent.apart among apart)
    · obtain ⟨i, before⟩ := mem_iff_getElem?.mp (shorter.subset (mem_of_getElem? found))
      obtain ⟨named, -, linked⟩ := consistent.linked slot i x before
      rw [own j x found, made]
      exact ⟨named, rfl, linked⟩
    · refine ((consistent.ordered slot).sublist shorter).imp_of_mem fun left right => ?_
      obtain ⟨i, first⟩ := mem_iff_getElem?.mp left
      obtain ⟨j, second⟩ := mem_iff_getElem?.mp right
      rw [own i _ first, own j _ second]
      exact id
  · obtain ⟨text, result⟩ := unregister_stale (not_exists.mp live)
    rw [result]
    exact consistent

theorem insert_consistent (slot : Nat) (mutexMode : Bool)
    (allowed : ∀ h ∈ world.slots slot, (world.objects h).mutexMode = true → mutexMode = true) :
    Consistent (insertNew world slot ((world.slots slot).length + 1) mutexMode).1 := by
  set after := (insertNew world slot ((world.slots slot).length + 1) mutexMode).1
  have old (other x : Nat) (among : x ∈ world.slots other) : after.objects x = world.objects x := by
    obtain ⟨i, found⟩ := mem_iff_getElem?.mp among
    exact update_of_ne (Nat.ne_of_lt (consistent.linked other i x found).1) ..
  have new : after.objects world.made = ⟨mutexMode, some slot, some _⟩ := update_self ..
  refine consistent.updated (Nat.le_succ _) rfl (fun other _ => old other) (fun i h found => ?_) ?_
  · by_cases inside : i < (world.slots slot).length
    · rw [List.getElem?_append_left inside] at found
      obtain ⟨named, linked⟩ := consistent.linked slot i h found
      rw [old slot h (mem_of_getElem? found)]
      exact ⟨Nat.lt_succ_of_lt named, linked⟩
    · obtain rfl : i = (world.slots slot).length := by
        have bound := (List.getElem?_eq_some_iff.mp found).1
        rw [length_append, length_singleton] at bound
        omega
      obtain rfl : world.made = h := by simpa using found
      rw [new]
      exact ⟨Nat.lt_succ_self _, rfl, rfl⟩
  · refine pairwise_append.mpr ⟨?_, pairwise_singleton .., fun a left b right => ?_⟩
    · refine (consistent.ordered slot).imp_of_mem fun left right => ?_
      rw [old slot _ left, old slot _ right]
      exact id
    · obtain rfl := mem_singleton.mp right
      rw [old slot a left, new]
      exact allowed a left

theorem clear_consistent (slot : Nat) : Consistent (clear world slot) := by
  have cleared (handlers : List Nat) (world : World) (after : World)
      (loop : handlers.foldl (fun world v => world.set v { world.objects v with slot := none })
        world =
        after) :
      after.slots = world.slots ∧ after.made = world.made ∧
        ∀ x ∉ handlers, after.objects x = world.objects x := by
    induction handlers generalizing world with
    | nil => exact loop ▸ ⟨rfl, rfl, fun _ _ => rfl⟩
    | cons v rest ih =>
      obtain ⟨slots, made, others⟩ := ih _ loop
      refine ⟨slots, made, fun x absent => ?_⟩
      obtain ⟨other, later⟩ := not_or.mp (fun either => absent (mem_cons.mpr either))
      exact (others x later).trans (update_of_ne other ..)
  obtain ⟨slots, made, others⟩ := cleared (world.slots slot) world _ rfl
  have emptied : (clear world slot).slots = update world.slots slot [] := by
    rw [clear, slots]
  refine consistent.updated (Nat.le_of_eq made.symm) emptied
    (fun other apart x among => others x (consistent.apart among apart)) ?_ List.Pairwise.nil
  intro i h found
  simp at found

theorem step_consistent (op : Op) : Consistent (step world op) := by
  cases op with
  | unRegister h => exact unregister_consistent consistent h
  | clear slot => exact clear_consistent consistent slot
  | replaceHandler slot mutexMode =>
    have empty : (clear world slot).slots slot = [] := update_self ..
    have inserted := insert_consistent (clear_consistent consistent slot) slot mutexMode
      (by rw [empty]; exact fun _ member => absurd member not_mem_nil)
    rw [empty] at inserted
    exact inserted
  | registerHandler slot mutexMode =>
    unfold step registerHandler
    dsimp only
    split_ifs with refused
    · exact consistent
    refine insert_consistent consistent slot mutexMode fun h member exclusive => ?_
    by_contra queued
    refine refused ⟨?_, queued⟩
    have split := dropLast_append_getLast (ne_nil_of_mem member)
    have ordered := consistent.ordered slot
    rw [← split] at member ordered ⊢
    rw [getLast?_concat, Option.any_some]
    rcases mem_append.mp member with earlier | last
    · exact (pairwise_append.mp ordered).2.2 h earlier _ (mem_singleton_self _) exclusive
    · exact mem_singleton.mp last ▸ exclusive

end Keeps

theorem run_consistent (ops : List Op) : Consistent (run ops) := by
  induction ops using List.reverseRecOn with
  | nil =>
    exact ⟨fun slot i h found => by simp [run, World.new] at found, fun _ => List.Pairwise.nil⟩
  | append_singleton earlier op ih =>
    rw [run, foldl_append]
    exact step_consistent ih op

/-- Every sequence of operations, in any number of slots: the slots are consistent; `UnRegister`
takes a handler that is in a slot out of it, and only this one; for any other handler it changes
nothing and returns a text. -/
theorem slots_consistent (ops : List Op) :
    Consistent (run ops) ∧
      (∀ slot front h back, (run ops).slots slot = front ++ h :: back →
        (unRegister (run ops) h).2 = none ∧ (unRegister (run ops) h).1.slots =
          update (run ops).slots slot (front ++ back)) ∧
      ∀ h, (∀ slot, h ∉ (run ops).slots slot) →
        ∃ text, unRegister (run ops) h = (run ops, some text) := by
  have consistent := run_consistent ops
  refine ⟨consistent, fun slot front h back place => ?_, fun h => unregister_stale⟩
  obtain ⟨after, result, -, slots, -⟩ := unregister_live consistent place
  rw [result]
  exact ⟨rfl, slots⟩

/-! ## Events -/

/-- The handler before the last one does not ask to be unregistered. -/
def LastReached (unregisters : Nat → Bool) (handlers : List Nat) : Prop :=
  ∀ h ∈ handlers.dropLast.getLast?, unregisters h = false

/-- All handlers are called in their order, and those that did not ask to be unregistered stay. -/
def EmitsAll (unregisters : Nat → Bool) (slot : Nat) (world : World) : Prop :=
  ∃ after, onEvent unregisters slot world = some (after, world.slots slot) ∧
    after.slots slot = (world.slots slot).filter (fun h => !unregisters h) ∧
    ∀ i h, (after.slots slot)[i]? = some h → (after.objects h).idx = some (i + 1)

theorem last_reached_cons {unregisters : Nat → Bool} {h : Nat} {back : List Nat}
    (apart : unregisters h = false ∨ 2 ≤ back.length) :
    LastReached unregisters (h :: back) ↔ LastReached unregisters back := by
  match back with
  | [] => simp [LastReached]
  | [x] => simpa [LastReached] using apart
  | first :: second :: rest => simp [LastReached, getLast?_cons_cons]

/-- The loop has kept the handlers in `front` and comes to those in `back`. -/
theorem loop_calls (unregisters : Nat → Bool) (slot : Nat) (back : List Nat) {front : List Nat}
    {world : World} {fuel : Nat} (consistent : Consistent world)
    (place : world.slots slot = front ++ back) (enough : back.length < fuel) :
    ∃ after calls, onEventLoop unregisters slot fuel (front.length + 1) world =
      some (after, calls) ∧
      (LastReached unregisters back → calls = back ∧ Consistent after ∧
        after.slots slot = front ++ back.filter (fun h => !unregisters h)) ∧
      (¬LastReached unregisters back → calls.length < back.length) := by
  induction back generalizing front world fuel with
  | nil =>
    obtain ⟨fuel, rfl⟩ := Nat.exists_eq_succ_of_ne_zero (Nat.ne_of_gt enough)
    have ended : entry (world.slots slot) (front.length + 1) = none := by simp [entry, place]
    rw [onEventLoop, ended]
    exact ⟨_, _, rfl, fun _ => ⟨rfl, consistent, place⟩,
      fun missed => absurd (by simp [LastReached]) missed⟩
  | cons h back ih =>
    obtain ⟨fuel, rfl⟩ := Nat.exists_eq_succ_of_ne_zero (Nat.ne_of_gt (Nat.zero_lt_of_lt enough))
    have enough := Nat.lt_of_succ_lt_succ enough
    have here : entry (world.slots slot) (front.length + 1) = some h := by simp [entry, place]
    rw [onEventLoop, here]
    dsimp only
    by_cases asks : unregisters h = true
    · obtain ⟨next, result, -, slots, -⟩ := unregister_live consistent place
      have kept := unregister_consistent consistent h
      rw [result] at kept
      have left : next.slots slot = front ++ back := by rw [slots, update_self]
      rw [if_pos asks, result, left]
      by_cases far : 2 ≤ back.length
      · obtain ⟨after, calls, ran, all, missed⟩ := ih kept left enough
        rw [if_neg (by rw [length_append]; omega), ran, last_reached_cons (.inr far)]
        refine ⟨after, h :: calls, rfl, fun reached => ?_, fun early => ?_⟩
        · obtain ⟨rfl, last, rest⟩ := all reached
          exact ⟨rfl, last, by rw [rest, filter_cons_of_neg (by simpa using asks)]⟩
        · exact Nat.succ_lt_succ (missed early)
      · rw [if_pos (by rw [length_append]; omega)]
        refine ⟨next, [h], rfl, fun reached => ?_, fun early => ?_⟩
        · match back with
          | [] => exact ⟨rfl, kept, by rw [left, filter_cons_of_neg (by simpa using asks)]; rfl⟩
          | [x] => simp [LastReached, asks] at reached
          | _ :: _ :: _ => exact absurd (by simp) far
        · match back with
          | [] => exact absurd (by simp [LastReached]) early
          | _ :: _ => simp
    · have keeps : unregisters h = false := by simpa using asks
      obtain ⟨after, calls, ran, all, missed⟩ := @ih (front ++ [h]) world fuel consistent
        (by simp [place]) enough
      rw [length_append, length_singleton] at ran
      rw [if_neg asks, ran, last_reached_cons (.inl keeps)]
      refine ⟨after, h :: calls, rfl, fun reached => ?_, fun early => ?_⟩
      · obtain ⟨rfl, last, rest⟩ := all reached
        exact ⟨rfl, last, by rw [rest, filter_cons_of_pos (by simpa using keeps)]; simp⟩
      · exact Nat.succ_lt_succ (missed early)

/-- A slot whose handlers are all in queue mode: an event reaches all of them if and only if the
last but one does not ask to be unregistered. -/
theorem emits_all_iff (unregisters : Nat → Bool) (slot : Nat) (world : World)
    (consistent : Consistent world)
    (queued : ∀ h ∈ world.slots slot, (world.objects h).mutexMode = false) :
    EmitsAll unregisters slot world ↔ LastReached unregisters (world.slots slot) := by
  cases last : (world.slots slot).getLast? with
  | none =>
    have empty := getLast?_eq_none_iff.mp last
    refine iff_of_true ⟨world, ?_, by simp [empty], fun i h found => ?_⟩
      (by simp [LastReached, empty])
    · rw [onEvent, last, empty]
    · exact (consistent.linked slot i h found).2.1
  | some top =>
    obtain ⟨after, calls, ran, all, missed⟩ := loop_calls unregisters slot (world.slots slot)
      consistent (nil_append _).symm (Nat.lt_succ_self _)
    have shape : onEvent unregisters slot world = some (after, calls) := by
      rw [onEvent, last]
      dsimp only
      rw [if_neg (by simpa using queued top (mem_of_getLast? last))]
      exact ran
    constructor
    · rintro ⟨result, emitted, -⟩
      by_contra early
      have same := congrArg Prod.snd (Option.some.inj (shape.symm.trans emitted))
      exact absurd (congrArg List.length same) (Nat.ne_of_lt (missed early))
    · intro reached
      obtain ⟨rfl, kept, slots⟩ := all reached
      exact ⟨after, shape, slots, fun i h found => (kept.linked slot i h found).2.1⟩

theorem emits_all_three : EmitsAll (· == 0) 0 (run [.registerHandler 0 false,
    .registerHandler 0 false, .registerHandler 0 false]) :=
  (emits_all_iff _ 0 _ (run_consistent _) (by decide)).mpr (by simp [LastReached]; decide)

/-- The first of two handlers asks to be unregistered, and the second is not called. -/
theorem emits_first_only :
    (onEvent (· == 0) 0 (run [.registerHandler 0 false, .registerHandler 0 false])).map (·.2) =
        some [0] ∧
      ¬EmitsAll (· == 0) 0 (run [.registerHandler 0 false, .registerHandler 0 false]) := by
  have calls : (onEvent (· == 0) 0 (run [.registerHandler 0 false,
      .registerHandler 0 false])).map (·.2) = some [0] := by
    decide
  refine ⟨calls, ?_⟩
  rintro ⟨after, emitted, -⟩
  rw [emitted] at calls
  have two : (run [.registerHandler 0 false, .registerHandler 0 false]).slots 0 = [0, 1] := by
    decide
  exact absurd (two.symm.trans (Option.some.inj calls)) (by decide)

end Chuck.EventHandlers
