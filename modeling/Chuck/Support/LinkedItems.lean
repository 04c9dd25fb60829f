import Mathlib.Logic.Function.Basic
import Mathlib.Data.List.Nodup
import Mathlib.Data.List.Perm.Subperm

/-!
# Items linked by a `next` field

A list kept by hand: every item has a `next` field, and somebody keeps the first
item. `Linked next head xs` says that following `next` from `head` visits `xs` and
ends. Each lemma is one assignment of such a list, stated as the change of `xs`.
-/

namespace Chuck.Support.LinkedItems

open Function List

variable {Item : Type}

def Linked (next : Item → Option Item) : Option Item → List Item → Prop
  | head, [] => head = none
  | head, x :: xs => head = some x ∧ Linked next (next x) xs

section Reading

variable {next next' : Item → Option Item} {head : Option Item} {xs ys : List Item} {x : Item}

theorem Linked.head_eq (linked : Linked next head xs) : head = xs.head? := by
  cases xs with
  | nil => exact linked
  | cons x xs => exact linked.1

theorem Linked.nil_iff (linked : Linked next head xs) : head = none ↔ xs = [] := by
  rw [linked.head_eq, head?_eq_none_iff]

theorem Linked.suffix (linked : Linked next head (xs ++ ys)) : ∃ middle, Linked next middle ys := by
  induction xs generalizing head with
  | nil => exact ⟨head, linked⟩
  | cons x xs ih => exact ih linked.2

theorem Linked.next_eq (linked : Linked next head (xs ++ x :: ys)) : next x = ys.head? := by
  obtain ⟨_, tail⟩ := linked.suffix
  exact tail.2.head_eq

theorem Linked.congr (linked : Linked next head xs) (same : ∀ x ∈ xs, next' x = next x) :
    Linked next' head xs := by
  induction xs generalizing head with
  | nil => exact linked
  | cons x xs ih =>
    refine ⟨linked.1, ?_⟩
    rw [same x mem_cons_self]
    exact ih linked.2 fun y member => same y (mem_cons_of_mem x member)

theorem length_le_of_below {xs : List Nat} {n : Nat} (distinct : xs.Nodup)
    (below : ∀ x ∈ xs, x < n) : xs.length ≤ n := by
  have inside : xs ⊆ List.range n := fun x member => mem_range.mpr (below x member)
  have bound := (subperm_of_subset distinct inside).length_le
  rwa [length_range] at bound

end Reading

section Writing

variable [DecidableEq Item] {next : Item → Option Item} {head : Option Item}
  {xs ys zs : List Item} {x t : Item}

theorem Linked.update_other (linked : Linked next head xs) (absent : x ∉ xs)
    (value : Option Item) : Linked (update next x value) head xs := by
  apply linked.congr
  intro y member
  apply update_of_ne
  rintro rfl
  exact absent member

theorem Linked.set_next (linked : Linked next head (xs ++ t :: zs)) (before : t ∉ xs)
    {value : Option Item} (behind : Linked next value ys) (after : t ∉ ys) :
    Linked (update next t value) head (xs ++ t :: ys) := by
  induction xs generalizing head with
  | nil =>
    refine ⟨linked.1, ?_⟩
    rw [update_self]
    exact behind.update_other after value
  | cons x xs ih =>
    rw [mem_cons, not_or] at before
    refine ⟨linked.1, ?_⟩
    rw [update_of_ne (Ne.symm before.1)]
    exact ih linked.2 before.2

theorem Linked.push (linked : Linked next head (xs ++ [t])) (distinct : (xs ++ [t]).Nodup)
    (last : next x = none) (fresh : x ∉ xs ++ [t]) :
    Linked (update next t (some x)) head (xs ++ [t] ++ [x]) := by
  have before : t ∉ xs := fun member =>
    (nodup_append.mp distinct).2.2 t member t mem_cons_self rfl
  have after : t ∉ [x] := by
    rw [mem_singleton]
    rintro rfl
    exact fresh (mem_append_right xs mem_cons_self)
  rw [append_assoc]
  exact linked.set_next before ⟨rfl, last⟩ after

theorem Linked.unlink (linked : Linked next head (xs ++ t :: x :: ys))
    (distinct : (xs ++ t :: x :: ys).Nodup) :
    Linked (update next t (next x)) head (xs ++ t :: ys) := by
  have tail : ∃ middle, Linked next middle (x :: ys) := by
    rw [append_cons] at linked
    exact linked.suffix
  obtain ⟨_, -, behind⟩ := tail
  obtain ⟨-, later, apart⟩ := nodup_append.mp distinct
  have before : t ∉ xs := fun member => apart t member t mem_cons_self rfl
  have after : t ∉ ys := fun member =>
    (nodup_cons.mp later).1 (mem_cons_of_mem x member)
  exact linked.set_next before behind after

end Writing

end Chuck.Support.LinkedItems
