import Mathlib.Data.List.Range

/-!
# Finite arrays of lists

A bucket array of size `size` is a function from slot numbers to lists, read
only below `size`. Nothing here depends on what the items are.
-/

namespace Chuck.Support.Buckets

variable {Item : Type*}

def items (size : Nat) (slots : Nat → List Item) : List Item :=
  (List.range size).flatMap slots

theorem mem_items {size : Nat} {slots : Nat → List Item} {item : Item} :
    item ∈ items size slots ↔ ∃ slot, slot < size ∧ item ∈ slots slot := by
  simp [items]

theorem items_congr {size : Nat} {left right : Nat → List Item}
    (same : ∀ slot, slot < size → left slot = right slot) : items size left = items size right := by
  unfold items
  apply List.flatMap_congr
  intro slot member
  exact same slot (List.mem_range.mp member)

theorem items_succ (size : Nat) (slots : Nat → List Item) :
    items (size + 1) slots = items size slots ++ slots size := by
  simp [items, List.range_succ]

theorem items_empty (size : Nat) : items size (fun _ => ([] : List Item)) = [] := by
  induction size with
  | zero => rfl
  | succ size ih => rw [items_succ, ih]; rfl

theorem items_filter (size : Nat) (slots : Nat → List Item) (keep : Item → Bool) :
    items size (fun slot => (slots slot).filter keep) = (items size slots).filter keep := by
  induction size with
  | zero => rfl
  | succ size ih => rw [items_succ, items_succ, List.filter_append, ih]

theorem items_single {size slot : Nat} (bound : slot < size) (item : Item) :
    items size (fun place => if place = slot then [item] else []) = [item] := by
  induction size with
  | zero => exact absurd bound (Nat.not_lt_zero _)
  | succ size ih =>
    rw [items_succ]
    by_cases last : size = slot
    · have below : items size (fun place => if place = slot then [item] else []) = [] := by
        refine (items_congr ?_).trans (items_empty size)
        intro place before
        have apart : place ≠ slot := by omega
        exact if_neg apart
      rw [below, if_pos last, List.nil_append]
    · rw [ih (by omega), if_neg last, List.append_nil]

end Chuck.Support.Buckets
