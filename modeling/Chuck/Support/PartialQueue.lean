import Mathlib.Data.List.Basic
import Mathlib.Tactic

/-!
# Queues whose first item may be used up in part

A queue of lists is used up from the front, by any number of elements at a time.
`rest` is what is left of the items, and `used` what has been taken of the first
one.
-/

namespace Chuck.Support.PartialQueue

open List

variable {α : Type*}

def wholes (used : List α) : List (List α) → List (List α)
  | [] => []
  | item :: items => (used ++ item) :: items

/-- The items that are finished when `n` elements are taken, what is then used of
the next one, and the rest. -/
def spend : Nat → List α → List (List α) → List (List α) × List α × List (List α)
  | _, used, [] => ([], used, [])
  | n, used, item :: items =>
    if n < item.length then ([], used ++ item.take n, item.drop n :: items)
    else
      let (finished, left, rest) := spend (n - item.length) [] items
      ((used ++ item) :: finished, left, rest)

theorem take_drop_append (front back : List α) {pos : Nat} (inside : pos ≤ front.length)
    (size : Nat) :
    ((front ++ back).drop pos).take size =
      (front.drop pos).take (min (front.length - pos) size) ++
        back.take (size - min (front.length - pos) size) := by
  rw [drop_append_of_le_length inside, take_append, length_drop]
  congr 1
  · rcases Nat.le_total (front.length - pos) size with short | long
    · rw [Nat.min_eq_left short, take_of_length_le (by simpa using short),
        take_of_length_le (by simp)]
    · rw [Nat.min_eq_right long]
  · congr 1
    omega

theorem wholes_unused (items : List (List α)) : wholes [] items = items := by
  cases items <;> rfl

theorem wholes_push (used : List α) {items : List (List α)} (item : List α)
    (started : used ≠ [] → items ≠ []) :
    wholes used (items ++ [item]) = wholes used items ++ [item] := by
  cases items with
  | nil =>
    have none : used = [] := by
      by_contra some
      exact started some rfl
    rw [none]
    rfl
  | cons first items => rfl

theorem spend_zero (used : List α) {items : List (List α)} (full : ∀ item ∈ items, item ≠ []) :
    spend 0 used items = ([], used, items) := by
  cases items with
  | nil => rfl
  | cons item items =>
    have long := length_pos_iff.mpr (full item mem_cons_self)
    simp [spend, long]

theorem spend_wholes (n : Nat) (used : List α) (items : List (List α)) :
    (spend n used items).1 ++ wholes (spend n used items).2.1 (spend n used items).2.2 =
      wholes used items := by
  induction items generalizing n used with
  | nil => rfl
  | cons item items ih =>
    rw [spend]
    by_cases inside : n < item.length
    · simp [if_pos inside, wholes]
    · rw [if_neg inside]
      have onward := ih (n - item.length) []
      rw [wholes_unused] at onward
      exact congrArg ((used ++ item) :: ·) onward

theorem spend_taken (n : Nat) (used : List α) (items : List (List α))
    (enough : n ≤ items.flatten.length) :
    (spend n used items).1.flatten ++ (spend n used items).2.1 = used ++ items.flatten.take n ∧
      (spend n used items).2.2.flatten = items.flatten.drop n := by
  induction items generalizing n used with
  | nil =>
    obtain rfl : n = 0 := Nat.le_zero.mp enough
    simp [spend]
  | cons item items ih =>
    rw [flatten_cons, length_append] at enough
    rw [spend]
    by_cases inside : n < item.length
    · simp only [if_pos inside, flatten_cons, flatten_nil, nil_append]
      rw [take_append_of_le_length inside.le,
        drop_append_of_le_length inside.le]
      exact ⟨rfl, rfl⟩
    · have past : item.length ≤ n := not_lt.mp inside
      obtain ⟨taken, left⟩ := ih (n - item.length) [] (by omega)
      simp only [if_neg inside, flatten_cons]
      rw [append_assoc, taken, left, take_append, drop_append,
        take_of_length_le past, drop_of_length_le past]
      simp

end Chuck.Support.PartialQueue
