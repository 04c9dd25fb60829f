import Chuck.Support.LinkedItems

/-!
# Source-shaped `chk_list`

The list keeps its size and the pointers to its first and its last entry; the
entries lie inside other objects and are known by their numbers. `next` is the field
of every entry, in this list or not. An entry that has a `next` is taken for one that
is in a list already, so the last entry of a list could be pushed again.
-/

namespace Chuck.ChkListModel

open Support.LinkedItems Function List

structure ChkList where
  size : Nat
  head : Option Nat
  tail : Option Nat
  deriving DecidableEq, Repr

def listInit : ChkList where
  size := 0
  head := none
  tail := none

/-- `chk_list_pushback`; a non-empty list without a tail is used by nobody. -/
def listPushback (next : Nat → Option Nat) (l : ChkList) (n : Nat) :
    Option ((Nat → Option Nat) × ChkList) :=
  if next n ≠ none then some (next, l)
  else if l.size = 0 then some (next, { size := l.size + 1, head := some n, tail := some n })
  else l.tail.map fun tail =>
    (update next tail (some n), { l with size := l.size + 1, tail := some n })

def listPop (next : Nat → Option Nat) (l : ChkList) : Option Nat × (Nat → Option Nat) × ChkList :=
  match l.head with
  | none => (none, next, l)
  | some head =>
    (some head, update next head none,
      { size := l.size - 1, head := next head
        tail := if next head = none then none else l.tail })

/-- The list has the entries `xs`, and no other entry has a `next`. -/
structure Listed (next : Nat → Option Nat) (l : ChkList) (xs : List Nat) : Prop where
  linked : Linked next l.head xs
  tail : l.tail = xs.getLast?
  size : l.size = xs.length
  nodup : xs.Nodup
  outside : ∀ n, n ∉ xs → next n = none

theorem listed_init : Listed (fun _ => none) listInit [] :=
  ⟨rfl, rfl, rfl, nodup_nil, fun _ _ => rfl⟩

section Operations

variable {next : Nat → Option Nat} {l : ChkList} {xs : List Nat}

theorem Listed.pushback (listed : Listed next l xs) {n : Nat} (fresh : n ∉ xs) :
    ∃ next' l', listPushback next l n = some (next', l') ∧ Listed next' l' (xs ++ [n]) := by
  have last := listed.outside n fresh
  have nodup : (xs ++ [n]).Nodup :=
    List.Nodup.append listed.nodup (nodup_singleton n) (by simpa using fresh)
  rw [listPushback, if_neg (by simp [last])]
  rcases eq_nil_or_concat xs with none | ⟨front, t, parts⟩
  · subst none
    have empty : l.size = 0 := listed.size
    rw [if_pos empty]
    refine ⟨_, _, rfl, ⟨rfl, last⟩, rfl, ?_, nodup, fun m absent => ?_⟩
    · rw [listed.size]
      rfl
    · exact listed.outside m (not_mem_nil)
  · rw [concat_eq_append] at parts
    subst parts
    have tail : l.tail = some t := by rw [listed.tail, getLast?_concat]
    have size := listed.size
    rw [length_append, length_singleton] at size
    rw [if_neg (by omega), tail]
    refine ⟨_, _, rfl, listed.linked.push listed.nodup last fresh, ?_, ?_, nodup,
      fun m absent => ?_⟩
    · rw [getLast?_concat]
    · rw [length_append, ← listed.size]
      rfl
    · rw [mem_append, not_or] at absent
      rw [update_of_ne]
      · exact listed.outside m absent.1
      · intro same
        subst same
        exact absent.1 (mem_append_right front mem_cons_self)

theorem Listed.pop {n : Nat} (listed : Listed next l (n :: xs)) :
    ∃ next' l', listPop next l = (some n, next', l') ∧ Listed next' l' xs := by
  obtain ⟨head, behind⟩ := listed.linked
  obtain ⟨absent, nodup⟩ := nodup_cons.mp listed.nodup
  have size := listed.size
  rw [length_cons] at size
  rw [listPop, head]
  refine ⟨_, _, rfl, behind.update_other absent none, ?_, ?_, nodup, fun m outside => ?_⟩
  · cases xs with
    | nil => exact if_pos behind
    | cons x xs =>
      rw [behind.1]
      exact listed.tail
  · dsimp only
    omega
  · by_cases same : m = n
    · rw [same, update_self]
    · rw [update_of_ne same]
      refine listed.outside m fun member => ?_
      rcases mem_cons.mp member with here | later
      · exact same here
      · exact outside later

end Operations

end Chuck.ChkListModel
