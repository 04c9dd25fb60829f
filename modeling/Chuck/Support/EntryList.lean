import Mathlib.Data.List.Lookmap
import Mathlib.Data.List.Perm.Subperm
import Mathlib.Data.List.Perm.Lattice

/-!
# Lists of entries

A finite map as the list of its entries. Storing an entry replaces the one with
the same key or adds one, so the number of entries tells whether every key that
was stored was new.
-/

namespace Chuck.Support.EntryList

open List

variable {K V W : Type}

def keys (es : List (K × V)) : List K := es.map Prod.fst

variable {es : List (K × V)} {v : V}

theorem mem_keys {key : K} (member : (key, v) ∈ es) : key ∈ keys es :=
  mem_map.mpr ⟨_, member, rfl⟩

theorem forall_entries_cons {P : K → V → Prop} {key : K} :
    (∀ k w, (k, w) ∈ (key, v) :: es → P k w) ↔ P key v ∧ ∀ k w, (k, w) ∈ es → P k w := by
  constructor
  · exact fun all => ⟨all key v mem_cons_self, fun k w later => all k w (mem_cons_of_mem _ later)⟩
  · rintro ⟨first, others⟩ k w member
    rcases mem_cons.mp member with same | later
    · obtain ⟨rfl, rfl⟩ := Prod.mk.inj same
      exact first
    · exact others k w later

theorem nodup_keys_perm {es' : List (K × V)} (distinct : (keys es).Nodup) (perm : es.Perm es') :
    (keys es').Nodup :=
  ((perm.map Prod.fst).nodup_iff).mp distinct

variable [DecidableEq K]

def store : List (K × V) → K → V → List (K × V)
  | [], key, value => [(key, value)]
  | (other, old) :: rest, key, value =>
    if other = key then (key, value) :: rest else (other, old) :: store rest key value

theorem lookup_cons (key k : K) (v : V) (es : List (K × V)) :
    ((key, v) :: es).lookup k = if k = key then some v else es.lookup k := by
  rw [List.lookup_cons]
  by_cases same : k = key
  · rw [if_pos same, same, beq_self_eq_true]
  · rw [if_neg same, beq_false_of_ne same]

theorem mem_of_lookup {key : K} (found : es.lookup key = some v) : (key, v) ∈ es := by
  induction es with
  | nil => cases found
  | cons entry es ih =>
    obtain ⟨k, old⟩ := entry
    rw [lookup_cons] at found
    split_ifs at found with same
    · rw [same, Option.some.inj found]
      exact mem_cons_self
    · exact mem_cons_of_mem _ (ih found)

theorem lookup_of_mem {key : K} (distinct : (keys es).Nodup) (member : (key, v) ∈ es) :
    es.lookup key = some v := by
  induction es with
  | nil => cases member
  | cons entry es ih =>
    obtain ⟨k, old⟩ := entry
    rw [keys, map_cons, nodup_cons] at distinct
    rw [lookup_cons]
    rcases mem_cons.mp member with same | later
    · obtain ⟨rfl, rfl⟩ := Prod.mk.inj same
      exact if_pos rfl
    · have different : key ≠ k := by
        rintro rfl
        exact distinct.1 (mem_keys later)
      rw [if_neg different]
      exact ih distinct.2 later

theorem lookup_none_iff {key : K} : es.lookup key = none ↔ key ∉ keys es := by
  induction es with
  | nil => simp [keys]
  | cons entry es ih =>
    obtain ⟨k, old⟩ := entry
    rw [lookup_cons, keys, map_cons, mem_cons]
    split_ifs with same
    · simp [same]
    · rw [ih, keys]
      simp [same]

theorem mem_keys_of_lookup {key : K} (found : es.lookup key = some v) : key ∈ keys es :=
  mem_keys (mem_of_lookup found)

/-! ## Storing -/

theorem lookup_store (es : List (K × V)) (key k : K) (v : V) :
    (store es key v).lookup k = if k = key then some v else es.lookup k := by
  induction es with
  | nil => rw [store, lookup_cons]
  | cons entry es ih =>
    obtain ⟨other, old⟩ := entry
    rw [store]
    by_cases same : other = key
    · rw [if_pos same, lookup_cons, lookup_cons, same]
      split_ifs <;> rfl
    · rw [if_neg same, lookup_cons, lookup_cons, ih]
      by_cases this : k = other
      · rw [if_pos this, if_neg (this ▸ same), if_pos this]
      · rw [if_neg this, if_neg this]

theorem length_store (es : List (K × V)) (key : K) (v : V) :
    (store es key v).length = if key ∈ keys es then es.length else es.length + 1 := by
  induction es with
  | nil => rfl
  | cons entry es ih =>
    obtain ⟨other, old⟩ := entry
    rw [store, keys, map_cons]
    by_cases same : other = key
    · rw [if_pos same, if_pos (mem_cons.mpr (.inl same.symm))]
      rfl
    · have moved : key ∈ other :: es.map Prod.fst ↔ key ∈ keys es := by
        rw [mem_cons, keys, or_iff_right (Ne.symm same)]
      rw [if_neg same, length_cons, ih, length_cons]
      simp only [moved]
      split_ifs <;> rfl

theorem mem_store {key k : K} {w : V} (member : (k, w) ∈ store es key v) :
    (k = key ∧ w = v) ∨ (k, w) ∈ es := by
  induction es with
  | nil => exact .inl (Prod.mk.inj (mem_singleton.mp member))
  | cons entry es ih =>
    obtain ⟨other, old⟩ := entry
    rw [store] at member
    split_ifs at member with same
    · rcases mem_cons.mp member with here | later
      · exact .inl (Prod.mk.inj here)
      · exact .inr (mem_cons_of_mem _ later)
    · rcases mem_cons.mp member with here | later
      · exact .inr (here ▸ mem_cons_self)
      · exact (ih later).imp_right (mem_cons_of_mem _)

theorem lookup_store_new {key k : K} {w : V} (longer : (store es key v).length = es.length + 1)
    (found : es.lookup k = some w) : (store es key v).lookup k = some w := by
  rw [length_store] at longer
  have new : key ∉ keys es := by
    intro old
    rw [if_pos old] at longer
    omega
  have different : k ≠ key := by
    rintro rfl
    exact new (mem_keys_of_lookup found)
  rw [lookup_store, if_neg different, found]

theorem keys_store (es : List (K × V)) (key : K) (v : V) :
    keys (store es key v) = if key ∈ keys es then keys es else keys es ++ [key] := by
  induction es with
  | nil => rfl
  | cons entry es ih =>
    obtain ⟨other, old⟩ := entry
    have split : keys ((other, old) :: es) = other :: keys es := rfl
    rw [store, split]
    by_cases same : other = key
    · rw [if_pos same, if_pos (mem_cons.mpr (.inl same.symm)), same]
      rfl
    · have moved : key ∈ other :: keys es ↔ key ∈ keys es := by
        rw [mem_cons, or_iff_right (Ne.symm same)]
      have tail : keys ((other, old) :: store es key v) = other :: keys (store es key v) := rfl
      rw [if_neg same, tail, ih]
      simp only [moved]
      split_ifs <;> rfl

theorem nodup_keys_store (distinct : (keys es).Nodup) (key : K) (v : V) :
    (keys (store es key v)).Nodup := by
  rw [keys_store]
  split_ifs with old
  · exact distinct
  · rw [← concat_eq_append]
    exact List.Nodup.concat old distinct

/-! ## Removing -/

def remove (es : List (K × V)) (key : K) : List (K × V) :=
  es.filter fun entry => entry.1 ≠ key

theorem lookup_remove (es : List (K × V)) (key k : K) :
    (remove es key).lookup k = if k = key then none else es.lookup k := by
  induction es with
  | nil => exact (ite_self _).symm
  | cons entry es ih =>
    obtain ⟨other, old⟩ := entry
    by_cases same : other = key
    · have dropped : remove ((other, old) :: es) key = remove es key :=
        filter_cons_of_neg (by simp [same])
      rw [dropped, ih, lookup_cons, same]
      split_ifs <;> rfl
    · have kept : remove ((other, old) :: es) key = (other, old) :: remove es key :=
        filter_cons_of_pos (by simp [same])
      rw [kept, lookup_cons, lookup_cons, ih]
      by_cases this : k = other
      · rw [if_pos this, if_neg (this ▸ same), if_pos this]
      · rw [if_neg this, if_neg this]

theorem nodup_keys_remove (distinct : (keys es).Nodup) (key : K) : (keys (remove es key)).Nodup :=
  distinct.sublist (filter_sublist.map Prod.fst)

/-! ## Lists with the same keys -/

theorem subperm_keys {es' : List (K × W)} (distinct : (keys es).Nodup)
    (found : ∀ key ∈ keys es, (es'.lookup key).isSome) : (keys es).Subperm (keys es') := by
  apply subperm_of_subset distinct
  intro key member
  obtain ⟨w, here⟩ := Option.isSome_iff_exists.mp (found key member)
  exact mem_keys_of_lookup here

theorem keys_of_found {es' : List (K × W)} (distinct : (keys es).Nodup)
    (found : ∀ key ∈ keys es, (es'.lookup key).isSome) (same : es.length = es'.length) :
    (keys es).Perm (keys es') := by
  apply (subperm_keys distinct found).perm_of_length_le
  rw [keys, keys, length_map, length_map]
  exact Nat.le_of_eq same.symm

theorem perm_front {key : K} (distinct : (keys es).Nodup) (member : (key, v) ∈ es) :
    es.Perm ((key, v) :: es.filter fun entry => entry.1 ≠ key) := by
  induction es with
  | nil => cases member
  | cons entry es ih =>
    obtain ⟨k, old⟩ := entry
    rw [keys, map_cons, nodup_cons] at distinct
    rcases mem_cons.mp member with same | later
    · obtain ⟨rfl, rfl⟩ := Prod.mk.inj same
      have others : es.filter (fun entry => entry.1 ≠ key) = es := by
        rw [filter_eq_self]
        intro entry inside
        rw [decide_eq_true_eq]
        intro same
        exact distinct.1 (same ▸ mem_keys inside)
      rw [filter_cons, if_neg (by simp), others]
    · have different : k ≠ key := by
        rintro rfl
        exact distinct.1 (mem_keys later)
      rw [filter_cons, if_pos (by simp [different])]
      exact ((ih distinct.2 later).cons _).trans (List.Perm.swap _ _ _)

theorem lookup_perm {es' : List (K × V)} (distinct : (keys es).Nodup) (perm : es.Perm es')
    (key : K) : es.lookup key = es'.lookup key := by
  apply Option.ext
  intro v
  constructor
  · intro found
    exact lookup_of_mem (nodup_keys_perm distinct perm) (perm.mem_iff.mp (mem_of_lookup found))
  · intro found
    exact lookup_of_mem distinct (perm.mem_iff.mpr (mem_of_lookup found))

theorem lookup_range (n : Nat) {lo : Nat} {es : List (Nat × V)}
    (sorted : (keys es).Pairwise (· < ·)) (bounds : ∀ k ∈ keys es, lo ≤ k ∧ k < lo + n) :
    (List.range' lo n).filterMap (fun k => es.lookup k) = es.map Prod.snd := by
  induction n generalizing lo es with
  | zero =>
    cases es with
    | nil => rfl
    | cons entry es =>
      have := bounds entry.1 mem_cons_self
      omega
  | succ n ih =>
    rw [range'_succ]
    cases es with
    | nil => simp
    | cons entry es =>
      obtain ⟨k, v⟩ := entry
      have parts := sorted
      rw [keys, map_cons, pairwise_cons] at parts
      by_cases here : k = lo
      · subst here
        have others : (List.range' (k + 1) n).filterMap (fun j => ((k, v) :: es).lookup j) =
            (List.range' (k + 1) n).filterMap (fun j => es.lookup j) := by
          apply filterMap_congr
          intro j member
          have later := mem_range'_1.mp member
          rw [lookup_cons, if_neg (by omega)]
        have inside : ∀ j ∈ keys es, k + 1 ≤ j ∧ j < k + 1 + n := by
          intro j member
          have := parts.1 j member
          have := (bounds j (mem_cons_of_mem k member)).2
          omega
        rw [filterMap_cons, lookup_cons, if_pos rfl, others, ih parts.2 inside]
        rfl
      · have absent : ((k, v) :: es).lookup lo = none := by
          rw [lookup_none_iff]
          intro member
          rcases mem_cons.mp member with same | later
          · exact here same.symm
          · have := parts.1 lo later
            have := (bounds k mem_cons_self).1
            omega
        rw [filterMap_cons, absent]
        apply ih sorted
        intro j member
        have bound := bounds j member
        have different : j ≠ lo := by
          rintro rfl
          exact lookup_none_iff.mp absent member
        omega

end Chuck.Support.EntryList
