import Chuck.Support.EntryList

/-!
# A queue whose takers may wait

Messages are stored until somebody takes them, and takers wait until there is a
message or the queue is closed. Takes are numbered as they begin. A take that waited
is due once it was given its result, and returns later; takes that are due may return
after takes that began later. Over all takes, due or returned, messages still go out
in the order they came in.
-/

namespace Chuck.Support.OrderedHandoff

open Support.EntryList List

variable {Msg : Type}

structure Desk (Msg : Type) where
  stored : List Msg
  /-- The takes that wait. -/
  waiting : List Nat
  /-- The takes that have their result but did not return. -/
  due : List (Nat × Option Msg)
  returned : List (Nat × Option Msg)
  /-- Number of takes begun. -/
  takes : Nat
  /-- What was accepted so far. -/
  pushed : List Msg
  closed : Bool

def messages (results : List (Nat × Option Msg)) : List (Nat × Msg) :=
  results.filterMap fun result => result.2.map fun msg => (result.1, msg)

/-- `waking` while a close is giving nothing to the takes that wait. -/
structure Sound (waking : Prop) (d : Desk Msg) : Prop where
  exclusive : d.stored = [] ∨ d.waiting = []
  accounts : (d.returned.map Prod.fst ++ d.due.map Prod.fst ++ d.waiting).Perm (List.range d.takes)
  order : ∃ handed, (messages (d.returned ++ d.due)).Perm handed ∧
    handed.map Prod.snd ++ d.stored = d.pushed ∧
    (keys handed ++ d.waiting).Pairwise (· < ·)
  refused : ∀ take, (take, none) ∈ d.returned ++ d.due → d.closed = true ∧ d.stored = []
  woken : d.closed = true → ¬waking → d.waiting = []
  wakes : waking → d.closed = true ∧ d.stored = []

section Messages

variable {results : List (Nat × Option Msg)} {take : Nat} {msg : Msg}

theorem messages_append (results more : List (Nat × Option Msg)) :
    messages (results ++ more) = messages results ++ messages more :=
  filterMap_append

theorem mem_messages : (take, msg) ∈ messages results ↔ (take, some msg) ∈ results := by
  rw [messages, mem_filterMap]
  constructor
  · rintro ⟨⟨other, result⟩, member, same⟩
    obtain ⟨found, rfl, pair⟩ := Option.map_eq_some_iff.mp same
    obtain ⟨rfl, rfl⟩ := Prod.mk.inj pair
    exact member
  · intro member
    exact ⟨_, member, rfl⟩

theorem key_of_messages (member : take ∈ keys (messages results)) :
    take ∈ results.map Prod.fst := by
  obtain ⟨⟨other, msg⟩, listed, rfl⟩ := mem_map.mp member
  exact mem_map.mpr ⟨_, mem_messages.mp listed, rfl⟩

end Messages

section Steps

variable {waking : Prop} {d : Desk Msg} {take : Nat} {rest : List Nat} {msg : Msg}

def Desk.empty : Desk Msg where
  stored := []
  waiting := []
  due := []
  returned := []
  takes := 0
  pushed := []
  closed := false

theorem empty_sound : Sound False (Desk.empty : Desk Msg) where
  exclusive := .inl rfl
  accounts := List.Perm.refl _
  order := ⟨[], List.Perm.refl _, rfl, List.Pairwise.nil⟩
  refused := nofun
  woken := fun _ _ => rfl
  wakes := False.elim

theorem Sound.congr {other : Prop} (sound : Sound waking d) (same : waking ↔ other) :
    Sound other d :=
  { sound with
      woken := fun shut asleep => sound.woken shut fun wakes => asleep (same.mp wakes),
      wakes := fun wakes => sound.wakes (same.mpr wakes) }

section

variable (sound : Sound waking d)

include sound

theorem Sound.begun {handed : List (Nat × Msg)}
    (same : (messages (d.returned ++ d.due)).Perm handed) :
    ∀ take ∈ keys handed ++ d.waiting, take < d.takes := by
  intro take member
  apply mem_range.mp
  apply sound.accounts.mem_iff.mp
  rcases mem_append.mp member with got | waits
  · have listed := key_of_messages ((same.map Prod.fst).mem_iff.mpr got)
    rw [map_append] at listed
    exact mem_append_left _ listed
  · exact mem_append_right _ waits

theorem Sound.behind {handed : List (Nat × Msg)}
    (same : (messages (d.returned ++ d.due)).Perm handed)
    (ordered : (keys handed ++ d.waiting).Pairwise (· < ·)) :
    (keys handed ++ d.waiting ++ [d.takes]).Pairwise (· < ·) := by
  apply pairwise_append.mpr
  refine ⟨ordered, pairwise_singleton _ _, ?_⟩
  intro take member new single
  rw [mem_singleton.mp single]
  exact sound.begun same take member

theorem Sound.store (opened : d.closed = false) (idle : d.waiting = []) :
    Sound waking { d with stored := d.stored ++ [msg], pushed := d.pushed ++ [msg] } := by
  obtain ⟨handed, same, split, ordered⟩ := sound.order
  have shut : ¬d.closed = true := by rw [opened]; exact Bool.false_ne_true
  refine ⟨.inr idle, sound.accounts, ⟨handed, same, ?_, ordered⟩, ?_, sound.woken, ?_⟩
  · rw [← append_assoc, split]
  · exact fun take member => absurd (sound.refused take member).1 shut
  · exact fun wakes => absurd (sound.wakes wakes).1 shut

theorem Sound.hand (opened : d.closed = false) (empty : d.stored = [])
    (first : d.waiting = take :: rest) :
    Sound waking { d with
      waiting := rest, due := d.due ++ [(take, some msg)], pushed := d.pushed ++ [msg] } := by
  obtain ⟨handed, same, split, ordered⟩ := sound.order
  have accounts := sound.accounts
  have shut : ¬d.closed = true := by rw [opened]; exact Bool.false_ne_true
  rw [first] at accounts ordered
  rw [empty, append_nil] at split
  refine ⟨.inl empty, ?_, ⟨handed ++ [(take, msg)], ?_, ?_, ?_⟩, ?_, ?_, sound.wakes⟩
  · simpa using accounts
  · rw [← append_assoc, messages_append]
    exact same.append_right _
  · rw [map_append, split, empty, append_nil]
    rfl
  · rw [EntryList.keys, map_append, append_assoc]
    exact ordered
  · intro other member
    rw [← append_assoc, mem_append] at member
    rcases member with old | new
    · exact absurd (sound.refused other old).1 shut
    · cases mem_singleton.mp new
  · exact fun closed => absurd closed shut

theorem Sound.answered (result : Option Msg) :
    ((d.returned ++ [(d.takes, result)]).map Prod.fst ++ d.due.map Prod.fst ++ d.waiting).Perm
      (List.range (d.takes + 1)) := by
  rw [range_succ, map_append, append_assoc, append_assoc]
  refine (perm_append_comm.append_left _).trans ?_
  rw [← append_assoc, ← append_assoc]
  exact sound.accounts.append_right _

theorem Sound.found {left : List Msg} (first : d.stored = msg :: left) :
    Sound waking { d with
      stored := left, takes := d.takes + 1, returned := d.returned ++ [(d.takes, some msg)] } := by
  obtain ⟨handed, same, split, ordered⟩ := sound.order
  have full : d.stored ≠ [] := by
    rw [first]
    exact cons_ne_nil msg left
  have idle : d.waiting = [] := sound.exclusive.resolve_left full
  have behind := sound.behind same ordered
  have moved : (messages (d.returned ++ [(d.takes, some msg)] ++ d.due)).Perm
      (messages (d.returned ++ d.due) ++ [(d.takes, msg)]) := by
    rw [messages_append, messages_append, messages_append, append_assoc, append_assoc]
    exact perm_append_comm.append_left _
  rw [idle, append_nil] at behind
  refine ⟨.inr idle, sound.answered _, ⟨handed ++ [(d.takes, msg)],
    moved.trans (same.append_right _), ?_, ?_⟩, ?_, fun _ _ => idle, ?_⟩
  · rw [map_append, ← split, first, append_assoc]
    rfl
  · rw [idle, append_nil, EntryList.keys, map_append]
    exact behind
  · intro other member
    have old : (other, none) ∈ d.returned ++ d.due := by
      simpa using member
    exact absurd (sound.refused other old).2 full
  · exact fun wakes => absurd (sound.wakes wakes).2 full

theorem Sound.refuse (shut : d.closed = true) (empty : d.stored = []) :
    Sound waking { d with takes := d.takes + 1, returned := d.returned ++ [(d.takes, none)] } := by
  obtain ⟨handed, same, split, ordered⟩ := sound.order
  have unchanged : messages (d.returned ++ [(d.takes, none)] ++ d.due) =
      messages (d.returned ++ d.due) := by
    rw [messages_append, messages_append, messages_append]
    exact congrArg (· ++ messages d.due) (append_nil _)
  refine ⟨sound.exclusive, sound.answered _, ⟨handed, ?_, split, ordered⟩, fun _ _ => ⟨shut, empty⟩,
    sound.woken, sound.wakes⟩
  rw [unchanged]
  exact same

theorem Sound.wait (opened : d.closed = false) (empty : d.stored = []) :
    Sound waking { d with waiting := d.waiting ++ [d.takes], takes := d.takes + 1 } := by
  obtain ⟨handed, same, split, ordered⟩ := sound.order
  have shut : ¬d.closed = true := by rw [opened]; exact Bool.false_ne_true
  refine ⟨.inl empty, ?_, ⟨handed, same, split, ?_⟩, sound.refused, ?_, sound.wakes⟩
  · rw [range_succ, ← append_assoc]
    exact sound.accounts.append_right _
  · rw [← append_assoc]
    exact sound.behind same ordered
  · exact fun closed => absurd closed shut

theorem Sound.close : Sound (d.stored = []) { d with closed := true } := by
  refine ⟨sound.exclusive, sound.accounts, sound.order, ?_, ?_, fun empty => ⟨rfl, empty⟩⟩
  · exact fun take member => ⟨rfl, (sound.refused take member).2⟩
  · exact fun _ full => sound.exclusive.resolve_left full

theorem Sound.wake (wakes : waking) (first : d.waiting = take :: rest) :
    Sound waking { d with waiting := rest, due := d.due ++ [(take, none)] } := by
  obtain ⟨handed, same, split, ordered⟩ := sound.order
  have accounts := sound.accounts
  rw [first] at accounts ordered
  refine ⟨.inl (sound.wakes wakes).2, ?_, ⟨handed, ?_, split, ?_⟩, fun _ _ => sound.wakes wakes,
    fun _ asleep => absurd wakes asleep, sound.wakes⟩
  · simpa using accounts
  · rw [← append_assoc, messages_append]
    exact (append_nil _).symm ▸ same
  · exact ordered.sublist ((sublist_cons_self take rest).append_left _)

theorem Sound.done (idle : d.waiting = []) : Sound False d :=
  { sound with woken := fun _ _ => idle, wakes := False.elim }

theorem Sound.return {result : Nat × Option Msg}
    {later : List (Nat × Option Msg)} (first : d.due = result :: later) :
    Sound waking { d with due := later, returned := d.returned ++ [result] } := by
  have same : d.returned ++ [result] ++ later = d.returned ++ d.due := by
    rw [first, append_assoc]
    rfl
  refine ⟨sound.exclusive, ?_, ?_, ?_, sound.woken, sound.wakes⟩
  · rw [← map_append, same, map_append]
    exact sound.accounts
  · rw [same]
    exact sound.order
  · rw [same]
    exact sound.refused

end

end Steps

/-! ## What was delivered -/

section Delivery

variable {waking : Prop} {d : Desk Msg}

def inTakeOrder (d : Desk Msg) : List Msg :=
  (List.range d.takes).filterMap fun take => (messages (d.returned ++ d.due)).lookup take

theorem Sound.once (sound : Sound waking d) : (d.returned.map Prod.fst).Nodup := by
  have distinct := sound.accounts.nodup_iff.mpr nodup_range
  rw [append_assoc] at distinct
  exact (nodup_append.mp distinct).1

/-- Every message goes to one take, the messages in order to the takes in order, and what
is left is stored. -/
theorem Sound.in_order (sound : Sound waking d) : inTakeOrder d ++ d.stored = d.pushed := by
  obtain ⟨handed, same, split, ordered⟩ := sound.order
  have sorted := (pairwise_append.mp ordered).1
  have distinct : (keys handed).Nodup := sorted.imp Nat.ne_of_lt
  have lookups : ∀ take, (messages (d.returned ++ d.due)).lookup take = handed.lookup take :=
    fun take => lookup_perm (nodup_keys_perm distinct same.symm) same take
  have listed : inTakeOrder d = handed.map Prod.snd := by
    simp only [inTakeOrder, lookups, range_eq_range']
    apply lookup_range d.takes sorted
    intro take member
    rw [Nat.zero_add]
    exact ⟨Nat.zero_le take, sound.begun same take (mem_append_left _ member)⟩
  rw [listed]
  exact split

end Delivery

end Chuck.Support.OrderedHandoff
