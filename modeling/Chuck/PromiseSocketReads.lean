import Chuck.PromiseSocketModel
import Chuck.ByteBufferRefinement
import Chuck.Support.LinkedItems

/-!
# The pending reads of a `PromiseSocket`

The list linked by hand is the list of the requests that are not settled, in the
order of the calls. Every assignment to it, from a new request, from data, from a
timer and from the close callback, is the matching change of that list.
-/

namespace Chuck.PromiseSocketReads

open Support.LinkedItems ByteChunkModel ByteBufferRefinement PromiseSocketModel Function List
open Option

variable {mem : Memory} {b : ByteBuffer}

/-! ## Which requests are pending -/

/-- The requests `xs` are those of the first `calls` that are not in `ids`. -/
structure Accounts (calls : Nat) (ids xs : List Nat) : Prop where
  pending : ∀ i, i ∈ xs ↔ i < calls ∧ i ∉ ids
  once : ids.Nodup
  known : ∀ i ∈ ids, i < calls
  ordered : xs.Pairwise (· < ·)

section Accounting

variable {calls : Nat} {ids xs ys : List Nat} {i : Nat}

theorem Accounts.nodup (accounts : Accounts calls ids xs) : xs.Nodup :=
  accounts.ordered.imp Nat.ne_of_lt

theorem Accounts.new_absent (accounts : Accounts calls ids xs) : calls ∉ ids :=
  fun member => Nat.lt_irrefl calls (accounts.known calls member)

theorem Accounts.settle (accounts : Accounts calls ids (xs ++ i :: ys)) :
    Accounts calls (ids ++ [i]) (xs ++ ys) := by
  have here := (accounts.pending i).mp (mem_append_right xs mem_cons_self)
  have distinct := accounts.nodup
  rw [nodup_middle, nodup_cons] at distinct
  constructor
  · intro j
    have listed := accounts.pending j
    have moved : j ∈ xs ++ i :: ys ↔ j = i ∨ j ∈ xs ++ ys := by
      rw [perm_middle.mem_iff, mem_cons]
    have extended : j ∉ ids ++ [i] ↔ j ∉ ids ∧ j ≠ i := by
      rw [mem_append, mem_singleton, not_or]
    rw [moved] at listed
    rw [extended]
    constructor
    · intro member
      have both := listed.mp (.inr member)
      refine ⟨both.1, both.2, ?_⟩
      rintro rfl
      exact distinct.1 member
    · rintro ⟨below, unsettled, other⟩
      exact (listed.mpr ⟨below, unsettled⟩).resolve_left other
  · apply nodup_append.mpr
    refine ⟨accounts.once, nodup_singleton i, ?_⟩
    intro j settled k single same
    obtain rfl := mem_singleton.mp single
    exact here.2 (same ▸ settled)
  · intro j member
    rcases mem_append.mp member with settled | new
    · exact accounts.known j settled
    · rw [mem_singleton.mp new]
      exact here.1
  · exact accounts.ordered.sublist ((sublist_cons_self i ys).append_left xs)

theorem Accounts.wait (accounts : Accounts calls ids xs) :
    Accounts (calls + 1) ids (xs ++ [calls]) := by
  constructor
  · intro i
    rw [mem_append, mem_singleton, accounts.pending]
    constructor
    · rintro (⟨below, unsettled⟩ | rfl)
      · exact ⟨Nat.lt_succ_of_lt below, unsettled⟩
      · exact ⟨Nat.lt_succ_self i, accounts.new_absent⟩
    · rintro ⟨below, unsettled⟩
      rcases Nat.lt_succ_iff_lt_or_eq.mp below with less | same
      · exact .inl ⟨less, unsettled⟩
      · exact .inr same
  · exact accounts.once
  · exact fun i member => Nat.lt_succ_of_lt (accounts.known i member)
  · apply pairwise_append.mpr
    refine ⟨accounts.ordered, pairwise_singleton _ _, ?_⟩
    intro i member j new
    rw [mem_singleton.mp new]
    exact ((accounts.pending i).mp member).1

theorem Accounts.answer (accounts : Accounts calls ids xs) :
    Accounts (calls + 1) (ids ++ [calls]) xs := by
  have waited := accounts.wait
  have settled := waited.settle
  rwa [append_nil] at settled

end Accounting

/-! ## The buffer -/

def resolvedBytes (settled : List (Nat × Settlement)) : List Byte :=
  settled.flatMap fun
    | (_, .resolved msg) => msg
    | (_, .rejected _) => []

theorem resolved_bytes_append (settled : List (Nat × Settlement)) (i : Nat) (msg : List Byte) :
    resolvedBytes (settled ++ [(i, .resolved msg)]) = resolvedBytes settled ++ msg := by
  simp [resolvedBytes]

theorem resolved_bytes_reject (settled : List (Nat × Settlement)) (i : Nat) (err : Reason) :
    resolvedBytes (settled ++ [(i, .rejected err)]) = resolvedBytes settled := by
  simp [resolvedBytes]

theorem owns_headless {L : List Byte} (owns : Owns mem b L)
    (none : b.head = Option.none) : L = [] := by
  obtain ⟨-, -, ⟨-, -, -, empty⟩ | ⟨_, _, _, _, holding⟩⟩ := owns
  · exact empty
  · rw [holding.head] at none
    cases none

theorem buffer_read {L : List Byte} (owns : Owns mem b L) (byteCount : Nat) :
    (bufferRead mem b byteCount = some (none, mem, b) ∧
      (L.length < byteCount % 2 ^ 32 ∨ byteCount % 2 ^ 32 = 0)) ∨
    (byteCount % 2 ^ 32 ≤ L.length ∧ ∃ after drained,
      bufferRead mem b byteCount = some (some (L.take (byteCount % 2 ^ 32)), after, drained) ∧
      Owns after drained (L.drop (byteCount % 2 ^ 32))) := by
  have counted := owns.counted
  by_cases stops : b.head = none ∨ b.datasize < byteCount % 2 ^ 32
  · left
    refine ⟨if_pos stops, ?_⟩
    rcases stops with headless | short
    · have empty := congrArg List.length (owns_headless owns headless)
      rw [length_nil] at empty
      omega
    · exact .inl (counted ▸ short)
  · right
    rw [not_or, Nat.not_lt, counted] at stops
    obtain ⟨after, drained, ran, left⟩ := drain_owns owns stops.2
    refine ⟨stops.2, after, drained, ?_, left⟩
    rw [bufferRead, if_neg (by rw [not_or, Nat.not_lt, counted]; exact stops), ran]
    rfl

def served (c : PromiseSocket) (mem : Memory) (b : ByteBuffer) (i : Nat) (msg : List Byte) :
    PromiseSocket :=
  { c with
    mem := mem, buff := b, needResume := false, reading := c.reading || c.needResume
    settled := c.settled ++ [(i, .resolved msg)] }

theorem process_cases {c : PromiseSocket} {L : List Byte} (owns : Owns c.mem c.buff L)
    (conn : c.conn = true) (i : Nat) :
    (process c i = some (false, c) ∧
      (L.length < c.byteCount i % 2 ^ 32 ∨ c.byteCount i % 2 ^ 32 = 0)) ∨
    (c.byteCount i % 2 ^ 32 ≤ L.length ∧ ∃ mem b,
      process c i = some (true, served c mem b i (L.take (c.byteCount i % 2 ^ 32))) ∧
      Owns mem b (L.drop (c.byteCount i % 2 ^ 32))) := by
  rcases buffer_read owns (c.byteCount i) with ⟨read, short⟩ | ⟨enough, mem, b, read, left⟩
  · left
    rw [process, read]
    exact ⟨rfl, short⟩
  right
  refine ⟨enough, mem, b, ?_, left⟩
  rw [process, read, bind_some]
  cases resume : c.needResume with
  | true => simp only [resumeRead, resume, conn, if_true, map_some, served, Bool.or_true]
  | false =>
    simp only [resumeRead, resume, Bool.false_eq_true, if_false, map_some, served,
      Bool.or_false]

/-! ## The list of requests -/

/-- The socket has the pending requests `xs` and the bytes `L` buffered. -/
structure Represents (c : PromiseSocket) (xs : List Nat) (L : List Byte) : Prop where
  linked : Linked c.next c.promise xs
  tail : c.promiseTail = xs.getLast?
  fresh : ∀ i, c.calls ≤ i → c.next i = none
  accounts : Accounts c.calls (c.settled.map Prod.fst) xs
  owns : Owns c.mem c.buff L
  conserved : resolvedBytes c.settled ++ L = c.received

theorem new_represents (owns : Owns mem b []) : Represents (newSocket mem b) [] [] :=
  ⟨rfl, rfl, fun _ _ => rfl,
    ⟨fun i => by simp [newSocket], nodup_nil, nofun,
      List.Pairwise.nil⟩, owns, rfl⟩

section Requests

variable {c : PromiseSocket} {xs ys : List Nat} {L : List Byte}

theorem add_promise (linked : Linked c.next c.promise xs) (tail : c.promiseTail = xs.getLast?)
    (distinct : xs.Nodup) {i : Nat} (fresh : i ∉ xs) (alone : c.next i = none) :
    ∃ next first, addPromise c i =
        some { c with next := next, promise := first, promiseTail := some i } ∧
      Linked next first (xs ++ [i]) ∧ ∀ j, j ∉ xs → next j = c.next j := by
  rcases eq_nil_or_concat xs with rfl | ⟨front, t, rfl⟩
  · refine ⟨c.next, some i, ?_, ⟨rfl, alone⟩, fun _ _ => rfl⟩
    rw [addPromise, linked.nil_iff.mpr rfl]
  rw [concat_eq_append] at *
  rw [getLast?_concat] at tail
  refine ⟨update c.next t (some i), c.promise, ?_, linked.push distinct alone fresh, ?_⟩
  · have some_ : c.promise ≠ none := by
      rw [ne_eq, linked.nil_iff]
      simp
    obtain ⟨first, head⟩ := ne_none_iff_exists'.mp some_
    rw [addPromise, head]
    simp only [tail, map_some]
  · intro j absent
    apply update_of_ne
    rintro rfl
    exact absent (mem_append_right front mem_cons_self)

theorem drop_first {p : Nat} (linked : Linked c.next c.promise (p :: ys))
    (tail : c.promiseTail = (p :: ys).getLast?) :
    Linked (dropFirst c p).next (dropFirst c p).promise ys ∧
      (dropFirst c p).promiseTail = ys.getLast? := by
  refine ⟨linked.2, ?_⟩
  rw [dropFirst, linked.2.head_eq]
  cases ys with
  | nil => rfl
  | cons y ys => simpa using tail

theorem Represents.serve {p : Nat} (rep : Represents c (p :: ys) L)
    {size : Nat} (left : Owns mem b (L.drop size)) :
    Represents (dropFirst (served c mem b p (L.take size)) p) ys (L.drop size) := by
  obtain ⟨linked, tail⟩ :=
    drop_first (c := served c mem b p (L.take size)) rep.linked rep.tail
  refine ⟨linked, tail, rep.fresh, ?_, left, ?_⟩
  · have settled : Accounts c.calls (c.settled.map Prod.fst ++ [p]) ([] ++ ys) :=
      Accounts.settle rep.accounts
    simpa [dropFirst, served] using settled
  · rw [dropFirst, served, resolved_bytes_append, append_assoc, take_append_drop]
    exact rep.conserved

structure Kept (c after : PromiseSocket) : Prop where
  conn : after.conn = c.conn
  released : after.released = c.released
  calls : after.calls = c.calls
  received : after.received = c.received

theorem Kept.refl (c : PromiseSocket) : Kept c c := ⟨rfl, rfl, rfl, rfl⟩

theorem recv_cases (rep : Represents c xs L) (byteCount : Nat) (timeout : Bool) :
    ∃ after, recv c byteCount timeout = some after ∧ after.calls = c.calls + 1 ∧
      after.conn = c.conn ∧ after.released = c.released ∧ after.received = c.received ∧
      ((c.conn = false ∧ Represents after xs L ∧
          after.settled = c.settled ++ [(c.calls, .rejected .invaildConnection)]) ∨
        (c.conn = true ∧ byteCount % 2 ^ 32 ≤ L.length ∧
          Represents after xs (L.drop (byteCount % 2 ^ 32)) ∧
          after.settled = c.settled ++ [(c.calls, .resolved (L.take (byteCount % 2 ^ 32)))]) ∨
        (c.conn = true ∧ (L.length < byteCount % 2 ^ 32 ∨ byteCount % 2 ^ 32 = 0) ∧
          Represents after (xs ++ [c.calls]) L ∧ after.settled = c.settled)) := by
  have later : ∀ i, c.calls + 1 ≤ i → c.next i = none := fun i above => rep.fresh i (by omega)
  cases conn : c.conn with
  | false =>
    refine ⟨_, if_neg (by simp [conn]), rfl, conn, rfl, rfl, .inl ⟨rfl, ?_, rfl⟩⟩
    refine ⟨rep.linked, rep.tail, later, ?_, rep.owns, ?_⟩
    · rw [map_append]
      exact rep.accounts.answer
    · rw [resolved_bytes_reject]
      exact rep.conserved
  | true =>
    let asked := { c with
      calls := c.calls + 1, byteCount := update c.byteCount c.calls byteCount }
    have owns : Owns asked.mem asked.buff L := rep.owns
    have count : asked.byteCount c.calls = byteCount := update_self _ _ _
    have shape : recv c byteCount timeout = (process asked c.calls).bind _ := if_pos conn
    rcases process_cases owns conn c.calls with ⟨ran, short⟩ | ⟨enough, mem, b, ran, left⟩
    · rw [count] at short
      have absent : c.calls ∉ xs := fun member =>
        Nat.lt_irrefl _ ((rep.accounts.pending c.calls).mp member).1
      obtain ⟨next, first, added, linked, others⟩ := add_promise (c := asked) rep.linked rep.tail
        rep.accounts.nodup absent (rep.fresh c.calls le_rfl)
      have waits : recv c byteCount timeout = some { asked with
          next := next, promise := first, promiseTail := some c.calls
          timer := update c.timer c.calls timeout } := by
        rw [shape, ran, bind_some]
        simp only [added, map_some]
        rfl
      refine ⟨_, waits, rfl, conn, rfl, rfl, .inr (.inr ⟨rfl, short, ?_, rfl⟩)⟩
      refine ⟨linked, getLast?_concat.symm, ?_, rep.accounts.wait, rep.owns, rep.conserved⟩
      intro i above
      have outside : i ∉ xs := by
        intro member
        exact Nat.lt_irrefl _ (Nat.lt_trans ((rep.accounts.pending i).mp member).1 above)
      exact (others i outside).trans (later i above)
    · rw [count] at enough ran left
      rw [shape, ran, bind_some]
      refine ⟨_, rfl, rfl, conn, rfl, rfl, .inr (.inl ⟨rfl, enough, ?_, rfl⟩)⟩
      refine ⟨rep.linked, rep.tail, later, ?_, left, ?_⟩
      · rw [served, map_append]
        exact rep.accounts.answer
      · rw [served, resolved_bytes_append, append_assoc, take_append_drop]
        exact rep.conserved

theorem serve_loop (fuel : Nat) (c : PromiseSocket) (xs : List Nat) (L : List Byte)
    (rep : Represents c xs L) (conn : c.conn = true) (fueled : xs.length < fuel) :
    ∃ (after : PromiseSocket) (ys : List Nat) (rest : List Byte) (msgs : List (Nat × List Byte)),
      serveLoop fuel c = some after ∧ Represents after ys rest ∧
      Kept c after ∧ xs = msgs.map Prod.fst ++ ys ∧
      after.settled = c.settled ++ msgs.map fun entry => (entry.1, .resolved entry.2) := by
  induction xs generalizing fuel c L with
  | nil =>
    obtain ⟨fuel, rfl⟩ := Nat.exists_eq_succ_of_ne_zero fueled.ne'
    refine ⟨c, [], L, [], ?_, rep, Kept.refl c, rfl, (append_nil _).symm⟩
    rw [serveLoop, rep.linked.nil_iff.mpr rfl]
  | cons p xs ih =>
    obtain ⟨fuel, rfl⟩ := Nat.exists_eq_succ_of_ne_zero (Nat.ne_of_gt (Nat.zero_lt_of_lt fueled))
    rw [serveLoop, rep.linked.1]
    rcases process_cases rep.owns conn p with ⟨ran, -⟩ | ⟨-, mem, b, ran, left⟩
    · refine ⟨c, p :: xs, L, [], ?_, rep, Kept.refl c, rfl, (append_nil _).symm⟩
      simp only [ran, bind_some]
    obtain ⟨after, ys, rest, msgs, served_, held, kept, parts, settled⟩ := ih fuel _ _
      (rep.serve left) conn (by simpa using fueled)
    refine ⟨after, ys, rest, (p, L.take (c.byteCount p % 2 ^ 32)) :: msgs, ?_, held, ?_, ?_, ?_⟩
    · simp only [ran, bind_some]
      exact served_
    · exact { kept with }
    · rw [parts]
      rfl
    · rw [settled, dropFirst, served, append_assoc]
      rfl

theorem unlink_promise {front rest : List Nat} {cur : Nat}
    (linked : Linked c.next c.promise (front ++ cur :: rest))
    (tail : c.promiseTail = (front ++ cur :: rest).getLast?)
    (distinct : (front ++ cur :: rest).Nodup) :
    ∃ next first last, unlinkPromise c front.getLast? cur =
        { c with next := next, promise := first, promiseTail := last } ∧
      Linked next first (front ++ rest) ∧ last = (front ++ rest).getLast? ∧
      ∀ j, j ∉ front → next j = c.next j := by
  rcases eq_nil_or_concat front with rfl | ⟨before, pre, rfl⟩
  · obtain ⟨left, last⟩ := drop_first linked tail
    exact ⟨_, _, _, rfl, left, last, fun _ _ => rfl⟩
  rw [concat_eq_append, getLast?_concat]
  rw [concat_eq_append, append_assoc, singleton_append] at linked tail distinct
  rw [append_assoc, singleton_append]
  refine ⟨_, _, _, rfl, linked.unlink distinct, ?_, ?_⟩
  · have absent : cur ∉ before ++ pre :: rest := by
      rw [append_cons, nodup_middle, nodup_cons, ← append_cons] at distinct
      exact distinct.1
    rw [tail]
    cases rest with
    | nil => simp
    | cons y rest =>
      have same : (before ++ pre :: cur :: y :: rest).getLast? =
          (before ++ pre :: y :: rest).getLast? := by
        simp [getLast?_append, getLast?_cons_cons]
      rw [same, if_neg]
      exact fun last => absent (mem_of_getLast? last)
  · intro j outside
    apply update_of_ne
    rintro rfl
    exact outside (mem_append_right before mem_cons_self)

theorem Represents.time_out {front rest : List Nat} {cur : Nat}
    (rep : Represents c (front ++ cur :: rest) L) :
    Represents (rejectTimeout (unlinkPromise c front.getLast? cur) cur) (front ++ rest) L ∧
      Kept c (rejectTimeout (unlinkPromise c front.getLast? cur) cur) ∧
      (rejectTimeout (unlinkPromise c front.getLast? cur) cur).settled =
        c.settled ++ [(cur, .rejected .timeout)] := by
  have distinct := rep.accounts.nodup
  have accounts := rep.accounts.settle
  obtain ⟨next, first, last, same, linked, tail, others⟩ :=
    unlink_promise rep.linked rep.tail distinct
  have absent : cur ∉ front ++ rest := by
    rw [nodup_middle, nodup_cons] at distinct
    exact distinct.1
  have fresh : ∀ j, c.calls ≤ j → update next cur none j = none := by
    intro j above
    have beyond : ∀ k ∈ front ++ cur :: rest, j ≠ k := by
      rintro k member rfl
      exact Nat.lt_irrefl _ (Nat.lt_of_lt_of_le ((rep.accounts.pending j).mp member).1 above)
    rw [update_of_ne (beyond cur (mem_append_right front mem_cons_self)),
      others j fun member => beyond j (mem_append_left _ member) rfl]
    exact rep.fresh j above
  rw [same, rejectTimeout]
  refine ⟨⟨linked.update_other absent none, tail, fresh, ?_, rep.owns, ?_⟩, ⟨rfl, rfl, rfl, rfl⟩,
    rfl⟩
  · rw [map_append]
    exact accounts
  · rw [resolved_bytes_reject]
    exact rep.conserved

theorem timeout_loop {i : Nat} (front rest : List Nat) (fuel : Nat)
    (rep : Represents c (front ++ rest) L) (fueled : rest.length < fuel) :
    ∃ after ys, onRecvTimeout c i fuel front.getLast? rest.head? = some after ∧
      Represents after ys L ∧ Kept c after ∧ ys.Sublist (front ++ rest) ∧
      (after.settled = c.settled ∨ after.settled = c.settled ++ [(i, .rejected .timeout)]) := by
  induction rest generalizing front fuel with
  | nil =>
    obtain ⟨fuel, rfl⟩ := Nat.exists_eq_add_one_of_ne_zero fueled.ne'
    exact ⟨c, _, rfl, rep, Kept.refl c, List.Sublist.refl _, .inl rfl⟩
  | cons cur rest ih =>
    obtain ⟨fuel, rfl⟩ :=
      Nat.exists_eq_add_one_of_ne_zero (Nat.ne_of_gt (Nat.zero_lt_of_lt fueled))
    rw [head?_cons, onRecvTimeout]
    by_cases found : cur = i
    · subst found
      obtain ⟨held, kept, settled⟩ := rep.time_out
      exact ⟨_, _, if_pos rfl, held, kept, (sublist_cons_self cur rest).append_left front,
        .inr settled⟩
    · have again : front ++ cur :: rest = front ++ [cur] ++ rest := append_cons _ _ _
      have step : c.next cur = rest.head? := rep.linked.next_eq
      rw [again] at rep ⊢
      obtain ⟨after, ys, ran, held⟩ := ih (front ++ [cur]) fuel rep (by simpa using fueled)
      rw [getLast?_concat, ← step] at ran
      exact ⟨after, ys, (if_neg found).trans ran, held⟩

theorem close_loop (fuel : Nat) (c : PromiseSocket) (xs : List Nat)
    (rep : Represents { c with promiseTail := xs.getLast? } xs L) (fueled : xs.length < fuel) :
    ∃ after, closeLoop fuel c = some after ∧ Represents after [] L ∧ Kept c after := by
  -- The loop leaves the tail alone, so in it only the rest of the list is right.
  induction xs generalizing fuel c with
  | nil =>
    obtain ⟨fuel, rfl⟩ := Nat.exists_eq_succ_of_ne_zero fueled.ne'
    have done : c.promise = none := rep.linked
    rw [closeLoop, done]
    exact ⟨_, rfl, { rep with linked := rfl, tail := rfl },
      rfl, rfl, rfl, rfl⟩
  | cons p xs ih =>
    obtain ⟨fuel, rfl⟩ := Nat.exists_eq_succ_of_ne_zero (Nat.ne_of_gt (Nat.zero_lt_of_lt fueled))
    have first : c.promise = some p := rep.linked.1
    have accounts : Accounts c.calls (c.settled.map Prod.fst ++ [p]) ([] ++ xs) :=
      Accounts.settle rep.accounts
    let left := { c with
      timer := update c.timer p false
      settled := c.settled ++ [(p, Settlement.rejected .disconnected)]
      promise := c.next p }
    have step : closeLoop (fuel + 1) c = closeLoop fuel left := by
      rw [closeLoop, first]
    have held : Represents { left with promiseTail := xs.getLast? } xs L := by
      refine ⟨rep.linked.2, rfl, rep.fresh, ?_, rep.owns, ?_⟩
      · simp only [left, map_append]
        exact accounts
      · simp only [left, resolved_bytes_reject]
        exact rep.conserved
    obtain ⟨after, ran, done, kept⟩ := ih fuel left held (by simpa using fueled)
    exact ⟨after, step.trans ran, done, kept.conn, kept.released, kept.calls, kept.received⟩

end Requests

end Chuck.PromiseSocketReads
