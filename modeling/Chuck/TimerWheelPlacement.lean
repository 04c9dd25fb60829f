import Chuck.TimerWheelModel

/-!
# Where `_reg` puts a timer

A timer is to end `n` ticks after the tick `last`, on a manager that made `e` ticks before;
the tick `i` below is the `i`-th one from then on. `Clock` ties the three cursors to the turns
that the wheels have made, `Rests` a timer in a slot to the turn that will visit it. Inside
`fire` the upper wheels lag behind the tick until the cascade has run. Nothing here
excludes that the 64-bit clock wraps: `cal_remain` corrects the distance of a wrapped expiry
by 2^64 - 1 instead of 2^64, so `_reg` puts the timer one tick too early as long as the clock
has not wrapped.
-/

namespace Chuck.TimerWheelPlacement

open TimerWheelModel Function

def secCursor (ticks : Nat) : Int :=
  if ticks = 0 then -1 else ((ticks - 1) % 1000 : Nat)

theorem set_wheel_same (world : World) (wtype : WheelType) (wheel : Wheel) :
    (world.setWheel wtype wheel).mgr.wheels wtype = wheel := by
  simp [World.setWheel]

theorem set_wheel_other (world : World) (wtype other : WheelType) (wheel : Wheel)
    (different : other ≠ wtype) :
    (world.setWheel wtype wheel).mgr.wheels other = world.mgr.wheels other := by
  simp [World.setWheel, different]

theorem reg_slot_sec (ticks remain : Nat) (positive : 0 < remain) (near : remain ≤ 1000) :
    regSlot (secCursor ticks) remain 1000 = (ticks + remain - 1) % 1000 := by
  unfold regSlot secCursor
  dsimp only
  split_ifs <;> omega

theorem reg_slot_turn (turns remain wsize : Nat) (near : remain ≤ wsize)
    (small : wsize ≤ 3600) (positive : 0 < wsize) :
    regSlot ((turns % wsize : Nat) : Int) remain wsize = (turns + remain) % wsize := by
  have below : turns % wsize < wsize := Nat.mod_lt _ positive
  have narrow : ((((turns % wsize : Nat) : Int) + (remain : Int)) % 2 ^ 32).toNat =
      turns % wsize + remain := by omega
  have split : (turns + remain) % wsize = (turns % wsize + remain) % wsize := by
    rw [Nat.mod_add_mod]
  unfold regSlot
  dsimp only
  rw [narrow, split]
  split_ifs with wrapped
  · by_cases full : turns % wsize + remain - wsize < wsize
    · rw [Nat.mod_eq_sub_mod wrapped, Nat.mod_eq_of_lt full]
    · omega
  · exact (Nat.mod_eq_of_lt (by omega)).symm

def regWheel (remain : Nat) : WheelType × Nat :=
  if remain ≤ 1000 then (.sec, remain)
  else if (remain - 1) / 1000 ≤ 3600 then (.hour, (remain - 1) / 1000)
  else (.day, ((remain - 1) / 1000 - 1) / 3600)

theorem reg_eq (world : World) (timer : Timer) (tick : Nat) :
    reg world timer tick =
      pushSlot world timer (regWheel (calRemain tick timer.expire % 2 ^ 32)).1
        (regWheel (calRemain tick timer.expire % 2 ^ 32)).2 := by
  rw [reg, regWheel]
  generalize calRemain tick timer.expire % 2 ^ 32 = remain
  by_cases second : remain ≤ 1000
  · rw [if_pos second, regLoop, if_pos (.inr second)]
  · rw [if_neg second, regLoop, if_neg (by simp [wheelSize]; omega),
      show wheelSize .sec = 1000 from rfl]
    by_cases hour : (remain - 1) / 1000 ≤ 3600
    · rw [if_pos hour, regLoop, if_pos (.inr hour)]
    · rw [if_neg hour, regLoop, if_neg (by simp [wheelSize]; omega), regLoop, if_pos (.inl rfl)]
      rfl

/-- The distance that `_reg` works with at tick `i`: one too short until the clock wraps. -/
def remainAfter (last n i : Nat) : Nat :=
  if last + i < 2 ^ 64 ∧ 2 ^ 64 ≤ last + n then n - i - 1 else n - i

/-- The expiry is not further from tick `i` than one hour of clock lead and the largest
period. -/
structure Near (last n i : Nat) : Prop where
  small : last < 2 ^ 64
  wide : n < 2 ^ 64
  reach : n ≤ i + 90000000

theorem Near.later {last n i j : Nat} (near : Near last n i) (le : i ≤ j) : Near last n j :=
  ⟨near.small, near.wide, near.reach.trans (Nat.add_le_add_right le _)⟩

theorem cal_remain_after {last n i : Nat} (near : Near last n i) (early : i ≤ n) :
    calRemain ((last + i) % 2 ^ 64) (calExpire last n) % 2 ^ 32 = remainAfter last n i := by
  obtain ⟨small, wide, reach⟩ := near
  unfold calRemain calExpire remainAfter rewindingTime
  split_ifs <;> omega

/-- A timer placed at tick `i` ends in time: the clock does not wrap before it ends, or has
wrapped, or will have when an upper wheel hands the timer down for the last time. -/
def Fine (last n e i : Nat) : Prop :=
  2 ^ 64 ≤ last + i ∨ last + n < 2 ^ 64 ∨
    1001 < n - i ∧ 2 ^ 64 ≤ last + ((e + n - 2) / 1000 * 1000 - e)

instance (last n e i : Nat) : Decidable (Fine last n e i) :=
  inferInstanceAs (Decidable (_ ∨ _ ∨ _ ∧ _))

/-- The tick at which the callback of a timer placed at tick `i` is entered. -/
def target (last n e i : Nat) : Nat := if Fine last n e i then n else n - 1

/-- The tick of the manager at which a wheel makes its turn. -/
def visit : WheelType → Nat → Nat
  | .sec, turn => turn
  | .hour, turn => 1000 * turn
  | .day, turn => 1000 * (3600 * turn - 1)

/-- After `q` ticks the upper wheels have made so many turns, and miss none but the one that
falls to this tick. -/
structure Clock (q : Nat) (turns : WheelType → Nat) (cursors : WheelType → Int) : Prop where
  sec : cursors .sec = secCursor q
  upper : ∀ wtype ≠ .sec, cursors wtype = (turns wtype % wheelSize wtype : Nat)
  hourMade : 1000 * turns .hour ≤ q
  dayMade : 3600 * turns .day ≤ turns .hour + 1
  due : ∀ wtype ≠ .sec, q ≤ visit wtype (turns wtype + 1)

def Rests (last n e : Nat) (turns : WheelType → Nat) (i final : Nat) : WheelType → Nat → Prop
  | .sec, slot => i < final ∧ final ≤ i + 1000 ∧ (e + final - 1) % 1000 = slot
  | wtype, slot => ∃ turn j, turns wtype < turn ∧ turn ≤ turns wtype + wheelSize wtype ∧
      turn % wheelSize wtype = slot ∧ e + j = visit wtype turn ∧ j < final ∧
      target last n e j = final

def Settled (q : Nat) (turns : WheelType → Nat) : Prop :=
  ∀ wtype ≠ .sec, q < visit wtype (turns wtype + 1)

theorem visit_mono (wtype : WheelType) {earlier later : Nat} (le : earlier ≤ later) :
    visit wtype earlier ≤ visit wtype later := by
  cases wtype <;> simp only [visit] <;> omega

section Placing

variable {last n e i : Nat}

theorem target_next {j : Nat} (far : 1000 < remainAfter last n i) (later : i ≤ j)
    (early : j < i + remainAfter last n i) (whole : (e + j) % 1000 = 0) :
    target last n e j = target last n e i := by
  unfold target
  congr 1
  unfold Fine remainAfter at *
  apply propext
  split_ifs at far early <;> omega

theorem target_early {j : Nat} (later : i ≤ j) (early : j < i + remainAfter last n i) :
    j < target last n e i := by
  unfold target
  split_ifs with fine
  · unfold remainAfter at early
    split_ifs at early <;> omega
  · unfold Fine at fine
    rw [remainAfter, if_pos (by omega)] at early
    omega

theorem target_near (some_ : 0 < remainAfter last n i) (near : remainAfter last n i ≤ 1000) :
    target last n e i = i + remainAfter last n i := by
  unfold target
  split_ifs with fine
  · unfold Fine at fine
    unfold remainAfter at *
    split_ifs at * <;> omega
  · unfold Fine at fine
    rw [remainAfter, if_pos (by omega)] at *
    omega

theorem reg_rests {turns : WheelType → Nat} {cursors : WheelType → Int}
    (clock : Clock (e + i) turns cursors) (near : Near last n i)
    (some_ : 0 < remainAfter last n i) :
    Rests last n e turns i (target last n e i) (regWheel (remainAfter last n i)).1
      (regSlot (cursors (regWheel (remainAfter last n i)).1) (regWheel (remainAfter last n i)).2
        (wheelSize (regWheel (remainAfter last n i)).1)) := by
  have hourMade := clock.hourMade
  have dayMade := clock.dayMade
  have hourDue : e + i ≤ 1000 * (turns .hour + 1) := clock.due .hour nofun
  have dayDue : e + i ≤ 1000 * (3600 * (turns .day + 1) - 1) := clock.due .day nofun
  have bound : remainAfter last n i ≤ 90000000 := by
    have reach := near.reach
    unfold remainAfter
    split_ifs <;> omega
  have next := @target_next last n e i
  have early := @target_early last n e i
  have ends := target_near (e := e) some_
  generalize remainAfter last n i = remain at *
  unfold regWheel
  by_cases second : remain ≤ 1000
  · rw [if_pos second, ends second]
    simp only [clock.sec, wheelSize]
    rw [reg_slot_sec _ _ some_ second]
    exact ⟨by omega, by omega, by congr 1; omega⟩
  · rw [if_neg second]
    by_cases hour : (remain - 1) / 1000 ≤ 3600
    · obtain ⟨j, meets⟩ : ∃ j, e + j = 1000 * (turns .hour + (remain - 1) / 1000) :=
        ⟨_, Nat.add_sub_of_le (by omega)⟩
      rw [if_pos hour]
      simp only [clock.upper .hour nofun, wheelSize]
      rw [reg_slot_turn _ _ 3600 hour (by omega) (by omega)]
      exact ⟨_, j, by omega, by simp only [wheelSize]; omega, rfl, meets,
        early (by omega) (by omega), next (by omega) (by omega) (by omega) (by omega)⟩
    · have days : ((remain - 1) / 1000 - 1) / 3600 ≤ 24 := by omega
      obtain ⟨j, meets⟩ : ∃ j, e + j =
          1000 * (3600 * (turns .day + ((remain - 1) / 1000 - 1) / 3600) - 1) :=
        ⟨_, Nat.add_sub_of_le (by omega)⟩
      rw [if_neg hour]
      simp only [clock.upper .day nofun, wheelSize]
      rw [reg_slot_turn _ _ 24 days (by omega) (by omega)]
      exact ⟨_, j, by omega, by simp only [wheelSize]; omega, rfl, meets,
        early (by omega) (by omega), next (by omega) (by omega) (by omega) (by omega)⟩

theorem remain_pos (early : i < target last n e i) : 0 < remainAfter last n i := by
  unfold target at early
  unfold remainAfter
  split_ifs at early with fine
  · unfold Fine at fine
    split_ifs <;> omega
  · split_ifs <;> omega

variable {final : Nat} {turns : WheelType → Nat}

theorem rests_upper {wtype : WheelType} (upper : wtype ≠ .sec) (slot : Nat) :
    Rests last n e turns i final wtype slot ↔
      ∃ turn j, turns wtype < turn ∧ turn ≤ turns wtype + wheelSize wtype ∧
        turn % wheelSize wtype = slot ∧ e + j = visit wtype turn ∧ j < final ∧
        target last n e j = final := by
  cases wtype with
  | sec => exact absurd rfl upper
  | _ => exact Iff.rfl

theorem Rests.stays {which wtype : WheelType} {slot : Nat}
    (rests : Rests last n e turns i final which slot) (upper : wtype ≠ .sec)
    (elsewhere : ¬(which = wtype ∧ slot = (turns wtype + 1) % wheelSize wtype)) :
    Rests last n e (update turns wtype (turns wtype + 1)) i final which slot := by
  by_cases same : which = wtype
  · subst same
    obtain ⟨turn, j, later, near, residue, rest⟩ := (rests_upper upper slot).mp rests
    apply (rests_upper upper slot).mpr
    rw [update_self]
    refine ⟨turn, j, ?_, by omega, residue, rest⟩
    apply Nat.lt_of_le_of_ne later
    intro now
    exact elsewhere ⟨rfl, residue.symm.trans (by rw [← now])⟩
  · by_cases lower : which = .sec
    · subst lower
      exact rests
    · apply (rests_upper lower slot).mpr
      rw [update_of_ne same]
      exact (rests_upper lower slot).mp rests

theorem rests_inside {last n e i final : Nat} {turns : WheelType → Nat} {wtype : WheelType}
    {slot : Nat} (rests : Rests last n e turns i final wtype slot) : slot < wheelSize wtype := by
  cases wtype with
  | sec =>
    obtain ⟨-, -, rfl⟩ := rests
    exact Nat.mod_lt _ (by decide)
  | hour =>
    obtain ⟨turn, j, -, -, rfl, -⟩ := rests
    exact Nat.mod_lt _ (by decide)
  | day =>
    obtain ⟨turn, j, -, -, rfl, -⟩ := rests
    exact Nat.mod_lt _ (by decide)

theorem reg_inside {q remain : Nat} {cursors : WheelType → Int} (clock : Clock q turns cursors)
    (some_ : 0 < remain) (near : remain ≤ 90000000) :
    regSlot (cursors (regWheel remain).1) (regWheel remain).2 (wheelSize (regWheel remain).1) <
      wheelSize (regWheel remain).1 := by
  have whole : remainAfter 0 remain 0 = remain := if_neg (by omega)
  have rests := @reg_rests 0 remain q 0 turns cursors clock ⟨by omega, by omega, by omega⟩
    (whole.symm ▸ some_)
  rw [whole] at rests
  exact rests_inside rests

end Placing

theorem next_turn {size made turn : Nat} (later : made < turn) (near : turn ≤ made + size)
    (same : turn % size = (made + 1) % size) : turn = made + 1 := by
  have whole := Nat.sub_mod_eq_zero_of_mod_eq same
  rw [Nat.mod_eq_of_lt (by omega)] at whole
  omega

theorem advance_turn {wtype : WheelType} (upper : wtype ≠ .sec) (made : Nat) :
    advanceCur ((made % wheelSize wtype : Nat) : Int) (wheelSize wtype) =
      ((made + 1) % wheelSize wtype : Nat) := by
  unfold advanceCur
  cases wtype with
  | sec => exact absurd rfl upper
  | hour =>
    simp only [wheelSize]
    split_ifs <;> omega
  | day =>
    simp only [wheelSize]
    split_ifs <;> omega

theorem advance_sec (q : Nat) : advanceCur (secCursor q) 1000 = (q % 1000 : Nat) := by
  unfold advanceCur secCursor
  split_ifs <;> omega

theorem sec_cursor_succ (q : Nat) : secCursor (q + 1) = (q % 1000 : Nat) := by
  unfold secCursor
  split_ifs <;> omega

end Chuck.TimerWheelPlacement
