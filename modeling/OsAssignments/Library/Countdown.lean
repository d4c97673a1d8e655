import Mathlib

/-!
# Periodic countdowns

A countdown that is reloaded with its period each time it runs out: `Countdown.tick` counts down by
one and fires at the last tick before the reload. A countdown with nothing left stays silent.
Started at its period `n` it has fired `m / n` times after `m` ticks (`Countdown.fired_iterate`), so
it fires at the ticks that `n` divides (`Countdown.fires_iff`), and a countdown of period 0 never
fires.
-/

set_option autoImplicit false
set_option relaxedAutoImplicit false

namespace OsAssignments.Library

/-- The ticks left, the value that is reloaded, and the number of times it has fired. -/
@[ext] structure Countdown where
  left : ℕ
  period : ℕ
  fired : ℕ

namespace Countdown

/-- One tick. -/
def tick (c : Countdown) : Countdown where
  left := if c.left = 1 then c.period else c.left - 1
  period := c.period
  fired := c.fired + if c.left = 1 then 1 else 0

/-- A countdown that has just been set. -/
def Fresh (c : Countdown) : Prop := c.left = c.period

/-- The last residue before a multiple. -/
theorem sub_mod_eq_one_iff (n m : ℕ) : n - m % n = 1 ↔ n ∣ m + 1 := by
  rcases Nat.eq_zero_or_pos n with rfl | hpos
  · simp
  have hlt := Nat.mod_lt m hpos
  have hsplit : m + 1 = n * (m / n) + (m % n + 1) := by
    rw [← add_assoc, Nat.div_add_mod]
  rw [hsplit, Nat.dvd_add_right (Nat.dvd_mul_right n _)]
  constructor
  · intro h
    rw [show m % n + 1 = n by omega]
  · intro h
    have hle := Nat.le_of_dvd (Nat.succ_pos _) h
    omega

theorem succ_mod_of_not_dvd {n m : ℕ} (h : ¬n ∣ m + 1) (hpos : 0 < n) :
    (m + 1) % n = m % n + 1 := by
  have hlt := Nat.mod_lt m hpos
  have hne := mt (sub_mod_eq_one_iff n m).mp h
  conv_lhs => rw [← Nat.div_add_mod m n]
  rw [add_assoc, Nat.mul_add_mod, Nat.mod_eq_of_lt (by omega)]

variable {c : Countdown} {m : ℕ}

@[simp] theorem period_iterate : (tick^[m] c).period = c.period := by
  induction m with
  | zero => rfl
  | succ m ih => rw [Function.iterate_succ_apply', tick, ih]

/-- The ticks left after `m` ticks. -/
theorem left_iterate (hc : c.Fresh) : (tick^[m] c).left = c.period - m % c.period := by
  induction m with
  | zero =>
    rw [Nat.zero_mod, Nat.sub_zero]
    exact hc
  | succ m ih =>
    rw [Function.iterate_succ_apply', tick, ih, period_iterate]
    by_cases hdvd : c.period ∣ m + 1
    · rw [if_pos ((sub_mod_eq_one_iff _ _).mpr hdvd), Nat.mod_eq_zero_of_dvd hdvd, Nat.sub_zero]
    · rw [if_neg (mt (sub_mod_eq_one_iff _ _).mp hdvd)]
      rcases Nat.eq_zero_or_pos c.period with hzero | hpos
      · simp [hzero]
      · rw [succ_mod_of_not_dvd hdvd hpos, Nat.sub_add_eq]

/-- The ticks that fire are the multiples of the period. -/
theorem fires_iff (hc : c.Fresh) : (tick^[m] c).left = 1 ↔ c.period ∣ m + 1 := by
  rw [left_iterate hc, sub_mod_eq_one_iff]

theorem fired_iterate (hc : c.Fresh) : (tick^[m] c).fired = c.fired + m / c.period := by
  induction m with
  | zero =>
    rw [Nat.zero_div]
    rfl
  | succ m ih =>
    rw [Function.iterate_succ_apply', tick, ih, Nat.succ_div, add_assoc]
    simp only [fires_iff hc]

end Countdown

end OsAssignments.Library
