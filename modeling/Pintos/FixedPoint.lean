import Mathlib.Algebra.Order.Ring.Int

/-!
# 17.14 Fixed-Point Arithmetic of the Scheduler

The arithmetic helpers at the end of `threads/thread.c`. The C types are explicit: a
value stored in an `int`, returned as one or passed for an `int` parameter goes through
`int32`, the two's-complement wrap to 32 bits, while the products and quotients the
source computes in `int64_t` are exact before they are returned. Division truncates
toward zero.

`mlfqsPriority` is the computation `thread_set_nice` and `calculate_priority` share.
-/

namespace Pintos

/-- The value of `x` once stored in a 32-bit `int`. -/
def int32 (x : ℤ) : ℤ :=
  x.bmod (2 ^ 32)

theorem int32_of_bounds {x : ℤ} (h₁ : -2 ^ 31 ≤ x) (h₂ : x < 2 ^ 31) : int32 x = x :=
  Int.bmod_eq_of_le (by omega) (by omega)

theorem int32_bounds (x : ℤ) : -2 ^ 31 ≤ int32 x ∧ int32 x < 2 ^ 31 := by
  rw [int32, Int.bmod_def]
  omega

/-- `PRI_MIN`. -/
def priMin : ℤ := 0

/-- `PRI_DEFAULT`. -/
def priDefault : ℤ := 31

/-- `PRI_MAX`. -/
def priMax : ℤ := 63

/-- `enum cal`: the operation a fixed-point helper performs. -/
inductive Cal where
  | add
  | sub
  | mul
  | div
  deriving DecidableEq, Repr

/-- `fixed_to_int`. -/
def fixedToInt (fixed : ℤ) : ℤ :=
  (int32 fixed).tdiv (2 ^ 14)

/-- `fixed_cal_int`: a fixed-point number with an integer. -/
def fixedCalInt (fixed num : ℤ) : Cal → ℤ
  | .add => int32 (int32 fixed + int32 (int32 num * 2 ^ 14))
  | .sub => int32 (int32 fixed - int32 (int32 num * 2 ^ 14))
  | .mul => int32 (int32 fixed * int32 num)
  | .div => int32 ((int32 fixed).tdiv (int32 num))

/-- `int_cal_fixed`: an integer with a fixed-point number; only subtraction is
implemented. -/
def intCalFixed (num fixed : ℤ) : Cal → ℤ
  | .sub => int32 (int32 (int32 num * 2 ^ 14) - int32 fixed)
  | _ => 0

/-- `fixed_cal_fixed`: two fixed-point numbers; products and quotients are computed in
64 bits. -/
def fixedCalFixed (fixed₁ fixed₂ : ℤ) : Cal → ℤ
  | .add => int32 (int32 fixed₁ + int32 fixed₂)
  | .sub => int32 (int32 fixed₁ - int32 fixed₂)
  | .mul => int32 ((int32 fixed₁ * int32 fixed₂).tdiv (2 ^ 14))
  | .div => int32 ((int32 fixed₁ * 2 ^ 14).tdiv (int32 fixed₂))

/-- The priority `PRI_MAX - recent_cpu / 4 - 2 * nice`, truncated and clamped, as
`thread_set_nice` and `calculate_priority` compute it. -/
def mlfqsPriority (recentCpu nice : ℤ) : ℤ :=
  let term := fixedCalInt recentCpu 4 .div
  let term := fixedCalInt term (int32 (nice * 2)) .add
  let newPriority := fixedToInt (intCalFixed priMax term .sub)
  if priMax < newPriority then priMax
  else if newPriority < priMin then priMin
  else newPriority

/-- The new load average, from the old one and the number of runnable threads. -/
def nextLoadAvg (loadAvg readyLength : ℤ) : ℤ :=
  fixedCalInt (fixedCalInt (fixedCalInt loadAvg 59 .mul) readyLength .add) 60 .div

/-- One thread's new `recent_cpu`, from the load average, its old value and its nice
value. -/
def nextRecentCpu (loadAvg recentCpu nice : ℤ) : ℤ :=
  let term := fixedCalFixed (int32 (2 * loadAvg)) (fixedCalInt (int32 (2 * loadAvg)) 1 .add) .div
  let term := fixedCalFixed term recentCpu .mul
  fixedCalInt term nice .add

end Pintos
