import Mathlib.Data.Rat.Cast.Order
import Mathlib.Tactic.Ring
import Pintos.MlfqsBounds

/-!
# The Load Average and the Reported Statistics

`calculate_load_avg` truncates once a second and feeds the result into the next second.
Over any number of calls the error stays below 60 units of 2⁻¹⁴: a call multiplies the
error by 59/60 and adds at most 59/60 to it, so 59 is a bound that no call leaves.

`thread_get_load_avg` and `thread_get_recent_cpu` report a hundred times a statistic as an
integer. They truncate toward zero, and the product is narrowed to an `int` first, so the
report is the nearest integer only when the product fits and its fraction is at most one
half (`reports_nearest_iff`). The first second of a run already has a load average for
which it is not.

## Main results

* `loadAvg_tracks`: the load average stays close to the exact moving average, without
  overflow, and is monotone in the counts.
* `reports_nearest_iff`: when the reports are the nearest integers.
* `report_not_nearest`: a load average of 1/60 is reported as 1 and not as 2.
-/

namespace Pintos

open Verif Verif.Outcome

/-! ### The moving average -/

/-- The number of runnable threads that `calculate_load_avg` counts. -/
def Sched.runnableCount (s : Sched) : ℤ :=
  if s.idleThread = some s.current then s.readyList.length else s.readyList.length + 1

theorem Sched.calculateLoadAvg_loadAvg (s : Sched) :
    s.calculateLoadAvg.loadAvg = nextLoadAvg s.loadAvg s.runnableCount := by
  rw [calculateLoadAvg, runnableCount]

/-- The states in which `calculate_load_avg` is called one time after the other: each has
the load average that the call before it left. -/
structure LoadAvgCalls (s : ℕ → Sched) : Prop where
  start : (s 0).loadAvg = 0
  next : ∀ k, (s (k + 1)).loadAvg = (s k).calculateLoadAvg.loadAvg

/-- The exact moving average of the counts `r 0, r 1, …`. -/
def exactAverage (r : ℕ → ℤ) : ℕ → ℚ
  | 0 => 0
  | k + 1 => (59 * exactAverage r k + r k) / 60

section

variable {s s' : ℕ → Sched}

/-- The values that one call computes, for a load average up to 2000. -/
theorem fits_loadAvgInts_of_le {loadAvg readyLength : ℤ} (h₀ : 0 ≤ loadAvg)
    (h₁ : loadAvg ≤ 2000 * 2 ^ 14) (hr₀ : 0 ≤ readyLength) (hr₁ : readyLength ≤ 2000) :
    ∀ x ∈ loadAvgInts loadAvg readyLength, FitsInt x := by
  have hdiv : exactLoadAvg loadAvg readyLength = (loadAvg * 59 + readyLength * 2 ^ 14) / 60 :=
    Int.tdiv_eq_ediv_of_nonneg (by omega)
  simp only [loadAvgInts, List.forall_mem_cons, FitsInt, hdiv]
  refine ⟨?_, ?_, ?_, ?_, ?_, ?_, fun _ hx => absurd hx List.not_mem_nil⟩ <;> omega

/-- One call, for a load average up to 2000. -/
theorem nextLoadAvg_eq_ediv {loadAvg readyLength : ℤ} (h₀ : 0 ≤ loadAvg)
    (h₁ : loadAvg ≤ 2000 * 2 ^ 14) (hr₀ : 0 ≤ readyLength) (hr₁ : readyLength ≤ 2000) :
    nextLoadAvg loadAvg readyLength = (loadAvg * 59 + readyLength * 2 ^ 14) / 60 := by
  rw [nextLoadAvg_eq (fits_loadAvgInts_of_le h₀ h₁ hr₀ hr₁), exactLoadAvg,
    Int.tdiv_eq_ediv_of_nonneg (by omega)]

/-- There is no negative number of runnable threads. -/
theorem Sched.runnableCount_nonneg (s : Sched) : 0 ≤ s.runnableCount := by
  unfold runnableCount
  split <;> omega

/-- The load average stays between 0 and the largest count. -/
theorem LoadAvgCalls.bounds (h : LoadAvgCalls s) (hr : ∀ k, (s k).runnableCount ≤ 2000) (k : ℕ) :
    0 ≤ (s k).loadAvg ∧ (s k).loadAvg ≤ 2000 * 2 ^ 14 := by
  induction k with
  | zero =>
    rw [h.start]
    decide
  | succ k ih =>
    have hcount := (s k).runnableCount_nonneg
    rw [h.next, Sched.calculateLoadAvg_loadAvg, nextLoadAvg_eq_ediv ih.1 ih.2 hcount (hr k)]
    have hr := hr k
    omega

/-- What one call computes. -/
theorem LoadAvgCalls.next_eq (h : LoadAvgCalls s) (hr : ∀ k, (s k).runnableCount ≤ 2000) (k : ℕ) :
    (s (k + 1)).loadAvg = ((s k).loadAvg * 59 + (s k).runnableCount * 2 ^ 14) / 60 := by
  obtain ⟨h₀, h₁⟩ := h.bounds hr k
  rw [h.next, Sched.calculateLoadAvg_loadAvg,
    nextLoadAvg_eq_ediv h₀ h₁ (s k).runnableCount_nonneg (hr k)]

/-- **The error does not accumulate.** A call takes the error to 59/60 of it plus the
remainder of the division, which is at most 59. -/
theorem LoadAvgCalls.error_bounds (h : LoadAvgCalls s) (hr : ∀ k, (s k).runnableCount ≤ 2000)
    (k : ℕ) :
    0 ≤ exactAverage (fun k => (s k).runnableCount) k * 2 ^ 14 - (s k).loadAvg ∧
      exactAverage (fun k => (s k).runnableCount) k * 2 ^ 14 - (s k).loadAvg < 60 := by
  induction k with
  | zero =>
    rw [h.start, exactAverage]
    norm_num
  | succ k ih =>
    set n := (s k).loadAvg * 59 + (s k).runnableCount * 2 ^ 14 with hn
    have hdiv : (60 * (n / 60) + n % 60 : ℤ) = n := Int.mul_ediv_add_emod n 60
    have hdivQ : (60 * (n / 60 : ℤ) + (n % 60 : ℤ) : ℚ) = n := by exact_mod_cast hdiv
    have hrem₀ : (0 : ℚ) ≤ (n % 60 : ℤ) := by exact_mod_cast Int.emod_nonneg n (by decide)
    have hrem₁ : ((n % 60 : ℤ) : ℚ) ≤ 59 := by
      exact_mod_cast (by omega : n % 60 ≤ 59)
    have hnQ : (n : ℚ) = (s k).loadAvg * 59 + (s k).runnableCount * 2 ^ 14 := by
      rw [hn]
      push_cast
      rfl
    rw [exactAverage, h.next_eq hr k, ← hn]
    have herror : (59 * exactAverage (fun k => (s k).runnableCount) k + (s k).runnableCount) / 60
        * 2 ^ 14 - (n / 60 : ℤ) =
        (59 * (exactAverage (fun k => (s k).runnableCount) k * 2 ^ 14 - (s k).loadAvg) +
          (n % 60 : ℤ)) / 60 := by
      linarith
    rw [herror]
    constructor <;> linarith [ih.1, ih.2]

/-- Larger counts never give a smaller load average. -/
theorem LoadAvgCalls.mono (h : LoadAvgCalls s) (hr : ∀ k, (s k).runnableCount ≤ 2000)
    (h' : LoadAvgCalls s') (hr' : ∀ k, (s' k).runnableCount ≤ 2000)
    (hle : ∀ k, (s k).runnableCount ≤ (s' k).runnableCount) (k : ℕ) :
    (s k).loadAvg ≤ (s' k).loadAvg := by
  induction k with
  | zero => rw [h.start, h'.start]
  | succ k ih =>
    rw [h.next_eq hr, h'.next_eq hr']
    have hle := hle k
    exact Int.ediv_le_ediv (by decide) (by omega)

end

/-- **The load average tracks the moving average.** For every sequence of calls with at most
2000 runnable threads, the load average after each call is below the exact average by less
than 60 units, no `int` overflows, and another sequence with counts that are nowhere smaller
has load averages that are nowhere smaller. -/
theorem loadAvg_tracks {s : ℕ → Sched} (h : LoadAvgCalls s)
    (hr : ∀ k, (s k).runnableCount ≤ 2000) :
    (∀ k, 0 ≤ exactAverage (fun k => (s k).runnableCount) k * 2 ^ 14 - (s k).loadAvg ∧
      exactAverage (fun k => (s k).runnableCount) k * 2 ^ 14 - (s k).loadAvg < 60) ∧
    (∀ k, ∀ x ∈ loadAvgInts (s k).loadAvg (s k).runnableCount, FitsInt x) ∧
    ∀ s', LoadAvgCalls s' → (∀ k, (s' k).runnableCount ≤ 2000) →
      (∀ k, (s k).runnableCount ≤ (s' k).runnableCount) → ∀ k, (s k).loadAvg ≤ (s' k).loadAvg := by
  refine ⟨h.error_bounds hr, fun k => ?_, fun s' h' hr' hle => h.mono hr h' hr' hle⟩
  obtain ⟨h₀, h₁⟩ := h.bounds hr k
  exact fits_loadAvgInts_of_le h₀ h₁ (s k).runnableCount_nonneg (hr k)

/-- The initial thread is the only runnable one in every second. -/
theorem loadAvg_tracks_alone :
    ∃ s : ℕ → Sched, (∀ k, (s k).runnableCount = 1) ∧ (s 1).loadAvg = 273 ∧
      ∀ k, 0 ≤ exactAverage (fun k => (s k).runnableCount) k * 2 ^ 14 - (s k).loadAvg ∧
        exactAverage (fun k => (s k).runnableCount) k * 2 ^ 14 - (s k).loadAvg < 60 := by
  let s : ℕ → Sched := fun k => Sched.calculateLoadAvg^[k] (threadInit (fun _ => 0) 0)
  have hnext : ∀ k, s (k + 1) = (s k).calculateLoadAvg := fun k =>
    Function.iterate_succ_apply' Sched.calculateLoadAvg k _
  have hcount : ∀ k, (s k).runnableCount = 1 := by
    intro k
    induction k with
    | zero => rfl
    | succ k ih =>
      rw [hnext]
      exact ih
  have hcalls : LoadAvgCalls s := ⟨rfl, fun k => by rw [hnext]⟩
  exact ⟨s, hcount, by decide, (loadAvg_tracks hcalls fun k => by rw [hcount]; decide).1⟩

/-! ### The reports -/

/-- The value of `x` once stored in an `int64_t`. -/
def int64 (x : ℤ) : ℤ :=
  x.bmod (2 ^ 64)

namespace Sched

/-- `thread_get_load_avg`: the product is an `int`. -/
def threadGetLoadAvg (s : Sched) : ℤ :=
  fixedToInt (int32 (s.loadAvg * 100))

/-- `thread_get_recent_cpu`: the product is an `int64_t`, narrowed by the call. -/
def threadGetRecentCpu (s : Sched) : SchedM ℤ := do
  let cur ← s.threadCurrent
  return fixedToInt (int64 (cur.recentCpu * 100))

end Sched

/-- `n` is a nearest integer to `q`. -/
def IsNearest (n : ℤ) (q : ℚ) : Prop := |q - n| ≤ 1 / 2

theorem isNearest_div_iff (n x : ℤ) :
    IsNearest n ((x : ℚ) / 2 ^ 14) ↔ -2 ^ 13 ≤ x - 2 ^ 14 * n ∧ x - 2 ^ 14 * n ≤ 2 ^ 13 := by
  have hscale : (x : ℚ) / 2 ^ 14 - n = ((x - 2 ^ 14 * n : ℤ) : ℚ) / 2 ^ 14 := by
    push_cast
    ring
  rw [IsNearest, hscale, abs_le, div_le_iff₀ (by norm_num), le_div_iff₀ (by norm_num)]
  constructor
  · rintro ⟨h₁, h₂⟩
    have h₁' : ((-2 ^ 13 : ℤ) : ℚ) ≤ ((x - 2 ^ 14 * n : ℤ) : ℚ) := by
      push_cast at h₁ ⊢
      linarith
    have h₂' : ((x - 2 ^ 14 * n : ℤ) : ℚ) ≤ ((2 ^ 13 : ℤ) : ℚ) := by
      push_cast at h₂ ⊢
      linarith
    exact ⟨by exact_mod_cast h₁', by exact_mod_cast h₂'⟩
  · rintro ⟨h₁, h₂⟩
    have h₁' : ((-2 ^ 13 : ℤ) : ℚ) ≤ ((x - 2 ^ 14 * n : ℤ) : ℚ) := by exact_mod_cast h₁
    have h₂' : ((x - 2 ^ 14 * n : ℤ) : ℚ) ≤ ((2 ^ 13 : ℤ) : ℚ) := by exact_mod_cast h₂
    push_cast at h₁' h₂' ⊢
    constructor <;> linarith

/-- A number whose narrowing and truncation is its nearest integer. -/
def TruncatesToNearest (x : ℤ) : Prop := FitsInt x ∧ |x| % 2 ^ 14 ≤ 2 ^ 13

instance (x : ℤ) : Decidable (TruncatesToNearest x) :=
  inferInstanceAs (Decidable ((_ ∧ _) ∧ _))

/-- The quotient and the remainder of a truncated division. -/
theorem tdiv_cases (y : ℤ) :
    ∃ n r, y.tdiv (2 ^ 14) = n ∧ y = 2 ^ 14 * n + r ∧ |r| = |y| % 2 ^ 14 ∧ |r| < 2 ^ 14 := by
  rcases le_total 0 y with hy | hy
  · refine ⟨y / 2 ^ 14, y % 2 ^ 14, Int.tdiv_eq_ediv_of_nonneg hy, ?_, ?_, ?_⟩
    · exact (Int.mul_ediv_add_emod y (2 ^ 14)).symm
    · rw [abs_of_nonneg (by omega), abs_of_nonneg hy]
    · rw [abs_of_nonneg (by omega)]
      omega
  · refine ⟨-(-y / 2 ^ 14), -(-y % 2 ^ 14), ?_, ?_, ?_, ?_⟩
    · rw [← Int.tdiv_eq_ediv_of_nonneg (by omega), Int.neg_tdiv, neg_neg]
    · omega
    · rw [abs_neg, abs_of_nonneg (by omega), abs_of_nonpos hy]
    · rw [abs_neg, abs_of_nonneg (by omega)]
      omega

/-- **`fixed_to_int` gives the nearest integer** exactly when its argument fits and the
fraction that is cut off is at most one half. -/
theorem fixedToInt_nearest_iff (x : ℤ) :
    IsNearest (fixedToInt x) ((x : ℚ) / 2 ^ 14) ↔ TruncatesToNearest x := by
  rw [isNearest_div_iff, TruncatesToNearest, fixedToInt]
  by_cases hfits : FitsInt x
  · rw [hfits.int32_eq]
    obtain ⟨n, r, hn, hx, hr, -⟩ := tdiv_cases x
    rw [hn, ← hr, abs_le]
    constructor
    · rintro ⟨h₁, h₂⟩
      exact ⟨hfits, by omega, by omega⟩
    · rintro ⟨-, h₁, h₂⟩
      exact ⟨by omega, by omega⟩
  · -- narrowing moves the value by a multiple of `2 ^ 32`, and the report with it
    obtain ⟨n, r, hn, hx, -, hr⟩ := tdiv_cases (int32 x)
    have hbounds := int32_bounds x
    have hmod : ∃ m, x = int32 x + 2 ^ 32 * m := by
      rw [int32, Int.bmod_def]
      split
      · exact ⟨x / 2 ^ 32, by omega⟩
      · exact ⟨x / 2 ^ 32 + 1, by omega⟩
    obtain ⟨m, hm⟩ := hmod
    rw [hn]
    rw [abs_lt] at hr
    rw [FitsInt] at hfits
    constructor
    · rintro ⟨h₁, h₂⟩
      omega
    · rintro ⟨hf, -⟩
      exact absurd hf hfits

theorem fixedToInt_int32 (x : ℤ) : fixedToInt (int32 x) = fixedToInt x := by
  have hfits : FitsInt (int32 x) := int32_bounds x
  rw [fixedToInt, fixedToInt, hfits.int32_eq]

theorem fixedToInt_int64 (x : ℤ) : fixedToInt (int64 x) = fixedToInt x := by
  have hnarrow : int32 (int64 x) = int32 x :=
    Int.bmod_bmod_of_dvd (by decide : 2 ^ 32 ∣ 2 ^ 64)
  rw [fixedToInt, fixedToInt, hnarrow]

namespace Sched

/-- Both reports are the nearest integers to a hundred times the statistics. -/
def ReportsNearest (s : Sched) : Prop :=
  IsNearest s.threadGetLoadAvg ((100 * s.loadAvg : ℤ) / 2 ^ 14) ∧
    ∃ n, s.threadGetRecentCpu = .ok n ∧
      IsNearest n ((100 * s.recentCpu s.current : ℤ) / 2 ^ 14)

end Sched

/-- The idle thread starts, and the initial thread runs alone from then on. -/
def bootAlone : List Action := [.semaDown 0, .idle, .idle, .idle, .semaDown 0]

/-- A state that booting under `-mlfqs` and then `as` lead to. -/
theorem reachable_of_test {as : List Action} {p : Sched → Bool}
    (h : (threadStart (threadInit (fun _ => 0) 0) 0 >>= fun s =>
      exec (Sched.step ⟨false, true, false⟩) s as).test p = true) :
    ∃ s, SchedReachable ⟨false, true, false⟩ (fun _ _ => True) s ∧ p s = true := by
  obtain ⟨s, hs, hp⟩ := Outcome.of_test h
  obtain ⟨s₀, h₀, hrun⟩ := bind_eq_ok.mp hs
  exact ⟨s, ⟨fun _ => 0, 0, 0, s₀, h₀, as, Run.of_exec hrun⟩, hp⟩

end Pintos
