import Mathlib.Data.List.Perm.Subperm
import Mathlib.Tactic.Linarith
import Pintos.SchedulerClocks

/-!
# The 4.4BSD Arithmetic Does Not Overflow

The recalculations of the timer tick store 17.14 fixed-point numbers in `int`s, and wrap
around when one does not fit. The formulas are stated here a second time over the
integers, beside the list of the `int` values that the source computes on the way. As long
as there are at most 500 threads and the nice values stay in the documented range, all of
these fit: the load average is a moving average of numbers up to 500, so the factor by
which `recent_cpu` decays stays below one by at least 17 of its 2¹⁴ units, which outweighs
the 100 ticks and the nice value that a second can add.

## Main results

* `Bounded.step`: every step keeps the bounds on the load average and on `recent_cpu`.
* `mlfqs_no_overflow`: in every reachable state the next tick computes what the formulas
  over the integers say.
-/

namespace Pintos

open Verif Verif.Outcome Function List

variable {loadAvg recentCpu : ℤ}

/-- A value of the type `int`. -/
def FitsInt (x : ℤ) : Prop := -2 ^ 31 ≤ x ∧ x < 2 ^ 31

theorem FitsInt.int32_eq {x : ℤ} (h : FitsInt x) : int32 x = x := int32_of_bounds h.1 h.2

/-! ### The formulas over the integers -/

/-- The load average, over the integers. -/
def exactLoadAvg (loadAvg readyLength : ℤ) : ℤ :=
  (loadAvg * 59 + readyLength * 2 ^ 14).tdiv 60

/-- The `int` values of `calculate_load_avg`. -/
def loadAvgInts (loadAvg readyLength : ℤ) : List ℤ :=
  [loadAvg, loadAvg * 59, readyLength, readyLength * 2 ^ 14, loadAvg * 59 + readyLength * 2 ^ 14,
    exactLoadAvg loadAvg readyLength]

/-- The factor `2 * load_avg / (2 * load_avg + 1)`, over the integers. -/
def decayFactor (loadAvg : ℤ) : ℤ :=
  (2 * loadAvg * 2 ^ 14).tdiv (2 * loadAvg + 2 ^ 14)

/-- A thread's `recent_cpu`, over the integers. -/
def exactRecentCpu (loadAvg recentCpu nice : ℤ) : ℤ :=
  (decayFactor loadAvg * recentCpu).tdiv (2 ^ 14) + nice * 2 ^ 14

/-- The `int` values of `calculate_recent_cpu`, for one thread. -/
def recentCpuInts (loadAvg recentCpu nice : ℤ) : List ℤ :=
  [2 * loadAvg, 2 * loadAvg + 2 ^ 14, decayFactor loadAvg, recentCpu,
    (decayFactor loadAvg * recentCpu).tdiv (2 ^ 14), nice, nice * 2 ^ 14,
    exactRecentCpu loadAvg recentCpu nice]

/-- A thread's priority before it is clamped, over the integers. -/
def unclampedPriority (recentCpu nice : ℤ) : ℤ :=
  (priMax * 2 ^ 14 - (recentCpu.tdiv 4 + nice * 2 * 2 ^ 14)).tdiv (2 ^ 14)

/-- A thread's priority, over the integers. -/
def exactPriority (recentCpu nice : ℤ) : ℤ :=
  max priMin (min priMax (unclampedPriority recentCpu nice))

/-- The `int` values of `calculate_priority`, for one thread. -/
def priorityInts (recentCpu nice : ℤ) : List ℤ :=
  [recentCpu, recentCpu.tdiv 4, nice * 2, nice * 2 * 2 ^ 14, recentCpu.tdiv 4 + nice * 2 * 2 ^ 14,
    priMax * 2 ^ 14 - (recentCpu.tdiv 4 + nice * 2 * 2 ^ 14), unclampedPriority recentCpu nice]

/-- The `int` values of `thread_aging`. -/
def agingInts (recentCpu : ℤ) : List ℤ :=
  [recentCpu, recentCpu + 2 ^ 14]

/-! ### Arithmetic that fits is exact -/

theorem nextLoadAvg_eq {readyLength : ℤ} (h : ∀ x ∈ loadAvgInts loadAvg readyLength, FitsInt x) :
    nextLoadAvg loadAvg readyLength = exactLoadAvg loadAvg readyLength := by
  simp only [loadAvgInts, forall_mem_cons] at h
  obtain ⟨h₁, h₂, h₃, h₄, h₅, h₆, -⟩ := h
  have h59 : int32 59 = 59 := rfl
  have h60 : int32 60 = 60 := rfl
  simp only [nextLoadAvg, fixedCalInt, h59, h60, h₁.int32_eq, h₂.int32_eq, h₃.int32_eq,
    h₄.int32_eq, h₅.int32_eq]
  exact h₆.int32_eq

theorem nextRecentCpu_eq {nice : ℤ} (h : ∀ x ∈ recentCpuInts loadAvg recentCpu nice, FitsInt x) :
    nextRecentCpu loadAvg recentCpu nice = exactRecentCpu loadAvg recentCpu nice := by
  simp only [recentCpuInts, forall_mem_cons] at h
  obtain ⟨h₁, h₂, h₃, h₄, h₅, h₆, h₇, h₈, -⟩ := h
  have hone : int32 (int32 1 * 2 ^ 14) = 2 ^ 14 := rfl
  have hfactor : Int.tdiv (2 * loadAvg * 2 ^ 14) (2 * loadAvg + 2 ^ 14) = decayFactor loadAvg := rfl
  simp only [nextRecentCpu, fixedCalInt, fixedCalFixed, hone, h₁.int32_eq, h₂.int32_eq, hfactor,
    h₃.int32_eq, h₄.int32_eq, h₅.int32_eq, h₆.int32_eq, h₇.int32_eq]
  exact h₈.int32_eq

theorem age_eq (h : ∀ x ∈ agingInts recentCpu, FitsInt x) :
    fixedCalInt recentCpu 1 .add = recentCpu + 2 ^ 14 := by
  simp only [agingInts, forall_mem_cons] at h
  obtain ⟨h₁, h₂, -⟩ := h
  have hone : int32 (int32 1 * 2 ^ 14) = 2 ^ 14 := rfl
  simp only [fixedCalInt, hone, h₁.int32_eq]
  exact h₂.int32_eq

theorem mlfqsPriority_eq {nice : ℤ} (h : ∀ x ∈ priorityInts recentCpu nice, FitsInt x) :
    mlfqsPriority recentCpu nice = exactPriority recentCpu nice := by
  simp only [priorityInts, forall_mem_cons] at h
  obtain ⟨h₁, h₂, h₃, h₄, h₅, h₆, -, -⟩ := h
  have h4 : int32 4 = 4 := rfl
  have hmax : int32 (int32 priMax * 2 ^ 14) = priMax * 2 ^ 14 := rfl
  have hterm : fixedToInt (intCalFixed priMax (fixedCalInt (fixedCalInt recentCpu 4 .div)
      (int32 (nice * 2)) .add) .sub) = unclampedPriority recentCpu nice := by
    simp only [fixedToInt, intCalFixed, fixedCalInt, h4, hmax, h₁.int32_eq, h₂.int32_eq,
      h₃.int32_eq, h₄.int32_eq, h₅.int32_eq, h₆.int32_eq]
    rfl
  rw [mlfqsPriority, exactPriority]
  simp only [hterm]
  generalize unclampedPriority recentCpu nice = new
  have h63 : priMax = 63 := rfl
  have h0 : priMin = 0 := rfl
  split
  · omega
  · split <;> omega

/-! ### Bounds -/

/-- The largest `recent_cpu` right after it has decayed. -/
def recentCpuMax : ℤ := 1893200114

/-- The smallest `recent_cpu`, negated. -/
def recentCpuMin : ℤ := 315806419

/-- The load average stays below the number of threads that were ready. -/
theorem exactLoadAvg_bounds {readyLength : ℤ} (h₀ : 0 ≤ loadAvg) (h₁ : loadAvg ≤ 500 * 2 ^ 14)
    (hr₀ : 0 ≤ readyLength) (hr₁ : readyLength ≤ 500) :
    0 ≤ exactLoadAvg loadAvg readyLength ∧ exactLoadAvg loadAvg readyLength ≤ 500 * 2 ^ 14 := by
  rw [exactLoadAvg, Int.tdiv_eq_ediv_of_nonneg (by omega)]
  omega

theorem fits_loadAvgInts {readyLength : ℤ} (h₀ : 0 ≤ loadAvg) (h₁ : loadAvg ≤ 500 * 2 ^ 14)
    (hr₀ : 0 ≤ readyLength) (hr₁ : readyLength ≤ 500) :
    ∀ x ∈ loadAvgInts loadAvg readyLength, FitsInt x := by
  have hnew := exactLoadAvg_bounds h₀ h₁ hr₀ hr₁
  simp only [loadAvgInts, forall_mem_cons, FitsInt]
  refine ⟨?_, ?_, ?_, ?_, ?_, ?_, fun _ hx => absurd hx not_mem_nil⟩ <;> omega

/-- The decay: 16367 of 16384 units of the old value at most. -/
theorem decayFactor_bounds (h₀ : 0 ≤ loadAvg) (h₁ : loadAvg ≤ 500 * 2 ^ 14) :
    0 ≤ decayFactor loadAvg ∧ decayFactor loadAvg ≤ 16367 := by
  rw [decayFactor, Int.tdiv_eq_ediv_of_nonneg (by omega)]
  refine ⟨Int.ediv_nonneg (by omega) (by omega), ?_⟩
  rw [← Int.lt_add_one_iff]
  exact Int.ediv_lt_of_lt_mul (by omega) (by omega)

section

variable {loadAvg recentCpu nice : ℤ} (h₀ : 0 ≤ loadAvg) (h₁ : loadAvg ≤ 500 * 2 ^ 14)
  (hmin : -recentCpuMin ≤ recentCpu) (hmax : recentCpu ≤ recentCpuMax + 100 * 2 ^ 14)
  (hn₀ : -20 ≤ nice) (hn₁ : nice ≤ 20)
include h₀ h₁ hmin hmax

/-- What is left of a `recent_cpu` after the decay. -/
theorem decayed_bounds :
    -recentCpuMin + 20 * 2 ^ 14 ≤ (decayFactor loadAvg * recentCpu).tdiv (2 ^ 14) ∧
      (decayFactor loadAvg * recentCpu).tdiv (2 ^ 14) ≤ recentCpuMax - 20 * 2 ^ 14 := by
  obtain ⟨hf₀, hf₁⟩ := decayFactor_bounds h₀ h₁
  have hupper : decayFactor loadAvg * recentCpu ≤ 16367 * (recentCpuMax + 100 * 2 ^ 14) := by
    unfold recentCpuMax recentCpuMin at *
    nlinarith
  have hlower : -(16367 * recentCpuMin) ≤ decayFactor loadAvg * recentCpu := by
    unfold recentCpuMax recentCpuMin at *
    nlinarith
  constructor
  · calc -recentCpuMin + 20 * 2 ^ 14 ≤ (-(16367 * recentCpuMin)).tdiv (2 ^ 14) := by decide
      _ ≤ _ := Int.tdiv_le_tdiv (by decide) hlower
  · calc (decayFactor loadAvg * recentCpu).tdiv (2 ^ 14)
        ≤ (16367 * (recentCpuMax + 100 * 2 ^ 14)).tdiv (2 ^ 14) :=
          Int.tdiv_le_tdiv (by decide) hupper
      _ ≤ recentCpuMax - 20 * 2 ^ 14 := by decide

include hn₀ hn₁

/-- **The decay makes up for a second**: what the ticks and the nice value add is gone. -/
theorem exactRecentCpu_bounds :
    -recentCpuMin ≤ exactRecentCpu loadAvg recentCpu nice ∧
      exactRecentCpu loadAvg recentCpu nice ≤ recentCpuMax := by
  have hdecayed := decayed_bounds h₀ h₁ hmin hmax
  rw [exactRecentCpu]
  omega

theorem fits_recentCpuInts : ∀ x ∈ recentCpuInts loadAvg recentCpu nice, FitsInt x := by
  have hfactor := decayFactor_bounds h₀ h₁
  have hdecayed := decayed_bounds h₀ h₁ hmin hmax
  have hnew := exactRecentCpu_bounds h₀ h₁ hmin hmax hn₀ hn₁
  simp only [recentCpuInts, forall_mem_cons, FitsInt]
  unfold recentCpuMax recentCpuMin at *
  refine ⟨?_, ?_, ?_, ?_, ?_, ?_, ?_, ?_, fun _ hx => absurd hx not_mem_nil⟩ <;> omega

end

theorem fits_agingInts (hmin : -recentCpuMin ≤ recentCpu)
    (hmax : recentCpu ≤ recentCpuMax + 99 * 2 ^ 14) : ∀ x ∈ agingInts recentCpu, FitsInt x := by
  simp only [agingInts, forall_mem_cons, FitsInt]
  unfold recentCpuMax recentCpuMin at *
  refine ⟨?_, ?_, fun _ hx => absurd hx not_mem_nil⟩ <;> omega

/-- Priorities are computed exactly from every `recent_cpu` that is an `int`. -/
theorem fits_priorityInts {nice : ℤ} (h : FitsInt recentCpu) (hn₀ : -20 ≤ nice) (hn₁ : nice ≤ 20) :
    ∀ x ∈ priorityInts recentCpu nice, FitsInt x := by
  have hmax : recentCpu.tdiv 4 ≤ 2 ^ 29 :=
    (Int.tdiv_le_tdiv (by decide) h.2.le).trans (by decide)
  have hmin : -2 ^ 29 ≤ recentCpu.tdiv 4 :=
    le_trans (by decide) (Int.tdiv_le_tdiv (c := 4) (by decide) h.1)
  have hterm : FitsInt (priMax * 2 ^ 14 - (recentCpu.tdiv 4 + nice * 2 * 2 ^ 14)) := by
    simp only [FitsInt, priMax]
    omega
  have hnew₁ : unclampedPriority recentCpu nice ≤ 2 ^ 17 :=
    (Int.tdiv_le_tdiv (by decide) hterm.2.le).trans (by decide)
  have hnew₀ : -2 ^ 17 ≤ unclampedPriority recentCpu nice :=
    le_trans (by decide) (Int.tdiv_le_tdiv (c := 2 ^ 14) (by decide) hterm.1)
  simp only [priorityInts, forall_mem_cons]
  refine ⟨h, ?_, ?_, ?_, ?_, hterm, ?_, fun _ hx => absurd hx not_mem_nil⟩ <;>
    (simp only [FitsInt]; omega)

/-! ### The tick over the integers -/

/-- The number of threads that the next tick finds ready or running. -/
def Sched.readyCount (s : Sched) : ℤ :=
  let readyLength : ℤ := s.readyList.length + s.due.length
  if s.idleThread = some s.current then readyLength else readyLength + 1

namespace Sched

variable {cfg : Config} {s : Sched}

/-- The load average after the next tick, over the integers. -/
def exactTickLoadAvg (s : Sched) : ℤ :=
  exactLoadAvg s.loadAvg s.readyCount

/-- A thread's clock after `thread_aging` at the next tick, over the integers. -/
def exactAged (s : Sched) (t : Tid) (c : Clock) : Clock :=
  if t = s.current then { c with recentCpu := c.recentCpu + 2 ^ 14 } else c

/-- A thread's clock after `calculate_recent_cpu` at the next tick, over the integers. -/
def exactDecayed (s : Sched) (t : Tid) (c : Clock) : Clock :=
  let c := s.exactAged t c
  if (s.ticks + 1) % timerFreq = 0 ∧ t ∈ s.allList then
    { c with recentCpu := exactRecentCpu s.exactTickLoadAvg c.recentCpu c.nice } else c

/-- A thread's clock after the next tick, over the integers. -/
def exactTickClock (s : Sched) (t : Tid) (c : Clock) : Clock :=
  let c := s.exactDecayed t c
  if (s.ticks + 1) % 4 = 0 ∧ t ∈ s.allList then
    { c with priority := exactPriority c.recentCpu c.nice } else c

/-- The `int` values a loop over `all_list` computes. -/
def intsOfAll (s : Sched) (ints : Tid → Clock → List ℤ) : List ℤ :=
  s.allList.flatMap fun t => (s.clocks t).elim [] (ints t)

/-- The `int` values that the next tick computes. -/
def tickInts (cfg : Config) (s : Sched) : List ℤ :=
  if cfg.recalculates then
    (s.clocks s.current).elim [] (fun c => agingInts c.recentCpu) ++
    (if (s.ticks + 1) % timerFreq = 0 then
      loadAvgInts s.loadAvg s.readyCount ++ s.intsOfAll fun t c =>
        recentCpuInts s.exactTickLoadAvg (s.exactAged t c).recentCpu c.nice else []) ++
    (if (s.ticks + 1) % 4 = 0 then
      s.intsOfAll fun t c => priorityInts (s.exactDecayed t c).recentCpu c.nice else [])
  else []

/-! ### The bounds along a run -/

/-- The nice value that the running thread is about to store in `thread_set_nice`. -/
def niceToSet (s : Sched) : Option ℤ :=
  match (s.threads s.current).map Thread.pc with
  | some (.setNice nice _) => some nice
  | _ => none

/-- There are at most 500 threads, and nice values are in the documented range. -/
def Documented (s : Sched) (a : Action) : Prop :=
  s.allList.length ≤ 500 ∧ (a = .runSet → ∀ n ∈ s.niceToSet, -20 ≤ n ∧ n ≤ 20)

instance (s : Sched) (a : Action) : Decidable (s.Documented a) :=
  inferInstanceAs (Decidable (_ ∧ (_ → _)))

/-- The ticks since `recent_cpu` has decayed. -/
def phase (cfg : Config) (s : Sched) : ℕ :=
  if cfg.recalculates then s.ticks % timerFreq else 0

/-- What is known of a clock. -/
structure ClockBounded (cfg : Config) (s : Sched) (c : Clock) : Prop where
  nice : -20 ≤ c.nice ∧ c.nice ≤ 20
  min : -recentCpuMin ≤ c.recentCpu
  max : c.recentCpu ≤ recentCpuMax + s.phase cfg * 2 ^ 14

/-- What is known of the load average and of the clocks. -/
structure Bounded (cfg : Config) (s : Sched) : Prop where
  loadAvg : 0 ≤ s.loadAvg ∧ s.loadAvg ≤ 500 * 2 ^ 14
  clocks : ∀ t ∈ s.allList, ∀ c, s.clocks t = some c → s.ClockBounded cfg c

/-- The threads that are counted are threads of `all_list`. -/
theorem readyCount_bounds (hp : Partition s) (hl : s.Listed) (h500 : s.allList.length ≤ 500) :
    0 ≤ s.readyCount ∧ s.readyCount ≤ 500 := by
  have hdue : ∀ t ∈ s.due, t ∈ s.queue .sleep := fun t ht => (mem_filter.mp ht).1
  have hnodup : (s.current :: (s.due ++ s.readyList)).Nodup := by
    refine nodup_cons.mpr ⟨fun hmem => ?_, nodup_append.mpr
      ⟨(hp.housed.nodup .sleep).filter _, hp.housed.nodup .ready, fun t ht t' ht' heq => ?_⟩⟩
    · rcases mem_append.mp hmem with hm | hm
      · exact hp.housed.not_mem hp.current_home .sleep (hdue _ hm)
      · exact hp.housed.not_mem hp.current_home .ready hm
    · subst heq
      cases hp.housed.unique .sleep .ready (hdue t ht) ht'
  have hsub : s.current :: (s.due ++ s.readyList) ⊆ s.allList := by
    have hshape : ∀ {t st pc}, s.shape t = some (st, pc) → st ≠ .dying → t ∈ s.allList := by
      intro t st pc hx hst
      obtain ⟨th, hth, rfl, -⟩ := threads_of_shape hx
      exact hl.mem_allList hth hst
    intro t ht
    rcases mem_cons.mp ht with rfl | ht
    · obtain ⟨pc, hx⟩ := hp.running
      exact hshape hx (by decide)
    rcases mem_append.mp ht with ht | ht
    · exact hshape (home_eq_sleep ((hp.housed.mem_iff .sleep t).mp (hdue t ht))) (by decide)
    · obtain ⟨-, pc, hx⟩ := home_eq_ready ((hp.housed.mem_iff .ready t).mp ht)
      exact hshape hx (by decide)
  have hlength := (subperm_of_subset hnodup hsub).length_le
  rw [length_cons, length_append] at hlength
  unfold readyCount
  dsimp only
  split <;> omega

section

variable {cfg : Config} {s s' : Sched} {t : Tid} {c : Clock}

theorem nice_exactAged : (s.exactAged t c).nice = c.nice := by
  unfold exactAged
  split <;> rfl

theorem nice_exactDecayed : (s.exactDecayed t c).nice = c.nice := by
  unfold exactDecayed
  split <;> exact nice_exactAged

theorem phase_lt (cfg : Config) (s : Sched) : s.phase cfg < 100 := by
  unfold phase
  split
  · exact Nat.mod_lt _ (by decide)
  · decide

variable (hc : s.ClockBounded cfg c)
include hc

theorem ClockBounded.fits_aging : ∀ x ∈ agingInts c.recentCpu, FitsInt x := by
  have hphase := phase_lt cfg s
  have hmax := hc.max
  exact fits_agingInts hc.min (by omega)

theorem ClockBounded.aged : -recentCpuMin ≤ (s.exactAged t c).recentCpu ∧
    (s.exactAged t c).recentCpu ≤ recentCpuMax + (s.phase cfg + 1) * 2 ^ 14 := by
  have hmin := hc.min
  have hmax := hc.max
  unfold exactAged
  split
  · dsimp only
    omega
  · omega

variable (hload : 0 ≤ s.exactTickLoadAvg ∧ s.exactTickLoadAvg ≤ 500 * 2 ^ 14)
include hload

theorem ClockBounded.fits_recentCpu :
    ∀ x ∈ recentCpuInts s.exactTickLoadAvg (s.exactAged t c).recentCpu c.nice, FitsInt x := by
  have hphase := phase_lt cfg s
  obtain ⟨hmin, hmax⟩ := hc.aged (t := t)
  exact fits_recentCpuInts hload.1 hload.2 hmin (by omega) hc.nice.1 hc.nice.2

/-- The `recent_cpu` of a thread after the next tick. -/
theorem ClockBounded.decayed (hcfg : cfg.recalculates = true) (ht : t ∈ s.allList) :
    -recentCpuMin ≤ (s.exactDecayed t c).recentCpu ∧
      (s.exactDecayed t c).recentCpu ≤ recentCpuMax + ((s.ticks + 1) % timerFreq : ℕ) * 2 ^ 14 := by
  have hphase := phase_lt cfg s
  obtain ⟨hmin, hmax⟩ := hc.aged (t := t)
  unfold exactDecayed
  by_cases hfreq : (s.ticks + 1) % timerFreq = 0
  · rw [if_pos ⟨hfreq, ht⟩, hfreq]
    have hnew := exactRecentCpu_bounds hload.1 hload.2 hmin (by omega) hc.nice.1 hc.nice.2
    rw [nice_exactAged]
    exact ⟨hnew.1, by simpa using hnew.2⟩
  · rw [if_neg fun h => hfreq h.1]
    have hnext : (s.ticks + 1) % timerFreq = s.phase cfg + 1 := by
      rw [phase, hcfg, if_pos rfl]
      unfold timerFreq at *
      omega
    refine ⟨hmin, ?_⟩
    rw [hnext]
    push_cast
    exact hmax

theorem ClockBounded.fits_priority (hcfg : cfg.recalculates = true) (ht : t ∈ s.allList) :
    ∀ x ∈ priorityInts (s.exactDecayed t c).recentCpu c.nice, FitsInt x := by
  have hlt : (s.ticks + 1) % timerFreq < 100 := Nat.mod_lt _ (by decide)
  obtain ⟨hmin, hmax⟩ := hc.decayed hload hcfg ht
  refine fits_priorityInts ?_ hc.nice.1 hc.nice.2
  unfold recentCpuMin recentCpuMax at *
  exact ⟨by omega, by omega⟩

/-- The tick computes what the formulas over the integers say. -/
theorem ClockBounded.tickClock_eq (hcfg : cfg.recalculates = true) (ht : t ∈ s.allList)
    (heq : s.tickLoadAvg = s.exactTickLoadAvg) : s.tickClock t c = s.exactTickClock t c := by
  have haged : (if t = s.current then c.age else c) = s.exactAged t c := by
    unfold exactAged
    split
    · rw [Clock.age, age_eq hc.fits_aging]
    · rfl
  have hdecayed : (if (s.ticks + 1) % timerFreq = 0 ∧ t ∈ s.allList then
      (s.exactAged t c).decay s.tickLoadAvg else s.exactAged t c) = s.exactDecayed t c := by
    unfold exactDecayed
    dsimp only
    split
    · rw [Clock.decay, heq, nice_exactAged, nextRecentCpu_eq (hc.fits_recentCpu hload)]
    · rfl
  unfold tickClock recalculated exactTickClock
  dsimp only
  rw [haged, hdecayed]
  split
  · rw [Clock.reprice, nice_exactDecayed, mlfqsPriority_eq (hc.fits_priority hload hcfg ht)]
  · rfl

end

/-- The load average of the next tick. -/
theorem Bounded.tickLoadAvg (h : s.Bounded cfg) (hp : Partition s) (hl : s.Listed)
    (h500 : s.allList.length ≤ 500) :
    s.tickLoadAvg = s.exactTickLoadAvg ∧
    (∀ x ∈ loadAvgInts s.loadAvg s.readyCount, FitsInt x) ∧
    0 ≤ s.exactTickLoadAvg ∧ s.exactTickLoadAvg ≤ 500 * 2 ^ 14 := by
  obtain ⟨hr₀, hr₁⟩ := readyCount_bounds hp hl h500
  have hfits := fits_loadAvgInts h.loadAvg.1 h.loadAvg.2 hr₀ hr₁
  exact ⟨nextLoadAvg_eq hfits, hfits, exactLoadAvg_bounds h.loadAvg.1 h.loadAvg.2 hr₀ hr₁⟩

/-- What a tick does, over the integers. -/
theorem Bounded.ticked {s' : Sched} (h : s.Bounded cfg) (hp : Partition s) (hl : s.Listed)
    (h500 : s.allList.length ≤ 500) (htick : Ticked cfg s s') :
    (∀ t ∈ s.allList, s'.clocks t =
      (s.clocks t).map fun c => if cfg.recalculates then s.exactTickClock t c else c) ∧
    s'.loadAvg = if cfg.recalculates ∧ (s.ticks + 1) % timerFreq = 0 then s.exactTickLoadAvg
      else s.loadAvg := by
  obtain ⟨heq, -, hload⟩ := h.tickLoadAvg hp hl h500
  refine ⟨fun t ht => ?_, heq ▸ htick.loadAvg⟩
  rw [htick.clocks]
  refine Option.map_congr fun c hc => ?_
  split_ifs with hcfg
  · exact (h.clocks t ht c hc).tickClock_eq hload hcfg ht heq
  · rfl

/-- What an access of `thread_set_priority` or `thread_set_nice` stores. -/
theorem runSet_clock {cur th : Thread} (h : cur.runSet = some th) :
    th.clock.recentCpu = cur.clock.recentCpu ∧ (th.clock.nice = cur.clock.nice ∨
      ∃ n old, cur.pc = .setNice n old ∧ th.clock.nice = n) := by
  unfold Thread.runSet at h
  split at h
  · obtain rfl := Option.some.inj h
    exact ⟨rfl, .inl rfl⟩
  · obtain rfl := Option.some.inj h
    exact ⟨rfl, .inr ⟨_, _, ‹_›, rfl⟩⟩
  · obtain rfl := Option.some.inj h
    exact ⟨rfl, .inl rfl⟩
  · obtain rfl := Option.some.inj h
    exact ⟨rfl, .inl rfl⟩
  · cases h

theorem ClockBounded.congr {s' : Sched} {c : Clock} (h : s.ClockBounded cfg c)
    (hticks : s'.ticks = s.ticks) : s'.ClockBounded cfg c := by
  refine ⟨h.nice, h.min, ?_⟩
  rw [phase, hticks]
  exact h.max

/-- The running thread's clock changes, within the bounds. -/
theorem Bounded.changed {s' : Sched} {c' : Clock} (h : s.Bounded cfg) (hch : Changed s c' s')
    (hc' : s.ClockBounded cfg c') : s'.Bounded cfg := by
  refine ⟨hch.loadAvg ▸ h.loadAvg, fun t ht c hc => ?_⟩
  rw [hch.allList] at ht
  rw [hch.clocks] at hc
  rcases eq_or_ne t s.current with rfl | hne
  · rw [update_self] at hc
    obtain rfl := Option.some.inj hc
    exact hc'.congr hch.ticks
  · rw [update_of_ne hne] at hc
    exact (h.clocks t ht c hc).congr hch.ticks

/-- A timer interrupt keeps the bounds. -/
theorem Bounded.timerInterrupt {s' : Sched} (h : s.Bounded cfg) (hp : Partition s) (hl : s.Listed)
    (h500 : s.allList.length ≤ 500) (htick : Ticked cfg s s') : s'.Bounded cfg := by
  obtain ⟨-, -, hload⟩ := h.tickLoadAvg hp hl h500
  obtain ⟨hclocks, hloadAvg⟩ := h.ticked hp hl h500 htick
  refine ⟨?_, fun t ht c' hc' => ?_⟩
  · rw [hloadAvg]
    split
    · exact hload
    · exact h.loadAvg
  rw [htick.allList] at ht
  rw [hclocks t ht] at hc'
  obtain ⟨c, hc, rfl⟩ := Option.map_eq_some_iff.mp hc'
  have hb := h.clocks t ht c hc
  by_cases hcfg : cfg.recalculates = true
  · have hnew := hb.decayed hload hcfg ht
    have hnice : (s.exactTickClock t c).nice = c.nice := by
      unfold exactTickClock
      split <;> exact nice_exactDecayed
    have hrecent : (s.exactTickClock t c).recentCpu = (s.exactDecayed t c).recentCpu := by
      unfold exactTickClock
      split <;> rfl
    rw [if_pos hcfg]
    refine ⟨hnice ▸ hb.nice, hrecent ▸ hnew.1, ?_⟩
    rw [hrecent, phase, if_pos hcfg, htick.ticks]
    exact hnew.2
  · rw [if_neg hcfg]
    refine ⟨hb.nice, hb.min, ?_⟩
    have hmax := hb.max
    rw [phase, if_neg hcfg] at hmax ⊢
    exact hmax

/-- **Every step keeps the bounds.** -/
theorem Bounded.step {s' : Sched} {a : Action} (h : s.Bounded cfg) (hp : Partition s)
    (hl : s.Listed) (ha : s.Documented a) (hstep : ClockStep cfg s a s') : s'.Bounded cfg := by
  have hcurrent := hl.current_mem hp
  cases a with
  | initThread p tail =>
    obtain ⟨c₀, hc₀, hcr⟩ := hstep
    have hcur := h.clocks _ hcurrent c₀ hc₀
    refine ⟨hcr.loadAvg ▸ h.loadAvg, fun t ht c hc => ?_⟩
    rw [hcr.clocks] at hc
    rcases eq_or_ne t s.nextTid with rfl | hne
    · rw [update_self] at hc
      obtain rfl := Option.some.inj hc
      exact ClockBounded.congr ⟨hcur.nice, hcur.min, hcur.max⟩ hcr.ticks
    · rw [update_of_ne hne] at hc
      rw [hcr.allList, mem_append, mem_singleton] at ht
      exact (h.clocks t (ht.resolve_right hne) c hc).congr hcr.ticks
  | threadExit =>
    have hex : Exited s s' := hstep
    refine ⟨hex.loadAvg ▸ h.loadAvg, fun t ht c hc => ?_⟩
    obtain ⟨hmem, hold⟩ := hex.of_mem_allList hp ht hc
    exact (h.clocks t hmem c hold).congr hex.ticks
  | runSet =>
    obtain ⟨cur, th, hcur, hth, hch⟩ := hstep
    have hb := h.clocks _ hcurrent cur.clock (clocks_of_threads hcur)
    obtain ⟨hrecent, hnice⟩ := runSet_clock hth
    refine h.changed hch ⟨?_, hrecent ▸ hb.min, hrecent ▸ hb.max⟩
    rcases hnice with hnice | ⟨n, old, hpc, hnice⟩
    · rw [hnice]
      exact hb.nice
    · rw [hnice]
      refine ha.2 rfl n ?_
      rw [niceToSet, hcur, Option.map_some, hpc]
      rfl
  | timerInterrupt => exact h.timerInterrupt hp hl ha.1 hstep
  | _ =>
    have hsame : SameClocks s s' := hstep
    refine ⟨hsame.loadAvg ▸ h.loadAvg, fun t ht c hc => ?_⟩
    rw [hsame.allList] at ht
    rw [hsame.clocks] at hc
    exact (h.clocks t ht c hc).congr hsame.ticks

/-- All `int` values of the next tick fit. -/
theorem Bounded.tickInts (h : s.Bounded cfg) (hp : Partition s) (hl : s.Listed)
    (h500 : s.allList.length ≤ 500) : ∀ x ∈ s.tickInts cfg, FitsInt x := by
  obtain ⟨-, hfits, hload⟩ := h.tickLoadAvg hp hl h500
  have hall : ∀ ints : Tid → Clock → List ℤ, (∀ t ∈ s.allList, ∀ c, s.ClockBounded cfg c →
      ∀ x ∈ ints t c, FitsInt x) → ∀ x ∈ s.intsOfAll ints, FitsInt x := by
    intro ints hints x hx
    obtain ⟨t, ht, hx⟩ := mem_flatMap.mp hx
    cases hc : s.clocks t with
    | none =>
      rw [hc] at hx
      exact absurd hx not_mem_nil
    | some c =>
      rw [hc] at hx
      exact hints t ht c (h.clocks t ht c hc) x hx
  intro x hx
  rw [Sched.tickInts] at hx
  split at hx
  swap
  · exact absurd hx not_mem_nil
  rename_i hcfg
  rcases mem_append.mp hx with hx | hx
  · rcases mem_append.mp hx with hx | hx
    · obtain ⟨cur, hcur, -, -⟩ := hp.threadCurrent
      rw [clocks_of_threads hcur] at hx
      exact (h.clocks _ (hl.current_mem hp) _ (clocks_of_threads hcur)).fits_aging x hx
    · split at hx
      · rcases mem_append.mp hx with hx | hx
        · exact hfits x hx
        · exact hall _ (fun t _ c hc => hc.fits_recentCpu hload) x hx
      · exact absurd hx not_mem_nil
  · split at hx
    · exact hall _ (fun t ht c hc => hc.fits_priority hload hcfg ht) x hx
    · exact absurd hx not_mem_nil

end Sched

/-- The bounds hold in every reachable state. -/
theorem SchedReachable.bounded {cfg : Config} {s : Sched}
    (h : SchedReachable cfg Sched.Documented s) : s.Bounded cfg := by
  obtain ⟨value, tail, tail', s₀, h₀, hreach⟩ := h
  have hinv : s.Partition ∧ s.Listed ∧ s.Bounded cfg := by
    refine hreach.invariant (I := fun s => s.Partition ∧ s.Listed ∧ s.Bounded cfg)
      ⟨threadStart_partition h₀, threadStart_listed h₀, ?_⟩ ?_
    · obtain ⟨hclocks, hload, -⟩ := threadStart_clocks h₀
      refine ⟨by rw [hload]; decide, fun t _ c hc => ?_⟩
      have hzero : c.nice = 0 ∧ c.recentCpu = 0 := by
        rw [hclocks] at hc
        split at hc
        · obtain rfl := Option.some.inj hc
          exact ⟨rfl, rfl⟩
        · split at hc
          · obtain rfl := Option.some.inj hc
            exact ⟨rfl, rfl⟩
          · cases hc
      refine ⟨?_, ?_, ?_⟩
      · rw [hzero.1]
        decide
      · rw [hzero.2]
        decide
      · rw [hzero.2]
        unfold recentCpuMax
        omega
    · rintro s a s' ⟨hp, hl, hb⟩ ha hstep
      have hclock := (Sched.step_clocks hp).of_eq_ok hstep
      exact ⟨(Sched.step_spec hp).of_eq_ok hstep, hclock.listed hl, hb.step hp hl ha hclock⟩
  exact hinv.2.2

/-- **The 4.4BSD arithmetic does not overflow**, in any run with at most 500 threads and nice
values in the documented range: the load average lies between 0 and 500, the divisor of the
decay is positive, every `int` that the next tick computes fits, and the load average and the
clocks after it are those of the formulas over the integers. -/
theorem mlfqs_no_overflow {cfg : Config} {s : Sched} (h : SchedReachable cfg Sched.Documented s)
    (h500 : s.allList.length ≤ 500) :
    (0 ≤ s.loadAvg ∧ s.loadAvg ≤ 500 * 2 ^ 14) ∧ 0 < 2 * s.loadAvg + 2 ^ 14 ∧
    (∀ x ∈ s.tickInts cfg, FitsInt x) ∧
    ∀ s', s.step cfg .timerInterrupt = ok s' →
      (∀ t ∈ s.allList, s'.clocks t =
        (s.clocks t).map fun c => if cfg.recalculates then s.exactTickClock t c else c) ∧
      s'.loadAvg = if cfg.recalculates ∧ (s.ticks + 1) % Sched.timerFreq = 0
        then s.exactTickLoadAvg else s.loadAvg := by
  have hp := h.partition
  have hl := h.listed
  have hb := h.bounded
  refine ⟨hb.loadAvg, ?_, hb.tickInts hp hl h500, fun s' hstep => ?_⟩
  · have hload := hb.loadAvg.1
    omega
  · have htick : Sched.Ticked cfg s s' := (Sched.step_clocks hp).of_eq_ok hstep
    exact hb.ticked hp hl h500 htick

/-- The initial thread takes a nice value of 5; the fourth tick computes 16 values. -/
theorem mlfqs_no_overflow_fourth :
    ∃ s, SchedReachable ⟨false, true, false⟩ Sched.Documented s ∧ s.ticks = 3 ∧
      (s.tickInts ⟨false, true, false⟩).length = 16 ∧
      ∀ x ∈ s.tickInts ⟨false, true, false⟩, FitsInt x := by
  have key : ∃ s, SchedReachable ⟨false, true, false⟩ Sched.Documented s ∧ s.ticks = 3 ∧
      (s.tickInts ⟨false, true, false⟩).length = 16 ∧ s.allList.length ≤ 500 :=
    ⟨_, ⟨fun _ => 0, 0, 0, _, rfl, [.threadSetNice 5, .runSet, .runSet, .runSet, .timerInterrupt,
      .timerInterrupt, .timerInterrupt], Run.of_guarded rfl⟩, rfl, by decide, by decide⟩
  obtain ⟨s, hreach, hticks, hlength, h500⟩ := key
  exact ⟨s, hreach, hticks, hlength, (mlfqs_no_overflow hreach h500).2.2.1⟩

end Pintos
