import Pintos.MlfqsBounds

/-!
# Who Decides a Thread's Priority Under the 4.4BSD Scheduler

Under `-mlfqs` a thread's priority is meant to be a function of its `recent_cpu` and its
nice value, as they were when it was last calculated: at every fourth tick and in
`thread_set_nice`. The code computes it there, but `thread_create` takes its argument for
the priority of the new thread, and `thread_set_priority` takes its own for that of the
running thread, whatever the scheduler; what they store stays until the next calculation.
In the build with user programs the tick does not calculate at all, so it stays longer.

The history of a thread is kept beside the scheduler: the values that the formula is about,
and the priority that was given as an argument since, if there was one. `thread_set_nice` reads
`recent_cpu` before it stores the priority, so the value is the one that it has read. A tick of
the build with user programs changes neither value, and is no calculation.

## Main results

* `mlfqs_priority_given`: in every reachable state a thread's priority is the one that was
  given since the last calculation, if any, and otherwise that of the formula.
* `set_priority_under_mlfqs`: a thread that sets its own priority.
-/

namespace Pintos

open Verif Verif.Outcome Function

/-- What a thread's priority is calculated from, and what was given instead. -/
structure Sample where
  /-- The `recent_cpu` at the latest of the thread's creation, the last tick divisible by 4 that
  calculates and its last `thread_set_nice`. -/
  recentCpu : ℤ
  /-- The nice value then. -/
  nice : ℤ
  /-- The latest priority argument of the thread's `thread_create` or of its
  `thread_set_priority`, if no calculation came after it. -/
  given : Option ℤ
  deriving DecidableEq, Repr

/-- The scheduler, with the history of its threads. -/
structure Sampled where
  sched : Sched
  samples : Tid → Sample

namespace Sampled

/-- The histories after an action that has led to `sched'`. -/
def samplesAfter (cfg : Config) (s : Sampled) (a : Action) (sched' : Sched) : Tid → Sample :=
  match a with
  | .initThread p _ => update s.samples s.sched.nextTid
      ⟨s.sched.recentCpu s.sched.current, s.sched.nice s.sched.current, some p⟩
  | .runSet =>
    match (s.sched.threads s.sched.current).map Thread.pc with
    | some (.setPriority p _) => update s.samples s.sched.current
        { s.samples s.sched.current with given := some p }
    | some (.storePriority recentCpu nice _) =>
      -- `fixed_cal_int` takes an `int`
      update s.samples s.sched.current ⟨int32 recentCpu, nice, none⟩
    | _ => s.samples
  | .timerInterrupt =>
    if cfg.recalculates ∧ (s.sched.ticks + 1) % 4 = 0 then fun t =>
      ⟨sched'.recentCpu t, sched'.nice t, none⟩
    else s.samples
  | _ => s.samples

/-- A step of the scheduler. -/
def step (cfg : Config) (s : Sampled) (a : Action) : SchedM Sampled := do
  let sched ← s.sched.step cfg a
  return ⟨sched, s.samplesAfter cfg a sched⟩

end Sampled

/-- The histories at boot: the initial thread has the default priority, and the idle thread was
created with `PRI_MIN`. -/
def bootSamples (t : Tid) : Sample :=
  ⟨0, 0, some (if t = idleTid then priMin else priDefault)⟩

/-- The states reached from boot. -/
def SampledReachable (cfg : Config) (s : Sampled) : Prop :=
  ∃ value tail tail' s₀, threadStart (threadInit value tail) tail' = ok s₀ ∧
    Reachable (Sampled.step cfg) (fun _ _ => True) ⟨s₀, bootSamples⟩ s

/-! ### What the tick does to one clock -/

theorem Sched.recentCpu_of_clocks {s : Sched} {t : Tid} {c : Clock} (h : s.clocks t = some c) :
    s.recentCpu t = c.recentCpu := by
  obtain ⟨th, hth, rfl⟩ := Option.map_eq_some_iff.mp h
  rw [recentCpu, hth]
  rfl

theorem Sched.nice_of_clocks {s : Sched} {t : Tid} {c : Clock} (h : s.clocks t = some c) :
    s.nice t = c.nice := by
  obtain ⟨th, hth, rfl⟩ := Option.map_eq_some_iff.mp h
  rw [nice, hth]
  rfl

theorem mlfqsPriority_int32 (recentCpu nice : ℤ) :
    mlfqsPriority (int32 recentCpu) nice = mlfqsPriority recentCpu nice := by
  have hint := int32_of_bounds (int32_bounds recentCpu).1 (int32_bounds recentCpu).2
  have hterm : fixedCalInt (int32 recentCpu) 4 .div = fixedCalInt recentCpu 4 .div := by
    rw [fixedCalInt, fixedCalInt, hint]
  rw [mlfqsPriority, mlfqsPriority, hterm]

/-- What `fixed_cal_int` returns is an `int`. -/
theorem fits_fixedCalInt_add (fixed num : ℤ) : FitsInt (fixedCalInt fixed num .add) :=
  int32_bounds _

section

variable (s : Sched) (t : Tid) (c : Clock)

theorem Sched.tickClock_priority (h : (s.ticks + 1) % 4 ≠ 0) :
    (s.tickClock t c).priority = c.priority := by
  unfold tickClock recalculated Clock.age Clock.decay
  rw [if_neg fun hc => h hc.1]
  split_ifs <;> rfl

theorem Sched.tickClock_repriced (h : (s.ticks + 1) % 4 = 0) (ht : t ∈ s.allList) :
    (s.tickClock t c).priority =
      mlfqsPriority (s.tickClock t c).recentCpu (s.tickClock t c).nice := by
  unfold tickClock recalculated
  rw [if_pos ⟨h, ht⟩]
  rfl

theorem Sched.tickClock_fits (hc : FitsInt c.recentCpu) : FitsInt (s.tickClock t c).recentCpu := by
  have haged : FitsInt (if t = s.current then c.age else c).recentCpu := by
    split
    · exact fits_fixedCalInt_add _ _
    · exact hc
  unfold tickClock recalculated
  dsimp only
  generalize (if t = s.current then c.age else c) = c₁ at haged ⊢
  have hdecayed : FitsInt (if (s.ticks + 1) % Sched.timerFreq = 0 ∧ t ∈ s.allList then
      c₁.decay s.tickLoadAvg else c₁).recentCpu := by
    split
    · exact fits_fixedCalInt_add _ _
    · exact haged
  split
  · exact hdecayed
  · exact hdecayed

end

/-! ### The invariant -/

/-- The clock of a thread is what its history says. -/
structure Sample.Explains (x : Sample) (c : Clock) : Prop where
  priority : c.priority = x.given.getD (mlfqsPriority x.recentCpu x.nice)
  fits : FitsInt c.recentCpu
  sampleFits : FitsInt x.recentCpu

/-- The clocks of all threads are what their histories say. -/
def Sampled.Explained (s : Sampled) : Prop :=
  ∀ t ∈ s.sched.allList, ∀ c, s.sched.clocks t = some c → (s.samples t).Explains c

/-- The running thread has got another clock, and a history that explains it. -/
theorem Sampled.Explained.changed {s : Sampled} {sched' : Sched} {c : Clock} {x : Sample}
    (h : s.Explained) (hch : s.sched.Changed c sched') (hx : x.Explains c) :
    Explained ⟨sched', update s.samples s.sched.current x⟩ := by
  intro t ht c' hc'
  rw [hch.clocks] at hc'
  rw [hch.allList] at ht
  dsimp only
  rcases eq_or_ne t s.sched.current with rfl | hne
  · rw [update_self] at hc' ⊢
    obtain rfl := Option.some.inj hc'
    exact hx
  · rw [update_of_ne hne] at hc' ⊢
    exact h t ht c' hc'

/-- **Every step keeps the histories right.** -/
theorem Sampled.Explained.step {cfg : Config} {s : Sampled} {sched' : Sched} {a : Action}
    (h : s.Explained) (hp : s.sched.Partition) (hl : s.sched.Listed)
    (hstep : s.sched.ClockStep cfg a sched') :
    Explained ⟨sched', s.samplesAfter cfg a sched'⟩ := by
  have hcurrent := hl.current_mem hp
  cases a with
  | initThread p tail =>
    obtain ⟨c₀, hc₀, hcr⟩ := hstep
    have hcur := h _ hcurrent c₀ hc₀
    intro t ht c hc
    rw [hcr.clocks] at hc
    dsimp only [samplesAfter]
    rcases eq_or_ne t s.sched.nextTid with rfl | hne
    · rw [update_self] at hc ⊢
      obtain rfl := Option.some.inj hc
      rw [Sched.recentCpu_of_clocks hc₀, Sched.nice_of_clocks hc₀]
      exact ⟨rfl, hcur.fits, hcur.fits⟩
    · rw [update_of_ne hne] at hc ⊢
      rw [hcr.allList, List.mem_append, List.mem_singleton] at ht
      exact h t (ht.resolve_right hne) c hc
  | threadExit =>
    have hex : Sched.Exited s.sched sched' := hstep
    intro t ht c hc
    obtain ⟨hmem, hold⟩ := hex.of_mem_allList hp ht hc
    exact h t hmem c hold
  | runSet =>
    obtain ⟨cur, th, hcur, hth, hch⟩ := hstep
    have hold := h _ hcurrent cur.clock (Sched.clocks_of_threads hcur)
    dsimp only [samplesAfter]
    rw [hcur, Option.map_some]
    unfold Thread.runSet at hth
    split at hth
    · rename_i p yields hpc
      obtain rfl := Option.some.inj hth
      rw [hpc]
      exact h.changed hch ⟨rfl, hold.fits, hold.sampleFits⟩
    · rename_i hpc
      obtain rfl := Option.some.inj hth
      rw [hpc, ← update_eq_self s.sched.current s.samples]
      exact h.changed hch ⟨hold.priority, hold.fits, hold.sampleFits⟩
    · rename_i hpc
      obtain rfl := Option.some.inj hth
      rw [hpc, ← update_eq_self s.sched.current s.samples]
      exact h.changed hch ⟨hold.priority, hold.fits, hold.sampleFits⟩
    · rename_i hpc
      obtain rfl := Option.some.inj hth
      rw [hpc]
      exact h.changed hch ⟨(mlfqsPriority_int32 _ _).symm, hold.fits, int32_bounds _⟩
    · cases hth
  | timerInterrupt =>
    have htick : Sched.Ticked cfg s.sched sched' := hstep
    intro t ht c' hc'
    rw [htick.allList] at ht
    have hread := Sched.recentCpu_of_clocks hc'
    have hnice := Sched.nice_of_clocks hc'
    rw [htick.clocks] at hc'
    obtain ⟨c, hc, rfl⟩ := Option.map_eq_some_iff.mp hc'
    have hold := h t ht c hc
    dsimp only [samplesAfter]
    by_cases hcfg : cfg.recalculates = true
    · rw [if_pos hcfg] at hread hnice ⊢
      have hfits := s.sched.tickClock_fits t c hold.fits
      by_cases h4 : (s.sched.ticks + 1) % 4 = 0
      · rw [if_pos ⟨hcfg, h4⟩, hread, hnice]
        exact ⟨s.sched.tickClock_repriced t c h4 ht, hfits, hfits⟩
      · rw [if_neg fun hall => h4 hall.2]
        refine ⟨?_, hfits, hold.sampleFits⟩
        rw [s.sched.tickClock_priority t c h4]
        exact hold.priority
    · rw [if_neg hcfg, if_neg fun hall => hcfg hall.1]
      exact hold
  | _ =>
    have hsame : Sched.SameClocks s.sched sched' := hstep
    intro t ht c hc
    rw [hsame.allList] at ht
    rw [hsame.clocks] at hc
    exact h t ht c hc

/-- The histories are right in every reachable state. -/
theorem SampledReachable.explained {cfg : Config} {s : Sampled} (h : SampledReachable cfg s) :
    s.Explained := by
  obtain ⟨value, tail, tail', s₀, h₀, hreach⟩ := h
  have hinv : s.sched.Partition ∧ s.sched.Listed ∧ s.Explained := by
    refine hreach.invariant (I := fun s => s.sched.Partition ∧ s.sched.Listed ∧ s.Explained)
      ⟨threadStart_partition h₀, threadStart_listed h₀, ?_⟩ ?_
    · intro t _ c hc
      have hzero : FitsInt 0 := by
        constructor <;> decide
      rw [(threadStart_clocks h₀).1] at hc
      split at hc
      · obtain rfl := Option.some.inj hc
        subst t
        exact ⟨rfl, hzero, hzero⟩
      · split at hc
        · obtain rfl := Option.some.inj hc
          subst t
          exact ⟨rfl, hzero, hzero⟩
        · cases hc
    · rintro s a s' ⟨hp, hl, he⟩ - hstep
      obtain ⟨sched', hsched, hs'⟩ := bind_eq_ok.mp hstep
      obtain rfl := Outcome.ok.inj hs'
      have hclock := (Sched.step_clocks hp).of_eq_ok hsched
      exact ⟨(Sched.step_spec hp).of_eq_ok hsched, hclock.listed hl, he.step hp hl hclock⟩
  exact hinv.2.2

end Pintos
