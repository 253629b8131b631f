import Pintos.TickEffect

/-!
# Priorities and Clocks Along a Run

What every step of the scheduler does to the members of a thread that the 4.4BSD
recalculations read and write: its priority, its nice value and its `recent_cpu`. Only six
actions touch them. `thread_create` makes a thread with those of its creator,
`thread_exit` makes one disappear, `thread_set_priority` and `thread_set_nice` change the
running thread, and the timer tick recalculates; all other steps leave them, the load
average and `all_list` alone.

## Main results

* `step_clocks`: the effect of every step, from the state before it.
* `SchedReachable.listed`: the threads that are not dying are those of `all_list`.
-/

namespace Pintos

open Verif Verif.Outcome Function

/-- The members of a thread that the recalculations read and write. -/
structure Clock where
  priority : ℤ
  nice : ℤ
  recentCpu : ℤ
  deriving DecidableEq, Repr

/-- The clock of a thread. -/
def Thread.clock (th : Thread) : Clock :=
  ⟨th.priority, th.nice, th.recentCpu⟩

/-- `thread_aging`, on the clock of the running thread. -/
def Clock.age (c : Clock) : Clock :=
  { c with recentCpu := fixedCalInt c.recentCpu 1 .add }

/-- `calculate_recent_cpu`, on the clock of a thread. -/
def Clock.decay (loadAvg : ℤ) (c : Clock) : Clock :=
  { c with recentCpu := nextRecentCpu loadAvg c.recentCpu c.nice }

/-- `calculate_priority`, on the clock of a thread. -/
def Clock.reprice (c : Clock) : Clock :=
  { c with priority := mlfqsPriority c.recentCpu c.nice }

/-- The build and the options under which the timer tick recalculates. -/
def Config.recalculates (cfg : Config) : Bool :=
  !cfg.userprog && (cfg.aging || cfg.mlfqs)

namespace Sched

variable {cfg : Config} {s s' : Sched} {cur th : Thread} {t : Tid}

/-- The clocks of the threads that are allocated. -/
def clocks (s : Sched) (t : Tid) : Option Clock :=
  (s.threads t).map Thread.clock

/-- `s'` has the clocks, the load average and the threads of `s`. -/
structure SameClocks (s s' : Sched) : Prop where
  clocks : s'.clocks = s.clocks
  loadAvg : s'.loadAvg = s.loadAvg
  allList : s'.allList = s.allList
  ticks : s'.ticks = s.ticks
  retired : s.Retired → s'.Retired

theorem SameClocks.refl (s : Sched) : SameClocks s s :=
  ⟨rfl, rfl, rfl, rfl, id⟩

theorem SameClocks.trans {s'' : Sched} (h : SameClocks s s') (h' : SameClocks s' s'') :
    SameClocks s s'' where
  clocks := h'.clocks.trans h.clocks
  loadAvg := h'.loadAvg.trans h.loadAvg
  allList := h'.allList.trans h.allList
  ticks := h'.ticks.trans h.ticks
  retired := h'.retired ∘ h.retired

/-- What of a state matters to the clocks. -/
theorem SameClocks.of_eq (hthreads : s'.threads = s.threads) (hready : s'.readyList = s.readyList)
    (hidle : s'.idleThread = s.idleThread) (hload : s'.loadAvg = s.loadAvg)
    (hall : s'.allList = s.allList) (hticks : s'.ticks = s.ticks) : SameClocks s s' := by
  refine ⟨funext fun t => ?_, hload, hall, hticks, fun hr => ⟨?_, ?_, ?_⟩⟩
  · rw [Sched.clocks, hthreads]
    rfl
  · rw [HasStatus, hthreads]
    exact hr.dying
  · rw [hready]
    exact hr.notReady
  · rw [hidle]
    exact hr.notIdle

/-! ### One thread changes -/

theorem clocks_of_threads (h : s.threads t = some th) : s.clocks t = some th.clock := by
  rw [clocks, h, Option.map_some]

@[simp] theorem clocks_setThread (s : Sched) (t : Tid) (th : Thread) :
    (s.setThread t th).clocks = update s.clocks t (some th.clock) := by
  funext x
  rcases eq_or_ne x t with rfl | hx
  · simp [clocks, setThread]
  · simp [clocks, setThread, hx]

/-- A thread that keeps its clock. -/
theorem clocks_setThread_of_eq {th' : Thread} (h : s.threads t = some th)
    (heq : th'.clock = th.clock) : (s.setThread t th').clocks = s.clocks := by
  rw [clocks_setThread, heq, ← clocks_of_threads h, update_eq_self]

/-- A thread that has not exited changes, and keeps its clock. -/
theorem sameClocks_setThread {th' : Thread} (h : s.threads t = some th) (hst : th.status ≠ .dying)
    (heq : th'.clock = th.clock) : SameClocks s (s.setThread t th') :=
  ⟨clocks_setThread_of_eq h heq, rfl, rfl, rfl, fun hr => hr.setThread (hr.ne h hst) th'⟩

/-! ### The functions of the scheduler -/

/-- Wakeups and switches leave the clocks alone. -/
theorem Rescheduled.sameClocks {P : Tid → Prop} (h : Rescheduled P s s') : SameClocks s s' := by
  have hclock : ∀ o : Option Thread, o.map Thread.clock = (o.map Thread.bare).map Thread.clock := by
    intro o
    cases o <;> rfl
  refine ⟨funext fun t => ?_, by rw [h.same], by rw [h.same], by rw [h.same], h.retired⟩
  rw [Sched.clocks, hclock, h.bare, ← hclock]
  rfl

theorem threadUnblock_sameClocks : (s.threadUnblock t).Post (SameClocks s) :=
  (threadUnblock_rescheduled (P := fun _ => False)).mono fun _ _ h => h.sameClocks

theorem threadBlock_sameClocks {pc : Pc} :
    (s.threadBlock pc).Post (SameClocks s) :=
  (threadBlock_rescheduled (P := fun _ => False) id).mono fun _ _ h => h.sameClocks

theorem threadYield_sameClocks {pc : Pc} :
    (s.threadYield pc).Post (SameClocks s) :=
  (threadYield_rescheduled (P := fun _ => False) fun _ _ => False.elim).mono fun _ _ h =>
    h.sameClocks

/-- A thread that exits calls `schedule`: its page is freed, unless it is the initial thread. -/
theorem schedule_exit (hcur : s.threads s.current = some cur) (hst : cur.status = .dying)
    (hready : s.current ∉ s.readyList) (hidle : s.idleThread ≠ some s.current) :
    s.schedule.Post fun s' => ∃ s₁, SameClocks s s₁ ∧
      s' = if s.current = initialThread then s₁
        else { s₁ with threads := update s₁.threads s.current none } := by
  refine (schedule_frame (P := fun _ => False) hcur).mono fun s' _ ⟨s₁, h₁, hnext, hs'⟩ =>
    ⟨s₁, h₁.sameClocks, ?_⟩
  have hne : s.current ≠ s₁.current := by
    intro heq
    rw [← heq] at hnext
    exact hnext.mem.elim hready hidle
  rw [hs']
  by_cases hinit : s.current = initialThread
  · rw [if_neg fun h => h.2.2 hinit, if_pos hinit]
  · rw [if_pos ⟨hne, hst, hinit⟩, if_neg hinit]

theorem SameClocks.threadUnblock {s₀ : Sched} (s : Sched) (t : Tid) (h : SameClocks s₀ s) :
    (s.threadUnblock t).Post (SameClocks s₀) :=
  threadUnblock_sameClocks.mono fun _ _ h' => h.trans h'

theorem signal_sameClocks {w : WaiterId} : (s.signal w).Post (SameClocks s) :=
  signal_inv (fun _ h => h.trans (.of_eq rfl rfl rfl rfl rfl rfl)) SameClocks.threadUnblock
    (.refl s)

/-- Semaphores are no part of the clocks. -/
theorem sameClocks_setSema (s : Sched) (i : SemaId) (sema : Sema) :
    SameClocks s (s.setSema i sema) :=
  .of_eq rfl rfl rfl rfl rfl rfl

theorem semaWake_sameClocks {i : SemaId} :
    (s.semaWake i).Post (SameClocks s) :=
  semaWake_inv (fun s' sema h => h.trans (sameClocks_setSema s' i sema)) SameClocks.threadUnblock
    (.refl s)

theorem blockCheckLoop_sameClocks {rest : List Tid} :
    (s.blockCheckLoop rest).Post (SameClocks s) :=
  blockCheckLoop_inv (fun _ _ h => h.trans (.of_eq rfl rfl rfl rfl rfl rfl))
    SameClocks.threadUnblock (.refl s)

/-! ### The tick -/

/-- The clock of a thread after the recalculations of the tick `ticks`: the running thread
ages, and every second and every fourth tick the threads of `all_list` get a new
`recent_cpu` and a new priority. -/
def recalculated (s : Sched) (ticks : ℕ) (loadAvg : ℤ) (t : Tid) (c : Clock) : Clock :=
  let c := if t = s.current then c.age else c
  let c := if ticks % timerFreq = 0 ∧ t ∈ s.allList then c.decay loadAvg else c
  if ticks % 4 = 0 ∧ t ∈ s.allList then c.reprice else c

/-- A thread's clock after the next tick, in the builds that recalculate. -/
def tickClock (s : Sched) (t : Tid) (c : Clock) : Clock :=
  s.recalculated (s.ticks + 1) s.tickLoadAvg t c

/-- The effect of a tick on the clocks. -/
structure Ticked (cfg : Config) (s s' : Sched) : Prop where
  clocks : ∀ t, s'.clocks t =
    (s.clocks t).map fun c => if cfg.recalculates then s.tickClock t c else c
  loadAvg : s'.loadAvg =
    if cfg.recalculates ∧ (s.ticks + 1) % timerFreq = 0 then s.tickLoadAvg else s.loadAvg
  allList : s'.allList = s.allList
  ticks : s'.ticks = s.ticks + 1
  retired : s.Retired → s'.Retired

theorem Ticked.trans {s'' : Sched} (h : Ticked cfg s s') (h' : SameClocks s' s'') :
    Ticked cfg s s'' where
  clocks t := h'.clocks ▸ h.clocks t
  loadAvg := h'.loadAvg.trans h.loadAvg
  allList := h'.allList.trans h.allList
  ticks := h'.ticks.trans h.ticks
  retired := h'.retired ∘ h.retired

/-- A loop over `all_list` that changes the clock of each thread by itself. -/
theorem clocks_mapAll {f : Thread → Thread} {g : Clock → Clock}
    (hfg : ∀ th, (f th).clock = g th.clock) (t : Tid) :
    (s.mapAll f).clocks t = (s.clocks t).map fun c => if t ∈ s.allList then g c else c := by
  unfold mapAll clocks
  dsimp only
  cases hth : s.threads t with
  | none => split <;> rfl
  | some th =>
    by_cases hmem : t ∈ s.allList
    · simp [hmem, hfg]
    · simp [hmem]

/-- A loop over `all_list` that changes no status. -/
theorem Retired.mapAll (h : s.Retired) {f : Thread → Thread}
    (hf : ∀ th, (f th).status = th.status) : (s.mapAll f).Retired := by
  obtain ⟨th, hth, hst⟩ := h.dying
  refine ⟨?_, h.notReady, h.notIdle⟩
  by_cases hmem : initialThread ∈ s.allList
  · exact ⟨f th, by simp [Sched.mapAll, hmem, hth], (hf th).trans hst⟩
  · exact ⟨th, by simp [Sched.mapAll, hmem, hth], hst⟩

theorem threadAging_cases :
    s.threadAging.Post fun s' => ∃ cur, s.threads s.current = some cur ∧
      cur.status = .running ∧
      s' = s.setThread s.current { cur with recentCpu := fixedCalInt cur.recentCpu 1 .add } :=
  threadCurrent_spec.bind fun cur _ hcur => ⟨cur, hcur.1, hcur.2, rfl⟩

/-- `thread_aging` counts the tick for the running thread. -/
theorem threadAging_clocks : s.threadAging.Post fun s₁ =>
    (∀ t, s₁.clocks t = (s.clocks t).map fun c => if t = s.current then c.age else c) ∧
      s₁.calculateLoadAvg.loadAvg = s.calculateLoadAvg.loadAvg ∧ s₁.loadAvg = s.loadAvg ∧
      s₁.allList = s.allList ∧ s₁.ticks = s.ticks ∧ (s.Retired → s₁.Retired) := by
  refine threadAging_cases.mono fun s₁ _ ⟨cur, hcur, hst, hs₁⟩ => ?_
  subst hs₁
  refine ⟨fun t => ?_, rfl, rfl, rfl, rfl, fun hr => hr.setThread (hr.ne hcur ?_) _⟩
  · rw [clocks_setThread]
    rcases eq_or_ne t s.current with rfl | hne
    · rw [update_self, clocks_of_threads hcur]
      simp [Clock.age, Thread.clock]
    · simp [hne]
  · rw [hst]
    decide

/-- What happens each second. -/
theorem calculateRecentCpu_clocks {s₂ : Sched}
    (hs₂ : (if s.ticks % timerFreq = 0 then s.calculateLoadAvg.calculateRecentCpu else s) = s₂) :
    (∀ t, s₂.clocks t = (s.clocks t).map fun c => if s.ticks % timerFreq = 0 ∧ t ∈ s.allList
        then c.decay s.calculateLoadAvg.loadAvg else c) ∧
      s₂.loadAvg = (if s.ticks % timerFreq = 0 then s.calculateLoadAvg.loadAvg else s.loadAvg) ∧
      s₂.allList = s.allList ∧ s₂.ticks = s.ticks ∧ (s.Retired → s₂.Retired) := by
  subst hs₂
  by_cases hfreq : s.ticks % timerFreq = 0
  · rw [if_pos hfreq, if_pos hfreq]
    refine ⟨fun t => ?_, rfl, rfl, rfl, fun hr => ?_⟩
    · rw [calculateRecentCpu, clocks_mapAll (g := Clock.decay s.calculateLoadAvg.loadAvg)
        fun _ => rfl]
      simp only [hfreq, true_and]
      rfl
    · exact Retired.mapAll (s := s.calculateLoadAvg) ⟨hr.dying, hr.notReady, hr.notIdle⟩
        fun _ => rfl
  · rw [if_neg hfreq, if_neg hfreq]
    refine ⟨fun t => ?_, rfl, rfl, rfl, id⟩
    simp [hfreq]

/-- The recalculations, from the state after `block_check`. -/
theorem mlfqsTick_clocks :
    (s.mlfqsTick cfg).Post fun r =>
      (∀ t, r.1.clocks t = (s.clocks t).map fun c =>
        if cfg.recalculates then s.recalculated s.ticks s.calculateLoadAvg.loadAvg t c else c) ∧
      r.1.loadAvg = (if cfg.recalculates ∧ s.ticks % timerFreq = 0 then s.calculateLoadAvg.loadAvg
        else s.loadAvg) ∧
      r.1.allList = s.allList ∧ r.1.ticks = s.ticks ∧ (s.Retired → r.1.Retired) := by
  unfold mlfqsTick
  split
  · rename_i hcfg
    have hcfg' : cfg.recalculates = true := hcfg
    refine threadAging_clocks.bind fun s₁ _ h₁ => ?_
    obtain ⟨hclocks₁, hnew, hload₁, hall₁, hticks₁, hretired₁⟩ := h₁
    -- the second
    generalize hs₂ : (if s₁.ticks % timerFreq = 0 then s₁.calculateLoadAvg.calculateRecentCpu
      else s₁) = s₂
    obtain ⟨hclocks₂, hload₂, hall₂, hticks₂, hretired₂⟩ := calculateRecentCpu_clocks hs₂
    rw [hnew, hload₁, hticks₁] at hload₂
    rw [hall₁] at hall₂
    rw [hticks₁] at hticks₂
    rw [pure_eq, Spec.ok_iff, hticks₂]
    -- the fourth tick
    have hclocks : ∀ t, s₂.clocks t = (s.clocks t).map fun c =>
        (fun c => if s.ticks % timerFreq = 0 ∧ t ∈ s.allList
          then Clock.decay s.calculateLoadAvg.loadAvg c else c)
          (if t = s.current then c.age else c) := by
      intro t
      rw [hclocks₂, hclocks₁, Option.map_map, hnew, hall₁, hticks₁]
      rfl
    by_cases h4 : s.ticks % 4 = 0
    · rw [if_pos h4]
      refine ⟨fun t => ?_, ?_, hall₂, hticks₂, fun hr => ?_⟩
      · refine (clocks_mapAll (s := s₂) (g := Clock.reprice) (fun _ => rfl) t).trans ?_
        rw [hclocks, Option.map_map, hall₂]
        simp only [recalculated, hcfg', h4, true_and, if_true]
        rfl
      · simp only [hcfg', true_and]
        exact hload₂
      · have hr₂ := hretired₂ (hretired₁ hr)
        have hmap := hr₂.mapAll (f := fun th =>
          { th with priority := mlfqsPriority th.recentCpu th.nice }) fun _ => rfl
        refine ⟨hmap.dying, fun hmem => hmap.notReady ?_, hmap.notIdle⟩
        exact (listSort_perm _ _).mem_iff.mp hmem
    · rw [if_neg h4]
      refine ⟨fun t => ?_, ?_, hall₂, hticks₂, fun hr => hretired₂ (hretired₁ hr)⟩
      · rw [hclocks]
        simp only [recalculated, hcfg', h4, false_and, if_true, if_false]
      · simp only [hcfg', true_and]
        exact hload₂
  · rename_i hcfg
    have hcfg' : cfg.recalculates = false := Bool.not_eq_true _ ▸ hcfg
    refine ⟨fun t => ?_, ?_, rfl, rfl, id⟩
    · simp [hcfg']
    · simp [hcfg']

/-- **The effect of a timer tick on the clocks**, from the state before it. -/
theorem timerTick_clocks (hp : Partition s) :
    (s.timerTick cfg).Post fun r => Ticked cfg s r.1 := by
  obtain ⟨cur, hcur, hst, -⟩ := hp.threadCurrent
  unfold timerTick
  set s₁ : Sched := { s with ticks := s.ticks + 1, threadTicks := s.threadTicks + 1 } with hs₁
  refine (blockCheckLoop_effect (s := s₁) hcur hst).bind fun s₂ heq h₂ => ?_
  obtain ⟨hsame, hready⟩ := h₂
  have hsame' := blockCheckLoop_sameClocks.of_eq_ok heq
  refine mlfqsTick_clocks.bind fun r _ ⟨hclocks, hload, hall, hticks, hretired⟩ => ?_
  have hticks₂ : s₂.ticks = s.ticks + 1 := hsame.ticks
  have hload₂ := calculateLoadAvg_tick hsame hready
  refine ⟨fun t => ?_, ?_, hall.trans hsame.allList, hticks.trans hticks₂,
    fun hr => hretired (hsame'.retired ?_)⟩
  · refine (hclocks t).trans ?_
    rw [hsame'.clocks, hload₂, hticks₂]
    simp only [tickClock, recalculated, hsame.current, hsame.allList]
    rfl
  · refine hload.trans ?_
    rw [hload₂, hticks₂, hsame.loadAvg]
  · exact ⟨hr.dying, hr.notReady, hr.notIdle⟩

/-! ### Every step -/

/-- A thread was made, with the clock `c`. -/
structure Created (s : Sched) (c : Clock) (s' : Sched) : Prop where
  clocks : s'.clocks = update s.clocks s.nextTid (some c)
  loadAvg : s'.loadAvg = s.loadAvg
  allList : s'.allList = s.allList ++ [s.nextTid]
  ticks : s'.ticks = s.ticks
  retired : s.Retired → s'.Retired

/-- The running thread has exited. -/
structure Exited (s s' : Sched) : Prop where
  clocks : s'.clocks = if s.current = initialThread then s.clocks
    else update s.clocks s.current none
  loadAvg : s'.loadAvg = s.loadAvg
  allList : s'.allList = s.allList.erase s.current
  ticks : s'.ticks = s.ticks
  retired : s.Retired ∨ s.current = initialThread → s'.Retired

/-- The running thread has got the clock `c`. -/
structure Changed (s : Sched) (c : Clock) (s' : Sched) : Prop where
  clocks : s'.clocks = update s.clocks s.current (some c)
  loadAvg : s'.loadAvg = s.loadAvg
  allList : s'.allList = s.allList
  ticks : s'.ticks = s.ticks
  retired : s.Retired → s'.Retired

/-- What a step does to the clocks. -/
def ClockStep (cfg : Config) (s : Sched) (a : Action) (s' : Sched) : Prop :=
  match a with
  | .initThread p _ => ∃ c, s.clocks s.current = some c ∧ Created s { c with priority := p } s'
  | .threadExit => Exited s s'
  | .runSet => ∃ cur th, s.threads s.current = some cur ∧ cur.runSet = some th ∧
      Changed s th.clock s'
  | .timerInterrupt => Ticked cfg s s'
  | _ => SameClocks s s'

/-- The running thread gets another clock. -/
theorem changed_setThread (hcur : s.threads s.current = some cur) (hst : cur.status = .running)
    (th : Thread) : Changed s th.clock (s.setThread s.current th) := by
  refine ⟨clocks_setThread s s.current th, rfl, rfl, rfl, fun hr => hr.setThread ?_ th⟩
  refine hr.ne hcur ?_
  rw [hst]
  decide

theorem threadExit_exited (hp : Partition s) (hcur : s.threads s.current = some cur)
    (hst : cur.status = .running) (hpc : cur.pc.isIdle = false) :
    s.threadExit.Post (Exited s) := by
  have hx : s.shape s.current = some (.running, cur.pc) := hst ▸ shape_of_threads hcur
  have hready : s.current ∉ s.readyList := hp.housed.not_mem hp.current_home .ready
  have hidle : s.idleThread ≠ some s.current := hp.toCore.idleThread_ne hx hpc
  unfold threadExit
  rw [threadCurrent_of hcur hst, ok_bind]
  set s₀ : Sched := { s with allList := s.allList.erase s.current } with hs₀
  have hdying : (s₀.setThread s.current { cur with status := .dying }).threads s.current =
      some { cur with status := .dying } := update_self _ _ _
  have hclocks : (s₀.setThread s.current { cur with status := .dying }).clocks = s.clocks :=
    clocks_setThread_of_eq (s := s₀) hcur rfl
  have hretired : s.Retired ∨ s.current = initialThread →
      (s₀.setThread s.current { cur with status := .dying }).Retired := by
    rintro (hr | hinit)
    · have halive : cur.status ≠ .dying := by
        rw [hst]
        decide
      exact Retired.setThread (s := s₀) ⟨hr.dying, hr.notReady, hr.notIdle⟩ (hr.ne hcur halive) _
    · rw [hinit] at hready hidle
      refine ⟨⟨{ cur with status := .dying }, ?_, rfl⟩, hready, hidle⟩
      rw [← hinit]
      exact hdying
  refine (schedule_exit hdying rfl hready hidle).mono fun s' _ ⟨s₁, h₁, hs'⟩ => ?_
  change s' = if s.current = initialThread then s₁
    else { s₁ with threads := update s₁.threads s.current none } at hs'
  by_cases hinit : s.current = initialThread
  · rw [hs', if_pos hinit]
    exact ⟨by rw [if_pos hinit, h₁.clocks, hclocks], h₁.loadAvg, h₁.allList, h₁.ticks,
      fun hr => h₁.retired (hretired hr)⟩
  · rw [hs', if_neg hinit]
    refine ⟨?_, h₁.loadAvg, h₁.allList, h₁.ticks, fun hr => ?_⟩
    · rw [if_neg hinit, ← hclocks, ← h₁.clocks]
      funext t
      rcases eq_or_ne t s.current with rfl | hne
      · simp [clocks]
      · simp [clocks, hne]
    · obtain ⟨⟨th₀, hth₀, hst₀⟩, hnotReady, hnotIdle⟩ := h₁.retired (hretired hr)
      exact ⟨⟨th₀, (update_of_ne (Ne.symm hinit) _ _).trans hth₀, hst₀⟩, hnotReady,
        hnotIdle⟩

theorem initThread_created (hp : Partition s) {p tail : ℤ} :
    (s.initThread p tail .code).Post fun s' =>
      ∃ c, s.clocks s.current = some c ∧ Created s { c with priority := p } s' := by
  refine threadCurrent_spec.bind fun cur _ hcur => Spec.ensure_of trivial fun _ => ?_
  refine ⟨cur.clock, clocks_of_threads hcur.1, clocks_setThread _ _ _, rfl, rfl, rfl,
    fun hr => ?_⟩
  have hlt : initialThread < s.nextTid := by
    obtain ⟨th, hth, -⟩ := hr.dying
    exact hp.fresh _ _ (shape_of_threads hth)
  have hr' : Retired { s with allList := s.allList ++ [s.nextTid], nextTid := s.nextTid + 1 } :=
    ⟨hr.dying, hr.notReady, hr.notIdle⟩
  exact hr'.setThread hlt.ne' _

/-- **What every step does to the clocks.** -/
theorem step_clocks {a : Action} (hp : Partition s) :
    (s.step cfg a).Post (ClockStep cfg s a) := by
  obtain ⟨cur, hcur, hst, heq⟩ := hp.threadCurrent
  have halive : cur.status ≠ .dying := by
    rw [hst]
    decide
  -- the running thread goes on elsewhere
  have hgoto : ∀ pc, SameClocks s (s.goto cur pc) := fun pc =>
    sameClocks_setThread hcur halive rfl
  unfold step
  rw [heq, ok_bind]
  cases a with
  | initThread p tail => exact Spec.require fun _ => initThread_created hp
  | startThread t =>
    refine Spec.require fun _ => ?_
    refine (threadUnblock_running hcur hst).bind fun s₁ hs₁ hcur₁ => ?_
    exact (threadUnblock_sameClocks.of_eq_ok hs₁).trans (sameClocks_setThread hcur₁ halive rfl)
  | createCheck =>
    dsimp only
    split
    · exact hgoto _
    · trivial
  | threadYield => exact Spec.require fun _ => threadYield_sameClocks
  | threadExit =>
    refine Spec.require fun hpc => threadExit_exited hp hcur hst ?_
    rw [hpc]
    rfl
  | wait w =>
    refine Spec.require fun _ => threadBlock_sameClocks.mono fun s' _ h' => ?_
    have hwait : SameClocks s { s with waiters := update s.waiters w (some s.current) } :=
      .of_eq rfl rfl rfl rfl rfl rfl
    exact hwait.trans h'
  | signal w | intrSignal w => exact Spec.require fun _ => signal_sameClocks
  | semaDown i =>
    refine Spec.require fun _ => ?_
    unfold semaDown
    rw [heq, ok_bind]
    dsimp only
    split
    · exact threadBlock_sameClocks.mono fun s' _ h' => (sameClocks_setSema s i _).trans h'
    · exact (sameClocks_setSema s i _).trans
        (sameClocks_setThread (s := s.setSema i _) hcur halive rfl)
  | semaUp i =>
    exact Spec.require fun _ => semaWake_sameClocks.mono fun s' _ h' => (hgoto _).trans h'
  | timerSleep n =>
    refine Spec.require fun _ => ?_
    rw [pure_eq, Spec.ok_iff]
    split
    · exact .refl s
    · exact hgoto _
  | threadBlockWithTime =>
    dsimp only
    split
    · unfold threadBlockWithTime
      rw [heq, ok_bind]
      rename_i ticks _
      have hticks : SameClocks s (s.setThread s.current { cur with ticks := ticks }) :=
        sameClocks_setThread hcur halive rfl
      refine threadBlock_sameClocks.mono fun s' _ h' => hticks.trans (.trans ?_ h')
      exact .of_eq rfl rfl rfl rfl rfl rfl
    · trivial
  | threadSetPriority p | threadSetNice n => exact Spec.require fun _ => hgoto _
  | runSet =>
    dsimp only
    split
    · rename_i th hth
      exact ⟨cur, th, hcur, hth, changed_setThread hcur hst th⟩
    · trivial
  | idle =>
    unfold idleStep
    dsimp only
    split
    · refine ⟨(hgoto .idleUp).clocks, rfl, rfl, rfl, fun hr => ?_⟩
      have hne := hr.ne hcur halive
      have hr' : Retired { s with idleThread := some s.current } :=
        ⟨hr.dying, hr.notReady, fun heq => hne (Option.some.inj heq)⟩
      exact hr'.setThread hne _
    · exact semaWake_sameClocks.mono fun s' _ h' => (hgoto _).trans h'
    · exact threadYield_sameClocks
    · exact threadBlock_sameClocks
    · trivial
  | timerInterrupt =>
    refine Spec.require fun _ => ?_
    unfold timerInterrupt
    rw [heq, ok_bind]
    refine (timerTick_clocks hp).bind fun r _ hr => ?_
    dsimp only
    split
    · exact threadYield_sameClocks.mono fun s' _ h' => hr.trans h'
    · exact hr
  | intrSemaUp i => exact Spec.require fun _ => semaWake_sameClocks

/-! ### The threads of `all_list` -/

/-- The allocated threads are those of `all_list`, and the initial thread after it has
exited. -/
def Listed (s : Sched) : Prop :=
  ∀ t, s.clocks t ≠ none → t ∈ s.allList ∨ t = initialThread ∧ s.Retired

theorem ClockStep.listed {a : Action} (h : s.Listed) (hstep : ClockStep cfg s a s') :
    s'.Listed := by
  have same : s'.clocks = s.clocks → s'.allList = s.allList → (s.Retired → s'.Retired) →
      s'.Listed := fun hclocks hall hretired t ht => by
    rw [hclocks] at ht
    rw [hall]
    exact (h t ht).imp_right fun hinit => ⟨hinit.1, hretired hinit.2⟩
  have changed : ∀ c c', s.clocks s.current = some c → Changed s c' s' → s'.Listed := by
    intro c c' hc hch t ht
    rw [hch.allList]
    refine (h t ?_).imp_right fun hinit => ⟨hinit.1, hch.retired hinit.2⟩
    rcases eq_or_ne t s.current with rfl | hne
    · rw [hc]
      exact Option.some_ne_none c
    · rwa [hch.clocks, update_of_ne hne] at ht
  cases a with
  | initThread p tail =>
    obtain ⟨c, -, hcr⟩ := hstep
    intro t ht
    rw [hcr.allList, List.mem_append, List.mem_singleton]
    rcases eq_or_ne t s.nextTid with rfl | hne
    · exact .inl (.inr rfl)
    · rw [hcr.clocks, update_of_ne hne] at ht
      exact (h t ht).imp .inl fun hinit => ⟨hinit.1, hcr.retired hinit.2⟩
  | threadExit =>
    intro t ht
    have hex : Exited s s' := hstep
    rw [hex.allList]
    by_cases hinit : s.current = initialThread
    · rw [hex.clocks, if_pos hinit] at ht
      rcases eq_or_ne t s.current with rfl | hne
      · exact .inr ⟨hinit, hex.retired (.inr hinit)⟩
      · exact (h t ht).imp (List.mem_erase_of_ne hne).mpr
          fun hi => ⟨hi.1, hex.retired (.inr hinit)⟩
    · rw [hex.clocks, if_neg hinit] at ht
      rcases eq_or_ne t s.current with rfl | hne
      · exact absurd (update_self _ _ _) ht
      · rw [update_of_ne hne] at ht
        exact (h t ht).imp (List.mem_erase_of_ne hne).mpr
          fun hi => ⟨hi.1, hex.retired (.inl hi.2)⟩
  | runSet =>
    obtain ⟨cur, th, hcur, -, hch⟩ := hstep
    exact changed cur.clock _ (clocks_of_threads hcur) hch
  | timerInterrupt =>
    have htick : Ticked cfg s s' := hstep
    intro t ht
    rw [htick.allList]
    refine (h t fun hnone => ht ?_).imp_right fun hinit => ⟨hinit.1, htick.retired hinit.2⟩
    rw [htick.clocks, hnone, Option.map_none]
  | _ =>
    have hsame : SameClocks s s' := hstep
    exact same hsame.clocks hsame.allList hsame.retired

/-- A thread that has not exited is in `all_list`. -/
theorem Listed.mem_allList (h : s.Listed) (hth : s.threads t = some th) (hst : th.status ≠ .dying) :
    t ∈ s.allList := by
  rcases h t (by simp [clocks_of_threads hth]) with hmem | ⟨rfl, hr⟩
  · exact hmem
  · exact absurd rfl (hr.ne hth hst)

/-- The running thread is in `all_list`. -/
theorem Listed.current_mem (h : s.Listed) (hp : Partition s) : s.current ∈ s.allList := by
  obtain ⟨cur, hcur, hst, -⟩ := hp.threadCurrent
  refine h.mem_allList hcur ?_
  rw [hst]
  decide

/-- A thread that is left in `all_list` was there before, with the same clock. -/
theorem Exited.of_mem_allList {c : Clock} (h : Exited s s') (hp : Partition s)
    (ht : t ∈ s'.allList) (hc : s'.clocks t = some c) : t ∈ s.allList ∧ s.clocks t = some c := by
  rw [h.allList, hp.allNodup.mem_erase_iff] at ht
  rw [h.clocks] at hc
  split at hc
  · exact ⟨ht.2, hc⟩
  · rw [update_of_ne ht.1] at hc
    exact ⟨ht.2, hc⟩

end Sched

/-- The clocks when interrupts come on: the idle thread was made with `PRI_MIN`. -/
theorem threadStart_clocks {value : SemaId → ℕ} {tail tail' : ℤ} {s₀ : Sched}
    (h : threadStart (threadInit value tail) tail' = ok s₀) :
    (∀ t, s₀.clocks t = if t = 0 then some ⟨priDefault, 0, 0⟩
      else if t = idleTid then some ⟨priMin, 0, 0⟩ else none) ∧
    s₀.loadAvg = 0 ∧ s₀.ticks = 0 := by
  obtain rfl := Outcome.ok.inj h
  refine ⟨fun t => ?_, rfl, rfl⟩
  rcases eq_or_ne t idleTid with rfl | ht
  · rfl
  · rw [Sched.clocks_setThread, update_of_ne ht, if_neg ht]
    change Sched.clocks (Sched.setThread _ idleTid _) t = _
    rw [Sched.clocks_setThread, update_of_ne ht]
    by_cases h0 : t = 0
    · subst h0
      rfl
    · simp [Sched.clocks, threadInit, Sched.initialThread, h0]

theorem threadStart_listed {value : SemaId → ℕ} {tail tail' : ℤ} {s₀ : Sched}
    (h : threadStart (threadInit value tail) tail' = ok s₀) : s₀.Listed := by
  intro t ht
  obtain ⟨-, -, -, -, -, -, -, hall, -⟩ := threadStart_eq h
  rw [(threadStart_clocks h).1] at ht
  rw [hall]
  left
  split at ht
  · subst t
    exact List.mem_cons_self
  · split at ht
    · subst t
      exact List.mem_cons_of_mem _ List.mem_cons_self
    · exact absurd rfl ht

/-- **The threads that have not exited are in `all_list`**, in every reachable state. -/
theorem SchedReachable.listed {cfg : Config} {C : Sched → Action → Prop} {s : Sched}
    (h : SchedReachable cfg C s) : s.Listed := by
  obtain ⟨value, tail, tail', s₀, h₀, hreach⟩ := h
  have hinv : s.Partition ∧ s.Listed := by
    refine hreach.invariant (I := fun s => s.Partition ∧ s.Listed)
      ⟨threadStart_partition h₀, threadStart_listed h₀⟩ ?_
    rintro s a s' ⟨hp, hl⟩ - hstep
    exact ⟨(Sched.step_spec hp).of_eq_ok hstep, ((Sched.step_clocks hp).of_eq_ok hstep).listed hl⟩
  exact hinv.2

end Pintos
