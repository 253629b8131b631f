import Pintos.SchedulerOrder

/-!
# The Effect of a Timer Tick

What `thread_tick` does, as functions of the state before it: which sleepers become
ready (`due`), which priority every thread has afterwards (`tickPriority`), and whether
the interrupt yields on return (`tickYields`). `timerTick_effect` says that the loops of
`block_check`, `calculate_recent_cpu` and `calculate_priority` compute these.

## Main results

* `blockCheck_effect`: `block_check` readies exactly the due sleepers and changes nothing
  of a thread but its status.
* `timerTick_effect`: the queue, the priorities and the yield after a tick.
-/

namespace Pintos

open Verif Verif.Outcome

namespace Sched

variable {s s' : Sched}

/-! ### Members read through a list element -/

/-- The `recent_cpu` member of a thread. -/
def recentCpu (s : Sched) (t : Tid) : ℤ :=
  (s.threads t).elim 0 Thread.recentCpu

/-- The `nice` member of a thread. -/
def nice (s : Sched) (t : Tid) : ℤ :=
  (s.threads t).elim 0 Thread.nice

/-- The `ticks` member of a thread. -/
def wakeTick (s : Sched) (t : Tid) : ℕ :=
  (s.threads t).elim 0 Thread.ticks

/-! ### What the tick computes -/

/-- The sleepers the next tick wakes. -/
def due (s : Sched) : List Tid :=
  s.blockedList.filter fun t => s.wakeTick t ≤ s.ticks + 1

/-- The load average after the next tick under `-mlfqs` or `-aging`. -/
def tickLoadAvg (s : Sched) : ℤ :=
  let readyLength : ℤ := s.readyList.length + s.due.length
  nextLoadAvg s.loadAvg
    (if s.idleThread = some s.current then readyLength else readyLength + 1)

/-- A thread's `recent_cpu` after the next tick under `-mlfqs` or `-aging`. -/
def tickRecentCpu (s : Sched) (t : Tid) : ℤ :=
  let aged := if t = s.current then fixedCalInt (s.recentCpu t) 1 .add else s.recentCpu t
  if (s.ticks + 1) % timerFreq = 0 ∧ t ∈ s.allList then
    nextRecentCpu s.tickLoadAvg aged (s.nice t)
  else aged

/-- The next tick recalculates priorities. -/
def Recalculates (cfg : Config) (s : Sched) : Prop :=
  (!cfg.userprog && (cfg.aging || cfg.mlfqs)) = true ∧ (s.ticks + 1) % 4 = 0

instance (cfg : Config) (s : Sched) : Decidable (s.Recalculates cfg) :=
  inferInstanceAs (Decidable (_ ∧ _))

/-- A thread's priority after the next tick. -/
def tickPriority (cfg : Config) (s : Sched) (t : Tid) : ℤ :=
  if s.Recalculates cfg ∧ t ∈ s.allList then mlfqsPriority (s.tickRecentCpu t) (s.nice t)
  else s.priority t

/-- The next tick yields on return: the time slice is over, or the running thread's
priority drops. -/
def TickYields (cfg : Config) (s : Sched) : Prop :=
  timeSlice ≤ s.threadTicks + 1 ∨ s.tickPriority cfg s.current < s.priority s.current

/-! ### `block_check` -/

/-- `s'` differs from `s` in the statuses of threads and in the queues at most. -/
structure StatusOnly (s s' : Sched) : Prop where
  threads : ∀ t, (s'.threads t).map (fun th => { th with status := .ready }) =
    (s.threads t).map fun th => { th with status := .ready }
  running : s'.threads s.current = s.threads s.current
  current : s'.current = s.current
  idleThread : s'.idleThread = s.idleThread
  allList : s'.allList = s.allList
  loadAvg : s'.loadAvg = s.loadAvg
  ticks : s'.ticks = s.ticks
  threadTicks : s'.threadTicks = s.threadTicks

theorem StatusOnly.refl (s : Sched) : StatusOnly s s :=
  ⟨fun _ => rfl, rfl, rfl, rfl, rfl, rfl, rfl, rfl⟩

theorem StatusOnly.trans {s'' : Sched} (h : StatusOnly s s') (h' : StatusOnly s' s'') :
    StatusOnly s s'' where
  threads t := (h'.threads t).trans (h.threads t)
  running := by
    rw [← h.running, ← h.current]
    exact h'.running
  current := h'.current.trans h.current
  idleThread := h'.idleThread.trans h.idleThread
  allList := h'.allList.trans h.allList
  loadAvg := h'.loadAvg.trans h.loadAvg
  ticks := h'.ticks.trans h.ticks
  threadTicks := h'.threadTicks.trans h.threadTicks

/-- A member other than the status reads the same in both states. -/
theorem StatusOnly.elim_eq {α : Type} (h : StatusOnly s s') (t : Tid) (a : α) (f : Thread → α)
    (hf : ∀ th, f { th with status := .ready } = f th) :
    (s'.threads t).elim a f = (s.threads t).elim a f :=
  elim_eq_of_map (h.threads t) a f hf

theorem StatusOnly.priority (h : StatusOnly s s') : s'.priority = s.priority :=
  funext fun t => h.elim_eq t _ _ fun _ => rfl

theorem StatusOnly.recentCpu (h : StatusOnly s s') : s'.recentCpu = s.recentCpu :=
  funext fun t => h.elim_eq t _ _ fun _ => rfl

theorem StatusOnly.nice (h : StatusOnly s s') : s'.nice = s.nice :=
  funext fun t => h.elim_eq t _ _ fun _ => rfl

theorem StatusOnly.wakeTick (h : StatusOnly s s') : s'.wakeTick = s.wakeTick :=
  funext fun t => h.elim_eq t _ _ fun _ => rfl

theorem threadUnblock_statusOnly {t : Tid} {cur : Thread} (hcur : s.threads s.current = some cur)
    (hst : cur.status = .running) :
    (s.threadUnblock t).Post fun s' =>
      StatusOnly s s' ∧ s'.readyList.Perm (t :: s.readyList) := by
  unfold threadUnblock
  split
  · trivial
  · rename_i th hth
    refine Spec.ensure_of trivial fun hblocked => ⟨?_, listInsertOrdered_perm _ _ _⟩
    have hne : s.current ≠ t := by
      rintro rfl
      rw [hcur] at hth
      cases hth
      rw [hst] at hblocked
      cases hblocked
    refine ⟨fun x => ?_, Function.update_of_ne hne _ _, rfl, rfl, rfl, rfl, rfl, rfl⟩
    rcases eq_or_ne x t with rfl | hx
    · rw [hth]
      simp [setThread]
    · simp [setThread, hx]

/-- The loop readies the due threads among those it visits. -/
theorem blockCheckLoop_effect {rest : List Tid} {cur : Thread}
    (hcur : s.threads s.current = some cur) (hst : cur.status = .running) :
    (s.blockCheckLoop rest).Post fun s' =>
      StatusOnly s s' ∧
      s'.readyList.Perm ((rest.filter fun t => s.wakeTick t ≤ s.ticks) ++ s.readyList) := by
  induction rest generalizing s with
  | nil => exact ⟨.refl s, List.Perm.refl _⟩
  | cons t rest ih =>
    rw [blockCheckLoop]
    split
    · trivial
    rename_i th hth
    have hwake : s.wakeTick t = th.ticks := by rw [wakeTick, hth, Option.elim_some]
    split_ifs with hle
    · refine (threadUnblock_statusOnly hcur hst).bind fun s₁ _ h₁ => ?_
      set s₂ : Sched := { s₁ with blockedList := s₁.blockedList.erase t }
      have h₂ : StatusOnly s s₂ := ⟨h₁.1.1, h₁.1.2, h₁.1.3, h₁.1.4, h₁.1.5, h₁.1.6, h₁.1.7, h₁.1.8⟩
      have hcur₂ : s₂.threads s₂.current = some cur := by
        rw [h₂.current, h₂.running]
        exact hcur
      refine (ih hcur₂).mono fun s₃ _ h₃ => ⟨h₂.trans h₃.1, ?_⟩
      refine h₃.2.trans ?_
      rw [h₂.wakeTick, h₂.ticks, List.filter_cons_of_pos (by simpa [hwake] using hle)]
      exact (List.Perm.append_left _ h₁.2).trans List.perm_middle
    · rw [List.filter_cons_of_neg (by simpa [hwake] using hle)]
      exact ih hcur

/-! ### The recalculations -/

/-- A loop over `all_list` that changes each thread by itself. -/
theorem elim_mapAll {α : Type} {f : Thread → Thread} {t : Tid} {a : α} {g : Thread → α}
    (hlive : t ∈ s.allList → s.threads t ≠ none) :
    ((s.mapAll f).threads t).elim a g =
      if t ∈ s.allList then (s.threads t).elim a (g ∘ f) else (s.threads t).elim a g := by
  unfold mapAll
  dsimp only
  split
  · obtain ⟨th, hth⟩ := Option.ne_none_iff_exists'.mp (hlive ‹_›)
    rw [hth]
    rfl
  · rfl

/-- A thread's `recent_cpu` when `calculate_priority` reads it, from the state after
`block_check`. -/
def agedRecentCpu (s : Sched) (t : Tid) : ℤ :=
  let aged := if t = s.current then fixedCalInt (s.recentCpu t) 1 .add else s.recentCpu t
  if s.ticks % timerFreq = 0 ∧ t ∈ s.allList then
    nextRecentCpu s.calculateLoadAvg.loadAvg aged (s.nice t)
  else aged

/-- `thread_aging` and the recalculation of `recent_cpu`, which leave everything else. -/
theorem aging_effect (hlive : ∀ t ∈ s.allList, s.threads t ≠ none) :
    s.threadAging.Post fun s₁ =>
      let s₂ := if s₁.ticks % timerFreq = 0 then s₁.calculateLoadAvg.calculateRecentCpu else s₁
      s₂.recentCpu = s.agedRecentCpu ∧ s₂.nice = s.nice ∧ s₂.priority = s.priority ∧
      s₂.readyList = s.readyList ∧ s₂.current = s.current ∧ s₂.allList = s.allList ∧
      s₂.ticks = s.ticks ∧ ∀ t ∈ s.allList, s₂.threads t ≠ none := by
  refine threadCurrent_spec.bind fun cur _ hcur => ?_
  rw [pure_eq, Spec.ok_iff]
  set s₁ := s.setThread s.current
    { cur with recentCpu := fixedCalInt cur.recentCpu 1 .add } with hs₁
  have hlive₁ : ∀ t ∈ s.allList, s₁.threads t ≠ none := by
    intro t ht
    rcases eq_or_ne t s.current with rfl | hne
    · simp [hs₁, setThread]
    · simpa [hs₁, setThread, hne] using hlive t ht
  have hread : ∀ t, s₁.recentCpu t =
      if t = s.current then fixedCalInt (s.recentCpu t) 1 .add else s.recentCpu t := by
    intro t
    rcases eq_or_ne t s.current with rfl | hne
    · simp [recentCpu, hs₁, setThread, hcur.1]
    · simp [recentCpu, hs₁, setThread, hne]
  have hnice : s₁.nice = s.nice := by
    funext t
    rcases eq_or_ne t s.current with rfl | hne
    · simp [nice, hs₁, setThread, hcur.1]
    · simp [nice, hs₁, setThread, hne]
  have hprio : s₁.priority = s.priority := priority_setThread_of_eq hcur.1 (by rfl)
  by_cases hfreq : s.ticks % timerFreq = 0
  · rw [if_pos (show s₁.ticks % timerFreq = 0 from hfreq)]
    refine ⟨funext fun t => ?_, funext fun t => ?_, funext fun t => ?_, rfl, rfl, rfl, rfl, ?_⟩
    · rw [recentCpu, calculateRecentCpu, elim_mapAll (hlive₁ t), agedRecentCpu, ← hread t]
      by_cases hmem : t ∈ s.allList
      · obtain ⟨th, hth⟩ := Option.ne_none_iff_exists'.mp (hlive₁ t hmem)
        rw [if_pos (show t ∈ s₁.calculateLoadAvg.allList from hmem), if_pos ⟨hfreq, hmem⟩,
          ← hnice, recentCpu, nice]
        simp only [calculateLoadAvg, hth, Option.elim_some, Function.comp]
        rfl
      · rw [if_neg (show t ∉ s₁.calculateLoadAvg.allList from hmem),
          if_neg fun hc => hmem hc.2]
        rfl
    · rw [nice, calculateRecentCpu, elim_mapAll (hlive₁ t), ← hnice]
      split <;> rfl
    · rw [priority, calculateRecentCpu, elim_mapAll (hlive₁ t), ← hprio]
      split <;> rfl
    · intro t ht
      obtain ⟨th, hth⟩ := Option.ne_none_iff_exists'.mp (hlive₁ t ht)
      have hmem : t ∈ s₁.calculateLoadAvg.allList := ht
      simp [calculateRecentCpu, mapAll, hmem, show s₁.calculateLoadAvg.threads t = some th from hth]
  · rw [if_neg (show ¬s₁.ticks % timerFreq = 0 from hfreq)]
    refine ⟨funext fun t => ?_, hnice, hprio, rfl, rfl, rfl, rfl, hlive₁⟩
    have hnot : ¬(s.ticks % timerFreq = 0 ∧ t ∈ s.allList) := fun hc => hfreq hc.1
    rw [agedRecentCpu, if_neg hnot]
    exact hread t

/-- The recalculations after `block_check`. -/
theorem mlfqsTick_effect {cfg : Config} (hlive : ∀ t ∈ s.allList, s.threads t ≠ none) :
    (s.mlfqsTick cfg).Post fun r =>
      (∀ t, r.1.priority t =
        if ((!cfg.userprog && (cfg.aging || cfg.mlfqs)) = true ∧ s.ticks % 4 = 0) ∧ t ∈ s.allList
        then mlfqsPriority (s.agedRecentCpu t) (s.nice t) else s.priority t) ∧
      r.1.readyList.Perm s.readyList ∧ r.1.current = s.current ∧
      (r.2 = true ↔ r.1.priority s.current < s.priority s.current) := by
  unfold mlfqsTick
  split_ifs with hcfg
  · refine (aging_effect hlive).bind fun s₁ _ h₁ => ?_
    dsimp only at h₁ ⊢
    generalize (if s₁.ticks % timerFreq = 0
        then s₁.calculateLoadAvg.calculateRecentCpu else s₁) = s₂ at h₁ ⊢
    obtain ⟨hrecent, hnice, hprio, hready, hcur, hall, hticks, hlive₂⟩ := h₁
    rw [pure_eq, Spec.ok_iff]
    by_cases h4 : s.ticks % 4 = 0
    · rw [if_pos (hticks ▸ h4)]
      refine ⟨fun t => ?_, ?_, hcur, ?_⟩
      · have hmap : s₂.calculatePriority.1.priority t =
            if t ∈ s₂.allList then mlfqsPriority (s₂.recentCpu t) (s₂.nice t)
            else s₂.priority t := by
          refine (elim_mapAll (s := s₂) (hall ▸ hlive₂ t)).trans ?_
          by_cases hmem : t ∈ s₂.allList
          · obtain ⟨th, hth⟩ := Option.ne_none_iff_exists'.mp (hlive₂ t (hall ▸ hmem))
            simp [hmem, hth, recentCpu, nice]
          · simp [hmem, priority]
        rw [hmap, hrecent, hnice, hprio, hall]
        simp [hcfg, h4]
      · rw [← hready]
        exact listSort_perm _ _
      · rw [← hcur, ← hprio]
        exact decide_eq_true_iff
    · rw [if_neg (hticks ▸ h4)]
      refine ⟨fun t => ?_, hready ▸ List.Perm.refl _, hcur, ?_⟩
      · rw [if_neg fun hc => h4 hc.1.2, hprio]
      · rw [hprio]
        simp
  · refine ⟨fun t => ?_, List.Perm.refl _, rfl, ?_⟩
    · rw [if_neg fun hc => hcfg hc.1.1]
    · simp

/-- The load average that the tick computes from the state after `block_check`. -/
theorem calculateLoadAvg_tick {s₂ : Sched}
    (hsame : StatusOnly { s with ticks := s.ticks + 1, threadTicks := s.threadTicks + 1 } s₂)
    (hready : s₂.readyList.Perm (s.due ++ s.readyList)) :
    s₂.calculateLoadAvg.loadAvg = s.tickLoadAvg := by
  have hlen : (s₂.readyList.length : ℤ) = s.readyList.length + s.due.length := by
    have hsum : s₂.readyList.length = s.due.length + s.readyList.length := by
      rw [hready.length_eq, List.length_append]
    omega
  simp only [calculateLoadAvg, tickLoadAvg, hlen, hsame.idleThread, hsame.current, hsame.loadAvg]

/-- **The effect of a timer tick**, from the state before it. -/
theorem timerTick_effect {cfg : Config} (hp : Partition s) :
    (s.timerTick cfg).Post fun r =>
      (∀ t, r.1.priority t = s.tickPriority cfg t) ∧
      (∀ t, t ∈ r.1.readyList ↔ t ∈ s.due ∨ t ∈ s.readyList) ∧
      r.1.current = s.current ∧ (r.2 = true ↔ s.TickYields cfg) := by
  obtain ⟨cur, hcur, hst, -⟩ := hp.threadCurrent
  unfold timerTick
  set s₁ : Sched := { s with ticks := s.ticks + 1, threadTicks := s.threadTicks + 1 } with hs₁
  refine (blockCheckLoop_effect (s := s₁) hcur hst).bind fun s₂ _ h₂ => ?_
  obtain ⟨hsame, hready⟩ := h₂
  have hlive : ∀ t ∈ s₂.allList, s₂.threads t ≠ none := by
    intro t ht hnone
    obtain ⟨st, pc, hx, -⟩ := hp.allLive t (hsame.allList ▸ ht)
    obtain ⟨th, hth, -⟩ := threads_of_shape hx
    have hmap := hsame.threads t
    rw [hnone, show s₁.threads t = some th from hth] at hmap
    cases hmap
  refine (mlfqsTick_effect hlive).bind fun r _ h₃ => ?_
  obtain ⟨hprio, hperm, hcurrent, hyield⟩ := h₃
  have hticks : s₂.ticks = s.ticks + 1 := hsame.ticks
  have hload := calculateLoadAvg_tick hsame hready
  have haged : s₂.agedRecentCpu = s.tickRecentCpu := by
    funext t
    simp only [agedRecentCpu, tickRecentCpu, hload, hticks, hsame.recentCpu, hsame.nice,
      hsame.current, hsame.allList]
    rfl
  have hpriority : ∀ t, r.1.priority t = s.tickPriority cfg t := by
    intro t
    rw [hprio t, tickPriority, haged, hticks, hsame.allList, hsame.nice, hsame.priority]
    rfl
  refine ⟨hpriority, fun t => ?_, hcurrent.trans hsame.current, ?_⟩
  · rw [hperm.mem_iff, hready.mem_iff, List.mem_append]
    rfl
  · have hthread : s₂.threadTicks = s.threadTicks + 1 := hsame.threadTicks
    have hold : s₂.priority s₂.current = s.priority s.current := by
      rw [hsame.priority, hsame.current]
      rfl
    rw [hpriority, hold, hsame.current] at hyield
    rw [Bool.or_eq_true, decide_eq_true_iff, hyield, hthread]
    rfl

end Sched

end Pintos
