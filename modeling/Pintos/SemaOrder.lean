import Pintos.TickEffect

/-!
# Which Waiter a Semaphore Wakes

`sema_down` inserts the running thread into the waiters in order of priority, and
`sema_up` unblocks the first of them. The running thread is the only one whose priority
`thread_set_priority` and `thread_set_nice` change, so the waiters stay in order as long
as the timer tick does not change the priorities of blocked threads: it does so every
fourth tick under `-mlfqs` and `-aging`, and it sorts the run queue only.

## Main results

* `step_waitersOrdered`: every step keeps the waiters in order, a tick under the condition
  that the priorities it computes do.
* `semaUp_wakes_highest`: in every run whose ticks meet the condition, the thread that
  `sema_up` unblocks has the highest priority among the waiters.
* `semaUp_wakes_lower`: a recalculation after which `sema_up` unblocks the lower one.
-/

namespace Pintos

open Verif Verif.Outcome Function Outcome

namespace Sched

variable {s s' : Sched} {i : SemaId} {t : Tid}

/-- The waiters of every semaphore are in order of non-increasing priority. -/
def WaitersOrdered (s : Sched) : Prop :=
  ∀ i, (s.semas i).waiters.Pairwise fun a b => s.priority b ≤ s.priority a

/-- The threads a timer tick finds waiting are in order of the priorities it computes. -/
def KeepsWaiterOrder (cfg : Config) (s : Sched) : Action → Prop
  | .timerInterrupt =>
    ∀ i, (s.semas i).waiters.Pairwise fun a b => s.tickPriority cfg b ≤ s.tickPriority cfg a
  | _ => True

/-! ### What keeps the order -/

/-- The waiters lose members and the others keep their priorities. -/
theorem WaitersOrdered.sublist (h : WaitersOrdered s)
    (hwaiters : ∀ i, (s'.semas i).waiters.Sublist (s.semas i).waiters)
    (hprio : ∀ i, ∀ t ∈ (s.semas i).waiters, s'.priority t = s.priority t) : WaitersOrdered s' := by
  intro i
  refine (List.Pairwise.sublist (hwaiters i) (h i)).imp_of_mem ?_
  intro a b ha hb hab
  rw [hprio i a ((hwaiters i).subset ha), hprio i b ((hwaiters i).subset hb)]
  exact hab

/-- The semaphores and their waiters' priorities are as they were. -/
theorem WaitersOrdered.congr (h : WaitersOrdered s) (hsemas : s'.semas = s.semas)
    (hprio : ∀ i, ∀ t ∈ (s.semas i).waiters, s'.priority t = s.priority t) : WaitersOrdered s' := by
  refine h.sublist (fun i => ?_) hprio
  rw [hsemas]

/-- The value of a semaphore does not matter. -/
theorem WaitersOrdered.setValue (h : WaitersOrdered s) (i : SemaId) (v : ℕ) :
    WaitersOrdered (s.setSema i { s.semas i with value := v }) := by
  refine h.sublist (fun j => ?_) fun _ _ _ => rfl
  rcases eq_or_ne j i with rfl | hj
  · simp [setSema]
  · simp [setSema, hj]

/-- A waiter is blocked in `sema_down`, so it is not the running thread. -/
theorem Partition.current_not_waiting (hp : Partition s) (ht : t ∈ (s.semas i).waiters) :
    t ≠ s.current := by
  rintro rfl
  exact hp.housed.not_mem hp.current_home (.sema i) ht

/-- The running thread may change as it likes. -/
theorem WaitersOrdered.setCurrent (hp : Partition s) (h : WaitersOrdered s) (th : Thread) :
    WaitersOrdered (s.setThread s.current th) := by
  refine h.congr rfl fun i t ht => ?_
  rw [priority_setThread, update_of_ne (hp.current_not_waiting ht)]

/-! ### What the functions do to the semaphores and the priorities -/

/-- `s'` has the semaphores and the priorities of `s`. -/
def SameWaiters (s s' : Sched) : Prop :=
  s'.semas = s.semas ∧ s'.priority = s.priority

theorem WaitersOrdered.same (h : WaitersOrdered s) (hs : SameWaiters s s') : WaitersOrdered s' :=
  h.congr hs.1 fun _ t _ => congrFun hs.2 t

theorem SameWaiters.trans {s'' : Sched} (h : SameWaiters s s') (h' : SameWaiters s' s'') :
    SameWaiters s s'' :=
  ⟨h'.1.trans h.1, h'.2.trans h.2⟩

theorem Rescheduled.sameWaiters {P : Tid → Prop} (h : Rescheduled P s s') : SameWaiters s s' :=
  ⟨by rw [h.same], h.priority⟩

theorem threadUnblock_sameWaiters : (s.threadUnblock t).Post (SameWaiters s) :=
  (threadUnblock_rescheduled (P := fun _ => False)).mono fun _ _ h => h.sameWaiters

theorem threadBlock_sameWaiters {pc : Pc} :
    (s.threadBlock pc).Post (SameWaiters s) :=
  (threadBlock_rescheduled (P := fun _ => False) id).mono fun _ _ h => h.sameWaiters

theorem threadYield_sameWaiters {pc : Pc} :
    (s.threadYield pc).Post (SameWaiters s) :=
  (threadYield_rescheduled (P := fun _ => False) fun _ _ => False.elim).mono fun _ _ h =>
    h.sameWaiters

/-- The thread that exits is no waiter. -/
theorem threadExit_waitersOrdered (hp : Partition s) (h : WaitersOrdered s) :
    s.threadExit.Post WaitersOrdered := by
  refine threadCurrent_spec.bind fun cur _ hcur => ?_
  refine (schedule_frame (P := fun _ => False) (update_self _ _ _)).mono
    fun s' _ ⟨s₁, h₁, _, hs'⟩ => ?_
  have hsemas : s₁.semas = s.semas := by
    rw [h₁.same]
    rfl
  have hprio : s₁.priority = s.priority := h₁.priority.trans (priority_setThread_of_eq
    (s := { s with allList := s.allList.erase s.current }) hcur.1 (by rfl))
  rw [hs']
  split
  · refine h.congr hsemas fun i t ht => ?_
    rw [← hprio]
    simp [priority, setThread, hp.current_not_waiting ht]
  · exact h.same ⟨hsemas, hprio⟩

theorem signal_sameWaiters {w : WaiterId} : (s.signal w).Post (SameWaiters s) :=
  signal_inv (fun _ h => h) (fun _ _ h => threadUnblock_sameWaiters.mono fun _ _ h' => h.trans h')
    ⟨rfl, rfl⟩

/-- `sema_up` takes the first waiter out and changes no priority. -/
theorem semaWake_waitersOrdered (h : WaitersOrdered s) :
    (s.semaWake i).Post WaitersOrdered := by
  unfold semaWake
  cases hw : (s.semas i).waiters with
  | nil => exact h.setValue i _
  | cons t rest =>
    have hpop : WaitersOrdered (s.setSema i { s.semas i with waiters := rest }) := by
      refine h.sublist (fun j => ?_) fun _ _ _ => rfl
      rcases eq_or_ne j i with rfl | hj
      · simp [setSema, hw]
      · simp [setSema, hj]
    exact threadUnblock_sameWaiters.bind fun s₁ _ h₁ => (hpop.same h₁).setValue i _

/-- `sema_down` inserts the running thread in order. -/
theorem WaitersOrdered.insert (h : WaitersOrdered s) (i : SemaId) (t : Tid) :
    WaitersOrdered (s.setSema i { s.semas i with
      waiters := listInsertOrdered s.comparePriority t (s.semas i).waiters }) := by
  intro j
  have hprio : (s.setSema i { s.semas i with
      waiters := listInsertOrdered s.comparePriority t (s.semas i).waiters }).priority =
        s.priority := rfl
  rw [hprio]
  rcases eq_or_ne j i with rfl | hj
  · have hord := inOrder_listInsertOrdered s.comparePriority_strictWeakOrder t
      (inOrder_comparePriority.mpr (h j))
    simpa [setSema] using inOrder_comparePriority.mp hord
  · simpa [setSema, hj] using h j

theorem semaDown_waitersOrdered (hp : Partition s) (h : WaitersOrdered s) :
    (s.semaDown i).Post WaitersOrdered := by
  refine threadCurrent_spec.bind fun cur _ _ => ?_
  dsimp only
  split
  · exact threadBlock_sameWaiters.mono fun s' _ h' => (h.insert i s.current).same h'
  · exact (h.setCurrent hp { cur with pc := .code }).setValue i _

/-! ### The tick -/

theorem blockCheckLoop_sameWaiters {rest : List Tid} :
    (s.blockCheckLoop rest).Post (SameWaiters s) :=
  blockCheckLoop_inv (fun _ _ h => h)
    (fun _ _ h => threadUnblock_sameWaiters.mono fun _ _ h' => h.trans h') ⟨rfl, rfl⟩

/-- The recalculations leave the semaphores alone. -/
theorem mlfqsTick_semas {cfg : Config} :
    (s.mlfqsTick cfg).Post fun r => r.1.semas = s.semas :=
  mlfqsTick_inv (I := fun s' => s'.semas = s.semas) (threadCurrent_spec.bind fun _ _ _ => rfl)
    (fun _ h => h) (fun _ h => h) rfl

/-- A tick that finds the waiters in order of the priorities it computes leaves them in
order. -/
theorem timerTick_waitersOrdered {cfg : Config} (hp : Partition s)
    (hk : ∀ i, (s.semas i).waiters.Pairwise fun a b =>
      s.tickPriority cfg b ≤ s.tickPriority cfg a) :
    (s.timerTick cfg).Post fun r => WaitersOrdered r.1 := by
  have hsemas : (s.timerTick cfg).Post fun r => r.1.semas = s.semas := by
    refine blockCheckLoop_sameWaiters.bind fun s₁ _ h₁ => ?_
    exact mlfqsTick_semas.bind fun r _ h₂ => h₂.trans h₁.1
  refine (timerTick_effect hp).mono fun r heq h => ?_
  intro i
  rw [hsemas.of_eq_ok heq]
  refine (hk i).imp ?_
  intro a b hab
  rw [h.1 a, h.1 b]
  exact hab

/-! ### Every step -/

/-- **Every step keeps the waiters in order**, a tick if it meets the condition. -/
theorem step_waitersOrdered {cfg : Config} {a : Action} (hp : Partition s) (h : WaitersOrdered s)
    (hk : s.KeepsWaiterOrder cfg a) : (s.step cfg a).Post WaitersOrdered := by
  have same : ∀ {x : SchedM Sched}, x.Post (SameWaiters s) →
      x.Post WaitersOrdered := fun hx => hx.mono fun s' _ h' => h.same h'
  refine threadCurrent_spec.bind fun cur _ hcur => ?_
  cases a with
  | initThread p tail =>
    refine Spec.require fun _ => threadCurrent_spec.bind fun cur' _ _ =>
      Spec.ensure_of trivial fun _ => h.congr rfl fun i t ht => ?_
    have hlt : t < s.nextTid :=
      hp.fresh t _ (home_eq_sema ((hp.housed.mem_iff (.sema i) t).mp ht))
    rw [priority_setThread, update_of_ne hlt.ne]
    rfl
  | startThread t =>
    refine Spec.require fun _ => ?_
    refine (threadUnblock_running hcur.1 hcur.2).bind fun s₁ hs₁ hcur₁ => ?_
    have h₁ := h.same (threadUnblock_sameWaiters.of_eq_ok hs₁)
    exact h₁.congr rfl fun _ x _ => priority_setThread_apply hcur₁ (by rfl) x
  | createCheck =>
    dsimp only
    split
    · exact h.setCurrent hp _
    · trivial
  | threadYield => exact Spec.require fun _ => same threadYield_sameWaiters
  | threadExit => exact Spec.require fun _ => threadExit_waitersOrdered hp h
  | wait w =>
    refine Spec.require fun _ => threadBlock_sameWaiters.mono fun s' _ h' => ?_
    exact h.same h'
  | signal w | intrSignal w => exact Spec.require fun _ => same signal_sameWaiters
  | semaDown i => exact Spec.require fun _ => semaDown_waitersOrdered hp h
  | semaUp i => exact Spec.require fun _ => semaWake_waitersOrdered (h.setCurrent hp _)
  | timerSleep n =>
    refine Spec.require fun _ => ?_
    rw [pure_eq, Spec.ok_iff]
    split
    · exact h
    · exact h.setCurrent hp _
  | threadBlockWithTime =>
    dsimp only
    split
    · refine threadCurrent_spec.bind fun cur' _ hcur' => ?_
      exact threadBlock_sameWaiters.mono fun s' _ h' =>
        (h.setCurrent hp { cur' with ticks := _ }).same h'
    · trivial
  | threadSetPriority p | threadSetNice n => exact Spec.require fun _ => h.setCurrent hp _
  | runSet =>
    dsimp only
    split
    · exact h.setCurrent hp _
    · trivial
  | idle =>
    unfold idleStep
    dsimp only
    split
    · exact (h.setCurrent hp { cur with pc := .idleUp }).same ⟨rfl, rfl⟩
    · exact semaWake_waitersOrdered (h.setCurrent hp _)
    · exact same threadYield_sameWaiters
    · exact same threadBlock_sameWaiters
    · trivial
  | timerInterrupt =>
    refine Spec.require fun _ => threadCurrent_spec.bind fun cur' _ hcur' => ?_
    refine (timerTick_waitersOrdered hp hk).bind fun r _ hr => ?_
    dsimp only
    split
    · exact threadYield_sameWaiters.mono fun s' _ h' => hr.same h'
    · exact hr
  | intrSemaUp i => exact Spec.require fun _ => semaWake_waitersOrdered h

/-- The thread that `sema_up` unblocks is the first waiter. -/
theorem semaWake_unblocks (h : s.semaWake i = ok s') (hblocked : s.HasStatus t .blocked)
    (hready : s'.HasStatus t .ready) : ∃ rest, (s.semas i).waiters = t :: rest := by
  obtain ⟨th, hth, hst⟩ := hblocked
  obtain ⟨th', hth', hst'⟩ := hready
  unfold semaWake at h
  split at h
  · -- nobody waits, and no thread changes
    obtain rfl := ok.inj h
    have hsame : some th = some th' := hth.symm.trans hth'
    rw [← Option.some.inj hsame, hst] at hst'
    cases hst'
  · rename_i u rest hw
    refine ⟨rest, ?_⟩
    obtain ⟨s₁, h₁, h₂⟩ := bind_eq_ok.mp h
    obtain rfl := ok.inj h₂
    rw [hw]
    rcases eq_or_ne t u with rfl | htu
    · rfl
    · unfold threadUnblock at h₁
      split at h₁
      · cases h₁
      · rw [ensure_bind_eq_ok] at h₁
        obtain rfl := ok.inj h₁.2
        have hsame : some th = some th' :=
          hth.symm.trans ((update_of_ne htu _ _).symm.trans hth')
        rw [← Option.some.inj hsame, hst] at hst'
        cases hst'

end Sched

/-! ### Runs -/

/-- The invariant in every state reached by steps that meet the condition. -/
theorem SchedReachable.waitersOrdered {cfg : Config} {s : Sched}
    (h : SchedReachable cfg (Sched.KeepsWaiterOrder cfg) s) : s.WaitersOrdered := by
  obtain ⟨value, tail, tail', s₀, h₀, hreach⟩ := h
  have hinv : s.Partition ∧ s.WaitersOrdered := by
    refine hreach.invariant (I := fun s => s.Partition ∧ s.WaitersOrdered)
      ⟨threadStart_partition h₀, fun i => ?_⟩ ?_
    · obtain rfl := ok.inj h₀
      exact List.Pairwise.nil
    · rintro s a s' ⟨hp, ho⟩ hk hstep
      exact ⟨(Sched.step_spec hp).of_eq_ok hstep,
        (Sched.step_waitersOrdered hp ho hk).of_eq_ok hstep⟩
  exact hinv.2

/-- **`sema_up` wakes a waiter of the highest priority**, in every state reached by steps
that meet the condition: no waiter has a higher priority than the thread it unblocks. -/
theorem semaUp_wakes_highest {cfg : Config} {s s' : Sched} {i : SemaId} {t : Tid}
    (h : SchedReachable cfg (Sched.KeepsWaiterOrder cfg) s) (hup : s.semaWake i = ok s')
    (hblocked : s.HasStatus t .blocked) (hready : s'.HasStatus t .ready) :
    ∀ u ∈ (s.semas i).waiters, s.priority u ≤ s.priority t := by
  obtain ⟨rest, hw⟩ := Sched.semaWake_unblocks hup hblocked hready
  have hord := h.waitersOrdered i
  rw [hw] at hord ⊢
  intro u hu
  rcases List.mem_cons.mp hu with rfl | hu
  · exact le_refl _
  · exact (List.pairwise_cons.mp hord).1 u hu

/-- The initial thread lowers its priority to let thread 3, of priority 20, and then thread
2, of priority 10, go down on semaphore 5. -/
def twoWaiters : List Action :=
  [.initThread 10 0, .startThread 2, .createCheck, .initThread 20 0, .startThread 3,
    .createCheck, .threadSetPriority 0, .runSet, .threadYield, .semaDown 5, .semaDown 5]

theorem semaUp_wakes_highest_two :
    ∃ s s' : Sched,
      SchedReachable ⟨false, true, false⟩ (Sched.KeepsWaiterOrder ⟨false, true, false⟩) s ∧
      s.semaWake 5 = ok s' ∧ (s.semas 5).waiters = [3, 2] ∧
      ∀ u ∈ (s.semas 5).waiters, s.priority u ≤ s.priority 3 := by
  have key : ∃ s s' : Sched,
      SchedReachable ⟨false, true, false⟩ (fun _ a => a ≠ .timerInterrupt) s ∧
      s.semaWake 5 = ok s' ∧ (s.semas 5).waiters = [3, 2] ∧
      s.HasStatus 3 .blocked ∧ s'.HasStatus 3 .ready :=
    ⟨_, _, ⟨fun _ => 0, 0, 0, _, rfl, twoWaiters, Run.of_guarded rfl⟩, rfl, by decide,
      ⟨_, rfl, rfl⟩, ⟨_, rfl, rfl⟩⟩
  obtain ⟨s, s', ⟨value, tail, tail', s₀, h₀, as, hrun⟩, hup, hw, hblocked, hready⟩ := key
  have hreach : SchedReachable ⟨false, true, false⟩
      (Sched.KeepsWaiterOrder ⟨false, true, false⟩) s := by
    refine ⟨value, tail, tail', s₀, h₀, as, hrun.mono fun s a ha => ?_⟩
    cases a <;> first | exact trivial | exact absurd rfl ha
  exact ⟨s, s', hreach, hup, hw, semaUp_wakes_highest hreach hup hblocked hready⟩

set_option maxRecDepth 4000 in
/-- **A recalculation makes `sema_up` wake the lower one**: thread 3 takes a nice value of 5
before it waits, with priority 53; the fourth tick raises thread 2, behind it, to 63. -/
theorem semaUp_wakes_lower :
    ¬∀ cfg s s' i t, SchedReachable cfg (fun _ _ => True) s → s.semaWake i = ok s' →
      s.HasStatus t .blocked → s'.HasStatus t .ready →
      ∀ u ∈ (s.semas i).waiters, s.priority u ≤ s.priority t := by
  intro h
  have hreach : SchedReachable ⟨false, true, false⟩ (fun _ _ => True) _ :=
    ⟨fun _ => 0, 0, 0, _, rfl,
      [.initThread 10 0, .startThread 2, .createCheck, .initThread 20 0, .startThread 3,
        .createCheck, .threadSetPriority 0, .runSet, .threadYield, .threadSetNice 5, .runSet,
        .runSet, .runSet, .semaDown 5, .semaDown 5, .timerInterrupt, .timerInterrupt,
        .timerInterrupt, .timerInterrupt], Run.of_exec rfl⟩
  have hle := h _ _ _ 5 3 hreach rfl ⟨_, rfl, rfl⟩ ⟨_, rfl, rfl⟩ 2 (by decide)
  revert hle
  decide

end Pintos
