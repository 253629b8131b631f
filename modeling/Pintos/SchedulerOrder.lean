import Pintos.SchedulerFrame

/-!
# The Run Queue Is Ordered by Priority

`thread_unblock` and `thread_yield` insert in order and `calculate_priority` sorts the
queue again after it has rewritten every priority, so the run queue is in order of
non-increasing priority whenever `next_thread_to_run` takes its front. A thread that
changes its own priority is running, so it is not in the queue; that is where the
partition of the threads is used.

## Main results

* `schedule_ordered`: `schedule` leaves the run queue in order and switches to a thread
  of maximal priority.
* `step_ordered`: every step keeps the order, and one that switches threads switches to
  a thread of maximal priority.
* `readyList_ordered`: the order in every reachable state.
-/

namespace Pintos

open Verif Verif.Outcome Function

namespace Sched

variable {cfg : Config} {s : Sched} {th : Thread} {t : Tid}

/-- The run queue is in order of non-increasing priority. -/
def Ordered (s : Sched) : Prop :=
  s.readyList.Pairwise fun a b => s.priority b ≤ s.priority a

/-- No thread in the run queue has a higher priority than the running one. -/
def NoneHigher (s : Sched) : Prop :=
  ∀ t ∈ s.readyList, s.priority t ≤ s.priority s.current

/-! ### Priorities -/

theorem comparePriority_strictWeakOrder (s : Sched) : StrictWeakOrder s.comparePriority where
  asymm a b h := by
    simp only [comparePriority, decide_eq_true_eq, decide_eq_false_iff_not] at h ⊢
    omega
  negTrans a b c hab hbc := by
    simp only [comparePriority, decide_eq_false_iff_not] at hab hbc ⊢
    omega

theorem inOrder_comparePriority {l : List Tid} :
    InOrder s.comparePriority l ↔ l.Pairwise fun a b => s.priority b ≤ s.priority a := by
  simp [InOrder, comparePriority]

theorem priority_eq (h : s.threads t = some th) : s.priority t = th.priority := by
  rw [priority, h, Option.elim_some]

theorem priority_setThread (s : Sched) (t : Tid) (th : Thread) :
    (s.setThread t th).priority = update s.priority t th.priority := by
  funext x
  rcases eq_or_ne x t with rfl | hx
  · simp [priority, setThread]
  · simp [priority, setThread, hx]

/-- A change of a thread other than of its priority. -/
theorem priority_setThread_of_eq {th' : Thread} (h : s.threads t = some th)
    (hp : th'.priority = th.priority) : (s.setThread t th').priority = s.priority := by
  rw [priority_setThread, hp, ← priority_eq h, update_eq_self]

theorem priority_setThread_apply {th' : Thread} (h : s.threads t = some th)
    (hp : th'.priority = th.priority) (x : Tid) :
    (s.setThread t th').priority x = s.priority x := by
  rw [priority_setThread_of_eq h hp]

/-! ### What keeps the order -/

/-- The queue loses members and the others keep their priorities. -/
theorem Ordered.sublist {s' : Sched} (h : Ordered s) (hready : s'.readyList.Sublist s.readyList)
    (hprio : ∀ t ∈ s'.readyList, s'.priority t = s.priority t) : Ordered s' := by
  refine (List.Pairwise.sublist hready h).imp_of_mem ?_
  intro a b ha hb hab
  rwa [hprio a ha, hprio b hb]

/-- The queue and its members' priorities are as they were. -/
theorem Ordered.congr {s' : Sched} (h : Ordered s) (hready : s'.readyList = s.readyList)
    (hprio : ∀ t ∈ s.readyList, s'.priority t = s.priority t) : Ordered s' :=
  h.sublist (hready ▸ List.Sublist.refl _) fun t ht => hprio t (hready ▸ ht)

/-- A thread is inserted in order. -/
theorem Ordered.insert {s' : Sched} (h : Ordered s)
    (hready : s'.readyList = listInsertOrdered s.comparePriority t s.readyList)
    (hprio : s'.priority = s.priority) : Ordered s' := by
  have hord := inOrder_listInsertOrdered s.comparePriority_strictWeakOrder t
    (inOrder_comparePriority.mpr h)
  rw [Ordered, hready, hprio]
  exact inOrder_comparePriority.mp hord

theorem threadUnblock_ordered (h : Ordered s) :
    (s.threadUnblock t).Post fun s' => Ordered s' ∧ s'.current = s.current := by
  unfold threadUnblock
  split
  · trivial
  · rename_i th hth
    exact Spec.ensure_of trivial fun _ =>
      ⟨h.insert rfl (priority_setThread_of_eq hth rfl), rfl⟩

/-- `thread_unblock` does not touch the running thread. -/
theorem threadUnblock_running {cur : Thread} (hcur : s.threads s.current = some cur)
    (hst : cur.status = .running) :
    (s.threadUnblock t).Post fun s' => s'.threads s'.current = some cur := by
  unfold threadUnblock
  split
  · trivial
  · rename_i th hth
    refine Spec.ensure_of trivial fun hblocked => ?_
    have hne : s.current ≠ t := by
      rintro rfl
      rw [hcur] at hth
      cases hth
      rw [hst] at hblocked
      cases hblocked
    exact (update_of_ne hne _ _).trans hcur

/-! ### Switching threads -/

/-- **`schedule` picks a thread of maximal priority** and leaves the queue in order; the
thread it may free is not in the queue. -/
theorem schedule_ordered {cur : Thread} (h : Ordered s) (hcur : s.threads s.current = some cur)
    (hdying : cur.status = .dying → s.current ∉ s.readyList) :
    s.schedule.Post fun s' => Ordered s' ∧ NoneHigher s' := by
  refine (schedule_frame (P := fun _ => True) hcur).mono fun s' _ ⟨s₁, hsame, hnext, hs'⟩ => ?_
  have hprio := hsame.priority
  have h₁ : Ordered s₁ ∧ NoneHigher s₁ := by
    rw [Ordered, NoneHigher, hprio]
    rcases hnext with hr | ⟨-, hr, -⟩
    · have hord := h
      rw [Ordered, hr] at hord
      exact ⟨(List.pairwise_cons.mp hord).2, (List.pairwise_cons.mp hord).1⟩
    · simp [hr]
  rw [hs']
  split_ifs with hd
  · obtain ⟨hne, hst, -⟩ := hd
    -- nobody in the queue is freed
    have hprio' : ∀ t, t ≠ s.current →
        Sched.priority { s₁ with threads := update s₁.threads s.current none } t =
          s₁.priority t := by
      intro t ht
      simp [priority, ht]
    have hrest : ∀ t ∈ s₁.readyList, t ≠ s.current := by
      rintro t ht rfl
      exact hdying hst (hnext.sublist.subset ht)
    refine ⟨h₁.1.congr rfl fun t ht => hprio' t (hrest t ht), fun t ht => ?_⟩
    rw [hprio' t (hrest t ht)]
    exact (h₁.2 t ht).trans (hprio' _ hne.symm).ge
  · exact h₁

/-- `schedule` after the current thread has changed its status to one that is not
`THREAD_DYING`. -/
theorem schedule_ordered_of_alive {th : Thread} (h : Ordered (s.setThread s.current th))
    (hst : th.status ≠ .dying) :
    (s.setThread s.current th).schedule.Post fun s' =>
      Ordered s' ∧ NoneHigher s' :=
  schedule_ordered h (update_self _ _ _) fun hd => absurd hd hst

theorem threadBlock_ordered {pc : Pc} (h : Ordered s) :
    (s.threadBlock pc).Post fun s' => Ordered s' ∧ NoneHigher s' := by
  refine threadCurrent_spec.bind fun cur _ hcur =>
    schedule_ordered_of_alive (h.congr rfl fun t _ => ?_) (by simp)
  exact priority_setThread_apply hcur.1 (by rfl) t

theorem threadYield_ordered {pc : Pc} (h : Ordered s) :
    (s.threadYield pc).Post fun s' => Ordered s' ∧ NoneHigher s' := by
  refine threadCurrent_spec.bind fun cur _ hcur => ?_
  split
  · refine schedule_ordered_of_alive (h.congr rfl fun t _ => ?_) (by simp)
    exact priority_setThread_apply hcur.1 (by rfl) t
  · refine schedule_ordered_of_alive (s := { s with readyList := _ }) ?_ (by simp)
    exact h.insert rfl (priority_setThread_of_eq (s := { s with readyList := _ }) hcur.1 (by rfl))

theorem threadExit_ordered (hp : Partition s) (h : Ordered s) :
    s.threadExit.Post fun s' => Ordered s' ∧ NoneHigher s' := by
  refine threadCurrent_spec.bind fun cur _ hcur =>
    schedule_ordered (h.congr rfl fun t _ => ?_) (update_self _ _ _) fun _ => ?_
  · exact priority_setThread_apply (s := { s with allList := s.allList.erase s.current })
      hcur.1 (by rfl) t
  · exact hp.housed.not_mem hp.current_home .ready

/-! ### The other functions -/

/-- What wakeups keep: the queue is in order, and nobody else runs. -/
def OrderedAt (c : Tid) (s : Sched) : Prop := Ordered s ∧ s.current = c

theorem OrderedAt.congr {c : Tid} {s' : Sched} (h : OrderedAt c s)
    (hready : s'.readyList = s.readyList) (hprio : s'.priority = s.priority)
    (hcurrent : s'.current = s.current) : OrderedAt c s' :=
  ⟨h.1.congr hready fun t _ => congrFun hprio t, hcurrent.trans h.2⟩

theorem OrderedAt.threadUnblock {c : Tid} (s : Sched) (t : Tid) (h : OrderedAt c s) :
    (s.threadUnblock t).Post (OrderedAt c) :=
  (threadUnblock_ordered h.1).mono fun _ _ h' => ⟨h'.1, h'.2.trans h.2⟩

theorem semaWake_ordered {i : SemaId} (h : Ordered s) :
    (s.semaWake i).Post (OrderedAt s.current) :=
  semaWake_inv (fun _ _ h => h.congr rfl rfl rfl) OrderedAt.threadUnblock ⟨h, rfl⟩

theorem signal_ordered {w : WaiterId} (h : Ordered s) :
    (s.signal w).Post (OrderedAt s.current) :=
  signal_inv (fun _ h => h.congr rfl rfl rfl) OrderedAt.threadUnblock ⟨h, rfl⟩

theorem blockCheckLoop_ordered {rest : List Tid} (h : Ordered s) :
    (s.blockCheckLoop rest).Post (OrderedAt s.current) :=
  blockCheckLoop_inv (fun _ _ h => h.congr rfl rfl rfl) OrderedAt.threadUnblock ⟨h, rfl⟩

theorem priority_mapAll {f : Thread → Thread} (hf : ∀ th, (f th).priority = th.priority) :
    (s.mapAll f).priority = s.priority := by
  funext t
  unfold priority mapAll
  dsimp only
  split
  · cases s.threads t with
    | none => rfl
    | some th => exact hf th
  · rfl

/-- After `calculate_priority` has changed every priority, the queue is sorted again. -/
theorem calculatePriority_ordered (s : Sched) : Ordered s.calculatePriority.1 := by
  set s₁ : Sched := s.mapAll fun th =>
    { th with priority := mlfqsPriority th.recentCpu th.nice } with hs₁
  exact inOrder_comparePriority.mp (listSort_inOrder s₁.comparePriority_strictWeakOrder _)

theorem mlfqsTick_ordered (h : Ordered s) :
    (s.mlfqsTick cfg).Post fun r => OrderedAt s.current r.1 := by
  refine mlfqsTick_inv (I := OrderedAt s.current) ?_ (fun s' h' => ?_) (fun s' h' => ?_) ⟨h, rfl⟩
  · refine threadCurrent_spec.bind fun cur _ hcur => ⟨h.congr rfl fun t _ => ?_, rfl⟩
    exact priority_setThread_apply hcur.1 (by rfl) t
  · exact h'.congr rfl (priority_mapAll (s := s'.calculateLoadAvg) fun _ => rfl) rfl
  · exact ⟨calculatePriority_ordered s', h'.2⟩

theorem timerTick_ordered (h : Ordered s) :
    (s.timerTick cfg).Post fun r => OrderedAt s.current r.1 := by
  unfold timerTick
  have h₁ : Ordered { s with ticks := s.ticks + 1, threadTicks := s.threadTicks + 1 } :=
    h.congr rfl fun _ _ => rfl
  refine (blockCheckLoop_ordered h₁).bind fun s₂ _ h₂ => ?_
  exact (mlfqsTick_ordered h₂.1).bind fun r _ h₃ => ⟨h₃.1, h₃.2.trans h₂.2⟩

/-! ### Every step -/

/-- The outcome of a step: the queue is in order, and a thread switched to has maximal
priority. -/
def Picked (s s' : Sched) : Prop :=
  Ordered s' ∧ (NoneHigher s' ∨ s'.current = s.current)

/-- The running thread is not in the run queue, so it may change as it likes. -/
theorem Ordered.setCurrent (hp : Partition s) (h : Ordered s) (th : Thread) :
    Ordered (s.setThread s.current th) := by
  refine h.congr rfl fun t ht => ?_
  have hne : t ≠ s.current := by
    rintro rfl
    exact hp.housed.not_mem hp.current_home .ready ht
  rw [priority_setThread, update_of_ne hne]

/-- A new thread is neither in the run queue nor the running one. -/
theorem initThread_effect {p tail : ℤ} {entry : Pc} :
    (s.initThread p tail entry).Post fun s' =>
      s'.readyList = s.readyList ∧ s'.current = s.current ∧
      ∀ t, t < s.nextTid → s'.priority t = s.priority t := by
  refine threadCurrent_spec.bind fun cur _ _ => Spec.ensure_of trivial fun _ => ?_
  refine ⟨rfl, rfl, fun t ht => ?_⟩
  rw [priority_setThread, update_of_ne ht.ne]
  rfl

theorem Partition.ready_lt (hp : Partition s) (ht : t ∈ s.readyList) : t < s.nextTid := by
  obtain ⟨-, pc, hx⟩ := home_eq_ready ((hp.housed.mem_iff .ready t).mp ht)
  exact hp.fresh t _ hx

theorem initThread_ordered {p tail : ℤ} {entry : Pc} (hp : Partition s) (h : Ordered s) :
    (s.initThread p tail entry).Post (Picked s) := by
  refine initThread_effect.mono fun s' _ h' => ?_
  exact ⟨h.congr h'.1 fun t ht => h'.2.2 t (hp.ready_lt ht), .inr h'.2.1⟩

theorem idleStep_ordered {cur : Thread} (hp : Partition s) (h : Ordered s) :
    (s.idleStep cfg cur).Post (Picked s) := by
  unfold idleStep
  split
  · exact ⟨(h.setCurrent hp { cur with pc := .idleUp }).congr rfl fun _ _ => rfl, .inr rfl⟩
  · exact (semaWake_ordered (h.setCurrent hp _)).mono fun s' _ h' => ⟨h'.1, .inr h'.2⟩
  · exact (threadYield_ordered h).mono fun s' _ h' => ⟨h'.1, .inl h'.2⟩
  · exact (threadBlock_ordered h).mono fun s' _ h' => ⟨h'.1, .inl h'.2⟩
  · trivial

/-- **Every step keeps the run queue in order**, and a thread it switches to has maximal
priority. -/
theorem step_ordered {a : Action} (hp : Partition s) (h : Ordered s) :
    (s.step cfg a).Post (Picked s) := by
  have switched : ∀ {x : SchedM Sched},
      (x.Post fun s' => Ordered s' ∧ NoneHigher s') →
      x.Post (Picked s) := fun hx => hx.mono fun s' _ h' => ⟨h'.1, .inl h'.2⟩
  have stayed : ∀ {x : SchedM Sched},
      (x.Post fun s' => Ordered s' ∧ s'.current = s.current) →
      x.Post (Picked s) := fun hx => hx.mono fun s' _ h' => ⟨h'.1, .inr h'.2⟩
  refine threadCurrent_spec.bind fun cur _ hcur => ?_
  have goes : ∀ th, Picked s (s.setThread s.current th) := fun th =>
    ⟨h.setCurrent hp th, .inr rfl⟩
  cases a with
  | initThread p tail => exact Spec.require fun _ => initThread_ordered hp h
  | startThread t =>
    refine Spec.require fun _ => ?_
    refine (threadUnblock_running hcur.1 hcur.2).bind fun s₁ hs₁ hcur₁ => ?_
    obtain ⟨h₁, hsame⟩ := (threadUnblock_ordered h).of_eq_ok hs₁
    refine ⟨h₁.congr rfl fun x _ => ?_, .inr hsame⟩
    exact priority_setThread_apply hcur₁ (by rfl) x
  | createCheck =>
    dsimp only
    split
    · exact goes _
    · trivial
  | threadYield => exact Spec.require fun _ => switched (threadYield_ordered h)
  | threadExit => exact Spec.require fun _ => switched (threadExit_ordered hp h)
  | wait w =>
    exact Spec.require fun _ => switched (threadBlock_ordered (h.congr rfl fun _ _ => rfl))
  | signal w | intrSignal w => exact Spec.require fun _ => stayed (signal_ordered h)
  | semaDown i =>
    refine Spec.require fun _ => threadCurrent_spec.bind fun cur' _ hcur' => ?_
    dsimp only
    split
    · exact switched (threadBlock_ordered (h.congr rfl fun _ _ => rfl))
    · exact ⟨(h.setCurrent hp { cur' with pc := .code }).congr rfl fun _ _ => rfl, .inr rfl⟩
  | semaUp i =>
    exact Spec.require fun _ => stayed (semaWake_ordered (h.setCurrent hp _))
  | timerSleep n =>
    refine Spec.require fun _ => ?_
    rw [pure_eq, Spec.ok_iff]
    split
    · exact ⟨h, .inr rfl⟩
    · exact goes _
  | threadBlockWithTime =>
    dsimp only
    split
    · refine switched (threadCurrent_spec.bind fun cur' _ hcur' => threadBlock_ordered ?_)
      exact (h.setCurrent hp { cur' with ticks := _ }).congr rfl fun _ _ => rfl
    · trivial
  | threadSetPriority p | threadSetNice n => exact Spec.require fun _ => goes _
  | runSet =>
    dsimp only
    split
    · exact goes _
    · trivial
  | idle => exact idleStep_ordered hp h
  | timerInterrupt =>
    refine Spec.require fun _ => threadCurrent_spec.bind fun cur' _ hcur' => ?_
    refine (timerTick_ordered h).bind fun r _ hr => ?_
    dsimp only
    split
    · exact switched (threadYield_ordered hr.1)
    · exact ⟨hr.1, .inr hr.2⟩
  | intrSemaUp i => exact Spec.require fun _ => stayed (semaWake_ordered h)

end Sched

/-- The run queue holds only the idle thread when interrupts come on. -/
theorem threadStart_ordered {value : SemaId → ℕ} {tail tail' : ℤ} {s₀ : Sched}
    (h : threadStart (threadInit value tail) tail' = ok s₀) : Sched.Ordered s₀ := by
  rw [Sched.Ordered, (threadStart_eq h).2.1]
  exact List.pairwise_singleton _ _

/-- The invariant in every reachable state. -/
theorem SchedReachable.ordered {cfg : Config} {C : Sched → Action → Prop} {s : Sched}
    (h : SchedReachable cfg C s) : Sched.Partition s ∧ Sched.Ordered s := by
  obtain ⟨value, tail, tail', s₀, h₀, hreach⟩ := h
  refine hreach.invariant (I := fun s => s.Partition ∧ s.Ordered)
    ⟨threadStart_partition h₀, threadStart_ordered h₀⟩ ?_
  rintro s a s' ⟨hp, ho⟩ - hstep
  exact ⟨(Sched.step_spec hp).of_eq_ok hstep, ((Sched.step_ordered hp ho).of_eq_ok hstep).1⟩

/-- **The run queue is in order of non-increasing priority in every reachable state**, so
its front, which `next_thread_to_run` takes, has maximal priority among the ready
threads, and every switch is to a thread of maximal priority. -/
theorem readyList_ordered {cfg : Config} {s : Sched}
    (h : SchedReachable cfg (fun _ _ => True) s) :
    (s.readyList.Pairwise fun a b => s.priority b ≤ s.priority a) ∧
    (∀ n s', s.readyList ≠ [] → s.nextThreadToRun = (some n, s') →
      n ∈ s.readyList ∧ ∀ t ∈ s.readyList, s.priority t ≤ s.priority n) ∧
    ∀ a s', s.step cfg a = ok s' → s'.current ≠ s.current →
      ∀ t ∈ s'.readyList, s'.priority t ≤ s'.priority s'.current := by
  obtain ⟨hp, ho⟩ := h.ordered
  refine ⟨ho, ?_, ?_⟩
  · intro n s' hne hnext
    unfold Sched.nextThreadToRun at hnext
    unfold Sched.Ordered at ho
    split at hnext
    · exact absurd ‹_› hne
    · rename_i t rest hr
      cases hnext
      rw [hr] at ho ⊢
      refine ⟨List.mem_cons_self, fun x hx => ?_⟩
      rcases List.mem_cons.mp hx with rfl | hx
      · exact le_refl _
      · exact (List.pairwise_cons.mp ho).1 x hx
  · intro a s' hstep hne
    rcases ((Sched.step_ordered hp ho).of_eq_ok hstep).2 with hhigh | hsame
    · exact hhigh
    · exact absurd hsame hne

/-- Under `-mlfqs` the initial thread creates a thread while the idle thread is ready too:
a run queue of two threads of different priorities. -/
theorem readyList_ordered_two :
    ∃ s, SchedReachable ⟨false, true, false⟩ (fun _ _ => True) s ∧
      s.readyList = [2, idleTid] ∧ s.readyList.map s.priority = [20, 0] ∧
      s.readyList.Pairwise fun a b => s.priority b ≤ s.priority a := by
  have hreach : SchedReachable ⟨false, true, false⟩ (fun _ _ => True) _ :=
    ⟨fun _ => 0, 0, 0, _, rfl, [.initThread 20 0, .startThread 2, .createCheck],
      Run.of_exec rfl⟩
  exact ⟨_, hreach, by decide, by decide, (readyList_ordered hreach).1⟩

end Pintos
