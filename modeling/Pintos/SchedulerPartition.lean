import Pintos.SchedulerHomes

/-!
# The Scheduler Keeps the Partition

Every function of the scheduler takes a state in which each thread is in its place to
another one, and none of the assertions in `thread_unblock`, `thread_current` and
`schedule` fails on the way. A function's specification names the assertions that can
fail: none, except for the range check of `init_thread`.

## Main results

* `step_spec`: every step keeps `Partition`, and the only assertion that can fail is the
  range check of `init_thread`.
* `SchedReachable.partition`: the invariant in every reachable state.
* `scheduler_partition`: what it says in terms of statuses and lists.
-/

namespace Pintos

open Verif Verif.Outcome Function List

namespace Sched

variable {cfg : Config} {pc : Pc} {s : Sched} {cur : Thread} {x : ThreadStatus × Pc}

/-! ### The functions of the scheduler -/

theorem threadCurrent_of (hcur : s.threads s.current = some cur) (hst : cur.status = .running) :
    s.threadCurrent = ok cur := by
  simp [threadCurrent, hcur, ensure_of_true hst]

/-- `thread_current` returns the running thread. -/
theorem Partition.threadCurrent (h : Partition s) :
    ∃ cur, s.threads s.current = some cur ∧ cur.status = .running ∧ s.threadCurrent = ok cur := by
  obtain ⟨pc, hrun⟩ := h.running
  obtain ⟨cur, hcur, hst, -⟩ := threads_of_shape hrun
  exact ⟨cur, hcur, hst, threadCurrent_of hcur hst⟩

theorem threadUnblock_eq {t : Tid} {th : Thread} (hth : s.threads t = some th)
    (hst : th.status = .blocked) :
    s.threadUnblock t =
      ok ({ s with readyList := listInsertOrdered s.comparePriority t s.readyList }.setThread t
        { th with status := .ready }) := by
  simp [threadUnblock, hth, ensure_of_true hst]

section Running

variable (h : Partition s) (hcur : s.threads s.current = some cur) (hst : cur.status = .running)

include h hcur hst

/-- `thread_block` in a state `s'` that already holds the running thread of `s` in the
queue it is going to wait in. -/
theorem threadBlock_spec {s' : Sched} (hpc : pc.isIdle = cur.pc.isIdle) (hboot : cur.pc ≠ .idleInit)
    (hcur' : s'.threads s.current = some cur) (hshape : s'.shape = s.shape)
    (hqueue : ∀ q, (s'.queue q).Perm
      (Housed.moved s.queue s.current (homeOf (s.idleThread = some s.current) (.blocked, pc)) q))
    (hwaiters : ∀ w x, s'.waiters w = some x →
      (x ≠ s.current ∧ s.waiters w = some x) ∨ (x = s.current ∧ pc = .wait w))
    (hsame : SameThreads s s') : (s'.threadBlock pc).Spec (fun _ => False) Partition := by
  unfold threadBlock
  rw [threadCurrent_of (hsame.current ▸ hcur') hst, ok_bind]
  refine schedule_spec (h.giveUp (show ThreadStatus.blocked ≠ .running by decide)
    ⟨by rw [shape_setThread, hshape, hsame.current],
      fun q => by rw [queue_setThread]; exact hqueue q, fun w x hw => ?_⟩
    (h.toCore.allowed (shape_running hcur hst) hpc (fun hi => absurd hi hboot) (by simp))
    ⟨hsame.idleThread, hsame.allList, hsame.nextTid, hsame.current⟩)
  exact (hwaiters w x hw).imp_right fun hw' => ⟨hw'.1, rfl, hw'.2⟩

/-- `thread_yield`, going on at the same place or at another one outside the idle
thread's start. -/
theorem threadYield_spec (hpc : pc.isIdle = cur.pc.isIdle)
    (hboot : cur.pc = .idleInit → pc = .idleInit) :
    (s.threadYield pc).Spec (fun _ => False) Partition := by
  have hnone : ∀ q, s.home s.current ≠ some q := by simp [h.current_home]
  unfold threadYield
  rw [threadCurrent_of hcur hst, ok_bind]
  have hallowed : s.Allowed s.current .ready pc :=
    h.toCore.allowed (shape_running hcur hst) hpc (fun hi _ => ⟨hboot hi, .inl rfl⟩) (by simp)
  by_cases hi : s.idleThread = some s.current
  · rw [if_pos hi]
    refine schedule_spec (h.giveUp (by simp) ⟨shape_setThread _ _ _, fun q => ?_,
      fun w x hw => .inl ⟨h.waiters_ne hw, hw⟩⟩ hallowed ⟨rfl, rfl, rfl, rfl⟩)
    rw [h.housed.moved_none (hnone q) (by simp [homeOf, hi]), queue_setThread]
  · rw [if_neg hi]
    refine schedule_spec (h.giveUp (by simp) ⟨shape_setThread _ _ _, fun q => ?_,
      fun w x hw => .inl ⟨h.waiters_ne hw, hw⟩⟩ hallowed ⟨rfl, rfl, rfl, rfl⟩)
    rw [queue_setThread]
    have hhome : homeOf (s.idleThread = some s.current) (.ready, pc) = some .ready := by
      simp [homeOf, hi]
    rw [hhome]
    cases q with
    | ready =>
      rw [h.housed.moved_enter (hnone _)]
      exact listInsertOrdered_perm _ _ _
    | sleep | sema i => rw [h.housed.moved_none (hnone _) (by simp)]; exact List.Perm.refl _

omit hcur hst in
/-- Removing threads from `all_list` keeps the partition. -/
theorem Partition.eraseAll (t : Tid) : Partition { s with allList := s.allList.erase t } where
  housed := h.housed.perm fun q => by cases q <;> exact List.Perm.refl _
  parked := h.parked
  idle := h.idle
  idlePc := h.idlePc
  allLive x hx := h.allLive x (mem_of_mem_erase hx)
  allNodup := h.allNodup.erase t
  fresh := h.fresh
  running := h.running
  unique := h.unique

theorem threadExit_spec (hpc : cur.pc.isIdle = false) :
    s.threadExit.Spec (fun _ => False) Partition := by
  have h' := h.eraseAll s.current
  unfold threadExit
  rw [threadCurrent_of hcur hst, ok_bind]
  refine schedule_spec (h'.giveUp (by simp)
    ⟨shape_setThread _ _ _, fun q => ?_, fun w x hw => .inl ⟨h.waiters_ne hw, hw⟩⟩
    (h'.toCore.allowed_of_not_idle (shape_running hcur hst) hpc hpc
      fun _ => h.allNodup.not_mem_erase) ⟨rfl, rfl, rfl, rfl⟩)
  rw [h'.housed.moved_none (by simp [h'.current_home]) (by simp [homeOf]), queue_setThread]

omit hcur hst in
/-- Changing a semaphore's value moves no thread. -/
theorem Partition.setValue (i : SemaId) (v : ℕ) :
    Partition (s.setSema i { s.semas i with value := v }) := by
  refine h.congr rfl (fun q => ?_) rfl ⟨rfl, rfl, rfl, rfl⟩
  cases q with
  | ready | sleep => exact List.Perm.refl _
  | sema j =>
    rcases eq_or_ne j i with rfl | hj
    · simp [queue, setSema]
    · simp [queue, setSema, hj]

/-- One turn of `sema_down`. -/
theorem semaDown_spec {i : SemaId} (hpc : cur.pc.isIdle = false) :
    (s.semaDown i).Spec (fun _ => False) Partition := by
  unfold semaDown
  rw [threadCurrent_of hcur hst, ok_bind]
  dsimp only
  split
  · refine threadBlock_spec h hcur hst hpc.symm (ne_idleInit hpc) hcur rfl (fun q => ?_)
      (fun w x hw => .inl ⟨h.waiters_ne hw, hw⟩) ⟨rfl, rfl, rfl, rfl⟩
    have hnone : ∀ q, s.home s.current ≠ some q := by simp [h.current_home]
    change (_ : List Tid).Perm (Housed.moved s.queue s.current (some (.sema i)) q)
    by_cases hq : q = .sema i
    · subst hq
      rw [h.housed.moved_enter (hnone _)]
      simpa [queue, setSema] using listInsertOrdered_perm s.comparePriority s.current _
    · rw [h.housed.moved_none (hnone _) fun heq => hq (Option.some.inj heq).symm]
      cases q with
      | ready | sleep => exact List.Perm.refl _
      | sema j =>
        have hj : j ≠ i := fun hji => hq (hji ▸ rfl)
        simp [queue, setSema, hj]
  · exact (h.setValue i _).advance hcur hst hst hpc.symm fun hi => absurd hi (ne_idleInit hpc)

omit h hcur hst in
/-- The wakeup of `sema_up` finds a blocked thread. -/
theorem semaWake_spec {i : SemaId} (h : Partition s) :
    (s.semaWake i).Spec (fun _ => False) Partition := by
  unfold semaWake
  cases hw : (s.semas i).waiters with
  | nil => exact h.setValue i _
  | cons t rest =>
    have hhome : s.home t = some (.sema i) := by
      rw [← h.housed.mem_iff, queue, hw]
      exact mem_cons_self
    have hx := home_eq_sema hhome
    obtain ⟨th, hth, hst, hpc⟩ := threads_of_shape hx
    dsimp only
    rw [threadUnblock_eq (s := s.setSema i { s.semas i with waiters := rest }) hth hst, ok_bind]
    refine Partition.setValue ?_ i _
    refine h.wake hx rfl ?_ (listInsertOrdered_perm _ _ _) (fun q hq => ?_)
      (fun w x hwx => ⟨h.parked_ne hwx hx (by simp), hwx⟩) ⟨rfl, rfl, rfl, rfl⟩
    · rw [shape_setThread, ← hpc]
      rfl
    · rw [queue_setThread]
      by_cases hqi : q = .sema i
      · subst hqi
        simp [queue, setSema, hw]
      · rw [h.housed.erase_eq (by rw [hhome]; exact fun heq => hqi (Option.some.inj heq).symm)]
        cases q with
        | ready => exact absurd rfl hq
        | sleep => rfl
        | sema j =>
          have hj : j ≠ i := fun hji => hqi (hji ▸ rfl)
          simp [queue, setSema, hj]

omit hcur hst in
/-- The thread found in a waiter variable is blocked. -/
theorem signal_spec {w : WaiterId} :
    (s.signal w).Spec (fun _ => False) Partition := by
  unfold signal
  cases hw : s.waiters w with
  | none => exact h
  | some t =>
    have hx := h.parked w t hw
    obtain ⟨th, hth, hst, hpc⟩ := threads_of_shape hx
    have hhome : s.home t = none := by
      rw [home_eq hx]
      rfl
    dsimp only
    rw [threadUnblock_eq hth hst, ok_bind]
    refine h.wake hx rfl ?_ (listInsertOrdered_perm _ _ _) (fun q hq => ?_)
      (fun w' x hwx => ?_) ⟨rfl, rfl, rfl, rfl⟩
    · rw [← hpc]
      exact shape_setThread _ _ _
    · rw [h.housed.erase_eq (by simp [hhome])]
      cases q with
      | ready => exact absurd rfl hq
      | sleep | sema j => rfl
    · rcases eq_or_ne w' w with rfl | hne
      · simp at hwx
      · replace hwx : s.waiters w' = some x := by simpa [hne, setThread] using hwx
        exact ⟨h.parked_ne hwx hx (by simpa using hne.symm), hwx⟩

omit hcur hst in
/-- A new thread starts out blocked, in no queue. -/
theorem Partition.create {s' : Sched} (hpc : pc = .code)
    (hshape : s'.shape = update s.shape s.nextTid (some (.blocked, pc)))
    (hqueue : s'.queue = s.queue) (hwaiters : s'.waiters = s.waiters)
    (hidle : s'.idleThread = s.idleThread) (hall : s'.allList = s.allList ++ [s.nextTid])
    (hnext : s'.nextTid = s.nextTid + 1) (hcurrent : s'.current = s.current) : Partition s' := by
  subst hpc
  have hself : s'.shape s.nextTid = some (.blocked, .code) := by
    rw [hshape, update_self]
  have hlive : ∀ x y, s.shape x = some y → s'.shape x = some y := by
    intro x y hx
    rw [hshape, update_of_ne (h.fresh x y hx).ne]
    exact hx
  have hold : ∀ x y, s'.shape x = some y → y = (.blocked, .code) ∨ s.shape x = some y := by
    intro x y hx
    rcases eq_or_ne x s.nextTid with rfl | hne
    · rw [hself] at hx
      exact .inl (Option.some.inj hx).symm
    · rw [hshape, update_of_ne hne] at hx
      exact .inr hx
  have hnew : s.shape s.nextTid = none := by
    by_contra hne
    obtain ⟨y, hy⟩ := Option.ne_none_iff_exists'.mp hne
    exact (h.fresh _ y hy).ne rfl
  have hhome : s'.home = s.home := by
    funext x
    rcases eq_or_ne x s.nextTid with rfl | hne
    · rw [home_eq hself, home, hnew, Option.bind_none]
      rfl
    · rw [home, home, hshape, update_of_ne hne, hidle]
  obtain ⟨pc, hrun⟩ := h.running
  refine ⟨⟨?_, ?_, ?_, ?_, ?_, ?_, ?_⟩, ⟨pc, hcurrent ▸ hlive _ _ hrun⟩, ?_⟩
  · rw [hqueue, hhome]
    exact h.housed
  · intro w x hw
    exact hlive x _ (h.parked w x (hwaiters ▸ hw))
  · have hk := h.idle
    unfold IdleKnown at hk ⊢
    rw [hidle]
    cases hi : s.idleThread with
    | none =>
      rw [hi] at hk
      obtain ⟨st, hst, hor⟩ := hk
      exact ⟨st, hlive _ _ hst, hor⟩
    | some i =>
      rw [hi] at hk
      obtain ⟨heq, st, pc', hst, hrest⟩ := hk
      exact ⟨heq, st, pc', hlive _ _ hst, hrest⟩
  · intro x st pc' hx hpc'
    rcases hold x _ hx with heq | hx'
    · cases heq
      cases hpc'
    · exact h.idlePc x st pc' hx' hpc'
  · intro x hx
    rw [hall, mem_append, mem_singleton] at hx
    rcases hx with hx | rfl
    · obtain ⟨st, pc', hst, hd⟩ := h.allLive x hx
      exact ⟨st, pc', hlive x _ hst, hd⟩
    · exact ⟨_, _, hself, by decide⟩
  · rw [hall]
    refine h.allNodup.append (nodup_singleton _) fun x hx hx' => ?_
    obtain ⟨st, pc', hst, -⟩ := h.allLive x hx
    exact (h.fresh x _ hst).ne (mem_singleton.mp hx')
  · intro x y hx
    rw [hnext]
    rcases eq_or_ne x s.nextTid with rfl | hne
    · exact Nat.lt_succ_self _
    · rw [hshape, update_of_ne hne] at hx
      exact (h.fresh x y hx).trans (Nat.lt_succ_self _)
  · intro x pc' hx
    rw [hcurrent]
    rcases hold x _ hx with heq | hx'
    · cases heq
    · exact h.unique x pc' hx'

omit hcur hst in
/-- `init_thread` fails only its range check. -/
theorem initThread_spec {p tail : ℤ} :
    (s.initThread p tail .code).Spec (· = .priorityRange) Partition := by
  obtain ⟨cur, -, -, hcur⟩ := h.threadCurrent
  unfold initThread
  rw [hcur, ok_bind]
  refine Spec.ensure_of rfl fun _ => ?_
  exact h.create rfl (shape_setThread _ _ _) (queue_setThread _ _ _) rfl rfl rfl rfl rfl

/-- `thread_block_with_time`. -/
theorem threadBlockWithTime_spec {ticks : ℕ} (hpc : cur.pc.isIdle = false) :
    (s.threadBlockWithTime ticks).Spec (fun _ => False) Partition := by
  set cur' : Thread := { cur with ticks := ticks } with hcur'
  set s₁ : Sched := s.setThread s.current cur' with hs₁
  have hshape : s₁.shape = s.shape := by
    rw [hs₁, shape_setThread, hcur', hst, ← shape_running hcur hst, update_eq_self]
  have h₁ : Partition s₁ := by
    refine h.congr hshape (fun q => ?_) rfl ⟨rfl, rfl, rfl, rfl⟩
    rw [hs₁, queue_setThread]
  have hcur₁ : s₁.threads s₁.current = some cur' := update_self _ _ _
  have hnone : ∀ q, s₁.home s₁.current ≠ some q := by simp [h₁.current_home]
  unfold threadBlockWithTime
  rw [threadCurrent_of hcur hst, ok_bind]
  refine threadBlock_spec h₁ hcur₁ hst hpc.symm (ne_idleInit hpc) hcur₁ rfl (fun q => ?_)
    (fun w x hw => .inl ⟨h₁.waiters_ne hw, hw⟩) ⟨rfl, rfl, rfl, rfl⟩
  change (_ : List Tid).Perm (Housed.moved s₁.queue s₁.current (some .sleep) q)
  cases q with
  | ready | sema j => rw [h₁.housed.moved_none (hnone _) (by simp)]; exact List.Perm.refl _
  | sleep =>
    rw [h₁.housed.moved_enter (hnone _)]
    exact listInsertOrdered_perm _ _ _

end Running

/-! ### What the functions keep that wake threads -/

section

variable {E : SchedAssert → Prop} {I : Sched → Prop}

/-- `sema_up` keeps what a store into its semaphore and a wakeup keep. -/
theorem semaWake_inv {i : SemaId} (hsema : ∀ s sema, I s → I (s.setSema i sema))
    (hwake : ∀ s t, I s → (s.threadUnblock t).Spec E I) (h : I s) : (s.semaWake i).Spec E I := by
  unfold semaWake
  split
  · exact hsema s _ h
  · exact (hwake _ _ (hsema s _ h)).bind fun s₁ _ h₁ => hsema s₁ _ h₁

/-- `signal` keeps what clearing its variable and a wakeup keep. -/
theorem signal_inv {w : WaiterId}
    (hclear : ∀ s, I s → I { s with waiters := update s.waiters w none })
    (hwake : ∀ s t, I s → (s.threadUnblock t).Spec E I) (h : I s) : (s.signal w).Spec E I := by
  unfold signal
  split
  · exact h
  · exact (hwake _ _ h).bind fun s₁ _ h₁ => hclear s₁ h₁

/-- `block_check` keeps what taking a sleeper from its list and a wakeup keep. -/
theorem blockCheckLoop_inv {rest : List Tid}
    (hlist : ∀ s t, I s → I { s with blockedList := s.blockedList.erase t })
    (hwake : ∀ s t, I s → (s.threadUnblock t).Post I) (h : I s) :
    (s.blockCheckLoop rest).Post I := by
  induction rest generalizing s with
  | nil => exact h
  | cons t rest ih =>
    rw [blockCheckLoop]
    split
    · trivial
    · split
      · exact (hwake s t h).bind fun s₁ _ h₁ => ih (hlist s₁ t h₁)
      · exact ih h

/-- The recalculations keep what each of them keeps. -/
theorem mlfqsTick_inv {cfg : Config} (haging : s.threadAging.Spec E I)
    (hcpu : ∀ s, I s → I s.calculateLoadAvg.calculateRecentCpu)
    (hprio : ∀ s, I s → I s.calculatePriority.1) (h : I s) :
    (s.mlfqsTick cfg).Spec E fun r => I r.1 := by
  unfold mlfqsTick
  split
  · refine haging.bind fun s₁ _ h₁ => ?_
    have h₂ : I (if s₁.ticks % timerFreq = 0
        then s₁.calculateLoadAvg.calculateRecentCpu else s₁) := by
      split
      · exact hcpu s₁ h₁
      · exact h₁
    generalize (if s₁.ticks % timerFreq = 0
        then s₁.calculateLoadAvg.calculateRecentCpu else s₁) = s₂ at h₂ ⊢
    rw [pure_eq, Spec.ok_iff]
    split
    · exact hprio s₂ h₂
    · exact h₂
  · exact h

end

/-! ### The timer interrupt -/

/-- The tick handler leaves the running thread running where it was. -/
def AtShape (x : ThreadStatus × Pc) (s : Sched) : Prop :=
  Partition s ∧ s.shape s.current = some x

/-- The invariant of `block_check`'s loop: what is left to visit are sleepers. -/
theorem blockCheckLoop_spec {rest : List Tid} (h : AtShape x s) (hnd : rest.Nodup)
    (hrest : ∀ t ∈ rest, t ∈ s.blockedList) :
    (s.blockCheckLoop rest).Spec (fun _ => False) (AtShape x) := by
  induction rest generalizing s with
  | nil => exact h
  | cons t rest ih =>
    obtain ⟨hp, hcur⟩ := h
    obtain ⟨hnot, hnd'⟩ := nodup_cons.mp hnd
    have hhome : s.home t = some .sleep :=
      (hp.housed.mem_iff .sleep t).mp (hrest t mem_cons_self)
    have hx := home_eq_sleep hhome
    obtain ⟨th, hth, hst, hpc⟩ := threads_of_shape hx
    have hother : ∀ y ∈ rest, y ∈ s.blockedList := fun y hy =>
      hrest y (mem_cons_of_mem t hy)
    rw [blockCheckLoop, hth]
    dsimp only
    split
    · rw [threadUnblock_eq hth hst, ok_bind]
      refine ih ⟨?_, ?_⟩ hnd' fun y hy => ?_
      · refine hp.wake hx rfl ?_ (listInsertOrdered_perm _ _ _) (fun q hq => ?_)
          (fun w y hw => ⟨hp.parked_ne hw hx (by simp), hw⟩) ⟨rfl, rfl, rfl, rfl⟩
        · rw [← hpc]
          exact shape_setThread _ _ _
        · cases q with
          | ready => exact absurd rfl hq
          | sleep => rfl
          | sema j =>
            rw [hp.housed.erase_eq (by simp [hhome])]
            rfl
      · have hne : s.current ≠ t := by
          rintro rfl
          have := hp.current_home
          rw [hhome] at this
          cases this
        change (Sched.shape (Sched.setThread _ _ _)) s.current = some x
        rw [shape_setThread, update_of_ne hne]
        exact hcur
      · have hne : y ≠ t := fun heq => hnot (heq ▸ hy)
        exact (mem_erase_of_ne hne).mpr (hother y hy)
    · exact ih ⟨hp, hcur⟩ hnd' hother

/-- A change of the threads that leaves their shapes alone. -/
theorem AtShape.congr {s' : Sched} (h : AtShape x s) (hshape : s'.shape = s.shape)
    (hqueue : ∀ q, (s'.queue q).Perm (s.queue q)) (hwaiters : s'.waiters = s.waiters)
    (hsame : SameThreads s s') : AtShape x s' := by
  refine ⟨h.1.congr hshape hqueue hwaiters hsame, ?_⟩
  rw [hshape, hsame.current]
  exact h.2

theorem shape_mapAll {f : Thread → Thread}
    (hf : ∀ th, (f th).status = th.status ∧ (f th).pc = th.pc) : (s.mapAll f).shape = s.shape := by
  funext t
  unfold shape mapAll
  dsimp only
  split
  · cases s.threads t with
    | none => rfl
    | some th => simp [hf th]
  · rfl

theorem AtShape.mapAll (h : AtShape x s) {f : Thread → Thread}
    (hf : ∀ th, (f th).status = th.status ∧ (f th).pc = th.pc) : AtShape x (s.mapAll f) :=
  h.congr (shape_mapAll hf) (fun q => by cases q <;> exact List.Perm.refl _) rfl
    ⟨rfl, rfl, rfl, rfl⟩

theorem threadAging_spec (h : AtShape x s) : s.threadAging.Spec (fun _ => False) (AtShape x) := by
  obtain ⟨cur, hcur, hst, heq⟩ := h.1.threadCurrent
  unfold threadAging
  rw [heq, ok_bind]
  refine h.congr ?_ (fun q => by rw [queue_setThread]) rfl ⟨rfl, rfl, rfl, rfl⟩
  rw [shape_setThread, ← shape_of_threads hcur, update_eq_self]

theorem AtShape.calculateRecentCpu (h : AtShape x s) :
    AtShape x s.calculateLoadAvg.calculateRecentCpu := by
  have h₁ : AtShape x s.calculateLoadAvg :=
    h.congr rfl (fun q => by cases q <;> exact List.Perm.refl _) rfl ⟨rfl, rfl, rfl, rfl⟩
  exact h₁.mapAll (f := fun th => { th with
    recentCpu := nextRecentCpu s.calculateLoadAvg.loadAvg th.recentCpu th.nice })
    fun th => ⟨rfl, rfl⟩

theorem AtShape.calculatePriority (h : AtShape x s) : AtShape x s.calculatePriority.1 := by
  have h₁ := h.mapAll (f := fun th => { th with priority := mlfqsPriority th.recentCpu th.nice })
    fun th => ⟨rfl, rfl⟩
  refine h₁.congr rfl (fun q => ?_) rfl ⟨rfl, rfl, rfl, rfl⟩
  cases q with
  | ready => exact listSort_perm _ _
  | sleep | sema j => exact List.Perm.refl _

theorem mlfqsTick_spec {cfg : Config} (h : AtShape x s) :
    (s.mlfqsTick cfg).Spec (fun _ => False) fun r => AtShape x r.1 :=
  mlfqsTick_inv (threadAging_spec h) (fun _ h => h.calculateRecentCpu)
    (fun _ h => h.calculatePriority) h

theorem timerTick_spec (h : AtShape x s) :
    (s.timerTick cfg).Spec (fun _ => False) fun r => AtShape x r.1 := by
  unfold timerTick
  set s₁ : Sched := { s with ticks := s.ticks + 1, threadTicks := s.threadTicks + 1 }
  have h₁ : AtShape x s₁ :=
    h.congr rfl (fun q => by cases q <;> exact List.Perm.refl _) rfl ⟨rfl, rfl, rfl, rfl⟩
  refine (blockCheckLoop_spec h₁ (h₁.1.housed.nodup .sleep) fun t ht => ht).bind
    fun s₂ _ h₂ => ?_
  exact (mlfqsTick_spec h₂).bind fun r _ h₃ => h₃

/-- The timer interrupt, with the yield on return. -/
theorem timerInterrupt_spec (h : Partition s) :
    (s.timerInterrupt cfg).Spec (fun _ => False) Partition := by
  obtain ⟨cur, hcur, hst, heq⟩ := h.threadCurrent
  have hx : AtShape (.running, cur.pc) s := ⟨h, shape_running hcur hst⟩
  unfold timerInterrupt
  rw [heq, ok_bind]
  refine (timerTick_spec hx).bind fun r _ hr => ?_
  obtain ⟨hp, hshape⟩ := hr
  obtain ⟨cur', hcur', hst', hpc'⟩ := threads_of_shape hshape
  dsimp only
  split
  · exact threadYield_spec hp hcur' hst' (by rw [hpc']) fun hi => hpc' ▸ hi
  · exact hp

/-! ### Every step -/

/-- The idle thread sets `idle_thread` to itself. -/
theorem Partition.setIdle (h : Partition s) (hcur : s.threads s.current = some cur)
    (hst : cur.status = .running) (hpc : cur.pc = .idleInit) :
    Partition ({ s with idleThread := some s.current }.goto cur .idleUp) := by
  have hx : s.shape s.current = some (.running, .idleInit) := hpc ▸ shape_running hcur hst
  have hid : s.current = idleTid := h.idlePc _ _ _ hx rfl
  set s₁ : Sched := { s with idleThread := some s.current } with hs₁
  -- `idle_thread` matters for the home of the idle thread only, which is running
  have hhome : s₁.home = s.home := by
    funext x
    rcases eq_or_ne x s.current with rfl | hne
    · rw [h.current_home]
      exact home_of_active (s := s₁) hx (.inl rfl)
    · have hother : (s₁.idleThread = some x) ↔ (s.idleThread = some x) := by
        have hk := h.idle
        unfold IdleKnown at hk
        cases hi : s.idleThread with
        | none => simp [hs₁, hne.symm]
        | some i =>
          rw [hi] at hk
          simp [hs₁, hk.1, hid]
      simp only [home, shape, hs₁] at hother ⊢
      simp only [hother]
  have h₁ : Partition s₁ := by
    refine ⟨⟨?_, h.parked, ?_, h.idlePc, h.allLive, h.allNodup, h.fresh⟩, h.running, h.unique⟩
    · rw [hhome]
      exact h.housed.perm fun q => by cases q <;> exact List.Perm.refl _
    · exact ⟨hid, .running, .idleInit, hid ▸ hx, rfl, by decide⟩
  exact h₁.advance hcur hst hst (by rw [hpc]; rfl) fun _ => by simp [hs₁]

theorem idleStep_spec (h : Partition s) (hcur : s.threads s.current = some cur)
    (hst : cur.status = .running) : (s.idleStep cfg cur).Spec (fun _ => False) Partition := by
  unfold idleStep
  split
  · rename_i hpc
    exact h.setIdle hcur hst hpc
  · rename_i hpc
    refine semaWake_spec (h.advance hcur hst hst ?_ ?_)
    · rw [hpc]
      split <;> rfl
    · rw [hpc]
      exact fun hi => by cases hi
  · rename_i hpc
    exact threadYield_spec h hcur hst (by rw [hpc]; rfl) (by rw [hpc]; exact fun hi => by cases hi)
  · rename_i hpc
    refine threadBlock_spec h hcur hst (by rw [hpc]) (by rw [hpc]; decide) hcur rfl (fun q => ?_)
      (fun w x hw => .inl ⟨h.waiters_ne hw, hw⟩) ⟨rfl, rfl, rfl, rfl⟩
    rw [h.housed.moved_none (by simp [h.current_home]) (by simp [homeOf])]
  · trivial

/-- `thread_create` unblocks the thread it made. -/
theorem Partition.start {th : Thread} {t : Tid} (h : Partition s)
    (hcur : s.threads s.current = some cur) (hst : cur.status = .running)
    (hidle : cur.pc.isIdle = false) (hpc : pc.isIdle = false) (hth : s.threads t = some th)
    (hst' : th.status = .blocked) (hpc' : th.pc = .code) :
    Partition (({ s with readyList := listInsertOrdered s.comparePriority t s.readyList }.setThread
      t { th with status := .ready }).goto cur pc) := by
  have hx : s.shape t = some (.blocked, .code) := by rw [shape_of_threads hth, hst', hpc']
  have hne : s.current ≠ t := by
    rintro rfl
    rw [hcur] at hth
    cases hth
    rw [hst] at hst'
    cases hst'
  refine Partition.advance ?_ ((update_of_ne hne _ _).trans hcur) hst hst
    (hpc.trans hidle.symm) fun hi => absurd hi (ne_idleInit hidle)
  refine h.wake hx rfl ?_ (listInsertOrdered_perm _ _ _) (fun q hq => ?_)
    (fun w x hw => ⟨h.parked_ne hw hx (by simp), hw⟩) ⟨rfl, rfl, rfl, rfl⟩
  · rw [← hpc']
    exact shape_setThread _ _ _
  · rw [queue_setThread, h.housed.erase_eq (by rw [home_eq hx]; simp [homeOf])]
    cases q with
    | ready => exact absurd rfl hq
    | sleep | sema j => rfl

/-- A thread parks itself in a waiter variable. -/
theorem wait_spec {w : WaiterId} (h : Partition s) (hcur : s.threads s.current = some cur)
    (hst : cur.status = .running) (hpc : cur.pc.isIdle = false) :
    ({ s with waiters := update s.waiters w (some s.current) }.threadBlock
      (.wait w)).Spec (fun _ => False) Partition := by
  refine threadBlock_spec h hcur hst hpc.symm (ne_idleInit hpc) hcur rfl
    (fun q => ?_) (fun w' x hw => ?_) ⟨rfl, rfl, rfl, rfl⟩
  · rw [h.housed.moved_none (by simp [h.current_home]) (by simp [homeOf])]
    cases q <;> exact List.Perm.refl _
  · rcases eq_or_ne w' w with rfl | hne
    · simp only [update_self, Option.some.injEq] at hw
      exact .inr ⟨hw.symm, rfl⟩
    · simp only [update_of_ne hne] at hw
      exact .inl ⟨h.waiters_ne hw, hw⟩

/-- `thread_set_priority` and `thread_set_nice` are not code of the idle thread or of a thread
that is about to sleep. -/
theorem runSet_eq_some {th : Thread} (h : cur.runSet = some th) : th.status = cur.status ∧
    cur.pc.isIdle = false ∧ th.pc.isIdle = false ∧ ∀ d, cur.pc ≠ .sleepUntil d := by
  unfold Thread.runSet at h
  split at h
  · rename_i hpc
    obtain rfl := Option.some.inj h
    refine ⟨rfl, by rw [hpc]; rfl, ?_, by rw [hpc]; simp⟩
    split <;> rfl
  · rename_i hpc
    obtain rfl := Option.some.inj h
    exact ⟨rfl, by rw [hpc]; rfl, rfl, by rw [hpc]; simp⟩
  · rename_i hpc
    obtain rfl := Option.some.inj h
    exact ⟨rfl, by rw [hpc]; rfl, rfl, by rw [hpc]; simp⟩
  · rename_i hpc
    obtain rfl := Option.some.inj h
    refine ⟨rfl, by rw [hpc]; rfl, ?_, by rw [hpc]; simp⟩
    dsimp only
    split <;> rfl
  · cases h

/-- **Every step keeps the partition**, and no assertion fails but the range check of
`init_thread`. -/
theorem step_spec {a : Action} (h : Partition s) :
    (s.step cfg a).Spec (· = .priorityRange) Partition := by
  obtain ⟨cur, hcur, hst, heq⟩ := h.threadCurrent
  have never : ∀ {x : SchedM Sched}, x.Spec (fun _ => False) Partition →
      x.Spec (· = .priorityRange) Partition := fun hx => hx.weaken fun _ he => he.elim
  have hcode : cur.pc = .code → cur.pc.isIdle = false := fun hpc => by rw [hpc]; rfl
  have hboot : cur.pc.isIdle = false → cur.pc = .idleInit → s.idleThread ≠ none := fun hpc hi =>
    absurd hi (ne_idleInit hpc)
  unfold step
  rw [heq, ok_bind]
  cases a with
  | initThread p tail => exact Spec.require fun _ => initThread_spec h
  | startThread t =>
    refine Spec.require fun ⟨hpc, ht⟩ => ?_
    cases hth : s.threads t with
    | none => simp [hth] at ht
    | some th =>
      simp only [hth, Option.elim_some, decide_eq_true_eq] at ht
      rw [threadUnblock_eq hth ht.1, ok_bind]
      exact h.start hcur hst (hcode hpc) rfl hth ht.1 ht.2
  | createCheck =>
    dsimp only
    split
    · rename_i p hpc
      have hidle : cur.pc.isIdle = false := by rw [hpc]; rfl
      refine h.advance hcur hst hst ?_ (hboot hidle)
      rw [hidle]
      split <;> rfl
    · trivial
  | threadYield =>
    refine Spec.require fun hpc => never (threadYield_spec h hcur hst ?_ ?_)
    · rcases hpc with hpc | hpc
      · rw [hpc]
      · rw [hpc]
        rfl
    · rintro hi
      rw [hi] at hpc
      rcases hpc with hpc | hpc <;> cases hpc
  | threadExit => exact Spec.require fun hpc => never (threadExit_spec h hcur hst (hcode hpc))
  | wait w => exact Spec.require fun hpc => never (wait_spec h hcur hst (hcode hpc))
  | signal w | intrSignal w => exact Spec.require fun _ => never (signal_spec h)
  | semaDown i =>
    refine Spec.require fun hpc => never (semaDown_spec h hcur hst ?_)
    rcases hpc with hpc | hpc <;> rw [hpc] <;> rfl
  | semaUp i =>
    refine Spec.require fun hpc => never (semaWake_spec (h.advance hcur hst hst ?_
      (hboot (hcode hpc))))
    rw [hcode hpc, Config.afterSemaUp]
    split <;> rfl
  | timerSleep n =>
    refine Spec.require fun hpc => ?_
    rw [pure_eq, Spec.ok_iff]
    split
    · exact h
    · exact h.advance hcur hst hst (hcode hpc).symm (hboot (hcode hpc))
  | threadBlockWithTime =>
    dsimp only
    split
    · rename_i ticks hpc
      exact never (threadBlockWithTime_spec h hcur hst (by rw [hpc]; rfl))
    · trivial
  | threadSetPriority p | threadSetNice n =>
    exact Spec.require fun hpc =>
      h.advance hcur hst hst (hcode hpc).symm (hboot (hcode hpc))
  | runSet =>
    dsimp only
    split
    · rename_i th hth
      obtain ⟨hst', hidle, hidle', -⟩ := runSet_eq_some hth
      exact h.advance hcur hst (hst'.trans hst) (hidle'.trans hidle.symm) (hboot hidle)
    · trivial
  | idle => exact never (idleStep_spec h hcur hst)
  | timerInterrupt => exact Spec.require fun _ => never (timerInterrupt_spec h)
  | intrSemaUp i => exact Spec.require fun _ => never (semaWake_spec h)

end Sched

/-! ### Reachable states -/

/-- The states reached from boot by steps that all meet the condition `C`. -/
def SchedReachable (cfg : Config) (C : Sched → Action → Prop) (s : Sched) : Prop :=
  ∃ value tail tail' s₀, threadStart (threadInit value tail) tail' = ok s₀ ∧
    Reachable (Sched.step cfg) C s₀ s

/-- The state at the end of boot: the initial thread runs and the idle thread is ready. -/
theorem threadStart_eq {value : SemaId → ℕ} {tail tail' : ℤ} {s₀ : Sched}
    (h : threadStart (threadInit value tail) tail' = ok s₀) :
    (∀ t, s₀.shape t = if t = 0 then some (.running, .code)
      else if t = idleTid then some (.ready, .idleInit) else none) ∧
    s₀.readyList = [idleTid] ∧ s₀.blockedList = [] ∧ (∀ i, (s₀.semas i).waiters = []) ∧
    (∀ w, s₀.waiters w = none) ∧ s₀.idleThread = none ∧ s₀.current = 0 ∧
    s₀.allList = [0, idleTid] ∧ s₀.nextTid = 2 := by
  obtain rfl := Outcome.ok.inj h
  refine ⟨fun t => ?_, rfl, rfl, fun _ => rfl, fun _ => rfl, rfl, rfl, rfl, rfl⟩
  rcases eq_or_ne t idleTid with rfl | ht
  · rfl
  · rw [Sched.shape_setThread, update_of_ne ht, if_neg ht]
    change Sched.shape (Sched.setThread _ idleTid _) t = _
    rw [Sched.shape_setThread, update_of_ne ht]
    by_cases h0 : t = 0
    · subst h0
      rfl
    · simp [Sched.shape, threadInit, Sched.initialThread, h0]

/-- Each thread is in its place when interrupts come on. -/
theorem threadStart_partition {value : SemaId → ℕ} {tail tail' : ℤ} {s₀ : Sched}
    (h : threadStart (threadInit value tail) tail' = ok s₀) : Sched.Partition s₀ := by
  obtain ⟨hshape, hready, hsleep, hsema, hwait, hidle, hcur, hall, hnext⟩ := threadStart_eq h
  have hcases : ∀ t x, s₀.shape t = some x →
      (t = 0 ∧ x = (.running, .code)) ∨ (t = idleTid ∧ x = (.ready, .idleInit)) := by
    intro t x hx
    rw [hshape] at hx
    split at hx
    · exact .inl ⟨‹_›, (Option.some.inj hx).symm⟩
    · split at hx
      · exact .inr ⟨‹_›, (Option.some.inj hx).symm⟩
      · cases hx
  have hhome : ∀ t, s₀.home t = if t = idleTid then some .ready else none := by
    intro t
    rw [Sched.home, hidle, hshape]
    split
    · subst t
      rfl
    · split <;> rfl
  refine ⟨⟨⟨fun q => ?_, fun q t => ?_⟩, ?_, ?_, ?_, ?_, ?_, ?_⟩, ⟨.code, ?_⟩, ?_⟩
  · cases q <;> simp [Sched.queue, hready, hsleep, hsema]
  · rw [hhome]
    cases q <;> simp [Sched.queue, hready, hsleep, hsema]
  · exact fun w t hw => by rw [hwait] at hw; cases hw
  · rw [Sched.IdleKnown, hidle]
    exact ⟨.ready, hshape idleTid, .inl rfl⟩
  · intro t st pc hx hpc
    rcases hcases t _ hx with ⟨-, heq⟩ | ⟨ht, -⟩
    · cases heq
      cases hpc
    · exact ht
  · intro t ht
    rw [hall] at ht
    simp only [mem_cons, not_mem_nil, or_false] at ht
    rcases ht with rfl | rfl
    · exact ⟨_, _, hshape 0, by decide⟩
    · exact ⟨_, _, hshape idleTid, by decide⟩
  · rw [hall]
    decide
  · intro t x hx
    rw [hnext]
    rcases hcases t x hx with ⟨rfl, -⟩ | ⟨rfl, -⟩ <;> decide
  · rw [hcur, hshape]
    rfl
  · intro t pc hx
    rw [hcur]
    rcases hcases t _ hx with ⟨ht, -⟩ | ⟨-, heq⟩
    · exact ht
    · cases heq

/-- **The partition holds in every reachable state.** -/
theorem SchedReachable.partition {cfg : Config} {C : Sched → Action → Prop} {s : Sched}
    (h : SchedReachable cfg C s) : Sched.Partition s := by
  obtain ⟨value, tail, tail', s₀, h₀, hreach⟩ := h
  exact hreach.invariant (threadStart_partition h₀) fun s a s' hs _ hstep =>
    (Sched.step_spec hs).of_eq_ok hstep

/-- `t` is a thread whose status is `st`. -/
def Sched.HasStatus (s : Sched) (t : Tid) (st : ThreadStatus) : Prop :=
  ∃ th, s.threads t = some th ∧ th.status = st

/-- The members of the run queue are the ready threads other than the idle thread. -/
theorem Sched.home_eq_ready_iff {s : Sched} {t : Tid} :
    s.home t = some .ready ↔ s.HasStatus t .ready ∧ s.idleThread ≠ some t := by
  constructor
  · intro h
    obtain ⟨hi, pc, hx⟩ := Sched.home_eq_ready h
    obtain ⟨th, hth, hst, -⟩ := Sched.threads_of_shape hx
    exact ⟨⟨th, hth, hst⟩, hi⟩
  · rintro ⟨⟨th, hth, hst⟩, hi⟩
    rw [Sched.home_eq (Sched.shape_of_threads hth), hst]
    simp [homeOf, hi]

/-- **The scheduler's lists and statuses agree** in every reachable state, and of the
assertions on the scheduler's paths only the range check of `init_thread` can fail. -/
theorem scheduler_partition {cfg : Config} {s : Sched}
    (h : SchedReachable cfg (fun _ _ => True) s) :
    (∃! t, s.HasStatus t .running) ∧
    s.readyList.Nodup ∧
    (∀ t, t ∈ s.readyList ↔ s.HasStatus t .ready ∧ s.idleThread ≠ some t) ∧
    (∀ t, s.HasStatus t .blocked → s.idleThread ≠ some t → t ∉ s.readyList ∧
      (∀ i, (s.semas i).waiters.count t ≤ 1) ∧
      ∀ i j, t ∈ (s.semas i).waiters → t ∈ (s.semas j).waiters → i = j) ∧
    (∀ t ∈ s.blockedList, ∃ th, s.threads t = some th ∧ th.status = .blocked ∧
      th.pc = .blockWithTime) ∧
    (∀ i, s.idleThread = some i → i ∉ s.readyList) ∧
    ∀ a e, s.step cfg a = .panic e → e = .priorityRange := by
  have hp := h.partition
  have hready : ∀ t, t ∈ s.readyList ↔ s.HasStatus t .ready ∧ s.idleThread ≠ some t :=
    fun t => (hp.housed.mem_iff .ready t).trans Sched.home_eq_ready_iff
  refine ⟨⟨s.current, ?_, ?_⟩, hp.housed.nodup .ready, hready, ?_, ?_, ?_, ?_⟩
  · obtain ⟨pc, hrun⟩ := hp.running
    obtain ⟨th, hth, hst, -⟩ := Sched.threads_of_shape hrun
    exact ⟨th, hth, hst⟩
  · rintro t ⟨th, hth, hst⟩
    exact hp.unique t th.pc (hst ▸ Sched.shape_of_threads hth)
  · rintro t ⟨th, hth, hst⟩ -
    refine ⟨?_, fun i => ?_, fun i j hi hj => ?_⟩
    · rw [hready]
      rintro ⟨⟨th', hth', hst'⟩, -⟩
      rw [hth] at hth'
      cases hth'
      rw [hst] at hst'
      cases hst'
    · exact nodup_iff_count_le_one.mp (hp.housed.nodup (.sema i)) t
    · exact Queue.sema.inj (hp.housed.unique (.sema i) (.sema j) hi hj)
  · intro t ht
    exact Sched.threads_of_shape (Sched.home_eq_sleep ((hp.housed.mem_iff .sleep t).mp ht))
  · intro i hi hmem
    exact ((hready i).mp hmem).2 hi
  · intro a e hpanic
    exact (Sched.step_spec hp).of_eq_panic hpanic

/-- The initial thread waits for the idle thread, which sets `idle_thread` and wakes it:
a reachable state in which the idle thread is running. -/
theorem scheduler_partition_idle :
    ∃ s, SchedReachable ⟨true, false, false⟩ (fun _ _ => True) s ∧
      s.current = idleTid ∧ s.readyList = [0] ∧ idleTid ∉ s.readyList := by
  have hreach : SchedReachable ⟨true, false, false⟩ (fun _ _ => True) _ :=
    ⟨fun _ => 0, 0, 0, _, rfl, [.semaDown idleStarted, .idle, .idle], Run.of_exec rfl⟩
  exact ⟨_, hreach, rfl, rfl, (scheduler_partition hreach).2.2.2.2.2.1 idleTid rfl⟩

end Pintos
