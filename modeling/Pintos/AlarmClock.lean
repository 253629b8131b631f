import Pintos.ListSort
import Pintos.RoundRobin

/-!
# The Alarm Clock

When `timer_sleep` lets a thread go on. A call reads the clock, and later, possibly after
some ticks, puts the thread into `blocked_list` with the tick to wake it at; every timer
interrupt runs `block_check`, which walks that list, unblocks the threads whose tick has come
and removes them while it goes.

`Kept t s s'` is what the steps of others leave of a thread: its wakeup tick, and its place in
its code up to the return of the call it blocked in. A sleeper's status and queue then follow
from the partition of the threads. `blockCheckLinks` is `block_check` at the level of links.

## Main results

* `blockCheck_wakes`: `block_check` unblocks exactly the sleepers whose tick has come and
  leaves the others in their order.
* `blockCheckLinks_refines`: walking the links of `blocked_list` while removing from it visits
  every sleeper and computes the same lists.
* `step_sleepers`: what every step does to a sleeper and to one who is about to sleep.
* `alarm_clock_exact`: a thread is unblocked by the first timer interrupt after it blocked
  whose tick count is at least the one it asked for, and not before.
-/

namespace Pintos

open Verif Verif.Outcome Function List

namespace Sched

variable {a : Action} {cfg : Config} {s s' : Sched} {t : Tid} {d : ℕ}

/-! ### What others leave of a thread -/

/-- The wakeup tick of `t` and its place in its code, up to the return of the call it
blocked in, are as before. -/
def Kept (t : Tid) (s s' : Sched) : Prop :=
  ∀ th, s.threads t = some th → ∃ th', s'.threads t = some th' ∧ th'.ticks = th.ticks ∧
    (th'.pc = th.pc ∨ th'.pc = th.pc.resume)

/-- The thread `t` and the sleepers are as before. -/
structure Leaves (t : Tid) (s s' : Sched) : Prop where
  kept : Kept t s s'
  blockedList : s'.blockedList = s.blockedList

theorem Kept.refl (t : Tid) (s : Sched) : Kept t s s := fun th h => ⟨th, h, rfl, .inl rfl⟩

theorem Kept.of_eq (h : s'.threads t = s.threads t) : Kept t s s' :=
  fun th hth => ⟨th, h.trans hth, rfl, .inl rfl⟩

theorem Kept.trans {s'' : Sched} (h : Kept t s s') (h' : Kept t s' s'') : Kept t s s'' := by
  intro th hth
  obtain ⟨th', hth', hticks, hpc⟩ := h th hth
  obtain ⟨th'', hth'', hticks', hpc'⟩ := h' th' hth'
  refine ⟨th'', hth'', hticks'.trans hticks, ?_⟩
  rcases hpc with hpc | hpc <;> rcases hpc' with hpc' | hpc' <;> rw [hpc] at hpc'
  · exact .inl hpc'
  · exact .inr hpc'
  · exact .inr hpc'
  · exact .inr (hpc'.trans (Pc.resume_resume _))

theorem Leaves.refl (t : Tid) (s : Sched) : Leaves t s s := ⟨.refl t s, rfl⟩

theorem Leaves.trans {s'' : Sched} (h : Leaves t s s') (h' : Leaves t s' s'') : Leaves t s s'' :=
  ⟨h.kept.trans h'.kept, h'.blockedList.trans h.blockedList⟩

/-- A thread changes: another one, or `t` in its other members. -/
theorem kept_setThread {x : Tid} {th' : Thread}
    (hx : ∀ th, x = t → s.threads t = some th → th'.ticks = th.ticks ∧
      (th'.pc = th.pc ∨ th'.pc = th.pc.resume)) : Kept t s (s.setThread x th') := by
  intro th hth
  rcases eq_or_ne t x with rfl | hne
  · exact ⟨th', update_self _ _ _, hx th rfl hth⟩
  · exact ⟨th, (update_of_ne hne _ _).trans hth, rfl, .inl rfl⟩

/-- Nothing changes that matters to the sleepers. -/
theorem Leaves.of_eq (hthreads : s'.threads = s.threads)
    (hblocked : s'.blockedList = s.blockedList) : Leaves t s s' :=
  ⟨Kept.of_eq (congrFun hthreads t), hblocked⟩

/-- Another thread changes. -/
theorem leaves_setThread_of_ne {x : Tid} (hne : x ≠ t) (th' : Thread) :
    Leaves t s (s.setThread x th') :=
  ⟨kept_setThread fun _ hx => absurd hx hne, rfl⟩

/-! ### The functions of the scheduler -/

/-- Wakeups and switches leave the sleepers alone, and a thread that keeps its place. -/
theorem Rescheduled.leaves {P : Tid → Prop} (h : Rescheduled P s s') (ht : P t) :
    Leaves t s s' := by
  refine ⟨fun th hth => ?_, by rw [h.same]⟩
  have hbare := h.bare t
  rw [hth] at hbare
  obtain ⟨th', hth', heq⟩ := Option.map_eq_some_iff.mp hbare
  have hticks : th'.bare.ticks = th.bare.ticks := congrArg Thread.ticks heq
  exact ⟨th', hth', hticks, h.place t th th' ht hth hth'⟩

theorem threadUnblock_leaves {x : Tid} :
    (s.threadUnblock x).Post (Leaves t s) :=
  (threadUnblock_rescheduled (P := (· = t))).mono fun _ _ h => h.leaves rfl

theorem threadBlock_leaves {pc : Pc} (ht : s.current ≠ t) :
    (s.threadBlock pc).Post (Leaves t s) :=
  (threadBlock_rescheduled (P := (· = t)) ht).mono fun _ _ h => h.leaves rfl

/-- A thread that yields stays where it is in its code. -/
theorem threadYield_leaves {cur : Thread} {pc : Pc} (hcur : s.threads s.current = some cur)
    (ht : s.current = t → pc = cur.pc) :
    (s.threadYield pc).Post (Leaves t s) := by
  refine (threadYield_rescheduled (P := (· = t)) fun cur' hcur' => ?_).mono
    fun _ _ h => h.leaves rfl
  obtain rfl : cur = cur' := Option.mem_unique hcur hcur'
  exact ht

/-- Another thread exits. -/
theorem threadExit_leaves (ht : s.current ≠ t) :
    s.threadExit.Post (Leaves t s) := by
  refine threadCurrent_spec.bind fun cur _ _ => ?_
  have hlist : Leaves t s { s with allList := s.allList.erase s.current } := .of_eq rfl rfl
  have hexit := hlist.trans (leaves_setThread_of_ne ht { cur with status := .dying })
  refine (schedule_frame (P := (· = t)) (update_self _ _ _)).mono
    fun s' _ ⟨s₁, h₁, _, hs'⟩ => ?_
  have hrun := hexit.trans (h₁.leaves rfl)
  rw [hs']
  split
  · exact hrun.trans ⟨Kept.of_eq (update_of_ne ht.symm _ _), rfl⟩
  · exact hrun

theorem Leaves.threadUnblock {s₀ : Sched} (s : Sched) (x : Tid) (h : Leaves t s₀ s) :
    (s.threadUnblock x).Post (Leaves t s₀) :=
  threadUnblock_leaves.mono fun _ _ h' => h.trans h'

theorem signal_leaves {w : WaiterId} : (s.signal w).Post (Leaves t s) :=
  signal_inv (fun _ h => h.trans (.of_eq rfl rfl)) Leaves.threadUnblock (.refl t s)

theorem leaves_setSema (t : Tid) (s : Sched) (i : SemaId) (sema : Sema) :
    Leaves t s (s.setSema i sema) :=
  .of_eq rfl rfl

theorem semaWake_leaves {i : SemaId} : (s.semaWake i).Post (Leaves t s) :=
  semaWake_inv (fun s' sema h => h.trans (leaves_setSema t s' i sema)) Leaves.threadUnblock
    (.refl t s)

theorem semaDown_leaves {i : SemaId} (ht : s.current ≠ t) :
    (s.semaDown i).Post (Leaves t s) := by
  refine threadCurrent_spec.bind fun cur _ _ => ?_
  dsimp only
  split
  · refine (threadBlock_leaves (s := s.setSema i _) ht).mono fun s' _ h' => ?_
    exact (leaves_setSema t s i _).trans h'
  · exact (leaves_setSema t s i _).trans (leaves_setThread_of_ne ht _)

/-- A thread is made, where there was none. -/
theorem initThread_leaves {p tail : ℤ} {pc : Pc} (hnext : s.threads s.nextTid = none) :
    (s.initThread p tail pc).Post (Leaves t s) := by
  refine threadCurrent_spec.bind fun cur _ _ => Spec.ensure_of trivial fun _ => ?_
  have hlist : Leaves t s
      { s with allList := s.allList ++ [s.nextTid], nextTid := s.nextTid + 1 } :=
    .of_eq rfl rfl
  refine hlist.trans ⟨kept_setThread fun th hx hth => ?_, rfl⟩
  rw [← hx] at hth
  cases hnext.symm.trans hth

theorem leaves_mapAll {f : Thread → Thread}
    (hf : ∀ th, (f th).ticks = th.ticks ∧ (f th).pc = th.pc) : Leaves t s (s.mapAll f) := by
  refine ⟨fun th hth => ?_, rfl⟩
  by_cases hmem : t ∈ s.allList
  · exact ⟨f th, by simp [mapAll, hmem, hth], (hf th).1, .inl (hf th).2⟩
  · exact ⟨th, by simp [mapAll, hmem, hth], rfl, .inl rfl⟩

theorem mlfqsTick_leaves :
    (s.mlfqsTick cfg).Post fun r => Leaves t s r.1 := by
  refine mlfqsTick_inv ?_ (fun s₁ h₁ => ?_) (fun s₁ h₁ => ?_) (.refl t s)
  · refine threadAging_cases.mono fun s₁ _ ⟨cur, hcur, _, hs₁⟩ => ?_
    rw [hs₁]
    refine ⟨kept_setThread fun th hx hth => ?_, rfl⟩
    rw [← hx, hcur] at hth
    obtain rfl := Option.some.inj hth
    exact ⟨rfl, .inl rfl⟩
  · have hload : Leaves t s₁ s₁.calculateLoadAvg := .of_eq rfl rfl
    exact (h₁.trans hload).trans (leaves_mapAll fun _ => ⟨rfl, rfl⟩)
  · have hmap : Leaves t s₁ (s₁.mapAll fun th =>
        { th with priority := mlfqsPriority th.recentCpu th.nice }) :=
      leaves_mapAll fun _ => ⟨rfl, rfl⟩
    exact (h₁.trans hmap).trans (.of_eq rfl rfl)

/-! ### `block_check` -/

/-- The tick of `t` has come. -/
def Expired (s : Sched) (t : Tid) : Prop :=
  t ∈ s.blockedList ∧ s.wakeTick t ≤ s.ticks

instance (s : Sched) (t : Tid) : Decidable (s.Expired t) := inferInstanceAs (Decidable (_ ∧ _))

/-- `s'` is `s` with exactly the sleepers unblocked whose tick has come, and the others in
`blocked_list` in the order they were in. -/
structure Wakes (s s' : Sched) : Prop where
  threads : ∀ t, s'.threads t = if s.Expired t
    then (s.threads t).map (fun th => { th with status := .ready }) else s.threads t
  readyList : s'.readyList.Perm (s.blockedList.filter (fun t => s.Expired t) ++ s.readyList)
  blockedList : s'.blockedList = s.blockedList.filter fun t => ¬s.Expired t

theorem threadUnblock_threads {th : Thread} (hth : s.threads t = some th) :
    (s.threadUnblock t).Post fun s' =>
      s'.threads = update s.threads t (some { th with status := .ready }) ∧
      s'.readyList = listInsertOrdered s.comparePriority t s.readyList ∧
      s'.blockedList = s.blockedList ∧ s'.semas = s.semas ∧ s'.ticks = s.ticks := by
  rw [threadUnblock, hth]
  exact Spec.ensure_of trivial fun _ => ⟨rfl, rfl, rfl, rfl, rfl⟩

/-- Unblocking a thread does not change the tick any thread wakes at. -/
theorem wakeTick_update {th : Thread} (hth : s.threads t = some th)
    (h : s'.threads = update s.threads t (some { th with status := .ready })) :
    s'.wakeTick = s.wakeTick := by
  funext x
  rw [wakeTick, wakeTick, h, update_apply]
  split_ifs with hx
  · rw [hx, hth]
    rfl
  · rfl

/-- The loop over the part `rest` of `blocked_list`. -/
theorem blockCheckLoop_threads {rest : List Tid} (hnd : rest.Nodup)
    (hblocked : s.blockedList.Nodup) :
    (s.blockCheckLoop rest).Post fun s' =>
      (∀ t, s'.threads t = if t ∈ rest ∧ s.wakeTick t ≤ s.ticks
        then (s.threads t).map (fun th => { th with status := .ready }) else s.threads t) ∧
      s'.blockedList = s.blockedList.filter fun t => ¬(t ∈ rest ∧ s.wakeTick t ≤ s.ticks) := by
  induction rest generalizing s with
  | nil =>
    refine ⟨fun t => by simp, ?_⟩
    rw [filter_eq_self.mpr (by simp)]
  | cons t rest ih =>
    obtain ⟨hnot, hnd'⟩ := nodup_cons.mp hnd
    rw [blockCheckLoop]
    split
    · trivial
    rename_i th hth
    have hwake : s.wakeTick t = th.ticks := by rw [wakeTick, hth, Option.elim_some]
    split_ifs with hle
    · refine (threadUnblock_threads hth).bind fun s₁ _ h₁ => ?_
      obtain ⟨hthreads, -, hlist, -, hticks⟩ := h₁
      have hwake₁ : s₁.wakeTick = s.wakeTick := wakeTick_update hth hthreads
      have hblocked₁ : (s₁.blockedList.erase t).Nodup := hlist ▸ hblocked.erase t
      refine (ih (s := { s₁ with blockedList := s₁.blockedList.erase t }) hnd' hblocked₁).mono
        fun s' _ hs' => ⟨fun x => ?_, ?_⟩
      · refine (hs'.1 x).trans ?_
        change (if x ∈ rest ∧ s₁.wakeTick x ≤ s₁.ticks then _ else s₁.threads x) = _
        rw [hwake₁, hticks, hthreads, update_apply]
        by_cases hx : x = t
        · subst hx
          rw [if_neg fun hc => hnot hc.1, if_pos rfl,
            if_pos ⟨mem_cons_self .., hwake ▸ hle⟩, hth]
          rfl
        · simp only [mem_cons, hx, false_or, if_false]
      · refine hs'.2.trans ?_
        change (s₁.blockedList.erase t).filter
          (fun x => decide ¬(x ∈ rest ∧ s₁.wakeTick x ≤ s₁.ticks)) = _
        rw [hwake₁, hticks, hlist, hblocked.erase_eq_filter, filter_filter]
        refine filter_congr fun x _ => ?_
        by_cases hx : x = t
        · subst hx
          simp [hwake, hle]
        · simp [hx]
    · refine (ih hnd' hblocked).mono fun s' _ hs' => ⟨fun x => ?_, ?_⟩
      · rw [hs'.1]
        by_cases hx : x = t
        · subst hx
          rw [if_neg fun hc => hnot hc.1, if_neg fun hc => hle (hwake ▸ hc.2)]
        · simp only [mem_cons, hx, false_or]
      · rw [hs'.2]
        refine filter_congr fun x _ => ?_
        by_cases hx : x = t
        · subst hx
          simp [hnot, hwake, hle]
        · simp [hx]

/-- **`block_check` wakes exactly the sleepers whose tick has come.** -/
theorem blockCheck_wakes (hp : Partition s) : s.blockCheck.Post (Wakes s) := by
  obtain ⟨cur, hcur, hst, -⟩ := hp.threadCurrent
  have hnd : s.blockedList.Nodup := hp.housed.nodup .sleep
  unfold blockCheck
  cases hs : s.blockCheckLoop s.blockedList with
  | ok s' =>
    obtain ⟨hthreads, hlist⟩ := (blockCheckLoop_threads hnd hnd).of_eq_ok hs
    obtain ⟨-, hready⟩ := (blockCheckLoop_effect hcur hst).of_eq_ok hs
    refine ⟨hthreads, hready.trans (List.Perm.append_right _ (List.Perm.of_eq ?_)), hlist⟩
    refine filter_congr fun x hx => ?_
    simp [Expired, hx]
  | blocked | panic e => trivial

/-! ### Every step -/

/-- The sleepers after a step: the timer interrupt lets those go whose tick has come, and
`thread_block_with_time` adds the running thread. -/
def SleeperStep (s : Sched) (a : Action) (s' : Sched) : Prop :=
  match a with
  | .timerInterrupt =>
    s'.blockedList = s.blockedList.filter (fun x => s.ticks + 1 < s.wakeTick x) ∧
    ∀ x ∈ s.blockedList, s.wakeTick x ≤ s.ticks + 1 →
      x = s'.current ∨ x ∈ s'.readyList
  | .threadBlockWithTime => s'.blockedList.Perm (s.current :: s.blockedList)
  | _ => s'.blockedList = s.blockedList

/-- A tick, up to the return of its handler. -/
theorem timerTick_sleepers (hp : Partition s) :
    (s.timerTick cfg).Post fun r =>
      Kept t s r.1 ∧
      r.1.blockedList = s.blockedList.filter (fun x => s.ticks + 1 < s.wakeTick x) := by
  unfold timerTick
  set s₁ : Sched := { s with ticks := s.ticks + 1, threadTicks := s.threadTicks + 1 } with hs₁
  have hp₁ : Partition s₁ := hp.congr rfl (fun _ => List.Perm.refl _) rfl ⟨rfl, rfl, rfl, rfl⟩
  refine (blockCheck_wakes hp₁).bind fun s₂ _ h₂ => ?_
  have hkept : Kept t s s₂ := by
    intro th hth
    have hth₂ := h₂.threads t
    rw [show s₁.threads t = some th from hth] at hth₂
    split at hth₂
    · exact ⟨_, hth₂, rfl, .inl rfl⟩
    · exact ⟨th, hth₂, rfl, .inl rfl⟩
  have hlist : s₂.blockedList = s.blockedList.filter fun x => s.ticks + 1 < s.wakeTick x := by
    rw [h₂.blockedList]
    refine filter_congr fun x hx => ?_
    have hx' : x ∈ s₁.blockedList := hx
    have hexp : s₁.Expired x ↔ s.wakeTick x ≤ s.ticks + 1 :=
      ⟨fun hc => hc.2, fun hc => ⟨hx', hc⟩⟩
    simp only [hexp, Nat.not_le]
  exact mlfqsTick_leaves.bind fun r _ (hr : Leaves t s₂ r.1) =>
    ⟨hkept.trans hr.kept, hr.blockedList.trans hlist⟩

/-- The timer interrupt, with the yield at its end. -/
theorem timerInterrupt_sleepers (hp : Partition s) :
    (s.timerInterrupt cfg).Post fun s' =>
      Kept t s s' ∧ SleeperStep s .timerInterrupt s' := by
  obtain ⟨cur, hcur, hst, heq⟩ := hp.threadCurrent
  have hshape : AtShape (.running, cur.pc) s := ⟨hp, hst ▸ shape_of_threads hcur⟩
  unfold timerInterrupt
  rw [heq, ok_bind]
  cases hr : s.timerTick cfg with
  | blocked | panic e => trivial
  | ok r =>
    obtain ⟨hkept, hlist⟩ := (timerTick_sleepers (t := t) hp).of_eq_ok hr
    obtain ⟨-, hready, -, -⟩ := (timerTick_effect hp).of_eq_ok hr
    obtain ⟨hp', hshape'⟩ := (timerTick_spec hshape).of_eq_ok hr
    have hwoken : ∀ x ∈ s.blockedList, s.wakeTick x ≤ s.ticks + 1 → x ∈ r.1.readyList := by
      intro x hx hle
      exact (hready x).mpr (.inl (mem_filter.mpr ⟨hx, decide_eq_true hle⟩))
    rw [ok_bind]
    dsimp only
    split
    · obtain ⟨cur', hcur', -, hpc'⟩ := threads_of_shape hshape'
      cases hs' : r.1.threadYield cur.pc with
      | blocked | panic e => trivial
      | ok s' =>
        have hleaves : Leaves t r.1 s' :=
          (threadYield_leaves hcur' fun _ => hpc'.symm).of_eq_ok hs'
        refine ⟨hkept.trans hleaves.kept, hleaves.blockedList.trans hlist, fun x hx hle => ?_⟩
        -- the woken thread is in the queue the yield takes the next thread from
        have hmem : x ∈ r.1.runQueue := mem_runQueue.mpr (.inr (hwoken x hx hle))
        cases hq : r.1.runQueue with
        | nil =>
          rw [hq] at hmem
          cases hmem
        | cons y rest =>
          obtain ⟨hcurrent, hrest, -, -⟩ := (threadYield_effect hq).of_eq_ok hs'
          rw [hq] at hmem
          rw [hcurrent, hrest]
          exact mem_cons.mp hmem
    · exact ⟨hkept, hlist, fun x hx hle => .inr (hwoken x hx hle)⟩

/-- The idle thread is not about to sleep. -/
theorem idleStep_leaves {cur : Thread} (hcur : s.threads s.current = some cur)
    (hother : (∀ d, cur.pc ≠ .sleepUntil d) → s.current ≠ t) :
    (s.idleStep cfg cur).Post (Leaves t s) := by
  unfold idleStep
  split <;> rename_i hidle
  case h_5 => trivial
  all_goals have hne : s.current ≠ t := hother (by simp [hidle])
  · have hset : Leaves t s { s with idleThread := some s.current } := .of_eq rfl rfl
    exact hset.trans (leaves_setThread_of_ne hne _)
  · exact semaWake_leaves.mono fun s' _ h' => (leaves_setThread_of_ne hne _).trans h'
  · exact threadYield_leaves hcur fun h => absurd h hne
  · exact threadBlock_leaves hne

/-- **What every step does to the sleepers**, and to a thread that does not run or is about
to sleep. -/
theorem step_sleepers (hp : Partition s)
    (ht : t = s.current → a ≠ .threadBlockWithTime ∧
      ∃ cur d, s.threads s.current = some cur ∧ cur.pc = .sleepUntil d) :
    (s.step cfg a).Post fun s' => Kept t s s' ∧ SleeperStep s a s' := by
  obtain ⟨cur, hcur, hst, heq⟩ := hp.threadCurrent
  have hpc : s.current = t → ∃ d, cur.pc = .sleepUntil d := by
    intro h
    obtain ⟨-, cur', d, hcur', hd⟩ := ht h.symm
    obtain rfl : cur = cur' := Option.mem_unique hcur hcur'
    exact ⟨d, hd⟩
  -- a thread anywhere else in its code is not `t`
  have hother : (∀ d, cur.pc ≠ .sleepUntil d) → s.current ≠ t := by
    intro h heq
    obtain ⟨d, hd⟩ := hpc heq
    exact h d hd
  have hat : ∀ pc, cur.pc = pc → (∀ d, pc ≠ .sleepUntil d) → s.current ≠ t := by
    rintro pc rfl hd
    exact hother hd
  have hcode : cur.pc = .code → s.current ≠ t := fun h => hat _ h (by simp)
  have hleaves : ∀ {x : SchedM Sched}, x.Post (Leaves t s) →
      x.Post fun s' => Kept t s s' ∧ s'.blockedList = s.blockedList :=
    fun h => h.mono fun _ _ h' => ⟨h'.kept, h'.blockedList⟩
  unfold step
  rw [heq, ok_bind]
  cases a with
  | initThread p tail =>
    refine Spec.require fun _ => hleaves (initThread_leaves ?_)
    cases hth : s.threads s.nextTid with
    | none => rfl
    | some th => exact absurd (hp.fresh _ _ (shape_of_threads hth)) (Nat.lt_irrefl _)
  | startThread x =>
    refine Spec.require fun hc => hleaves ?_
    cases hs₁ : s.threadUnblock x with
    | blocked | panic e => trivial
    | ok s₁ =>
      have hcurrent := ((threadUnblock_statusOnly hcur hst).of_eq_ok hs₁).1.current
      have h₁ : Leaves t s s₁ := threadUnblock_leaves.of_eq_ok hs₁
      exact h₁.trans (leaves_setThread_of_ne (hcurrent ▸ hcode hc.1) _)
  | createCheck =>
    dsimp only
    split
    · rename_i p hcheck
      exact hleaves (leaves_setThread_of_ne (hat _ hcheck (by simp)) _)
    · trivial
  | threadYield =>
    refine Spec.require fun hc => hleaves (threadYield_leaves hcur fun h => absurd h ?_)
    exact hc.elim (fun hc => hat _ hc (by simp)) fun hc => hat _ hc (by simp)
  | threadExit => exact Spec.require fun hc => hleaves (threadExit_leaves (hcode hc))
  | wait w =>
    refine Spec.require fun hc => hleaves ?_
    set s₁ : Sched := { s with waiters := update s.waiters w (some s.current) }
    have hpark : Leaves t s s₁ := .of_eq rfl rfl
    have hblock : (s₁.threadBlock (.wait w)).Post (Leaves t s₁) :=
      threadBlock_leaves (hcode hc)
    exact hblock.mono fun s' _ h' => hpark.trans h'
  | signal w | intrSignal w => exact Spec.require fun _ => hleaves signal_leaves
  | semaDown i =>
    refine Spec.require fun hc => hleaves (semaDown_leaves ?_)
    exact hc.elim (fun hc => hat _ hc (by simp)) fun hc => hat _ hc (by simp)
  | semaUp i =>
    refine Spec.require fun hc => hleaves ?_
    exact semaWake_leaves.mono fun s' _ h' => (leaves_setThread_of_ne (hcode hc) _).trans h'
  | timerSleep n =>
    refine Spec.require fun hc => hleaves ?_
    change Leaves t s (if n < 0 then s else _)
    split
    · exact .refl t s
    · exact leaves_setThread_of_ne (hcode hc) _
  | threadBlockWithTime =>
    have hne : s.current ≠ t := fun h => (ht h.symm).1 rfl
    dsimp only
    split
    · rename_i ticks _
      unfold threadBlockWithTime
      rw [heq, ok_bind]
      set s₁ : Sched := s.setThread s.current { cur with ticks := ticks } with hs₁
      have h₁ : Kept t s s₁ := (leaves_setThread_of_ne hne _).kept
      refine (threadBlock_leaves (s := { s₁ with blockedList := _ }) hne).mono
        fun s' _ h' => ⟨h₁.trans ((Kept.of_eq rfl).trans h'.kept), ?_⟩
      exact (List.Perm.of_eq h'.blockedList).trans (listInsertOrdered_perm _ _ _)
    · trivial
  | threadSetPriority p | threadSetNice n =>
    exact Spec.require fun hc => hleaves (leaves_setThread_of_ne (hcode hc) _)
  | runSet =>
    dsimp only
    split
    · rename_i th hth
      exact hleaves (leaves_setThread_of_ne (hother (runSet_eq_some hth).2.2.2) _)
    · trivial
  | idle => exact hleaves (idleStep_leaves hcur hother)
  | timerInterrupt => exact Spec.require fun _ => timerInterrupt_sleepers hp
  | intrSemaUp i => exact Spec.require fun _ => hleaves semaWake_leaves

/-- Who sleeps after a step. -/
theorem SleeperStep.mem_iff (h : SleeperStep s a s') :
    t ∈ s'.blockedList ↔ (t ∈ s.blockedList ∧ (a = .timerInterrupt → s.ticks + 1 < s.wakeTick t)) ∨
      (a = .threadBlockWithTime ∧ t = s.current) := by
  by_cases htimer : a = .timerInterrupt
  · subst htimer
    simp [h.1]
  by_cases hblock : a = .threadBlockWithTime
  · subst hblock
    rw [List.Perm.mem_iff h, mem_cons]
    simp [or_comm]
  · have heq : s'.blockedList = s.blockedList := by
      cases a with
      | timerInterrupt => exact absurd rfl htimer
      | threadBlockWithTime => exact absurd rfl hblock
      | _ => exact h
    simp [heq, htimer, hblock]

/-! ### Sleeping and waking -/

/-- `t` is blocked in `thread_block_with_time` until the tick `d`. -/
def Asleep (s : Sched) (t : Tid) (d : ℕ) : Prop :=
  s.HasStatus t .blocked ∧ t ∈ s.blockedList ∧ s.wakeTick t = d

/-- `t` is in `timer_sleep`, about to call `thread_block_with_time (d)`. -/
def AboutToSleep (s : Sched) (t : Tid) (d : ℕ) : Prop :=
  t ∉ s.blockedList ∧ ∃ th, s.threads t = some th ∧ th.pc = .sleepUntil d

/-- `t` is no sleeper, and runs or is ready to. -/
def Awake (s : Sched) (t : Tid) : Prop :=
  t ∉ s.blockedList ∧ (s.HasStatus t .ready ∨ s.HasStatus t .running)

/-- The members of `blocked_list` are blocked, and do not run. -/
theorem Partition.asleep (hp : Partition s) (ht : t ∈ s.blockedList) :
    (∃ th, s.threads t = some th ∧ th.status = .blocked) ∧ t ≠ s.current := by
  have hhome : s.home t = some .sleep := (hp.housed.mem_iff .sleep t).mp ht
  obtain ⟨th, hth, hst, -⟩ := threads_of_shape (home_eq_sleep hhome)
  refine ⟨⟨th, hth, hst⟩, ?_⟩
  rintro rfl
  rw [hp.current_home] at hhome
  cases hhome

theorem wakeTick_of_kept {th : Thread} (h : Kept t s s') (hth : s.threads t = some th) :
    s'.wakeTick t = s.wakeTick t := by
  obtain ⟨th', hth', hticks, -⟩ := h th hth
  rw [wakeTick, wakeTick, hth', hth]
  exact hticks

/-- A sleeper sleeps on until a timer interrupt at its tick. -/
theorem Asleep.step (hp : Partition s) (h : s.Asleep t d) (hs : s.step cfg a = ok s')
    (ha : a = .timerInterrupt → s.ticks + 1 < d) : s'.Asleep t d := by
  obtain ⟨-, hmem, hwake⟩ := h
  obtain ⟨⟨th, hth, -⟩, hne⟩ := hp.asleep hmem
  have hp' : Partition s' := (step_spec hp).of_eq_ok hs
  obtain ⟨hkept, hstep⟩ := (step_sleepers hp fun heq => absurd heq hne).of_eq_ok hs
  have hmem' : t ∈ s'.blockedList := hstep.mem_iff.mpr (.inl ⟨hmem, hwake ▸ ha⟩)
  exact ⟨(hp'.asleep hmem').1, hmem', (wakeTick_of_kept hkept hth).trans hwake⟩

/-- A timer interrupt at its tick, or later, wakes a sleeper. -/
theorem Asleep.wake (hp : Partition s) (h : s.Asleep t d) (hs : s.step cfg .timerInterrupt = ok s')
    (hd : d ≤ s.ticks + 1) : s'.Awake t := by
  obtain ⟨-, hmem, hwake⟩ := h
  obtain ⟨-, hne⟩ := hp.asleep hmem
  have hp' : Partition s' := (step_spec hp).of_eq_ok hs
  obtain ⟨-, hstep⟩ := (step_sleepers hp fun heq => absurd heq hne).of_eq_ok hs
  refine ⟨fun hmem' => ?_, ?_⟩
  · rcases hstep.mem_iff.mp hmem' with ⟨-, hlt⟩ | ⟨hblock, -⟩
    · have := hlt rfl
      omega
    · cases hblock
  · rcases hstep.2 t hmem (hwake ▸ hd) with hcur | hready
    · obtain ⟨cur, hcur', hst, -⟩ := hp'.threadCurrent
      exact .inr ⟨cur, hcur ▸ hcur', hst⟩
    · obtain ⟨-, pc, hx⟩ := home_eq_ready ((hp'.housed.mem_iff .ready t).mp hready)
      obtain ⟨th, hth, hst, -⟩ := threads_of_shape hx
      exact .inl ⟨th, hth, hst⟩

/-- Only by its own call does a thread enter `blocked_list`. -/
theorem step_stays_out (hp : Partition s) (h : t ∉ s.blockedList) (hs : s.step cfg a = ok s')
    (ha : ¬(s.current = t ∧ a = .threadBlockWithTime)) : t ∉ s'.blockedList := by
  -- whom the step leaves as they were does not matter here, so take the next thread
  have hfresh : s.nextTid ≠ s.current := by
    obtain ⟨cur, hcur, -, -⟩ := hp.threadCurrent
    exact (hp.fresh _ _ (shape_of_threads hcur)).ne'
  obtain ⟨-, hstep⟩ := (step_sleepers hp fun heq => absurd heq hfresh).of_eq_ok hs
  intro hmem
  rcases hstep.mem_iff.mp hmem with ⟨hmem, -⟩ | ⟨hblock, hcur⟩
  · exact h hmem
  · exact ha ⟨hcur.symm, hblock⟩

/-- A thread that has read the clock stays about to sleep. -/
theorem AboutToSleep.step (hp : Partition s) (h : s.AboutToSleep t d) (hs : s.step cfg a = ok s')
    (ha : ¬(s.current = t ∧ a = .threadBlockWithTime)) : s'.AboutToSleep t d := by
  obtain ⟨hmem, th, hth, hpc⟩ := h
  refine ⟨step_stays_out hp hmem hs ha, ?_⟩
  have hrun : t = s.current → a ≠ .threadBlockWithTime ∧
      ∃ cur d, s.threads s.current = some cur ∧ cur.pc = .sleepUntil d := by
    rintro rfl
    exact ⟨fun heq => ha ⟨rfl, heq⟩, th, d, hth, hpc⟩
  obtain ⟨th', hth', -, hpc'⟩ := ((step_sleepers hp hrun).of_eq_ok hs).1 th hth
  refine ⟨th', hth', ?_⟩
  rw [hpc] at hpc'
  exact hpc'.elim id id

/-- It goes to sleep until the tick it computed. -/
theorem AboutToSleep.block (hp : Partition s) (h : s.AboutToSleep s.current d)
    (hs : s.step cfg .threadBlockWithTime = ok s') : s'.Asleep s.current d := by
  obtain ⟨hmem, th, hth, hpc⟩ := h
  obtain ⟨cur, hcur, hst, heq⟩ := hp.threadCurrent
  obtain rfl : cur = th := Option.mem_unique hcur hth
  have hp' : Partition s' := (step_spec hp).of_eq_ok hs
  have hfresh : s.nextTid ≠ s.current := (hp.fresh _ _ (shape_of_threads hcur)).ne'
  obtain ⟨-, hstep⟩ := (step_sleepers hp fun heq => absurd heq hfresh).of_eq_ok hs
  have hmem' : s.current ∈ s'.blockedList := hstep.mem_iff.mpr (.inr ⟨rfl, rfl⟩)
  refine ⟨(hp'.asleep hmem').1, hmem', ?_⟩
  rw [Sched.step, heq, ok_bind] at hs
  simp only [hpc] at hs
  rw [threadBlockWithTime, heq, ok_bind] at hs
  obtain ⟨cur', hcur', hsched⟩ := bind_eq_ok.mp hs
  have hticks : cur'.ticks = d := by
    have hread := (threadCurrent_spec.of_eq_ok hcur').1
    have hself : (s.setThread s.current { cur with ticks := d }).threads s.current =
        some { cur with ticks := d } := update_self _ _ _
    rw [← Option.mem_unique hself hread]
  have hleaves := ((schedule_rescheduled (P := (· = s.current)) (update_self _ _ _)
    (by simp)).of_eq_ok hsched).leaves rfl
  rw [wakeTick_of_kept hleaves.kept (update_self _ _ _)]
  simpa [wakeTick, setThread] using hticks

/-- From `s₃` on, where `t` sleeps until the tick `d`: it sleeps as long as the tick count of
every timer interrupt is below `d`, the first interrupt whose tick count is not wakes it, and
from then on it is in `blocked_list` no more unless it goes to sleep again. -/
def WakesAt (cfg : Config) (s₃ : Sched) (t : Tid) (d : ℕ) : Prop :=
  ∀ bs s₄, Run (Sched.step cfg) (fun s a => a = .timerInterrupt → s.ticks + 1 < d) s₃ bs s₄ →
    s₄.Asleep t d ∧
    ∀ s₅, d ≤ s₄.ticks + 1 → s₄.step cfg .timerInterrupt = ok s₅ → s₅.Awake t ∧
      ∀ cs s₆, Run (Sched.step cfg)
        (fun s a => ¬(s.current = t ∧ a = .threadBlockWithTime)) s₅ cs s₆ → t ∉ s₆.blockedList

/-- From `s₁` on, where `t` has read the clock in `timer_sleep`: until it calls
`thread_block_with_time` it is about to sleep until the tick `d`, and that call puts it to
sleep until then. -/
def SleepsUntil (cfg : Config) (s₁ : Sched) (t : Tid) (d : ℕ) : Prop :=
  ∀ as s₂, Run (Sched.step cfg) (fun s a => ¬(s.current = t ∧ a = .threadBlockWithTime)) s₁ as s₂ →
    s₂.AboutToSleep t d ∧
    ∀ s₃, s₂.current = t → s₂.step cfg .threadBlockWithTime = ok s₃ →
      s₃.Asleep t d ∧ s₃.WakesAt cfg t d

/-- A sleeper is woken at its tick. -/
theorem Asleep.wakesAt (hp : Partition s) (h : s.Asleep t d) : s.WakesAt cfg t d := by
  intro bs s₄ hrun
  have h₄ : Partition s₄ ∧ s₄.Asleep t d := by
    refine hrun.invariant (I := fun s => Partition s ∧ s.Asleep t d) ⟨hp, h⟩ ?_
    intro u a u' ⟨hpu, hu⟩ ha hs
    exact ⟨(step_spec hpu).of_eq_ok hs, hu.step hpu hs ha⟩
  refine ⟨h₄.2, fun s₅ hd hs₅ => ?_⟩
  have hp₅ : Partition s₅ := (step_spec h₄.1).of_eq_ok hs₅
  have hawake := h₄.2.wake h₄.1 hs₅ hd
  refine ⟨hawake, fun cs s₆ hrun' => ?_⟩
  refine (hrun'.invariant (I := fun s => Partition s ∧ t ∉ s.blockedList) ⟨hp₅, hawake.1⟩ ?_).2
  intro u a u' ⟨hpu, hu⟩ ha hs
  exact ⟨(step_spec hpu).of_eq_ok hs, step_stays_out hpu hu hs ha⟩

/-- A thread about to sleep sleeps until the tick it computed. -/
theorem AboutToSleep.sleepsUntil (hp : Partition s) (h : s.AboutToSleep t d) :
    s.SleepsUntil cfg t d := by
  intro as s₂ hrun
  have h₂ : Partition s₂ ∧ s₂.AboutToSleep t d := by
    refine hrun.invariant (I := fun s => Partition s ∧ s.AboutToSleep t d) ⟨hp, h⟩ ?_
    intro u a u' ⟨hpu, hu⟩ ha hs
    exact ⟨(step_spec hpu).of_eq_ok hs, hu.step hpu hs ha⟩
  refine ⟨h₂.2, ?_⟩
  rintro s₃ rfl hs₃
  have hp₃ : Partition s₃ := (step_spec h₂.1).of_eq_ok hs₃
  have hasleep := h₂.2.block h₂.1 hs₃
  exact ⟨hasleep, hasleep.wakesAt hp₃⟩

/-- `timer_sleep` computes the tick from the clock. -/
theorem timerSleep_aboutToSleep {n : ℤ} (hp : Partition s) (hn : 0 ≤ n) (hn' : n < 2 ^ 63)
    (hticks : s.ticks < 2 ^ 63) (hs : s.step cfg (.timerSleep n) = ok s') :
    s'.AboutToSleep s.current (s.ticks + n.toNat) := by
  obtain ⟨cur, hcur, -, heq⟩ := hp.threadCurrent
  rw [Sched.step, heq, ok_bind] at hs
  obtain ⟨-, hs⟩ := require_bind_eq_ok.mp hs
  rw [if_neg (by omega), pure_eq, ok.injEq] at hs
  subst hs
  refine ⟨fun hmem => (hp.asleep hmem).2 rfl, _, update_self _ _ _, ?_⟩
  -- the deadline is stored unsigned, and there it does not wrap around
  have hlt : s.ticks + n.toNat < 2 ^ 64 := by omega
  rw [Nat.mod_eq_of_lt hlt]

end Sched

/-! ### `block_check` at the level of links -/

/-- The list elements of the scheduler: the headers of its lists, and the `elem` and
`block_elem` members of the threads. -/
inductive QueueElem
  | head (q : Queue)
  | tail (q : Queue)
  | elem (t : Tid)
  | blockElem (t : Tid)
  deriving DecidableEq

/-- The headers of the scheduler's lists. -/
def queueHeaders (q : Queue) : Sentinels QueueElem := ⟨.head q, .tail q⟩

namespace Sched

/-- The elements in the scheduler's lists: `blocked_list` links `block_elem` members, the
others `elem` members. -/
def queueElems (s : Sched) : Queue → List QueueElem
  | .ready => s.readyList.map .elem
  | .sleep => s.blockedList.map .blockElem
  | .sema i => (s.semas i).waiters.map .elem

/-- `list_compare_priority`, which takes its arguments for `elem` members. -/
def compareElem (s : Sched) : QueueElem → QueueElem → Bool
  | .elem a, .elem b => s.comparePriority a b
  | _, _ => false

/-- The loop of `block_check`, with the insertion into the run queue that `thread_unblock`
makes. -/
def blockCheckLinksLoop (s : Sched) (fuel : ℕ) : ℕ → Ptr QueueElem → ListM QueueElem Unit
  | 0, _ => ListM.outOfFuel
  | n + 1, e =>
    if e = listEnd (queueHeaders .sleep) then
      pure ()
    else
      match e with
      | some (.blockElem t) =>
        if s.wakeTick t ≤ s.ticks then do
          ListM.listInsertOrdered fuel s.compareElem (queueHeaders .ready) (some (.elem t))
          blockCheckLinksLoop s fuel n (← listRemove e)
        else do
          blockCheckLinksLoop s fuel n (← listNext e)
      -- `list_entry` of an element that is no `block_elem`
      | _ => ListM.check fun _ => false

/-- `block_check` on the links of the lists. -/
def blockCheckLinks (s : Sched) (fuel : ℕ) : ListM QueueElem Unit := do
  if ← listEmpty (queueHeaders .sleep) then
    pure ()
  else
    blockCheckLinksLoop s fuel fuel (← listBegin (queueHeaders .sleep))

/-- Inserting an `elem` member is inserting its thread. -/
theorem listInsertOrdered_elem (s : Sched) (t : Tid) (l : List Tid) :
    listInsertOrdered s.compareElem (.elem t) (l.map .elem) =
      (listInsertOrdered s.comparePriority t l).map .elem := by
  induction l with
  | nil => rfl
  | cons x l ih =>
    have hcmp : s.compareElem (.elem t) (.elem x) = s.comparePriority t x := rfl
    rw [listInsertOrdered] at ih ⊢
    rw [listInsertOrdered, map_cons, orderedInsert_cons, orderedInsert_cons]
    by_cases hlt : s.comparePriority t x = true
    · rw [if_pos (hcmp.trans hlt), if_pos hlt]
      rfl
    · rw [if_neg fun hc => hlt (hcmp.symm.trans hc), if_neg hlt, ih]
      rfl

/-- An `elem` member is in a list only if its thread is. -/
theorem elem_mem_cells {s : Sched} {t : Tid} {q : Queue}
    (h : QueueElem.elem t ∈ (queueHeaders q).cells (s.queueElems q)) :
    q ≠ .sleep ∧ t ∈ s.queue q := by
  rw [Sentinels.mem_cells] at h
  rcases h with h | h | h
  · cases h
  · cases q with
    | ready | sema i => exact ⟨by simp, by simpa [queueElems, queue] using h⟩
    | sleep => simp [queueElems] at h
  · cases h

/-- The loop over the part `rest` of `blocked_list` does to the links what `blockCheckLoop`
does to the lists. -/
theorem blockCheckLinksLoop_refines {s₀ s s' : Sched} {fuel n : ℕ} {kept rest : List Tid}
    {h : Links QueueElem} (hprio : s.priority = s₀.priority) (hwake : s.wakeTick = s₀.wakeTick)
    (hticks : s.ticks = s₀.ticks) (hF : Verif.Family queueHeaders h s.queueElems)
    (hlist : s.blockedList = kept ++ rest) (hnd : s.blockedList.Nodup)
    (hrest : ∀ t ∈ rest, ∀ q, q ≠ .sleep → t ∉ s.queue q)
    (hs' : s.blockCheckLoop rest = ok s') (hn : rest.length < n)
    (hfuel : s.readyList.length + rest.length < fuel) :
    ∃ h', blockCheckLinksLoop s₀ fuel n
        (some ((queueHeaders .sleep).first (rest.map .blockElem))) h = .ok ((), h') ∧
      Verif.Family queueHeaders h' s'.queueElems := by
  induction rest generalizing s kept h n with
  | nil =>
    obtain ⟨n, rfl⟩ := Nat.exists_eq_succ_of_ne_zero (by omega : n ≠ 0)
    rw [blockCheckLoop, pure_eq, ok.injEq] at hs'
    subst hs'
    refine ⟨h, ?_, hF⟩
    rw [blockCheckLinksLoop.eq_def]
    exact congrFun (if_pos rfl) h
  | cons t rest ih =>
    obtain ⟨n, rfl⟩ := Nat.exists_eq_succ_of_ne_zero (by omega : n ≠ 0)
    have helems : s.queueElems .sleep =
        kept.map .blockElem ++ .blockElem t :: rest.map .blockElem := by
      rw [queueElems, hlist, map_append, map_cons]
    have hne : some (QueueElem.blockElem t) ≠ listEnd (queueHeaders .sleep) := by
      simp [listEnd, queueHeaders]
    rw [map_cons, Sentinels.first_cons]
    rw [blockCheckLoop] at hs'
    split at hs'
    · cases hs'
    rename_i th hth
    have hwt : s₀.wakeTick t = th.ticks := by rw [← hwake, wakeTick, hth, Option.elim_some]
    rw [length_cons] at hn hfuel
    split at hs'
    · -- its tick has come: it enters the run queue and leaves this list
      rename_i hle
      obtain ⟨s₁, hs₁, hs'⟩ := bind_eq_ok.mp hs'
      obtain ⟨hthreads₁, hready₁, hlist₁, hsemas₁, hticks₁⟩ :=
        (threadUnblock_threads hth).of_eq_ok hs₁
      set s₂ : Sched := { s₁ with blockedList := s₁.blockedList.erase t } with hs₂
      have hkept : s₂.blockedList = kept ++ rest := by
        have hnot : t ∉ kept := by
          rw [hlist, nodup_append] at hnd
          exact fun hmem => hnd.2.2 t hmem t (by simp) rfl
        change s₁.blockedList.erase t = kept ++ rest
        rw [hlist₁, hlist, erase_append_right _ hnot, erase_cons_head]
      have hprio₂ : s₂.priority = s₀.priority :=
        (threadUnblock_sameClocks.of_eq_ok hs₁).priority.trans hprio
      have hwake₂ : s₂.wakeTick = s₀.wakeTick := (wakeTick_update hth hthreads₁).trans hwake
      have hcmp : s₀.compareElem = s.compareElem := by
        funext a b
        cases a <;> cases b <;> simp only [compareElem, comparePriority, hprio]
      -- the links: insertion into the run queue, then removal
      have hfree : ∀ q, QueueElem.elem t ∉ (queueHeaders q).cells (s.queueElems q) := by
        intro q hmem
        obtain ⟨hq, hmem⟩ := elem_mem_cells hmem
        exact hrest t (by simp) q hq hmem
      have hready : (s.queueElems .ready).length < fuel := by
        rw [queueElems, length_map]
        omega
      obtain ⟨k₁, hinsert, hF₁, -⟩ := ListM.listInsertOrdered_family hF hfree hready
      have helems₁ : update s.queueElems .ready (listInsertOrdered s.compareElem
          (.elem t) (s.queueElems .ready)) .sleep =
          kept.map .blockElem ++ .blockElem t :: rest.map .blockElem :=
        (update_of_ne (by simp) _ _).trans helems
      obtain ⟨k₂, hremove, hF₂, -⟩ := listRemove_family hF₁ helems₁
      have hlists : update (update s.queueElems .ready
          (listInsertOrdered s.compareElem (.elem t) (s.queueElems .ready))) .sleep
          (kept.map .blockElem ++ rest.map .blockElem) = s₂.queueElems := by
        funext q
        cases q with
        | ready =>
          rw [update_of_ne (by simp), update_self]
          change listInsertOrdered s.compareElem (.elem t) (s.readyList.map .elem) =
            s₁.readyList.map .elem
          rw [hready₁, listInsertOrdered_elem]
        | sleep =>
          rw [update_self, ← map_append, ← hkept]
          rfl
        | sema i =>
          rw [update_of_ne (by simp), update_of_ne (by simp)]
          change _ = (s₁.semas i).waiters.map QueueElem.elem
          rw [hsemas₁]
          rfl
      rw [hlists] at hF₂
      have hlen : s₂.readyList.length = s.readyList.length + 1 := by
        change s₁.readyList.length = _
        rw [hready₁, (listInsertOrdered_perm _ _ _).length_eq, length_cons]
      have hnd₂ : s₂.blockedList.Nodup := by
        rw [hkept]
        rw [hlist] at hnd
        exact hnd.sublist (by simp)
      have hrest₂ : ∀ x ∈ rest, ∀ q, q ≠ .sleep → x ∉ s₂.queue q := by
        intro x hx q hq
        have hne : x ≠ t := by
          rintro rfl
          rw [hlist, nodup_append, nodup_cons] at hnd
          exact hnd.2.1.1 hx
        have hold := hrest x (mem_cons_of_mem t hx) q hq
        cases q with
        | ready =>
          change x ∉ s₁.readyList
          rw [hready₁, mem_listInsertOrdered]
          exact fun hc => hc.elim hne hold
        | sleep => exact absurd rfl hq
        | sema i =>
          change x ∉ (s₁.semas i).waiters
          rw [hsemas₁]
          exact hold
      obtain ⟨h', hrun, hF'⟩ := ih hprio₂ hwake₂ (hticks₁.trans hticks) hF₂ hkept hnd₂ hrest₂
        hs' (show rest.length < n by omega) (by omega)
      refine ⟨h', ?_, hF'⟩
      rw [blockCheckLinksLoop, if_neg hne, if_pos (by rw [hwt, ← hticks]; exact hle), hcmp]
      simp only [ListM.bind_apply, hinsert, ok_bind, hremove, hrun]
    · rename_i hgt
      have hnext : listNext (some (QueueElem.blockElem t)) h =
          .ok (some ((queueHeaders .sleep).first (rest.map .blockElem)), h) :=
        ListM.listNext_eq (helems ▸ hF.represents .sleep)
      have hlist' : s.blockedList = (kept ++ [t]) ++ rest := by rw [hlist]; simp
      obtain ⟨h', hrun, hF'⟩ := ih hprio hwake hticks hF hlist' hnd
        (fun x hx => hrest x (mem_cons_of_mem t hx)) hs' (show rest.length < n by omega)
        (by omega)
      refine ⟨h', ?_, hF'⟩
      rw [blockCheckLinksLoop, if_neg hne, if_neg (by rw [hwt, ← hticks]; exact hgt)]
      simp only [ListM.bind_apply, hnext, ok_bind, hrun]

/-- **`block_check` on the links visits every sleeper**: although it removes elements from the
list it walks, it leaves the links of the lists that `blockCheck` leaves. -/
theorem blockCheckLinks_refines {s s' : Sched} {h : Links QueueElem} (hp : Partition s)
    (hF : Verif.Family queueHeaders h s.queueElems) (hs' : s.blockCheck = ok s') :
    ∃ n, ∀ fuel ≥ n, ∃ h', s.blockCheckLinks fuel h = .ok ((), h') ∧
      Verif.Family queueHeaders h' s'.queueElems := by
  have hr := hF.represents .sleep
  have hrest : ∀ t ∈ s.blockedList, ∀ q, q ≠ .sleep → t ∉ s.queue q := fun t ht q hq hmem =>
    hq (hp.housed.unique q .sleep hmem ht)
  refine ⟨s.readyList.length + s.blockedList.length + 1, fun fuel hfuel => ?_⟩
  have hlist : s.blockedList = [] ++ s.blockedList := rfl
  obtain ⟨h', hrun, hF'⟩ := blockCheckLinksLoop_refines rfl rfl rfl hF hlist
    (hp.housed.nodup .sleep) hrest hs' (show s.blockedList.length < fuel by omega)
    (show s.readyList.length + s.blockedList.length < fuel by omega)
  by_cases hempty : s.blockedList = []
  · have hnil : s.queueElems .sleep = [] := by rw [queueElems, hempty, map_nil]
    rw [blockCheck, hempty, blockCheckLoop, pure_eq, ok.injEq] at hs'
    subst hs'
    refine ⟨h, ?_, hF⟩
    simp only [blockCheckLinks, ListM.bind_apply, listEmpty_eq hr, hnil, ok_bind]
    rfl
  · have hcons : (s.queueElems .sleep).isEmpty = false := by
      rw [queueElems, isEmpty_map]
      simpa using hempty
    refine ⟨h', ?_, hF'⟩
    simp only [blockCheckLinks, ListM.bind_apply, listEmpty_eq hr, hcons, ok_bind,
      Bool.false_eq_true, if_false, listBegin, ListM.readNext_some, hr.next_head]
    exact hrun

end Sched

/-- **The alarm clock is exact.** In every reachable state:

* a thread that calls `timer_sleep (n)` at the tick `s.ticks` blocks until the tick
  `s.ticks + n`: the first timer interrupt after it blocked whose tick count is not less
  unblocks it, none before does, and it is not unblocked there again;
* the `block_check` of the next tick unblocks exactly the sleepers whose tick has come, leaves
  the others in `blocked_list` in the order they were in, and on the links of the lists visits
  every sleeper. -/
theorem alarm_clock_exact {cfg : Config} {s : Sched}
    (hreach : SchedReachable cfg (fun _ _ => True) s) :
    (∀ n s₁, 0 ≤ n → n < 2 ^ 63 → s.ticks < 2 ^ 63 → s.step cfg (.timerSleep n) = ok s₁ →
      s₁.SleepsUntil cfg s.current (s.ticks + n.toNat)) ∧
    ∀ u u', u = { s with ticks := s.ticks + 1, threadTicks := s.threadTicks + 1 } →
      u.blockCheck = ok u' →
      u.Wakes u' ∧
      ∀ h, Verif.Family queueHeaders h u.queueElems → ∃ n, ∀ fuel ≥ n, ∃ h',
        u.blockCheckLinks fuel h = .ok ((), h') ∧ Verif.Family queueHeaders h' u'.queueElems := by
  have hp := hreach.partition
  refine ⟨fun n s₁ hn hn' hticks hs₁ => ?_, fun u u' hu hu' => ?_⟩
  · have hp₁ : Sched.Partition s₁ := (Sched.step_spec hp).of_eq_ok hs₁
    exact (Sched.timerSleep_aboutToSleep hp hn hn' hticks hs₁).sleepsUntil hp₁
  · have hpu : Sched.Partition u := by
      rw [hu]
      exact hp.congr rfl (fun _ => List.Perm.refl _) rfl ⟨rfl, rfl, rfl, rfl⟩
    exact ⟨(Sched.blockCheck_wakes hpu).of_eq_ok hu', fun h hF =>
      Sched.blockCheckLinks_refines hpu hF hu'⟩

/-- The initial thread sleeps for three ticks right after boot. -/
theorem alarm_clock_exact_three :
    ∃ s s₁ s₃, SchedReachable ⟨true, false, false⟩ (fun _ _ => True) s ∧
      s.step ⟨true, false, false⟩ (.timerSleep 3) = ok s₁ ∧
      s₁.step ⟨true, false, false⟩ .threadBlockWithTime = ok s₃ ∧
      s₃.Asleep s.current 3 ∧ s₃.WakesAt ⟨true, false, false⟩ s.current 3 := by
  have htest : (threadStart (threadInit (fun _ => 0) 0) 0).test (fun s => s.ticks == 0 &&
      (s.step ⟨true, false, false⟩ (.timerSleep 3)).test fun s₁ => s₁.current == s.current &&
        (s₁.step ⟨true, false, false⟩ .threadBlockWithTime).test fun _ => true) = true := by
    decide +kernel
  obtain ⟨s, hs, htest⟩ := of_test htest
  rw [Bool.and_eq_true, beq_iff_eq] at htest
  obtain ⟨s₁, hs₁, htest'⟩ := of_test htest.2
  rw [Bool.and_eq_true, beq_iff_eq] at htest'
  obtain ⟨s₃, hs₃, -⟩ := of_test htest'.2
  have hreach : SchedReachable ⟨true, false, false⟩ (fun _ _ => True) s :=
    ⟨fun _ => 0, 0, 0, s, hs, [], Run.nil⟩
  have hsleeps := (alarm_clock_exact hreach).1 3 s₁ (by decide) (by decide)
    (by rw [htest.1]; decide) hs₁
  rw [htest.1] at hsleeps
  obtain ⟨-, hblock⟩ := hsleeps [] s₁ Run.nil
  obtain ⟨hasleep, hwakes⟩ := hblock s₃ htest'.1 hs₃
  exact ⟨s, s₁, s₃, hreach, hs₁, hs₃, hasleep, hwakes⟩

end Pintos
