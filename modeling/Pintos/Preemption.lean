import Pintos.TickEffect

/-!
# Preemption

When does the running thread keep the highest priority? Each event of the scheduler
decides for itself whether to yield: `thread_create` on the priority it was given,
`thread_set_priority` and `thread_set_nice` on the running thread's priority having
dropped since it was read, the timer interrupt on the time slice being over or on that drop,
`sema_up` always or, in the build with user programs, never, and the bare `thread_unblock`
never. A tick that wakes a sleeper of higher priority, or that raises a ready thread's
priority above the running one's, therefore returns to the running thread; and if it changes
the running thread's priority after `thread_set_priority` has read it, the call may store a
lower one and not yield.

`KeepsPreemption` names, for each step, the states in which it does not lead to such a
return; it reads the state before the step only.

## Main results

* `step_preemption`: a step that meets the condition ends with no ready thread of higher
  priority, or in a call that is about to yield.
* `strict_preemption`: since the last switch of threads all steps met the condition, so
  the running thread has maximal priority whenever it is back in its own code.
* `preemption_fails`: a sleeper of higher priority wakes and is not switched to.
-/

namespace Pintos

open Verif Verif.Outcome Function

/-- The thread is in a call that yields before it returns. -/
def Thread.yields (th : Thread) : Bool :=
  match th.pc with
  | .yieldDue => true
  | .idleYield => true
  | .createCheck p => th.priority < p
  | .setPriority _ yields => yields
  | .storePriority recentCpu nice oldPriority => mlfqsPriority recentCpu nice < oldPriority
  | _ => false

namespace Sched

variable {cfg : Config} {s : Sched} {cur : Thread}

/-- Control is in thread code, with interrupts on, and not in a call that yields before it
returns. -/
def Returned (s : Sched) : Prop :=
  ∃ cur, s.threads s.current = some cur ∧ intrOn cur = true ∧ cur.yields = false

/-- The running thread yields before it returns to its own code. -/
def Yielding (s : Sched) : Prop :=
  ∃ cur, s.threads s.current = some cur ∧ cur.yields = true

/-- Waking the first waiter of a semaphore adds no thread of higher priority. -/
def FirstWaiterLow (s : Sched) (i : SemaId) : Prop :=
  ∀ t ∈ (s.semas i).waiters.head?, s.priority t ≤ s.priority s.current

/-- Unblocking the thread in a waiter variable adds no thread of higher priority. -/
def ParkedLow (s : Sched) (w : WaiterId) : Prop :=
  ∀ t ∈ s.waiters w, s.priority t ≤ s.priority s.current

/-- The running thread, at its priority after the next tick, will still yield at the end
of the call it is in. -/
def YieldingAfterTick (cfg : Config) (s : Sched) : Prop :=
  ∃ cur, s.threads s.current = some cur ∧
    { cur with priority := s.tickPriority cfg s.current }.yields = true

/-- The store with which `thread_set_priority` or `thread_set_nice` ends, if it does not yield,
leaves the running thread no priority below a ready thread's. -/
def StoresHigh (s : Sched) : Prop :=
  ∀ cur th, s.threads s.current = some cur → cur.runSet = some th → th.pc = .code →
    ∀ t ∈ s.readyList, s.priority t ≤ th.priority

/-- The states in which a step does not return to a thread that should have been
preempted. -/
def KeepsPreemption (cfg : Config) (s : Sched) : Action → Prop
  | .timerInterrupt => s.TickYields cfg ∨
      (∀ t, t ∈ s.due ∨ t ∈ s.readyList →
        s.tickPriority cfg t ≤ s.tickPriority cfg s.current) ∨
      s.YieldingAfterTick cfg
  | .startThread t => s.priority t ≤ s.priority s.current ∨
      s.priority s.current < (s.threads t).elim 0 Thread.argPriority
  | .runSet => s.StoresHigh
  | .semaUp i => cfg.userprog → s.FirstWaiterLow i
  | .idle => (s.threads s.current).map Thread.pc = some .idleUp → cfg.userprog →
      s.FirstWaiterLow idleStarted
  | .signal w => s.ParkedLow w
  | .intrSignal w => s.ParkedLow w ∨ s.Yielding
  | .intrSemaUp i => s.FirstWaiterLow i ∨ s.Yielding
  | _ => True

/-- No ready thread has a higher priority, or the running thread is about to yield. -/
def Preempting (s : Sched) : Prop :=
  s.NoneHigher ∨ s.Yielding

/-! ### What keeps it -/

theorem not_yielding (hcur : s.threads s.current = some cur) (hno : cur.yields = false) :
    ¬s.Yielding := by
  rintro ⟨cur', hcur', hy⟩
  rw [hcur] at hcur'
  cases hcur'
  rw [hno] at hy
  cases hy

theorem Preempting.noneHigher (h : Preempting s) (hcur : s.threads s.current = some cur)
    (hno : cur.yields = false) : s.NoneHigher :=
  h.resolve_right (not_yielding hcur hno)

/-- The running thread changes, to a priority that is not below a ready thread's. -/
theorem noneHigher_setCurrent (hp : Partition s) (th : Thread)
    (hle : ∀ t ∈ s.readyList, s.priority t ≤ th.priority) :
    NoneHigher (s.setThread s.current th) := by
  intro t ht
  have hne : t ≠ s.current := by
    rintro rfl
    exact hp.housed.not_mem hp.current_home .ready ht
  change Sched.priority _ t ≤ Sched.priority _ s.current
  rw [priority_setThread, update_of_ne hne, update_self]
  exact hle t ht

/-- The running thread changes, but not in its priority. -/
theorem NoneHigher.setCurrent (hp : Partition s) (h : NoneHigher s)
    (hcur : s.threads s.current = some cur) (th : Thread) (heq : th.priority = cur.priority) :
    NoneHigher (s.setThread s.current th) := by
  refine noneHigher_setCurrent hp th fun t ht => ?_
  rw [heq, ← priority_eq hcur]
  exact h t ht

/-- A thread of no higher priority becomes ready. -/
theorem threadUnblock_noneHigher {t : Tid} (h : NoneHigher s)
    (hlow : s.priority t ≤ s.priority s.current) :
    (s.threadUnblock t).Post NoneHigher := by
  unfold threadUnblock
  split
  · trivial
  · rename_i th hth
    refine Spec.ensure_of trivial fun _ => ?_
    set s₁ := Sched.setThread _ t { th with status := .ready } with hs₁
    have hprio : s₁.priority = s.priority :=
      priority_setThread_of_eq (s := { s with
        readyList := listInsertOrdered s.comparePriority t s.readyList }) hth (by rfl)
    intro x hx
    rw [hprio]
    rcases mem_listInsertOrdered.mp hx with rfl | hx
    · exact hlow
    · exact h x hx

theorem semaWake_noneHigher {i : SemaId} (h : NoneHigher s) (hlow : s.FirstWaiterLow i) :
    (s.semaWake i).Post NoneHigher := by
  unfold semaWake
  cases hw : (s.semas i).waiters with
  | nil => exact h
  | cons t rest =>
    have hle : s.priority t ≤ s.priority s.current := hlow t (by rw [hw]; rfl)
    have hwake : ((s.setSema i { s.semas i with waiters := rest }).threadUnblock t).Post
        NoneHigher := threadUnblock_noneHigher h hle
    exact hwake.bind fun s₁ _ h₁ => h₁

theorem signal_noneHigher {w : WaiterId} (h : NoneHigher s) (hlow : s.ParkedLow w) :
    (s.signal w).Post NoneHigher := by
  unfold signal
  split
  · exact h
  · rename_i t hw
    exact (threadUnblock_noneHigher h (hlow t hw)).bind fun s₁ _ h₁ => h₁

/-- Waking a thread leaves the running thread as it is, so it still yields. -/
theorem semaWake_running {i : SemaId} (hcur : s.threads s.current = some cur)
    (hst : cur.status = .running) :
    (s.semaWake i).Post fun s' => s'.threads s'.current = some cur := by
  unfold semaWake
  cases hw : (s.semas i).waiters with
  | nil => exact hcur
  | cons t rest =>
    have hwake : ((s.setSema i { s.semas i with waiters := rest }).threadUnblock t).Post
        fun s' => s'.threads s'.current = some cur := threadUnblock_running hcur hst
    exact hwake.bind fun s₁ _ h₁ => h₁

theorem signal_running {w : WaiterId} (hcur : s.threads s.current = some cur)
    (hst : cur.status = .running) :
    (s.signal w).Post fun s' => s'.threads s'.current = some cur := by
  unfold signal
  split
  · exact hcur
  · exact (threadUnblock_running hcur hst).bind fun s₁ _ h₁ => h₁

theorem yields_of_pc (hpc : cur.pc = .code) : cur.yields = false := by
  rw [Thread.yields, hpc]

/-- The timer interrupt. -/
theorem timerInterrupt_preemption (hp : Partition s) (ho : Ordered s)
    (hc : s.KeepsPreemption cfg .timerInterrupt) :
    (s.timerInterrupt cfg).Post Preempting := by
  refine threadCurrent_spec.bind fun cur _ hcur => ?_
  have hshape : AtShape (.running, cur.pc) s := ⟨hp, hcur.2 ▸ shape_of_threads hcur.1⟩
  refine (timerTick_effect hp).bind fun r hr heffect => ?_
  obtain ⟨hprio, hready, hcurrent, hyield⟩ := heffect
  obtain ⟨hp', hshape'⟩ := (timerTick_spec hshape).of_eq_ok hr
  obtain ⟨ho', -⟩ := (timerTick_ordered ho).of_eq_ok hr
  dsimp only
  split_ifs with hno
  · exact (threadYield_ordered ho').mono fun s' _ h' => .inl h'.2
  · rcases hc with hy | hlow | ⟨cur₀, hcur₀, hy⟩
    · exact absurd (hyield.mpr hy) hno
    · refine .inl fun t ht => ?_
      rw [hprio, hprio, hcurrent]
      exact hlow t ((hready t).mp ht)
    · -- the running thread is where it was, with the priority the tick gave it
      obtain ⟨cur', hcur', -, hpc'⟩ := threads_of_shape hshape'
      rw [hcur.1] at hcur₀
      cases hcur₀
      refine .inr ⟨cur', hcur', ?_⟩
      rw [Thread.yields, hpc', ← priority_eq hcur', hprio, hcurrent]
      exact hy

theorem idleStep_preemption (hp : Partition s) (ho : Ordered s) (h : Preempting s)
    (hcur : s.threads s.current = some cur) (hst : cur.status = .running)
    (hc : s.KeepsPreemption cfg .idle) : (s.idleStep cfg cur).Post Preempting := by
  unfold idleStep
  split
  · rename_i hpc
    have hno : cur.yields = false := by rw [Thread.yields, hpc]
    exact .inl ((h.noneHigher hcur hno).setCurrent hp hcur { cur with pc := .idleUp } rfl)
  · rename_i hpc
    have hno : cur.yields = false := by rw [Thread.yields, hpc]
    cases hu : cfg.userprog with
    | true =>
      have hset := (h.noneHigher hcur hno).setCurrent hp hcur { cur with pc := .idleLoop } rfl
      refine (semaWake_noneHigher hset ?_).mono fun s' _ h' => .inl h'
      intro t ht
      have hlow := hc (by rw [hcur]; exact congrArg some hpc) hu t ht
      rw [priority_setThread_apply hcur (by rfl), priority_setThread_apply hcur (by rfl)]
      exact hlow
    | false =>
      have hcur' : (s.goto cur .idleYield).threads (s.goto cur .idleYield).current =
          some { cur with pc := .idleYield } := update_self _ _ _
      exact (semaWake_running hcur' hst).mono fun s' _ h' => .inr ⟨_, h', rfl⟩
  · exact (threadYield_ordered ho).mono fun s' _ h' => .inl h'.2
  · exact (threadBlock_ordered ho).mono fun s' _ h' => .inl h'.2
  · trivial

/-- `thread_create` unblocks the new thread, and then compares with its argument. -/
theorem startThread_preemption {t : Tid} (h : NoneHigher s) (hcur : s.threads s.current = some cur)
    (hst : cur.status = .running) (hc : s.KeepsPreemption cfg (.startThread t)) :
    (s.threadUnblock t >>= fun s₁ =>
      pure (s₁.goto cur (.createCheck ((s₁.threads t).elim 0 Thread.argPriority)))).Post
        Preempting := by
  have hboth : (s.threadUnblock t).Post fun s₁ =>
      StatusOnly s s₁ ∧ s₁.readyList.Perm (t :: s.readyList) :=
    threadUnblock_statusOnly hcur hst
  refine hboth.bind fun s₁ hs₁ h₁ => ?_
  obtain ⟨hsame, -⟩ := h₁
  have hcur₁ : s₁.threads s₁.current = some cur := by
    rw [hsame.current, hsame.running]
    exact hcur
  have harg : (s₁.threads t).elim 0 Thread.argPriority =
      (s.threads t).elim 0 Thread.argPriority := hsame.elim_eq t _ _ fun _ => rfl
  rw [pure_eq, Spec.ok_iff, harg]
  rcases hc with hlow | hyield
  · left
    have hnone : NoneHigher s₁ := (threadUnblock_noneHigher h hlow).of_eq_ok hs₁
    intro x hx
    have hprio : ∀ pc y, (s₁.goto cur pc).priority y = s₁.priority y := fun pc y =>
      priority_setThread_apply hcur₁ (by rfl) y
    rw [hprio, hprio]
    exact hnone x hx
  · right
    refine ⟨_, update_self _ _ _, ?_⟩
    rw [priority_eq hcur] at hyield
    exact decide_eq_true hyield

/-- An access of `thread_set_priority` or `thread_set_nice` changes nothing that is compared, or
is the last one: then the call yields, or the condition is about it. -/
theorem runSet_preemption {th : Thread} (hp : Partition s) (h : Preempting s)
    (hcur : s.threads s.current = some cur) (hth : cur.runSet = some th) (hc : s.StoresHigh) :
    Preempting (s.setThread s.current th) := by
  have hstored : th.pc = .code → Preempting (s.setThread s.current th) := fun hpc =>
    .inl (noneHigher_setCurrent hp th (hc cur th hcur hth hpc))
  have hyields : th.pc = .yieldDue → Preempting (s.setThread s.current th) := fun hpc =>
    .inr ⟨th, update_self _ _ _, by rw [Thread.yields, hpc]⟩
  unfold Thread.runSet at hth
  split at hth
  · rename_i p yields hpc
    obtain rfl := Option.some.inj hth
    cases yields with
    | true => exact hyields rfl
    | false => exact hstored rfl
  · rename_i n old hpc
    obtain rfl := Option.some.inj hth
    have hno : cur.yields = false := by rw [Thread.yields, hpc]
    exact .inl ((h.noneHigher hcur hno).setCurrent hp hcur _ rfl)
  · rename_i n old hpc
    obtain rfl := Option.some.inj hth
    have hno : cur.yields = false := by rw [Thread.yields, hpc]
    exact .inl ((h.noneHigher hcur hno).setCurrent hp hcur _ rfl)
  · rename_i r n old hpc
    obtain rfl := Option.some.inj hth
    by_cases hlt : mlfqsPriority r n < old
    · exact hyields (if_pos hlt)
    · exact hstored (if_neg hlt)
  · cases hth

/-- **A step that meets the condition** ends with no ready thread of higher priority, or
in a call that is about to yield. -/
theorem step_preemption {a : Action} (hp : Partition s) (ho : Ordered s) (h : Preempting s)
    (hc : s.KeepsPreemption cfg a) : (s.step cfg a).Post Preempting := by
  have switched : ∀ {x : SchedM Sched},
      (x.Post fun s' => Ordered s' ∧ NoneHigher s') →
      x.Post Preempting := fun hx => hx.mono fun s' _ h' => .inl h'.2
  refine threadCurrent_spec.bind fun cur _ hcur => ?_
  obtain ⟨hcur, hst⟩ := hcur
  have hcode : cur.pc = .code → NoneHigher s := fun hpc => h.noneHigher hcur (yields_of_pc hpc)
  cases a with
  | initThread p tail =>
    refine Spec.require fun hpc => initThread_effect.mono fun s' _ h' => .inl ?_
    obtain ⟨pc, hrun⟩ := hp.running
    intro t ht
    rw [h'.1] at ht
    rw [h'.2.2 t (hp.ready_lt ht), h'.2.1, h'.2.2 _ (hp.fresh _ _ hrun)]
    exact hcode hpc t ht
  | startThread t =>
    exact Spec.require fun hpc => startThread_preemption (hcode hpc.1) hcur hst hc
  | createCheck =>
    dsimp only
    split
    · rename_i p hpc
      by_cases hlt : cur.priority < p
      · rw [if_pos hlt]
        exact .inr ⟨_, update_self _ _ _, rfl⟩
      · have hno : cur.yields = false := by
          rw [Thread.yields, hpc]
          exact decide_eq_false hlt
        exact .inl ((h.noneHigher hcur hno).setCurrent hp hcur _ rfl)
    · trivial
  | threadYield => exact Spec.require fun _ => switched (threadYield_ordered ho)
  | threadExit => exact Spec.require fun _ => switched (threadExit_ordered hp ho)
  | wait w =>
    exact Spec.require fun _ => switched (threadBlock_ordered (ho.congr rfl fun _ _ => rfl))
  | signal w =>
    exact Spec.require fun hpc => (signal_noneHigher (hcode hpc) hc).mono fun s' _ h' => .inl h'
  | semaDown i =>
    refine Spec.require fun hpc => threadCurrent_spec.bind fun cur' _ hcur' => ?_
    dsimp only
    split
    · exact switched (threadBlock_ordered (ho.congr rfl fun _ _ => rfl))
    · have hno : cur.yields = false := by
        rcases hpc with hpc | hpc <;> rw [Thread.yields, hpc]
      exact .inl ((h.noneHigher hcur hno).setCurrent hp hcur'.1 { cur' with pc := .code } rfl)
  | semaUp i =>
    refine Spec.require fun hpc => ?_
    cases hu : cfg.userprog with
    | true =>
      have hset := (hcode hpc).setCurrent hp hcur { cur with pc := cfg.afterSemaUp } rfl
      refine (semaWake_noneHigher hset fun t ht => ?_).mono fun s' _ h' => .inl h'
      rw [priority_setThread_apply hcur (by rfl), priority_setThread_apply hcur (by rfl)]
      exact hc hu t ht
    | false =>
      have hpc' : cfg.afterSemaUp = .yieldDue := by rw [Config.afterSemaUp, hu]; rfl
      rw [hpc']
      have hcur' : (s.goto cur .yieldDue).threads (s.goto cur .yieldDue).current =
          some { cur with pc := .yieldDue } := update_self _ _ _
      exact (semaWake_running hcur' hst).mono fun s' _ h' => .inr ⟨_, h', rfl⟩
  | timerSleep n =>
    refine Spec.require fun hpc => ?_
    rw [pure_eq, Spec.ok_iff]
    split
    · exact h
    · exact .inl ((hcode hpc).setCurrent hp hcur _ rfl)
  | threadBlockWithTime =>
    dsimp only
    split
    · refine switched (threadCurrent_spec.bind fun cur' _ hcur' => threadBlock_ordered ?_)
      exact (ho.setCurrent hp { cur' with ticks := _ }).congr rfl fun _ _ => rfl
    · trivial
  | threadSetPriority p | threadSetNice n =>
    exact Spec.require fun hpc => .inl ((hcode hpc).setCurrent hp hcur _ rfl)
  | runSet =>
    dsimp only
    split
    · exact runSet_preemption hp h hcur ‹_› hc
    · trivial
  | idle => exact idleStep_preemption hp ho h hcur hst hc
  | timerInterrupt => exact Spec.require fun _ => timerInterrupt_preemption hp ho hc
  | intrSignal w =>
    refine Spec.require fun _ => ?_
    rcases hy : cur.yields with _ | _
    · have hlow : s.ParkedLow w := hc.resolve_right (not_yielding hcur hy)
      exact (signal_noneHigher (h.noneHigher hcur hy) hlow).mono fun s' _ h' => .inl h'
    · exact (signal_running hcur hst).mono fun s' _ h' => .inr ⟨cur, h', hy⟩
  | intrSemaUp i =>
    refine Spec.require fun _ => ?_
    rcases hy : cur.yields with _ | _
    · have hlow : s.FirstWaiterLow i := hc.resolve_right (not_yielding hcur hy)
      exact (semaWake_noneHigher (h.noneHigher hcur hy) hlow).mono fun s' _ h' => .inl h'
    · exact (semaWake_running hcur hst).mono fun s' _ h' => .inr ⟨cur, h', hy⟩

end Sched

/-! ### Runs -/

/-- The state at the end of boot, or a reachable state right after a switch of threads. -/
def AfterSwitch (cfg : Config) (s : Sched) : Prop :=
  (∃ value tail tail', threadStart (threadInit value tail) tail' = ok s) ∨
  ∃ s₀ a, SchedReachable cfg (fun _ _ => True) s₀ ∧ s₀.step cfg a = ok s ∧
    s.current ≠ s₀.current

theorem AfterSwitch.start {cfg : Config} {s : Sched} (h : AfterSwitch cfg s) :
    s.Partition ∧ s.Ordered ∧ s.NoneHigher := by
  rcases h with ⟨value, tail, tail', h₀⟩ | ⟨s₀, a, hreach, hstep, hne⟩
  · refine ⟨threadStart_partition h₀, threadStart_ordered h₀, ?_⟩
    obtain rfl := Outcome.ok.inj h₀
    intro t ht
    obtain rfl := List.mem_singleton.mp ht
    exact show priMin ≤ priDefault by decide
  · obtain ⟨hp, ho⟩ := hreach.ordered
    obtain ⟨ho', hpick⟩ := (Sched.step_ordered hp ho).of_eq_ok hstep
    exact ⟨(Sched.step_spec hp).of_eq_ok hstep, ho', hpick.resolve_right hne⟩

/-- **Strict priority preemption, where it holds**: if all steps since boot or since the
last switch of threads met the condition, no ready thread has a higher priority than the
running one whenever control is back in thread code. -/
theorem strict_preemption {cfg : Config} {s₁ s : Sched} {as : List Action}
    (h₁ : AfterSwitch cfg s₁)
    (hrun : Run (Sched.step cfg) (Sched.KeepsPreemption cfg) s₁ as s) (hret : s.Returned) :
    ∀ t ∈ s.readyList, s.priority t ≤ s.priority s.current := by
  obtain ⟨hp₁, ho₁, hn₁⟩ := h₁.start
  have hinv : s.Partition ∧ s.Ordered ∧ s.Preempting := by
    refine hrun.invariant (I := fun s => s.Partition ∧ s.Ordered ∧ s.Preempting)
      ⟨hp₁, ho₁, .inl hn₁⟩ ?_
    rintro s a s' ⟨hp, ho, hpre⟩ hc hstep
    exact ⟨(Sched.step_spec hp).of_eq_ok hstep, ((Sched.step_ordered hp ho).of_eq_ok hstep).1,
      (Sched.step_preemption hp ho hpre hc).of_eq_ok hstep⟩
  obtain ⟨cur, hcur, -, hno⟩ := hret
  exact hinv.2.2.noneHigher hcur hno

/-- The initial thread creates a thread of lower priority and raises its own. -/
def createAndRaise : List Action :=
  [.initThread 20 0, .startThread 2, .createCheck, .threadSetPriority 33, .timerInterrupt, .runSet]

theorem strict_preemption_create :
    ∃ s₁ s, AfterSwitch ⟨false, false, false⟩ s₁ ∧
      Run (Sched.step ⟨false, false, false⟩) (Sched.KeepsPreemption ⟨false, false, false⟩) s₁
        createAndRaise s ∧
      s.readyList = [2, idleTid] ∧ s.priority s.current = 33 ∧
      ∀ t ∈ s.readyList, s.priority t ≤ s.priority s.current := by
  have key : ∃ s₁ s, AfterSwitch ⟨false, false, false⟩ s₁ ∧
      Run (Sched.step ⟨false, false, false⟩) (Sched.KeepsPreemption ⟨false, false, false⟩) s₁
        createAndRaise s ∧
      s.readyList = [2, idleTid] ∧ s.priority s.current = 33 ∧ s.Returned := by
    refine ⟨_, _, .inl ⟨fun _ => 0, 0, 0, rfl⟩, Run.snoc (Run.snoc (Run.snoc (Run.snoc (Run.snoc
      (Run.snoc .nil trivial rfl) (.inl (by decide)) rfl) trivial rfl) trivial rfl)
      (.inr (.inl ?_)) rfl) ?_ rfl, by decide, by decide, _, rfl, rfl, rfl⟩
    · intro cur th hcur hset _
      cases hcur
      cases hset
      decide
    · simp only [or_imp, forall_and]
      exact ⟨by decide, by decide⟩
  obtain ⟨s₁, s, h₁, hrun, hready, hprio, hret⟩ := key
  exact ⟨s₁, s, h₁, hrun, hready, hprio, strict_preemption h₁ hrun hret⟩

/-- **Preemption fails**: thread 2, of priority 40, sleeps for a tick; the tick that wakes it
returns to the initial thread, of priority 31. -/
theorem preemption_fails :
    ¬∀ cfg s, SchedReachable cfg (fun _ _ => True) s → s.Returned →
      ∀ t ∈ s.readyList, s.priority t ≤ s.priority s.current := by
  intro h
  have hreach : SchedReachable ⟨false, false, false⟩ (fun _ _ => True) _ :=
    ⟨fun _ => 0, 0, 0, _, rfl, [.semaDown idleStarted, .idle, .idle, .idle,
      .semaDown idleStarted, .initThread 40 0, .startThread 2, .createCheck, .threadYield,
      .timerSleep 1, .threadBlockWithTime, .timerInterrupt], Run.of_exec rfl⟩
  have hle := h _ _ hreach ⟨_, rfl, rfl, rfl⟩ 2 (by decide)
  revert hle
  decide

end Pintos
