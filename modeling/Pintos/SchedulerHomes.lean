import Pintos.Homes
import Pintos.Scheduler

/-!
# Every Thread Is in Its Place

The run queue, the sleepers and the waiters of the semaphores partition the threads that
wait for something. Where a thread belongs is a function of its status and of where it
is in its code (`homeOf`), and `Core` says that the queues are housed accordingly,
beside what is known of parked threads, of the idle thread and of `all_list`.
`Partition` adds that exactly one thread is running, the current one; `Switching` is
the state in which `schedule` is entered, where no thread is running.

All invariants read a thread through its `shape`, its status and program point, so a
change of its priority or its clocks keeps them by definition.

## Main results

* `Core.move`: one thread changes its status or program point and its queue.
* `schedule_spec`: entered in a `Switching` state, `schedule` finds a thread and ends in
  a `Partition` state.
* `Partition.giveUp`, `Partition.wake`, `Partition.advance`: the current thread stops
  running, a blocked thread becomes ready, the current thread goes on.
-/

namespace Pintos

open Verif Verif.Outcome Function

/-- A queue a thread can wait in. -/
inductive Queue where
  | ready
  | sleep
  | sema (i : SemaId)
  deriving DecidableEq, Repr

/-- The queue of a thread with a given status and program point; the idle thread is never
in the run queue. -/
def homeOf (isIdleThread : Bool) : ThreadStatus × Pc → Option Queue
  | (.ready, _) => if isIdleThread then none else some .ready
  | (.blocked, .semaDown i) => some (.sema i)
  | (.blocked, .blockWithTime) => some .sleep
  | _ => none

namespace Sched

variable {pc : Pc} {s s' : Sched} {st : ThreadStatus} {t : Tid}

/-- The members of a queue. -/
def queue (s : Sched) : Queue → List Tid
  | .ready => s.readyList
  | .sleep => s.blockedList
  | .sema i => (s.semas i).waiters

/-- A thread's status and program point. -/
def shape (s : Sched) (t : Tid) : Option (ThreadStatus × Pc) :=
  (s.threads t).map fun th => (th.status, th.pc)

/-- The queue a thread belongs in. -/
def home (s : Sched) (t : Tid) : Option Queue :=
  (s.shape t).bind (homeOf (s.idleThread = some t))

/-- The idle thread: until it runs it is ready to, and from then on it stays in its own
code. -/
def IdleKnown (s : Sched) : Prop :=
  match s.idleThread with
  | none => ∃ st, s.shape idleTid = some (st, .idleInit) ∧ (st = .ready ∨ st = .running)
  | some i => i = idleTid ∧ ∃ st pc, s.shape idleTid = some (st, pc) ∧ pc.isIdle ∧ st ≠ .dying

/-- What holds whether or not a thread is running. -/
structure Core (s : Sched) : Prop where
  housed : Housed s.queue s.home
  parked : ∀ w t, s.waiters w = some t → s.shape t = some (.blocked, .wait w)
  idle : s.IdleKnown
  idlePc : ∀ t st pc, s.shape t = some (st, pc) → pc.isIdle → t = idleTid
  allLive : ∀ t ∈ s.allList, ∃ st pc, s.shape t = some (st, pc) ∧ st ≠ .dying
  allNodup : s.allList.Nodup
  fresh : ∀ t x, s.shape t = some x → t < s.nextTid

/-- The state `schedule` is entered in: the current thread has given up the processor. -/
structure Switching (s : Sched) : Prop extends Core s where
  current : ∃ x, s.shape s.current = some x
  noneRunning : ∀ t pc, s.shape t ≠ some (.running, pc)

/-- The state between two steps: exactly the current thread is running. -/
structure Partition (s : Sched) : Prop extends Core s where
  running : ∃ pc, s.shape s.current = some (.running, pc)
  unique : ∀ t pc, s.shape t = some (.running, pc) → t = s.current

/-! ### Reading threads -/

theorem shape_of_threads {th : Thread} (h : s.threads t = some th) :
    s.shape t = some (th.status, th.pc) := by
  rw [shape, h, Option.map_some]

theorem shape_running {th : Thread} (h : s.threads t = some th) (hst : th.status = .running) :
    s.shape t = some (.running, th.pc) := by
  rw [shape_of_threads h, hst]

theorem threads_of_shape (h : s.shape t = some (st, pc)) :
    ∃ th, s.threads t = some th ∧ th.status = st ∧ th.pc = pc := by
  obtain ⟨th, hth, heq⟩ := Option.map_eq_some_iff.mp h
  exact ⟨th, hth, congrArg Prod.fst heq, congrArg Prod.snd heq⟩

@[simp] theorem shape_setThread (s : Sched) (t : Tid) (th : Thread) :
    (s.setThread t th).shape = update s.shape t (some (th.status, th.pc)) := by
  funext x
  rcases eq_or_ne x t with rfl | hx
  · simp [shape, setThread]
  · simp [shape, setThread, hx]

@[simp] theorem queue_setThread (s : Sched) (t : Tid) (th : Thread) :
    (s.setThread t th).queue = s.queue := by
  funext q
  cases q <;> rfl

theorem home_eq {x : ThreadStatus × Pc} (h : s.shape t = some x) :
    s.home t = homeOf (s.idleThread = some t) x := by
  rw [home, h, Option.bind_some]

/-- A running or dying thread is in no queue. -/
theorem home_of_active (h : s.shape t = some (st, pc)) (hst : st = .running ∨ st = .dying) :
    s.home t = none := by
  rw [home_eq h]
  rcases hst with rfl | rfl <;> rfl

/-- The members of the run queue are ready, and are not the idle thread. -/
theorem home_eq_ready (h : s.home t = some .ready) :
    s.idleThread ≠ some t ∧ ∃ pc, s.shape t = some (.ready, pc) := by
  obtain ⟨⟨st, pc⟩, hx, hhome⟩ := Option.bind_eq_some_iff.mp h
  cases st with
  | ready =>
    by_cases hi : s.idleThread = some t
    · simp [homeOf, hi] at hhome
    · exact ⟨hi, pc, hx⟩
  | blocked => cases pc <;> simp [homeOf] at hhome
  | running | dying => simp [homeOf] at hhome

/-- The waiters of a semaphore are blocked in `sema_down` on it. -/
theorem home_eq_sema {i : SemaId} (h : s.home t = some (.sema i)) :
    s.shape t = some (.blocked, .semaDown i) := by
  obtain ⟨⟨st, pc⟩, hx, hhome⟩ := Option.bind_eq_some_iff.mp h
  cases st with
  | ready => by_cases hi : s.idleThread = some t <;> simp [homeOf, hi] at hhome
  | blocked =>
    cases pc <;> simp [homeOf] at hhome
    rw [hx, hhome]
  | running | dying => simp [homeOf] at hhome

/-- The members of `blocked_list` are blocked in `thread_block_with_time`. -/
theorem home_eq_sleep (h : s.home t = some .sleep) :
    s.shape t = some (.blocked, .blockWithTime) := by
  obtain ⟨⟨st, pc⟩, hx, hhome⟩ := Option.bind_eq_some_iff.mp h
  cases st with
  | ready => by_cases hi : s.idleThread = some t <;> simp [homeOf, hi] at hhome
  | blocked =>
    cases pc <;> simp [homeOf] at hhome
    exact hx
  | running | dying => simp [homeOf] at hhome

/-! ### What keeps `Core` -/

/-- Two states that agree on everything `Core` reads, up to the order in the queues. -/
theorem Core.congr (h : Core s) (hshape : s'.shape = s.shape)
    (hqueue : ∀ q, (s'.queue q).Perm (s.queue q)) (hwaiters : s'.waiters = s.waiters)
    (hidle : s'.idleThread = s.idleThread) (hall : s'.allList = s.allList)
    (hnext : s'.nextTid = s.nextTid) : Core s' := by
  have hhome : s'.home = s.home := by
    funext x
    rw [home, home, hshape, hidle]
  refine ⟨hhome ▸ h.housed.perm hqueue, ?_, ?_, ?_, ?_, hall ▸ h.allNodup, ?_⟩
  · rw [hwaiters, hshape]
    exact h.parked
  · rw [IdleKnown, hidle, hshape]
    exact h.idle
  · rw [hshape]
    exact h.idlePc
  · rw [hall, hshape]
    exact h.allLive
  · rw [hshape, hnext]
    exact h.fresh

/-- What a thread may turn into without breaking what is known of the idle thread. -/
structure Allowed (s : Sched) (t : Tid) (st : ThreadStatus) (pc : Pc) : Prop where
  idlePc : pc.isIdle → t = idleTid
  idle : t = idleTid → pc.isIdle ∧ st ≠ .dying
  boot : t = idleTid → s.idleThread = none → pc = .idleInit ∧ (st = .ready ∨ st = .running)
  dying : st = .dying → t ∉ s.allList

/-- The thread `t` turns into one with the shape `(st, pc)`, and is where that belongs. -/
structure Moves (s s' : Sched) (t : Tid) (st : ThreadStatus) (pc : Pc) : Prop where
  shape : s'.shape = update s.shape t (some (st, pc))
  queue : ∀ q, (s'.queue q).Perm
    (Housed.moved s.queue t (homeOf (s.idleThread = some t) (st, pc)) q)
  waiters : ∀ w x, s'.waiters w = some x →
    (x ≠ t ∧ s.waiters w = some x) ∨ (x = t ∧ st = .blocked ∧ pc = .wait w)

/-- The idle thread is alive and in its own code. -/
theorem Core.idle_shape (h : Core s) :
    ∃ st pc, s.shape idleTid = some (st, pc) ∧ pc.isIdle ∧ st ≠ .dying := by
  have hk := h.idle
  unfold IdleKnown at hk
  split at hk
  · obtain ⟨st, hst, hor⟩ := hk
    exact ⟨st, _, hst, rfl, by rintro rfl; simp at hor⟩
  · exact hk.2

/-- A thread in a waiter variable waits for it. -/
theorem Core.parked_ne (h : Core s) {w : WaiterId} {x : Tid} (hw : s.waiters w = some x)
    (ht : s.shape t = some (st, pc)) (hne : (st, pc) ≠ (.blocked, .wait w)) : x ≠ t := by
  rintro rfl
  exact hne (Option.mem_unique ht (h.parked w x hw))

/-- **One thread changes its status or program point**, and moves from queue to queue
accordingly. -/
theorem Core.move (h : Core s) (hlive : s.shape t ≠ none) (hm : Moves s s' t st pc)
    (hallowed : s.Allowed t st pc) (hidle : s'.idleThread = s.idleThread)
    (hall : s'.allList = s.allList) (hnext : s'.nextTid = s.nextTid) : Core s' := by
  have hself : s'.shape t = some (st, pc) := by rw [hm.shape, update_self]
  have hother : ∀ x, x ≠ t → s'.shape x = s.shape x := fun x hx => by
    rw [hm.shape, update_of_ne hx]
  obtain ⟨y, hy⟩ := Option.ne_none_iff_exists'.mp hlive
  refine ⟨h.housed.move t ?_ ?_, ?_, ?_, ?_, ?_, hall ▸ h.allNodup, ?_⟩
  · intro x hx
    rw [home, home, hother x hx, hidle]
  · intro q
    rw [home_eq hself, hidle]
    exact hm.queue q
  · intro w x hw
    rcases hm.waiters w x hw with ⟨hx, hx'⟩ | ⟨rfl, rfl, rfl⟩
    · rw [hother x hx]
      exact h.parked w x hx'
    · exact hself
  · have hk := h.idle
    unfold IdleKnown at hk ⊢
    rw [hidle]
    rcases eq_or_ne t idleTid with rfl | ht
    · cases hi : s.idleThread with
      | none =>
        obtain ⟨rfl, hst⟩ := hallowed.boot rfl hi
        exact ⟨st, hself, hst⟩
      | some i =>
        rw [hi] at hk
        exact ⟨hk.1, st, pc, hself, hallowed.idle rfl⟩
    · rw [hother _ ht.symm]
      exact hk
  · intro x st' pc' hx hpc
    rcases eq_or_ne x t with rfl | hne
    · rw [hself] at hx
      cases hx
      exact hallowed.idlePc hpc
    · rw [hother x hne] at hx
      exact h.idlePc x st' pc' hx hpc
  · intro x hx
    rw [hall] at hx
    rcases eq_or_ne x t with rfl | hne
    · exact ⟨st, pc, hself, fun hd => hallowed.dying hd hx⟩
    · rw [hother x hne]
      exact h.allLive x hx
  · intro x z hx
    rw [hnext]
    rcases eq_or_ne x t with rfl | hne
    · exact h.fresh x y hy
    · rw [hother x hne] at hx
      exact h.fresh x z hx

/-- A thread keeps to the idle thread's code exactly if it did, and leaves its start only
as the idle thread does: then what is known of the idle thread stays true. -/
theorem Core.allowed {st₀ : ThreadStatus} {pc₀ : Pc} (h : Core s)
    (hx : s.shape t = some (st₀, pc₀)) (hpc : pc.isIdle = pc₀.isIdle)
    (hboot : pc₀ = .idleInit → s.idleThread = none →
      pc = .idleInit ∧ (st = .ready ∨ st = .running))
    (hdying : st = .dying → t ∉ s.allList ∧ pc₀.isIdle = false) : s.Allowed t st pc := by
  have hidle : t = idleTid → pc₀.isIdle = true := by
    rintro rfl
    obtain ⟨st', pc', hst', hpc', -⟩ := h.idle_shape
    rw [hst'] at hx
    cases hx
    exact hpc'
  refine ⟨fun hi => h.idlePc t st₀ pc₀ hx (hpc ▸ hi), fun ht => ⟨hpc ▸ hidle ht, ?_⟩, ?_,
    fun hd => (hdying hd).1⟩
  · intro hd
    have hno := (hdying hd).2
    rw [hidle ht] at hno
    exact absurd hno (by decide)
  · rintro rfl hnone
    have hk := h.idle
    rw [IdleKnown, hnone] at hk
    obtain ⟨st', hst', -⟩ := hk
    rw [hst'] at hx
    cases hx
    exact hboot rfl hnone

/-- `Core.allowed` for a thread that is not the idle thread. -/
theorem Core.allowed_of_not_idle {st₀ : ThreadStatus} {pc₀ : Pc} (h : Core s)
    (hx : s.shape t = some (st₀, pc₀)) (hpc₀ : pc₀.isIdle = false) (hpc : pc.isIdle = false)
    (hdying : st = .dying → t ∉ s.allList) : s.Allowed t st pc :=
  h.allowed hx (hpc.trans hpc₀.symm)
    (fun hi => by rw [hi] at hpc₀; exact absurd hpc₀ (by decide))
    fun hd => ⟨hdying hd, hpc₀⟩

/-- `thread_schedule_tail` frees the page of a dying thread. -/
theorem Core.free (h : Core s) (ht : s.shape t = some (.dying, pc)) :
    Core { s with threads := update s.threads t none } := by
  set s' : Sched := { s with threads := update s.threads t none } with hs'
  have hself : s'.shape t = none := by simp [hs', shape]
  have hother : ∀ x, x ≠ t → s'.shape x = s.shape x := fun x hx => by simp [hs', shape, hx]
  have hhome : s'.home = s.home := by
    funext x
    rcases eq_or_ne x t with rfl | hx
    · rw [home_of_active ht (.inr rfl), home, hself, Option.bind_none]
    · rw [home, home, hother x hx]
  have hlive : ∀ x y, s'.shape x = some y → s.shape x = some y := by
    intro x y hx
    rcases eq_or_ne x t with rfl | hne
    · rw [hself] at hx
      exact absurd hx (by simp)
    · rwa [hother x hne] at hx
  refine ⟨?_, ?_, ?_, ?_, ?_, h.allNodup, ?_⟩
  · rw [hhome]
    exact h.housed
  · intro w x hw
    rw [hother x (h.parked_ne hw ht (by simp))]
    exact h.parked w x hw
  · have hne : idleTid ≠ t := by
      rintro rfl
      obtain ⟨st, pc', hst, -, hd⟩ := h.idle_shape
      rw [ht] at hst
      cases hst
      exact hd rfl
    rw [IdleKnown, hother _ hne]
    exact h.idle
  · exact fun x st pc' hx => h.idlePc x st pc' (hlive x _ hx)
  · intro x hx
    obtain ⟨st, pc', hst, hd⟩ := h.allLive x hx
    rw [hother x (by rintro rfl; rw [ht] at hst; cases hst; exact hd rfl)]
    exact ⟨st, pc', hst, hd⟩
  · exact fun x y hx => h.fresh x y (hlive x y hx)

/-! ### Switching threads -/

theorem ne_idleInit (h : pc.isIdle = false) : pc ≠ .idleInit := by
  rintro rfl
  cases h

@[simp] theorem isIdle_resume (pc : Pc) : pc.resume.isIdle = pc.isIdle := by
  cases pc <;> rfl

/-- What `next_thread_to_run` finds: a ready thread, which leaves the run queue, or the
idle thread. -/
theorem nextThreadToRun_spec (h : Switching s) :
    ∃ n st pc s', s.nextThreadToRun = (some n, s') ∧ s.shape n = some (st, pc) ∧
      (st = .ready ∨ pc.isIdle) ∧ s' = { s with readyList := s'.readyList } ∧
      ∀ q, s'.queue q = Housed.moved s.queue n none q := by
  unfold nextThreadToRun
  cases hr : s.readyList with
  | nil =>
    have hk := h.idle
    cases hi : s.idleThread with
    | none =>
      -- before the idle thread has run it is in the run queue, which is empty
      rw [IdleKnown, hi] at hk
      obtain ⟨st, hst, rfl | rfl⟩ := hk
      · have hmem : idleTid ∈ s.queue .ready := by
          rw [h.housed.mem_iff, home_eq hst]
          simp [homeOf, hi]
        rw [queue, hr] at hmem
        cases hmem
      · exact absurd hst (h.noneRunning _ _)
    | some i =>
      rw [IdleKnown, hi] at hk
      obtain ⟨rfl, st, pc, hst, hpc, -⟩ := hk
      refine ⟨idleTid, st, pc, s, rfl, hst, .inr hpc, by rw [← hi], fun q => ?_⟩
      have hhome : s.home idleTid = none := by
        rw [home_eq hst]
        cases st with
        | blocked => cases pc <;> first | rfl | cases hpc
        | ready => simp [homeOf, hi]
        | running | dying => rfl
      rw [h.housed.moved_none (by simp [hhome]) (by simp)]
  | cons n rest =>
    have hhome : s.home n = some .ready := by
      rw [← h.housed.mem_iff, queue, hr]
      exact List.mem_cons_self
    obtain ⟨-, pc, hpc⟩ := home_eq_ready hhome
    refine ⟨n, .ready, pc, _, rfl, hpc, .inl rfl, rfl, fun q => ?_⟩
    cases q with
    | ready => simp [queue, Housed.moved_leave, hr]
    | sleep | sema i =>
      rw [h.housed.moved_none (by simp [hhome]) (by simp)]
      rfl

/-- The thread switched to runs, and the others stay where they were. -/
theorem Switching.run {n : Tid} (h : Switching s) (hn : s.shape n = some (st, pc))
    (hst : st = .ready ∨ pc.isIdle)
    (hshape : s'.shape = update s.shape n (some (.running, pc.resume)))
    (hqueue : ∀ q, s'.queue q = Housed.moved s.queue n none q) (hwaiters : s'.waiters = s.waiters)
    (hidle : s'.idleThread = s.idleThread) (hall : s'.allList = s.allList)
    (hnext : s'.nextTid = s.nextTid) (hcurrent : s'.current = n) : Partition s' := by
  have hcore : Core s' := by
    refine h.toCore.move (by simp [hn]) ⟨hshape, fun q => ?_, fun w x hw => .inl ?_⟩
      (h.toCore.allowed hn (isIdle_resume pc) ?_ (by simp)) hidle hall hnext
    · rw [hqueue q]
      exact List.Perm.refl _
    · rw [hwaiters] at hw
      refine ⟨h.parked_ne hw hn ?_, hw⟩
      rintro ⟨⟩
      rcases hst with hst | hst <;> cases hst
    · rintro rfl -
      exact ⟨rfl, .inr rfl⟩
  refine ⟨hcore, ⟨pc.resume, by rw [hcurrent, hshape, update_self]⟩, ?_⟩
  intro x pc' hx
  rw [hcurrent]
  by_contra hne
  rw [hshape, update_of_ne hne] at hx
  exact h.noneRunning x pc' hx

/-- Freeing a thread that is not running keeps the partition. -/
theorem Partition.free (h : Partition s) (ht : s.shape t = some (.dying, pc)) :
    Partition { s with threads := update s.threads t none } := by
  obtain ⟨pc', hrun⟩ := h.running
  have hne : s.current ≠ t := by
    rintro rfl
    rw [hrun] at ht
    cases ht
  refine ⟨h.toCore.free ht, ⟨pc', ?_⟩, fun x pc'' hx => h.unique x pc'' ?_⟩
  · simpa [shape, update_of_ne hne] using hrun
  · rcases eq_or_ne x t with rfl | hx'
    · simp [shape] at hx
    · simpa [shape, update_of_ne hx'] using hx

/-- **`schedule` finds a thread to run**, and its assertions hold. -/
theorem schedule_spec (h : Switching s) : s.schedule.Spec (fun _ => False) Partition := by
  obtain ⟨⟨st₀, pc₀⟩, hcur⟩ := h.current
  obtain ⟨cur, hcur', rfl, rfl⟩ := threads_of_shape hcur
  obtain ⟨n, st, pc, s', hnext, hn, hst, hs', hqueue⟩ := nextThreadToRun_spec h
  obtain ⟨th, hth, rfl, rfl⟩ := threads_of_shape hn
  have hth' : s'.threads n = some th := by rw [hs', hth]
  unfold schedule
  rw [hcur']
  simp only [hnext]
  refine Spec.ensure (fun hr => h.noneRunning _ cur.pc (hr ▸ hcur)) ?_
  simp only [hth', pure_eq, Spec.ok_iff]
  set s₁ : Sched := { s' with current := n, threadTicks := 0 }.setThread n
    { th with status := .running, pc := th.pc.resume } with hs₁
  have hrun : Partition s₁ := by
    refine h.run hn hst ?_ (fun q => ?_) ?_ ?_ ?_ ?_ rfl
    · rw [hs₁, shape_setThread, hs']
      rfl
    · rw [hs₁, queue_setThread, ← hqueue q]
      cases q <;> rfl
    all_goals rw [hs₁, hs']; rfl
  unfold threadScheduleTail
  simp only [← hs₁]
  split
  · exact hrun
  · split
    · rename_i p _ hd
      have hdying := (Bool.and_eq_true _ _ ▸ hd).1
      cases hp : s₁.threads p with
      | none => simp [hp] at hdying
      | some pth =>
        simp only [hp, Option.elim_some, decide_eq_true_eq] at hdying
        exact hrun.free (hdying ▸ shape_of_threads hp)
    · exact hrun

/-! ### One thread moves -/

/-- The parts of the state only thread creation, thread exit and the idle thread's start
change. -/
structure SameThreads (s s' : Sched) : Prop where
  idleThread : s'.idleThread = s.idleThread
  allList : s'.allList = s.allList
  nextTid : s'.nextTid = s.nextTid
  current : s'.current = s.current

/-- States that agree on everything `Partition` reads, up to the order in the queues. -/
theorem Partition.congr (h : Partition s) (hshape : s'.shape = s.shape)
    (hqueue : ∀ q, (s'.queue q).Perm (s.queue q)) (hwaiters : s'.waiters = s.waiters)
    (hsame : SameThreads s s') : Partition s' := by
  refine ⟨h.toCore.congr hshape hqueue hwaiters hsame.1 hsame.2 hsame.3, ?_, ?_⟩
  · rw [hsame.current, hshape]
    exact h.running
  · rw [hsame.current, hshape]
    exact h.unique

/-- A thread moves and the current thread goes on running. -/
theorem Partition.move (h : Partition s) (hlive : s.shape t ≠ none)
    (hst : st = .running ↔ t = s.current) (hm : Moves s s' t st pc)
    (hallowed : s.Allowed t st pc) (hsame : SameThreads s s') : Partition s' := by
  refine ⟨h.toCore.move hlive hm hallowed hsame.1 hsame.2 hsame.3, ?_, ?_⟩
  · obtain ⟨pc₀, hrun⟩ := h.running
    rw [hsame.current, hm.shape]
    rcases eq_or_ne s.current t with heq | hne
    · rw [heq, update_self, hst.mpr heq.symm]
      exact ⟨pc, rfl⟩
    · rw [update_of_ne hne]
      exact ⟨pc₀, hrun⟩
  · intro x pc' hx
    rw [hsame.current]
    rcases eq_or_ne x t with rfl | hne
    · rw [hm.shape, update_self] at hx
      cases hx
      exact hst.mp rfl
    · rw [hm.shape, update_of_ne hne] at hx
      exact h.unique x pc' hx

/-- The current thread stops running, before `schedule`. -/
theorem Partition.giveUp (h : Partition s) (hst : st ≠ .running) (hm : Moves s s' s.current st pc)
    (hallowed : s.Allowed s.current st pc) (hsame : SameThreads s s') : Switching s' := by
  obtain ⟨pc₀, hrun⟩ := h.running
  refine ⟨h.toCore.move (by simp [hrun]) hm hallowed hsame.1 hsame.2 hsame.3,
    ⟨(st, pc), by rw [hsame.current, hm.shape, update_self]⟩, ?_⟩
  intro x pc' hx
  rcases eq_or_ne x s.current with rfl | hne
  · rw [hm.shape, update_self] at hx
    cases hx
    exact hst rfl
  · rw [hm.shape, update_of_ne hne] at hx
    exact hne (h.unique x pc' hx)

/-- Between steps the current thread is no member of a queue and in no waiter variable. -/
theorem Partition.current_home (h : Partition s) : s.home s.current = none := by
  obtain ⟨pc, hrun⟩ := h.running
  exact home_of_active hrun (.inl rfl)

theorem Partition.waiters_ne (h : Partition s) {w : WaiterId} {x : Tid}
    (hw : s.waiters w = some x) : x ≠ s.current := by
  obtain ⟨pc, hrun⟩ := h.running
  exact h.parked_ne hw hrun (by simp)

/-- A thread outside the idle thread's code is not the idle thread. -/
theorem Core.idleThread_ne (h : Core s) (hx : s.shape t = some (st, pc)) (hpc : pc.isIdle = false) :
    s.idleThread ≠ some t := by
  intro hi
  have hk := h.idle
  rw [IdleKnown, hi] at hk
  obtain ⟨rfl, st', pc', hx', hpc', -⟩ := hk
  rw [hx'] at hx
  cases hx
  rw [hpc] at hpc'
  cases hpc'

/-- A blocked thread leaves the queue it waits in for the run queue. -/
theorem Partition.wake (h : Partition s) (hx : s.shape t = some (.blocked, pc))
    (hpc : pc.isIdle = false) (hshape : s'.shape = update s.shape t (some (.ready, pc)))
    (hready : s'.readyList.Perm (t :: s.readyList))
    (hqueue : ∀ q, q ≠ .ready → s'.queue q = (s.queue q).erase t)
    (hwaiters : ∀ w x, s'.waiters w = some x → x ≠ t ∧ s.waiters w = some x)
    (hsame : SameThreads s s') : Partition s' := by
  obtain ⟨pc₀, hrun⟩ := h.running
  have hne : t ≠ s.current := by
    rintro rfl
    rw [hrun] at hx
    cases hx
  have hhome : homeOf (s.idleThread = some t) (.ready, pc) = some .ready := by
    simp [homeOf, h.toCore.idleThread_ne hx hpc]
  have hnot : s.home t ≠ some .ready := by
    intro hr
    obtain ⟨-, pc', hpc'⟩ := home_eq_ready hr
    rw [hx] at hpc'
    cases hpc'
  refine h.move (by simp [hx]) (by simp [hne])
    ⟨hshape, fun q => ?_, fun w x hw => .inl (hwaiters w x hw)⟩
    (h.toCore.allowed_of_not_idle hx hpc hpc (by simp)) hsame
  rw [hhome]
  by_cases hq : q = .ready
  · subst hq
    rw [h.housed.moved_enter hnot]
    exact hready
  · rw [hqueue q hq, Housed.moved_leave fun heq => hq (Option.some.inj heq).symm]

/-- The running thread goes on at another program point, or changes its priority. -/
theorem Partition.advance {cur cur' : Thread} (h : Partition s)
    (hcur : s.threads s.current = some cur) (hst : cur.status = .running)
    (hst' : cur'.status = .running) (hpc : cur'.pc.isIdle = cur.pc.isIdle)
    (hboot : cur.pc = .idleInit → s.idleThread ≠ none) :
    Partition (s.setThread s.current cur') := by
  have hx := shape_running hcur hst
  refine h.move (by simp [hx]) (show ThreadStatus.running = _ ↔ _ by simp)
    ⟨by rw [shape_setThread, hst'], fun q => ?_, fun w x hw => .inl ⟨h.waiters_ne hw, hw⟩⟩
    (h.toCore.allowed hx hpc (fun hi hn => absurd hn (hboot hi)) (by simp)) ⟨rfl, rfl, rfl, rfl⟩
  rw [h.housed.moved_none (by simp [h.current_home]) (by simp [homeOf]), queue_setThread]

end Sched

end Pintos
