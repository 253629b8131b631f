import Mathlib.Logic.Function.Basic
import Pintos.FixedPoint
import Pintos.KernelList
import Pintos.Outcome

/-!
# The Thread Scheduler

The state of `threads/thread.c`, the semaphores of `threads/synch.c` and the functions
that move a thread between running, the run queue, a semaphore's waiters and the
sleepers. A step of the model is one section of the source that runs with interrupts
off, together with the straight-line code leading to it; what a thread does after it
gets the processor back, and between two such sections of one call, is its `Pc`. So a
timer interrupt may come between `thread_unblock` and the priority check in
`thread_create` and between that check and its `thread_yield`, between `sema_up`'s wakeup
and its `thread_yield`, and between reading the clock in `timer_sleep` and going to sleep.
`thread_set_priority` and `thread_set_nice` run with interrupts on, so each of their
accesses to the thread's priority, nice value and `recent_cpu` is a step of its own.

## Conventions

* A `struct thread` is named by a `Tid`; `threads t = none` says that its page is not
  allocated or was freed by `thread_schedule_tail`.
* The bare `thread_block` and `thread_unblock` are used as `devices/intq.c` uses them:
  a thread parks itself in a `struct thread *` variable, and whoever finds the variable
  set unblocks that thread and clears it.
* `list_compare_priority` finds a thread from its `elem` member, but
  `thread_block_with_time` orders `blocked_list` by it through `block_elem`; what it
  then compares is the word of each thread twelve bytes before `block_elem`, the
  `tail.prev` pointer of `file_list`. That word is the field `tailPrev`.
* `init_thread` is one step. A tick between its `list_push_back` to `all_list` and its copying
  of `nice` and `recent_cpu`, which may compute the new thread's priority from zeros, is left
  out.
* `allocate_tid`'s lock is taken by ordinary `semaDown` and `semaUp` steps between
  `initThread` and `startThread`.
* Statistics counters, thread names and stacks are left out.
-/

namespace Pintos

open Verif Verif.Outcome Function

/-- The identity of a `struct thread`. -/
abbrev Tid := ℕ

/-- A semaphore. -/
abbrev SemaId := ℕ

/-- A `struct thread *` variable in which a thread waits to be unblocked. -/
abbrev WaiterId := ℕ

/-- `enum thread_status`. -/
inductive ThreadStatus where
  | running
  | ready
  | blocked
  | dying
  deriving DecidableEq, Repr

/-- Where a thread is in its code. -/
inductive Pc where
  /-- Ordinary code, interrupts on. -/
  | code
  /-- In `thread_create`, about to compare its own priority with the argument. -/
  | createCheck (priority : ℤ)
  /-- About to call `thread_yield`, at the end of a call that must yield. -/
  | yieldDue
  /-- In `thread_set_priority`, about to store the priority, and to yield after that if so. -/
  | setPriority (newPriority : ℤ) (yields : Bool)
  /-- In `thread_set_nice`, about to store the nice value. -/
  | setNice (nice oldPriority : ℤ)
  /-- In `thread_set_nice`, about to read `recent_cpu`. -/
  | readRecentCpu (nice oldPriority : ℤ)
  /-- In `thread_set_nice`, about to store the priority that follows from what was read. -/
  | storePriority (recentCpu nice oldPriority : ℤ)
  /-- In the loop of `sema_down`, back from `thread_block`. -/
  | semaDown (sema : SemaId)
  /-- In `timer_sleep`, about to call `thread_block_with_time`. -/
  | sleepUntil (ticks : ℕ)
  /-- In `thread_block_with_time`. -/
  | blockWithTime
  /-- Parked in a waiter variable by `thread_block`. -/
  | wait (waiter : WaiterId)
  /-- The idle thread, before it sets `idle_thread`. -/
  | idleInit
  /-- The idle thread, about to up `idle_started`. -/
  | idleUp
  /-- The idle thread, about to yield at the end of that `sema_up`. -/
  | idleYield
  /-- The idle thread, in its loop. -/
  | idleLoop
  deriving DecidableEq, Repr

/-- The program points of the idle thread. -/
def Pc.isIdle : Pc → Bool
  | idleInit | idleUp | idleYield | idleLoop => true
  | _ => false

/-- Where a thread continues when `thread_block` returns to it: a sleeper and a parked
thread leave the call they blocked in, all others stay where they are. -/
def Pc.resume : Pc → Pc
  | blockWithTime => code
  | wait _ => code
  | pc => pc

/-- `struct thread`, as far as scheduling reads it. -/
structure Thread where
  status : ThreadStatus
  priority : ℤ
  /-- The `priority` argument of the `thread_create` that made this thread. -/
  argPriority : ℤ
  nice : ℤ
  recentCpu : ℤ
  /-- The tick to wake up at. -/
  ticks : ℕ
  /-- The word that stands for the priority when `blocked_list` is ordered. -/
  tailPrev : ℤ
  pc : Pc
  deriving DecidableEq, Repr

/-- `struct semaphore`. -/
structure Sema where
  value : ℕ
  waiters : List Tid
  deriving DecidableEq, Repr

/-- The options the kernel is built and started with. -/
structure Config where
  userprog : Bool
  mlfqs : Bool
  aging : Bool
  deriving DecidableEq, Repr

/-- The scheduler's state. -/
structure Sched where
  threads : Tid → Option Thread
  allList : List Tid
  readyList : List Tid
  blockedList : List Tid
  semas : SemaId → Sema
  waiters : WaiterId → Option Tid
  idleThread : Option Tid
  /-- `running_thread()`. -/
  current : Tid
  loadAvg : ℤ
  /-- `timer_ticks()`. -/
  ticks : ℕ
  /-- Ticks since the last thread switch. -/
  threadTicks : ℕ
  nextTid : Tid

/-- The assertions on the scheduler's paths. -/
inductive SchedAssert where
  /-- `is_thread (t)` fails in `thread_current` or for a list element. -/
  | notThread
  /-- `thread_current`: the running thread's status is not `THREAD_RUNNING`. -/
  | currentNotRunning
  /-- `thread_unblock`: `t->status == THREAD_BLOCKED`. -/
  | unblockNotBlocked
  /-- `schedule`: `cur->status != THREAD_RUNNING`. -/
  | scheduleRunning
  /-- `schedule`: `is_thread (next)`. -/
  | nextNotThread
  /-- `init_thread`: `PRI_MIN <= priority && priority <= PRI_MAX`. -/
  | priorityRange
  deriving DecidableEq, Repr

/-- A computation of the kernel that may fail an assertion. -/
abbrev SchedM := Outcome SchedAssert

namespace Sched

/-- The `priority` member read through a list element. -/
def priority (s : Sched) (t : Tid) : ℤ :=
  (s.threads t).elim 0 Thread.priority

/-- The word `list_compare_priority` reads through a `block_elem`. -/
def tailPrev (s : Sched) (t : Tid) : ℤ :=
  (s.threads t).elim 0 Thread.tailPrev

/-- `list_compare_priority` on `elem` members. -/
def comparePriority (s : Sched) (a b : Tid) : Bool :=
  s.priority b < s.priority a

/-- `list_compare_priority` on `block_elem` members. -/
def compareBlockElem (s : Sched) (a b : Tid) : Bool :=
  s.tailPrev b < s.tailPrev a

/-- Store into a `struct thread`. -/
def setThread (s : Sched) (t : Tid) (th : Thread) : Sched :=
  { s with threads := update s.threads t (some th) }

/-- Replace a semaphore. -/
def setSema (s : Sched) (i : SemaId) (sema : Sema) : Sched :=
  { s with semas := update s.semas i sema }

/-- `thread_current`, with its two checks. -/
def threadCurrent (s : Sched) : SchedM Thread :=
  match s.threads s.current with
  | none => .panic .notThread
  | some th => do
    ensure (th.status = .running) .currentNotRunning
    return th

/-- `thread_unblock`. -/
def threadUnblock (s : Sched) (t : Tid) : SchedM Sched :=
  match s.threads t with
  | none => .panic .notThread
  | some th => do
    ensure (th.status = .blocked) .unblockNotBlocked
    let s := { s with readyList := listInsertOrdered s.comparePriority t s.readyList }
    return s.setThread t { th with status := .ready }

/-- `next_thread_to_run`: the front of the run queue, which leaves it, or the idle
thread when the queue is empty. -/
def nextThreadToRun (s : Sched) : Option Tid × Sched :=
  match s.readyList with
  | [] => (s.idleThread, s)
  | t :: rest => (some t, { s with readyList := rest })

/-- The initial thread, whose page is not freed. -/
def initialThread : Tid := 0

/-- `thread_schedule_tail`, in the thread `next` that was switched to: it starts a time
slice and destroys the thread switched from if that is dying. -/
def threadScheduleTail (s : Sched) (prev : Option Tid) (next : Tid) (th : Thread) : Sched :=
  let s := { s with current := next, threadTicks := 0 }
  let s := s.setThread next { th with status := .running, pc := th.pc.resume }
  match prev with
  | none => s
  | some p =>
    if (s.threads p).elim false (fun th => th.status = .dying) && p != initialThread then
      { s with threads := update s.threads p none }
    else s

/-- `schedule`. -/
def schedule (s : Sched) : SchedM Sched :=
  match s.threads s.current with
  | none => .panic .notThread
  | some cur => do
    let (next, s') := s.nextThreadToRun
    ensure (cur.status ≠ .running) .scheduleRunning
    match next with
    | none => .panic .nextNotThread
    | some n =>
      match s'.threads n with
      | none => .panic .nextNotThread
      | some th =>
        return s'.threadScheduleTail (if s.current ≠ n then some s.current else none) n th

/-- `thread_block`, the thread continuing at `pc` when it gets the processor back. -/
def threadBlock (s : Sched) (pc : Pc) : SchedM Sched := do
  let cur ← s.threadCurrent
  (s.setThread s.current { cur with status := .blocked, pc := pc }).schedule

/-- `thread_yield`, the thread continuing at `pc` when it gets the processor back. -/
def threadYield (s : Sched) (pc : Pc) : SchedM Sched := do
  let cur ← s.threadCurrent
  let s :=
    if s.idleThread = some s.current then s
    else { s with readyList := listInsertOrdered s.comparePriority s.current s.readyList }
  (s.setThread s.current { cur with status := .ready, pc := pc }).schedule

/-- The end of `thread_exit`, after `process_exit`. -/
def threadExit (s : Sched) : SchedM Sched := do
  let cur ← s.threadCurrent
  let s := { s with allList := s.allList.erase s.current }
  (s.setThread s.current { cur with status := .dying }).schedule

/-- Continue the running thread at `pc`. -/
def goto (s : Sched) (cur : Thread) (pc : Pc) : Sched :=
  s.setThread s.current { cur with pc := pc }

/-- One turn of the loop of `sema_down`, and the decrement after it. -/
def semaDown (s : Sched) (i : SemaId) : SchedM Sched := do
  let cur ← s.threadCurrent
  let sema := s.semas i
  if sema.value = 0 then
    let waiters := listInsertOrdered s.comparePriority s.current sema.waiters
    (s.setSema i { sema with waiters := waiters }).threadBlock (.semaDown i)
  else
    return (s.setSema i { sema with value := sema.value - 1 }).goto cur .code

/-- The interrupts-off part of `sema_up`: wake the first waiter and increment. -/
def semaWake (s : Sched) (i : SemaId) : SchedM Sched := do
  let s ← match (s.semas i).waiters with
    | [] => pure s
    | t :: rest => (s.setSema i { s.semas i with waiters := rest }).threadUnblock t
  return s.setSema i { s.semas i with value := ((s.semas i).value + 1) % 2 ^ 32 }

/-- `init_thread`, which makes a blocked thread that inherits `nice` and `recent_cpu`. -/
def initThread (s : Sched) (priority tailPrev : ℤ) (entry : Pc) : SchedM Sched := do
  let cur ← s.threadCurrent
  ensure (priMin ≤ priority ∧ priority ≤ priMax) .priorityRange
  let th : Thread :=
    { status := .blocked, priority := priority, argPriority := priority, nice := cur.nice,
      recentCpu := cur.recentCpu, ticks := 0, tailPrev := tailPrev, pc := entry }
  let t := s.nextTid
  let s := { s with allList := s.allList ++ [t], nextTid := t + 1 }
  return s.setThread t th

/-- `thread_block_with_time`. -/
def threadBlockWithTime (s : Sched) (ticks : ℕ) : SchedM Sched := do
  let cur ← s.threadCurrent
  let s := s.setThread s.current { cur with ticks := ticks }
  let s :=
    { s with blockedList := listInsertOrdered s.compareBlockElem s.current s.blockedList }
  s.threadBlock .blockWithTime

/-- The loop of `block_check` over the elements of `blocked_list` it has still to visit. -/
def blockCheckLoop (s : Sched) : List Tid → SchedM Sched
  | [] => return s
  | t :: rest =>
    match s.threads t with
    | none => .panic .notThread
    | some th =>
      if th.ticks ≤ s.ticks then do
        let s ← s.threadUnblock t
        blockCheckLoop { s with blockedList := s.blockedList.erase t } rest
      else blockCheckLoop s rest

/-- `block_check`. -/
def blockCheck (s : Sched) : SchedM Sched :=
  s.blockCheckLoop s.blockedList

/-- Apply `f` to every thread in `all_list`. -/
def mapAll (s : Sched) (f : Thread → Thread) : Sched :=
  { s with threads := fun t => if t ∈ s.allList then (s.threads t).map f else s.threads t }

/-- `thread_aging`. -/
def threadAging (s : Sched) : SchedM Sched := do
  let cur ← s.threadCurrent
  return s.setThread s.current { cur with recentCpu := fixedCalInt cur.recentCpu 1 .add }

/-- `calculate_load_avg`. -/
def calculateLoadAvg (s : Sched) : Sched :=
  let readyLength : ℤ :=
    if s.idleThread = some s.current then s.readyList.length else s.readyList.length + 1
  { s with loadAvg := nextLoadAvg s.loadAvg readyLength }

/-- `calculate_recent_cpu`. -/
def calculateRecentCpu (s : Sched) : Sched :=
  s.mapAll fun th => { th with recentCpu := nextRecentCpu s.loadAvg th.recentCpu th.nice }

/-- `calculate_priority`, and whether it asks for a yield on return. -/
def calculatePriority (s : Sched) : Sched × Bool :=
  let s' := s.mapAll fun th => { th with priority := mlfqsPriority th.recentCpu th.nice }
  let s' := { s' with readyList := listSort s'.comparePriority s'.readyList }
  (s', s'.priority s'.current < s.priority s.current)

/-- `TIME_SLICE`. -/
def timeSlice : ℕ := 4

/-- `TIMER_FREQ`. -/
def timerFreq : ℕ := 100

/-- The part of `thread_tick` that only the `-mlfqs` and `-aging` schedulers of the
build without user programs run, and whether it asks for a yield on return. -/
def mlfqsTick (cfg : Config) (s : Sched) : SchedM (Sched × Bool) :=
  if !cfg.userprog && (cfg.aging || cfg.mlfqs) then do
    let s ← s.threadAging
    let s := if s.ticks % timerFreq = 0 then s.calculateLoadAvg.calculateRecentCpu else s
    return if s.ticks % 4 = 0 then s.calculatePriority else (s, false)
  else
    return (s, false)

/-- `timer_interrupt` with `thread_tick`, up to the return of the handler: the state,
and whether the interrupt yields on return. -/
def timerTick (cfg : Config) (s : Sched) : SchedM (Sched × Bool) := do
  let s := { s with ticks := s.ticks + 1, threadTicks := s.threadTicks + 1 }
  let s ← s.blockCheck
  let (s', yield) ← s.mlfqsTick cfg
  return (s', timeSlice ≤ s.threadTicks || yield)

/-- The timer interrupt, with the yield at the end of `intr_handler`. -/
def timerInterrupt (cfg : Config) (s : Sched) : SchedM Sched := do
  let cur ← s.threadCurrent
  let (s, yield) ← s.timerTick cfg
  if yield then s.threadYield cur.pc else return s

end Sched

/-! ### Steps -/

/-- The semaphore `thread_start` and the idle thread share. -/
def idleStarted : SemaId := 0

/-- What can happen next: a section of the running thread's code, or an interrupt. -/
inductive Action where
  | initThread (priority tailPrev : ℤ)
  | startThread (t : Tid)
  | createCheck
  | threadYield
  | threadExit
  | wait (w : WaiterId)
  | signal (w : WaiterId)
  | semaDown (i : SemaId)
  | semaUp (i : SemaId)
  | timerSleep (ticks : ℤ)
  | threadBlockWithTime
  | threadSetPriority (priority : ℤ)
  | threadSetNice (nice : ℤ)
  /-- The next access of a call of one of these two. -/
  | runSet
  | idle
  | timerInterrupt
  /-- An interrupt handler's `signal`, as the keyboard's and the serial port's. -/
  | intrSignal (w : WaiterId)
  /-- The disk interrupt handler's `sema_up`, in the builds that have a disk. -/
  | intrSemaUp (i : SemaId)
  deriving DecidableEq, Repr

/-- The thread after the next access of `thread_set_priority` or `thread_set_nice`, if it is in
one of them. -/
def Thread.runSet (cur : Thread) : Option Thread :=
  match cur.pc with
  | .setPriority newPriority yields => some { cur with
      priority := newPriority
      pc := if yields then .yieldDue else .code }
  | .setNice nice oldPriority => some { cur with
      nice := nice
      pc := .readRecentCpu nice oldPriority }
  | .readRecentCpu nice oldPriority => some { cur with
      pc := .storePriority cur.recentCpu nice oldPriority }
  | .storePriority recentCpu nice oldPriority =>
    let newPriority := mlfqsPriority recentCpu nice
    some { cur with
      priority := newPriority
      pc := if newPriority < oldPriority then .yieldDue else .code }
  | _ => none

/-- Where a call that yields at its end only without user programs continues. -/
def Config.afterSemaUp (cfg : Config) : Pc :=
  if cfg.userprog then .code else .yieldDue

namespace Sched

/-- `signal` in `devices/intq.c`: unblock the thread parked in the variable, if any. -/
def signal (s : Sched) (w : WaiterId) : SchedM Sched :=
  match s.waiters w with
  | none => return s
  | some t => do
    let s ← s.threadUnblock t
    return { s with waiters := update s.waiters w none }

/-- Interrupts are on, except from the switch back into `sema_down` to its end. -/
def intrOn (cur : Thread) : Bool :=
  match cur.pc with
  | .semaDown _ => false
  | _ => true

/-- `thread_set_priority` up to its store. -/
def threadSetPriority (s : Sched) (cur : Thread) (newPriority : ℤ) : Sched :=
  s.goto cur (.setPriority newPriority (newPriority < cur.priority))

/-- `thread_set_nice` up to its first store. -/
def threadSetNice (s : Sched) (cur : Thread) (nice : ℤ) : Sched :=
  s.goto cur (.setNice nice cur.priority)

/-- The idle thread's next section. -/
def idleStep (cfg : Config) (s : Sched) (cur : Thread) : SchedM Sched :=
  match cur.pc with
  | .idleInit => return { s with idleThread := some s.current }.goto cur .idleUp
  | .idleUp => (s.goto cur (if cfg.userprog then .idleLoop else .idleYield)).semaWake idleStarted
  | .idleYield => s.threadYield .idleLoop
  | .idleLoop => s.threadBlock .idleLoop
  | _ => .blocked

/-- One step of the scheduler. -/
def step (cfg : Config) (s : Sched) (a : Action) : SchedM Sched := do
  let cur ← s.threadCurrent
  match a with
  | .initThread p tail => do
    require (cur.pc = .code)
    s.initThread p tail .code
  | .startThread t => do
    -- only `thread_create` itself holds the pointer of a thread not yet unblocked
    require (cur.pc = .code ∧ (s.threads t).elim false
      (fun th => th.status = .blocked ∧ th.pc = .code))
    let s ← s.threadUnblock t
    return s.goto cur (.createCheck ((s.threads t).elim 0 Thread.argPriority))
  | .createCheck =>
    match cur.pc with
    | .createCheck p => return s.goto cur (if cur.priority < p then .yieldDue else .code)
    | _ => .blocked
  | .threadYield => do
    require (cur.pc = .code ∨ cur.pc = .yieldDue)
    s.threadYield .code
  | .threadExit => do
    require (cur.pc = .code)
    s.threadExit
  | .wait w => do
    require (cur.pc = .code)
    { s with waiters := update s.waiters w (some s.current) }.threadBlock (.wait w)
  | .signal w => do
    require (cur.pc = .code)
    s.signal w
  | .semaDown i => do
    require (cur.pc = .code ∨ cur.pc = .semaDown i)
    s.semaDown i
  | .semaUp i => do
    require (cur.pc = .code)
    (s.goto cur cfg.afterSemaUp).semaWake i
  | .timerSleep n => do
    require (cur.pc = .code)
    -- a negative argument returns at once
    return if n < 0 then s
      else s.goto cur (.sleepUntil ((s.ticks + n.toNat) % 2 ^ 64))
  | .threadBlockWithTime =>
    match cur.pc with
    | .sleepUntil ticks => s.threadBlockWithTime ticks
    | _ => .blocked
  | .threadSetPriority p => do
    require (cur.pc = .code)
    return s.threadSetPriority cur p
  | .threadSetNice n => do
    require (cur.pc = .code)
    return s.threadSetNice cur n
  | .runSet =>
    match cur.runSet with
    | some th => return s.setThread s.current th
    | none => .blocked
  | .idle => s.idleStep cfg cur
  | .timerInterrupt => do
    require (intrOn cur)
    s.timerInterrupt cfg
  | .intrSignal w => do
    require (intrOn cur)
    s.signal w
  | .intrSemaUp i => do
    require (intrOn cur ∧ cfg.userprog)
    s.semaWake i

end Sched

/-! ### Boot -/

/-- The state `thread_init` leaves: the initial thread runs and all lists are empty. The
semaphores start with the values `sema_init` gives them. -/
def threadInit (value : SemaId → ℕ) (tailPrev : ℤ) : Sched where
  threads t := if t = Sched.initialThread then
      some { status := .running, priority := priDefault, argPriority := priDefault, nice := 0,
             recentCpu := 0, ticks := 0, tailPrev := tailPrev, pc := .code }
    else none
  allList := [Sched.initialThread]
  readyList := []
  blockedList := []
  semas i := { value := if i = idleStarted then 0 else value i, waiters := [] }
  waiters _ := none
  idleThread := none
  current := Sched.initialThread
  loadAvg := 0
  ticks := 0
  threadTicks := 0
  nextTid := 1

/-- The idle thread's identity: it is the first thread `thread_start` creates. -/
def idleTid : Tid := 1

/-- `thread_start` up to the point where interrupts come on: it creates the idle thread
with `PRI_MIN`, which is below the initial thread's priority, so it does not yield. -/
def threadStart (s : Sched) (tailPrev : ℤ) : SchedM Sched := do
  let s ← s.initThread priMin tailPrev .idleInit
  s.threadUnblock idleTid

end Pintos
