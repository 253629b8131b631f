import Pintos.Scheduler

/-!
# Semaphores, Locks and Condition Variables

The functions of `threads/synch.c`, run by any number of threads that may be preempted
between any two statements. What a thread has still to do of the call it is in is a list
of statements, and the body of every function is written as such a list, so that the
definitions below can be read beside the source. The sections that run with interrupts
off, the turn of the loop in `sema_down`, `sema_try_down` and the wakeup in `sema_up`, are
one statement each. Which thread goes on is not determined: every thread that is not
blocked may, which covers every schedule.

## Conventions

* The `semaphore_elem` of a thread's `cond_wait` is on the thread's own stack, so it is
  named by the thread; a second `cond_wait` of the thread may reuse its place.
* Priorities may change at any time; they matter for the order of the waiters only.
* The history records, latest first, what the calls did, as far as the calls of other
  threads depend on it.
-/

namespace Pintos

open Verif Verif.Outcome Outcome Function

/-- A `struct lock`. -/
abbrev LockId := ℕ

/-- A `struct condition`. -/
abbrev CondId := ℕ

/-- A `struct semaphore`: one of its own, the one in a lock, or the one in the
`semaphore_elem` of a thread. -/
inductive SemaName where
  | plain (i : SemaId)
  | lock (l : LockId)
  | waiter (t : Tid)
  deriving DecidableEq, Repr

/-- A statement of `threads/synch.c`. -/
inductive Stmt where
  /-- `ASSERT (!lock_held_by_current_thread (lock))`. -/
  | assertNotHeld (l : LockId)
  /-- `ASSERT (lock_held_by_current_thread (lock))`. -/
  | assertHeld (l : LockId)
  /-- `sema_init (&waiter.semaphore, 0)`. -/
  | semaInit (t : Tid)
  /-- A call of `sema_down`, up to where it blocks or returns. -/
  | semaDown (n : SemaName)
  /-- In `sema_down`, back from `thread_block`: the loop tests its condition again. -/
  | semaLoop (n : SemaName)
  /-- `sema_try_down`, and in `lock_try_acquire` the test of its result. -/
  | semaTryDown (n : SemaName)
  /-- The part of `sema_up` with interrupts off. -/
  | semaUp (n : SemaName)
  /-- `lock->holder = thread_current ()`. -/
  | setHolder (l : LockId)
  /-- `lock->holder = NULL`. -/
  | clearHolder (l : LockId)
  /-- `list_push_back (&cond->waiters, &waiter.elem)`. -/
  | pushBack (c : CondId)
  /-- The test and the `list_pop_front` of `cond_signal`, before its `sema_up`. -/
  | signal (c : CondId)
  /-- The loop of `cond_broadcast`. -/
  | broadcast (c : CondId) (l : LockId)
  /-- The return from `cond_wait`. -/
  | returnWait (c : CondId)
  deriving DecidableEq, Repr

/-! ### The functions -/

/-- `lock_acquire`. -/
def lockAcquire (l : LockId) : List Stmt :=
  [.assertNotHeld l, .semaDown (.lock l), .setHolder l]

/-- `lock_try_acquire`; its last statement is executed if `sema_try_down` succeeded. -/
def lockTryAcquire (l : LockId) : List Stmt :=
  [.assertNotHeld l, .semaTryDown (.lock l)]

/-- What follows a successful `sema_try_down`. -/
def SemaName.onSuccess : SemaName → List Stmt
  | .lock l => [.setHolder l]
  | .plain _ | .waiter _ => []

/-- `lock_release`. -/
def lockRelease (l : LockId) : List Stmt :=
  [.assertHeld l, .clearHolder l, .semaUp (.lock l)]

/-- `cond_wait`, called by `t`. -/
def condWait (t : Tid) (c : CondId) (l : LockId) : List Stmt :=
  [.assertHeld l, .semaInit t, .pushBack c] ++ lockRelease l ++ [.semaDown (.waiter t)] ++
    lockAcquire l ++ [.returnWait c]

/-- `cond_signal`. -/
def condSignal (c : CondId) (l : LockId) : List Stmt :=
  [.assertHeld l, .signal c]

/-- `cond_broadcast`. -/
def condBroadcast (c : CondId) (l : LockId) : List Stmt :=
  [.broadcast c l]

/-- A call that a thread may make. -/
inductive Call where
  | semaDown (i : SemaId)
  | semaTryDown (i : SemaId)
  | semaUp (i : SemaId)
  | lockAcquire (l : LockId)
  | lockTryAcquire (l : LockId)
  | lockRelease (l : LockId)
  | condWait (c : CondId) (l : LockId)
  | condSignal (c : CondId) (l : LockId)
  | condBroadcast (c : CondId) (l : LockId)
  deriving DecidableEq, Repr

/-- The body of the function that is called, by `t`. -/
def Call.body (t : Tid) : Call → List Stmt
  | semaDown i => [.semaDown (.plain i)]
  | semaTryDown i => [.semaTryDown (.plain i)]
  | semaUp i => [.semaUp (.plain i)]
  | lockAcquire l => Pintos.lockAcquire l
  | lockTryAcquire l => Pintos.lockTryAcquire l
  | lockRelease l => Pintos.lockRelease l
  | condWait c l => Pintos.condWait t c l
  | condSignal c l => Pintos.condSignal c l
  | condBroadcast c l => Pintos.condBroadcast c l

/-! ### The machine -/

/-- What the calls of other threads may depend on. -/
inductive SynchEvent where
  /-- `t` has decremented the semaphore. -/
  | down (t : Tid) (n : SemaName)
  /-- `t` has incremented the semaphore. -/
  | up (t : Tid) (n : SemaName)
  /-- `t` has the lock, as its holder. -/
  | acquired (t : Tid) (l : LockId)
  /-- `t` is the holder no more. -/
  | released (t : Tid) (l : LockId)
  /-- The semaphore of `t`'s `semaphore_elem` is initialised. -/
  | inited (t : Tid)
  /-- `t` has entered the waiters of the condition. -/
  | waiting (t : Tid) (c : CondId)
  /-- `u` has signalled the condition, to the waiter it took out if there was one. -/
  | signalled (u : Tid) (c : CondId) (w : Option Tid)
  /-- `u` has called `cond_broadcast`, with these in the waiters. -/
  | broadcasting (u : Tid) (c : CondId) (ws : List Tid)
  /-- `u` returns from `cond_broadcast`. -/
  | broadcasted (u : Tid) (c : CondId)
  /-- `t` returns from `cond_wait`. -/
  | returned (t : Tid) (c : CondId)
  deriving DecidableEq, Repr

/-- Where a thread is. -/
structure Control where
  /-- The statements left of the call it is in. -/
  todo : List Stmt
  /-- Its status is `THREAD_BLOCKED`. -/
  blocked : Bool
  deriving DecidableEq, Repr

/-- The state of the machine. -/
structure Synch where
  threads : Tid → Control
  semas : SemaName → Sema
  holder : LockId → Option Tid
  condWaiters : CondId → List Tid
  priority : Tid → ℤ
  log : List SynchEvent

/-- The assertions of `threads/synch.c` and of `thread_unblock`. -/
inductive SynchAssert where
  | notHeld
  | held
  | unblockNotBlocked
  deriving DecidableEq, Repr

/-- A computation that may fail an assertion. -/
abbrev SynchM := Outcome SynchAssert

/-- What can happen next. -/
inductive SynchAction where
  /-- A thread calls a function. -/
  | call (t : Tid) (c : Call)
  /-- A thread executes its next statement. -/
  | run (t : Tid)
  /-- The priorities change. -/
  | setPriority (priority : Tid → ℤ)

namespace Synch

/-- Where `t` goes on. -/
def setControl (s : Synch) (t : Tid) (c : Control) : Synch :=
  { s with threads := update s.threads t c }

/-- `t` goes on with `rest`. -/
def goto (s : Synch) (t : Tid) (rest : List Stmt) : Synch :=
  s.setControl t ⟨rest, false⟩

/-- Replace a semaphore. -/
def setSema (s : Synch) (n : SemaName) (sema : Sema) : Synch :=
  { s with semas := update s.semas n sema }

/-- Store into `lock->holder`. -/
def setHolder (s : Synch) (l : LockId) (holder : Option Tid) : Synch :=
  { s with holder := update s.holder l holder }

/-- Replace the waiters of a condition. -/
def setCondWaiters (s : Synch) (c : CondId) (ws : List Tid) : Synch :=
  { s with condWaiters := update s.condWaiters c ws }

/-- Record an event. -/
def emit (s : Synch) (e : SynchEvent) : Synch :=
  { s with log := e :: s.log }

/-- `list_compare_priority`. -/
def comparePriority (s : Synch) (a b : Tid) : Bool :=
  s.priority b < s.priority a

/-- A test of the loop of `sema_down`: block, or decrement and go on. -/
def semaTest (s : Synch) (t : Tid) (n : SemaName) (rest : List Stmt) : Synch :=
  let sema := s.semas n
  if sema.value = 0 then
    let waiters := listInsertOrdered s.comparePriority t sema.waiters
    (s.setSema n { sema with waiters := waiters }).setControl t ⟨.semaLoop n :: rest, true⟩
  else
    ((s.setSema n { sema with value := sema.value - 1 }).goto t rest).emit (.down t n)

/-- `sema_try_down`. -/
def semaTryDown (s : Synch) (t : Tid) (n : SemaName) (rest : List Stmt) : Synch :=
  let sema := s.semas n
  if 0 < sema.value then
    ((s.setSema n { sema with value := sema.value - 1 }).goto t (n.onSuccess ++ rest)).emit
      (.down t n)
  else
    s.goto t rest

/-- The increment at the end of `sema_up`. -/
def increment (s : Synch) (t : Tid) (n : SemaName) (rest : List Stmt) : Synch :=
  ((s.setSema n { s.semas n with value := ((s.semas n).value + 1) % 2 ^ 32 }).goto t rest).emit
    (.up t n)

/-- `thread_unblock`. -/
def threadUnblock (s : Synch) (w : Tid) : SynchM Synch := do
  ensure ((s.threads w).blocked = true) .unblockNotBlocked
  return s.setControl w { s.threads w with blocked := false }

/-- `sema_up`: wake the first waiter and increment. -/
def semaUp (s : Synch) (t : Tid) (n : SemaName) (rest : List Stmt) : SynchM Synch :=
  match (s.semas n).waiters with
  | [] => return s.increment t n rest
  | w :: ws => do
    let s ← (s.setSema n { s.semas n with waiters := ws }).threadUnblock w
    return s.increment t n rest

/-- `t` executes a statement, with `rest` after it. -/
def execute (s : Synch) (t : Tid) (rest : List Stmt) : Stmt → SynchM Synch
  | .assertNotHeld l => do
    ensure (s.holder l ≠ some t) .notHeld
    return s.goto t rest
  | .assertHeld l => do
    ensure (s.holder l = some t) .held
    return s.goto t rest
  | .semaInit u => return ((s.setSema (.waiter u) ⟨0, []⟩).goto t rest).emit (.inited u)
  | .semaDown n => return s.semaTest t n rest
  | .semaLoop n => return s.semaTest t n rest
  | .semaTryDown n => return s.semaTryDown t n rest
  | .semaUp n => s.semaUp t n rest
  | .setHolder l => return ((s.setHolder l (some t)).goto t rest).emit (.acquired t l)
  | .clearHolder l => return ((s.setHolder l none).goto t rest).emit (.released t l)
  | .pushBack c =>
    return ((s.setCondWaiters c (s.condWaiters c ++ [t])).goto t rest).emit (.waiting t c)
  | .signal c =>
    match s.condWaiters c with
    | [] => return (s.goto t rest).emit (.signalled t c none)
    | w :: ws =>
      return ((s.setCondWaiters c ws).goto t (.semaUp (.waiter w) :: rest)).emit
        (.signalled t c (some w))
  | .broadcast c l =>
    match s.condWaiters c with
    | [] => return (s.goto t rest).emit (.broadcasted t c)
    | _ :: _ => return s.goto t (condSignal c l ++ .broadcast c l :: rest)
  | .returnWait c => return (s.goto t rest).emit (.returned t c)

/-- What a call records: `cond_broadcast` the threads that are waiting. -/
def recordCall (s : Synch) (t : Tid) : Call → Synch
  | .condBroadcast c _ => s.emit (.broadcasting t c (s.condWaiters c))
  | _ => s

/-- One step of the machine. -/
def step (s : Synch) : SynchAction → SynchM Synch
  | .call t c => do
    require ((s.threads t).todo = [])
    return (s.recordCall t c).goto t (c.body t)
  | .run t =>
    match (s.threads t).todo with
    | [] => .blocked
    | stmt :: rest => do
      require ((s.threads t).blocked = false)
      s.execute t rest stmt
  | .setPriority p => return { s with priority := p }

end Synch

/-- The initial state: the semaphores have been initialised with their values, those of the
locks with 1; what is in the place of a `semaphore_elem` before it is initialised is not
known. -/
def synchInit (value : SemaId → ℕ) (junk : Tid → ℕ) : Synch where
  threads _ := ⟨[], false⟩
  semas
    | .plain i => ⟨value i, []⟩
    | .lock _ => ⟨1, []⟩
    | .waiter t => ⟨junk t, []⟩
  holder _ := none
  condWaiters _ := []
  priority _ := 0
  log := []

/-- The states reached from initialisation by steps that meet `C`. -/
def SynchReachable (value : SemaId → ℕ) (C : Synch → SynchAction → Prop) (s : Synch) : Prop :=
  ∃ junk, Reachable Synch.step C (synchInit value junk) s

/-! ### What a step does -/

/-- The steps of the machine, one case for each thing that can happen. -/
inductive SynchStep (s : Synch) : SynchAction → Synch → Prop
  | setPriority (p : Tid → ℤ) : SynchStep s (.setPriority p) { s with priority := p }
  | call (t : Tid) (c : Call) (htodo : (s.threads t).todo = []) :
      SynchStep s (.call t c) ((s.recordCall t c).goto t (c.body t))
  | assertNotHeld {t : Tid} {l : LockId} {rest : List Stmt}
      (ht : s.threads t = ⟨.assertNotHeld l :: rest, false⟩) (hl : s.holder l ≠ some t) :
      SynchStep s (.run t) (s.goto t rest)
  | assertHeld {t : Tid} {l : LockId} {rest : List Stmt}
      (ht : s.threads t = ⟨.assertHeld l :: rest, false⟩) (hl : s.holder l = some t) :
      SynchStep s (.run t) (s.goto t rest)
  | semaInit {t u : Tid} {rest : List Stmt} (ht : s.threads t = ⟨.semaInit u :: rest, false⟩) :
      SynchStep s (.run t) (((s.setSema (.waiter u) ⟨0, []⟩).goto t rest).emit (.inited u))
  | block {t : Tid} {n : SemaName} {stmt : Stmt} {rest : List Stmt}
      (ht : s.threads t = ⟨stmt :: rest, false⟩) (hstmt : stmt = .semaDown n ∨ stmt = .semaLoop n)
      (hv : (s.semas n).value = 0) :
      SynchStep s (.run t) ((s.setSema n { s.semas n with
        waiters := listInsertOrdered s.comparePriority t (s.semas n).waiters }).setControl t
          ⟨.semaLoop n :: rest, true⟩)
  | down {t : Tid} {n : SemaName} {stmt : Stmt} {rest : List Stmt}
      (ht : s.threads t = ⟨stmt :: rest, false⟩) (hstmt : stmt = .semaDown n ∨ stmt = .semaLoop n)
      (hv : (s.semas n).value ≠ 0) :
      SynchStep s (.run t) (((s.setSema n { s.semas n with
        value := (s.semas n).value - 1 }).goto t rest).emit (.down t n))
  | tryDown {t : Tid} {n : SemaName} {rest : List Stmt}
      (ht : s.threads t = ⟨.semaTryDown n :: rest, false⟩) (hv : (s.semas n).value ≠ 0) :
      SynchStep s (.run t) (((s.setSema n { s.semas n with
        value := (s.semas n).value - 1 }).goto t (n.onSuccess ++ rest)).emit (.down t n))
  | tryFail {t : Tid} {n : SemaName} {rest : List Stmt}
      (ht : s.threads t = ⟨.semaTryDown n :: rest, false⟩) (hv : (s.semas n).value = 0) :
      SynchStep s (.run t) (s.goto t rest)
  | up {t : Tid} {n : SemaName} {rest : List Stmt}
      (ht : s.threads t = ⟨.semaUp n :: rest, false⟩) (hw : (s.semas n).waiters = []) :
      SynchStep s (.run t) (s.increment t n rest)
  | wake {t w : Tid} {n : SemaName} {rest : List Stmt} {ws : List Tid}
      (ht : s.threads t = ⟨.semaUp n :: rest, false⟩) (hw : (s.semas n).waiters = w :: ws)
      (hb : (s.threads w).blocked = true) :
      SynchStep s (.run t) (((s.setSema n { s.semas n with waiters := ws }).setControl w
        { s.threads w with blocked := false }).increment t n rest)
  | setHolder {t : Tid} {l : LockId} {rest : List Stmt}
      (ht : s.threads t = ⟨.setHolder l :: rest, false⟩) :
      SynchStep s (.run t) (((s.setHolder l (some t)).goto t rest).emit (.acquired t l))
  | clearHolder {t : Tid} {l : LockId} {rest : List Stmt}
      (ht : s.threads t = ⟨.clearHolder l :: rest, false⟩) :
      SynchStep s (.run t) (((s.setHolder l none).goto t rest).emit (.released t l))
  | pushBack {t : Tid} {c : CondId} {rest : List Stmt}
      (ht : s.threads t = ⟨.pushBack c :: rest, false⟩) :
      SynchStep s (.run t)
        (((s.setCondWaiters c (s.condWaiters c ++ [t])).goto t rest).emit (.waiting t c))
  | signalNone {t : Tid} {c : CondId} {rest : List Stmt}
      (ht : s.threads t = ⟨.signal c :: rest, false⟩) (hw : s.condWaiters c = []) :
      SynchStep s (.run t) ((s.goto t rest).emit (.signalled t c none))
  | signal {t w : Tid} {c : CondId} {rest : List Stmt} {ws : List Tid}
      (ht : s.threads t = ⟨.signal c :: rest, false⟩) (hw : s.condWaiters c = w :: ws) :
      SynchStep s (.run t) (((s.setCondWaiters c ws).goto t
        (.semaUp (.waiter w) :: rest)).emit (.signalled t c (some w)))
  | broadcastDone {t : Tid} {c : CondId} {l : LockId} {rest : List Stmt}
      (ht : s.threads t = ⟨.broadcast c l :: rest, false⟩) (hw : s.condWaiters c = []) :
      SynchStep s (.run t) ((s.goto t rest).emit (.broadcasted t c))
  | broadcast {t : Tid} {c : CondId} {l : LockId} {rest : List Stmt}
      (ht : s.threads t = ⟨.broadcast c l :: rest, false⟩) (hw : s.condWaiters c ≠ []) :
      SynchStep s (.run t) (s.goto t (condSignal c l ++ .broadcast c l :: rest))
  | returnWait {t : Tid} {c : CondId} {rest : List Stmt}
      (ht : s.threads t = ⟨.returnWait c :: rest, false⟩) :
      SynchStep s (.run t) ((s.goto t rest).emit (.returned t c))

namespace Synch

variable {s s' : Synch} {a : SynchAction} {t : Tid} {stmt : Stmt} {n : SemaName}
  {rest : List Stmt}

/-- A statement that tests the loop condition of `sema_down`. -/
theorem semaTest_step (ht : s.threads t = ⟨stmt :: rest, false⟩)
    (hstmt : stmt = .semaDown n ∨ stmt = .semaLoop n) :
    SynchStep s (.run t) (s.semaTest t n rest) := by
  unfold semaTest
  dsimp only
  split
  · exact .block ht hstmt ‹_›
  · exact .down ht hstmt ‹_›

theorem semaTryDown_step (ht : s.threads t = ⟨.semaTryDown n :: rest, false⟩) :
    SynchStep s (.run t) (s.semaTryDown t n rest) := by
  unfold semaTryDown
  dsimp only
  split
  · exact .tryDown ht (Nat.pos_iff_ne_zero.mp ‹_›)
  · exact .tryFail ht (Nat.eq_zero_of_not_pos ‹_›)

theorem semaUp_step (ht : s.threads t = ⟨.semaUp n :: rest, false⟩)
    (h : s.semaUp t n rest = ok s') : SynchStep s (.run t) s' := by
  unfold semaUp at h
  split at h
  · obtain rfl := ok.inj h
    exact .up ht ‹_›
  · obtain ⟨s₁, h₁, h₂⟩ := bind_eq_ok.mp h
    obtain rfl := ok.inj h₂
    rw [threadUnblock, ensure_bind_eq_ok] at h₁
    obtain ⟨hb, h₁⟩ := h₁
    obtain rfl := ok.inj h₁
    exact .wake ht ‹_› hb

/-- A statement that is executed does one of the things that can happen. -/
theorem execute_step (ht : s.threads t = ⟨stmt :: rest, false⟩)
    (h : s.execute t rest stmt = ok s') : SynchStep s (.run t) s' := by
  cases stmt with
  | assertNotHeld l =>
    rw [execute, ensure_bind_eq_ok] at h
    obtain rfl := ok.inj h.2
    exact .assertNotHeld ht h.1
  | assertHeld l =>
    rw [execute, ensure_bind_eq_ok] at h
    obtain rfl := ok.inj h.2
    exact .assertHeld ht h.1
  | semaInit u =>
    obtain rfl := ok.inj h
    exact .semaInit ht
  | semaDown n =>
    obtain rfl := ok.inj h
    exact semaTest_step ht (.inl rfl)
  | semaLoop n =>
    obtain rfl := ok.inj h
    exact semaTest_step ht (.inr rfl)
  | semaTryDown n =>
    obtain rfl := ok.inj h
    exact semaTryDown_step ht
  | semaUp n => exact semaUp_step ht h
  | setHolder l =>
    obtain rfl := ok.inj h
    exact .setHolder ht
  | clearHolder l =>
    obtain rfl := ok.inj h
    exact .clearHolder ht
  | pushBack c =>
    obtain rfl := ok.inj h
    exact .pushBack ht
  | signal c =>
    rw [execute] at h
    split at h
    · obtain rfl := ok.inj h
      exact .signalNone ht ‹_›
    · obtain rfl := ok.inj h
      exact .signal ht ‹_›
  | broadcast c l =>
    rw [execute] at h
    split at h
    · obtain rfl := ok.inj h
      exact .broadcastDone ht ‹_›
    · rename_i w ws hw
      obtain rfl := ok.inj h
      exact .broadcast ht (hw ▸ List.cons_ne_nil w ws)
  | returnWait c =>
    obtain rfl := ok.inj h
    exact .returnWait ht

/-- **Every step is one of the things that can happen.** -/
theorem step_cases (h : s.step a = ok s') : SynchStep s a s' := by
  cases a with
  | call t c =>
    rw [step, require_bind_eq_ok] at h
    obtain rfl := ok.inj h.2
    exact .call t c h.1
  | run t =>
    rw [step] at h
    split at h
    · cases h
    · rename_i stmt rest htodo
      rw [require_bind_eq_ok] at h
      have ht : s.threads t = ⟨stmt :: rest, false⟩ := by
        rw [← htodo, ← h.1]
      exact execute_step ht h.2
  | setPriority p =>
    obtain rfl := ok.inj h
    exact .setPriority p

end Synch

end Pintos
