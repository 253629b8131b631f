import Pintos.KernelList
import Pintos.Outcome

/-!
# Interrupt Queues

The queue of `devices/intq.c`, which threads and interrupt handlers share. It is a monitor: a
thread that finds the queue empty (or full) acquires the queue's lock, records itself as the waiter
and blocks; whoever adds (or removes) a byte unblocks it.

Interrupts are off in these functions, so a thread goes on until it blocks, and a step is what it
does from one point where it may have slept to the next: the call, the lock, the wait and, where
`sema_up` yields, the release of the lock.

## Conventions

* A thread is a number. `yields` says whether `sema_up` yields, which it does unless the kernel runs
  user programs. The priorities of the threads may change at any time.
* `pc t = idle` says that `t` is not in a call. A step that is not enabled is blocked.
-/

namespace Pintos

open Verif Function

/-- What a thread may wait for: a byte in the queue, or room for one. -/
inductive IntqCond where
  | notEmpty
  | notFull
  deriving DecidableEq, Repr

/-- The calls of a thread. -/
inductive IntqCall where
  | getc
  | putc (byte : UInt8)
  deriving DecidableEq, Repr

/-- What a call waits for. -/
def IntqCall.awaits : IntqCall → IntqCond
  | .getc => .notEmpty
  | .putc _ => .notFull

/-- What a call signals. -/
def IntqCall.signals : IntqCall → IntqCond
  | .getc => .notFull
  | .putc _ => .notEmpty

theorem IntqCall.awaits_or_signals (c : IntqCall) (w : IntqCond) :
    w = c.awaits ∨ w = c.signals := by
  cases c <;> cases w <;> simp [awaits, signals]

/-- Where a thread is. -/
inductive IntqPc where
  | idle
  /-- Blocked in `lock_acquire`. -/
  | onLock (c : IntqCall)
  /-- Unblocked in `lock_acquire`, about to test the semaphore again. -/
  | lockReady (c : IntqCall)
  /-- Blocked in `wait`. -/
  | waiting (c : IntqCall)
  /-- Unblocked in `wait`, about to release the lock. -/
  | woken (c : IntqCall)
  /-- Has released the lock, and yielded if `sema_up` does so. -/
  | released (c : IntqCall)
  deriving DecidableEq, Repr

/-- The assertions of the functions. -/
inductive IntqPanic where
  /-- `lock_acquire`: `ASSERT (!lock_held_by_current_thread (lock))`. -/
  | held
  /-- `lock_release`: `ASSERT (lock_held_by_current_thread (lock))`. -/
  | notHeld
  /-- `thread_unblock`: `ASSERT (t->status == THREAD_BLOCKED)`. -/
  | notBlocked
  /-- `wait`: the queue is not empty, or not full, any more. -/
  | wait
  /-- `signal`: the queue is still empty, or still full. -/
  | signal
  deriving DecidableEq, Repr

/-- Computations of the queue. -/
abbrev IntqM := Outcome IntqPanic

/-- `struct intq`, with its lock, and the threads. -/
structure IntqState where
  head : Fin 64
  tail : Fin 64
  buf : Fin 64 → UInt8
  /-- `not_empty` and `not_full`. -/
  waiter : IntqCond → Option ℕ
  /-- `lock.semaphore.value`. -/
  value : ℕ
  /-- `lock.semaphore.waiters`. -/
  waiters : List ℕ
  /-- `lock.holder`. -/
  holder : Option ℕ
  priority : ℕ → ℤ
  pc : ℕ → IntqPc
  /-- What the last `intq_getc` of a thread has returned. -/
  got : ℕ → Option UInt8

/-- The steps. -/
inductive IntqAction where
  /-- A thread calls `intq_getc` or `intq_putc`. -/
  | call (t : ℕ) (c : IntqCall)
  /-- A thread that has slept goes on. -/
  | run (t : ℕ)
  /-- An interrupt handler calls `intq_getc` or `intq_putc`. -/
  | interrupt (c : IntqCall)
  /-- The priorities of the threads change. -/
  | setPriority (priority : ℕ → ℤ)

namespace IntqState

/-- `next`. -/
def next (pos : Fin 64) : Fin 64 := pos + 1

/-- `intq_empty` and `intq_full`: the condition does not hold. -/
def lacks (s : IntqState) : IntqCond → Bool
  | .notEmpty => s.head = s.tail
  | .notFull => next s.head = s.tail

def setPc (s : IntqState) (t : ℕ) (pc : IntqPc) : IntqState :=
  { s with pc := update s.pc t pc }

def setWaiter (s : IntqState) (w : IntqCond) (t : Option ℕ) : IntqState :=
  { s with waiter := update s.waiter w t }

def setWaiters (s : IntqState) (waiters : List ℕ) : IntqState := { s with waiters := waiters }

def setLock (s : IntqState) (value : ℕ) (holder : Option ℕ) : IntqState :=
  { s with value := value, holder := holder }

/-- `signal`. -/
def signal (s : IntqState) (w : IntqCond) : IntqM IntqState := do
  Outcome.ensure (s.lacks w = false) .signal
  match s.waiter w with
  | none => return s
  | some t =>
    match s.pc t with
    | .waiting c => return (s.setPc t (.woken c)).setWaiter w none
    | .onLock c => return (s.setPc t (.lockReady c)).setWaiter w none
    | _ => .panic .notBlocked

/-- The byte goes in or out. -/
def transfer (s : IntqState) : IntqCall → IntqState
  | .getc => { s with tail := next s.tail }
  | .putc byte => { s with buf := update s.buf s.head byte, head := next s.head }

/-- `intq_getc` and `intq_putc` after their loop. -/
def finish (s : IntqState) (c : IntqCall) : IntqM IntqState := (s.transfer c).signal c.signals

/-- A thread returns from its call. -/
def leave (s : IntqState) (t : ℕ) (c : IntqCall) (byte : UInt8) : IntqState :=
  match c with
  | .getc => { s.setPc t .idle with got := update s.got t (some byte) }
  | .putc _ => s.setPc t .idle

/-- `wait`, up to `thread_block`. -/
def wait (s : IntqState) (t : ℕ) (c : IntqCall) : IntqM IntqState := do
  Outcome.ensure (s.lacks c.awaits = true) .wait
  return (s.setWaiter c.awaits (some t)).setPc t (.waiting c)

/-- `list_compare_priority`. -/
def comparePriority (s : IntqState) (a b : ℕ) : Bool := s.priority b < s.priority a

/-- The loop of `sema_down`; with the lock, the thread goes on to `wait`. -/
def semaDown (s : IntqState) (t : ℕ) (c : IntqCall) : IntqM IntqState :=
  if s.value = 0 then
    return (s.setWaiters (listInsertOrdered s.comparePriority t s.waiters)).setPc t (.onLock c)
  else
    (s.setLock (s.value - 1) (some t)).wait t c

/-- The loop of `intq_getc` and `intq_putc`, from its test on. -/
def loop (s : IntqState) (t : ℕ) (c : IntqCall) : IntqM IntqState :=
  if s.lacks c.awaits then do
    Outcome.ensure (s.holder ≠ some t) .held
    s.semaDown t c
  else do
    let byte := s.buf s.tail
    let s ← s.finish c
    return s.leave t c byte

/-- The thread that `sema_up` unblocks. -/
def unblockFirst (s : IntqState) : IntqM IntqState :=
  match s.waiters with
  | [] => return s
  | u :: rest =>
    match s.pc u with
    | .onLock c => return (s.setWaiters rest).setPc u (.lockReady c)
    | .waiting c => return (s.setWaiters rest).setPc u (.woken c)
    | _ => .panic .notBlocked

/-- `lock_release`, up to `thread_yield`. -/
def lockRelease (s : IntqState) (t : ℕ) : IntqM IntqState := do
  Outcome.ensure (s.holder = some t) .notHeld
  let s ← (s.setLock s.value none).unblockFirst
  return s.setLock (s.value + 1) s.holder

/-- One step. -/
def step (yields : Bool) (s : IntqState) : IntqAction → IntqM IntqState
  | .call t c => do
    Outcome.require (s.pc t = .idle)
    s.loop t c
  | .run t =>
    match s.pc t with
    | .lockReady c => s.semaDown t c
    | .woken c => do
      let s ← s.lockRelease t
      let s := s.setPc t (.released c)
      if yields then
        return s
      else
        s.loop t c
    | .released c => s.loop t c
    | _ => .blocked
  | .interrupt c => do
    Outcome.require (s.lacks c.awaits = false)
    s.finish c
  | .setPriority priority => return { s with priority := priority }

/-- `intq_init`. -/
def init : IntqState where
  head := 0
  tail := 0
  buf _ := 0
  waiter _ := none
  value := 1
  waiters := []
  holder := none
  priority _ := 0
  pc _ := .idle
  got _ := none

end IntqState

end Pintos
