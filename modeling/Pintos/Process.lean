import Mathlib.Data.Int.Notation
import Mathlib.Logic.Function.Basic
import Pintos.Outcome

/-!
# The Exec/Wait/Exit Protocol

`process_execute`, `start_process`, `process_wait`, `exit` and `process_exit` of
`userprog/process.c` and `userprog/syscall.c`, with the parts of `init_thread` and
`thread_schedule_tail` that make and free a `struct thread`. Parent and child meet in
three semaphores: the child's load is reported through the parent's `create_sema`, its
exit through its own `parent_sema`, and it stays until the parent has collected the exit
number and ups `parent_sema2`.

A step is what one thread does up to its next access to a semaphore or to another
thread's structure, so any interleaving of the threads is a run. A semaphore is its
value: each of the three is downed by one thread only.

## Conventions

* A thread is named by its `tid`, and `procs p = none` says that its page was never
  allocated or has been freed. A dereference of such a pointer is the error
  `useAfterFree`, so that a run without it accesses no freed structure.
* `parent_list` holds the parent's `parent_elem`, which all its children share; a
  child only reads its own `list_begin`, which the sharing leaves intact, so the list is
  the field `parent`.
* `list_push_back` and `list_remove` write the neighbouring elements, which lie in the
  structures of other children.
* The initial thread is initialised by itself, so it is its own parent and child, and the
  idle thread is its child. It runs `process_wait (process_execute (task))`.
* `log` is a record of what happened and is read by no step.
-/

namespace Pintos

open Verif Verif.Outcome Function

/-- A `tid_t`, which also names the `struct thread`. -/
abbrev Pid := ℕ

/-- Where a thread is in the protocol. -/
inductive ProcPc where
  /-- User code, or the initial thread between two tasks. -/
  | user
  /-- `process_execute`, about to call `thread_create`. -/
  | execCreate
  /-- `process_execute`, in `sema_down` on its `create_sema`; the child it created, if
  `thread_create` succeeded. -/
  | execWait (child : Option Pid)
  /-- `process_execute`, about to read `create_success`. -/
  | execRet (child : Option Pid)
  /-- `start_process`, in `load`. -/
  | startLoad
  /-- `start_process`, about to store the result in the parent. -/
  | startReport (success : Bool)
  /-- `start_process`, about to up the parent's `create_sema`. -/
  | startUp (success : Bool)
  /-- `process_wait`, about to search the children. -/
  | waitScan (tid : ℤ)
  /-- `process_wait`, in `sema_down` on the child's `parent_sema`. -/
  | waitDown (child : Pid)
  /-- `process_wait`, about to remove the child from `child_list`. -/
  | waitRemove (child : Pid)
  /-- `process_wait`, about to read the child's `exit_number`. -/
  | waitRead (child : Pid)
  /-- `process_wait`, about to up the child's `parent_sema2`. -/
  | waitUp (child : Pid) (exitNumber : ℤ)
  /-- `process_exit`, about to up its `parent_sema`. -/
  | exitUp
  /-- `process_exit`, in `sema_down` on its `parent_sema2`. -/
  | exitDown
  /-- `thread_exit` after `process_exit`. -/
  | exitFree
  /-- The initial thread after `thread_exit`, whose page is not freed. -/
  | dead
  /-- The idle thread. -/
  | idle
  deriving DecidableEq, Repr

/-- The members of `struct thread` the protocol uses. -/
structure Proc where
  parent : Pid
  childList : List Pid
  parentSema : ℕ
  parentSema2 : ℕ
  createSema : ℕ
  createSuccess : Bool
  exitNumber : ℤ
  pc : ProcPc
  deriving DecidableEq, Repr

/-- The structure `init_thread` makes for a child of `p`. -/
def Proc.ofParent (p : Pid) : Proc :=
  { parent := p, childList := [], parentSema := 0, parentSema2 := 0, createSema := 0,
    createSuccess := true, exitNumber := 0, pc := .startLoad }

/-- What the log records. -/
inductive Event where
  /-- `init_thread` made a child. -/
  | created (parent child : Pid)
  /-- `load` returned in a child. -/
  | loaded (child : Pid) (success : Bool)
  /-- `process_execute` returned, having created the child if there is one. -/
  | executed (parent : Pid) (child : Option Pid) (result : ℤ)
  /-- A thread entered `process_exit` with this `exit_number`. -/
  | entered (p : Pid) (exitNumber : ℤ)
  /-- `process_wait` returned: the exit number it read, or `none` for the -1 of a child that
  was not found. -/
  | waited (parent : Pid) (tid : ℤ) (result : Option ℤ)
  /-- `thread_schedule_tail` freed the thread. -/
  | freed (p : Pid)
  deriving DecidableEq, Repr

/-- The state of all threads. -/
structure Procs where
  procs : Pid → Option Proc
  nextTid : Pid
  log : List Event

/-- An access to the structure of a thread that is not allocated. -/
inductive ProcError where
  | useAfterFree (p : Pid)
  deriving DecidableEq, Repr

/-- A computation that may access a freed structure. -/
abbrev ProcM := Outcome ProcError

/-- The initial thread. -/
def mainTid : Pid := 1

/-- The steps of the threads, with the outcomes the rest of the kernel decides: whether a
page is available, whether the load succeeds, what the user program does. -/
inductive ProcAction where
  /-- A call of `process_execute`, and whether a page for the file name is available. -/
  | exec (p : Pid) (fnCopy : Bool)
  /-- Its `thread_create`, and whether a page for the thread is available. -/
  | create (p : Pid) (page : Bool)
  /-- The end of `load`. -/
  | load (p : Pid) (success : Bool)
  /-- A call of `process_wait`. -/
  | wait (p : Pid) (tid : ℤ)
  /-- `exit` with a number, or `thread_exit` without one (`kill`). -/
  | exit (p : Pid) (exitNumber : Option ℤ)
  /-- The next step of a thread inside one of the functions. -/
  | run (p : Pid)
  deriving DecidableEq, Repr

namespace Procs

/-- The thread that takes the step. -/
def self (s : Procs) (p : Pid) : ProcM Proc :=
  match s.procs p with
  | none => .blocked
  | some proc => return proc

/-- Access a structure through a pointer. -/
def deref (s : Procs) (p : Pid) : ProcM Proc :=
  match s.procs p with
  | none => .panic (.useAfterFree p)
  | some proc => return proc

/-- Access several structures. -/
def derefAll (s : Procs) : List Pid → ProcM Unit
  | [] => return ()
  | p :: rest => do
    let _ ← s.deref p
    s.derefAll rest

/-- Store into a structure. -/
def modify (s : Procs) (p : Pid) (f : Proc → Proc) : Procs :=
  { s with procs := update s.procs p ((s.procs p).map f) }

/-- Continue a thread at `pc`. -/
def goto (s : Procs) (p : Pid) (pc : ProcPc) : Procs :=
  s.modify p fun proc => { proc with pc := pc }

/-- Record an event. -/
def emit (s : Procs) (e : Event) : Procs :=
  { s with log := e :: s.log }

/-- The elements `list_remove` writes beside the removed one. -/
def neighbours (l : List Pid) (c : Pid) : List Pid :=
  (l.takeWhile (· ≠ c)).getLast?.toList ++ (l.dropWhile (· ≠ c)).tail.head?.toList

/-- `process_execute` returns; the initial thread waits for what it returned. -/
def execReturn (s : Procs) (p : Pid) (child : Option Pid) (result : ℤ) : Procs :=
  (s.goto p (if p = mainTid then .waitScan result else .user)).emit (.executed p child result)

/-- `init_thread` makes the next thread, a child of `p`, which goes on to its `sema_down`. -/
def initThread (s : Procs) (p : Pid) (childList : List Pid) : Procs :=
  let c := s.nextTid
  let s := s.modify p fun proc =>
    { proc with childList := childList ++ [c], pc := .execWait (some c) }
  let s := { s with procs := update s.procs c (some (.ofParent p)), nextTid := c + 1 }
  s.emit (.created p c)

/-- `thread_create`, in the parent; `list_push_back` writes the last child. -/
def threadCreate (s : Procs) (p : Pid) (childList : List Pid) : ProcM Procs := do
  s.derefAll childList.getLast?.toList
  return s.initThread p childList

/-- The search of `process_wait` over the children it has still to visit. -/
def waitLoop (s : Procs) (tid : ℤ) : List Pid → ProcM (Option Pid)
  | [] => return none
  | c :: rest => do
    let _ ← s.deref c
    if (c : ℤ) = tid then return some c else s.waitLoop tid rest

/-- A thread enters `process_exit`. -/
def enterExit (s : Procs) (p : Pid) (exitNumber : ℤ) : Procs :=
  (s.modify p fun proc => { proc with exitNumber := exitNumber, pc := .exitUp }).emit
    (.entered p exitNumber)

/-- The next step of a thread inside one of the functions of the protocol. -/
def runStep (s : Procs) (p : Pid) (proc : Proc) : ProcM Procs :=
  match proc.pc with
  | .execWait c => do
    require (0 < proc.createSema)
    return s.modify p fun proc =>
      { proc with createSema := proc.createSema - 1, pc := .execRet c }
  | .execRet c =>
    -- a `tid_t` of -1 is `TID_ERROR`
    let tid : ℤ := c.elim (-1) fun c => c
    return s.execReturn p c (if !proc.createSuccess then -1 else tid)
  | .startReport success => do
    let _ ← s.deref proc.parent
    let s := s.modify proc.parent fun parent => { parent with createSuccess := success }
    return s.goto p (.startUp success)
  | .startUp success => do
    let _ ← s.deref proc.parent
    let s := s.modify proc.parent fun parent =>
      { parent with createSema := parent.createSema + 1 }
    return if !success then s.enterExit p proc.exitNumber else s.goto p .user
  | .waitScan tid => do
    match ← s.waitLoop tid proc.childList with
    | none => return (s.goto p .user).emit (.waited p tid none)
    | some c => return s.goto p (.waitDown c)
  | .waitDown c => do
    let child ← s.deref c
    require (0 < child.parentSema)
    let s := s.modify c fun child => { child with parentSema := child.parentSema - 1 }
    return s.goto p (.waitRemove c)
  | .waitRemove c => do
    s.derefAll (c :: neighbours proc.childList c)
    return s.modify p fun proc =>
      { proc with childList := proc.childList.erase c, pc := .waitRead c }
  | .waitRead c => do
    let child ← s.deref c
    return s.goto p (.waitUp c child.exitNumber)
  | .waitUp c exitNumber => do
    let _ ← s.deref c
    let s := s.modify c fun child => { child with parentSema2 := child.parentSema2 + 1 }
    return (s.goto p .user).emit (.waited p c (some exitNumber))
  | .exitUp =>
    return s.modify p fun proc =>
      { proc with parentSema := proc.parentSema + 1, pc := .exitDown }
  | .exitDown => do
    require (0 < proc.parentSema2)
    return s.modify p fun proc =>
      { proc with parentSema2 := proc.parentSema2 - 1, pc := .exitFree }
  | .exitFree =>
    if p = mainTid then return s.goto p .dead
    else return { s with procs := update s.procs p none }.emit (.freed p)
  | _ => .blocked

/-- One step of the protocol. -/
def step (s : Procs) : ProcAction → ProcM Procs
  | .exec p fnCopy => do
    let proc ← s.self p
    require (proc.pc = .user)
    return if fnCopy then s.goto p .execCreate else s.execReturn p none (-1)
  | .create p page => do
    let proc ← s.self p
    require (proc.pc = .execCreate)
    if page then s.threadCreate p proc.childList else return s.goto p (.execWait none)
  | .load p success => do
    let proc ← s.self p
    require (proc.pc = .startLoad)
    return (s.goto p (.startReport success)).emit (.loaded p success)
  | .wait p tid => do
    let proc ← s.self p
    -- the initial thread only waits for the task it has just executed
    require (proc.pc = .user ∧ p ≠ mainTid)
    return s.goto p (.waitScan tid)
  | .exit p exitNumber => do
    let proc ← s.self p
    require (proc.pc = .user)
    return s.enterExit p (exitNumber.getD proc.exitNumber)
  | .run p => do
    let proc ← s.self p
    s.runStep p proc

end Procs

/-- The state after `thread_start`: the initial thread, which is its own parent and child, and
the idle thread. -/
def procsInit : Procs where
  procs p :=
    if p = mainTid then
      some { parent := mainTid, childList := [mainTid, 2], parentSema := 0, parentSema2 := 0,
             createSema := 0, createSuccess := true, exitNumber := 0, pc := .user }
    else if p = 2 then
      some { parent := mainTid, childList := [], parentSema := 0, parentSema2 := 0,
             createSema := 0, createSuccess := true, exitNumber := 0, pc := .idle }
    else none
  nextTid := 3
  log := [.created mainTid 2, .created mainTid mainTid]

/-- The states reached by steps that all meet the condition `C`. -/
def ProcReachable (C : Procs → ProcAction → Prop) (s : Procs) : Prop :=
  Reachable Procs.step C procsInit s

end Pintos
