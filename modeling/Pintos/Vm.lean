import Mathlib.Data.List.AList
import Pintos.Process
import Pintos.Swap

/-!
# Demand Paging

The frame table of `vm/frame.c`, the supplemental page tables of `vm/page.c`, the user
pool of `threads/palloc.c` and the page directories, as the processes of the system use
them: `load_segment` and `setup_stack` when a process is loaded, `page_fault` and
`load_page` when it touches a page that is not present, `frame_allocate` with the
eviction of another frame, and `process_exit`.

A thread may be preempted between any two statements, so a process in one of these
functions has a program counter (`VmPc`, and `AllocPc` inside `frame_allocate`), and a
step of the system is one statement of one process. `frame_lock` is the field `lock`; a
function that holds it from its first statement to its last (`frame_unpin`,
`frame_free`) is one step, taken while nobody else holds the lock.

## Conventions

* A kernel page is its index in the user pool, a user page its page number. `frames` is
  the memory of the frame table entries, which `frame_map` and `frame_list` refer to.
* A process is named as in `Pintos.Process`. `pc p = none` says that there is no such
  thread (any more); using the `struct thread` of one that is gone is the error
  `ownerGone`, which stands for the assertions on its `pagedir`.
* What the functions take from outside is in `Env`: the entry the clock stops at, the
  dirty bits of the hardware, whether `malloc` or the allocation of a page table
  succeeds, and what `malloc` leaves in the fields no one initialises.
* `log` is a record of the accesses and installations, read by no step.
-/

open Verif Verif.Outcome Function

namespace Pintos

/-- `PHYS_BASE`. -/
def physBase : ℕ := 3221225472

/-- The range of an address, `2 ^ 32`. -/
def wordRange : ℕ := 4294967296

/-- The page below `PHYS_BASE`, where `setup_stack` puts the stack. -/
def stackPage : ℕ := physBase / pgSize - 1

/-- `enum page_status`. -/
inductive PageStatus where
  | allZero
  | onFrame
  | onSwap
  | fromFilesys
  deriving DecidableEq, Repr

/-- `struct supplemental_page_table_entry`; `swap_index` is `none` for −1. -/
structure Spte where
  kpage : Option ℕ
  status : PageStatus
  dirty : Bool
  swapIndex : Option ℕ
  file : ℕ
  fileOffset : ℕ
  readBytes : ℕ
  zeroBytes : ℕ
  writable : Bool
  deriving DecidableEq, Repr

/-- A page directory's entry for a present page. -/
structure Pte where
  kpage : ℕ
  writable : Bool
  deriving DecidableEq, Repr

/-- `struct frame_table_entry`. -/
structure FrameEntry where
  kpage : ℕ
  upage : ℕ
  t : Pid
  pinned : Bool
  deriving DecidableEq, Repr

/-- On whose behalf `frame_allocate` was called: `load_page` for a page, or
`setup_stack`, which asks for a zeroed one. -/
inductive Want where
  | page (upage : ℕ)
  | stack
  deriving DecidableEq, Repr

/-- The argument `upage` of `frame_allocate`. -/
def Want.upage : Want → ℕ
  | .page u => u
  | .stack => stackPage

/-- Where a process is in `frame_allocate`. -/
inductive AllocPc where
  /-- About to acquire `frame_lock`. -/
  | lock
  /-- About to call `palloc_get_page`, and `pick_frame_to_evict` if it fails. -/
  | getPage
  /-- About to clear the page of the entry `f` in its owner's page directory. -/
  | clear (f : ℕ)
  /-- About to call `swap_out`. -/
  | swapOut (f : ℕ)
  /-- About to call `supt_set_swap`. -/
  | setSwap (f slot : ℕ)
  /-- About to call `supt_set_dirty`. -/
  | setDirty (f : ℕ)
  /-- About to call `frame_do_free`. -/
  | free (f : ℕ)
  /-- About to call `palloc_get_page` again. -/
  | again
  /-- About to put the page in the table and to release the lock. -/
  | insert (k : ℕ)
  deriving DecidableEq, Repr

/-- Where a process is in the functions that handle its pages. -/
inductive VmPc where
  /-- `load`, before `setup_stack`. -/
  | loading
  /-- User code, or a system call that accesses user memory. -/
  | user
  /-- `frame_allocate`. -/
  | alloc (w : Want) (a : AllocPc)
  /-- `load_page`, at the `switch`. -/
  | fill (upage k : ℕ)
  /-- `load_page`, about to call `pagedir_set_page`. -/
  | map (upage k : ℕ) (writable : Bool)
  /-- `load_page`, about to record the frame in the entry. -/
  | setFrame (upage k : ℕ)
  /-- `install_page`, about to set the page directory's entry. -/
  | stackMap (k : ℕ)
  /-- `install_page`, about to call `supt_install_frame`. -/
  | stackInstall (k : ℕ)
  /-- About to call `frame_unpin` and to go on to user code. -/
  | unpin (k : ℕ)
  /-- About to call `frame_free` and to fail. -/
  | drop (k : ℕ)
  /-- Loading failed, or a fault could not be handled: about to exit. -/
  | failed
  deriving DecidableEq, Repr

/-- Where the content of a page comes from. -/
inductive Origin where
  /-- `supt_install_filesys`. -/
  | filesys (file offset readBytes : ℕ) (writable : Bool)
  /-- `supt_install_zeropage`. -/
  | zeropage
  /-- `supt_install_frame`, of a page that `frame_allocate` zeroed. -/
  | frame
  deriving DecidableEq, Repr

/-- What happened to the memory of a process. -/
inductive VmEvent where
  | installed (p : Pid) (upage : ℕ) (o : Origin)
  | read (p : Pid) (addr : ℕ) (b : UInt8)
  | wrote (p : Pid) (addr : ℕ) (b : UInt8)
  deriving DecidableEq, Repr

/-- The files, the size of the user pool and that of the swap area, and what the memory
and the swap device contain at boot. -/
structure Machine where
  files : ℕ → List UInt8
  poolPages : ℕ
  swapSize : ℕ
  memory : ℕ → Page := fun _ => zeroPage
  device : ℕ → Sector := fun _ _ => 0

/-- `file_read` of at most `n` bytes at an offset. -/
def Machine.fileRead (m : Machine) (file ofs n : ℕ) : List UInt8 := ((m.files file).drop ofs).take n

/-- The state of the virtual memory system. -/
structure Vm where
  pc : Pid → Option VmPc
  supt : Pid → AList (fun _ : ℕ => Spte)
  pagedir : Pid → AList (fun _ : ℕ => Pte)
  nextPid : Pid
  /-- The holder of `frame_lock`. -/
  lock : Option Pid
  /-- `used_map` of the user pool. -/
  used : ℕ → Bool
  pages : ℕ → Page
  frames : ℕ → Option FrameEntry
  frameMap : ℕ → Option ℕ
  frameList : List ℕ
  /-- The next entry that `malloc` returns. -/
  nextFrame : ℕ
  swap : SwapArea
  log : List VmEvent

/-- The assertions and panics of the functions. -/
inductive VmError where
  | swap (e : SwapPanic)
  | cantEvict           -- "Can't evict any frame"
  | frameGone           -- the entry of the frame to evict was freed
  | ownerGone           -- `ASSERT (f_evicted->t->pagedir != (void *) 0xcccccccc)`
  | dirtyMissing        -- "set dirty - the request page doesn't exist"
  | notInTable          -- "The page to be freed is not stored in the table"
  | notAllocated        -- `palloc_free_multiple`: `ASSERT (bitmap_all (...))`
  | outOfPages          -- `ASSERT (frame_page != NULL)`
  | alreadyMapped       -- `ASSERT ((*pte & PTE_P) == 0)` and `load_segment`'s
  | segmentSizes        -- `load_segment`'s assertions on its arguments
  | fileSizes           -- `ASSERT (spte->read_bytes + spte->zero_bytes == PGSIZE)`
  | duplicateFilesys    -- "Duplicated SUPT entry for filesys-page"
  | unpinMissing        -- "The frame to be pinned/unpinned does not exist"
  deriving DecidableEq, Repr

/-- Computations that may wait or fail an assertion. -/
abbrev VmM := Outcome VmError

/-- What a step takes from outside the modelled state. -/
structure Env where
  victim : ℕ := 0
  dirty : Bool := false
  granted : Bool := true
  junk : Spte := ⟨none, .allZero, false, none, 0, 0, 0, 0, false⟩
  deriving DecidableEq, Repr

/-- The steps of the system. -/
inductive VmAction where
  /-- `load` makes an empty page directory and supplemental page table. -/
  | start
  | loadSegment (p : Pid) (file ofs upage readBytes zeroBytes : ℕ) (writable : Bool) (env : Env)
  | setupStack (p : Pid)
  | read (p : Pid) (addr : ℕ)
  | write (p : Pid) (addr : ℕ) (b : UInt8)
  /-- An access to a page that is not present; `esp` is the user's stack pointer, `fEsp`
  the one in the interrupt frame. -/
  | fault (p : Pid) (addr esp fEsp : ℕ) (env : Env)
  /-- A write to a present read-only page. -/
  | violation (p : Pid)
  /-- The next statement of the function a process is in. -/
  | run (p : Pid) (env : Env)
  | exit (p : Pid)
  deriving DecidableEq, Repr

/-- The test of `page_fault` for an access to the stack. -/
def growsStack (addr esp fEsp : ℕ) : Bool :=
  (decide (esp ≤ addr) || addr == (fEsp + wordRange - 4) % wordRange ||
    addr == (fEsp + wordRange - 32) % wordRange) &&
  (decide (physBase - 0x800000 ≤ addr) && decide (addr < physBase))

namespace Vm

/-- `supt_lookup`. -/
def suptLookup (s : Vm) (p : Pid) (u : ℕ) : Option Spte := (s.supt p).lookup u

/-- The entry of a present page, as `lookup_page` finds it. -/
def lookupPage (s : Vm) (p : Pid) (u : ℕ) : Option Pte := (s.pagedir p).lookup u

/-- The entry that `frame_map` holds for a kernel page. -/
def frameAt (s : Vm) (k : ℕ) : Option FrameEntry := (s.frameMap k).bind s.frames

/-- The process goes on at `c`. -/
def goto (s : Vm) (p : Pid) (c : VmPc) : Vm := { s with pc := update s.pc p (some c) }

/-- Writes an entry of a supplemental page table. -/
def setSpte (s : Vm) (p : Pid) (u : ℕ) (e : Spte) : Vm :=
  { s with supt := update s.supt p ((s.supt p).insert u e) }

/-- `pagedir_set_page`, once there is a page table. -/
def setPte (s : Vm) (p : Pid) (u : ℕ) (e : Pte) : Vm :=
  { s with pagedir := update s.pagedir p ((s.pagedir p).insert u e) }

/-- `pagedir_clear_page`. -/
def clearPte (s : Vm) (p : Pid) (u : ℕ) : Vm :=
  { s with pagedir := update s.pagedir p ((s.pagedir p).erase u) }

/-- Overwrites a kernel page. -/
def fillPage (s : Vm) (k : ℕ) (page : Page) : Vm :=
  { s with pages := update s.pages k page }

/-- Changes the holder of `frame_lock`. -/
def setLock (s : Vm) (holder : Option Pid) : Vm := { s with lock := holder }

/-- Changes the swap area. -/
def setSwapArea (s : Vm) (area : SwapArea) : Vm := { s with swap := area }

/-- Stores a byte in a kernel page, at the offset of `addr`. -/
def storeByte (s : Vm) (k addr : ℕ) (b : UInt8) : Vm :=
  s.fillPage k (update (s.pages k) (pgOfs addr) b)

def emit (s : Vm) (e : VmEvent) : Vm := { s with log := e :: s.log }

/-- The page `k` of the user pool is taken, and zeroed if `zero` says so. -/
def takePage (s : Vm) (k : ℕ) (zero : Bool) : Vm :=
  { s with
    used := update s.used k true
    pages := if zero then update s.pages k zeroPage else s.pages }

/-- `palloc_get_page (PAL_USER | flags)`, where `zero` says whether `PAL_ZERO` is set. -/
def pallocGetPage (m : Machine) (s : Vm) (zero : Bool) : Option (ℕ × Vm) :=
  (Bitmap.scan s.used m.poolPages 1 false).map fun k => (k, s.takePage k zero)

/-- The page `k` goes back to the user pool, overwritten with `0xcc`. -/
def releasePage (s : Vm) (k : ℕ) : Vm :=
  { s with
    used := update s.used k false
    pages := update s.pages k fun _ => 0xcc }

/-- `palloc_free_page`. -/
def pallocFreePage (s : Vm) (k : ℕ) : VmM Vm := do
  ensure (s.used k = true) .notAllocated
  pure (s.releasePage k)

/-- The end of `frame_allocate`: a new entry for the page goes into `frame_map`, unless
that has one for it, and to the end of `frame_list`. -/
def frameInsert (s : Vm) (p : Pid) (u k : ℕ) : Vm :=
  { s with
    frames := update s.frames s.nextFrame (some ⟨k, u, p, true⟩)
    frameMap := if (s.frameMap k).isSome then s.frameMap
      else update s.frameMap k (some s.nextFrame)
    frameList := s.frameList ++ [s.nextFrame]
    nextFrame := s.nextFrame + 1 }

/-- The entry `f` of the page `k` leaves the table and is freed. -/
def frameRemove (s : Vm) (f k : ℕ) : Vm :=
  { s with
    frames := update s.frames f none
    frameMap := update s.frameMap k none
    frameList := s.frameList.erase f }

/-- `frame_do_free (kpage, true)`. -/
def frameDoFree (s : Vm) (k : ℕ) : VmM Vm :=
  match s.frameMap k with
  | none => .panic .notInTable
  | some f => (s.frameRemove f k).pallocFreePage k

/-- The entry `f` is not pinned any more. -/
def unpinEntry (s : Vm) (f : ℕ) : Vm :=
  let e := (s.frames f).map fun e => { e with pinned := false }
  { s with frames := update s.frames f e }

/-- `frame_unpin`. -/
def frameUnpin (s : Vm) (k : ℕ) : VmM Vm :=
  match s.frameMap k with
  | none => .panic .unpinMissing
  | some f => pure (s.unpinEntry f)

/-- The entry `f` is in the table and is not pinned. -/
def evictable (s : Vm) (f : ℕ) : Bool :=
  decide (f ∈ s.frameList) && ((s.frames f).map (·.pinned) == some false)

/-- `pick_frame_to_evict`, stopping at the entry `victim`. -/
def pickFrameToEvict (s : Vm) (victim : ℕ) : VmM ℕ := do
  ensure (s.frameList.any s.evictable = true) .cantEvict
  require (s.evictable victim = true)
  pure victim

/-! ### `vm/page.c` and `userprog/process.c` -/

/-- `supt_install_filesys`. -/
def suptInstallFilesys (s : Vm) (p : Pid) (u file ofs readBytes zeroBytes : ℕ) (w : Bool)
    (junk : Spte) : VmM Vm := do
  ensure (s.suptLookup p u = none) .duplicateFilesys
  let e : Spte := ⟨none, .fromFilesys, false, junk.swapIndex, file, ofs, readBytes, zeroBytes, w⟩
  pure ((s.setSpte p u e).emit (.installed p u (.filesys file ofs readBytes w)))

/-- The loop of `load_segment`. Every round takes a page off `read_bytes + zero_bytes`, a
multiple of the page size, so it runs for `n` pages. -/
def loadSegmentLoop (s : Vm) (p : Pid) (file : ℕ) (w : Bool) (junk : Spte) :
    (n ofs upage readBytes zeroBytes : ℕ) → VmM Vm
  | 0, _, _, _, _ => pure s
  | n + 1, ofs, upage, readBytes, zeroBytes => do
    let pageReadBytes := min readBytes pgSize
    let pageZeroBytes := pgSize - pageReadBytes
    ensure (s.lookupPage p upage = none) .alreadyMapped
    let s ← s.suptInstallFilesys p upage file ofs pageReadBytes pageZeroBytes w junk
    s.loadSegmentLoop p file w junk n (ofs + pgSize) (upage + 1) (readBytes - pageReadBytes)
      (zeroBytes - pageZeroBytes)

/-- `load_segment`. -/
def loadSegment (s : Vm) (p : Pid) (file ofs upage readBytes zeroBytes : ℕ) (w : Bool)
    (junk : Spte) : VmM Vm := do
  ensure ((readBytes + zeroBytes) % pgSize = 0 ∧ ofs % pgSize = 0) .segmentSizes
  s.loadSegmentLoop p file w junk ((readBytes + zeroBytes) / pgSize) ofs upage readBytes zeroBytes

/-- `supt_install_zeropage`, on a page without an entry. -/
def suptInstallZeropage (s : Vm) (p : Pid) (u : ℕ) (junk : Spte) : Vm :=
  (s.setSpte p u { junk with kpage := none, status := .allZero, dirty := false }).emit
    (.installed p u .zeropage)

/-- `supt_install_frame`, on a page without an entry. -/
def suptInstallFrame (s : Vm) (p : Pid) (u k : ℕ) (junk : Spte) : Vm :=
  let e := { junk with kpage := some k, status := .onFrame, dirty := false, swapIndex := none }
  (s.setSpte p u e).emit (.installed p u .frame)

/-- `load_page` up to the call of `frame_allocate`. -/
def loadPage (s : Vm) (p : Pid) (u : ℕ) : Vm :=
  match s.suptLookup p u with
  | none => s.goto p .failed
  | some e => if e.status = .onFrame then s else s.goto p (.alloc (.page u) .lock)

/-- `page_fault`, for a page that is not present. -/
def pageFault (s : Vm) (p : Pid) (addr esp fEsp : ℕ) (junk : Spte) : Vm :=
  let u := addr / pgSize
  let grown := if growsStack addr esp fEsp && (s.suptLookup p u).isNone
    then s.suptInstallZeropage p u junk else s
  grown.loadPage p u

/-- The `switch` of `load_page`, for the entry `e` and the frame `k`. -/
def fillFrame (m : Machine) (s : Vm) (p : Pid) (u k : ℕ) (e : Spte) : VmM Vm :=
  match e.status with
  | .allZero => pure ((s.fillPage k zeroPage).goto p (.map u k true))
  | .onFrame => pure (s.goto p (.map u k true))
  | .onSwap =>
    match e.swapIndex with
    | none => .panic (.swap .bitIndex)
    | some n =>
      match s.swap.swapIn m.swapSize n with
      | .ok (swap, page) =>
        pure (((s.fillPage k page).setSwapArea swap).goto p (.map u k true))
      | .blocked => .blocked
      | .panic err => .panic (.swap err)
  | .fromFilesys =>
    let bytes := m.fileRead e.file e.fileOffset e.readBytes
    if bytes.length = e.readBytes then do
      ensure (e.readBytes + e.zeroBytes = pgSize) .fileSizes
      pure ((s.fillPage k fun i => bytes.getD i 0).goto p (.map u k e.writable))
    else
      pure ((s.fillPage k fun i => bytes.getD i (s.pages k i)).goto p (.drop k))

/-- The pages of the present entries, which `pagedir_destroy` frees. -/
def pagedirDestroy (s : Vm) : List ℕ → VmM Vm
  | [] => pure s
  | k :: ks => do
    let s ← s.pallocFreePage k
    s.pagedirDestroy ks

/-! ### The steps -/

/-- The statement of `frame_allocate` at `a`, for the page the process wants. -/
def allocStep (m : Machine) (s : Vm) (p : Pid) (env : Env) (w : Want) : AllocPc → VmM Vm
  | .lock => do
    require (s.lock = none)
    pure ((s.setLock (some p)).goto p (.alloc w .getPage))
  | .getPage =>
    match s.pallocGetPage m (w = .stack) with
    | some (k, s) => pure (s.goto p (.alloc w (.insert k)))
    | none => do
      let f ← s.pickFrameToEvict env.victim
      pure (s.goto p (.alloc w (.clear f)))
  | .clear f =>
    match s.frames f with
    | none => .panic .frameGone
    | some fr => do
      ensure ((s.pc fr.t).isSome = true) .ownerGone
      pure ((s.clearPte fr.t fr.upage).goto p (.alloc w (.swapOut f)))
  | .swapOut f =>
    match s.frames f with
    | none => .panic .frameGone
    | some fr =>
      match s.swap.swapOut m.swapSize (s.pages fr.kpage) with
      | .ok (swap, n) => pure ((s.setSwapArea swap).goto p (.alloc w (.setSwap f n)))
      | .blocked => .blocked
      | .panic e => .panic (.swap e)
  | .setSwap f n =>
    match s.frames f with
    | none => .panic .frameGone
    | some fr =>
      match s.suptLookup fr.t fr.upage with
      | none => pure (s.goto p (.alloc w (.setDirty f)))
      | some e =>
        let e := { e with status := .onSwap, kpage := none, swapIndex := some n }
        pure ((s.setSpte fr.t fr.upage e).goto p (.alloc w (.setDirty f)))
  | .setDirty f =>
    match s.frames f with
    | none => .panic .frameGone
    | some fr =>
      match s.suptLookup fr.t fr.upage with
      | none => .panic .dirtyMissing
      | some e =>
        let e := { e with dirty := e.dirty || env.dirty }
        pure ((s.setSpte fr.t fr.upage e).goto p (.alloc w (.free f)))
  | .free f =>
    match s.frames f with
    | none => .panic .frameGone
    | some fr => do
      let s ← s.frameDoFree fr.kpage
      pure (s.goto p (.alloc w .again))
  | .again =>
    match s.pallocGetPage m (w = .stack) with
    | some (k, s) => pure (s.goto p (.alloc w (.insert k)))
    | none => .panic .outOfPages
  | .insert k =>
    if env.granted then
      let s := (s.frameInsert p w.upage k).setLock none
      match w with
      | .page u => pure (s.goto p (.fill u k))
      | .stack => pure (s.goto p (.stackMap k))
    else pure ((s.setLock none).goto p .failed)

/-- The next statement of a process. -/
def runStep (m : Machine) (s : Vm) (p : Pid) (env : Env) : VmPc → VmM Vm
  | .alloc w a => s.allocStep m p env w a
  | .fill u k =>
    match s.suptLookup p u with
    | none => .blocked
    | some e => s.fillFrame m p u k e
  | .map u k w =>
    if env.granted then do
      ensure (s.lookupPage p u = none) .alreadyMapped
      pure ((s.setPte p u ⟨k, w⟩).goto p (.setFrame u k))
    else pure (s.goto p (.drop k))
  | .setFrame u k =>
    match s.suptLookup p u with
    | none => .blocked
    | some e =>
      pure ((s.setSpte p u { e with kpage := some k, status := .onFrame }).goto p (.unpin k))
  | .stackMap k =>
    if (s.lookupPage p stackPage).isNone && env.granted then
      pure ((s.setPte p stackPage ⟨k, true⟩).goto p (.stackInstall k))
    else pure (s.goto p (.drop k))
  | .stackInstall k =>
    if (s.suptLookup p stackPage).isNone then
      pure ((s.suptInstallFrame p stackPage k env.junk).goto p (.unpin k))
    else pure (s.goto p (.drop k))
  | .unpin k => do
    require (s.lock = none)
    let s ← s.frameUnpin k
    pure (s.goto p .user)
  | .drop k => do
    require (s.lock = none)
    let s ← s.frameDoFree k
    pure (s.goto p .failed)
  | .loading | .user | .failed => .blocked

/-- A new process with an empty page directory and supplemental page table. -/
def started (s : Vm) : Vm :=
  { s with
    pc := update s.pc s.nextPid (some .loading)
    supt := update s.supt s.nextPid ∅
    pagedir := update s.pagedir s.nextPid ∅
    nextPid := s.nextPid + 1 }

/-- The process is gone, and with it the pointers to its tables. -/
def gone (s : Vm) (p : Pid) : Vm :=
  { s with
    pc := update s.pc p none
    supt := update s.supt p ∅
    pagedir := update s.pagedir p ∅ }

/-- One step of the system. -/
def step (m : Machine) (s : Vm) : VmAction → VmM Vm
  | .start => pure s.started
  | .loadSegment p file ofs u rb zb w env => do
    require (s.pc p = some .loading)
    s.loadSegment p file ofs u rb zb w env.junk
  | .setupStack p => do
    require (s.pc p = some .loading)
    pure (s.goto p (.alloc .stack .lock))
  | .read p addr => do
    require (s.pc p = some .user ∧ addr < physBase)
    match s.lookupPage p (addr / pgSize) with
    | none => .blocked
    | some e => pure (s.emit (.read p addr (s.pages e.kpage (pgOfs addr))))
  | .write p addr b => do
    require (s.pc p = some .user ∧ addr < physBase)
    match s.lookupPage p (addr / pgSize) with
    | none => .blocked
    | some e => do
      require (e.writable = true)
      pure ((s.storeByte e.kpage addr b).emit (.wrote p addr b))
  | .fault p addr esp fEsp env => do
    require (s.pc p = some .user ∧ s.lookupPage p (addr / pgSize) = none)
    pure (s.pageFault p addr esp fEsp env.junk)
  | .violation p => do
    require (s.pc p = some .user)
    pure (s.goto p .failed)
  | .run p env =>
    match s.pc p with
    | none => .blocked
    | some c => s.runStep m p env c
  | .exit p => do
    require (s.pc p = some .loading ∨ s.pc p = some .user ∨ s.pc p = some .failed)
    let s ← s.pagedirDestroy ((s.pagedir p).entries.map (·.2.kpage))
    pure (s.gone p)

end Vm

/-- The state after booting: no processes, and every page and every slot free. -/
def vmInit (m : Machine) : Vm where
  pc _ := none
  supt _ := ∅
  pagedir _ := ∅
  nextPid := 0
  lock := none
  used _ := false
  pages := m.memory
  frames _ := none
  frameMap _ := none
  frameList := []
  nextFrame := 0
  swap := ⟨fun _ => true, m.device⟩
  log := []

/-- The states reached by steps that meet `C`. -/
def VmReachable (m : Machine) (C : Vm → VmAction → Prop) (s : Vm) : Prop :=
  Reachable (Vm.step m) C (vmInit m) s

end Pintos
