import Pintos.Filesys
import Pintos.Vm

/-!
# File Descriptors

The system calls of `userprog/syscall.c` that work on open files, and the closing of files
in `process_exit`. A process keeps its open files twice: `file_list` has the files with
their descriptors, and `file_bitmap` says which descriptors are taken. The calls are made
by one process; between them, other processes call the file system, on files of their own.

## Conventions

* The bytes that `read` and `write` move are those of the model of the file system; whether
  the user's pages are present is not modelled here.
* Nobody else uses a `struct file` of the process, so the semaphore in it never blocks and
  is left out.
* The history of the process, the latest event first, records which file each call was
  about. It is a ghost.
-/

namespace Pintos

open Verif OracleM

/-- How a system call on files can bring the kernel down. -/
inductive SysPanic where
  /-- The file system fails an assertion. -/
  | fs (e : FsPanic)
  /-- `ASSERT (b != NULL)` of a bitmap. -/
  | bitmapNull
  /-- `ASSERT (start + cnt <= b->bit_cnt)` or `ASSERT (idx < b->bit_cnt)`. -/
  | bitmapRange
  /-- `item->fd` for an `item` that could not be allocated. -/
  | nullItem
  deriving DecidableEq, Repr

/-- System calls may fail assertions, and ask for memory. -/
abbrev SysM := OracleM SysPanic

/-- A function of the file system, called by a system call. -/
def fsCall {α : Type} (x : FsM α) : SysM α := x.liftPanic .fs

/-- `struct list_item`. -/
structure ListItem where
  fd : ℤ
  f : FilePtr
  deriving DecidableEq, Repr

/-- `file_list` and `file_bitmap` of a thread. -/
structure Descriptors where
  fileList : List ListItem
  fileBitmap : Option (ℕ → Bool)

/-- The bits of `file_bitmap`. -/
def fileBits : ℕ := 64

/-- The conversion to `size_t`. -/
def sizeT (n : ℤ) : ℕ := (n % 2 ^ 32).toNat

/-! ### The bitmap -/

/-- `bitmap_count (b, start, 1, false)`. -/
def bitmapCount (b : Option (ℕ → Bool)) (start : ℕ) : SysM ℕ :=
  match b with
  | none => fail .bitmapNull
  | some b => do
    assert (start ≤ fileBits) .bitmapRange
    assert (start + 1 ≤ fileBits) .bitmapRange
    return if b start = false then 1 else 0

/-- `bitmap_set`. -/
def bitmapSet (b : ℕ → Bool) (idx : ℕ) (value : Bool) : SysM (ℕ → Bool) := do
  assert (idx < fileBits) .bitmapRange
  return Function.update b idx value

/-- The bitmap, created when there is none; `bitmap_create` allocates twice. -/
def fileBitmap (b : Option (ℕ → Bool)) : SysM (ℕ → Bool) :=
  match b with
  | some b => return b
  | none => do
    let memory ← draw
    assert (memory = true) .bitmapNull
    let memory ← draw
    assert (memory = true) .bitmapNull
    let b ← bitmapSet (fun _ => false) 0 true
    bitmapSet b 1 true

/-- The loop of `open`: the first descriptor that is free, or `-1`. -/
def takeFd (b : ℕ → Bool) : ℤ × (ℕ → Bool) :=
  match (List.range' 2 62).find? fun i => b i = false with
  | some i => (i, Function.update b i true)
  | none => (-1, b)

/-! ### The system calls -/

namespace Descriptors

/-- The item that a search of `file_list` ends with. -/
def item (d : Descriptors) (fd : ℤ) : Option ListItem := d.fileList.find? (·.fd = fd)

end Descriptors

/-- What a call did: which file it was about, and what it returned. -/
inductive FdEvent where
  | opened (fd : ℤ) (f : FilePtr)
  | openFailed
  /-- An operation on the descriptor was carried out on the file. -/
  | acted (fd : ℤ) (f : FilePtr)
  /-- An operation on a descriptor without a file. -/
  | missed (fd : ℤ)
  | closed (fd : ℤ) (f : FilePtr)
  /-- Input from the keyboard or output to the console. -/
  | console
  | exited
  deriving DecidableEq, Repr

/-- What a call leaves: the file system, the descriptors, and what it did. -/
abbrev FdResult := Fs × Descriptors × FdEvent

/-- `if (thread_findname_foreach (file)) file_deny_write (item->f)`. -/
def denyNamed (s : Fs) (named : Bool) (f : FilePtr) : SysM Fs :=
  if named then fsCall (s.fileDenyWrite f) else pure s

/-- `open`; `named` is what `thread_findname_foreach` answers. -/
def sysOpen (s : Fs) (d : Descriptors) (file : Option CString) (named : Bool) : SysM FdResult :=
  match file with
  | none => return (s, d, .openFailed)
  | some name => do
    let (f, s) ← fsCall (s.filesysOpen name)
    match f with
    | none => return (s, d, .openFailed)
    | some f => do
      let b ← fileBitmap d.fileBitmap
      let (fd, b) := takeFd b
      let memory ← draw
      assert (memory = true) .nullItem
      let d := ⟨d.fileList ++ [⟨fd, f⟩], some b⟩
      let s ← denyNamed s named f
      return (s, d, .opened fd f)

/-- The search for a descriptor, and what is done with its file. -/
def onItem (s : Fs) (d : Descriptors) (fd : ℤ) (act : FilePtr → FsM Fs) : SysM FdResult :=
  match d.item fd with
  | none => return (s, d, .missed fd)
  | some item => do
    let s ← fsCall (act item.f)
    return (s, d, .acted fd item.f)

/-- The calls that look at the bitmap before they search for the descriptor. -/
def onTaken (s : Fs) (d : Descriptors) (fd : ℤ) (act : FilePtr → FsM Fs) : SysM FdResult := do
  let count ← bitmapCount d.fileBitmap (sizeT fd)
  if count = 1 then
    return (s, d, .missed fd)
  onItem s d fd act

/-- `filesize`. -/
def sysFilesize (s : Fs) (d : Descriptors) (fd : ℤ) : SysM FdResult :=
  onTaken s d fd fun p => do
    let f ← s.file p
    let _ ← s.inode f.inode
    return s

/-- `seek`. -/
def sysSeek (s : Fs) (d : Descriptors) (fd : ℤ) (position : ℤ) : SysM FdResult :=
  onTaken s d fd fun p => s.fileSeek p (int32 position)

/-- `tell`. -/
def sysTell (s : Fs) (d : Descriptors) (fd : ℤ) : SysM FdResult :=
  onTaken s d fd fun p => do
    let _ ← s.file p
    return s

/-- The loop of `process_exit` that closes the files. -/
def closeAll (s : Fs) : List ListItem → SysM Fs
  | [] => return s
  | item :: items => do
    let s ← fsCall (s.fileClose item.f)
    closeAll s items

/-- `exit`, as far as the files are concerned. -/
def sysExit (s : Fs) (d : Descriptors) : SysM FdResult := do
  let s ← closeAll s d.fileList
  return (s, ⟨[], none⟩, .exited)

/-- `read`. -/
def sysRead (s : Fs) (d : Descriptors) (fd : ℤ) (buffer : ℕ) (size : ℤ) : SysM FdResult :=
  if ¬buffer < physBase then
    sysExit s d
  else if fd = 0 then
    return (s, d, .console)
  else
    onItem s d fd fun p => do
      let (_, s) ← s.fileRead p (int32 size)
      return s

/-- `write`; `data` is what is in the user's memory. -/
def sysWrite (s : Fs) (d : Descriptors) (fd : ℤ) (buffer : ℕ) (data : ℕ → UInt8) (size : ℤ) :
    SysM FdResult :=
  if ¬buffer < physBase then
    sysExit s d
  else if fd = 1 then
    return (s, d, .console)
  else
    onItem s d fd fun p => do
      let (_, s) ← s.fileWrite p data (int32 size)
      return s

/-- Closing the descriptor 0 or 1 clears its bit. -/
def clearConsole (b : ℕ → Bool) (fd : ℤ) : SysM (ℕ → Bool) :=
  if fd = 0 ∨ fd = 1 then bitmapSet b (sizeT fd) false else pure b

/-- `close`. -/
def sysClose (s : Fs) (d : Descriptors) (fd : ℤ) : SysM FdResult := do
  let b ← fileBitmap d.fileBitmap
  let b ← clearConsole b fd
  match d.item fd with
  | none => return (s, ⟨d.fileList, some b⟩, .missed fd)
  | some item => do
    let s ← fsCall (s.fileClose item.f)
    let b ← bitmapSet b (sizeT item.fd) false
    return (s, ⟨d.fileList.eraseP (·.fd = fd), some b⟩, .closed fd item.f)

/-! ### Runs -/

/-- A system call. -/
inductive FdOp where
  | openFile (file : Option CString) (named : Bool)
  | close (fd : ℤ)
  | read (fd : ℤ) (buffer : ℕ) (size : ℤ)
  | write (fd : ℤ) (buffer : ℕ) (data : ℕ → UInt8) (size : ℤ)
  | seek (fd : ℤ) (position : ℤ)
  | tell (fd : ℤ)
  | filesize (fd : ℤ)

/-- What a system call does. -/
def FdOp.perform (s : Fs) (d : Descriptors) : FdOp → SysM FdResult
  | openFile file named => sysOpen s d file named
  | close fd => sysClose s d fd
  | read fd buffer size => sysRead s d fd buffer size
  | write fd buffer data size => sysWrite s d fd buffer data size
  | seek fd position => sysSeek s d fd position
  | tell fd => sysTell s d fd
  | filesize fd => sysFilesize s d fd

/-- A process, its history, and the file system. -/
structure FdState where
  fs : Fs
  desc : Descriptors
  log : List FdEvent

/-- A system call of the process, or a call of the file system by somebody else. -/
inductive FdAction where
  | call (op : FdOp) (answers : List Bool)
  | other (c : FsCall)

namespace FdState

/-- A step. Others work on files of their own, and a process that has exited does nothing. -/
def step (s : FdState) : FdAction → Outcome SysPanic FdState
  | .call op answers => do
    Outcome.require (.exited ∉ s.log)
    let ((fs, desc, e), _) ← op.perform s.fs s.desc answers
    return ⟨fs, desc, e :: s.log⟩
  | .other c => do
    Outcome.require (∀ p ∈ c.op.file, s.fs.IsOpen p ∧ ∀ item ∈ s.desc.fileList, item.f ≠ p)
    let (fs, _) ← fsCall (s.fs.perform c.op) c.answers
    return { s with fs := fs }

end FdState

/-- A process that has not opened any files yet. -/
def FdInitial (s : FdState) : Prop := FsReachable s.fs ∧ s.desc = ⟨[], none⟩ ∧ s.log = []

end Pintos
