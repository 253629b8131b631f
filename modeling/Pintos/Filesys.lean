import Pintos.Bitmap
import Pintos.Inode

/-!
# The File System

The functions of `filesys/`: the free map, the table of open inodes, the root directory,
files, and the calls of `filesys.c`. Everything that survives a reboot is bytes on the
device; the free map, the open inodes and the open files are in memory. A call runs from
its beginning to its end. Every `malloc` and `calloc` in it may fail.

## Conventions

* An inode in memory and an open file are named by their addresses. Following the address
  of one that has been freed is reported as an error.
* Counters of openers are unbounded: every opener has a `struct file` or `struct dir`.
* The local variables that a function does not initialise have arbitrary contents.
-/

namespace Pintos

open Verif Bitmap

/-! ### Directory entries -/

/-- A string of the kernel: bytes without a terminator among them. -/
abbrev CString := { bytes : List UInt8 // 0 ∉ bytes }

/-- `NAME_MAX`. -/
def nameMax : ℕ := 14

/-- `sizeof (struct dir_entry)`: the sector, the name with its terminator, and `in_use`. -/
def dirEntrySize : ℕ := 20

/-- The bytes of a `struct dir_entry`. -/
abbrev DirEntry := ℕ → UInt8

namespace DirEntry

/-- `inode_sector`. -/
def inodeSector (e : DirEntry) : ℕ := word e

/-- `name`, up to its terminator. -/
def name (e : DirEntry) : List UInt8 :=
  ((List.range (nameMax + 1)).map fun i => e (4 + i)).takeWhile (· ≠ 0)

/-- `in_use`. -/
def inUse (e : DirEntry) : Bool := e 19 ≠ 0

/-- The entry after some bytes were read over it. -/
def overlay (e : DirEntry) (bytes : List UInt8) : DirEntry := fun i => bytes.getD i (e i)

/-- The entry that `dir_add` fills in; what follows the terminator of the name is what was
there before. -/
def fill (e : DirEntry) (name : List UInt8) (sector : ℕ) : DirEntry := fun i =>
  if i < 4 then byteOf sector i
  else if i < 4 + name.length then name.getD (i - 4) 0
  else if i = 4 + name.length then 0
  else if i = 19 then 1
  else e i

/-- The entry that `dir_remove` writes back. -/
def clear (e : DirEntry) : DirEntry := fun i => if i = 19 then 0 else e i

end DirEntry

/-! ### The state -/

/-- The address of a `struct inode`. -/
abbrev InodeRef := ℕ

/-- The address of a `struct file`. -/
abbrev FilePtr := ℕ

/-- `struct inode`. -/
structure Inode where
  ref : InodeRef
  sector : ℕ
  openCnt : ℤ
  removed : Bool
  denyWriteCnt : ℤ
  data : InodeDisk
  deriving DecidableEq, Repr

/-- `struct file`, without the semaphore. -/
structure File where
  ptr : FilePtr
  inode : InodeRef
  pos : ℕ
  denyWrite : Bool
  deriving DecidableEq, Repr

/-- The state of the file system. -/
structure Fs where
  device : Device
  freeMap : ℕ → Bool
  freeMapFile : Option FilePtr
  openInodes : List Inode
  files : List File
  /-- The next address that is given out. -/
  next : ℕ

/-- `FREE_MAP_SECTOR`. -/
def freeMapSector : ℕ := 0

/-- `ROOT_DIR_SECTOR`. -/
def rootDirSector : ℕ := 1

namespace Fs

/-- The inode at an address. -/
def inode (s : Fs) (r : InodeRef) : FsM Inode :=
  match s.openInodes.find? (·.ref = r) with
  | some i => pure i
  | none => OracleM.fail .dangling

/-- The file at an address. -/
def file (s : Fs) (p : FilePtr) : FsM File :=
  match s.files.find? (·.ptr = p) with
  | some f => pure f
  | none => OracleM.fail .dangling

/-- Store into an inode. -/
def setInode (s : Fs) (i : Inode) : Fs :=
  { s with openInodes := s.openInodes.map fun j => if j.ref = i.ref then i else j }

/-- Store into a file. -/
def setFile (s : Fs) (f : File) : Fs :=
  { s with files := s.files.map fun g => if g.ptr = f.ptr then f else g }

/-- `inode_read_at`. -/
def inodeReadAt (s : Fs) (r : InodeRef) (size : ℤ) (offset : ℕ) : FsM (List UInt8) := do
  let i ← s.inode r
  s.device.inodeReadAt i.data size offset

/-- `inode_write_at`. -/
def inodeWriteAt (s : Fs) (r : InodeRef) (buffer : ℕ → UInt8) (size : ℤ) (offset : ℕ) :
    FsM (ℕ × Fs) := do
  let i ← s.inode r
  if i.denyWriteCnt ≠ 0 then
    return (0, s)
  let (n, device) ← s.device.inodeWriteAt i.data buffer size offset
  return (n, { s with device := device })

/-- `file_read_at`. -/
def fileReadAt (s : Fs) (p : FilePtr) (size : ℤ) (fileOfs : ℕ) : FsM (List UInt8) := do
  let f ← s.file p
  s.inodeReadAt f.inode size fileOfs

/-- `file_write_at`. -/
def fileWriteAt (s : Fs) (p : FilePtr) (buffer : ℕ → UInt8) (size : ℤ) (fileOfs : ℕ) :
    FsM (ℕ × Fs) := do
  let f ← s.file p
  s.inodeWriteAt f.inode buffer size fileOfs

/-! ### The free map -/

/-- `bitmap_write (free_map, free_map_file)`. -/
def bitmapWrite (s : Fs) (p : FilePtr) : FsM (Bool × Fs) := do
  let size := byteCnt s.device.size
  let (n, s) ← s.fileWriteAt p (bytes s.freeMap) size 0
  return (n = size, s)

/-- `free_map_allocate`. -/
def freeMapAllocate (s : Fs) (cnt : ℕ) : FsM (Option ℕ × Fs) :=
  match scan s.freeMap s.device.size cnt false with
  | none => return (none, s)
  | some sector =>
    let s := { s with freeMap := setMultiple s.freeMap sector cnt true }
    match s.freeMapFile with
    | none => return (some sector, s)
    | some p => do
      let (written, s) ← s.bitmapWrite p
      if written then
        return (some sector, s)
      else
        return (none, { s with freeMap := setMultiple s.freeMap sector cnt false })

/-- `free_map_release`. -/
def freeMapRelease (s : Fs) (sector cnt : ℕ) : FsM Fs := do
  OracleM.assert (sector + cnt ≤ s.device.size) .bitmapRange
  OracleM.assert (all s.freeMap sector cnt = true) .bitmapAll
  let s := { s with freeMap := setMultiple s.freeMap sector cnt false }
  match s.freeMapFile with
  | none => OracleM.fail .dangling
  | some p => do
    let (_, s) ← s.bitmapWrite p
    return s

/-! ### Inodes -/

/-- The loop of `inode_create` that fills the data with zeros. -/
def zeroFill (dev : Device) (start : ℕ) : ℕ → FsM Device
  | 0 => return dev
  | n + 1 => do
    let dev ← zeroFill dev start n
    dev.blockWrite ((start + n) % 2 ^ 32) zeros

/-- `inode_create`. -/
def inodeCreate (s : Fs) (sector : ℕ) (length : ℤ) : FsM (Bool × Fs) := do
  OracleM.assert (0 ≤ length) .lengthNegative
  let memory ← malloc
  if memory = false then
    return (false, s)
  let sectors := bytesToSectors length
  let (start, s) ← s.freeMapAllocate sectors
  match start with
  | none => return (false, s)
  | some start => do
    let device ← s.device.blockWrite sector (InodeDisk.encode ⟨start, length, inodeMagic⟩)
    let device ← zeroFill device start sectors
    return (true, { s with device := device })

/-- `inode_reopen`. -/
def inodeReopen (s : Fs) (r : InodeRef) : FsM Fs := do
  let i ← s.inode r
  return s.setInode { i with openCnt := i.openCnt + 1 }

/-- `inode_open`. -/
def inodeOpen (s : Fs) (sector : ℕ) : FsM (Option InodeRef × Fs) :=
  match s.openInodes.find? (·.sector = sector) with
  | some i => do
    let s ← s.inodeReopen i.ref
    return (some i.ref, s)
  | none => do
    let memory ← malloc
    if memory = false then
      return (none, s)
    let block ← s.device.blockRead sector
    let i : Inode := ⟨s.next, sector, 1, false, 0, .decode block⟩
    return (some s.next, { s with openInodes := i :: s.openInodes, next := s.next + 1 })

/-- `inode_close`. -/
def inodeClose (s : Fs) (r : InodeRef) : FsM Fs := do
  let i ← s.inode r
  if i.openCnt - 1 = 0 then
    let s := { s with openInodes := s.openInodes.filter (·.ref ≠ r) }
    if i.removed then
      let s ← s.freeMapRelease i.sector 1
      s.freeMapRelease i.data.start (bytesToSectors i.data.length)
    else
      return s
  else
    return s.setInode { i with openCnt := i.openCnt - 1 }

/-- `inode_remove`. -/
def inodeRemove (s : Fs) (r : InodeRef) : FsM Fs := do
  let i ← s.inode r
  return s.setInode { i with removed := true }

/-- `inode_deny_write`. -/
def inodeDenyWrite (s : Fs) (r : InodeRef) : FsM Fs := do
  let i ← s.inode r
  OracleM.assert (i.denyWriteCnt + 1 ≤ i.openCnt) .denyWrite
  return s.setInode { i with denyWriteCnt := i.denyWriteCnt + 1 }

/-- `inode_allow_write`. -/
def inodeAllowWrite (s : Fs) (r : InodeRef) : FsM Fs := do
  let i ← s.inode r
  OracleM.assert (0 < i.denyWriteCnt) .allowWrite
  OracleM.assert (i.denyWriteCnt ≤ i.openCnt) .denyWrite
  return s.setInode { i with denyWriteCnt := i.denyWriteCnt - 1 }

/-! ### Files -/

/-- `file_open`. -/
def fileOpen (s : Fs) (inode : Option InodeRef) : FsM (Option FilePtr × Fs) := do
  let memory ← malloc
  match inode with
  | none => return (none, s)
  | some r =>
    if memory then
      return (some s.next,
        { s with files := ⟨s.next, r, 0, false⟩ :: s.files, next := s.next + 1 })
    else
      let s ← s.inodeClose r
      return (none, s)

/-- `file_reopen`. -/
def fileReopen (s : Fs) (p : FilePtr) : FsM (Option FilePtr × Fs) := do
  let f ← s.file p
  let s ← s.inodeReopen f.inode
  s.fileOpen (some f.inode)

/-- `file_deny_write`. -/
def fileDenyWrite (s : Fs) (p : FilePtr) : FsM Fs := do
  let f ← s.file p
  if f.denyWrite then
    return s
  (s.setFile { f with denyWrite := true }).inodeDenyWrite f.inode

/-- `file_allow_write`. -/
def fileAllowWrite (s : Fs) (p : FilePtr) : FsM Fs := do
  let f ← s.file p
  if f.denyWrite then
    (s.setFile { f with denyWrite := false }).inodeAllowWrite f.inode
  else
    return s

/-- `file_close`; nothing follows the pointer after the inode was taken from the file, so it
can be freed before the inode is closed. -/
def fileClose (s : Fs) (p : FilePtr) : FsM Fs := do
  let s ← s.fileAllowWrite p
  let f ← s.file p
  let s := { s with files := s.files.filter (·.ptr ≠ p) }
  s.inodeClose f.inode

/-- `file_read`. -/
def fileRead (s : Fs) (p : FilePtr) (size : ℤ) : FsM (List UInt8 × Fs) := do
  let f ← s.file p
  let bytes ← s.inodeReadAt f.inode size f.pos
  return (bytes, s.setFile { f with pos := f.pos + bytes.length })

/-- `file_write`. -/
def fileWrite (s : Fs) (p : FilePtr) (buffer : ℕ → UInt8) (size : ℤ) : FsM (ℕ × Fs) := do
  let f ← s.file p
  let (n, s) ← s.inodeWriteAt f.inode buffer size f.pos
  return (n, s.setFile { f with pos := f.pos + n })

/-- `file_seek`. -/
def fileSeek (s : Fs) (p : FilePtr) (newPos : ℤ) : FsM Fs := do
  let f ← s.file p
  OracleM.assert (0 ≤ newPos) .seekNegative
  return s.setFile { f with pos := newPos.toNat }

/-! ### The root directory -/

/-- `dir_create`; the product is converted to an `off_t`. -/
def dirCreate (s : Fs) (sector entryCnt : ℕ) : FsM (Bool × Fs) :=
  s.inodeCreate sector (int32 (entryCnt * dirEntrySize : ℕ))

/-- `dir_open_root`. -/
def dirOpenRoot (s : Fs) : FsM (Option InodeRef × Fs) := do
  let (inode, s) ← s.inodeOpen rootDirSector
  let memory ← malloc
  match inode with
  | none => return (none, s)
  | some r =>
    if memory then
      return (some r, s)
    else
      let s ← s.inodeClose r
      return (none, s)

/-- The loop of `lookup`: the entry with the name, and its offset. -/
def lookupLoop (s : Fs) (dir : InodeRef) (name : CString) :
    (fuel : ℕ) → (ofs : ℕ) → FsM (Option (DirEntry × ℕ))
  | 0, _ => return none
  | fuel + 1, ofs => do
    let bytes ← s.inodeReadAt dir dirEntrySize ofs
    if bytes.length ≠ dirEntrySize then
      return none
    let e := DirEntry.overlay (fun _ => 0) bytes
    if e.inUse ∧ name.1 = e.name then
      return some (e, ofs)
    else
      lookupLoop s dir name fuel (ofs + dirEntrySize)

/-- How many entries there is room for in a directory. -/
def entryCnt (d : InodeDisk) : ℕ := d.length.toNat / dirEntrySize

/-- `lookup`; the read after the last entry is short. -/
def lookup (s : Fs) (dir : InodeRef) (name : CString) : FsM (Option (DirEntry × ℕ)) := do
  let i ← s.inode dir
  s.lookupLoop dir name (entryCnt i.data + 1) 0

/-- `dir_lookup`. -/
def dirLookup (s : Fs) (dir : InodeRef) (name : CString) : FsM (Option InodeRef × Fs) := do
  let found ← s.lookup dir name
  match found with
  | none => return (none, s)
  | some (e, _) => s.inodeOpen e.inodeSector

/-- The loop of `dir_add` that looks for a free slot: the entry that was read last, and the
offset it ended with. -/
def freeSlotLoop (s : Fs) (dir : InodeRef) :
    (fuel : ℕ) → (e : DirEntry) → (ofs : ℕ) → FsM (DirEntry × ℕ)
  | 0, e, ofs => return (e, ofs)
  | fuel + 1, e, ofs => do
    let bytes ← s.inodeReadAt dir dirEntrySize ofs
    let e := e.overlay bytes
    if bytes.length = dirEntrySize ∧ e.inUse = true then
      freeSlotLoop s dir fuel e (ofs + dirEntrySize)
    else
      return (e, ofs)

/-- `dir_add`; `stack` is what is in the local variable `e` before it is read. -/
def dirAdd (s : Fs) (dir : InodeRef) (name : CString) (sector : ℕ) (stack : DirEntry) :
    FsM (Bool × Fs) := do
  if name.1 = [] ∨ nameMax < name.1.length then
    return (false, s)
  let found ← s.lookup dir name
  if found.isSome then
    return (false, s)
  let i ← s.inode dir
  let (e, ofs) ← s.freeSlotLoop dir (entryCnt i.data + 1) stack 0
  let (n, s) ← s.inodeWriteAt dir (e.fill name.1 sector) dirEntrySize ofs
  return (n = dirEntrySize, s)

/-- `dir_remove`. -/
def dirRemove (s : Fs) (dir : InodeRef) (name : CString) : FsM (Bool × Fs) := do
  let found ← s.lookup dir name
  match found with
  | none => return (false, s)
  | some (e, ofs) => do
    let (inode, s) ← s.inodeOpen e.inodeSector
    match inode with
    | none => return (false, s)
    | some r => do
      let (n, s) ← s.inodeWriteAt dir e.clear dirEntrySize ofs
      if n = dirEntrySize then
        let s ← s.inodeRemove r
        let s ← s.inodeClose r
        return (true, s)
      else
        let s ← s.inodeClose r
        return (false, s)

/-- The loop of `dir_readdir`: the name that it finds, and the position it ends with. -/
def readdirLoop (s : Fs) (dir : InodeRef) : (fuel : ℕ) → (pos : ℕ) → FsM (Option (List UInt8) × ℕ)
  | 0, pos => return (none, pos)
  | fuel + 1, pos => do
    let bytes ← s.inodeReadAt dir dirEntrySize pos
    if bytes.length ≠ dirEntrySize then
      return (none, pos)
    let e := DirEntry.overlay (fun _ => 0) bytes
    if e.inUse then
      return (some (e.name.take nameMax), pos + dirEntrySize)
    else
      readdirLoop s dir fuel (pos + dirEntrySize)

/-- `dir_readdir`, from a position on. -/
def dirReaddir (s : Fs) (dir : InodeRef) (pos : ℕ) : FsM (Option (List UInt8) × ℕ) := do
  let i ← s.inode dir
  s.readdirLoop dir (entryCnt i.data + 1) pos

/-! ### The calls -/

/-- The rest of `filesys_create`, once there is a sector for the inode. -/
def createAt (s : Fs) (dir : InodeRef) (inodeSector : ℕ) (name : CString) (initialSize : ℤ)
    (stack : DirEntry) : FsM (Bool × Fs) := do
  let (created, s) ← s.inodeCreate inodeSector initialSize
  let (success, s) ← if created then s.dirAdd dir name inodeSector stack else pure (false, s)
  let s ← if success = false ∧ inodeSector ≠ 0 then s.freeMapRelease inodeSector 1 else pure s
  let s ← s.inodeClose dir
  return (success, s)

/-- `filesys_create`. -/
def filesysCreate (s : Fs) (name : CString) (initialSize : ℤ) (stack : DirEntry) :
    FsM (Bool × Fs) := do
  let (dir, s) ← s.dirOpenRoot
  match dir with
  | none => return (false, s)
  | some dir => do
    let (sector, s) ← s.freeMapAllocate 1
    match sector with
    | none => do
      let s ← s.inodeClose dir
      return (false, s)
    | some inodeSector => s.createAt dir inodeSector name initialSize stack

/-- `filesys_open`. -/
def filesysOpen (s : Fs) (name : CString) : FsM (Option FilePtr × Fs) := do
  let (dir, s) ← s.dirOpenRoot
  match dir with
  | none => s.fileOpen none
  | some dir => do
    let (inode, s) ← s.dirLookup dir name
    let s ← s.inodeClose dir
    s.fileOpen inode

/-- `filesys_remove`. -/
def filesysRemove (s : Fs) (name : CString) : FsM (Bool × Fs) := do
  let (dir, s) ← s.dirOpenRoot
  match dir with
  | none => return (false, s)
  | some dir => do
    let (success, s) ← s.dirRemove dir name
    let s ← s.inodeClose dir
    return (success, s)

/-! ### Formatting -/

/-- `free_map_init`; `junk` is what is in the memory that `bitmap_create` gets. -/
def freeMapInit (device : Device) (junk : ℕ → Bool) : FsM Fs := do
  let memory ← malloc
  OracleM.assert (memory = true) .format
  let memory ← malloc
  -- `malloc (0)` returns no memory
  OracleM.assert (memory = true ∧ byteCnt device.size ≠ 0 ∨ device.size = 0) .format
  let freeMap := setMultiple junk 0 device.size false
  let freeMap := Function.update (Function.update freeMap freeMapSector true) rootDirSector true
  return ⟨device, freeMap, none, [], [], 0⟩

/-- `free_map_file = file_open (inode_open (FREE_MAP_SECTOR))`. -/
def freeMapFileOpen (s : Fs) : FsM (FilePtr × Fs) := do
  let (inode, s) ← s.inodeOpen freeMapSector
  let (file, s) ← s.fileOpen inode
  match file with
  | none => OracleM.fail .format
  | some p => return (p, { s with freeMapFile := some p })

/-- `free_map_create`. -/
def freeMapCreate (s : Fs) : FsM (FilePtr × Fs) := do
  let (created, s) ← s.inodeCreate freeMapSector (byteCnt s.device.size)
  OracleM.assert (created = true) .format
  let (p, s) ← s.freeMapFileOpen
  let (written, s) ← s.bitmapWrite p
  OracleM.assert (written = true) .format
  return (p, s)

/-- `do_format`. -/
def doFormat (s : Fs) : FsM Fs := do
  let (p, s) ← s.freeMapCreate
  let (created, s) ← s.dirCreate rootDirSector 16
  OracleM.assert (created = true) .format
  s.fileClose p

/-- `free_map_open`. -/
def freeMapOpen (s : Fs) : FsM Fs := do
  let (p, s) ← s.freeMapFileOpen
  let size := byteCnt s.device.size
  let bytes ← s.fileReadAt p size 0
  OracleM.assert (bytes.length = size) .format
  return { s with freeMap := ofBytes s.device.size bytes }

/-- `filesys_init`, with formatting. -/
def filesysInit (device : Device) (junk : ℕ → Bool) : FsM Fs := do
  let s ← freeMapInit device junk
  let s ← s.doFormat
  s.freeMapOpen

/-- `filesys_init`, without formatting. -/
def filesysMount (device : Device) (junk : ℕ → Bool) : FsM Fs := do
  let s ← freeMapInit device junk
  s.freeMapOpen

end Fs

/-! ### Runs -/

/-- A call of the file system. -/
inductive FsOp where
  | create (name : CString) (initialSize : ℤ) (stack : DirEntry)
  | openFile (name : CString)
  | remove (name : CString)
  | reopen (p : FilePtr)
  | close (p : FilePtr)
  | read (p : FilePtr) (size : ℤ)
  | write (p : FilePtr) (buffer : ℕ → UInt8) (size : ℤ)
  | readAt (p : FilePtr) (size : ℤ) (fileOfs : ℕ)
  | writeAt (p : FilePtr) (buffer : ℕ → UInt8) (size : ℤ) (fileOfs : ℕ)
  | seek (p : FilePtr) (newPos : ℤ)
  | denyWrite (p : FilePtr)
  | allowWrite (p : FilePtr)

/-- The file that a call is about. -/
def FsOp.file : FsOp → Option FilePtr
  | create _ _ _ | openFile _ | remove _ => none
  | reopen p | close p | read p _ | write p _ _ | readAt p _ _ | writeAt p _ _ _ | seek p _
  | denyWrite p | allowWrite p => some p

/-- A call, and what its allocations of memory are answered. -/
structure FsCall where
  op : FsOp
  answers : List Bool

namespace Fs

/-- What a call does; its sizes are `off_t`. -/
def perform (s : Fs) : FsOp → FsM Fs
  | .create name size stack => do
    let (_, s) ← s.filesysCreate name (int32 size) stack
    return s
  | .openFile name => do
    let (_, s) ← s.filesysOpen name
    return s
  | .remove name => do
    let (_, s) ← s.filesysRemove name
    return s
  | .reopen p => do
    let (_, s) ← s.fileReopen p
    return s
  | .close p => s.fileClose p
  | .read p size => do
    let (_, s) ← s.fileRead p (int32 size)
    return s
  | .write p buffer size => do
    let (_, s) ← s.fileWrite p buffer (int32 size)
    return s
  | .readAt p size fileOfs => do
    let _ ← s.fileReadAt p (int32 size) fileOfs
    return s
  | .writeAt p buffer size fileOfs => do
    let (_, s) ← s.fileWriteAt p buffer (int32 size) fileOfs
    return s
  | .seek p newPos => s.fileSeek p (int32 newPos)
  | .denyWrite p => s.fileDenyWrite p
  | .allowWrite p => s.fileAllowWrite p

/-- The file is open, and not the one of the free map. -/
def IsOpen (s : Fs) (p : FilePtr) : Prop := (∃ f ∈ s.files, f.ptr = p) ∧ s.freeMapFile ≠ some p

instance (s : Fs) (p : FilePtr) : Decidable (s.IsOpen p) :=
  inferInstanceAs (Decidable ((∃ f ∈ s.files, f.ptr = p) ∧ s.freeMapFile ≠ some p))

/-- A call by someone who has the file open that the call is about. -/
def step (s : Fs) (c : FsCall) : Outcome FsPanic Fs := do
  Outcome.require (∀ p ∈ c.op.file, s.IsOpen p)
  let (s, _) ← s.perform c.op c.answers
  return s

end Fs

/-- The states reached from a freshly formatted device. -/
def FsReachable (s : Fs) : Prop :=
  ∃ device junk answers s₀ rest, Fs.filesysInit device junk answers = .ok (s₀, rest) ∧
    Reachable Fs.step (fun _ _ => True) s₀ s

end Pintos
