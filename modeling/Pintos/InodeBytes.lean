import Pintos.FreeMap
import Pintos.Keyed

/-!
# Inodes as Byte Arrays

What a file is for is an array of bytes with a position for each opener. `inode_read_at` and
`inode_write_at` cut a request at the boundaries of sectors; here they are compared with reading
from a list of bytes and splicing it, and `file_read` and `file_write` with doing so at a position
that advances. The comparison is about whole sequences of calls, so that every read finds what was
written before it.

## Main results

* `transferLoop_fuel`: the loops end, however long they may take.
* `Fs.ioStep_spec`: one call does what it does to a byte array, and leaves all else alone.
* `inodeIo_refines_bytes`: so does every sequence of calls.
-/

namespace Pintos

open Verif Function

/-! ### The abstract file -/

/-- The bytes of a file, and the positions of those that have opened it. -/
structure ByteFile where
  bytes : List UInt8
  pos : FilePtr → ℕ

/-- A call that reads or writes an inode, or a file that was opened on it. -/
inductive IoOp where
  | inodeRead (size : ℤ) (offset : ℕ)
  | inodeWrite (buffer : ℕ → UInt8) (size : ℤ) (offset : ℕ)
  | fileRead (p : FilePtr) (size : ℤ)
  | fileWrite (p : FilePtr) (buffer : ℕ → UInt8) (size : ℤ)

/-- What a call returns: the bytes that it has put in the buffer, or the number of those that it
has written. -/
inductive IoResult where
  | read (bytes : List UInt8)
  | written (n : ℕ)

namespace ByteFile

/-- How many bytes of a request lie in the file. -/
def count (b : ByteFile) (size : ℤ) (offset : ℕ) : ℕ := min size.toNat (b.bytes.length - offset)

/-- The bytes that a request is about. -/
def read (b : ByteFile) (size : ℤ) (offset : ℕ) : List UInt8 :=
  (b.bytes.drop offset).take size.toNat

/-- The file with the first bytes of a buffer in the place of its own. -/
def write (b : ByteFile) (buffer : ℕ → UInt8) (size : ℤ) (offset : ℕ) : ByteFile :=
  { b with bytes := splice b.bytes offset ((List.range size.toNat).map buffer) }

/-- A position advances. -/
def advance (b : ByteFile) (p : FilePtr) (n : ℕ) : ByteFile :=
  { b with pos := update b.pos p (b.pos p + n) }

/-- **What the calls are for.** -/
def step (b : ByteFile) : IoOp → IoResult × ByteFile
  | .inodeRead size offset => (.read (b.read size offset), b)
  | .inodeWrite buffer size offset =>
    (.written (b.count size offset), b.write buffer size offset)
  | .fileRead p size => (.read (b.read size (b.pos p)), b.advance p (b.count size (b.pos p)))
  | .fileWrite p buffer size =>
    (.written (b.count size (b.pos p)),
      (b.write buffer size (b.pos p)).advance p (b.count size (b.pos p)))

/-- A sequence of calls. -/
def run (b : ByteFile) : List IoOp → List IoResult × ByteFile
  | [] => ([], b)
  | op :: ops =>
    let (res, b) := b.step op
    let (results, b) := b.run ops
    (res :: results, b)

theorem run_cons (b : ByteFile) (op : IoOp) (ops : List IoOp) : b.run (op :: ops) =
    ((b.step op).1 :: ((b.step op).2.run ops).1, ((b.step op).2.run ops).2) := rfl

theorem length_read (b : ByteFile) (size : ℤ) (offset : ℕ) :
    (b.read size offset).length = b.count size offset := by
  rw [read, List.length_take, List.length_drop, count]

end ByteFile

/-! ### The calls -/

/-- The bytes of a file on the device. -/
def Device.contents (dev : Device) (d : InodeDisk) : List UInt8 :=
  slice dev.disk d.start 0 d.length.toNat

namespace Fs

/-- One call. -/
def ioStep (s : Fs) (x : InodeRef) : IoOp → FsM (IoResult × Fs)
  | .inodeRead size offset => do
    let bytes ← s.inodeReadAt x size offset
    return (.read bytes, s)
  | .inodeWrite buffer size offset => do
    let (n, s) ← s.inodeWriteAt x buffer size offset
    return (.written n, s)
  | .fileRead p size => do
    let (bytes, s) ← s.fileRead p size
    return (.read bytes, s)
  | .fileWrite p buffer size => do
    let (n, s) ← s.fileWrite p buffer size
    return (.written n, s)

/-- A sequence of calls. -/
def io (s : Fs) (x : InodeRef) : List IoOp → FsM (List IoResult × Fs)
  | [] => return ([], s)
  | op :: ops => do
    let (res, s) ← s.ioStep x op
    let (results, s) ← s.io x ops
    return (res :: results, s)

/-- The inode that a file was opened on. -/
def inodeOf (s : Fs) (p : FilePtr) : Option InodeRef :=
  (s.files.find? (·.ptr = p)).map (·.inode)

/-- The position of a file. -/
def posOf (s : Fs) (p : FilePtr) : ℕ := ((s.files.find? (·.ptr = p)).map (·.pos)).getD 0

/-- The abstract file that an inode stands for. -/
def byteFile (s : Fs) (d : InodeDisk) : ByteFile := ⟨s.device.contents d, s.posOf⟩

end Fs

/-- The call is one on the inode, or on a file that was opened on it. -/
def IoOp.On (s : Fs) (x : InodeRef) : IoOp → Prop
  | inodeRead _ _ | inodeWrite _ _ _ => True
  | fileRead p _ | fileWrite p _ _ => s.inodeOf p = some x

/-- The call writes. -/
def IoOp.writes : IoOp → Bool
  | inodeRead _ _ | fileRead _ _ => false
  | inodeWrite _ _ _ | fileWrite _ _ _ => true

/-- The sector is one that a byte of the file lies in. -/
def InodeDisk.HasSector (d : InodeDisk) (k : ℕ) : Prop :=
  d.start ≤ k ∧ k < d.start + (d.length.toNat + (blockSectorSize - 1)) / blockSectorSize

/-- Nothing but the bytes of one file and the positions in it has changed. -/
structure Fs.IoKeeps (d : InodeDisk) (s s' : Fs) : Prop where
  openInodes : s'.openInodes = s.openInodes
  inodeOf : s'.inodeOf = s.inodeOf
  freeMap : s'.freeMap = s.freeMap
  freeMapFile : s'.freeMapFile = s.freeMapFile
  next : s'.next = s.next
  size : s'.device.size = s.device.size
  outside : ∀ k, ¬d.HasSector k → s'.device.disk k = s.device.disk k

/-! ### The loops end -/

/-- **The loop of a transfer ends** after at most as many rounds as there are bytes to transfer:
more rounds change nothing. -/
theorem transferLoop_fuel {σ : Type} (length : ℤ) (body : σ → (offset done n : ℕ) → FsM σ)
    {fuel fuel' : ℕ} {bounce : Bool} {size : ℤ} {offset done : ℕ} {s : σ}
    (hfuel : size.toNat ≤ fuel) (hfuel' : size.toNat ≤ fuel') :
    transferLoop length body fuel bounce size offset done s =
      transferLoop length body fuel' bounce size offset done s := by
  induction fuel generalizing fuel' bounce size offset done s with
  | zero =>
    cases fuel' with
    | zero => rfl
    | succ fuel' =>
      rw [transferLoop, transferLoop, if_pos (by omega)]
  | succ fuel ih =>
    cases fuel' with
    | zero => rw [transferLoop, transferLoop, if_pos (by omega)]
    | succ fuel' =>
      rw [transferLoop, transferLoop]
      split
      · rfl
      · dsimp only
        split_ifs with hchunk
        · rfl
        · have hrest : (size - chunkSize length size offset).toNat ≤ fuel ∧
              (size - chunkSize length size offset).toNat ≤ fuel' := by omega
          simp only [ih hrest.1 hrest.2]

/-! ### What one call does -/

section

variable {dev dev' : Device} {d : InodeDisk} {o : ℕ} {size : ℤ} {buffer : ℕ → UInt8}

theorem transferSize_eq_min (length size : ℤ) (o : ℕ) :
    transferSize length size o = min size.toNat (length.toNat - o) := by
  rw [transferSize]
  omega

/-- Writing to a file is splicing its bytes. -/
theorem Device.Written.contents
    (h : dev.Written d o (transferSize d.length size o) buffer dev') :
    dev'.contents d = splice (dev.contents d) o ((List.range size.toNat).map buffer) := by
  refine slice_eq_splice fun i => ?_
  rw [h.cells, transferSize_eq_min]

/-- The sectors that no byte of the file lies in stay as they are. -/
theorem Device.Written.hasSector
    (h : dev.Written d o (transferSize d.length size o) buffer dev') {k : ℕ}
    (hk : ¬d.HasSector k) : dev'.disk k = dev.disk k := by
  by_cases hstart : d.start ≤ k
  · refine block_congr (fun i hi => ?_) hstart
    have hpast : d.length.toNat ≤ i := by
      have : ¬k < d.start + (d.length.toNat + (blockSectorSize - 1)) / blockSectorSize :=
        fun h => hk ⟨hstart, h⟩
      rw [blockSectorSize] at this hi
      omega
    rw [h.cells, transferSize_eq_min, if_neg (by omega)]
  · exact h.outside k fun hcovers => hstart hcovers.1

end

namespace Fs

variable {s s' : Fs} {x : InodeRef} {i : Inode} {d : InodeDisk} {f : File} {p : FilePtr}

theorem IoKeeps.refl (s : Fs) : s.IoKeeps d s :=
  ⟨rfl, rfl, rfl, rfl, rfl, rfl, fun _ _ => rfl⟩

theorem IoKeeps.trans {s'' : Fs} (h : s.IoKeeps d s') (h' : s'.IoKeeps d s'') :
    s.IoKeeps d s'' where
  openInodes := h'.openInodes.trans h.openInodes
  inodeOf := h'.inodeOf.trans h.inodeOf
  freeMap := h'.freeMap.trans h.freeMap
  freeMapFile := h'.freeMapFile.trans h.freeMapFile
  next := h'.next.trans h.next
  size := h'.size.trans h.size
  outside k hk := (h'.outside k hk).trans (h.outside k hk)

/-- A call on the inode is one on it after the calls before. -/
theorem IoKeeps.on {op : IoOp} (h : s.IoKeeps d s') (hop : op.On s x) : op.On s' x := by
  cases op with
  | inodeRead | inodeWrite => trivial
  | fileRead | fileWrite =>
    rw [IoOp.On, h.inodeOf]
    exact hop

/-- The file that a call is on. -/
theorem file_of_inodeOf (h : s.inodeOf p = some x) :
    ∃ f, s.files.find? (·.ptr = p) = some f ∧ f.inode = x ∧ s.posOf p = f.pos := by
  obtain ⟨f, hf, hx⟩ := Option.map_eq_some_iff.mp h
  refine ⟨f, hf, hx, ?_⟩
  rw [posOf, hf]
  rfl

/-- A position advances. -/
theorem IoKeeps.setFile (hf : s.files.find? (·.ptr = p) = some f) (n : ℕ) :
    s.IoKeeps d (s.setFile { f with pos := f.pos + n }) ∧
      (s.setFile { f with pos := f.pos + n }).byteFile d = (s.byteFile d).advance p n := by
  have hptr : f.ptr = p := (of_find?_key hf).2
  have hself : (s.setFile { f with pos := f.pos + n }).files.find? (·.ptr = p) =
      some { f with pos := f.pos + n } := by
    subst hptr
    exact find?_replace_key hf rfl
  have hother : ∀ q, q ≠ p → (s.setFile { f with pos := f.pos + n }).files.find? (·.ptr = q) =
      s.files.find? (·.ptr = q) := by
    subst hptr
    exact fun q hq => find?_replace_key_ne rfl hq
  have hpos : (s.setFile { f with pos := f.pos + n }).posOf =
      update s.posOf p (s.posOf p + n) := by
    funext q
    by_cases hq : q = p
    · rw [hq, update_self, posOf, posOf, hself, hf]
      rfl
    · rw [update_of_ne hq, posOf, posOf, hother q hq]
  refine ⟨⟨rfl, ?_, rfl, rfl, rfl, rfl, fun _ _ => rfl⟩, congrArg (ByteFile.mk _) hpos⟩
  funext q
  rw [Fs.inodeOf, Fs.inodeOf]
  by_cases hq : q = p
  · rw [hq, hself, hf]
    rfl
  · rw [hother q hq]

/-- A file was written. -/
theorem IoKeeps.written {o : ℕ} {size : ℤ} {buffer : ℕ → UInt8} {K : ℕ → Prop}
    (hs : DiskChange K s s')
    (h : s.device.Written d o (transferSize d.length size o) buffer s'.device) :
    s.IoKeeps d s' ∧ s'.byteFile d = (s.byteFile d).write buffer size o := by
  have hsame := hs.same
  refine ⟨⟨?_, ?_, hs.freeMap, ?_, ?_, hs.size, fun k hk => h.hasSector hk⟩, ?_⟩
  · rw [hsame]
  · funext p
    rw [Fs.inodeOf, Fs.inodeOf, hs.files]
  · rw [hsame]
  · rw [hsame]
  · have hpos : s'.posOf = s.posOf := by
      funext p
      rw [posOf, posOf, hs.files]
    rw [byteFile, byteFile, ByteFile.write, h.contents, hpos]

/-- How many bytes of a request lie in the file. -/
theorem count_byteFile (s : Fs) (d : InodeDisk) (size : ℤ) (o : ℕ) :
    (s.byteFile d).count size o = transferSize d.length size o := by
  rw [transferSize_eq_min, ByteFile.count, byteFile, Device.contents, length_slice]

variable {size : ℤ} {o : ℕ} {buffer : ℕ → UInt8} {E : FsPanic → Prop}

/-- `inode_read_at` reads from the list of the bytes. -/
theorem inodeReadAt_bytes (hi : s.openInodes.find? (·.ref = x) = some i)
    (hd : i.data.OnDevice s.device) :
    (s.inodeReadAt x size o).Spec false E fun bytes =>
      bytes = (s.byteFile i.data).read size o := by
  refine (inodeReadAt_spec hi hd).mono fun bytes hbytes => ?_
  obtain ⟨hslice, -, hall | ⟨hr, -⟩⟩ := hbytes
  · rw [hslice, hall, transferSize_eq_min]
    exact (take_drop_slice s.device.disk i.data.start o i.data.length.toNat size.toNat).symm
  · cases hr

/-- `inode_write_at` splices the list of the bytes. -/
theorem inodeWriteAt_bytes (hi : s.openInodes.find? (·.ref = x) = some i)
    (hd : i.data.OnDevice s.device) (hw : i.denyWriteCnt = 0) :
    (s.inodeWriteAt x buffer size o).Spec false E fun v =>
      v.1 = (s.byteFile i.data).count size o ∧ s.IoKeeps i.data v.2 ∧ v.2.files = s.files ∧
        v.2.byteFile i.data = (s.byteFile i.data).write buffer size o := by
  refine (inodeWriteAt_spec hi hd).mono fun v hv => ?_
  obtain ⟨hchange, hwritten, -, hall | ⟨hdeny, -⟩ | ⟨hr, -⟩⟩ := hv
  · rw [hall] at hwritten
    obtain ⟨hkeeps, hbytes⟩ := IoKeeps.written hchange hwritten
    exact ⟨hall.trans (count_byteFile s i.data size o).symm, hkeeps, hchange.files, hbytes⟩
  · exact absurd hw hdeny
  · cases hr

/-- `file_read` reads at the position of the file, which advances. -/
theorem fileRead_bytes (hf : s.files.find? (·.ptr = p) = some f)
    (hi : s.openInodes.find? (·.ref = f.inode) = some i) (hd : i.data.OnDevice s.device) :
    (s.fileRead p size).Spec false E fun v =>
      v.1 = (s.byteFile i.data).read size f.pos ∧ s.IoKeeps i.data v.2 ∧
        v.2.byteFile i.data =
          (s.byteFile i.data).advance p ((s.byteFile i.data).count size f.pos) := by
  rw [fileRead]
  refine (file_spec hf).bind fun g hg => ?_
  subst hg
  refine (inodeReadAt_bytes hi hd).bind fun bytes hbytes => .pure ⟨hbytes, ?_⟩
  rw [← ByteFile.length_read, ← hbytes]
  exact IoKeeps.setFile hf bytes.length

/-- `file_write` writes at the position of the file, which advances. -/
theorem fileWrite_bytes (hf : s.files.find? (·.ptr = p) = some f)
    (hi : s.openInodes.find? (·.ref = f.inode) = some i) (hd : i.data.OnDevice s.device)
    (hw : i.denyWriteCnt = 0) :
    (s.fileWrite p buffer size).Spec false E fun v =>
      v.1 = (s.byteFile i.data).count size f.pos ∧ s.IoKeeps i.data v.2 ∧
        v.2.byteFile i.data = ((s.byteFile i.data).write buffer size f.pos).advance p
          ((s.byteFile i.data).count size f.pos) := by
  rw [fileWrite]
  refine (file_spec hf).bind fun g hg => ?_
  subst hg
  refine (inodeWriteAt_bytes hi hd hw).bind fun v hv => .pure ?_
  obtain ⟨hn, hkeeps, hfiles, hbytes⟩ := hv
  rw [← hfiles] at hf
  obtain ⟨hset, hadvance⟩ := IoKeeps.setFile (d := i.data) hf v.1
  rw [hbytes, hn] at hadvance
  refine ⟨hn, hkeeps.trans hset, ?_⟩
  rw [hn]
  exact hadvance

/-- **One call does what it does to a byte array**, and leaves everything else alone. -/
theorem ioStep_spec {op : IoOp} (hi : s.openInodes.find? (·.ref = x) = some i)
    (hd : i.data.OnDevice s.device) (hw : op.writes = true → i.denyWriteCnt = 0)
    (hop : op.On s x) :
    (s.ioStep x op).Spec false E fun v =>
      v.1 = ((s.byteFile i.data).step op).1 ∧ s.IoKeeps i.data v.2 ∧
        v.2.byteFile i.data = ((s.byteFile i.data).step op).2 := by
  cases op with
  | inodeRead size offset =>
    refine (inodeReadAt_bytes hi hd).bind fun bytes hbytes => .pure ⟨?_, IoKeeps.refl s, rfl⟩
    rw [hbytes]
    rfl
  | inodeWrite buffer size offset =>
    refine (inodeWriteAt_bytes hi hd (hw rfl)).bind fun v hv => .pure ⟨?_, hv.2.1, hv.2.2.2⟩
    rw [hv.1]
    rfl
  | fileRead p size =>
    obtain ⟨f, hf, rfl, hpos⟩ := file_of_inodeOf hop
    have hstep : (s.byteFile i.data).pos p = f.pos := hpos
    refine (fileRead_bytes hf hi hd).bind fun v hv => .pure ?_
    rw [ByteFile.step, hstep, hv.1]
    exact ⟨rfl, hv.2⟩
  | fileWrite p buffer size =>
    obtain ⟨f, hf, rfl, hpos⟩ := file_of_inodeOf hop
    have hstep : (s.byteFile i.data).pos p = f.pos := hpos
    refine (fileWrite_bytes hf hi hd (hw rfl)).bind fun v hv => .pure ?_
    rw [ByteFile.step, hstep, hv.1]
    exact ⟨rfl, hv.2⟩

/-- **A sequence of calls** does what it does to a byte array. -/
theorem io_spec (ops : List IoOp) (hi : s.openInodes.find? (·.ref = x) = some i)
    (hd : i.data.OnDevice s.device) (hw : ∀ op ∈ ops, op.writes = true → i.denyWriteCnt = 0)
    (hops : ∀ op ∈ ops, op.On s x) :
    (s.io x ops).Spec false E fun v =>
      v.1 = ((s.byteFile i.data).run ops).1 ∧ s.IoKeeps i.data v.2 ∧
        v.2.byteFile i.data = ((s.byteFile i.data).run ops).2 := by
  induction ops generalizing s with
  | nil => exact .pure ⟨rfl, IoKeeps.refl s, rfl⟩
  | cons op ops ih =>
    refine (ioStep_spec hi hd (hw op List.mem_cons_self) (hops op List.mem_cons_self)).bind
      fun v hv => ?_
    obtain ⟨hres, hkeeps, hfile⟩ := hv
    have hi' : v.2.openInodes.find? (·.ref = x) = some i := by rwa [hkeeps.openInodes]
    have hd' : i.data.OnDevice v.2.device := ⟨hd.lt, by rw [hkeeps.size]; exact hd.fits⟩
    refine (ih hi' hd' (fun op' hop' => hw op' (List.mem_cons_of_mem op hop'))
      fun op' hop' => hkeeps.on (hops op' (List.mem_cons_of_mem op hop'))).bind
      fun v' hv' => .pure ?_
    obtain ⟨hres', hkeeps', hfile'⟩ := hv'
    rw [ByteFile.run_cons, ← hfile]
    refine ⟨?_, hkeeps.trans hkeeps', hfile'⟩
    rw [hres, hres']

end Fs

/-- **Inode I/O is byte-array I/O.** If the data of an open inode lie on the device, every
sequence of reads and writes, of the inode or of files opened on it, returns what it returns for
an array of bytes and makes of the file what it makes of the array; no other sector changes. If
there are writes among them, writes must not be denied. The loops of both transfers end. -/
theorem inodeIo_refines_bytes {s : Fs} {x : InodeRef} {i : Inode}
    (hi : s.openInodes.find? (·.ref = x) = some i) (hd : i.data.OnDevice s.device)
    (ops : List IoOp) (hw : ∀ op ∈ ops, op.writes = true → i.denyWriteCnt = 0)
    (hops : ∀ op ∈ ops, op.On s x) :
    (∃ s', s.io x ops [] = .ok ((((s.byteFile i.data).run ops).1, s'), []) ∧
      s'.byteFile i.data = ((s.byteFile i.data).run ops).2 ∧ s.IoKeeps i.data s') ∧
    ∀ (size : ℤ) (offset : ℕ) (buffer : ℕ → UInt8) (fuel : ℕ), size.toNat ≤ fuel →
      transferLoop i.data.length (s.device.readChunk i.data) fuel false size offset 0 [] =
        transferLoop i.data.length (s.device.readChunk i.data) size.toNat false size offset 0 [] ∧
      transferLoop i.data.length (Device.writeChunk i.data buffer) fuel false size offset 0
          s.device =
        s.device.inodeWriteAt i.data buffer size offset := by
  refine ⟨?_, fun size offset buffer fuel hfuel => ⟨transferLoop_fuel _ _ hfuel le_rfl,
    transferLoop_fuel _ _ hfuel le_rfl⟩⟩
  obtain ⟨v, hrun, hres, hkeeps, hfile⟩ := (Fs.io_spec (E := fun _ => False) ops hi hd hw hops).run
  refine ⟨v.2, ?_, hfile, hkeeps⟩
  rw [hrun, ← hres]

/-- A file of 600 bytes on a device of four sectors, opened once, with writes denied so often. -/
def Fs.oneFile (denyWriteCnt : ℕ) : Fs where
  device := ⟨4, fun _ => zeros, by decide⟩
  freeMap := fun _ => true
  freeMapFile := none
  openInodes := [⟨7, 1, 1, false, denyWriteCnt, ⟨2, 600, inodeMagic⟩⟩]
  files := [⟨8, 7, 0, false⟩]
  next := 9

/-- The file is written and read, and it is read while writes are denied. -/
theorem inodeIo_refines_bytes_oneFile :
    (∃ s', (Fs.oneFile 0).io 7 [.inodeWrite (fun _ => 1) 5 510, .fileRead 8 511, .fileRead 8 8] [] =
      .ok (((((Fs.oneFile 0).byteFile ⟨2, 600, inodeMagic⟩).run
        [.inodeWrite (fun _ => 1) 5 510, .fileRead 8 511, .fileRead 8 8]).1, s'), [])) ∧
    ∃ s', (Fs.oneFile 1).io 7 [.fileRead 8 511, .inodeRead 8 511] [] =
      .ok (((((Fs.oneFile 1).byteFile ⟨2, 600, inodeMagic⟩).run
        [.fileRead 8 511, .inodeRead 8 511]).1, s'), []) := by
  refine ⟨?_, ?_⟩
  · obtain ⟨⟨s', hrun, -⟩, -⟩ := inodeIo_refines_bytes (s := Fs.oneFile 0) (x := 7)
      (i := ⟨7, 1, 1, false, 0, ⟨2, 600, inodeMagic⟩⟩) rfl ⟨by decide, by decide⟩
      [.inodeWrite (fun _ => 1) 5 510, .fileRead 8 511, .fileRead 8 8] (fun _ _ _ => rfl)
      (by simp [IoOp.On, Fs.inodeOf, Fs.oneFile])
    exact ⟨s', hrun⟩
  · obtain ⟨⟨s', hrun, -⟩, -⟩ := inodeIo_refines_bytes (s := Fs.oneFile 1) (x := 7)
      (i := ⟨7, 1, 1, false, 1, ⟨2, 600, inodeMagic⟩⟩) rfl ⟨by decide, by decide⟩
      [.fileRead 8 511, .inodeRead 8 511] (by simp [IoOp.writes])
      (by simp [IoOp.On, Fs.inodeOf, Fs.oneFile])
    exact ⟨s', hrun⟩

end Pintos
