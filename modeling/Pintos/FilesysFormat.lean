import Pintos.FilesysCalls

/-!
# A Freshly Formatted Device

`filesys_init` lays out the free map's file and an empty root directory, closes the file
and opens it again. If it does not panic, the state it ends in satisfies the invariant: the
two inodes have different sectors, all marked, and the free map that is read back is the
one that was written last.

## Main results

* `filesysInit_spec`: the invariant holds in the beginning.
-/

namespace Pintos

open Verif List Bitmap

namespace Fs

variable {s s' : Fs} {r : Bool} {i : Inode} {f : File} {K : ℕ → Prop}
variable {E : FsPanic → Prop}

/-- Formatting may fail any assertion: the device can be too small, for one. -/
abbrev anyPanic : FsPanic → Prop := fun _ => True

/-! ### Opening and closing the free map's file -/

/-- Nothing is open. -/
structure Unmounted (s : Fs) : Prop where
  inodes : s.openInodes = []
  files : s.files = []

/-- The free map's file is open, and nothing else. -/
structure Mounted (i : Inode) (f : File) (s : Fs) : Prop where
  pointer : s.freeMapFile = some f.ptr
  inodes : s.openInodes = [i]
  files : s.files = [f]
  inode : f.inode = i.ref
  sector : i.sector = freeMapSector
  openCnt : i.openCnt = 1
  removed : i.removed = false
  denyWriteCnt : i.denyWriteCnt = 0
  denyWrite : f.denyWrite = false
  data : i.data = s.onDisk freeMapSector
  freshRef : i.ref < s.next
  freshPtr : f.ptr < s.next

namespace Mounted

theorem find_inode (h : s.Mounted i f) : s.openInodes.find? (·.ref = i.ref) = some i := by
  rw [h.inodes]
  exact find?_cons_of_pos (by simp)

theorem find_file (h : s.Mounted i f) : s.files.find? (·.ptr = f.ptr) = some f := by
  rw [h.files]
  exact find?_cons_of_pos (by simp)

theorem mapFile (h : s.Mounted i f) (hwithin : (s.onDisk freeMapSector).Within s.device) :
    s.MapFile f i := by
  refine ⟨h.pointer, h.find_file, ?_, ?_⟩
  · rw [h.inode]
    exact h.find_inode
  · rw [h.data]
    exact hwithin

/-- The tables are in order. -/
theorem table (h : s.Mounted i f) : s.Table [] := by
  constructor <;> simp only [h.inodes, h.files, mem_singleton, forall_eq, exists_eq_left]
  · exact nodup_singleton _
  · exact nodup_singleton _
  · exact nodup_singleton _
  · exact h.freshRef
  · exact h.freshPtr
  · refine ⟨h.inode.symm, ?_, fun _ => h.pointer⟩
    rw [h.sector]
    decide
  · exact fun _ hr => absurd hr not_mem_nil
  · simp [h.openCnt, h.inode]
  · simp [h.denyWriteCnt, h.denyWrite]
  · exact ⟨h.pointer, h.denyWrite, h.inode.symm, h.sector⟩

/-- The file stays open while the device and the free map change. -/
theorem change (h : s.Mounted i f) {m : ℕ → Bool} (hs : DiskChange K { s with freeMap := m } s')
    (hK : ¬K freeMapSector) : s'.Mounted i f := by
  refine ⟨hs.freeMapFile.trans h.pointer, hs.openInodes.trans h.inodes, hs.files.trans h.files,
    h.inode, h.sector, h.openCnt, h.removed, h.denyWriteCnt, h.denyWrite, ?_, ?_, ?_⟩
  · rw [hs.onDisk hK]
    exact h.data
  · rw [hs.same]
    exact h.freshRef
  · rw [hs.same]
    exact h.freshPtr

end Mounted

/-- The last opener closes an inode that was not removed. -/
theorem inodeClose_spec (hi : s.openInodes.find? (·.ref = i.ref) = some i) (hlast : i.openCnt = 1)
    (hkept : i.removed = false) :
    (s.inodeClose i.ref).Spec r E fun s' =>
      s' = { s with openInodes := s.openInodes.filter (·.ref ≠ i.ref) } := by
  rw [inodeClose]
  refine (inode_spec hi).bind fun j hj => ?_
  subst hj
  rw [if_pos (by omega)]
  rw [if_neg (by rw [hkept]; exact Bool.false_ne_true)]
  exact .pure rfl

/-- Opening a file on an inode that has one opener. -/
theorem fileOpen_spec (hi : s.openInodes.find? (·.ref = i.ref) = some i) (hlast : i.openCnt = 1)
    (hkept : i.removed = false) :
    (s.fileOpen (some i.ref)).Spec r E fun v => r = true ∧ v.1 = none ∨ v = (some s.next,
      { s with files := ⟨s.next, i.ref, 0, false⟩ :: s.files, next := s.next + 1 }) := by
  rw [fileOpen]
  refine OracleM.Spec.draw.bind fun memory hmemory => ?_
  split_ifs with hfalse
  · exact .pure (.inr rfl)
  · have hr : r = true := by
      rw [← Bool.not_eq_false]
      exact fun hr => hfalse (hmemory hr)
    exact (inodeClose_spec hi hlast hkept).bind fun s' _ => .pure (.inl ⟨hr, rfl⟩)

/-- The free map's inode, as it is read into memory. -/
def mapInode (s : Fs) : Inode := ⟨s.next, freeMapSector, 1, false, 0, s.onDisk freeMapSector⟩

/-- Opening the free map's inode when nothing is open. -/
theorem Unmounted.inodeOpen (h : s.Unmounted) (hsize : 0 < s.device.size) :
    (s.inodeOpen freeMapSector).Spec r E fun v => r = true ∧ v = (none, s) ∨
      v = (some s.next, { s with openInodes := [s.mapInode], next := s.next + 1 }) := by
  rw [Fs.inodeOpen, h.inodes, find?_nil]
  refine OracleM.Spec.draw.bind fun memory hmemory => ?_
  split_ifs with hfalse
  · refine .pure (.inl ⟨?_, rfl⟩)
    rw [← Bool.not_eq_false]
    intro hr
    rw [hmemory hr] at hfalse
    cases hfalse
  · refine (Device.blockRead_spec hsize).bind fun b hb => .pure (.inr ?_)
    subst hb
    rfl

/-- The free map's file is opened, or there is no memory for it. -/
theorem Unmounted.freeMapFileOpen (h : s.Unmounted) (hsize : 0 < s.device.size)
    (hE : r = true → E .format) :
    s.freeMapFileOpen.Spec r E fun v => v.2.device = s.device ∧
      v.2.freeMap = s.freeMap ∧ ∃ i f, v.1 = f.ptr ∧ v.2.Mounted i f := by
  rw [Fs.freeMapFileOpen]
  refine (h.inodeOpen hsize).bind fun v hv => ?_
  rcases hv with ⟨hr, rfl⟩ | rfl
  · refine OracleM.Spec.bind (P := fun v => v = (none, s))
      (OracleM.Spec.draw.bind fun _ _ => .pure rfl) fun v hv => ?_
    subst hv
    exact .fail (hE hr)
  · have hi : { s with openInodes := [s.mapInode], next := s.next + 1 }.openInodes.find?
        (·.ref = s.mapInode.ref) = some s.mapInode := find?_cons_of_pos (by simp)
    refine (fileOpen_spec hi rfl rfl).bind fun v hv => ?_
    obtain ⟨p, s'⟩ := v
    rcases hv with ⟨hr, rfl⟩ | hv
    · exact .fail (hE hr)
    · cases hv
      refine .pure ⟨rfl, rfl, s.mapInode, ⟨s.next + 1, s.next, 0, false⟩, rfl, rfl, rfl, ?_, rfl,
        rfl, rfl, rfl, rfl, rfl, rfl, ?_, ?_⟩
      · exact congrArg (cons _) h.files
      · exact Nat.lt_succ_of_lt (Nat.lt_succ_self _)
      · exact Nat.lt_succ_self _

/-- **`free_map_open`** opens the free map's file and reads it. -/
theorem Unmounted.freeMapOpen (h : s.Unmounted) (hsize : 0 < s.device.size)
    (hwithin : (s.onDisk freeMapSector).Within s.device)
    (hE : r = true ∨ (s.onDisk freeMapSector).length < byteCnt s.device.size → E .format) :
    s.freeMapOpen.Spec r E fun s' => ∃ (s₁ : Fs) (i : Inode) (f : File), s₁.Mounted i f ∧
      s₁.device = s.device ∧ s₁.freeMap = s.freeMap ∧ s' = { s₁ with freeMap := s.savedMap } := by
  rw [Fs.freeMapOpen]
  refine (h.freeMapFileOpen hsize fun hr => hE (.inl hr)).bind fun v hv => ?_
  obtain ⟨p, s₁⟩ := v
  obtain ⟨hdev, hmap, i, f, rfl, hmounted⟩ := hv
  dsimp only at hdev hmap hmounted ⊢
  have hdata : i.data = s.onDisk freeMapSector := hmounted.data.trans (onDisk_of_device hdev _)
  have hmapFile := hmounted.mapFile (by rw [onDisk_of_device hdev, hdev]; exact hwithin)
  have hread : (s₁.fileReadAt f.ptr (byteCnt s₁.device.size) 0).Spec r E fun bytes =>
      bytes = slice s.device.disk (s.onDisk freeMapSector).start 0 bytes.length ∧
      (bytes.length = byteCnt s.device.size ∨ r = true ∨
        (s.onDisk freeMapSector).length < byteCnt s.device.size) := by
    rw [Fs.fileReadAt]
    refine (file_spec hmapFile.file).bind fun g hg => ?_
    subst hg
    refine (inodeReadAt_spec hmapFile.inode hmapFile.within.onDevice).mono fun bytes hbytes => ?_
    rw [hdata, hdev] at hbytes
    refine ⟨hbytes.1, ?_⟩
    rcases hbytes.2.2 with hlength | ⟨hr, -⟩
    · rw [transferSize] at hlength
      omega
    · exact .inr (.inl hr)
  refine hread.bind fun bytes hbytes => .assert_of (fun hne => ?_) fun hlength => .pure ?_
  · rw [hdev] at hne
    exact hE (hbytes.2.resolve_left hne)
  · refine ⟨s₁, i, f, hmounted, hdev, hmap, ?_⟩
    rw [savedMap, hbytes.1, hlength, hdev]

/-- Closing the free map's file. -/
theorem Mounted.fileClose (h : s.Mounted i f) :
    (s.fileClose f.ptr).Spec r anyPanic fun s' =>
      s'.Unmounted ∧ s'.device = s.device ∧ s'.freeMap = s.freeMap := by
  have hallow : (s.fileAllowWrite f.ptr).Spec r anyPanic fun s' => s' = s := by
    rw [fileAllowWrite]
    refine (file_spec h.find_file).bind fun g hg => ?_
    subst hg
    rw [if_neg (by rw [h.denyWrite]; exact Bool.false_ne_true)]
    exact .pure rfl
  rw [Fs.fileClose]
  refine hallow.bind fun s' hs' => ?_
  subst hs'
  refine (file_spec h.find_file).bind fun g hg => ?_
  subst hg
  rw [h.inode]
  have hi : { s' with files := s'.files.filter (·.ptr ≠ g.ptr) }.openInodes.find?
    (·.ref = i.ref) = some i := h.find_inode
  refine (inodeClose_spec hi h.openCnt h.removed).mono fun v hv => ?_
  subst hv
  refine ⟨⟨?_, ?_⟩, rfl, rfl⟩
  · simp [h.inodes]
  · simp [h.files]

/-! ### The layout -/

/-- The free map's file is laid out, and sectors are left for the root directory's inode. -/
structure MapLaid (s : Fs) : Prop where
  size : 0 < s.device.size
  length : (s.onDisk freeMapSector).length = byteCnt s.device.size
  within : (s.onDisk freeMapSector).Within s.device
  marked : ∀ k, k = freeMapSector ∨ k = rootDirSector ∨ (s.onDisk freeMapSector).Covers k →
    s.freeMap k = true
  apart : ∀ k, (s.onDisk freeMapSector).Covers k → k ≠ freeMapSector ∧ k ≠ rootDirSector

/-- The layout stays while the inode does, and no sector is freed. -/
theorem MapLaid.congr (h : s.MapLaid) (hsize : s'.device.size = s.device.size)
    (hdisk : s'.onDisk freeMapSector = s.onDisk freeMapSector)
    (hmap : ∀ k, s.freeMap k = true → s'.freeMap k = true) : s'.MapLaid := by
  refine ⟨?_, ?_, ?_, fun k hk => ?_, fun k hk => ?_⟩
  · rw [hsize]
    exact h.size
  · rw [hdisk, hsize]
    exact h.length
  · rw [hdisk]
    exact h.within.change hsize
  · rw [hdisk] at hk
    exact hmap k (h.marked k hk)
  · rw [hdisk] at hk
    exact h.apart k hk

/-- What `free_map_init` leaves. -/
structure Blank (s : Fs) : Prop extends s.Unmounted where
  pointer : s.freeMapFile = none
  marked : ∀ k, k = freeMapSector ∨ k = rootDirSector → s.freeMap k = true
  only : ∀ k < s.device.size, s.freeMap k = true → k = freeMapSector ∨ k = rootDirSector
  elements : byteCnt s.device.size ≠ 0 ∨ s.device.size = 0

/-- `free_map_init` completes unless there is no memory for the free map. -/
theorem freeMapInit_spec (device : Device) (junk : ℕ → Bool)
    (hE : r = true ∨ byteCnt device.size = 0 → E .format) :
    (freeMapInit device junk).Spec r E fun s => s.Blank ∧ s.device = device := by
  have hrefused : ∀ {memory : Bool}, (r = false → memory = true) → memory ≠ true → r = true := by
    intro memory hmemory hne
    rw [← Bool.not_eq_false]
    exact fun hr => hne (hmemory hr)
  rw [freeMapInit]
  refine OracleM.Spec.draw.bind fun memory hmemory => ?_
  refine .assert_of (fun hne => hE (.inl (hrefused hmemory hne))) fun _ => ?_
  refine OracleM.Spec.draw.bind fun memory hmemory => .assert_of (fun hne => ?_) fun helements => ?_
  · rw [not_or, not_and_or, not_not] at hne
    exact hE (hne.1.imp_left (hrefused hmemory))
  · refine .pure ⟨⟨⟨rfl, rfl⟩, rfl, ?_, fun k hk hmarked => ?_, helements.imp_left And.right⟩, rfl⟩
    · rintro k (rfl | rfl)
      · rfl
      · rfl
    · by_contra hne
      rw [not_or] at hne
      dsimp only at hmarked hk
      rw [Function.update_of_ne hne.2, Function.update_of_ne hne.1, setMultiple,
        if_pos (by omega)] at hmarked
      cases hmarked

/-- The free map's file is laid out, or `filesys_init` panics. -/
theorem Blank.inodeCreate (h : s.Blank) :
    (s.inodeCreate freeMapSector (byteCnt s.device.size)).Spec r anyPanic fun v =>
      v.1 = true → byteCnt v.2.device.size ≠ 0 ∧ v.2.MapLaid ∧ v.2.Unmounted ∧
        ∀ k < v.2.device.size, v.2.freeMap k = true →
          k = freeMapSector ∨ k = rootDirSector ∨ (v.2.onDisk freeMapSector).Covers k := by
  refine (inodeCreate_spec (.inl h.pointer) (fun _ => trivial) fun _ => trivial).mono
    fun v hv hcreated => ?_
  obtain ⟨created, s'⟩ := v
  obtain rfl : created = true := hcreated
  obtain ⟨-, hsize, start, s₁, hscan, hs₁, -, hs', hdisk⟩ := hv
  obtain ⟨hfits, hfree⟩ := scan_eq_some hscan
  -- the sectors that were found are free, and those of the two inodes are not
  have hout : ∀ k, k = freeMapSector ∨ k = rootDirSector →
      ¬(start ≤ k ∧ k < start + bytesToSectors (byteCnt s.device.size)) := by
    intro k hk hrange
    have hmarked := h.marked k hk
    rw [hfree k hrange.1 hrange.2] at hmarked
    cases hmarked
  have hnode : s'.onDisk freeMapSector =
      ⟨start, byteCnt s.device.size, inodeMagic⟩ := by
    have hlt := s.device.size_lt
    rw [onDisk, hdisk freeMapSector (.inl rfl), if_neg (hout _ (.inl rfl))]
    refine InodeDisk.decode_encode (by dsimp only; omega) ⟨Int.natCast_nonneg _, ?_⟩
      (show inodeMagic < 2 ^ 32 by decide)
    have := byteCnt_lt s.device.size
    dsimp only
    omega
  have hsize' : s'.device.size = s.device.size := hs'.size.trans hs₁.size
  have hmap : s'.freeMap = setMultiple s.freeMap start
      (bytesToSectors (byteCnt s.device.size)) true := hs'.freeMap.trans hs₁.freeMap
  rw [hsize']
  refine ⟨h.elements.resolve_right hsize.ne',
    ⟨?_, ?_, ⟨?_, ?_, ?_⟩, fun k hk => ?_, fun k hk => ?_⟩, ⟨?_, ?_⟩, fun k hk hmarked => ?_⟩
  · rw [hsize']
    exact hsize
  · rw [hnode, hsize']
  · rw [hnode]
    exact Int.natCast_nonneg _
  · rw [hnode]
    have := byteCnt_lt s.device.size
    dsimp only
    omega
  · rw [hnode, hsize']
    exact hfits
  · rw [hnode] at hk
    rw [hmap, setMultiple]
    split
    · rfl
    · rcases hk with hk | hk | hk
      · exact h.marked k (.inl hk)
      · exact h.marked k (.inr hk)
      · exact absurd hk ‹_›
  · rw [hnode] at hk
    exact ⟨fun heq => hout k (.inl heq) hk, fun heq => hout k (.inr heq) hk⟩
  · rw [hs'.openInodes, hs₁.openInodes]
    exact h.inodes
  · rw [hs'.files, hs₁.files]
    exact h.files
  · rw [hmap, setMultiple] at hmarked
    split at hmarked
    · rw [hnode]
      exact .inr (.inr ‹_›)
    · exact (h.only k hk hmarked).imp_right .inl

/-- `free_map_create`. -/
theorem Blank.freeMapCreate (h : s.Blank) :
    s.freeMapCreate.Spec r anyPanic fun v => byteCnt v.2.device.size ≠ 0 ∧ v.2.MapLaid ∧
      (∀ k < v.2.device.size, v.2.freeMap k = true →
        k = freeMapSector ∨ k = rootDirSector ∨ (v.2.onDisk freeMapSector).Covers k) ∧
      ∃ i f, v.1 = f.ptr ∧ v.2.Mounted i f := by
  rw [Fs.freeMapCreate]
  refine h.inodeCreate.bind fun v hv => ?_
  obtain ⟨created, s₁⟩ := v
  refine .assert_of (fun _ => trivial) fun hcreated => ?_
  obtain ⟨hbytes, hlaid, hnone, honly⟩ := hv hcreated
  refine (hnone.freeMapFileOpen hlaid.size fun _ => trivial).bind fun v hv => ?_
  obtain ⟨p, s₂⟩ := v
  obtain ⟨hdev, hmap, i, f, rfl, hmounted⟩ := hv
  dsimp only at hdev hmap hmounted hlaid hbytes honly
  have hlaid₂ : s₂.MapLaid := by
    refine hlaid.congr (by rw [hdev]) (onDisk_of_device hdev _) fun k hk => ?_
    rw [hmap]
    exact hk
  refine (bitmapWrite_spec (hmounted.mapFile hlaid₂.within)).bind fun v hv => ?_
  obtain ⟨written, s₃⟩ := v
  refine .assert_of (fun _ => trivial) fun _ => .pure ?_
  obtain ⟨hs₃, -⟩ := hv
  have hmapSector : ¬i.data.Covers freeMapSector := fun hk => by
    rw [hmounted.data] at hk
    exact (hlaid₂.apart _ hk).1 rfl
  refine ⟨?_, ?_, fun k hk hmarked => ?_, i, f, rfl, hmounted.change hs₃ hmapSector⟩
  · rw [hs₃.size, hdev]
    exact hbytes
  · refine hlaid₂.congr hs₃.size (hs₃.onDisk hmapSector) fun k hk => ?_
    rw [hs₃.freeMap]
    exact hk
  · rw [hs₃.size, hdev] at hk
    rw [hs₃.freeMap, hmap] at hmarked
    rw [hs₃.onDisk hmapSector, onDisk_of_device hdev]
    exact honly k hk hmarked

/-- An empty root directory has sectors of its own. -/
structure RootLaid (s : Fs) : Prop where
  lt : rootDirSector < s.device.size
  length : (s.onDisk rootDirSector).length = (16 * dirEntrySize : ℕ)
  fits : (s.onDisk rootDirSector).start + (s.onDisk rootDirSector).sectors ≤ s.device.size
  marked : ∀ k, (s.onDisk rootDirSector).Covers k → s.freeMap k = true
  apart : ∀ k, (s.onDisk rootDirSector).Covers k → k ≠ freeMapSector ∧ k ≠ rootDirSector ∧
    ¬(s.onDisk freeMapSector).Covers k
  zeros : ∀ k, (s.onDisk rootDirSector).Covers k → s.device.disk k = zeros

/-- `dir_create` lays out the root directory. -/
theorem MapLaid.dirCreate (h : s.MapLaid) (hmounted : s.Mounted i f) :
    (s.dirCreate rootDirSector 16).Spec r anyPanic fun v => v.1 = true →
      v.2.device.size = s.device.size ∧ v.2.MapLaid ∧ v.2.RootLaid ∧ v.2.Mounted i f ∧
      v.2.MapWritten i ∧ v.2.onDisk freeMapSector = s.onDisk freeMapSector ∧
      ∀ k, v.2.freeMap k = true →
        s.freeMap k = true ∨ (v.2.onDisk rootDirSector).Covers k := by
  have hmapFile := hmounted.mapFile h.within
  have hlength : int32 ((16 * dirEntrySize : ℕ) : ℤ) = (16 * dirEntrySize : ℕ) := by decide
  rw [Fs.dirCreate, hlength]
  refine (inodeCreate_spec (.inr ⟨f, i, hmapFile⟩) (fun _ => trivial)
    fun _ => trivial).mono fun v hv hcreated => ?_
  obtain ⟨created, s'⟩ := v
  obtain rfl : created = true := hcreated
  obtain ⟨-, hsize, start, s₁, hscan, hs₁, hwritten, hs', hdisk⟩ := hv
  obtain ⟨hfits, hfree⟩ := scan_eq_some hscan
  have hout : ∀ k, k = freeMapSector ∨ k = rootDirSector ∨ (s.onDisk freeMapSector).Covers k →
      ¬(start ≤ k ∧ k < start + bytesToSectors (16 * dirEntrySize : ℕ)) := by
    intro k hk hrange
    have hmarked := h.marked k hk
    rw [hfree k hrange.1 hrange.2] at hmarked
    cases hmarked
  -- neither the free map's inode nor its data are overwritten
  have hkept : ∀ k, k = freeMapSector ∨ (s.onDisk freeMapSector).Covers k →
      ¬(k = rootDirSector ∨ (start ≤ k ∧ k < start + bytesToSectors (16 * dirEntrySize : ℕ))) := by
    rintro k (rfl | hk) (heq | hrange)
    · cases heq
    · exact hout _ (.inl rfl) hrange
    · exact (h.apart k hk).2 heq
    · exact hout k (.inr (.inr hk)) hrange
  have hcovers : ¬s.MapCovers freeMapSector := by
    rintro ⟨f', i', hmapFile', hk⟩
    rw [← hmapFile.unique hmapFile', hmounted.data] at hk
    exact (h.apart _ hk).1 rfl
  have hnode₀ : s'.onDisk freeMapSector = s.onDisk freeMapSector :=
    (hs'.onDisk (hkept _ (.inl rfl))).trans (hs₁.onDisk hcovers)
  have hnode₁ : s'.onDisk rootDirSector = ⟨start, (16 * dirEntrySize : ℕ), inodeMagic⟩ := by
    have hlt := s.device.size_lt
    rw [onDisk, hdisk rootDirSector (.inl rfl), if_neg (hout _ (.inr (.inl rfl)))]
    exact InodeDisk.decode_encode (by dsimp only; omega)
      (show 0 ≤ ((16 * dirEntrySize : ℕ) : ℤ) ∧ ((16 * dirEntrySize : ℕ) : ℤ) < 2 ^ 31 by decide)
      (show inodeMagic < 2 ^ 32 by decide)
  have hsize' : s'.device.size = s.device.size := hs'.size.trans hs₁.size
  have hmap : s'.freeMap = setMultiple s.freeMap start
      (bytesToSectors (16 * dirEntrySize : ℕ)) true := hs'.freeMap.trans hs₁.freeMap
  refine ⟨hsize', h.congr hsize' hnode₀ fun k hk => ?_, ⟨?_, ?_, ?_, ?_, ?_, ?_⟩, ?_, ?_, hnode₀,
    fun k hk => ?_⟩
  · rw [hmap, setMultiple]
    split
    · rfl
    · exact hk
  · rw [hsize']
    exact hsize
  · rw [hnode₁]
  · rw [hnode₁, hsize']
    exact hfits
  · rw [hnode₁, hmap]
    exact fun k hk => if_pos hk
  · rw [hnode₁, hnode₀]
    exact fun k hk => ⟨fun heq => hout k (.inl heq) hk, fun heq => hout k (.inr (.inl heq)) hk,
      fun hk' => hout k (.inr (.inr hk')) hk⟩
  · rw [hnode₁]
    exact fun k hk => (hdisk k (.inr hk)).trans (if_pos hk)
  · exact (hmounted.change hs₁ hcovers).change (m := s₁.freeMap) hs' (hkept _ (.inl rfl))
  · intro k hk
    rw [hs'.size] at hk
    rw [hs'.freeMap, ← hwritten f i hmapFile k hk]
    refine cell_congr (hs'.disk _ (hkept _ (.inr ?_)))
    rw [hmounted.data]
    refine ⟨Nat.le_add_right _ _, Nat.add_lt_add_left (lt_bytesToSectors h.within.lt ?_) _⟩
    rw [h.length]
    have hk' : k < byteCnt s.device.size := hs₁.size ▸ hk
    omega
  · rw [hmap, setMultiple] at hk
    split at hk
    · rw [hnode₁]
      exact .inr ‹_›
    · exact .inl hk

theorem RootLaid.congr (h : s.RootLaid) (hdev : s'.device = s.device)
    (hmap : s'.freeMap = s.freeMap) : s'.RootLaid := by
  have hdisk := onDisk_of_device hdev
  constructor <;> simp only [hdisk, hdev, hmap]
  exacts [h.lt, h.length, h.fits, h.marked, h.apart, h.zeros]

/-- An empty directory names nothing. -/
theorem RootLaid.not_names (h : s.RootLaid) (j x : ℕ) : ¬s.Names j x := by
  rintro ⟨hj, huse, -⟩
  have hcovers := covers_entry (by rw [h.length]; decide) hj (i := 19) (by decide)
  have hzero : s.entry j 19 = 0 := by
    rw [entry, cell, h.zeros _ hcovers]
    rfl
  rw [DirEntry.inUse, hzero] at huse
  exact absurd huse (by decide)

/-- **The layout is in order**: the two inodes are the only ones. -/
theorem MapLaid.space (h : s.MapLaid) (hroot : s.RootLaid)
    (hopen : ∀ i ∈ s.openInodes, i.sector = freeMapSector) : s.Space := by
  have hlive : ∀ {x}, s.Live x → x = freeMapSector ∨ x = rootDirSector := by
    rintro x (hx | hx | ⟨j, hj⟩ | ⟨i, hi, rfl⟩)
    · exact .inl hx
    · exact .inr hx
    · exact absurd hj (hroot.not_names j x)
    · exact .inl (hopen i hi)
  have hapart : ∀ k, s.Occupies freeMapSector k → ¬s.Occupies rootDirSector k := by
    rintro k (rfl | hk) (hk' | hk')
    · cases hk'
    · exact (hroot.apart _ hk').1 rfl
    · exact (h.apart k hk).2 hk'
    · exact (hroot.apart k hk').2.2 hk
  refine ⟨fun x hx => ?_, fun x k hx hk => ?_, fun x y k hx hy hkx hky => ?_, fun x hx => ?_,
    fun i j x hi => absurd hi (hroot.not_names i x), fun j x hj => absurd hj (hroot.not_names j x),
    fun j hj huse => absurd ⟨hj, huse, rfl⟩ (hroot.not_names j _)⟩
  · rcases hlive hx with rfl | rfl
    · exact ⟨h.size, h.within⟩
    · refine ⟨hroot.lt, ⟨?_, ?_, hroot.fits⟩⟩
      · rw [hroot.length]
        decide
      · rw [hroot.length]
        decide
  · rcases hlive hx with rfl | rfl
    · exact h.marked k (hk.imp_right .inr)
    · rcases hk with rfl | hk
      · exact h.marked _ (.inr (.inl rfl))
      · exact hroot.marked k hk
  · rcases hlive hx with rfl | rfl <;> rcases hlive hy with rfl | rfl
    · rfl
    · exact absurd hky (hapart k hkx)
    · exact absurd hkx (hapart k hky)
    · rfl
  · rcases hlive hx with rfl | rfl
    · exact fun hk => (h.apart _ hk).1 rfl
    · exact fun hk => (hroot.apart _ hk).2.1 rfl

/-! ### The beginning -/

/-- What `do_format` leaves: the layout is in order, and the free map was written. -/
structure Ready (s : Fs) : Prop extends s.Unmounted where
  elements : byteCnt s.device.size ≠ 0
  map : s.MapLaid
  root : s.RootLaid
  only : ∀ k < s.device.size, s.freeMap k = true → k = freeMapSector ∨ k = rootDirSector ∨
    (s.onDisk freeMapSector).Covers k ∨ (s.onDisk rootDirSector).Covers k
  written : ∀ k < byteCnt s.device.size,
    cell s.device.disk (s.onDisk freeMapSector).start k = bytes s.freeMap k

theorem Blank.doFormat (h : s.Blank) : s.doFormat.Spec r anyPanic fun s' => s'.Ready := by
  rw [Fs.doFormat]
  refine h.freeMapCreate.bind fun v hv => ?_
  obtain ⟨p, s₁⟩ := v
  obtain ⟨hbytes, hlaid, honly, i, f, rfl, hmounted⟩ := hv
  refine (hlaid.dirCreate hmounted).bind fun v hv => ?_
  obtain ⟨created, s₂⟩ := v
  refine .assert_of (fun _ => trivial) fun hcreated => ?_
  obtain ⟨hsize, hlaid₂, hroot₂, hmounted₂, hwritten, hnode, honly₂⟩ := hv hcreated
  refine hmounted₂.fileClose.mono fun s' hs' => ?_
  obtain ⟨hnone, hdev, hmap⟩ := hs'
  have hdisk := onDisk_of_device hdev
  refine ⟨hnone, ?_, hlaid₂.congr (by rw [hdev]) (hdisk _) fun k hk => ?_,
    hroot₂.congr hdev hmap, fun k hk hmarked => ?_, fun k hk => ?_⟩
  · rw [hdev, hsize]
    exact hbytes
  · rw [hmap]
    exact hk
  · rw [hdev, hsize] at hk
    rw [hdisk, hdisk]
    rw [hmap] at hmarked
    rcases honly₂ k hmarked with hmarked | hcovers
    · rw [hnode]
      rcases honly k hk hmarked with hk | hk | hk
      · exact .inl hk
      · exact .inr (.inl hk)
      · exact .inr (.inr (.inl hk))
    · exact .inr (.inr (.inr hcovers))
  · rw [hdev] at hk
    rw [hmap, hdisk, hdev, ← hmounted₂.data]
    exact hwritten k hk

/-- **What formatting leaves**: nothing is open but the free map's file, which is up to date,
and exactly the sectors of the two inodes and of their data are marked. -/
structure Formatted (s : Fs) : Prop where
  inv : s.Inv []
  mounted : ∃ i f, s.Mounted i f
  saved : s.MapSaved
  only : ∀ k < s.device.size, s.freeMap k = true → k = freeMapSector ∨ k = rootDirSector ∨
    (s.onDisk freeMapSector).Covers k ∨ (s.onDisk rootDirSector).Covers k

/-- `free_map_open` reads the free map back. -/
theorem Ready.freeMapOpen (h : s.Ready) :
    s.freeMapOpen.Spec r anyPanic fun s' => s'.Formatted := by
  refine (h.toUnmounted.freeMapOpen h.map.size h.map.within fun _ => trivial).mono fun s' hs' => ?_
  obtain ⟨s₁, i, f, hmounted, hdev, hmap, rfl⟩ := hs'
  have hdisk := onDisk_of_device hdev
  have hlaid : s₁.MapLaid := by
    refine h.map.congr (by rw [hdev]) (hdisk _) fun k hk => ?_
    rw [hmap]
    exact hk
  have hspace : s₁.Space := by
    refine hlaid.space (h.root.congr hdev hmap) fun j hj => ?_
    rw [hmounted.inodes, mem_singleton] at hj
    rw [hj]
    exact hmounted.sector
  have hmounted' : { s₁ with freeMap := s.savedMap }.Mounted i f :=
    hmounted.change (.refl (fun _ => False) _) not_false
  have hback : ∀ k < s.device.size, s.savedMap k = s.freeMap k := fun k hk =>
    savedMap_eq h.elements h.written hk
  refine ⟨⟨hspace.shrink rfl (fun _ hx => hx) fun x k hx hk => ?_, hmounted'.table, fun j hj => ?_,
    fun j hj hremoved => ?_, hlaid.length, ?_⟩, ⟨i, f, hmounted'⟩, ⟨?_, fun k _ => ?_⟩,
    fun k hk hmarked => ?_⟩
  · obtain ⟨hlt, hwithin⟩ := hspace.within x hx
    have hk' : k < s₁.device.size := by
      rcases hk with rfl | hk
      · exact hlt
      · exact lt_of_lt_of_le hk.2 hwithin.fits
    rw [hdev] at hk'
    refine (hback k hk').trans ?_
    rw [← hmap]
    exact hspace.marked x k hx hk
  · obtain rfl : j = i := mem_singleton.mp (hmounted.inodes ▸ hj)
    rw [hmounted.sector]
    exact hmounted.data
  · obtain rfl : j = i := mem_singleton.mp (hmounted.inodes ▸ hj)
    rw [hmounted.removed] at hremoved
    cases hremoved
  · exact (h.root.congr hdev hmap).length
  · exact hdev ▸ h.elements
  · show savedMap s₁ k = _
    rw [savedMap, savedMap, hdisk, hdev]
  · have hk : k < s.device.size := hdev ▸ hk
    have hmarked := (hback k hk).symm.trans hmarked
    exact (hdisk freeMapSector).symm ▸ (hdisk rootDirSector).symm ▸ h.only k hk hmarked

/-- **The invariant holds in the beginning.** -/
theorem filesysInit_spec (device : Device) (junk : ℕ → Bool) :
    (filesysInit device junk).Spec r anyPanic fun s => s.Formatted := by
  rw [filesysInit]
  refine (freeMapInit_spec device junk fun _ => trivial).bind fun s hs => ?_
  exact hs.1.doFormat.bind fun s' hs' => hs'.freeMapOpen

/-- The sectors of a small device. -/
theorem blankDevice_lt : 12 < 2 ^ 32 := by decide

/-- A small device that was never written to. -/
def blankDevice : Device := ⟨12, fun _ => zeros, blankDevice_lt⟩

end Fs

end Pintos
