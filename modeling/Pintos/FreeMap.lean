import Pintos.Filesys

/-!
# The Free Map

What the operations on the free map do: which bits they change, and that the only thing
they write to the device is the free map's own file. An allocation finds sectors that are
free, or changes nothing; a release of sectors that are all allocated frees them.

## Main results

* `Fs.freeMapAllocate_spec`, `Fs.freeMapRelease_spec`: what an allocation and a release do.
-/

namespace Pintos

open Verif Bitmap

namespace Fs

variable {s s' s'' : Fs} {r : Bool} {E : FsPanic → Prop} {i : Inode} {f : File} {x : InodeRef}
  {p : FilePtr}

/-! ### Changes of the device -/

/-- The states differ at most in the sectors `K` of the device. -/
structure DiskChange (K : ℕ → Prop) (s s' : Fs) : Prop where
  same : s' = { s with device := s'.device }
  size : s'.device.size = s.device.size
  disk : ∀ k, ¬K k → s'.device.disk k = s.device.disk k

theorem DiskChange.refl (K : ℕ → Prop) (s : Fs) : DiskChange K s s := ⟨rfl, rfl, fun _ _ => rfl⟩

theorem DiskChange.freeMap {K : ℕ → Prop} (h : DiskChange K s s') : s'.freeMap = s.freeMap := by
  rw [h.same]

theorem DiskChange.freeMapFile {K : ℕ → Prop} (h : DiskChange K s s') :
    s'.freeMapFile = s.freeMapFile := by
  rw [h.same]

theorem DiskChange.openInodes {K : ℕ → Prop} (h : DiskChange K s s') :
    s'.openInodes = s.openInodes := by
  rw [h.same]

theorem DiskChange.files {K : ℕ → Prop} (h : DiskChange K s s') : s'.files = s.files := by
  rw [h.same]

/-! ### Following addresses -/

theorem inode_spec (h : s.openInodes.find? (·.ref = x) = some i) :
    (s.inode x).Spec r E fun j => j = i := by
  rw [inode, h]
  exact .pure rfl

theorem file_spec (h : s.files.find? (·.ptr = p) = some f) :
    (s.file p).Spec r E fun g => g = f := by
  rw [file, h]
  exact .pure rfl

/-- What `inode_write_at` does to an inode that is open. -/
theorem inodeWriteAt_spec {buffer : ℕ → UInt8} {size : ℤ} {o : ℕ}
    (hi : s.openInodes.find? (·.ref = x) = some i) (hd : i.data.OnDevice s.device) :
    (s.inodeWriteAt x buffer size o).Spec r E fun v =>
      DiskChange i.data.Covers s v.2 ∧ s.device.Written i.data o v.1 buffer v.2.device ∧
      v.1 ≤ transferSize i.data.length size o ∧
      (v.1 = transferSize i.data.length size o ∨ i.denyWriteCnt ≠ 0 ∧ v.1 = 0 ∨
        r = true ∧ (v.1 = 0 ∨ blockSectorSize ≤ size)) := by
  rw [inodeWriteAt]
  refine (inode_spec hi).bind fun j hj => ?_
  subst hj
  split
  · exact .pure ⟨.refl _ s, .zero, Nat.zero_le _, .inr (.inl ⟨‹_›, rfl⟩)⟩
  · refine (Device.inodeWriteAt_spec hd).bind fun v hv => .pure ?_
    obtain ⟨hwritten, hle, hall⟩ := hv
    refine ⟨⟨rfl, hwritten.size, hwritten.outside⟩, hwritten, hle, ?_⟩
    rcases hall with hall | hall
    · exact .inl hall
    · exact .inr (.inr hall)

/-- What `inode_read_at` does on an inode that is open. -/
theorem inodeReadAt_spec {size : ℤ} {o : ℕ} (hi : s.openInodes.find? (·.ref = x) = some i)
    (hd : i.data.OnDevice s.device) :
    (s.inodeReadAt x size o).Spec r E fun bytes =>
      bytes = slice s.device.disk i.data.start o bytes.length ∧
      bytes.length ≤ transferSize i.data.length size o ∧
      (bytes.length = transferSize i.data.length size o ∨
        r = true ∧ (bytes.length = 0 ∨ blockSectorSize ≤ size)) := by
  rw [inodeReadAt]
  refine (inode_spec hi).bind fun j hj => ?_
  subst hj
  exact Device.inodeReadAt_spec hd

/-- What `file_write_at` does to a file that is open. -/
theorem fileWriteAt_spec {buffer : ℕ → UInt8} {size : ℤ} {o : ℕ}
    (hf : s.files.find? (·.ptr = p) = some f)
    (hi : s.openInodes.find? (·.ref = f.inode) = some i) (hd : i.data.Within s.device) :
    (s.fileWriteAt p buffer size o).Spec r E fun v =>
      DiskChange i.data.Covers s v.2 ∧ s.device.Written i.data o v.1 buffer v.2.device ∧
      v.1 ≤ transferSize i.data.length size o ∧
      (v.1 = transferSize i.data.length size o ∨ i.denyWriteCnt ≠ 0 ∧ v.1 = 0 ∨
        r = true ∧ (v.1 = 0 ∨ blockSectorSize ≤ size)) := by
  rw [fileWriteAt]
  refine (file_spec hf).bind fun g hg => ?_
  subst hg
  exact inodeWriteAt_spec hi hd.onDevice

/-! ### The free map's file -/

/-- The free map's file and its inode. -/
structure MapFile (s : Fs) (f : File) (i : Inode) : Prop where
  pointer : s.freeMapFile = some f.ptr
  file : s.files.find? (·.ptr = f.ptr) = some f
  inode : s.openInodes.find? (·.ref = f.inode) = some i
  within : i.data.Within s.device

/-- A change of the device leaves the free map's file where it is. -/
theorem MapFile.change {K : ℕ → Prop} (h : s.MapFile f i) (hs : DiskChange K s s') :
    s'.MapFile f i := by
  refine ⟨?_, ?_, ?_, ?_⟩
  · rw [hs.freeMapFile]
    exact h.pointer
  · rw [hs.files]
    exact h.file
  · rw [hs.openInodes]
    exact h.inode
  · refine ⟨h.within.nonneg, h.within.lt, ?_⟩
    rw [hs.size]
    exact h.within.fits

/-- The free map itself is in memory. -/
theorem MapFile.remap (h : s.MapFile f i) (m : ℕ → Bool) : { s with freeMap := m }.MapFile f i :=
  ⟨h.pointer, h.file, h.inode, h.within⟩

/-- There is one such file. -/
theorem MapFile.unique {f' : File} {i' : Inode} (h : s.MapFile f i) (h' : s.MapFile f' i') :
    i = i' := by
  have hptr : f.ptr = f'.ptr := Option.mem_unique h.pointer h'.pointer
  have hf := h.file
  rw [hptr, h'.file] at hf
  obtain rfl := Option.some.inj hf
  exact Option.mem_unique h.inode h'.inode

/-- The inode's data are the free map. -/
def MapWritten (s : Fs) (i : Inode) : Prop :=
  ∀ k < byteCnt s.device.size,
    cell s.device.disk i.data.start k = bytes s.freeMap k

/-- `bitmap_write` writes to the free map's file only. -/
theorem bitmapWrite_spec (h : s.MapFile f i) :
    (s.bitmapWrite f.ptr).Spec r E fun v =>
      DiskChange i.data.Covers s v.2 ∧ (v.1 = true → v.2.MapWritten i) ∧
      (r = false → i.denyWriteCnt = 0 → (byteCnt s.device.size : ℤ) ≤ i.data.length →
        v.1 = true) := by
  rw [bitmapWrite]
  refine (fileWriteAt_spec h.file h.inode h.within).bind fun v hv => .pure ?_
  obtain ⟨hchange, hwritten, -, hall⟩ := hv
  refine ⟨hchange, fun hn k hk => ?_, fun hr hdeny hlength => ?_⟩
  · rw [hchange.size] at hk
    rw [hwritten.cells, if_pos (by rw [of_decide_eq_true hn]; omega), Nat.sub_zero,
      hchange.freeMap]
  · rcases hall with hall | ⟨hne, -⟩ | ⟨htrue, -⟩
    · refine decide_eq_true ?_
      rw [hall, transferSize]
      omega
    · exact absurd hdeny hne
    · rw [hr] at htrue
      cases htrue

/-- The sectors of the free map's file, if it is open. -/
def MapCovers (s : Fs) (k : ℕ) : Prop := ∃ f i, s.MapFile f i ∧ i.data.Covers k

/-- The free map's file is not open yet, or it is in order. -/
def MapReady (s : Fs) : Prop := s.freeMapFile = none ∨ ∃ f i, s.MapFile f i

/-- **An allocation** marks sectors that were free, or changes nothing. -/
theorem freeMapAllocate_spec (h : s.MapReady) (cnt : ℕ) :
    (s.freeMapAllocate cnt).Spec r E fun v =>
      match v.1 with
      | none => DiskChange s.MapCovers s v.2 ∧
          (r = false → (∀ f i, s.MapFile f i → i.denyWriteCnt = 0 ∧
              (byteCnt s.device.size : ℤ) ≤ i.data.length) →
            scan s.freeMap s.device.size cnt false = none ∧ v.2 = s)
      | some sector => scan s.freeMap s.device.size cnt false = some sector ∧
          DiskChange s.MapCovers
            { s with freeMap := setMultiple s.freeMap sector cnt true } v.2 ∧
          ∀ f i, s.MapFile f i → v.2.MapWritten i := by
  rw [freeMapAllocate]
  split
  · exact .pure ⟨.refl _ s, fun _ _ => ⟨‹_›, rfl⟩⟩
  rename_i sector hscan
  obtain ⟨-, hfree⟩ := scan_eq_some hscan
  dsimp only
  split
  · rename_i hnone
    refine .pure ⟨hscan, .refl _ _, fun f i hmap => ?_⟩
    cases hmap.pointer.symm.trans hnone
  · rename_i p hp
    rcases h with hnone | ⟨f, i, hmap⟩
    · rw [hnone] at hp
      cases hp
    have hmap' := hmap.remap (setMultiple s.freeMap sector cnt true)
    obtain rfl : f.ptr = p := Option.mem_unique hmap.pointer hp
    refine (bitmapWrite_spec hmap').bind fun v hv => ?_
    obtain ⟨hchange, hcells, hall⟩ := hv
    have hcovers : DiskChange s.MapCovers
        { s with freeMap := setMultiple s.freeMap sector cnt true } v.2 :=
      ⟨hchange.same, hchange.size, fun k hk => hchange.disk k fun hc => hk ⟨f, i, hmap, hc⟩⟩
    split_ifs with hwritten
    · refine .pure ⟨hscan, hcovers, fun f' i' hmap'' k hk => ?_⟩
      rw [← hmap.unique hmap'']
      exact hcells hwritten k hk
    · refine .pure ⟨⟨?_, hcovers.size, hcovers.disk⟩, fun hr hi => ?_⟩
      · rw [hcovers.same]
        rw [setMultiple_undo hfree]
      · exact absurd (hall hr (hi f i hmap).1 (hi f i hmap).2) ‹_›

/-- A release frees the sectors, unless one of its assertions fails. -/
theorem freeMapRelease_of (h : s.MapFile f i) {sector cnt : ℕ}
    (hrange : ¬sector + cnt ≤ s.device.size → E .bitmapRange)
    (hall : ¬(∀ k, sector ≤ k → k < sector + cnt → s.freeMap k = true) → E .bitmapAll) :
    (s.freeMapRelease sector cnt).Spec r E fun s' =>
      DiskChange i.data.Covers
        { s with freeMap := setMultiple s.freeMap sector cnt false } s' ∧
      (r = false → i.denyWriteCnt = 0 → (byteCnt s.device.size : ℤ) ≤ i.data.length →
        s'.MapWritten i) := by
  rw [freeMapRelease]
  refine .assert_of hrange fun _ => .assert_of (fun hnot => hall fun hk => ?_) fun _ => ?_
  · exact hnot (all_eq_true.mpr hk)
  have hmap := h.remap (setMultiple s.freeMap sector cnt false)
  dsimp only
  split
  · rename_i hnone
    rw [h.pointer] at hnone
    cases hnone
  · rename_i p hp
    obtain rfl : f.ptr = p := Option.mem_unique h.pointer hp
    exact (bitmapWrite_spec hmap).bind fun v hv => .pure
      ⟨hv.1, fun hr hdeny hlength => hv.2.1 (hv.2.2 hr hdeny hlength)⟩

/-- **A release** of sectors that are all allocated frees them. -/
theorem freeMapRelease_spec (h : s.MapFile f i) {sector cnt : ℕ}
    (hsize : sector + cnt ≤ s.device.size)
    (hall : ∀ k, sector ≤ k → k < sector + cnt → s.freeMap k = true) :
    (s.freeMapRelease sector cnt).Spec r E fun s' =>
      DiskChange i.data.Covers
        { s with freeMap := setMultiple s.freeMap sector cnt false } s' ∧
      (r = false → i.denyWriteCnt = 0 → (byteCnt s.device.size : ℤ) ≤ i.data.length →
        s'.MapWritten i) :=
  freeMapRelease_of h (fun hnot => absurd hsize hnot) fun hnot => absurd hall hnot

end Fs

end Pintos
