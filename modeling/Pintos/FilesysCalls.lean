import Pintos.FilesysDirectory

/-!
# The Calls of the File System

Every call keeps the invariant, whatever its allocations of memory are answered, and fails
no assertion but the one that the size of a new file, or a new position, is not negative.
The lemma about `filesys_create` also says what a creation that fails leaves behind.

## Main results

* `Inv.filesysCreate`, `Inv.filesysOpen`, `Inv.filesysRemove`: the calls of `filesys.c`.
* `Inv.fileClose`, `Inv.inodeWriteAt`: closing a file and writing to it.
-/

namespace Pintos

open Verif Bitmap

namespace Fs

variable {s s' : Fs} {held : List InodeRef} {K : ℕ → Prop} {x : ℕ} {r : Bool}
  {E : FsPanic → Prop} {name : CString}

/-! ### Creating -/

/-- The inode and the entries of the directory are the same, byte by byte. -/
def SameDirectory (s s' : Fs) : Prop :=
  ∀ k, s.Occupies rootDirSector k → s'.device.disk k = s.device.disk k

theorem SameDirectory.onDisk (h : s.SameDirectory s') :
    s'.onDisk rootDirSector = s.onDisk rootDirSector := by
  rw [Fs.onDisk, Fs.onDisk, h _ (s.occupies_self _)]

theorem SameDirectory.trans {s₁ : Fs} (h : s.SameDirectory s₁) (h' : s₁.SameDirectory s') :
    s.SameDirectory s' := by
  intro k hk
  refine (h' k ?_).trans (h k hk)
  rw [Occupies, h.onDisk]
  exact hk

theorem DiskChange.sameDirectory (hs : DiskChange K s s') (hK : s.Spares K) :
    s.SameDirectory s' := by
  rintro k (rfl | hk)
  · exact hs.disk _ (hK.inodes _ s.live_rootDir)
  · exact hs.disk k (hK.root k hk)

theorem SameDirectory.of_device (h : s'.device = s.device) : s.SameDirectory s' := fun k _ => by
  rw [h]

theorem SameDirectory.rootTable (h : s.SameDirectory s') (hinv : s.Inv held) :
    s'.rootTable = s.rootTable := by
  rw [Fs.rootTable, Fs.rootTable, h.onDisk]
  exact dirTable_congr fun j hj i hi =>
    entryOf_congr hinv.space.root_lt hj hi fun k hk => h k (.inr hk)

/-- A name can be added to the same directories. -/
theorem SameDirectory.addable (h : s.SameDirectory s') (hinv : s.Inv held) :
    s'.Addable name ↔ s.Addable name := by
  have hentry : ∀ j < slots, (s'.entry j).inUse = (s.entry j).inUse ∧
      (s'.entry j).name = (s.entry j).name := fun j hj => by
    have hbyte : ∀ i < dirEntrySize, s'.entry j i = s.entry j i := fun i hi => by
      rw [entry, entry, h.onDisk]
      refine cell_congr (h _ (.inr (covers_entry hinv.space.root_lt ?_ hi)))
      rw [hinv.entryCnt]
      exact hj
    exact ⟨(DirEntry.congr hbyte).1, (DirEntry.congr hbyte).2.2⟩
  have hpresent : s'.Present name ↔ s.Present name :=
    exists_congr fun j => and_congr_right fun hj => by rw [(hentry j hj).1, (hentry j hj).2]
  have hvacant : s'.Vacant ↔ s.Vacant :=
    exists_congr fun j => and_congr_right fun hj => by rw [(hentry j hj).1]
  rw [Addable, Addable, hpresent, hvacant]

/-- The sectors that `filesys_create` finds for the inode and for its data. -/
def RoomAt (s : Fs) (size : ℤ) (x start : ℕ) : Prop :=
  scan s.freeMap s.device.size 1 false = some x ∧
  scan (setMultiple s.freeMap x 1 true) s.device.size (bytesToSectors size) false =
    some start

/-- What a creation makes: an inode in the sector `x` whose data, from `start` on, are zeros, and
an entry of the directory, the first that is not in use. -/
structure Creates (s : Fs) (name : CString) (size : ℤ) (x start : ℕ) (s' : Fs) : Prop where
  sectors : s'.device.size = s.device.size
  node : s'.onDisk x = ⟨start, size, inodeMagic⟩
  zeros : ∀ k, start ≤ k → k < start + bytesToSectors size → s'.device.disk k = zeros
  disk : ∀ k, ¬s.Taken x start (bytesToSectors size) k → ¬(s.onDisk rootDirSector).Covers k →
    s'.device.disk k = s.device.disk k
  table : ∃ j, s.rootTable.FirstVacant j ∧ s'.rootTable = s.rootTable.set j (some (name.1, x))

/-- The free map's file may have changed before. -/
theorem Creates.of_change {s₁ : Fs} {size : ℤ} {start : ℕ} (h : s₁.Creates name size x start s')
    (hsize : s₁.device.size = s.device.size)
    (hdisk : ∀ k, ¬(s.onDisk freeMapSector).Covers k → s₁.device.disk k = s.device.disk k)
    (hmap : s₁.onDisk freeMapSector = s.onDisk freeMapSector)
    (hroot : s₁.onDisk rootDirSector = s.onDisk rootDirSector)
    (htable : s₁.rootTable = s.rootTable) : s.Creates name size x start s' := by
  refine ⟨h.sectors.trans hsize, h.node, h.zeros, fun k hk hk' => ?_, htable ▸ h.table⟩
  rw [Taken, ← hmap] at hk
  rw [← hroot] at hk'
  rw [h.disk k hk hk']
  rw [not_or, hmap] at hk
  exact hdisk k hk.1

/-- What a creation that fails leaves behind: the directory is what it was, and so is the
free map, unless there was room for the inode and its data. -/
def Leaves (s : Fs) (r : Bool) (name : CString) (size : ℤ) (s' : Fs) : Prop :=
  s.SameDirectory s' ∧
    (s'.freeMap = s.freeMap ∧ (r = false → ∀ x start, ¬s.RoomAt size x start) ∨
      ∃ x start, s.RoomAt size x start ∧ (r = false → ¬s.Addable name) ∧
        s'.freeMap = setMultiple s.freeMap start (bytesToSectors size) true)

/-- The free map after the sector of the inode is released. -/
theorem setMultiple_release {m : ℕ → Bool} {x start cnt : ℕ} (hx : m x = false)
    (hdata : ∀ k, start ≤ k → k < start + cnt → setMultiple m x 1 true k = false) :
    setMultiple (setMultiple (setMultiple m x 1 true) start cnt true) x 1
      false = setMultiple m start cnt true := by
  funext k
  simp only [setMultiple] at hdata ⊢
  by_cases hk : x ≤ k ∧ k < x + 1
  · obtain rfl : k = x := by omega
    have hout : ¬(start ≤ k ∧ k < start + cnt) := fun hrange => by
      have := hdata k hrange.1 hrange.2
      rw [if_pos hk] at this
      cases this
    rw [if_pos hk, if_neg hout, hx]
  · rw [if_neg hk, if_neg hk]

/-- How `filesys_create` ends when it fails after the allocation of the inode's sector. -/
theorem Inv.undoCreate {dir : InodeRef} (h : s.Inv (dir :: held))
    (hdir : s.Refers dir rootDirSector) (hx : s.Spare x) :
    (s.freeMapRelease x 1).Spec r E fun s₁ =>
      (s₁.inodeClose dir).Spec r E fun s' => s'.Inv held ∧ s.Saves r s' ∧ s.SameFiles s' ∧
        s.SameDirectory s' ∧ s'.freeMap = setMultiple s.freeMap x 1 false := by
  have hspare : ∀ k, x ≤ k → k < x + 1 → s.Spare k := fun k h₁ h₂ => by
    obtain rfl : k = x := by omega
    exact hx
  refine (h.freeMapRelease x 1 hx.lt hspare).mono fun s₁ hs₁ => ?_
  obtain ⟨h₁, hsaves, hs₁⟩ := hs₁
  refine (h₁.closeRootDir (hs₁.refers.mpr hdir)).mono fun s' hs' => ⟨hs'.inv,
    hsaves.trans hs'.saves, hs₁.sameFiles.trans hs'.same, ?_, ?_⟩
  · have hsame : s.SameDirectory s₁ := hs₁.sameDirectory (h.space.spares_map.remap _)
    exact hsame.trans (.of_device hs'.device)
  · exact hs'.freeMap.trans hs₁.freeMap

/-- What `filesys_create` does once there is a sector for the inode. -/
theorem Inv.createAt {dir : InodeRef} (h : s.Inv (dir :: held))
    (hdir : s.Refers dir rootDirSector) (hx : s.Spare x) (hx₀ : x ≠ 0) {size : ℤ}
    (hneg : size < 0 → E .lengthNegative) (hsize : size < 2 ^ 31) (stack : DirEntry) :
    (s.createAt dir x name size stack).Spec r E fun v => v.2.Inv held ∧ s.Saves r v.2 ∧
      s.SameFiles v.2 ∧
      (v.1 = false → s.SameDirectory v.2 ∧
        (v.2.freeMap = setMultiple s.freeMap x 1 false ∧ (r = false →
            scan s.freeMap s.device.size (bytesToSectors size) false = none) ∨
          ∃ start, scan s.freeMap s.device.size (bytesToSectors size) false = some start ∧
            (r = false → ¬s.Addable name) ∧ v.2.freeMap = setMultiple
              (setMultiple s.freeMap start (bytesToSectors size) true) x 1 false)) ∧
      (v.1 = true → r = false → s.Addable name ∧ ∃ start,
        scan s.freeMap s.device.size (bytesToSectors size) false = some start ∧
        v.2.freeMap = setMultiple s.freeMap start (bytesToSectors size) true ∧
        s.Creates name size x start v.2) := by
  rw [Fs.createAt]
  refine (h.inodeCreate hx hneg hsize).bind fun v hv => ?_
  obtain ⟨created, s₁⟩ := v
  cases created with
  | false =>
    obtain ⟨h₁, hsaves₁, hs₁, hscan⟩ := hv
    have hmap := h.space.spares_map
    have hx₁ := hx.change h.space.root_lt hs₁ hmap
    refine OracleM.Spec.bind (P := fun v => v = (false, s₁)) (.pure rfl) fun v hv => ?_
    subst hv
    dsimp only
    rw [if_pos ⟨rfl, hx₀⟩]
    refine (h₁.undoCreate (hs₁.refers.mpr hdir) hx₁).bind fun s₂ hs₂ => hs₂.bind fun s' hs' =>
      .pure ?_
    obtain ⟨h', hsaves, hfiles, hsame, hfree⟩ := hs'
    refine ⟨h', hsaves₁.trans hsaves, hs₁.sameFiles.trans hfiles,
      fun _ => ⟨(hs₁.sameDirectory hmap).trans hsame, .inl ⟨?_, hscan⟩⟩, fun htrue => ?_⟩
    · rw [hfree, hs₁.freeMap]
    · cases htrue
  | true =>
    obtain ⟨h₁, hsaves₁, hembryo, start, hscan, hK, hs₁, hnode, hzeros⟩ := hv
    have hsame₁ : s.SameDirectory s₁ := hs₁.sameDirectory (hK.remap _)
    refine (h₁.dirAdd (hs₁.refers.mpr hdir) hembryo stack).bind fun v hv => ?_
    obtain ⟨success, s₂⟩ := v
    obtain ⟨h₂, hsaves₂, hfiles₂, hdir₂, hs₂, hadd⟩ := hv
    rw [hsame₁.addable h] at hadd
    have hfree : ∀ {k}, s₁.Occupies x k → ¬(s₁.onDisk rootDirSector).Covers k := fun hk hroot =>
      (hembryo.spare _ hk).free _ s₁.live_rootDir (.inr hroot)
    cases success with
    | false =>
      have hs₂ := hs₂ rfl
      have hnone : s₁.Spares fun _ => False := ⟨fun _ _ => id, fun _ _ => id⟩
      have hx₂ := (hembryo.spare x (s₁.occupies_self x)).change h₁.space.root_lt hs₂ hnone
      dsimp only
      rw [if_pos ⟨rfl, hx₀⟩]
      refine (h₂.undoCreate hdir₂ hx₂).bind fun s₃ hs₃ => hs₃.bind fun s' hs' => .pure ?_
      obtain ⟨h', hsaves, hfiles, hsame, hfree⟩ := hs'
      refine ⟨h', hsaves₁.trans (hsaves₂.trans hsaves),
        hs₁.sameFiles.trans (hfiles₂.trans hfiles),
        fun _ => ⟨hsame₁.trans ((hs₂.sameDirectory hnone).trans hsame), .inr
          ⟨start, hscan, fun hr => ?_, ?_⟩⟩, fun htrue => ?_⟩
      · rw [← (hadd hr).1]
        exact Bool.false_ne_true
      · rw [hfree, hs₂.freeMap, hs₁.freeMap]
      · cases htrue
    | true =>
      dsimp only
      rw [if_neg fun hfalse => by cases hfalse.1]
      refine OracleM.Spec.bind (P := fun v => v = s₂) (.pure rfl) fun v hv => ?_
      subst hv
      refine (h₂.closeRootDir hdir₂).bind fun s' hs' => .pure ⟨hs'.inv,
        hsaves₁.trans (hsaves₂.trans hs'.saves),
        hs₁.sameFiles.trans (hfiles₂.trans hs'.same), fun hfalse => ?_,
        fun _ hr => ⟨(hadd hr).1.mp rfl, start, hscan, ?_, ?_⟩⟩
      · cases hfalse
      · obtain ⟨hs₂, -⟩ := (hadd hr).2 rfl
        rw [hs'.freeMap, hs₂.freeMap, hs₁.freeMap]
      · obtain ⟨hs₂, j, hvacant, htable⟩ := (hadd hr).2 rfl
        refine ⟨?_, ?_, fun k h₁ h₂ => ?_, fun k hk hroot => ?_, j, ?_, ?_⟩
        · rw [hs'.device, hs₂.size]
          exact hs₁.size
        · rw [onDisk_of_device hs'.device, ← hnode]
          exact hs₂.onDisk (hfree (s₁.occupies_self x))
        · rw [hs'.device, hs₂.disk k (hfree (.inr (hnode ▸ ⟨h₁, h₂⟩)))]
          exact hzeros k h₁ h₂
        · rw [hs'.device, hs₂.disk k (hsame₁.onDisk ▸ hroot)]
          exact hs₁.disk k hk
        · rw [← hsame₁.rootTable h]
          exact hvacant
        · rw [rootTable_of_device hs'.device, htable, hsame₁.rootTable h]

/-- **Creating a file.** -/
theorem Inv.filesysCreate (h : s.Inv held) {size : ℤ} (hneg : size < 0 → E .lengthNegative)
    (hsize : size < 2 ^ 31) (stack : DirEntry) :
    (s.filesysCreate name size stack).Spec r E fun v => v.2.Inv held ∧ s.Saves r v.2 ∧
      s.SameFiles v.2 ∧ (v.1 = false → s.Leaves r name size v.2) ∧
      (v.1 = true → r = false → s.Addable name ∧ ∃ x start, s.RoomAt size x start ∧
        v.2.freeMap = setMultiple (setMultiple s.freeMap x 1 true) start
          (bytesToSectors size) true ∧
        s.Creates name size x start v.2) := by
  rw [Fs.filesysCreate]
  refine h.dirOpenRoot.bind fun v hv => ?_
  obtain ⟨dir, s₁⟩ := v
  cases dir with
  | none =>
    obtain ⟨rfl, hs₁⟩ := hv
    refine .pure ⟨hs₁.inv, hs₁.saves, hs₁.same,
      fun _ => ⟨.of_device hs₁.device, .inl ⟨hs₁.freeMap, ?_⟩⟩, ?_⟩
    · intro hr
      cases hr
    · intro htrue
      cases htrue
  | some dir =>
    obtain ⟨hs₁, hdir⟩ := hv
    have hmap₁ := hs₁.inv.space.spares_map
    refine (hs₁.inv.freeMapAllocate 1).bind fun v hv => ?_
    obtain ⟨sector, s₂⟩ := v
    -- the directory was opened, so the free map and the device are those of the beginning
    have hscan₁ : scan s₁.freeMap s₁.device.size 1 false =
        scan s.freeMap s.device.size 1 false := by
      rw [hs₁.freeMap, hs₁.device]
    cases sector with
    | none =>
      obtain ⟨h₂, hsaves₂, hs₂, hscan⟩ := hv
      refine (h₂.closeRootDir (hs₂.refers.mpr hdir)).bind fun s₃ hs₃ => .pure ?_
      refine ⟨hs₃.inv, hs₁.saves.trans (hsaves₂.trans hs₃.saves),
        hs₁.same.trans (hs₂.sameFiles.trans hs₃.same),
        fun _ => ⟨?_, .inl ⟨?_, fun hr x start hroom => ?_⟩⟩, fun htrue => ?_⟩
      · exact (SameDirectory.of_device hs₁.device).trans
          ((hs₂.sameDirectory hmap₁).trans (.of_device hs₃.device))
      · rw [hs₃.freeMap, hs₂.freeMap, hs₁.freeMap]
      · rw [RoomAt, ← hscan₁, hscan hr] at hroom
        cases hroom.1
      · cases htrue
    | some x =>
      obtain ⟨h₂, hsaves₂, hscan, hs₂⟩ := hv
      have hspare₂ : s₂.Spare x :=
        (hs₁.inv.spare_of_scan hscan ⟨le_rfl, Nat.lt_succ_self x⟩).change
          hs₁.inv.space.root_lt hs₂ (hmap₁.remap _)
      rw [hscan₁] at hscan
      obtain ⟨-, hfree⟩ := scan_eq_some hscan
      have hx := hfree x le_rfl (Nat.lt_succ_self x)
      have hfree₂ : s₂.freeMap = setMultiple s.freeMap x 1 true := by
        rw [hs₂.freeMap]
        rw [← hs₁.freeMap]
      have hsame₂ : s.SameDirectory s₂ := (SameDirectory.of_device hs₁.device).trans
        (hs₂.sameDirectory (hmap₁.remap _))
      have hsize₂ : s₂.device.size = s.device.size := by
        rw [← hs₁.device]
        exact hs₂.size
      -- the free map's own sector is marked
      have hx₀ : x ≠ 0 := by
        rintro rfl
        have hmarked := h.space.marked _ _ s.live_freeMap (s.occupies_self freeMapSector)
        rw [freeMapSector, hx] at hmarked
        cases hmarked
      refine (h₂.createAt (hs₂.refers.mpr hdir) hspare₂ hx₀ hneg hsize stack).mono fun v hv => ?_
      rw [hfree₂, hsize₂, hsame₂.addable h] at hv
      obtain ⟨h', hsaves, hfiles, hfail, hdone⟩ := hv
      refine ⟨h', hs₁.saves.trans (hsaves₂.trans hsaves),
        hs₁.same.trans (hs₂.sameFiles.trans hfiles), fun hfalse => ?_, fun htrue hr => ?_⟩
      · obtain ⟨hsame, ⟨hsame', hscan'⟩ | ⟨start, hscan', hadd, hleak⟩⟩ := hfail hfalse
        · refine ⟨hsame₂.trans hsame, .inl ⟨?_, fun hr x' start hroom => ?_⟩⟩
          · rw [hsame', setMultiple_undo hfree]
          · obtain ⟨h₁', h₂'⟩ := hroom
            rw [hscan] at h₁'
            obtain rfl := Option.some.inj h₁'
            rw [hscan' hr] at h₂'
            cases h₂'
        · refine ⟨hsame₂.trans hsame, .inr ⟨x, start, ⟨hscan, hscan'⟩, hadd, ?_⟩⟩
          rw [hleak]
          exact setMultiple_release hx (scan_eq_some hscan').2
      · obtain ⟨hadd, start, hscan', hmap', hcreates⟩ := hdone htrue hr
        refine ⟨hadd, x, start, ⟨hscan, hscan'⟩, hmap', hcreates.of_change hsize₂ (fun k hk => ?_)
          ?_ hsame₂.onDisk (hsame₂.rootTable h)⟩
        · rw [← onDisk_of_device hs₁.device] at hk
          rw [hs₂.disk k hk, ← hs₁.device]
        · rw [hs₂.onDisk (hs₁.inv.space.apart _ s₁.live_freeMap)]
          exact onDisk_of_device hs₁.device _

/-! ### Opening and removing -/

/-- A file is opened, or none is. -/
def Opens (s : Fs) (p : Option FilePtr) (s' : Fs) : Prop :=
  match p with
  | none => s.SameFiles s'
  | some p => ∃ f : File, f.ptr = p ∧ f.denyWrite = false ∧ s'.files = f :: s.files ∧
      s'.freeMapFile = s.freeMapFile

theorem SameFiles.opens {s₁ : Fs} {p : Option FilePtr} (h : s.SameFiles s₁)
    (h' : s₁.Opens p s') : s.Opens p s' := by
  cases p with
  | none => exact h.trans h'
  | some p =>
    obtain ⟨f, hptr, hdeny, hfiles, hmap⟩ := h'
    exact ⟨f, hptr, hdeny, h.files ▸ hfiles, hmap.trans h.pointer⟩

/-- `file_open` hands the reference over to the file, or gives it back. -/
theorem Inv.fileOpen {ref : InodeRef} (h : s.Inv (ref :: held)) (href : s.Refers ref x)
    (hx : x ≠ freeMapSector ∧ x ≠ rootDirSector) :
    (s.fileOpen (some ref)).Spec r E fun v =>
      v.2.Inv held ∧ s.Saves r v.2 ∧ s.Opens v.1 v.2 := by
  obtain ⟨i, hi, rfl, rfl⟩ := href
  rw [Fs.fileOpen]
  refine OracleM.Spec.draw.bind fun memory _ => ?_
  dsimp only
  split
  · refine .pure ⟨h.update (h.table.addFile hi hx) rfl rfl fun j hj => h.of_mem hj,
      .of_same rfl rfl, ?_⟩
    exact ⟨⟨s.next, i.ref, 0, false⟩, rfl, rfl, rfl, rfl⟩
  · exact h.inodeClose.bind fun s' hs' => .pure ⟨hs'.1.inv, hs'.2, hs'.1.same⟩

/-- **Opening a file.** -/
theorem Inv.filesysOpen (h : s.Inv held) :
    (s.filesysOpen name).Spec r E fun v => v.2.Inv held ∧ s.Saves r v.2 ∧ s.Opens v.1 v.2 ∧
      (v.1 ≠ none → s.Present name) := by
  rw [Fs.filesysOpen]
  refine h.dirOpenRoot.bind fun v hv => ?_
  obtain ⟨dir, s₁⟩ := v
  cases dir with
  | none =>
    exact OracleM.Spec.draw.bind fun _ _ => .pure
      ⟨hv.2.inv, hv.2.saves, hv.2.same, fun hne => absurd rfl hne⟩
  | some dir =>
    obtain ⟨hs₁, hdir⟩ := hv
    refine (hs₁.inv.dirLookup hdir).bind fun v hv => ?_
    obtain ⟨ref, s₂⟩ := v
    cases ref with
    | none =>
      obtain ⟨rfl, -⟩ := hv
      refine (hs₁.inv.closeRootDir hdir).bind fun s₃ hs₃ => ?_
      exact OracleM.Spec.draw.bind fun _ _ => .pure
        ⟨hs₃.inv, hs₁.saves.trans hs₃.saves, hs₁.same.trans hs₃.same,
          fun hne => absurd rfl hne⟩
    | some ref =>
      obtain ⟨hpresent, hs₂, x, href, hx, -⟩ := hv
      have hdir₂ := hs₂.refers dir (List.mem_cons_of_mem _ List.mem_cons_self) _ hdir
      have h₂ := hs₂.inv.perm (List.Perm.swap dir ref held)
      refine (h₂.closeRootDir hdir₂).bind fun s₃ hs₃ => ?_
      refine (hs₃.inv.fileOpen (hs₃.refers ref List.mem_cons_self _ href) hx).mono
        fun v hv => ⟨hv.1, ?_, ?_, fun _ => (present_of_device hs₁.device).mp hpresent⟩
      · exact hs₁.saves.trans (hs₂.saves.trans (hs₃.saves.trans hv.2.1))
      · exact (hs₁.same.trans (hs₂.same.trans hs₃.same)).opens hv.2.2

/-- **Removing a file.** -/
theorem Inv.filesysRemove (h : s.Inv held) :
    (s.filesysRemove name).Spec r E fun v =>
      v.2.Inv held ∧ s.Saves r v.2 ∧ s.SameFiles v.2 := by
  rw [Fs.filesysRemove]
  refine h.dirOpenRoot.bind fun v hv => ?_
  obtain ⟨dir, s₁⟩ := v
  cases dir with
  | none => exact .pure ⟨hv.2.inv, hv.2.saves, hv.2.same⟩
  | some dir =>
    obtain ⟨hs₁, hdir⟩ := hv
    refine (hs₁.inv.dirRemove hdir List.mem_cons_self).bind fun v hv => ?_
    obtain ⟨h₂, hsaves₂, hfiles₂, hdir₂⟩ := hv
    exact (h₂.closeRootDir hdir₂).bind fun s' hs' => .pure
      ⟨hs'.inv, hs₁.saves.trans (hsaves₂.trans hs'.saves),
        hs₁.same.trans (hfiles₂.trans hs'.same)⟩

/-! ### Files -/

variable {p : FilePtr} {f : File}

/-- A file that is open, other than the free map's, refers to the inode of a live file. -/
theorem Inv.of_isOpen (h : s.Inv held) (hp : s.IsOpen p) : ∃ f i, f ∈ s.files ∧ f.ptr = p ∧
    i ∈ s.openInodes ∧ i.ref = f.inode ∧ i.sector ≠ freeMapSector ∧ i.sector ≠ rootDirSector := by
  obtain ⟨⟨f, hf, rfl⟩, hmap⟩ := hp
  obtain ⟨i, hi, href, hroot, hfree⟩ := h.table.opened f hf
  exact ⟨f, i, hf, rfl, hi, href, fun hsector => hmap (hfree hsector), hroot⟩

/-- `file_reopen`. -/
theorem Inv.fileReopen (h : s.Inv held) (hp : s.IsOpen p) :
    (s.fileReopen p).Spec r E fun v => v.2.Inv held ∧ s.Saves r v.2 ∧ s.Opens v.1 v.2 := by
  obtain ⟨f, i, hf, rfl, hi, href, hsector⟩ := h.of_isOpen hp
  have hrefers : s.Refers f.inode i.sector := ⟨i, hi, href, rfl⟩
  rw [Fs.fileReopen]
  refine (file_spec (h.table.find_file hf)).bind fun g hg => ?_
  subst hg
  refine (h.inodeReopen hrefers).bind fun s₁ hs₁ => ?_
  refine (hs₁.inv.fileOpen (hs₁.refers _ List.mem_cons_self _ hrefers) hsector).mono
    fun v hv => ⟨hv.1, hs₁.saves.trans hv.2.1, hs₁.same.opens hv.2.2⟩

/-- A change of a file's denial, and of its inode's counter. -/
theorem Inv.setDeny (h : s.Inv held) (hf : f ∈ s.files) {i : Inode} (hi : i ∈ s.openInodes)
    (href : i.ref = f.inode) (hmap : s.freeMapFile ≠ some f.ptr) (deny : Bool) (cnt : ℤ)
    (hcnt : cnt + (if f.denyWrite = true then 1 else 0 : ℕ) =
      i.denyWriteCnt + (if deny = true then 1 else 0 : ℕ)) :
    ((s.setFile { f with denyWrite := deny }).setInode { i with denyWriteCnt := cnt }).Inv
      held := by
  refine h.update (h.table.setDeny hf hi href hmap deny hcnt) rfl rfl fun j hj => ?_
  rcases (mem_replace Inode.ref).mp hj with ⟨rfl, -⟩ | ⟨hj, -⟩
  · have hold := h.of_mem hi
    exact hold
  · exact h.of_mem hj

/-- `file_deny_write`. -/
theorem Inv.fileDenyWrite (h : s.Inv held) (hp : s.IsOpen p) :
    (s.fileDenyWrite p).Spec r E fun s' => s'.Inv held ∧ s.Saves r s' ∧
      s'.freeMapFile = s.freeMapFile ∧
      s'.files = withFile s.files p ({ · with denyWrite := true }) := by
  obtain ⟨f, i, hf, rfl, hi, href, -⟩ := h.of_isOpen hp
  have hfiles := h.table.files_setFile hf ({ · with denyWrite := true }) rfl
  rw [Fs.fileDenyWrite]
  refine (file_spec (h.table.find_file hf)).bind fun g hg => ?_
  subst hg
  split_ifs with hdeny
  · exact .pure ⟨h, .refl s r, rfl, (h.table.withFile_eq hf (by rw [← hdeny])).symm⟩
  · have h' := h.setDeny hf hi href hp.2 true (i.denyWriteCnt + 1) (by
      rw [if_neg hdeny, if_pos rfl]
      omega)
    have hfind := h.table.find_inode hi
    rw [href] at hfind
    rw [Fs.inodeDenyWrite]
    refine (inode_spec hfind).bind fun j hj => ?_
    subst hj
    -- there is one opener more than denials, since this one did not deny writes yet
    refine .assert ?_ (.pure ⟨h', .of_same rfl rfl, rfl, hfiles⟩)
    exact h'.table.deny_le ((mem_replace Inode.ref).mpr (.inl ⟨rfl, j, hi, rfl⟩))

/-- `file_allow_write`. -/
theorem Inv.fileAllowWrite (h : s.Inv held) (hp : s.IsOpen p) :
    (s.fileAllowWrite p).Spec r E fun s' => s'.Inv held ∧ s.Saves r s' ∧
      s'.freeMapFile = s.freeMapFile ∧
      s'.files = withFile s.files p ({ · with denyWrite := false }) := by
  obtain ⟨f, i, hf, rfl, hi, href, -⟩ := h.of_isOpen hp
  have hfiles := h.table.files_setFile hf ({ · with denyWrite := false }) rfl
  rw [Fs.fileAllowWrite]
  refine (file_spec (h.table.find_file hf)).bind fun g hg => ?_
  subst hg
  split_ifs with hdeny
  · have h' := h.setDeny hf hi href hp.2 false (i.denyWriteCnt - 1) (by
      rw [if_pos hdeny, if_neg Bool.false_ne_true]
      omega)
    have hfind := h.table.find_inode hi
    rw [href] at hfind
    rw [Fs.inodeAllowWrite]
    refine (inode_spec hfind).bind fun j hj => ?_
    subst hj
    have hpos : 0 < j.denyWriteCnt := by
      rw [h.table.deny j hi, Int.natCast_pos, List.countP_pos_iff]
      exact ⟨g, hf, decide_eq_true ⟨href.symm, hdeny⟩⟩
    exact .assert hpos (.assert (h.table.deny_le hi) (.pure ⟨h', .of_same rfl rfl, rfl, hfiles⟩))
  · have hfalse := Bool.eq_false_iff.mpr hdeny
    exact .pure ⟨h, .refl s r, rfl, (h.table.withFile_eq hf (by rw [← hfalse])).symm⟩

/-- **Closing a file.** -/
theorem Inv.fileClose (h : s.Inv held) (hp : s.IsOpen p) :
    (s.fileClose p).Spec r E fun s' => s'.Inv held ∧ s.Saves r s' ∧
      s'.freeMapFile = s.freeMapFile ∧
      s'.files = s.files.filter (·.ptr ≠ p) := by
  obtain ⟨f, -, hf, rfl, -⟩ := h.of_isOpen hp
  rw [Fs.fileClose]
  refine (h.fileAllowWrite hp).bind fun s₁ hs₁ => ?_
  obtain ⟨h₁, hsaves, hmap, hfiles⟩ := hs₁
  have hf₁ : { f with denyWrite := false } ∈ s₁.files := by
    rw [hfiles]
    exact List.mem_map.mpr ⟨f, hf, if_pos rfl⟩
  refine (file_spec (h₁.table.find_file hf₁)).bind fun g hg => ?_
  subst hg
  have htable := h₁.table.removeFile hf₁ rfl (hmap ▸ hp.2)
  have h₂ := h₁.update htable rfl rfl fun j hj => h₁.of_mem hj
  have hfreed : s₁.Saves r { s₁ with files := s₁.files.filter (·.ptr ≠ f.ptr) } :=
    .of_same rfl rfl
  refine h₂.inodeClose.mono fun s' hs' =>
    ⟨hs'.1.inv, hsaves.trans (hfreed.trans hs'.2), hs'.1.same.pointer.trans hmap, ?_⟩
  rw [hs'.1.same.files, hfiles]
  exact filter_withFile _ _ _ fun g => rfl

/-- The position of a file changes. -/
theorem Inv.setPos (h : s.Inv held) (hf : f ∈ s.files) (pos : ℕ) :
    (s.setFile { f with pos := pos }).Inv held :=
  h.update (h.table.setPos hf pos) rfl rfl fun _ hj => h.of_mem hj

/-- `inode_read_at`. -/
theorem Inv.inodeReadAt (h : s.Inv held) {i : Inode} (hi : i ∈ s.openInodes) {ref : InodeRef}
    (href : i.ref = ref) (size : ℤ) (o : ℕ) :
    (s.inodeReadAt ref size o).Spec r E fun _ => True := by
  subst href
  have hwithin := (h.space.within _ (live_open hi)).2
  rw [← h.data i hi] at hwithin
  exact (inodeReadAt_spec (h.table.find_inode hi) hwithin.onDevice).mono fun _ _ => trivial

/-- **Writing to a file** changes no sector but those of its data. -/
theorem Inv.inodeWriteAt (h : s.Inv held) {i : Inode} (hi : i ∈ s.openInodes) {ref : InodeRef}
    (href : i.ref = ref) (hroot : i.sector ≠ rootDirSector) (buffer : ℕ → UInt8) (size : ℤ)
    (o : ℕ) :
    (s.inodeWriteAt ref buffer size o).Spec r E fun v => v.2.Inv held ∧
      DiskChange (s.onDisk i.sector).Covers s v.2 := by
  subst href
  have hwithin := (h.space.within _ (live_open hi)).2
  have hdata := h.data i hi
  rw [← hdata] at hwithin ⊢
  refine (inodeWriteAt_spec (h.table.find_inode hi) hwithin.onDevice).mono fun v hv => ⟨?_, hv.1⟩
  refine h.change hv.1 ?_
  rw [hdata]
  exact h.space.spares_data (live_open hi) hroot

end Fs

end Pintos
