import Pintos.Directory
import Pintos.InodeAccounting

/-!
# Calls on a Directory

What `dir_lookup`, `dir_add`, `dir_remove` and `dir_readdir` do to the table of slots that a
directory is, when no memory is refused. The directory is on a device with any contents, and
its entries may name any sectors, so that opening the inode of an entry or freeing its sectors
can fail an assertion; a call that completes does what is said here. Its sectors are not those
of the free map's file, which is all that freeing an inode's sectors writes to.

## Main results

* `Fs.Hosts.dirLookup`, `Fs.Hosts.dirAdd`, `Fs.Hosts.dirRemove`, `Fs.Hosts.dirReaddir`.
* `Fs.Prepared.inodeCreate`, `Fs.Laid.open`: a new directory is empty.
-/

namespace Pintos

open Verif List

namespace Fs

variable {s s' : Fs} {held held' : List InodeRef} {dir ref : InodeRef} {d : InodeDisk} {i : Inode}
  {r : Bool} {E : FsPanic → Prop} {K : ℕ → Prop} {name : CString} {sector : ℕ}

/-- An inode that is open, but for its counters. -/
theorem exists_of_bare (h : i.bare ∈ s.bare) :
    ∃ j ∈ s.openInodes, j.ref = i.ref ∧ j.sector = i.sector ∧ j.data = i.data := by
  obtain ⟨j, hj, hbare⟩ := mem_map.mp h
  simp only [Inode.bare, Inode.mk.injEq] at hbare
  exact ⟨j, hj, hbare.1, hbare.2.1, hbare.2.2.2.2.2⟩

/-- The free map's file is the one that it was if the inodes that are open keep their data, or
are new. -/
theorem mapFile_of_inodes (h : s.Balanced held) (hfiles : s'.files = s.files)
    (hpointer : s'.freeMapFile = s.freeMapFile) (hsize : s'.device.size = s.device.size)
    (hinodes : ∀ i' ∈ s'.openInodes,
      (∃ i ∈ s.openInodes, i.ref = i'.ref ∧ i.data = i'.data) ∨ s.next ≤ i'.ref)
    {f : File} {i' : Inode} (hmap : s'.MapFile f i') : ∃ i, s.MapFile f i ∧ i.data = i'.data := by
  obtain ⟨hi', href⟩ := of_find?_key hmap.inode
  have hfile := hmap.file
  rw [hfiles] at hfile
  obtain ⟨hf, -⟩ := of_find?_key hfile
  rcases hinodes i' hi' with ⟨i, hi, hii, hdata⟩ | hnew
  · refine ⟨i, ⟨hpointer ▸ hmap.pointer, hfile, ?_, ?_⟩, hdata⟩
    · rw [← href, ← hii]
      exact h.accounts.find_inode hi
    · rw [hdata]
      exact hmap.within.change hsize.symm
  · rw [href] at hnew
    exact absurd (h.accounts.inode_lt hf) (Nat.not_lt_of_le hnew)

/-- **A directory that is open**, while the references `held` to inodes are held: no file refers
to it, and its data are apart from those of the free map's file. -/
structure Hosts (held : List InodeRef) (dir : InodeRef) (d : InodeDisk) (s : Fs) : Prop where
  balanced : s.Balanced (dir :: held)
  data : ∀ i ∈ s.openInodes, i.ref = dir → i.data = d
  within : d.Within s.device
  files : ∀ f ∈ s.files, f.inode ≠ dir
  apart : ∀ f i, s.MapFile f i → ∀ k, d.Covers k → ¬i.data.Covers k

namespace Hosts

/-- Nobody denies writes to it. -/
theorem directory (h : s.Hosts held dir d) : s.Directory dir d := by
  obtain ⟨i, hi, href⟩ := h.balanced.accounts.holds dir mem_cons_self
  refine ⟨⟨i, ?_, h.data i hi href, ?_⟩, h.within⟩
  · rw [← href]
    exact h.balanced.accounts.find_inode hi
  · rw [h.balanced.accounts.deny i hi, Nat.cast_eq_zero, countP_eq_zero]
    intro f hf hfi
    exact h.files f hf ((of_decide_eq_true hfi).1.trans href)

/-- The inodes that are open keep their data, or are new. -/
theorem of_inodes (h : s.Hosts held dir d) (h' : s'.Balanced (dir :: held'))
    (hfiles : s'.files = s.files) (hpointer : s'.freeMapFile = s.freeMapFile)
    (hsize : s'.device.size = s.device.size)
    (hinodes : ∀ i' ∈ s'.openInodes,
      (∃ i ∈ s.openInodes, i.ref = i'.ref ∧ i.data = i'.data) ∨ s.next ≤ i'.ref) :
    s'.Hosts held' dir d := by
  have haccounts := h.balanced.accounts
  refine ⟨h', fun i' hi' href => ?_, h.within.change hsize, fun f hf => ?_,
    fun f i' hmap k hk => ?_⟩
  · rcases hinodes i' hi' with ⟨i, hi, hii, hdata⟩ | hnew
    · rw [← hdata]
      exact h.data i hi (hii.trans href)
    · rw [href] at hnew
      exact absurd (haccounts.held_lt mem_cons_self) (Nat.not_lt_of_le hnew)
  · rw [hfiles] at hf
    exact h.files f hf
  · obtain ⟨i, hmap, hdata⟩ :=
      mapFile_of_inodes h.balanced hfiles hpointer hsize hinodes hmap
    rw [← hdata]
    exact h.apart f i hmap k hk

/-- The device may change. -/
theorem change (h : s.Hosts held dir d) (hs : DiskChange K s s') : s'.Hosts held dir d := by
  refine h.of_inodes (h.balanced.change (m := s.freeMap) hs) hs.files hs.freeMapFile hs.size ?_
  rw [hs.openInodes]
  exact fun i hi => .inl ⟨i, hi, rfl, rfl⟩

/-- Writing to the free map's file leaves the directory as it is. -/
theorem table (h : s.Hosts held dir d) (hs : s.MapOnly s') : s'.dirTable d = s.dirTable d := by
  refine dirTable_congr fun j hj k hk => entryOf_congr h.within.lt hj hk fun b hb => ?_
  refine hs.disk b ?_
  rintro ⟨f, i, hmap, hcovers⟩
  exact h.apart f i hmap b hb hcovers

/-! ### The inode of an entry -/

/-- `inode_open` takes a reference to the inode that is named. -/
theorem inodeOpen (h : s.Hosts held dir d) (x : ℕ) (hE : s.device.size ≤ x → E .pastEnd) :
    (s.inodeOpen x).Spec r E fun v =>
      match v.1 with
      | none => r = true ∧ v.2 = s
      | some ref => v.2.Hosts (ref :: held) dir d ∧ v.2.device = s.device ∧
          v.2.freeMap = s.freeMap ∧ ∃ i ∈ v.2.openInodes, i.ref = ref ∧ i.sector = x ∧
            (i.data = s.onDisk x ∨ ∃ j ∈ s.openInodes, j.sector = x ∧ j.data = i.data) := by
  refine (h.balanced.inodeOpen x hE).mono fun v hv => ?_
  obtain ⟨ref, s'⟩ := v
  cases ref with
  | none => exact hv
  | some ref =>
    obtain ⟨hbal, hmap, -, hbare, hdevice, hs, i, hi, href, hsector⟩ := hv
    -- an inode that is open was open before, or was read from its sector
    have hinodes : ∀ i' ∈ s'.openInodes,
        (∃ j ∈ s.openInodes, j.ref = i'.ref ∧ j.sector = i'.sector ∧ j.data = i'.data) ∨
          i'.ref = s.next ∧ i'.data = s.onDisk x := by
      intro i' hi'
      have hmem : i'.bare ∈ s'.bare := mem_map_of_mem hi'
      rcases hbare with hbare | hbare <;> rw [hbare] at hmem
      · exact .inl (exists_of_bare hmem)
      · rcases mem_cons.mp hmem with heq | hmem
        · simp only [Inode.bare, Inode.mk.injEq] at heq
          exact .inr ⟨heq.1, heq.2.2.2.2.2⟩
        · exact .inl (exists_of_bare hmem)
    refine ⟨h.of_inodes (hbal.perm (List.Perm.swap _ _ _)) hs.files hs.pointer hs.size ?_,
      hdevice, hmap, i, hi, href, hsector, ?_⟩
    · intro i' hi'
      rcases hinodes i' hi' with ⟨j, hj, hjref, -, hdata⟩ | ⟨hnew, -⟩
      · exact .inl ⟨j, hj, hjref, hdata⟩
      · exact .inr hnew.ge
    · rcases hinodes i hi with ⟨j, hj, -, hjsector, hdata⟩ | ⟨-, hdata⟩
      · exact .inr ⟨j, hj, hjsector.trans hsector, hdata⟩
      · exact .inl hdata

/-- `inode_close` gives a reference up. -/
theorem inodeClose (h : s.Hosts (i.ref :: held) dir d) (hi : i ∈ s.openInodes)
    (hE : s.Stuck i → E .bitmapRange ∧ E .bitmapAll) :
    (s.inodeClose i.ref).Spec r E fun s' => s'.Hosts held dir d ∧ s.MapOnly s' := by
  refine ((h.balanced.perm (List.Perm.swap _ _ _)).inodeClose hi hE).mono fun s' hs' => ?_
  obtain ⟨hbal, hclose, hs⟩ := hs'
  refine ⟨h.of_inodes hbal hs.files hs.pointer hs.size fun i' hi' => .inl ?_, hs⟩
  have hmem : i'.bare ∈ s'.bare := mem_map_of_mem hi'
  have hbare : i'.bare ∈ s.bare := by
    rcases hclose with hclose | hclose <;> rw [hclose.bare] at hmem
    · exact hmem
    · exact mem_of_mem_filter hmem
  obtain ⟨j, hj, hjref, -, hdata⟩ := exists_of_bare hbare
  exact ⟨j, hj, hjref, hdata⟩

/-- `inode_remove` marks an inode. -/
theorem inodeRemove (h : s.Hosts held dir d) (hi : i ∈ s.openInodes) :
    (s.inodeRemove i.ref).Spec r E fun s' =>
      s'.Hosts held dir d ∧ s' = s.setInode { i with removed := true } := by
  refine (h.balanced.inodeRemove hi).mono fun s' hs' => ?_
  obtain ⟨hbal, -, -, rfl, -⟩ := hs'
  refine ⟨h.of_inodes hbal rfl rfl rfl fun i' hi' => .inl ?_, rfl⟩
  rcases (Accounts.mem_setInode hi { i with removed := true } rfl).mp hi' with rfl | ⟨hi', -⟩
  · exact ⟨i, hi, rfl, rfl⟩
  · exact ⟨i', hi', rfl, rfl⟩

/-! ### Looking up -/

/-- **`dir_lookup`** opens the inode that the name is mapped to. -/
theorem dirLookup (h : s.Hosts held dir d)
    (hE : ∀ (j x : ℕ), (s.dirTable d)[j]? = some (some (name.1, x)) → s.device.size ≤ x →
      E .pastEnd) :
    (s.dirLookup dir name).Spec false E fun v =>
      match v.1 with
      | none => name.1 ∉ (s.dirTable d).keys ∧ v.2 = s
      | some ref => v.2.Hosts (ref :: held) dir d ∧ v.2.device = s.device ∧
          ∃ i ∈ v.2.openInodes, i.ref = ref ∧
            ∃ j : ℕ, (s.dirTable d)[j]? = some (some (name.1, i.sector)) := by
  rw [Fs.dirLookup]
  refine h.directory.lookup.bind fun found hfound => ?_
  cases found with
  | none => exact .pure ⟨hfound rfl, rfl⟩
  | some v =>
    obtain ⟨e, ofs⟩ := v
    obtain ⟨j, -, -, hslot, -⟩ := hfound
    refine (h.inodeOpen e.inodeSector (hE j _ hslot)).mono fun w hw => ?_
    obtain ⟨ref, s'⟩ := w
    cases ref with
    | none => cases hw.1
    | some ref =>
      obtain ⟨hs', hdevice, -, i, hi, href, hsector, -⟩ := hw
      refine ⟨hs', hdevice, i, hi, href, j, ?_⟩
      rw [hsector]
      exact hslot

/-! ### Adding a name -/

/-- **`dir_add`** fills a slot that is empty, if the name can be added. -/
theorem dirAdd (h : s.Hosts held dir d) (name : CString) {x : ℕ} (hx : x < 2 ^ 32)
    (stack : DirEntry) :
    (s.dirAdd dir name x stack).Spec false E fun v => v.2.Hosts held dir d ∧
      (v.1 = true ∧ (name.1 ≠ [] ∧ name.1.length ≤ nameMax ∧ name.1 ∉ (s.dirTable d).keys) ∧
        (∃ j : ℕ, (s.dirTable d)[j]? = some none ∧
          v.2.dirTable d = (s.dirTable d).set j (some (name.1, x))) ∨
      v.1 = false ∧ (name.1 = [] ∨ nameMax < name.1.length ∨ name.1 ∈ (s.dirTable d).keys ∨
        none ∉ s.dirTable d) ∧ NoEntryChange d s v.2) := by
  rw [Fs.dirAdd]
  split_ifs with hname
  · refine .pure ⟨h, .inr ⟨rfl, ?_, .refl d s⟩⟩
    rcases hname with hnil | hlong
    · exact .inl hnil
    · exact .inr (.inl hlong)
  rw [not_or, Nat.not_lt] at hname
  refine h.directory.lookup.bind fun found hfound => ?_
  split_ifs with hsome
  · obtain ⟨⟨e, ofs⟩, rfl⟩ := Option.isSome_iff_exists.mp hsome
    obtain ⟨j, -, -, hslot, -⟩ := hfound
    exact .pure ⟨h, .inr ⟨rfl, .inr (.inr (.inl (SlotTable.mem_keys_iff.mpr ⟨j, _, hslot⟩))),
      .refl d s⟩⟩
  obtain rfl : found = none := by simpa using hsome
  obtain ⟨i, hi, hdata, -⟩ := h.directory.inode
  refine (inode_spec hi).bind fun i' hi' => ?_
  subst hi'
  rw [hdata, ← Nat.zero_mul dirEntrySize]
  refine (h.directory.freeSlotLoop (Nat.zero_add _) (Nat.zero_le _)
    fun _ j hj => absurd hj (Nat.not_lt_zero j)).bind fun v hv => ?_
  obtain ⟨e, ofs⟩ := v
  obtain ⟨j, rfl, hslot⟩ := hv
  obtain ⟨hused, hfree⟩ := hslot rfl
  refine (h.directory.writeEntry j _).bind fun w hw => .pure ?_
  rcases hw with ⟨hn, hj, hs⟩ | ⟨hn, hrefused, hs⟩
  · refine ⟨h.change hs.change, .inl ⟨decide_eq_true hn, ⟨hname.1, hname.2, hfound rfl⟩, j, ?_, ?_⟩⟩
    · rw [getElem?_dirTable hj, DirEntry.slot_eq_none.mpr (hfree hj)]
    · rw [hs.table, DirEntry.slot_fill hname.2 name.2 hx]
  · refine ⟨h.change hs.change, .inr ⟨decide_eq_false hn, .inr (.inr (.inr fun hmem => ?_)), hs⟩⟩
    -- the loop ended past the last slot
    obtain ⟨k, hk⟩ := List.mem_iff_getElem?.mp hmem
    have hlt := (List.getElem?_eq_some_iff.mp hk).1
    rw [length_dirTable] at hlt
    rw [getElem?_dirTable hlt, Option.some.injEq, DirEntry.slot_eq_none] at hk
    have hle : entryCnt d ≤ j := Nat.le_of_not_lt fun hj => by cases hrefused hj
    cases (hused k (by omega)).symm.trans hk

/-! ### Removing a name -/

end Hosts

/-- The inode of a sector, as it is open or as it is on the disk, has sectors that are not
marked, so that it cannot be freed. -/
def Unfreeable (s : Fs) (x : ℕ) : Prop :=
  ∃ i : Inode, i.sector = x ∧
    (i.data = s.onDisk x ∨ ∃ j ∈ s.openInodes, j.sector = x ∧ j.data = i.data) ∧ ¬s.Releasable i

namespace Hosts

/-- **`dir_remove`** empties the slot of the name, and removes the inode. -/
theorem dirRemove (h : s.Hosts held dir d)
    (hE : ∀ (j x : ℕ), (s.dirTable d)[j]? = some (some (name.1, x)) →
      (s.device.size ≤ x → E .pastEnd) ∧ (s.Unfreeable x → E .bitmapRange ∧ E .bitmapAll)) :
    (s.dirRemove dir name).Spec false E fun v => v.2.Hosts held dir d ∧
      (v.1 = true ∧ (∃ (j x : ℕ), (s.dirTable d)[j]? = some (some (name.1, x)) ∧
        v.2.dirTable d = (s.dirTable d).set j none) ∨
      v.1 = false ∧ name.1 ∉ (s.dirTable d).keys ∧ v.2 = s) := by
  rw [Fs.dirRemove]
  refine h.directory.lookup.bind fun found hfound => ?_
  cases found with
  | none => exact .pure ⟨h, .inr ⟨rfl, hfound rfl, rfl⟩⟩
  | some v =>
    obtain ⟨e, ofs⟩ := v
    obtain ⟨j, hj, rfl, hslot, -⟩ := hfound
    obtain ⟨hpast, hfree⟩ := hE j _ hslot
    refine (h.inodeOpen e.inodeSector hpast).bind fun w hw => ?_
    obtain ⟨ref, s₁⟩ := w
    cases ref with
    | none => cases hw.1
    | some ref =>
      obtain ⟨h₁, hdevice, hmap, i, hi, rfl, hsector, hdata⟩ := hw
      refine (h₁.directory.writeEntry j e.clear).bind fun w hw => ?_
      obtain ⟨n, s₂⟩ := w
      rcases hw with ⟨hn, -, hs₂⟩ | ⟨-, hrefused, -⟩
      · dsimp only
        rw [if_pos hn]
        have hi₂ : i ∈ s₂.openInodes := by
          rw [hs₂.change.openInodes]
          exact hi
        refine ((h₁.change hs₂.change).inodeRemove hi₂).bind fun s₃ hs₃ => ?_
        obtain ⟨h₃, rfl⟩ := hs₃
        have hi₃ : { i with removed := true } ∈
            (s₂.setInode { i with removed := true }).openInodes :=
          (Accounts.mem_setInode hi₂ { i with removed := true } rfl).mpr (.inl rfl)
        refine (Hosts.inodeClose (i := { i with removed := true }) h₃ hi₃
          fun hstuck => hfree ⟨{ i with removed := true }, hsector, hdata, fun hrel => ?_⟩).bind
          fun s₄ hs₄ => .pure ⟨hs₄.1, .inl ⟨rfl, j, _, hslot, ?_⟩⟩
        · -- neither the free map nor the size of the device has changed
          have hsize : s₂.device.size = s.device.size := by
            rw [hs₂.change.size, hdevice]
          have hsame : s₂.freeMap = s.freeMap := hs₂.change.freeMap.trans hmap
          refine hstuck.2.2 ⟨hsize ▸ hrel.lt, ?_, hsize ▸ hrel.fits, fun k hk => ?_⟩
          · exact hsame ▸ hrel.marked
          · exact hsame ▸ hrel.data k hk
        · have hsame : s₁.dirTable d = s.dirTable d :=
            dirTable_congr fun _ _ _ _ => by rw [entryOf, entryOf, hdevice]
          rw [h₃.table hs₄.2]
          show s₂.dirTable d = _
          rw [hs₂.table, hsame, DirEntry.slot_clear]
      · cases hrefused hj

/-! ### Listing the names -/

/-- **`dir_readdir`** yields the name in the next slot that is filled. -/
theorem dirReaddir (h : s.Hosts held dir d) {j : ℕ} (hj : j ≤ entryCnt d)
    (hnames : ∀ n ∈ (s.dirTable d).keys, n.length ≤ nameMax) :
    (s.dirReaddir dir (j * dirEntrySize)).Spec false E fun v =>
      ∃ j' ≤ entryCnt d, v.2 = j' * dirEntrySize ∧
        match v.1 with
        | none => SlotTable.keys ((s.dirTable d).drop j) = []
        | some n => j < j' ∧ SlotTable.keys ((s.dirTable d).drop j) =
            n :: SlotTable.keys ((s.dirTable d).drop j') := by
  obtain ⟨i, hi, hdata, -⟩ := h.directory.inode
  rw [Fs.dirReaddir]
  refine (inode_spec hi).bind fun i' hi' => ?_
  subst hi'
  rw [hdata]
  refine (h.directory.readdirLoop (by omega) hj).mono fun v hv => ?_
  obtain ⟨n, pos⟩ := v
  obtain ⟨j', hj', hpos, hv⟩ := hv
  refine ⟨j', hj', hpos, ?_⟩
  cases n with
  | none => exact hv.1
  | some n =>
    obtain ⟨hlt, k, hk, huse, rfl, hkeys⟩ := hv
    refine ⟨hlt, ?_⟩
    have hmem : (s.entryOf d k).name ∈ (s.dirTable d).keys :=
      SlotTable.mem_keys_iff.mpr ⟨k, _, dirTable_eq_some.mpr ⟨hk, huse, rfl, rfl⟩⟩
    rw [take_of_length_le (hnames _ hmem)]
    exact hkeys

end Hosts

/-! ### Making a directory -/

/-- **A sector for a directory**: it is marked, its inode is not open, and neither is it one of
the free map's file, whose sectors are marked. -/
structure Prepared (sector : ℕ) (s : Fs) : Prop where
  balanced : s.Balanced []
  closed : ∀ i ∈ s.openInodes, i.sector ≠ sector
  marked : s.freeMap sector = true
  map : ∀ f i, s.MapFile f i → ∀ k, i.data.Covers k → k ≠ sector ∧ s.freeMap k = true

/-- An inode of zeros that is not open yet. -/
structure Laid (sector : ℕ) (d : InodeDisk) (s : Fs) : Prop where
  balanced : s.Balanced []
  closed : ∀ i ∈ s.openInodes, i.sector ≠ sector
  onDisk : s.onDisk sector = d
  within : d.Within s.device
  zeros : ∀ k, d.Covers k → s.device.disk k = zeros
  apart : ∀ f i, s.MapFile f i → ∀ k, d.Covers k → ¬i.data.Covers k

/-- `inode_create` makes a file of zeros. -/
theorem Prepared.inodeCreate (h : s.Prepared sector) {length : ℤ} (hlt : length < 2 ^ 31) :
    (s.inodeCreate sector length).Spec false anyPanic fun v =>
      v.1 = true → ∃ d, v.2.Laid sector d := by
  obtain ⟨f, i, hmap⟩ := h.balanced.mapFile
  refine (inodeCreate_spec (.inr ⟨f, i, hmap⟩) (fun _ => trivial) fun _ => trivial).mono
    fun v hv hcreated => ?_
  obtain ⟨created, s'⟩ := v
  obtain rfl : created = true := hcreated
  obtain ⟨hlength, -, start, s₁, hscan, hs₁, -, hs', hdisk⟩ := hv
  obtain ⟨hfits, hfree⟩ := Bitmap.scan_eq_some hscan
  have hsize : s'.device.size = s.device.size := hs'.size.trans hs₁.size
  have hinodes : s'.openInodes = s.openInodes := hs'.openInodes.trans hs₁.openInodes
  -- the sectors that are taken were not marked
  have hout : ∀ k, s.freeMap k = true → ¬(start ≤ k ∧ k < start + bytesToSectors length) := by
    intro k hmarked hrange
    cases (hfree k hrange.1 hrange.2).symm.trans hmarked
  refine ⟨⟨start, length, inodeMagic⟩, (h.balanced.change hs₁).change (m := s₁.freeMap) hs', ?_, ?_,
    ⟨hlength, hlt, ?_⟩, fun k hk => ?_, fun f' i' hmap' k hk hcovers => ?_⟩
  · rw [hinodes]
    exact h.closed
  · have hstart := s.device.size_lt
    rw [onDisk, hdisk sector (.inl rfl), if_neg (hout sector h.marked)]
    exact InodeDisk.decode_encode (by dsimp only; omega) ⟨hlength, hlt⟩
      (show inodeMagic < 2 ^ 32 by decide)
  · rw [hsize]
    exact hfits
  · exact (hdisk k (.inr hk)).trans (if_pos hk)
  · have hmap : s.MapFile f' i' := by
      refine ⟨?_, ?_, ?_, hmap'.within.change hsize.symm⟩
      · rw [← hs₁.freeMapFile.trans rfl, ← hs'.freeMapFile]
        exact hmap'.pointer
      · rw [← hs₁.files.trans rfl, ← hs'.files]
        exact hmap'.file
      · rw [← hinodes]
        exact hmap'.inode
    exact hout k (h.map f' i' hmap k hcovers).2 hk

/-- `inode_open` and `dir_open` of the inode: the directory is empty. -/
theorem Laid.open {d : InodeDisk} (h : s.Laid sector d) :
    (s.inodeOpen sector >>= fun v => v.2.dirOpen v.1).Spec false anyPanic fun v =>
      ∀ dir, v.1 = some dir → v.2.Hosts [] dir d ∧ v.2.device = s.device := by
  refine (h.balanced.inodeOpen sector fun _ => trivial).bind fun v hv => ?_
  obtain ⟨ref, s'⟩ := v
  cases ref with
  | none => cases hv.1
  | some ref =>
    obtain ⟨hbal, -, -, hbare, hdevice, hs, i, hi, rfl, hsector⟩ := hv
    have hold : ∀ {i' : Inode}, i'.bare ∈ s.bare →
        ∃ j ∈ s.openInodes, j.ref = i'.ref ∧ j.data = i'.data ∧ i'.sector ≠ sector := by
      intro i' hmem
      obtain ⟨j, hj, href, hjsector, hdata⟩ := exists_of_bare hmem
      exact ⟨j, hj, href, hdata, hjsector ▸ h.closed j hj⟩
    have hmem : ∀ i' ∈ s'.openInodes, i'.bare ∈ s'.bare := fun i' => mem_map_of_mem
    -- the inode was not open, so it is read from its sector
    have hnew : s'.bare = (⟨s.next, sector, 0, false, 0, s.onDisk sector⟩ : Inode) :: s.bare := by
      refine hbare.resolve_left fun hsame => ?_
      obtain ⟨j, -, -, -, hne⟩ := hold (hsame ▸ hmem i hi)
      exact hne hsector
    have hcases : ∀ i' ∈ s'.openInodes, (∃ j ∈ s.openInodes, j.ref = i'.ref ∧
        j.data = i'.data ∧ i'.sector ≠ sector) ∨ i'.ref = s.next ∧ i'.data = d := by
      intro i' hi'
      have := hmem i' hi'
      rw [hnew] at this
      rcases mem_cons.mp this with heq | hmem
      · simp only [Inode.bare, Inode.mk.injEq] at heq
        exact .inr ⟨heq.1, heq.2.2.2.2.2.trans h.onDisk⟩
      · exact .inl (hold hmem)
    have hi' : i.ref = s.next ∧ i.data = d := by
      refine (hcases i hi).resolve_left ?_
      rintro ⟨j, -, -, -, hne⟩
      exact hne hsector
    have hhosts : s'.Hosts [] i.ref d := by
      refine ⟨hbal, fun j hj href => ?_, h.within.change hs.size, fun f hf => ?_,
        fun f j hmap k hk => ?_⟩
      · obtain rfl := hbal.accounts.inode_unique hj hi href
        exact hi'.2
      · rw [hs.files] at hf
        rw [hi'.1]
        exact Nat.ne_of_lt (h.balanced.accounts.inode_lt hf)
      · obtain ⟨j', hmap', hdata⟩ := mapFile_of_inodes h.balanced hs.files hs.pointer hs.size
          (fun i' hi' => (hcases i' hi').imp (fun ⟨j, hj, href, hdata, _⟩ => ⟨j, hj, href, hdata⟩)
            fun hnew => hnew.1.ge) hmap
        rw [← hdata]
        exact h.apart f j' hmap' k hk
    refine OracleM.Spec.draw.bind fun memory hmemory => ?_
    rw [hmemory rfl]
    refine .pure fun dir hdir => ?_
    obtain rfl := Option.some.inj hdir
    exact ⟨hhosts, hdevice⟩

/-- A directory of zeros is empty. -/
theorem Laid.table {d : InodeDisk} (h : s.Laid sector d) (j : ℕ) (p : List UInt8 × ℕ) :
    (s.dirTable d)[j]? ≠ some (some p) := by
  intro hj
  obtain ⟨hlt, huse, -⟩ := dirTable_eq_some.mp (show _ = some (some (p.1, p.2)) from hj)
  have hzero : s.entryOf d j 19 = 0 := by
    rw [entryOf, cell, h.zeros _ (covers_entry h.within.lt hlt (by decide))]
    rfl
  rw [DirEntry.inUse, hzero] at huse
  cases huse

end Fs

end Pintos
