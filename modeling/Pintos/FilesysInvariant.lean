import Pintos.FreeMap

/-!
# What the File System Keeps

An inode is live if a directory entry in use names it, if it is open, or if it is the one
of the free map or of the root directory. The invariant has three parts. `Space` is about
the device: the sectors of the live inodes are disjoint, and all marked in the free map.
`Table` is about memory: the counters of the open inodes count the files that refer to
them, and the references held by the call that is going on. `Inv` relates the two.

The lemmas of this module say what keeps `Space`: writing to sectors that hold no live
inode and no directory entry, naming a new inode, taking a name away, and freeing sectors
that belong to no live inode.

## Main results

* `Space.change`: a write that spares the live inodes and the directory.
* `Space.rename`: a change of one directory entry.
-/

namespace Pintos

open Verif

/-- What an entry says depends on its bytes only. -/
theorem DirEntry.congr {e e' : DirEntry} (h : ∀ i < dirEntrySize, e i = e' i) :
    e.inUse = e'.inUse ∧ e.inodeSector = e'.inodeSector ∧ e.name = e'.name := by
  refine ⟨?_, word_congr fun k hk => h k (lt_trans hk (by decide)), ?_⟩
  · rw [inUse, inUse, h 19 (by decide)]
  · have hname : (List.range (nameMax + 1)).map (fun i => e (4 + i)) =
        (List.range (nameMax + 1)).map fun i => e' (4 + i) := by
      refine List.map_congr_left fun i hi => h _ ?_
      have := List.mem_range.mp hi
      simp only [nameMax, dirEntrySize] at this ⊢
      omega
    rw [name, name, hname]

namespace Fs

/-! ### Live inodes -/

/-- The inode that a sector holds. -/
def onDisk (s : Fs) (x : ℕ) : InodeDisk := .decode (s.device.disk x)

/-- The sector is the inode's own or one of its data's. -/
def Occupies (s : Fs) (x k : ℕ) : Prop := k = x ∨ (s.onDisk x).Covers k

/-- The entry `j` of the root directory. -/
def entry (s : Fs) (j : ℕ) : DirEntry := fun i =>
  cell s.device.disk (s.onDisk rootDirSector).start (j * dirEntrySize + i)

/-- The entry `j` of the root directory is in use and names the inode. -/
def Names (s : Fs) (j x : ℕ) : Prop :=
  j < entryCnt (s.onDisk rootDirSector) ∧ (s.entry j).inUse = true ∧ (s.entry j).inodeSector = x

/-- If the entry `j` of the root directory is in use, its name is one that `dir_add` accepts. -/
def Titled (s : Fs) (j : ℕ) : Prop :=
  j < entryCnt (s.onDisk rootDirSector) → (s.entry j).inUse = true →
    (s.entry j).name.length ≤ nameMax

/-- **The live inodes**, by their sectors. -/
def Live (s : Fs) (x : ℕ) : Prop :=
  x = freeMapSector ∨ x = rootDirSector ∨ (∃ j, s.Names j x) ∨ ∃ i ∈ s.openInodes, i.sector = x

/-- The sectors of the live inodes are disjoint, and all marked. -/
structure Space (s : Fs) : Prop where
  within : ∀ x, s.Live x → x < s.device.size ∧ (s.onDisk x).Within s.device
  marked : ∀ x k, s.Live x → s.Occupies x k → s.freeMap k = true
  disjoint : ∀ x y k, s.Live x → s.Live y → s.Occupies x k → s.Occupies y k → x = y
  apart : ∀ x, s.Live x → ¬(s.onDisk x).Covers x
  once : ∀ i j x, s.Names i x → s.Names j x → i = j
  system : ∀ j x, s.Names j x → x ≠ freeMapSector ∧ x ≠ rootDirSector
  titled : ∀ j, s.Titled j

/-- The open inodes and files, and the references `held` by the call that is going on. -/
structure Table (held : List InodeRef) (s : Fs) : Prop where
  refs : (s.openInodes.map (·.ref)).Nodup
  sectors : (s.openInodes.map (·.sector)).Nodup
  ptrs : (s.files.map (·.ptr)).Nodup
  freshRef : ∀ i ∈ s.openInodes, i.ref < s.next
  freshPtr : ∀ f ∈ s.files, f.ptr < s.next
  opened : ∀ f ∈ s.files, ∃ i ∈ s.openInodes, i.ref = f.inode ∧ i.sector ≠ rootDirSector ∧
    (i.sector = freeMapSector → s.freeMapFile = some f.ptr)
  holds : ∀ r ∈ held, ∃ i ∈ s.openInodes, i.ref = r
  count : ∀ i ∈ s.openInodes, i.openCnt = s.files.countP (·.inode = i.ref) + held.count i.ref
  deny : ∀ i ∈ s.openInodes,
    i.denyWriteCnt = s.files.countP fun f => f.inode = i.ref ∧ f.denyWrite = true
  map : ∃ f ∈ s.files, s.freeMapFile = some f.ptr ∧ f.denyWrite = false ∧
    ∃ i ∈ s.openInodes, i.ref = f.inode ∧ i.sector = freeMapSector

/-- **The invariant of the file system**, while a call holds the references `held`. -/
structure Inv (held : List InodeRef) (s : Fs) : Prop where
  space : s.Space
  table : s.Table held
  data : ∀ i ∈ s.openInodes, i.data = s.onDisk i.sector
  removed : ∀ i ∈ s.openInodes, i.removed = true →
    i.sector ≠ freeMapSector ∧ i.sector ≠ rootDirSector ∧ ∀ j, ¬s.Names j i.sector
  format : (s.onDisk freeMapSector).length = Bitmap.byteCnt s.device.size ∧
    (s.onDisk rootDirSector).length = (16 * dirEntrySize : ℕ)

variable {s s' : Fs} {K : ℕ → Prop} {x y j k : ℕ}

theorem live_freeMap (s : Fs) : s.Live freeMapSector := .inl rfl

theorem live_rootDir (s : Fs) : s.Live rootDirSector := .inr (.inl rfl)

theorem live_open {i : Inode} (hi : i ∈ s.openInodes) : s.Live i.sector :=
  .inr (.inr (.inr ⟨i, hi, rfl⟩))

theorem occupies_self (s : Fs) (x : ℕ) : s.Occupies x x := .inl rfl

/-! ### Changes of the device -/

/-- The sectors hold no live inode and no entry of the root directory. -/
structure Spares (s : Fs) (K : ℕ → Prop) : Prop where
  inodes : ∀ x, s.Live x → ¬K x
  root : ∀ k, (s.onDisk rootDirSector).Covers k → ¬K k

/-- The data of a live inode other than the root directory's. -/
theorem Space.spares_data (h : s.Space) (hy : s.Live y) (hne : y ≠ rootDirSector) :
    s.Spares (s.onDisk y).Covers := by
  refine ⟨fun x hx hk => ?_, fun k hroot hk => ?_⟩
  · obtain rfl := h.disjoint x y x hx hy (s.occupies_self x) (.inr hk)
    exact h.apart x hx hk
  · exact hne (h.disjoint _ _ k s.live_rootDir hy (.inr hroot) (.inr hk)).symm

/-- Sectors that no live inode occupies. -/
theorem spares_of_free (h : ∀ x k, s.Live x → s.Occupies x k → ¬K k) : s.Spares K :=
  ⟨fun x hx => h x x hx (s.occupies_self x), fun k hk => h _ k s.live_rootDir (.inr hk)⟩

theorem DiskChange.onDisk (h : DiskChange K s s') (hx : ¬K x) : s'.onDisk x = s.onDisk x := by
  rw [Fs.onDisk, Fs.onDisk, h.disk x hx]

/-- The place of an entry's byte on the disk. -/
theorem covers_entry {d : InodeDisk} (hlt : d.length < 2 ^ 31) (hj : j < entryCnt d) {i : ℕ}
    (hi : i < dirEntrySize) :
    d.Covers (d.start + (j * dirEntrySize + i) / blockSectorSize) := by
  have hpos : ((j * dirEntrySize + i : ℕ) : ℤ) < d.length := by
    simp only [entryCnt, dirEntrySize] at hj hi ⊢
    omega
  have := lt_bytesToSectors hlt hpos
  exact ⟨Nat.le_add_right _ _, Nat.add_lt_add_left this _⟩

/-- The entries are what they were if their bytes are. -/
theorem names_congr (hroot : s'.onDisk rootDirSector = s.onDisk rootDirSector)
    (hcell : ∀ i < dirEntrySize, j < entryCnt (s.onDisk rootDirSector) →
      s'.entry j i = s.entry j i) : s'.Names j x ↔ s.Names j x := by
  rw [Names, Names, hroot]
  refine and_congr_right fun hj => ?_
  obtain ⟨huse, hsector, -⟩ := DirEntry.congr fun i hi => hcell i hi hj
  rw [huse, hsector]

theorem titled_congr (hroot : s'.onDisk rootDirSector = s.onDisk rootDirSector)
    (hcell : ∀ i < dirEntrySize, j < entryCnt (s.onDisk rootDirSector) →
      s'.entry j i = s.entry j i) : s'.Titled j ↔ s.Titled j := by
  rw [Titled, Titled, hroot]
  refine forall_congr' fun hj => ?_
  obtain ⟨huse, -, hname⟩ := DirEntry.congr fun i hi => hcell i hi hj
  rw [huse, hname]

theorem onDisk_of_device (h : s'.device = s.device) (x : ℕ) : s'.onDisk x = s.onDisk x := by
  rw [onDisk, onDisk, h]

/-- The directory is on the device. -/
theorem entry_of_device (h : s'.device = s.device) (j : ℕ) : s'.entry j = s.entry j := by
  funext i
  rw [entry, entry, onDisk_of_device h, h]

theorem names_of_device (h : s'.device = s.device) : s'.Names j x ↔ s.Names j x :=
  names_congr (onDisk_of_device h _) fun i _ _ => by rw [entry_of_device h]

/-- A write that spares the directory leaves its entries as they are. -/
theorem DiskChange.entry (h : DiskChange K s s') (hK : s.Spares K)
    (hlt : (s.onDisk rootDirSector).length < 2 ^ 31) {i : ℕ} (hi : i < dirEntrySize)
    (hj : j < entryCnt (s.onDisk rootDirSector)) : s'.entry j i = s.entry j i := by
  rw [Fs.entry, Fs.entry, h.onDisk (hK.inodes _ s.live_rootDir)]
  exact cell_congr (h.disk _ (hK.root _ (covers_entry hlt hj hi)))

theorem DiskChange.names (h : DiskChange K s s') (hK : s.Spares K)
    (hlt : (s.onDisk rootDirSector).length < 2 ^ 31) : s'.Names j x ↔ s.Names j x :=
  names_congr (h.onDisk (hK.inodes _ s.live_rootDir)) fun _ hi hj => h.entry hK hlt hi hj

/-- The inodes that are live are those that were. -/
theorem live_congr (hnames : ∀ j, s'.Names j x ↔ s.Names j x)
    (hopen : (∃ i ∈ s'.openInodes, i.sector = x) ↔ ∃ i ∈ s.openInodes, i.sector = x) :
    s'.Live x ↔ s.Live x := by
  rw [Live, Live, hopen, exists_congr hnames]

theorem DiskChange.live (h : DiskChange K s s') (hK : s.Spares K)
    (hlt : (s.onDisk rootDirSector).length < 2 ^ 31) : s'.Live x ↔ s.Live x :=
  live_congr (fun _ => h.names hK hlt) (by rw [h.openInodes])

theorem Space.root_lt (h : s.Space) : (s.onDisk rootDirSector).length < 2 ^ 31 :=
  (h.within _ s.live_rootDir).2.lt

/-- **A write that spares** the live inodes and the directory keeps the space in order. -/
theorem Space.change (h : s.Space) (hs : DiskChange K s s') (hK : s.Spares K) : s'.Space := by
  have hlive : ∀ {x}, s'.Live x ↔ s.Live x := hs.live hK h.root_lt
  have hdisk : ∀ {x}, s'.Live x → s'.onDisk x = s.onDisk x := fun hx =>
    hs.onDisk (hK.inodes _ (hlive.mp hx))
  have hocc : ∀ {x k}, s'.Live x → (s'.Occupies x k ↔ s.Occupies x k) := fun hx => by
    rw [Occupies, Occupies, hdisk hx]
  refine ⟨fun x hx => ?_, fun x k hx hk => ?_, fun x y k hx hy hkx hky => ?_, fun x hx => ?_,
    fun i j x hi hj => ?_, fun j x hj => ?_, fun j => ?_⟩
  · obtain ⟨hlt, hwithin⟩ := h.within x (hlive.mp hx)
    rw [hdisk hx, hs.size]
    exact ⟨hlt, hwithin.change hs.size⟩
  · rw [hs.freeMap]
    exact h.marked x k (hlive.mp hx) ((hocc hx).mp hk)
  · exact h.disjoint x y k (hlive.mp hx) (hlive.mp hy) ((hocc hx).mp hkx) ((hocc hy).mp hky)
  · rw [hdisk hx]
    exact h.apart x (hlive.mp hx)
  · exact h.once i j x ((hs.names hK h.root_lt).mp hi) ((hs.names hK h.root_lt).mp hj)
  · exact h.system j x ((hs.names hK h.root_lt).mp hj)
  · exact (titled_congr (hdisk (hlive.mpr s.live_rootDir)) fun _ hi hj =>
      hs.entry hK h.root_lt hi hj).mpr (h.titled j)

/-- Fewer inodes are live, or more sectors are marked. -/
theorem Space.shrink (h : s.Space) (hdev : s'.device = s.device)
    (hlive : ∀ x, s'.Live x → s.Live x)
    (hmap : ∀ x k, s'.Live x → s.Occupies x k → s'.freeMap k = true) : s'.Space := by
  have hdisk := onDisk_of_device hdev
  have hocc : ∀ {x k}, s'.Occupies x k ↔ s.Occupies x k := fun {x k} => by
    rw [Occupies, Occupies, hdisk]
  refine ⟨fun x hx => ?_, fun x k hx hk => ?_, fun x y k hx hy hkx hky => ?_, fun x hx => ?_,
    fun i j x hi hj => ?_, fun j x hj => ?_, fun j => ?_⟩
  · rw [hdisk, hdev]
    exact h.within x (hlive x hx)
  · exact hmap x k hx (hocc.mp hk)
  · exact h.disjoint x y k (hlive x hx) (hlive y hy) (hocc.mp hkx) (hocc.mp hky)
  · rw [hdisk]
    exact h.apart x (hlive x hx)
  · exact h.once i j x ((names_of_device hdev).mp hi) ((names_of_device hdev).mp hj)
  · exact h.system j x ((names_of_device hdev).mp hj)
  · exact (titled_congr (hdisk _) fun i _ _ => by rw [entry_of_device hdev]).mpr (h.titled j)

/-! ### New inodes -/

/-- The sector is marked, and no live inode occupies it. -/
structure Spare (s : Fs) (k : ℕ) : Prop where
  lt : k < s.device.size
  marked : s.freeMap k = true
  free : ∀ x, s.Live x → ¬s.Occupies x k

/-- **An inode that nobody names yet**: its sectors are spare. -/
structure Embryo (s : Fs) (x : ℕ) : Prop where
  spare : ∀ k, s.Occupies x k → s.Spare k
  within : (s.onDisk x).Within s.device
  apart : ¬(s.onDisk x).Covers x

/-- An inode that nobody names yet is not live. -/
theorem Embryo.not_live (h : s.Embryo x) : ¬s.Live x := fun hx =>
  (h.spare x (s.occupies_self x)).free x hx (s.occupies_self x)

/-- **A change of one directory entry**: it names nothing after that, or an inode that
nobody names yet. -/
theorem Space.rename (h : s.Space) (hs : DiskChange (s.onDisk rootDirSector).Covers s s')
    (hold : ∀ j' ≠ j, ∀ i < dirEntrySize, s'.entry j' i = s.entry j' i)
    (hnew : ∀ x, s'.Names j x → s.Embryo x) (htitled : s'.Titled j) : s'.Space := by
  have hroot := hs.onDisk (h.apart _ s.live_rootDir)
  have hold' : ∀ i x, i ≠ j → (s'.Names i x ↔ s.Names i x) := fun i x hne =>
    names_congr hroot fun k hk _ => hold i hne k hk
  have hlive : ∀ {x}, s'.Live x → s.Live x ∨ s.Embryo x ∧ s'.Names j x := by
    rintro x (hx | hx | ⟨i, hi⟩ | hx)
    · exact .inl (.inl hx)
    · exact .inl (.inr (.inl hx))
    · rcases eq_or_ne i j with rfl | hij
      · exact .inr ⟨hnew x hi, hi⟩
      · exact .inl (.inr (.inr (.inl ⟨i, (hold' i x hij).mp hi⟩)))
    · rw [hs.openInodes] at hx
      exact .inl (.inr (.inr (.inr hx)))
  -- the directory's data hold no inode that is live, or becomes so
  have hdisk : ∀ {x}, s'.Live x → s'.onDisk x = s.onDisk x := by
    intro x hx
    refine hs.onDisk fun hk => ?_
    rcases hlive hx with hx | ⟨hx, -⟩
    · obtain rfl := h.disjoint x _ x hx s.live_rootDir (s.occupies_self x) (.inr hk)
      exact h.apart _ hx hk
    · exact (hx.spare _ (s.occupies_self _)).free _ s.live_rootDir (.inr hk)
  have hocc : ∀ {x k}, s'.Live x → s'.Occupies x k → s.Occupies x k := fun hx hk => by
    rw [Occupies, hdisk hx] at hk
    exact hk
  refine ⟨fun x hx => ?_, fun x k hx hk => ?_, fun x y k hx hy hkx hky => ?_, fun x hx => ?_,
    fun i i' x hi hi' => ?_, fun i x hi => ?_, fun i => ?_⟩
  · rw [hdisk hx, hs.size]
    rcases hlive hx with hx | ⟨hx, -⟩
    · exact ⟨(h.within x hx).1, (h.within x hx).2.change hs.size⟩
    · exact ⟨(hx.spare x (s.occupies_self x)).lt, hx.within.change hs.size⟩
  · rw [hs.freeMap]
    have hk := hocc hx hk
    rcases hlive hx with hx | ⟨hx, -⟩
    · exact h.marked x k hx hk
    · exact (hx.spare k hk).marked
  · have hkx := hocc hx hkx
    have hky := hocc hy hky
    rcases hlive hx with hx | ⟨hx, hnx⟩ <;> rcases hlive hy with hy | ⟨hy, hny⟩
    · exact h.disjoint x y k hx hy hkx hky
    · exact absurd hkx ((hy.spare k hky).free x hx)
    · exact absurd hky ((hx.spare k hkx).free y hy)
    · exact hnx.2.2.symm.trans hny.2.2
  · rw [hdisk hx]
    rcases hlive hx with hx | ⟨hx, -⟩
    · exact h.apart x hx
    · exact hx.apart
  · by_cases hij : i = j <;> by_cases hij' : i' = j
    · exact hij.trans hij'.symm
    · rw [hold' i' x hij'] at hi'
      subst hij
      exact absurd (.inr (.inr (.inl ⟨i', hi'⟩))) (hnew x hi).not_live
    · rw [hold' i x hij] at hi
      subst hij'
      exact absurd (.inr (.inr (.inl ⟨i, hi⟩))) (hnew x hi').not_live
    · exact h.once i i' x ((hold' i x hij).mp hi) ((hold' i' x hij').mp hi')
  · by_cases hij : i = j
    · subst hij
      refine ⟨?_, ?_⟩
      · rintro rfl
        exact (hnew _ hi).not_live s.live_freeMap
      · rintro rfl
        exact (hnew _ hi).not_live s.live_rootDir
    · exact h.system i x ((hold' i x hij).mp hi)
  · rcases eq_or_ne i j with rfl | hij
    · exact htitled
    · exact (titled_congr hroot fun k hk _ => hold i hij k hk).mpr (h.titled i)

end Fs

end Pintos
