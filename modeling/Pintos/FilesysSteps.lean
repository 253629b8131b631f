import Pintos.FilesysTable

/-!
# Sectors and Inodes

The functions below the directory keep the invariant of the file system. Each has one
lemma that says what it does from a state in order, whatever its allocations of memory are
answered: sectors are allocated and freed, inodes are created, opened, closed and removed.

## Main results

* `Inv.freeMapAllocate`, `Inv.freeMapRelease`, `Inv.inodeCreate`: the sectors.
* `Inv.inodeOpen`, `Inv.inodeClose`, `Inv.inodeRemove`: the inodes.
-/

namespace Pintos

open Verif Function List Bitmap

namespace Fs

variable {s s' : Fs} {held : List InodeRef} {K : ℕ → Prop} {x k : ℕ} {r : Bool}
  {E : FsPanic → Prop}

/-! ### Changes of the device and of the free map -/

theorem Table.congr (h : s.Table held) (hopen : s'.openInodes = s.openInodes)
    (hfiles : s'.files = s.files) (hmap : s'.freeMapFile = s.freeMapFile)
    (hnext : s'.next = s.next) : s'.Table held := by
  constructor <;> simp only [hopen, hfiles, hmap, hnext]
  exacts [h.refs, h.sectors, h.ptrs, h.freshRef, h.freshPtr, h.opened, h.holds, h.count, h.deny,
    h.map]

/-- The order of the references that the call holds does not matter. -/
theorem Inv.perm {held' : List InodeRef} (h : s.Inv held) (hperm : held.Perm held') :
    s.Inv held' := by
  have t := h.table
  refine ⟨h.space, ⟨t.refs, t.sectors, t.ptrs, t.freshRef, t.freshPtr, t.opened, fun ref href => ?_,
    fun i hi => ?_, t.deny, t.map⟩, h.data, h.removed, h.format⟩
  · exact t.holds ref (hperm.mem_iff.mpr href)
  · rw [← hperm.count_eq]
    exact t.count i hi

/-- A write that spares the live inodes and the directory keeps the invariant. -/
theorem Inv.change (h : s.Inv held) (hs : DiskChange K s s') (hK : s.Spares K) :
    s'.Inv held := by
  have hdisk : ∀ {x}, s.Live x → s'.onDisk x = s.onDisk x := fun hx =>
    hs.onDisk (hK.inodes _ hx)
  refine ⟨h.space.change hs hK, h.table.congr hs.openInodes hs.files hs.freeMapFile ?_,
    fun i hi => ?_, fun i hi hr => ?_, ?_⟩
  · rw [hs.same]
  · rw [hs.openInodes] at hi
    rw [hdisk (live_open hi)]
    exact h.data i hi
  · rw [hs.openInodes] at hi
    obtain ⟨h₁, h₂, h₃⟩ := h.removed i hi hr
    exact ⟨h₁, h₂, fun j hj => h₃ j ((hs.names hK h.space.root_lt).mp hj)⟩
  · rw [hdisk s.live_freeMap, hdisk s.live_rootDir, hs.size]
    exact h.format

/-- The free map may be any that has the sectors of the live inodes marked. -/
theorem Inv.remap (h : s.Inv held) {m : ℕ → Bool}
    (hm : ∀ x k, s.Live x → s.Occupies x k → m k = true) :
    { s with freeMap := m }.Inv held :=
  ⟨h.space.shrink rfl (fun _ hx => hx) hm, h.table.congr rfl rfl rfl rfl, h.data, h.removed,
    h.format⟩

/-- More sectors may be marked. -/
theorem Inv.mark (h : s.Inv held) (sector cnt : ℕ) :
    { s with freeMap := setMultiple s.freeMap sector cnt true }.Inv held := by
  refine h.remap fun x k hx hk => ?_
  rw [setMultiple]
  split
  · rfl
  · exact h.space.marked x k hx hk

theorem Spares.remap (h : s.Spares K) (m : ℕ → Bool) : { s with freeMap := m }.Spares K :=
  ⟨h.inodes, h.root⟩

theorem Spare.change (hk : s.Spare k) (hlt : (s.onDisk rootDirSector).length < 2 ^ 31)
    (hs : DiskChange K s s') (hK : s.Spares K) : s'.Spare k := by
  refine ⟨?_, ?_, fun x hx hocc => ?_⟩
  · rw [hs.size]
    exact hk.lt
  · rw [hs.freeMap]
    exact hk.marked
  · have hx := (hs.live hK hlt).mp hx
    rw [Occupies, hs.onDisk (hK.inodes x hx)] at hocc
    exact hk.free x hx hocc

/-! ### The free map -/

/-- Nobody can deny writes to the free map's file. -/
theorem Inv.mapFile (h : s.Inv held) : ∃ f i, s.MapFile f i ∧ i.data = s.onDisk freeMapSector ∧
    i.denyWriteCnt = 0 := by
  obtain ⟨f, hf, hptr, hdeny, i, hi, href, hsector⟩ := h.table.map
  have hdata : i.data = s.onDisk freeMapSector := by
    rw [h.data i hi, hsector]
  refine ⟨f, i, ⟨hptr, h.table.find_file hf, ?_, ?_⟩, hdata, ?_⟩
  · rw [← href]
    exact h.table.find_inode hi
  · rw [hdata]
    exact (h.space.within _ s.live_freeMap).2
  · rw [h.table.deny i hi, Nat.cast_eq_zero, countP_eq_zero]
    intro g hg hgi
    obtain ⟨hgi, hgdeny⟩ := of_decide_eq_true hgi
    obtain ⟨j, hj, hjg, -, hmap⟩ := h.table.opened g hg
    -- the inode has one file only, the one that the free map is written through
    obtain rfl := h.table.inode_unique hj hi (hjg.trans hgi)
    have hgf : g = f :=
      eq_of_key h.table.ptrs hg hf (Option.mem_unique (hmap hsector) hptr)
    rw [hgf, hdeny] at hgdeny
    cases hgdeny

theorem Inv.of_mapFile (h : s.Inv held) {f : File} {i : Inode} (hmap : s.MapFile f i) :
    i.data = s.onDisk freeMapSector ∧ i.denyWriteCnt = 0 := by
  obtain ⟨f', i', hmap', hdata, hdeny⟩ := h.mapFile
  rw [hmap.unique hmap']
  exact ⟨hdata, hdeny⟩

/-- The sectors of the free map's file hold nothing else. -/
theorem Space.spares_map (h : s.Space) : s.Spares (s.onDisk freeMapSector).Covers :=
  h.spares_data s.live_freeMap (by decide)

theorem Inv.diskChange_map (h : s.Inv held) {s₁ : Fs} (hs : DiskChange s.MapCovers s₁ s') :
    DiskChange (s.onDisk freeMapSector).Covers s₁ s' := by
  refine ⟨hs.same, hs.size, fun k hk => hs.disk k ?_⟩
  rintro ⟨f, i, hmap, hc⟩
  exact hk ((h.of_mapFile hmap).1 ▸ hc)

/-- The free map that the free map's file holds. -/
def savedMap (s : Fs) : ℕ → Bool :=
  ofBytes s.device.size
    (slice s.device.disk (s.onDisk freeMapSector).start 0 (byteCnt s.device.size))

/-- The free map that was written is the one that is read. -/
theorem savedMap_eq (helements : byteCnt s.device.size ≠ 0)
    (hwritten : ∀ k < byteCnt s.device.size,
      cell s.device.disk (s.onDisk freeMapSector).start k = bytes s.freeMap k) {k : ℕ}
    (hk : k < s.device.size) : s.savedMap k = s.freeMap k := by
  refine ofBytes_bytes ?_ (fun b hb => ?_) hk
  · have hlt := s.device.size_lt
    rw [byteCnt] at helements
    omega
  · rw [getD_eq_getElem?_getD, getElem?_slice hb, Option.getD_some, Nat.zero_add]
    exact hwritten b hb

/-- **The free map's file is up to date**: it holds the bits of the free map. -/
structure MapSaved (s : Fs) : Prop where
  elements : byteCnt s.device.size ≠ 0
  bits : ∀ k < s.device.size, s.savedMap k = s.freeMap k

/-- If no memory is refused, the free map's file is up to date after a call if it was before. -/
def Saves (s : Fs) (r : Bool) (s' : Fs) : Prop := r = false → s.MapSaved → s'.MapSaved

theorem Saves.refl (s : Fs) (r : Bool) : s.Saves r s := fun _ hs => hs

theorem Saves.trans {s₁ : Fs} (h : s.Saves r s₁) (h' : s₁.Saves r s') : s.Saves r s' :=
  fun hr hs => h' hr (h hr hs)

theorem Saves.of_same (hdev : s'.device = s.device) (hmap : s'.freeMap = s.freeMap) :
    s.Saves r s' := by
  intro _ hs
  have hsaved : s'.savedMap = s.savedMap := by rw [savedMap, savedMap, onDisk_of_device hdev, hdev]
  exact ⟨hdev ▸ hs.elements, fun k hk => by rw [hsaved, hmap, hs.bits k (hdev ▸ hk)]⟩

/-- A write elsewhere leaves the free map's file as it is. -/
theorem Inv.saves_change (h : s.Inv held) (hs : DiskChange K s s')
    (hK : ∀ k, s.Occupies freeMapSector k → ¬K k) : s.Saves r s' := by
  have hcell : ∀ k < byteCnt s.device.size,
      cell s'.device.disk (s.onDisk freeMapSector).start k =
        cell s.device.disk (s.onDisk freeMapSector).start k := by
    intro k hk
    refine cell_congr (hs.disk _ (hK _ (.inr ⟨Nat.le_add_right _ _, Nat.add_lt_add_left ?_ _⟩)))
    refine lt_bytesToSectors (h.space.within _ s.live_freeMap).2.lt ?_
    rw [h.format.1]
    omega
  have hsaved : s'.savedMap = s.savedMap := by
    rw [savedMap, savedMap, hs.onDisk (hK _ (s.occupies_self _)), hs.size]
    refine congrArg _ (map_congr_left fun k hk => ?_)
    rw [Nat.zero_add]
    exact hcell k (mem_range.mp hk)
  intro _ hmap
  refine ⟨hs.size ▸ hmap.elements, fun k hk => ?_⟩
  rw [hsaved, hs.freeMap, hmap.bits k (hs.size ▸ hk)]

/-- Writing to the data of another inode. -/
theorem Inv.saves_data (h : s.Inv held) {y : ℕ} (hy : s.Live y) (hne : y ≠ freeMapSector)
    (hs : DiskChange (s.onDisk y).Covers s s') : s.Saves r s' :=
  h.saves_change hs fun k hk hc => hne (h.space.disjoint _ _ k hy s.live_freeMap (.inr hc) hk)

theorem Inv.saved_of_written (h : s.Inv held) {f : File} {i : Inode} (hmap : s.MapFile f i)
    (helements : byteCnt s.device.size ≠ 0) (hwritten : s.MapWritten i) : s.MapSaved := by
  rw [MapWritten, (h.of_mapFile hmap).1] at hwritten
  exact ⟨helements, fun k hk => savedMap_eq helements hwritten hk⟩

/-- The free map's file can be written, and is large enough. -/
theorem Inv.map_writable (h : s.Inv held) (f : File) (i : Inode) (hmap : s.MapFile f i) :
    i.denyWriteCnt = 0 ∧ (byteCnt s.device.size : ℤ) ≤ i.data.length := by
  obtain ⟨hdata, hdeny⟩ := h.of_mapFile hmap
  rw [hdata, h.format.1]
  exact ⟨hdeny, le_rfl⟩

/-- **An allocation** marks sectors that were free, or changes nothing. -/
theorem Inv.freeMapAllocate (h : s.Inv held) (cnt : ℕ) :
    (s.freeMapAllocate cnt).Spec r E fun v => v.2.Inv held ∧ s.Saves r v.2 ∧
      match v.1 with
      | none => DiskChange (s.onDisk freeMapSector).Covers s v.2 ∧
          (r = false → scan s.freeMap s.device.size cnt false = none)
      | some sector => scan s.freeMap s.device.size cnt false = some sector ∧
          DiskChange (s.onDisk freeMapSector).Covers
            { s with freeMap := setMultiple s.freeMap sector cnt true } v.2 := by
  obtain ⟨f, i, hmap, hdata, hdeny⟩ := h.mapFile
  refine (freeMapAllocate_spec (.inr ⟨f, i, hmap⟩) cnt).mono fun v hv => ?_
  obtain ⟨start, s'⟩ := v
  cases start with
  | none =>
    obtain ⟨hs, hscan⟩ := hv
    have hs := h.diskChange_map hs
    have hnothing := fun hr => hscan hr h.map_writable
    refine ⟨h.change hs h.space.spares_map, fun hr hsaved => ?_, hs, fun hr => (hnothing hr).1⟩
    rw [(hnothing hr).2]
    exact hsaved
  | some sector =>
    obtain ⟨hscan, hs, hwritten⟩ := hv
    have hs := h.diskChange_map hs
    have h' := (h.mark sector cnt).change hs (h.space.spares_map.remap _)
    refine ⟨h', fun _ hsaved => ?_, hscan, hs⟩
    exact h'.saved_of_written ((hmap.remap _).change hs) (hs.size ▸ hsaved.elements)
      (hwritten f i hmap)

/-- The sectors that an allocation found. -/
theorem Inv.spare_of_scan (h : s.Inv held) {cnt sector : ℕ}
    (hscan : scan s.freeMap s.device.size cnt false = some sector)
    (hk : sector ≤ k ∧ k < sector + cnt) :
    { s with freeMap := setMultiple s.freeMap sector cnt true }.Spare k := by
  obtain ⟨hfits, hfree⟩ := scan_eq_some hscan
  refine ⟨?_, setMultiple_of_mem hk.1 hk.2, fun x hx hocc => ?_⟩
  · exact lt_of_lt_of_le hk.2 hfits
  · have hmarked := h.space.marked x k hx hocc
    rw [hfree k hk.1 hk.2] at hmarked
    cases hmarked

theorem Spare.remap (hk : s.Spare k) {m : ℕ → Bool} (hm : m k = true) :
    { s with freeMap := m }.Spare k :=
  ⟨hk.lt, hm, hk.free⟩

theorem Spare.mark (hk : s.Spare k) (sector cnt : ℕ) :
    { s with freeMap := setMultiple s.freeMap sector cnt true }.Spare k := by
  refine hk.remap ?_
  rw [setMultiple]
  split
  · rfl
  · exact hk.marked

/-- **A release** of sectors that no live inode occupies. -/
theorem Inv.freeMapRelease (h : s.Inv held) (sector cnt : ℕ)
    (hsize : sector + cnt ≤ s.device.size)
    (hspare : ∀ k, sector ≤ k → k < sector + cnt → s.Spare k) :
    (s.freeMapRelease sector cnt).Spec r E fun s' => s'.Inv held ∧ s.Saves r s' ∧
      DiskChange (s.onDisk freeMapSector).Covers
        { s with freeMap := setMultiple s.freeMap sector cnt false } s' := by
  obtain ⟨f, i, hmap, hdata, -⟩ := h.mapFile
  refine (freeMapRelease_spec hmap hsize fun k h₁ h₂ => (hspare k h₁ h₂).marked).mono
    fun s' hs => ?_
  obtain ⟨hs, hwritten⟩ := hs
  rw [hdata] at hs
  have h₀ : { s with freeMap := setMultiple s.freeMap sector cnt false }.Inv held := by
    refine h.remap fun x k hx hk => ?_
    rw [setMultiple, if_neg fun hrange => (hspare k hrange.1 hrange.2).free x hx hk]
    exact h.space.marked x k hx hk
  have h' := h₀.change hs (h.space.spares_map.remap _)
  obtain ⟨hdeny, hlength⟩ := h.map_writable f i hmap
  refine ⟨h', fun hr hsaved => ?_, hs⟩
  exact h'.saved_of_written ((hmap.remap _).change hs) (hs.size ▸ hsaved.elements)
    (hwritten hr hdeny hlength)

/-! ### Creating inodes -/

/-- What the loop that fills an inode's data with zeros does. -/
theorem zeroFill_spec {dev : Device} {start n : ℕ} (hfits : start + n ≤ dev.size) :
    (zeroFill dev start n).Spec r E fun dev' => dev'.size = dev.size ∧
      ∀ k, dev'.disk k = if start ≤ k ∧ k < start + n then zeros else dev.disk k := by
  induction n with
  | zero =>
    refine .pure ⟨rfl, fun k => ?_⟩
    rw [if_neg (by omega)]
  | succ n ih =>
    rw [zeroFill]
    refine (ih (by omega)).bind fun dev' hdev => ?_
    obtain ⟨hsize, hdisk⟩ := hdev
    have hlt := dev.size_lt
    rw [Nat.mod_eq_of_lt (by omega)]
    refine (Device.blockWrite_spec (by omega)).mono fun dev'' hdev => ?_
    subst hdev
    refine ⟨hsize, fun k => ?_⟩
    show update dev'.disk (start + n) zeros k = _
    rw [update_apply, hdisk]
    by_cases hk : k = start + n
    · rw [if_pos hk, if_pos (by omega)]
    · rw [if_neg hk]
      exact if_congr (by omega) rfl rfl

/-- What `inode_create` does: nothing, or it takes sectors for the data, fills them with
zeros and writes the inode. -/
theorem inodeCreate_spec {sector : ℕ} {length : ℤ} (h : s.MapReady)
    (hsector : s.device.size ≤ sector → E .pastEnd) (hneg : length < 0 → E .lengthNegative) :
    (s.inodeCreate sector length).Spec r E fun v =>
      match v.1 with
      | false => DiskChange s.MapCovers s v.2 ∧
          (r = false → (∀ f i, s.MapFile f i → i.denyWriteCnt = 0 ∧
              (byteCnt s.device.size : ℤ) ≤ i.data.length) →
            scan s.freeMap s.device.size (bytesToSectors length) false = none ∧ v.2 = s)
      | true => 0 ≤ length ∧ sector < s.device.size ∧ ∃ start s₁,
          scan s.freeMap s.device.size (bytesToSectors length) false = some start ∧
          DiskChange s.MapCovers
            { s with freeMap := setMultiple s.freeMap start (bytesToSectors length) true }
            s₁ ∧
          (∀ f i, s.MapFile f i → s₁.MapWritten i) ∧
          DiskChange (fun k => k = sector ∨ (start ≤ k ∧ k < start + bytesToSectors length))
            s₁ v.2 ∧
          ∀ k, k = sector ∨ (start ≤ k ∧ k < start + bytesToSectors length) →
            v.2.device.disk k = if start ≤ k ∧ k < start + bytesToSectors length then zeros
              else InodeDisk.encode ⟨start, length, inodeMagic⟩ := by
  rw [Fs.inodeCreate]
  refine .assert_of (fun hlength => hneg (by omega)) fun hlength => ?_
  refine OracleM.Spec.draw.bind fun memory hmemory => ?_
  split
  · rename_i hfalse
    refine .pure ⟨.refl _ s, fun hr => ?_⟩
    rw [hmemory hr] at hfalse
    cases hfalse
  refine (freeMapAllocate_spec h (bytesToSectors length)).bind fun v hv => ?_
  obtain ⟨start, s₁⟩ := v
  cases start with
  | none => exact .pure hv
  | some start =>
    obtain ⟨hscan, hs, hmap⟩ := hv
    obtain ⟨hfits, -⟩ := scan_eq_some hscan
    have hsize : s₁.device.size = s.device.size := hs.size
    have hwrite : (s₁.device.blockWrite sector
        (InodeDisk.encode ⟨start, length, inodeMagic⟩)).Spec r E fun dev =>
        sector < s₁.device.size ∧ dev = { s₁.device with
          disk := update s₁.device.disk sector
            (InodeDisk.encode ⟨start, length, inodeMagic⟩) } :=
      .assert_of (fun hlt => hsector (by omega)) fun hlt => .pure ⟨hlt, rfl⟩
    refine hwrite.bind fun dev hdev => ?_
    obtain ⟨hlt, rfl⟩ := hdev
    rw [hsize] at hlt
    refine (zeroFill_spec (by show _ ≤ s₁.device.size; omega)).bind fun dev hdev => .pure ?_
    obtain ⟨hdsize, hdisk⟩ := hdev
    refine ⟨hlength, hlt, start, s₁, hscan, hs, hmap, ⟨rfl, hdsize, fun k hk => ?_⟩, fun k hk => ?_⟩
    · rw [not_or] at hk
      show dev.disk k = _
      rw [hdisk, if_neg hk.2]
      exact update_of_ne hk.1 _ _
    · show dev.disk k = _
      rw [hdisk]
      split
      · rfl
      · obtain rfl := hk.resolve_right ‹_›
        exact update_self _ _ _

/-- The sectors that change when an inode is created: those of the free map's file, and those
that the inode takes. -/
def Taken (s : Fs) (sector start cnt k : ℕ) : Prop :=
  (s.onDisk freeMapSector).Covers k ∨ k = sector ∨ (start ≤ k ∧ k < start + cnt)

/-- **Creating an inode** in a spare sector: nobody names it yet. -/
theorem Inv.inodeCreate (h : s.Inv held) {sector : ℕ} {length : ℤ} (hsector : s.Spare sector)
    (hneg : length < 0 → E .lengthNegative) (hlt : length < 2 ^ 31) :
    (s.inodeCreate sector length).Spec r E fun v => v.2.Inv held ∧ s.Saves r v.2 ∧
      match v.1 with
      | false => DiskChange (s.onDisk freeMapSector).Covers s v.2 ∧
          (r = false →
            scan s.freeMap s.device.size (bytesToSectors length) false = none)
      | true => v.2.Embryo sector ∧ ∃ start,
          scan s.freeMap s.device.size (bytesToSectors length) false = some start ∧
          s.Spares (s.Taken sector start (bytesToSectors length)) ∧
          DiskChange (s.Taken sector start (bytesToSectors length))
            { s with freeMap := setMultiple s.freeMap start (bytesToSectors length) true }
            v.2 ∧
          v.2.onDisk sector = ⟨start, length, inodeMagic⟩ ∧
          ∀ k, start ≤ k → k < start + bytesToSectors length → v.2.device.disk k = zeros := by
  obtain ⟨f, i, hmap, -⟩ := h.mapFile
  refine (inodeCreate_spec (.inr ⟨f, i, hmap⟩)
    (fun hle => absurd hsector.lt (Nat.not_lt.mpr hle)) hneg).mono fun v hv => ?_
  obtain ⟨created, s'⟩ := v
  cases created with
  | false =>
    obtain ⟨hs, hscan⟩ := hv
    have hs := h.diskChange_map hs
    have hnothing := fun hr => hscan hr h.map_writable
    refine ⟨h.change hs h.space.spares_map, fun hr hsaved => ?_, hs, fun hr => (hnothing hr).1⟩
    rw [(hnothing hr).2]
    exact hsaved
  | true =>
    obtain ⟨hlength, -, start, s₁, hscan, hmark, hwritten, hwrite, hdisk⟩ := hv
    have hmark := h.diskChange_map hmark
    obtain ⟨hfits, hfree⟩ := scan_eq_some hscan
    have hout : ¬(start ≤ sector ∧ sector < start + bytesToSectors length) := fun hrange => by
      have hmarked := hsector.marked
      rw [hfree sector hrange.1 hrange.2] at hmarked
      cases hmarked
    -- the sectors that are written are spare
    have hspare : ∀ k, k = sector ∨ (start ≤ k ∧ k < start + bytesToSectors length) →
        { s with
          freeMap := setMultiple s.freeMap start (bytesToSectors length) true }.Spare
          k := by
      rintro k (rfl | hk)
      · exact hsector.mark _ _
      · exact h.spare_of_scan hscan hk
    have h₀ := h.mark start (bytesToSectors length)
    have hmap₀ := h.space.spares_map.remap
      (setMultiple s.freeMap start (bytesToSectors length) true)
    have h₁ := h₀.change hmark hmap₀
    have hspare₁ := fun k hk => (hspare k hk).change h.space.root_lt hmark hmap₀
    have hspares₁ := spares_of_free fun x k hx hocc hk => (hspare₁ k hk).free x hx hocc
    have hnode : s'.onDisk sector = ⟨start, length, inodeMagic⟩ := by
      have hsize := s.device.size_lt
      rw [onDisk, hdisk sector (.inl rfl), if_neg hout]
      exact InodeDisk.decode_encode (by dsimp only; omega) ⟨hlength, hlt⟩
        (show inodeMagic < 2 ^ 32 by decide)
    have hsaved₁ : s.MapSaved → s₁.MapSaved := fun hsaved =>
      h₁.saved_of_written ((hmap.remap _).change hmark) (hmark.size ▸ hsaved.elements)
        (hwritten f i hmap)
    have hsaves : s₁.Saves r s' := h₁.saves_change hwrite fun k hk hc =>
      (hspare₁ k hc).free _ s₁.live_freeMap hk
    refine ⟨h₁.change hwrite hspares₁, fun hr hsaved => hsaves hr (hsaved₁ hsaved),
      ⟨fun k hk => ?_, ?_, ?_⟩, start, hscan, ?_, ?_, hnode,
      fun k h₁ h₂ => (hdisk k (.inr ⟨h₁, h₂⟩)).trans (if_pos ⟨h₁, h₂⟩)⟩
    · rw [Occupies, hnode] at hk
      exact (hspare₁ k hk).change h₁.space.root_lt hwrite hspares₁
    · rw [hnode]
      refine ⟨hlength, hlt, ?_⟩
      rw [hwrite.size, hmark.size]
      exact hfits
    · rw [hnode]
      exact hout
    · refine ⟨fun x hx hk => ?_, fun k hroot hk => ?_⟩
      · rcases hk with hk | hk
        · exact h.space.spares_map.inodes x hx hk
        · exact (hspare x hk).free x hx (s.occupies_self x)
      · rcases hk with hk | hk
        · exact h.space.spares_map.root k hroot hk
        · exact (hspare k hk).free _ s.live_rootDir (.inr hroot)
    · refine ⟨?_, hwrite.size.trans hmark.size, fun k hk => ?_⟩
      · rw [hwrite.same, hmark.same]
      · rw [Taken, not_or] at hk
        exact (hwrite.disk k hk.2).trans (hmark.disk k hk.1)

/-! ### Opening and closing inodes -/

/-- The inode at the address is that of a sector. -/
def Refers (s : Fs) (ref : InodeRef) (x : ℕ) : Prop :=
  ∃ i ∈ s.openInodes, i.ref = ref ∧ i.sector = x

theorem DiskChange.refers (h : DiskChange K s s') {ref : InodeRef} :
    s'.Refers ref x ↔ s.Refers ref x := by
  rw [Refers, Refers, h.openInodes]

/-- The files that are open are the same, with all that is in them. -/
structure SameFiles (s s' : Fs) : Prop where
  files : s'.files = s.files
  pointer : s'.freeMapFile = s.freeMapFile

theorem SameFiles.refl (s : Fs) : s.SameFiles s := ⟨rfl, rfl⟩

theorem SameFiles.trans {s₁ : Fs} (h : s.SameFiles s₁) (h' : s₁.SameFiles s') : s.SameFiles s' :=
  ⟨h'.files.trans h.files, h'.pointer.trans h.pointer⟩

theorem DiskChange.sameFiles {m : ℕ → Bool} (h : DiskChange K { s with freeMap := m } s') :
    s.SameFiles s' :=
  ⟨h.files, h.freeMapFile⟩

/-- Only the open inodes change, and the call holds the references `held` after that. -/
structure Switches (held : List InodeRef) (s s' : Fs) : Prop where
  inv : s'.Inv held
  same : s.SameFiles s'
  device : s'.device = s.device
  freeMap : s'.freeMap = s.freeMap
  refers : ∀ ref ∈ held, ∀ x, s.Refers ref x → s'.Refers ref x

theorem Switches.trans {held' : List InodeRef} {s₁ : Fs} (h : s.Switches held s₁)
    (h' : s₁.Switches held' s') (hsub : ∀ ref ∈ held', ref ∈ held) : s.Switches held' s' :=
  ⟨h'.inv, h.same.trans h'.same, h'.device.trans h.device, h'.freeMap.trans h.freeMap,
    fun ref href x hx => h'.refers ref href x (h.refers ref (hsub ref href) x hx)⟩

theorem Switches.saves (h : s.Switches held s') : s.Saves r s' := .of_same h.device h.freeMap

variable {ref : InodeRef} {i : Inode}

/-- What the invariant says about an inode that is open. -/
theorem Inv.of_mem (h : s.Inv held) (hi : i ∈ s.openInodes) : s.Live i.sector ∧
    i.data = s.onDisk i.sector ∧ (i.removed = true → i.sector ≠ freeMapSector ∧
      i.sector ≠ rootDirSector ∧ ∀ j, ¬s.Names j i.sector) :=
  ⟨live_open hi, h.data i hi, h.removed i hi⟩

/-- A change of the counter of openers. -/
theorem Inv.setInode (h : s.Inv held) (hi : i ∈ s.openInodes) {held' : List InodeRef} {cnt : ℤ}
    (hcnt : cnt = s.files.countP (·.inode = i.ref) + held'.count i.ref)
    (hheld : ∀ ref, ref ≠ i.ref → held'.count ref = held.count ref) :
    s.Switches held' (s.setInode { i with openCnt := cnt }) := by
  have htable := h.table.setInode hi { i with openCnt := cnt } rfl rfl rfl hcnt hheld
  refine ⟨h.update htable rfl rfl fun j hj => ?_, ⟨rfl, rfl⟩, rfl, rfl, fun ref _ x href => ?_⟩
  · rcases (mem_replace Inode.ref).mp hj with ⟨rfl, -⟩ | ⟨hj, -⟩
    · have hold := h.of_mem hi
      exact hold
    · exact h.of_mem hj
  · obtain ⟨j, hj, hjref, hjx⟩ := href
    by_cases hji : j.ref = i.ref
    · obtain rfl := h.table.inode_unique hj hi hji
      exact ⟨_, (mem_replace Inode.ref).mpr (.inl ⟨rfl, j, hj, rfl⟩), hjref, hjx⟩
    · exact ⟨j, (mem_replace Inode.ref).mpr (.inr ⟨hj, hji⟩), hjref, hjx⟩

/-- `inode_reopen` takes another reference. -/
theorem Inv.inodeReopen (h : s.Inv held) (href : s.Refers ref x) :
    (s.inodeReopen ref).Spec r E fun s' => s.Switches (ref :: held) s' := by
  obtain ⟨i, hi, rfl, -⟩ := href
  rw [Fs.inodeReopen]
  refine (inode_spec (h.table.find_inode hi)).bind fun j hj => .pure ?_
  subst hj
  refine h.setInode hi ?_ fun ref hne => count_cons_of_ne hne.symm
  rw [h.table.count _ hi, count_cons_self]
  omega

/-- **Opening a live inode** takes a reference to it, or fails for want of memory. -/
theorem Inv.inodeOpen (h : s.Inv held) (hx : s.Live x) :
    (s.inodeOpen x).Spec r E fun v =>
      match v.1 with
      | none => r = true ∧ v.2 = s
      | some ref => s.Switches (ref :: held) v.2 ∧ v.2.Refers ref x := by
  rw [Fs.inodeOpen]
  split
  · rename_i i hfind
    obtain ⟨hi, rfl⟩ := of_find?_key hfind
    have href : s.Refers i.ref i.sector := ⟨i, hi, rfl, rfl⟩
    refine (h.inodeReopen href).bind fun s' hs => .pure ⟨hs, ?_⟩
    exact hs.refers _ mem_cons_self _ href
  · rename_i hnone
    have hclosed : ∀ i ∈ s.openInodes, i.sector ≠ x := fun i hi => by
      simpa using find?_eq_none.mp hnone i hi
    refine OracleM.Spec.draw.bind fun memory hmemory => ?_
    split_ifs with hfalse
    · refine .pure ⟨?_, rfl⟩
      cases r with
      | true => rfl
      | false =>
        rw [hmemory rfl] at hfalse
        cases hfalse
    · refine (Device.blockRead_spec (h.space.within x hx).1).bind fun b hb => .pure ?_
      subst hb
      have htable := h.table.push hclosed (s.onDisk x)
      refine ⟨⟨h.update htable rfl rfl fun j hj => ?_, ⟨rfl, rfl⟩, rfl, rfl,
        fun ref _ y href => ?_⟩, ?_⟩
      · rcases mem_cons.mp hj with rfl | hj
        · exact ⟨hx, rfl, fun hr => by cases hr⟩
        · exact h.of_mem hj
      · obtain ⟨j, hj, hjref, hjy⟩ := href
        exact ⟨j, mem_cons_of_mem _ hj, hjref, hjy⟩
      · exact ⟨_, mem_cons_self, rfl, rfl⟩

/-- The call gives a reference back. Nothing but the open inodes changes, unless an inode that was
removed is freed. -/
structure Closes (held : List InodeRef) (ref : InodeRef) (s s' : Fs) : Prop where
  inv : s'.Inv held
  same : s.SameFiles s'
  refers : ∀ ref' ∈ held, ∀ x, s.Refers ref' x → s'.Refers ref' x
  quiet : (∀ i ∈ s.openInodes, i.ref = ref → i.removed = false) → s.Switches held s'

/-- The last reference to an inode is given back. -/
theorem Inv.drop (h : s.Inv (i.ref :: held)) (hi : i ∈ s.openInodes) (hlast : i.openCnt = 1) :
    s.Switches held { s with openInodes := s.openInodes.filter (·.ref ≠ i.ref) } := by
  have htable := h.table.drop hi hlast
  refine ⟨h.update htable rfl rfl fun j hj => h.of_mem (mem_filter.mp hj).1,
    ⟨rfl, rfl⟩, rfl, rfl, fun ref href x hx => ?_⟩
  obtain ⟨j, hj, rfl, rfl⟩ := hx
  obtain ⟨j', hj', hjj⟩ := htable.holds _ href
  obtain rfl := h.table.inode_unique (mem_filter.mp hj').1 hj hjj
  exact ⟨j', hj', rfl, rfl⟩

/-- After that the sectors of an inode that was removed are spare. -/
theorem Inv.spare_of_drop (h : s.Inv held) (hi : i ∈ s.openInodes) (hremoved : i.removed = true)
    (hk : s.Occupies i.sector k) :
    { s with openInodes := s.openInodes.filter (·.ref ≠ i.ref) }.Spare k := by
  obtain ⟨hmap, hroot, hnames⟩ := h.removed i hi hremoved
  obtain ⟨hlt, hwithin⟩ := h.space.within _ (live_open hi)
  refine ⟨?_, h.space.marked _ k (live_open hi) hk, fun x hx hocc => ?_⟩
  · rcases hk with rfl | hk
    · exact hlt
    · exact lt_of_lt_of_le hk.2 hwithin.fits
  · have hlive : s.Live x := by
      refine live_of_open ?_ (fun j hj => ?_) hx
      · rfl
      · exact live_open (mem_filter.mp hj).1
    obtain rfl := h.space.disjoint x _ k hlive (live_open hi) hocc hk
    -- the inode is not live any more
    rcases hx with hx | hx | ⟨j, hj⟩ | ⟨j, hj, hji⟩
    · exact hmap hx
    · exact hroot hx
    · exact hnames j hj
    · obtain ⟨hj, hne⟩ := mem_filter.mp hj
      obtain rfl := eq_of_key h.table.sectors hj hi hji
      exact of_decide_eq_true hne rfl

/-- **Closing an inode**; if it was removed, its sectors are freed with the last reference. -/
theorem Inv.inodeClose (h : s.Inv (ref :: held)) :
    (s.inodeClose ref).Spec r E fun s' => s.Closes held ref s' ∧ s.Saves r s' := by
  obtain ⟨i, hi, rfl⟩ := h.table.holds ref mem_cons_self
  rw [Fs.inodeClose]
  refine (inode_spec (h.table.find_inode hi)).bind fun j hj => ?_
  subst hj
  split
  · rename_i hlast
    have hdrop := h.drop hi (by omega)
    split_ifs with hremoved
    · have hspare := fun k => h.spare_of_drop (k := k) hi hremoved
      obtain ⟨hlt, hwithin⟩ := h.space.within _ (live_open hi)
      refine (hdrop.inv.freeMapRelease j.sector 1 hlt fun k h₁ h₂ =>
        hspare k (.inl (by omega))).bind fun s₂ hs₂ => ?_
      obtain ⟨h₂, hsaves₂, hs₂⟩ := hs₂
      rw [← h.data _ hi] at hwithin
      refine (h₂.freeMapRelease _ _ ?_ fun k h₁ h₂ => ?_).mono fun s₃ hs₃ =>
        ⟨⟨hs₃.1, ?_, ?_, ?_⟩, hdrop.saves.trans (hsaves₂.trans hs₃.2.1)⟩
      · rw [hs₂.size]
        exact hwithin.fits
      · have hcovers : j.data.Covers k := ⟨h₁, h₂⟩
        rw [h.data _ hi] at hcovers
        have hk := hspare k (.inr hcovers)
        have hne : ¬(j.sector ≤ k ∧ k < j.sector + 1) := fun hrange => by
          obtain rfl : k = j.sector := by omega
          exact h.space.apart _ (live_open hi) hcovers
        exact (hk.remap ((if_neg hne).trans hk.marked)).change h.space.root_lt hs₂
          (hdrop.inv.space.spares_map.remap _)
      · exact hdrop.same.trans (hs₂.sameFiles.trans hs₃.2.2.sameFiles)
      · intro ref' href x hx
        exact hs₃.2.2.refers.mpr (hs₂.refers.mpr (hdrop.refers ref' href x hx))
      · intro hquiet
        rw [hquiet j hi rfl] at hremoved
        cases hremoved
    · exact .pure ⟨⟨hdrop.inv, hdrop.same, hdrop.refers, fun _ => hdrop⟩, hdrop.saves⟩
  · refine .pure ?_
    have hs : s.Switches held (s.setInode { j with openCnt := j.openCnt - 1 }) := by
      refine h.setInode hi ?_ fun ref hne => (count_cons_of_ne hne.symm).symm
      rw [h.table.count _ hi, count_cons_self]
      omega
    exact ⟨⟨hs.inv, hs.same, hs.refers, fun _ => hs⟩, hs.saves⟩

/-- **Removing an inode** that nothing names any more. -/
theorem Inv.inodeRemove (h : s.Inv held) (href : s.Refers ref x)
    (hx : x ≠ freeMapSector ∧ x ≠ rootDirSector ∧ ∀ j, ¬s.Names j x) :
    (s.inodeRemove ref).Spec r E fun s' => s.Switches held s' := by
  obtain ⟨i, hi, rfl, rfl⟩ := href
  rw [Fs.inodeRemove]
  refine (inode_spec (h.table.find_inode hi)).bind fun j hj => .pure ?_
  subst hj
  have htable := h.table.setInode hi { j with removed := true } rfl rfl rfl (h.table.count j hi)
    fun _ _ => rfl
  refine ⟨h.update htable rfl rfl fun i hi' => ?_, ⟨rfl, rfl⟩, rfl, rfl, fun ref _ x href => ?_⟩
  · rcases (mem_replace Inode.ref).mp hi' with ⟨rfl, -⟩ | ⟨hi', -⟩
    · have hlive := live_open hi
      exact ⟨hlive, h.data j hi, fun _ => hx⟩
    · exact h.of_mem hi'
  · obtain ⟨i, hi', hiref, hix⟩ := href
    by_cases hij : i.ref = j.ref
    · obtain rfl := h.table.inode_unique hi' hi hij
      exact ⟨_, (mem_replace Inode.ref).mpr (.inl ⟨rfl, i, hi, rfl⟩), hiref, hix⟩
    · exact ⟨i, (mem_replace Inode.ref).mpr (.inr ⟨hi', hij⟩), hiref, hix⟩

end Fs

end Pintos
