import Pintos.FilesysFormat

/-!
# Accounting of Open Inodes

The functions that open and close inodes, files and directories keep the accounts of
`FilesysAccounts` on any device, whatever its sectors hold: inodes or anything else, marked
in the free map or not. Each has one lemma. It says that the accounts are right afterwards,
and what else happens to the open inodes: nothing but their counters changes, or one of them
is read into memory or marked as removed, or the last reference to one is given up.

## Main results

* `Fs.Balanced.inodeOpen`, `Fs.Balanced.inodeClose`: a reference is taken, and given up.
* `Fs.Balanced.fileOpen`, `Fs.Balanced.fileClose`, `Fs.Balanced.dirOpen`: it is handed over.
* `Fs.Balanced.fileDenyWrite`, `Fs.Balanced.fileAllowWrite`: the assertions hold.
-/

namespace Pintos

open Verif List

/-- An inode without its counters. -/
def Inode.bare (i : Inode) : Inode := { i with openCnt := 0, denyWriteCnt := 0 }

/-- The free map after the sectors of an inode were freed. -/
def Inode.release (i : Inode) (m : ℕ → Bool) : ℕ → Bool :=
  Bitmap.setMultiple (Bitmap.setMultiple m i.sector 1 false) i.data.start i.data.sectors false

namespace Fs

variable {s s' : Fs} {held held' : List InodeRef} {i : Inode} {f : File} {r : Bool}
  {E : FsPanic → Prop} {K : ℕ → Prop}

/-- `dir_open`; a `struct dir` is known by the inode that it refers to. -/
def dirOpen (s : Fs) (inode : Option InodeRef) : FsM (Option InodeRef × Fs) := do
  let memory ← malloc
  match inode with
  | none => return (none, s)
  | some r =>
    if memory then
      return (some r, s)
    else
      let s ← s.inodeClose r
      return (none, s)

/-! ### What happens to the open inodes -/

/-- The open inodes without their counters. -/
def bare (s : Fs) : List Inode := s.openInodes.map Inode.bare

/-- An inode with the address is open. -/
def HasInode (s : Fs) (ref : InodeRef) : Prop := ∃ i ∈ s.openInodes, i.ref = ref

instance (s : Fs) (ref : InodeRef) : Decidable (s.HasInode ref) :=
  inferInstanceAs (Decidable (∃ i ∈ s.openInodes, i.ref = ref))

/-- The counters change, and nothing else about the open inodes. -/
structure Recounts (s s' : Fs) : Prop where
  bare : s'.bare = s.bare
  freeMap : s'.freeMap = s.freeMap
  next : s.next ≤ s'.next

theorem Recounts.trans {s₁ : Fs} (h : s.Recounts s₁) (h' : s₁.Recounts s') : s.Recounts s' :=
  ⟨h'.bare.trans h.bare, h'.freeMap.trans h.freeMap, h.next.trans h'.next⟩

/-- The last reference to an inode is given up; if it was removed its sectors are freed. -/
structure LastClose (i : Inode) (s s' : Fs) : Prop where
  last : i.openCnt = 1
  bare : s'.bare = s.bare.filter (·.ref ≠ i.ref)
  freeMap : s'.freeMap = if i.removed then i.release s.freeMap else s.freeMap
  next : s.next ≤ s'.next

/-- The sectors of an inode can be freed: all of them are marked. -/
structure Releasable (s : Fs) (i : Inode) : Prop where
  lt : i.sector < s.device.size
  marked : s.freeMap i.sector = true
  fits : i.data.start + i.data.sectors ≤ s.device.size
  data : ∀ k, i.data.Covers k → k ≠ i.sector ∧ s.freeMap k = true

/-- An open inode that the last reference to cannot be given up: it was removed, but its
sectors are not all marked. -/
def Stuck (s : Fs) (i : Inode) : Prop := i.openCnt = 1 ∧ i.removed = true ∧ ¬s.Releasable i

/-- Of the device, at most the free map's file is written, and no file is opened or closed. -/
structure MapOnly (s s' : Fs) : Prop where
  files : s'.files = s.files
  pointer : s'.freeMapFile = s.freeMapFile
  size : s'.device.size = s.device.size
  disk : ∀ k, ¬s.MapCovers k → s'.device.disk k = s.device.disk k

theorem bare_setInode (h : s.Accounts held) (hi : i ∈ s.openInodes) {i' : Inode}
    (href : i'.ref = i.ref) (hbare : i'.bare = i.bare) : (s.setInode i').bare = s.bare := by
  rw [bare, bare, setInode, map_map]
  refine map_congr_left fun j hj => ?_
  rw [Function.comp_apply]
  split_ifs with hji
  · rw [hbare, h.inode_unique hj hi (hji.trans href)]
  · rfl

theorem bare_filter (l : List Inode) (ref : InodeRef) :
    (l.filter (·.ref ≠ ref)).map Inode.bare = (l.map Inode.bare).filter (·.ref ≠ ref) := by
  rw [filter_map]
  rfl

/-! ### The invariant -/

/-- **The invariant**: the accounts are right, no inode is open without an opener, and the
free map's file is open. -/
structure Balanced (held : List InodeRef) (s : Fs) : Prop where
  accounts : s.Accounts held
  positive : ∀ i ∈ s.openInodes, 0 < i.openCnt
  map : ∃ f ∈ s.files, s.freeMapFile = some f.ptr ∧
    ∃ i ∈ s.openInodes, i.ref = f.inode ∧ i.data.Within s.device

namespace Balanced

theorem mapFile (h : s.Balanced held) : ∃ f i, s.MapFile f i := by
  obtain ⟨f, hf, hptr, i, hi, href, hwithin⟩ := h.map
  refine ⟨f, i, hptr, h.accounts.find_file hf, ?_, hwithin⟩
  rw [← href]
  exact h.accounts.find_inode hi

/-- The free map's file stays open while it and its inode are in the tables. -/
theorem of_accounts (h : s.Balanced held) (h' : s'.Accounts held')
    (hpos : ∀ i ∈ s'.openInodes, 0 < i.openCnt) (hpointer : s'.freeMapFile = s.freeMapFile)
    (hsize : s'.device.size = s.device.size)
    (hinodes : ∀ g ∈ s.files, ∀ i ∈ s.openInodes, i.ref = g.inode →
      ∃ i' ∈ s'.openInodes, i'.ref = i.ref ∧ i'.data = i.data)
    (hfiles : ∀ g ∈ s.files, s.freeMapFile = some g.ptr →
      ∃ g' ∈ s'.files, g'.ptr = g.ptr ∧ g'.inode = g.inode) : s'.Balanced held' := by
  obtain ⟨g, hg, hptr, i, hi, href, hwithin⟩ := h.map
  obtain ⟨g', hg', hptr', hinode'⟩ := hfiles g hg hptr
  obtain ⟨i', hi', href', hdata⟩ := hinodes g hg i hi href
  refine ⟨h', hpos, g', hg', ?_, i', hi', (href'.trans href).trans hinode'.symm, ?_⟩
  · rw [hpointer, hptr, hptr']
  · rw [hdata]
    exact hwithin.change hsize

theorem perm (h : s.Balanced held) (hperm : held.Perm held') : s.Balanced held' :=
  ⟨h.accounts.perm hperm, h.positive, h.map⟩

/-- The free map and the device may change. -/
theorem change (h : s.Balanced held) {m : ℕ → Bool}
    (hs : DiskChange K { s with freeMap := m } s') : s'.Balanced held := by
  have hinodes : s'.openInodes = s.openInodes := hs.openInodes
  have hfiles : s'.files = s.files := hs.files
  have hnext : s'.next = s.next := by rw [hs.same]
  refine h.of_accounts (h.accounts.congr hinodes hfiles hnext) ?_ hs.freeMapFile hs.size ?_ ?_
  · rw [hinodes]
    exact h.positive
  · rw [hinodes]
    exact fun g _ i hi _ => ⟨i, hi, rfl, rfl⟩
  · rw [hfiles]
    exact fun g hg _ => ⟨g, hg, rfl, rfl⟩

/-- An inode's counters change, or it is marked as removed. -/
theorem setInode (h : s.Balanced held) (hi : i ∈ s.openInodes) {i' : Inode}
    (h' : (s.setInode i').Accounts held') (href : i'.ref = i.ref) (hdata : i'.data = i.data)
    (hpos : 0 < i'.openCnt) : (s.setInode i').Balanced held' := by
  have hmem : ∀ {j}, j ∈ (s.setInode i').openInodes ↔ _ := Accounts.mem_setInode hi i' href
  refine h.of_accounts h' (fun j hj => ?_) rfl rfl (fun g _ j hj _ => ?_)
    fun g hg _ => ⟨g, hg, rfl, rfl⟩
  · rcases hmem.mp hj with rfl | ⟨hj, -⟩
    · exact hpos
    · exact h.positive j hj
  · by_cases hji : j.ref = i.ref
    · obtain rfl := h.accounts.inode_unique hj hi hji
      exact ⟨i', hmem.mpr (.inl rfl), href, hdata⟩
    · exact ⟨j, hmem.mpr (.inr ⟨hj, hji⟩), rfl, rfl⟩

/-! ### Inodes -/

/-- `inode_reopen` takes another reference. -/
theorem inodeReopen (h : s.Balanced held) (hi : i ∈ s.openInodes) :
    (s.inodeReopen i.ref).Spec r E fun s' => s'.Balanced (i.ref :: held) ∧ s.Recounts s' ∧
      s' = s.setInode { i with openCnt := i.openCnt + 1 } := by
  rw [Fs.inodeReopen]
  refine (inode_spec (h.accounts.find_inode hi)).bind fun j hj => .pure ?_
  subst hj
  have hcount : j.openCnt + 1 = s.files.countP (·.inode = j.ref) +
      (j.ref :: held).count j.ref := by
    rw [h.accounts.count _ hi, count_cons_self]
    omega
  have haccounts := h.accounts.setInode hi { j with openCnt := j.openCnt + 1 } rfl rfl rfl hcount
    fun r hne => count_cons_of_ne hne.symm
  have hpos := h.positive j hi
  exact ⟨h.setInode hi haccounts rfl rfl (by dsimp only; omega),
    ⟨bare_setInode h.accounts hi rfl rfl, rfl, le_rfl⟩, rfl⟩

/-- `inode_open` takes a reference to the inode of a sector, which it may have to read. -/
theorem inodeOpen (h : s.Balanced held) (x : ℕ) (hE : s.device.size ≤ x → E .pastEnd) :
    (s.inodeOpen x).Spec r E fun v =>
      match v.1 with
      | none => r = true ∧ v.2 = s
      | some ref => v.2.Balanced (ref :: held) ∧ v.2.freeMap = s.freeMap ∧ s.next ≤ v.2.next ∧
          (v.2.bare = s.bare ∨
            v.2.bare = (⟨s.next, x, 0, false, 0, s.onDisk x⟩ : Inode) :: s.bare) ∧
          v.2.device = s.device ∧ s.MapOnly v.2 ∧
          ∃ i ∈ v.2.openInodes, i.ref = ref ∧ i.sector = x := by
  rw [Fs.inodeOpen]
  split
  · rename_i i hfind
    obtain ⟨hi, hsector⟩ := of_find?_key hfind
    refine (h.inodeReopen hi).bind fun s' hs => .pure ?_
    obtain ⟨hbal, hs, rfl⟩ := hs
    exact ⟨hbal, hs.freeMap, hs.next, .inl hs.bare, rfl, ⟨rfl, rfl, rfl, fun _ _ => rfl⟩, _,
      (Accounts.mem_setInode hi { i with openCnt := i.openCnt + 1 } rfl).mpr (.inl rfl), rfl,
      hsector⟩
  · rename_i hnone
    have hclosed : ∀ i ∈ s.openInodes, i.sector ≠ x := fun i hi => by
      simpa using find?_eq_none.mp hnone i hi
    refine OracleM.Spec.draw.bind fun memory hmemory => ?_
    split
    · rename_i hrefused
      refine .pure ⟨?_, rfl⟩
      cases r with
      | true => rfl
      | false => cases (hmemory rfl).symm.trans hrefused
    have hread : (s.device.blockRead x).Spec r E fun b => b = s.device.disk x :=
      .assert_of (fun hlt => hE (Nat.le_of_not_lt hlt)) fun _ => .pure rfl
    refine hread.bind fun b hb => .pure ?_
    subst hb
    refine ⟨h.of_accounts (h.accounts.push hclosed (s.onDisk x)) (fun j hj => ?_) rfl rfl
      (fun g _ j hj _ => ⟨j, mem_cons_of_mem _ hj, rfl, rfl⟩)
      (fun g hg _ => ⟨g, hg, rfl, rfl⟩), rfl, Nat.le_succ _, .inr rfl, rfl,
      ⟨rfl, rfl, rfl, fun _ _ => rfl⟩, _, mem_cons_self, rfl, rfl⟩
    rcases mem_cons.mp hj with rfl | hj
    · exact Int.one_pos
    · exact h.positive j hj

/-- `inode_remove` marks the inode. -/
theorem inodeRemove (h : s.Balanced held) (hi : i ∈ s.openInodes) :
    (s.inodeRemove i.ref).Spec r E fun s' => s'.Balanced held ∧ s'.freeMap = s.freeMap ∧
      s'.next = s.next ∧ s' = s.setInode { i with removed := true } ∧
      s'.bare = s.bare.map fun j => if j.ref = i.ref then { j with removed := true } else j := by
  rw [Fs.inodeRemove]
  refine (inode_spec (h.accounts.find_inode hi)).bind fun j hj => .pure ?_
  subst hj
  have haccounts := h.accounts.setInode hi { j with removed := true } rfl rfl rfl
    (h.accounts.count j hi) fun _ _ => rfl
  refine ⟨h.setInode hi haccounts rfl rfl (h.positive j hi), rfl, rfl, rfl, ?_⟩
  rw [bare, bare, Fs.setInode, map_map, map_map]
  refine map_congr_left fun k hk => ?_
  rw [Function.comp_apply, Function.comp_apply]
  by_cases hkj : k.ref = j.ref
  · rw [if_pos hkj, h.accounts.inode_unique hk hi hkj]
    exact (if_pos rfl).symm
  · rw [if_neg hkj]
    exact (if_neg hkj).symm

/-- The reference that is given up is the last one. -/
theorem drop (h : s.Balanced (i.ref :: held)) (hi : i ∈ s.openInodes) (hlast : i.openCnt = 1) :
    { s with openInodes := s.openInodes.filter (·.ref ≠ i.ref) }.Balanced held := by
  refine h.of_accounts (h.accounts.drop hi hlast)
    (fun j hj => h.positive j (mem_of_mem_filter hj)) rfl rfl
    (fun g hg j hj href => ⟨j, ?_, rfl, rfl⟩) fun g hg _ => ⟨g, hg, rfl, rfl⟩
  rw [mem_filter, decide_eq_true_eq]
  exact ⟨hj, href ▸ h.accounts.not_refers hi hlast g hg⟩

/-- The sectors of the free map's file are those that they were before an inode was dropped. -/
theorem mapCovers_drop {ref : InodeRef} {k : ℕ}
    (h : { s with openInodes := s.openInodes.filter (·.ref ≠ ref) }.MapCovers k) :
    s.MapCovers k := by
  obtain ⟨f, j, hmap, hk⟩ := h
  refine ⟨f, j, ⟨hmap.pointer, hmap.file, ?_, hmap.within⟩, hk⟩
  have hfind : (s.openInodes.filter (·.ref ≠ ref)).find? (·.ref = f.inode) = some j := hmap.inode
  have hne : ref ≠ f.inode := by
    obtain ⟨hj, href⟩ := of_find?_key hfind
    rw [mem_filter, decide_eq_true_eq] at hj
    exact fun heq => hj.2 (href.trans heq.symm)
  rwa [find?_filter_key hne] at hfind

/-- The sectors of an inode that was removed are freed. -/
theorem release (h : s.Balanced held) (hE : ¬s.Releasable i → E .bitmapRange ∧ E .bitmapAll) :
    (s.freeMapRelease i.sector 1 >>= fun s₁ =>
      s₁.freeMapRelease i.data.start (bytesToSectors i.data.length)).Spec r E fun s' =>
      s'.Balanced held ∧ s'.openInodes = s.openInodes ∧ s'.freeMap = i.release s.freeMap ∧
        s'.next = s.next ∧ s.MapOnly s' := by
  obtain ⟨g, j, hmap⟩ := h.mapFile
  refine (freeMapRelease_of hmap (fun hnot => (hE fun hi => hnot hi.lt).1)
    fun hnot => (hE fun hi => hnot fun k h₁ h₂ => ?_).2).bind fun s₁ hs₁ => ?_
  · obtain rfl : k = i.sector := by omega
    exact hi.marked
  obtain ⟨hs₁, -⟩ := hs₁
  have h₁ := h.change hs₁
  have hmap' := (hmap.remap _).change hs₁
  refine (freeMapRelease_of hmap' (fun hnot => (hE fun hi => hnot ?_).1)
    fun hnot => (hE fun hi => hnot fun k hk₁ hk₂ => ?_).2).mono fun s' hs' => ?_
  · rw [hs₁.size]
    exact hi.fits
  · obtain ⟨hne, hmarked⟩ := hi.data k ⟨hk₁, hk₂⟩
    rw [hs₁.freeMap]
    exact (Bitmap.setMultiple_of_not_mem (by omega)).trans hmarked
  · obtain ⟨hs', -⟩ := hs'
    refine ⟨h₁.change hs', hs'.openInodes.trans hs₁.openInodes, ?_, ?_,
      hs'.files.trans hs₁.files, hs'.freeMapFile.trans hs₁.freeMapFile, hs'.size.trans hs₁.size,
      fun k hk => ?_⟩
    · rw [hs'.freeMap, hs₁.freeMap]
      rfl
    · rw [hs'.same, hs₁.same]
    · have hnot : ¬j.data.Covers k := fun hcovers => hk ⟨g, j, hmap, hcovers⟩
      exact (hs'.disk k hnot).trans (hs₁.disk k hnot)

/-- **`inode_close`** gives a reference up. -/
theorem inodeClose (h : s.Balanced (i.ref :: held)) (hi : i ∈ s.openInodes)
    (hE : s.Stuck i → E .bitmapRange ∧ E .bitmapAll) :
    (s.inodeClose i.ref).Spec r E fun s' =>
      s'.Balanced held ∧ (s.Recounts s' ∨ s.LastClose i s') ∧ s.MapOnly s' := by
  rw [Fs.inodeClose]
  refine (inode_spec (h.accounts.find_inode hi)).bind fun j hj => ?_
  subst hj
  split
  · rename_i hlast
    have hlast : j.openCnt = 1 := by omega
    have hdrop := h.drop hi hlast
    split_ifs with hremoved
    · refine (hdrop.release fun hnot => hE ⟨hlast, hremoved, fun hrel => hnot ?_⟩).mono
        fun s' hs' => ?_
      · exact ⟨hrel.lt, hrel.marked, hrel.fits, hrel.data⟩
      · obtain ⟨hbal, hinodes, hmap, hnext, honly⟩ := hs'
        refine ⟨hbal, .inr ⟨hlast, ?_, ?_, hnext.ge⟩, honly.files, honly.pointer, honly.size,
          fun k hk => honly.disk k fun hcovers => hk (mapCovers_drop hcovers)⟩
        · rw [bare, hinodes]
          exact bare_filter _ _
        · rw [hmap, if_pos hremoved]
    · exact .pure ⟨hdrop, .inr ⟨hlast, bare_filter _ _, (if_neg hremoved).symm, le_rfl⟩,
        ⟨rfl, rfl, rfl, fun _ _ => rfl⟩⟩
  · refine .pure ?_
    have hcount : j.openCnt - 1 = s.files.countP (·.inode = j.ref) + held.count j.ref := by
      rw [h.accounts.count _ hi, count_cons_self]
      omega
    have haccounts := h.accounts.setInode hi { j with openCnt := j.openCnt - 1 } rfl rfl rfl
      hcount fun r hne => (count_cons_of_ne hne.symm).symm
    exact ⟨h.setInode hi haccounts rfl rfl (by dsimp only; omega),
      .inl ⟨bare_setInode h.accounts hi rfl rfl, rfl, le_rfl⟩, ⟨rfl, rfl, rfl, fun _ _ => rfl⟩⟩

/-! ### Files and directories -/

/-- `file_open` makes a file of a reference, or gives it up. -/
theorem fileOpen (h : s.Balanced (i.ref :: held)) (hi : i ∈ s.openInodes)
    (hE : s.Stuck i → E .bitmapRange ∧ E .bitmapAll) :
    (s.fileOpen (some i.ref)).Spec r E fun v =>
      v.2.Balanced held ∧ (s.Recounts v.2 ∨ s.LastClose i v.2) := by
  rw [Fs.fileOpen]
  refine OracleM.Spec.draw.bind fun memory _ => ?_
  dsimp only
  split
  · refine .pure ⟨?_, .inl ⟨rfl, rfl, Nat.le_succ _⟩⟩
    exact h.of_accounts h.accounts.addFile h.positive rfl rfl
      (fun g _ j hj _ => ⟨j, hj, rfl, rfl⟩)
      fun g hg _ => ⟨g, mem_cons_of_mem _ hg, rfl, rfl⟩
  · exact (h.inodeClose hi hE).bind fun s' hs' => .pure ⟨hs'.1, hs'.2.1⟩

/-- `dir_open` makes a directory of a reference, or gives it up. -/
theorem dirOpen (h : s.Balanced (i.ref :: held)) (hi : i ∈ s.openInodes)
    (hE : s.Stuck i → E .bitmapRange ∧ E .bitmapAll) :
    (s.dirOpen (some i.ref)).Spec r E fun v =>
      match v.1 with
      | none => v.2.Balanced held ∧ (s.Recounts v.2 ∨ s.LastClose i v.2)
      | some ref => ref = i.ref ∧ v.2 = s := by
  rw [Fs.dirOpen]
  refine OracleM.Spec.draw.bind fun memory _ => ?_
  dsimp only
  split
  · exact .pure ⟨rfl, rfl⟩
  · exact (h.inodeClose hi hE).bind fun s' hs' => .pure ⟨hs'.1, hs'.2.1⟩

/-- `file_reopen`: the reference that it takes is not the last one. -/
theorem fileReopen (h : s.Balanced held) (hf : f ∈ s.files) :
    (s.fileReopen f.ptr).Spec r E fun v => v.2.Balanced held ∧ s.Recounts v.2 := by
  obtain ⟨i, hi, href⟩ := h.accounts.opened f hf
  rw [Fs.fileReopen]
  refine (file_spec (h.accounts.find_file hf)).bind fun g hg => ?_
  subst hg
  rw [← href]
  refine (h.inodeReopen hi).bind fun s₁ hs₁ => ?_
  obtain ⟨h₁, hrecounts, rfl⟩ := hs₁
  have hi' : { i with openCnt := i.openCnt + 1 } ∈
      (s.setInode { i with openCnt := i.openCnt + 1 }).openInodes :=
    (Accounts.mem_setInode hi { i with openCnt := i.openCnt + 1 } rfl).mpr (.inl rfl)
  have hpos := h.positive i hi
  refine (h₁.fileOpen (i := { i with openCnt := i.openCnt + 1 }) hi' fun hstuck => ?_).mono
    fun v hv => ⟨hv.1, ?_⟩
  · exact absurd hstuck.1 (by dsimp only; omega)
  · rcases hv.2 with hv | hv
    · exact hrecounts.trans hv
    · exact absurd hv.last (by dsimp only; omega)

/-- A file starts or stops denying writes, and its inode counts that. -/
theorem setDeny (h : s.Balanced held) (hf : f ∈ s.files) (hi : i ∈ s.openInodes)
    (href : i.ref = f.inode) (deny : Bool) {cnt : ℤ}
    (hcnt : cnt + (if f.denyWrite = true then 1 else 0 : ℕ) =
      i.denyWriteCnt + (if deny = true then 1 else 0 : ℕ)) :
    ((s.setFile { f with denyWrite := deny }).setInode { i with denyWriteCnt := cnt }).Balanced
      held := by
  have hmem : ∀ {j}, j ∈ (s.setInode { i with denyWriteCnt := cnt }).openInodes ↔ _ :=
    Accounts.mem_setInode hi { i with denyWriteCnt := cnt } rfl
  refine h.of_accounts (h.accounts.setDeny hf hi href deny hcnt) (fun j hj => ?_) rfl rfl
    (fun g _ j hj _ => ?_) fun g hg _ => ?_
  · rcases hmem.mp hj with rfl | ⟨hj, -⟩
    · exact h.positive i hi
    · exact h.positive j hj
  · by_cases hji : j.ref = i.ref
    · obtain rfl := h.accounts.inode_unique hj hi hji
      exact ⟨_, hmem.mpr (.inl rfl), rfl, rfl⟩
    · exact ⟨j, hmem.mpr (.inr ⟨hj, hji⟩), rfl, rfl⟩
  · by_cases hgf : g.ptr = f.ptr
    · obtain rfl := eq_of_key h.accounts.ptrs hg hf hgf
      exact ⟨_, (mem_replace File.ptr).mpr (.inl ⟨rfl, g, hg, rfl⟩), rfl, rfl⟩
    · exact ⟨g, (mem_replace File.ptr).mpr (.inr ⟨hg, hgf⟩), rfl, rfl⟩

/-- What a change of a file's denial leaves as it was. -/
structure Denial (f : File) (deny : Bool) (s s' : Fs) : Prop where
  recounts : s.Recounts s'
  device : s'.device = s.device
  pointer : s'.freeMapFile = s.freeMapFile
  inodes : ∀ i' ∈ s'.openInodes, ∃ i ∈ s.openInodes, i' = { i with denyWriteCnt := i'.denyWriteCnt }
  file : ∃ f' ∈ s'.files, f'.ptr = f.ptr ∧ f'.inode = f.inode ∧ f'.denyWrite = deny

theorem Denial.refl (hf : f ∈ s.files) : Denial f f.denyWrite s s :=
  ⟨⟨rfl, rfl, le_rfl⟩, rfl, rfl, fun i hi => ⟨i, hi, rfl⟩, f, hf, rfl, rfl, rfl⟩

theorem denial_setDeny (h : s.Balanced held) (hf : f ∈ s.files) (hi : i ∈ s.openInodes)
    (deny : Bool) (cnt : ℤ) :
    Denial f deny s
      ((s.setFile { f with denyWrite := deny }).setInode { i with denyWriteCnt := cnt }) := by
  refine ⟨⟨?_, rfl, le_rfl⟩, rfl, rfl, fun j hj => ?_, { f with denyWrite := deny }, ?_, rfl, rfl,
    rfl⟩
  · exact bare_setInode h.accounts hi rfl rfl
  · rcases (Accounts.mem_setInode hi { i with denyWriteCnt := cnt } rfl).mp hj with rfl | ⟨hj, -⟩
    · exact ⟨i, hi, rfl⟩
    · exact ⟨j, hj, rfl⟩
  · exact (mem_replace File.ptr).mpr (.inl ⟨rfl, f, hf, rfl⟩)

/-- **`file_deny_write`**: the inode has an opener that did not deny writes, this file. -/
theorem fileDenyWrite (h : s.Balanced held) (hf : f ∈ s.files) :
    (s.fileDenyWrite f.ptr).Spec r E fun s' => s'.Balanced held ∧ Denial f true s s' := by
  obtain ⟨i, hi, href⟩ := h.accounts.opened f hf
  rw [Fs.fileDenyWrite]
  refine (file_spec (h.accounts.find_file hf)).bind fun g hg => ?_
  subst hg
  split_ifs with hdeny
  · have hsame := Denial.refl hf
    rw [hdeny] at hsame
    exact .pure ⟨h, hsame⟩
  · have hcnt : i.denyWriteCnt + 1 + (if g.denyWrite = true then 1 else 0 : ℕ) =
        i.denyWriteCnt + (if true = true then 1 else 0 : ℕ) := by
      rw [if_neg hdeny, if_pos rfl]
      omega
    have hbal := h.setDeny hf hi href true hcnt
    have hle := hbal.accounts.deny_le
      ((Accounts.mem_setInode hi { i with denyWriteCnt := i.denyWriteCnt + 1 } rfl).mpr (.inl rfl))
    have hi' : (s.setFile { g with denyWrite := true }).openInodes.find? (·.ref = g.inode) =
        some i := by
      rw [← href]
      exact h.accounts.find_inode hi
    rw [inodeDenyWrite]
    refine (inode_spec hi').bind fun j hj => ?_
    subst hj
    exact .assert hle (.pure ⟨hbal, h.denial_setDeny hf hi true _⟩)

/-- **`file_allow_write`**: this file is one that denied writes. -/
theorem fileAllowWrite (h : s.Balanced held) (hf : f ∈ s.files) :
    (s.fileAllowWrite f.ptr).Spec r E fun s' => s'.Balanced held ∧ Denial f false s s' := by
  obtain ⟨i, hi, href⟩ := h.accounts.opened f hf
  rw [Fs.fileAllowWrite]
  refine (file_spec (h.accounts.find_file hf)).bind fun g hg => ?_
  subst hg
  split_ifs with hdeny
  · have hcnt : i.denyWriteCnt - 1 + (if g.denyWrite = true then 1 else 0 : ℕ) =
        i.denyWriteCnt + (if false = true then 1 else 0 : ℕ) := by
      rw [if_pos hdeny, if_neg Bool.false_ne_true]
      omega
    have hpos : 0 < i.denyWriteCnt := by
      rw [h.accounts.deny i hi, Int.natCast_pos, countP_pos_iff]
      exact ⟨g, hf, decide_eq_true ⟨href.symm, hdeny⟩⟩
    have hi' : (s.setFile { g with denyWrite := false }).openInodes.find? (·.ref = g.inode) =
        some i := by
      rw [← href]
      exact h.accounts.find_inode hi
    rw [inodeAllowWrite]
    refine (inode_spec hi').bind fun j hj => ?_
    subst hj
    exact .assert hpos (.assert (h.accounts.deny_le hi)
      (.pure ⟨h.setDeny hf hi href false hcnt, h.denial_setDeny hf hi false _⟩))
  · have hsame := Denial.refl hf
    rw [Bool.not_eq_true] at hdeny
    rw [hdeny] at hsame
    exact .pure ⟨h, hsame⟩

/-- **`file_close`** allows writes again and gives the file's reference up. -/
theorem fileClose (h : s.Balanced held) (hf : f ∈ s.files) (hmap : s.freeMapFile ≠ some f.ptr)
    (hE : ∀ i ∈ s.openInodes, s.Stuck i → E .bitmapRange ∧ E .bitmapAll) :
    (s.fileClose f.ptr).Spec r E fun s' => s'.Balanced held ∧
      (s.Recounts s' ∨ ∃ i ∈ s.openInodes, s.LastClose i s') := by
  rw [Fs.fileClose]
  refine (h.fileAllowWrite hf).bind fun s₁ hs₁ => ?_
  obtain ⟨h₁, hdenial⟩ := hs₁
  obtain ⟨f', hf', hptr, -, hdeny⟩ := hdenial.file
  obtain ⟨i', hi', href⟩ := h₁.accounts.opened f' hf'
  obtain ⟨i, hi, heq⟩ := hdenial.inodes i' hi'
  rw [← hptr]
  refine (file_spec (h₁.accounts.find_file hf')).bind fun g hg => ?_
  subst hg
  have h₂ : { s₁ with files := s₁.files.filter (·.ptr ≠ g.ptr) }.Balanced (i'.ref :: held) := by
    rw [href]
    refine h₁.of_accounts (h₁.accounts.removeFile hf' hdeny) h₁.positive rfl rfl
      (fun _ _ j hj _ => ⟨j, hj, rfl, rfl⟩) fun k hk hkmap => ⟨k, ?_, rfl, rfl⟩
    rw [mem_filter, decide_eq_true_eq]
    refine ⟨hk, fun hkg => hmap ?_⟩
    rw [← hdenial.pointer, hkmap, hkg, hptr]
  rw [← href]
  refine (h₂.inodeClose hi' fun hstuck => hE i hi ?_).mono fun s' hs' => ⟨hs'.1, ?_⟩
  · obtain ⟨hlast, hremoved, hnot⟩ := hstuck
    rw [heq] at hlast hremoved
    refine ⟨hlast, hremoved, fun hrel => hnot ?_⟩
    rw [heq]
    refine ⟨?_, ?_, ?_, fun k hk => ?_⟩
    · exact hdenial.device ▸ hrel.lt
    · exact hdenial.recounts.freeMap ▸ hrel.marked
    · exact hdenial.device ▸ hrel.fits
    · exact hdenial.recounts.freeMap ▸ hrel.data k hk
  · rcases hs'.2.1 with hs' | hs'
    · exact .inl (hdenial.recounts.trans ⟨hs'.bare, hs'.freeMap, hs'.next⟩)
    · refine .inr ⟨i, hi, ?_, ?_, ?_, hdenial.recounts.next.trans hs'.next⟩
      · rw [← hs'.last, heq]
      · rw [hs'.bare, heq]
        exact congrArg (filter _) hdenial.recounts.bare
      · rw [hs'.freeMap, heq]
        show (if i.removed then i.release s₁.freeMap else s₁.freeMap) = _
        rw [hdenial.recounts.freeMap]

end Balanced

/-- Right after the free map's file was opened nothing else is. -/
theorem Mounted.balanced (h : s.Mounted i f)
    (hwithin : (s.onDisk freeMapSector).Within s.device) : s.Balanced [] := by
  refine ⟨h.table.accounts, fun j hj => ?_, f, ?_, h.pointer, i, ?_, h.inode.symm, ?_⟩
  · obtain rfl : j = i := mem_singleton.mp (h.inodes ▸ hj)
    rw [h.openCnt]
    exact Int.one_pos
  · rw [h.files]
    exact mem_singleton_self f
  · rw [h.inodes]
    exact mem_singleton_self i
  · rw [h.data]
    exact hwithin

end Fs

end Pintos
