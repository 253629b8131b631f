import Pintos.FilesysAccounts

/-!
# Open Inodes and Files

How the tables of the open inodes and of the open files change. A reference to an inode
belongs to a file or is held by the call that is going on, and opening a file hands the
reference over from the one to the other. The counters follow.

## Main results

* `Table.setInode`, `Table.push`, `Table.drop`: an inode is changed, opened, closed.
* `Table.addFile`, `Table.removeFile`, `Table.setDeny`: a file is opened, closed, changed.
* `Inv.update`: a change of the tables that keeps the invariant.
-/

namespace Pintos

open Verif List

namespace Fs

variable {s s' : Fs} {held held' : List InodeRef} {i i' : Inode} {f : File} {x : ℕ}

/-- The files after a change of one of them. -/
def withFile (files : List File) (p : FilePtr) (u : File → File) : List File :=
  files.map fun g => if g.ptr = p then u g else g

/-- The other files are the same. -/
theorem filter_withFile (files : List File) (p : FilePtr) (u : File → File)
    (hptr : ∀ g, (u g).ptr = g.ptr) :
    (withFile files p u).filter (·.ptr ≠ p) = files.filter (·.ptr ≠ p) := by
  induction files with
  | nil => rfl
  | cons g files ih =>
    rw [withFile] at ih ⊢
    by_cases hg : g.ptr = p
    · rw [map_cons, if_pos hg, filter_cons_of_neg (by simp [hptr, hg]),
        filter_cons_of_neg (by simp [hg])]
      exact ih
    · rw [map_cons, if_neg hg, filter_cons_of_pos (by simpa using hg),
        filter_cons_of_pos (by simpa using hg), ih]

namespace Table

/-- The counters are right. -/
theorem accounts (h : s.Table held) : s.Accounts held := by
  refine ⟨h.refs, h.sectors, h.ptrs, h.freshRef, h.freshPtr, fun f hf => ?_, h.holds, h.count,
    h.deny⟩
  obtain ⟨i, hi, href, -⟩ := h.opened f hf
  exact ⟨i, hi, href⟩

/-- What a table says beyond the accounts is kept while the files refer to inodes in the same
sectors, and the free map's file stays open. -/
theorem of_accounts (h : s.Table held) (h' : s'.Accounts held')
    (hpointer : s'.freeMapFile = s.freeMapFile)
    (hinodes : ∀ g ∈ s.files, ∀ i ∈ s.openInodes, i.ref = g.inode →
      ∃ i' ∈ s'.openInodes, i'.ref = i.ref ∧ i'.sector = i.sector)
    (hfiles : ∀ g ∈ s'.files, ∃ g' ∈ s.files, g'.ptr = g.ptr ∧ g'.inode = g.inode)
    (hmap : ∀ g ∈ s.files, s.freeMapFile = some g.ptr → g.denyWrite = false →
      ∃ g' ∈ s'.files, g'.ptr = g.ptr ∧ g'.inode = g.inode ∧ g'.denyWrite = false) :
    s'.Table held' := by
  refine ⟨h'.refs, h'.sectors, h'.ptrs, h'.freshRef, h'.freshPtr, fun g hg => ?_, h'.holds,
    h'.count, h'.deny, ?_⟩
  · obtain ⟨g', hg', hptr, hinode⟩ := hfiles g hg
    obtain ⟨i, hi, href, hroot, hfree⟩ := h.opened g' hg'
    obtain ⟨i', hi', href', hsector⟩ := hinodes g' hg' i hi href
    refine ⟨i', hi', (href'.trans href).trans hinode, hsector ▸ hroot, fun heq => ?_⟩
    rw [hpointer, hfree (hsector ▸ heq), hptr]
  · obtain ⟨g, hg, hptr, hdeny, i, hi, href, hsector⟩ := h.map
    obtain ⟨g', hg', hptr', hinode', hdeny'⟩ := hmap g hg hptr hdeny
    obtain ⟨i', hi', href', hsector'⟩ := hinodes g hg i hi href
    refine ⟨g', hg', ?_, hdeny', i', hi', (href'.trans href).trans hinode'.symm,
      hsector'.trans hsector⟩
    rw [hpointer, hptr, hptr']

theorem find_inode (h : s.Table held) (hi : i ∈ s.openInodes) :
    s.openInodes.find? (·.ref = i.ref) = some i :=
  h.accounts.find_inode hi

theorem find_file (h : s.Table held) (hf : f ∈ s.files) :
    s.files.find? (·.ptr = f.ptr) = some f :=
  h.accounts.find_file hf

/-- The inode that a file refers to. -/
theorem inode_unique (h : s.Table held) (hi : i ∈ s.openInodes) (hi' : i' ∈ s.openInodes)
    (href : i.ref = i'.ref) : i = i' :=
  h.accounts.inode_unique hi hi' href

/-- Denials are made by openers. -/
theorem deny_le (h : s.Table held) (hi : i ∈ s.openInodes) : i.denyWriteCnt ≤ i.openCnt :=
  h.accounts.deny_le hi

/-- An open inode is changed, and with it who holds references to it. -/
theorem setInode (h : s.Table held) (hi : i ∈ s.openInodes) (i' : Inode)
    (href : i'.ref = i.ref) (hsector : i'.sector = i.sector)
    (hdeny : i'.denyWriteCnt = i.denyWriteCnt)
    (hcount : i'.openCnt = s.files.countP (·.inode = i.ref) + held'.count i.ref)
    (hheld : ∀ r, r ≠ i.ref → held'.count r = held.count r) : (s.setInode i').Table held' := by
  refine h.of_accounts (h.accounts.setInode hi i' href hsector hdeny hcount hheld) rfl
    (fun g _ j hj _ => h.accounts.find_setInode hi href hsector hj)
    (fun g hg => ⟨g, hg, rfl, rfl⟩) fun g hg _ hgdeny => ⟨g, hg, rfl, rfl, hgdeny⟩

/-- An inode is read into memory, and its opener holds the reference. -/
theorem push (h : s.Table held) (hx : ∀ i ∈ s.openInodes, i.sector ≠ x) (d : InodeDisk) :
    { s with openInodes := ⟨s.next, x, 1, false, 0, d⟩ :: s.openInodes,
             next := s.next + 1 }.Table (s.next :: held) := by
  refine h.of_accounts (h.accounts.push hx d) rfl
    (fun g _ j hj _ => ⟨j, mem_cons_of_mem _ hj, rfl, rfl⟩)
    (fun g hg => ⟨g, hg, rfl, rfl⟩) fun g hg _ hgdeny => ⟨g, hg, rfl, rfl, hgdeny⟩

/-- The last opener of an inode closes it. -/
theorem drop (h : s.Table (i.ref :: held)) (hi : i ∈ s.openInodes) (hlast : i.openCnt = 1) :
    { s with openInodes := s.openInodes.filter (·.ref ≠ i.ref) }.Table held := by
  have hfiles := h.accounts.not_refers hi hlast
  refine h.of_accounts (h.accounts.drop hi hlast) rfl (fun g hg j hj href => ⟨j, ?_, rfl, rfl⟩)
    (fun g hg => ⟨g, hg, rfl, rfl⟩) fun g hg _ hgdeny => ⟨g, hg, rfl, rfl, hgdeny⟩
  rw [mem_filter, decide_eq_true_eq]
  exact ⟨hj, href ▸ hfiles g hg⟩

/-- A file takes over the reference of the call that opens it. -/
theorem addFile (h : s.Table (i.ref :: held)) (hi : i ∈ s.openInodes)
    (hsector : i.sector ≠ freeMapSector ∧ i.sector ≠ rootDirSector) :
    { s with files := ⟨s.next, i.ref, 0, false⟩ :: s.files, next := s.next + 1 }.Table held := by
  have h' := h.accounts.addFile
  refine ⟨h'.refs, h'.sectors, h'.ptrs, h'.freshRef, h'.freshPtr, fun g hg => ?_, h'.holds,
    h'.count, h'.deny, ?_⟩
  · rcases mem_cons.mp hg with rfl | hg
    · exact ⟨i, hi, rfl, hsector.2, fun hmap => absurd hmap hsector.1⟩
    · exact h.opened g hg
  · obtain ⟨g, hg, hrest⟩ := h.map
    exact ⟨g, mem_cons_of_mem _ hg, hrest⟩

/-- A file that is closed hands its reference over to the call that closes it. -/
theorem removeFile (h : s.Table held) (hf : f ∈ s.files) (hdeny : f.denyWrite = false)
    (hmap : s.freeMapFile ≠ some f.ptr) :
    { s with files := s.files.filter (·.ptr ≠ f.ptr) }.Table (f.inode :: held) := by
  have hmem : ∀ {g}, g ∈ s.files.filter (·.ptr ≠ f.ptr) ↔ g ∈ s.files ∧ g.ptr ≠ f.ptr := by
    intro g
    rw [mem_filter, decide_eq_true_eq]
  refine h.of_accounts (h.accounts.removeFile hf hdeny) rfl
    (fun g _ j hj _ => ⟨j, hj, rfl, rfl⟩) (fun g hg => ⟨g, (hmem.mp hg).1, rfl, rfl⟩)
    fun g hg hptr hgdeny => ⟨g, hmem.mpr ⟨hg, fun heq => hmap (heq ▸ hptr)⟩, rfl, rfl, hgdeny⟩

/-- An open file is changed, and with it the denials that the inodes count. -/
theorem setFile (h : s.Table held) (hf : f ∈ s.files) (f' : File) (hptr : f'.ptr = f.ptr)
    (hinode : f'.inode = f.inode) (hmap : s.freeMapFile = some f.ptr → f'.denyWrite = false)
    {openInodes : List Inode} (hr : Accounts.Recounts s f f' openInodes) :
    { s.setFile f' with openInodes := openInodes }.Table held := by
  refine h.of_accounts (h.accounts.setFile hf f' hptr hinode hr) rfl
    (fun g _ j hj _ => ?_) (fun g hg => ?_) fun g hg hgptr hgdeny => ?_
  · have href : j.ref ∈ openInodes.map (·.ref) := hr.refs ▸ mem_map_of_mem hj
    obtain ⟨j', hj', heq⟩ := mem_map.mp href
    obtain ⟨i, hi, hji, hsector, -⟩ := hr.same j' hj'
    rw [h.inode_unique hi hj (hji.symm.trans heq)] at hsector
    exact ⟨j', hj', heq, hsector⟩
  · rcases Accounts.mem_setFile hptr hg with rfl | ⟨hg, -⟩
    · exact ⟨f, hf, hptr.symm, hinode.symm⟩
    · exact ⟨g, hg, rfl, rfl⟩
  · by_cases hgf : g.ptr = f.ptr
    · obtain rfl := eq_of_key h.ptrs hg hf hgf
      refine ⟨f', ?_, hptr, hinode, hmap hgptr⟩
      rw [Fs.setFile, mem_replace File.ptr]
      exact .inl ⟨rfl, g, hg, hptr.symm⟩
    · refine ⟨g, ?_, rfl, rfl, hgdeny⟩
      rw [Fs.setFile, mem_replace File.ptr, hptr]
      exact .inr ⟨hg, hgf⟩

/-- The files after a store into one of them. -/
theorem files_setFile (h : s.Table held) (hf : f ∈ s.files) (u : File → File)
    (hptr : (u f).ptr = f.ptr) : (s.setFile (u f)).files = withFile s.files f.ptr u := by
  refine map_congr_left fun g hg => ?_
  rw [hptr]
  split_ifs with hgf
  · rw [eq_of_key h.ptrs hg hf hgf]
  · rfl

/-- A store that changes nothing. -/
theorem withFile_eq (h : s.Table held) (hf : f ∈ s.files) {u : File → File} (hu : u f = f) :
    withFile s.files f.ptr u = s.files := by
  conv_rhs => rw [← map_id s.files]
  refine map_congr_left fun g hg => ?_
  split_ifs with hgf
  · rw [eq_of_key h.ptrs hg hf hgf]
    exact hu
  · rfl

/-- The position of a file changes. -/
theorem setPos (h : s.Table held) (hf : f ∈ s.files) (pos : ℕ) :
    (s.setFile { f with pos := pos }).Table held := by
  refine h.setFile hf { f with pos := pos } rfl rfl (fun hptr => ?_)
    ⟨rfl, rfl, fun j hj => ⟨j, hj, rfl, rfl, rfl, rfl⟩⟩
  obtain ⟨g, hg, hgptr, hgdeny, -⟩ := h.map
  rw [eq_of_key h.ptrs hf hg (Option.mem_unique hptr hgptr)]
  exact hgdeny

/-- A file other than the free map's starts or stops denying writes. -/
theorem setDeny (h : s.Table held) (hf : f ∈ s.files) (hi : i ∈ s.openInodes)
    (href : i.ref = f.inode) (hmap : s.freeMapFile ≠ some f.ptr) (deny : Bool) {cnt : ℤ}
    (hcnt : cnt + (if f.denyWrite = true then 1 else 0 : ℕ) =
      i.denyWriteCnt + (if deny = true then 1 else 0 : ℕ)) :
    ((s.setFile { f with denyWrite := deny }).setInode { i with denyWriteCnt := cnt }).Table
      held :=
  h.setFile hf { f with denyWrite := deny } rfl rfl (fun hptr => absurd hptr hmap)
    (h.accounts.recounts hi href deny hcnt)

end Table

/-! ### The invariant -/

/-- The inodes that are live were live before, if those that are open were. -/
theorem live_of_open (hdev : s'.device = s.device) (hopen : ∀ i ∈ s'.openInodes, s.Live i.sector)
    (hx : s'.Live x) : s.Live x := by
  rcases hx with hx | hx | ⟨j, hj⟩ | ⟨i, hi, rfl⟩
  · exact .inl hx
  · exact .inr (.inl hx)
  · exact .inr (.inr (.inl ⟨j, (names_of_device hdev).mp hj⟩))
  · exact hopen i hi

/-- **A change of the tables that keeps the invariant**: the inodes that are open are live,
and nothing but the tables changes. -/
theorem Inv.update (h : s.Inv held) (htable : s'.Table held') (hdev : s'.device = s.device)
    (hmap : s'.freeMap = s.freeMap)
    (hopen : ∀ i ∈ s'.openInodes, s.Live i.sector ∧ i.data = s.onDisk i.sector ∧
      (i.removed = true → i.sector ≠ freeMapSector ∧ i.sector ≠ rootDirSector ∧
        ∀ j, ¬s.Names j i.sector)) : s'.Inv held' := by
  have hdisk := onDisk_of_device hdev
  have hlive : ∀ x, s'.Live x → s.Live x := fun x =>
    live_of_open hdev fun i hi => (hopen i hi).1
  refine ⟨h.space.shrink hdev hlive fun x k hx hk => ?_, htable, fun i hi => ?_,
    fun i hi hr => ?_, ?_⟩
  · rw [hmap]
    exact h.space.marked x k (hlive x hx) hk
  · rw [hdisk]
    exact (hopen i hi).2.1
  · obtain ⟨h₁, h₂, h₃⟩ := (hopen i hi).2.2 hr
    exact ⟨h₁, h₂, fun j hj => h₃ j ((names_of_device hdev).mp hj)⟩
  · rw [hdisk, hdisk, hdev]
    exact h.format

end Fs

end Pintos
