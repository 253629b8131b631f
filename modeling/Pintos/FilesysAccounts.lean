import Pintos.FilesysInvariant
import Pintos.Keyed

/-!
# The Accounts of the Open Inodes

An open inode counts its openers and those of them that deny writes. The openers are the
files that refer to it and whoever else holds a reference to it: the call that is going on,
a directory, or someone who has opened the inode and not made a file of it yet. `Accounts`
says that both counters are right. How the tables of inodes and files change is described
by a few operations, and each of them keeps the accounts.

## Main results

* `Accounts.setInode`, `Accounts.push`, `Accounts.drop`: an inode is changed, opened, closed.
* `Accounts.addFile`, `Accounts.removeFile`, `Accounts.setFile`: a file is opened, closed,
  changed.
-/

namespace Pintos

open Verif List

namespace Fs

/-- **The accounts**: the counters of the open inodes count the files that refer to them and
the other references, which are `held`. -/
structure Accounts (held : List InodeRef) (s : Fs) : Prop where
  refs : (s.openInodes.map (·.ref)).Nodup
  sectors : (s.openInodes.map (·.sector)).Nodup
  ptrs : (s.files.map (·.ptr)).Nodup
  freshRef : ∀ i ∈ s.openInodes, i.ref < s.next
  freshPtr : ∀ f ∈ s.files, f.ptr < s.next
  opened : ∀ f ∈ s.files, ∃ i ∈ s.openInodes, i.ref = f.inode
  holds : ∀ r ∈ held, ∃ i ∈ s.openInodes, i.ref = r
  count : ∀ i ∈ s.openInodes, i.openCnt = s.files.countP (·.inode = i.ref) + held.count i.ref
  deny : ∀ i ∈ s.openInodes,
    i.denyWriteCnt = s.files.countP fun f => f.inode = i.ref ∧ f.denyWrite = true

namespace Accounts

variable {s s' : Fs} {held held' : List InodeRef} {i i' : Inode} {f : File} {x : ℕ}

theorem find_inode (h : s.Accounts held) (hi : i ∈ s.openInodes) :
    s.openInodes.find? (·.ref = i.ref) = some i :=
  find?_key h.refs hi rfl

theorem find_file (h : s.Accounts held) (hf : f ∈ s.files) :
    s.files.find? (·.ptr = f.ptr) = some f :=
  find?_key h.ptrs hf rfl

/-- The inode that a file refers to. -/
theorem inode_unique (h : s.Accounts held) (hi : i ∈ s.openInodes) (hi' : i' ∈ s.openInodes)
    (href : i.ref = i'.ref) : i = i' :=
  eq_of_key h.refs hi hi' href

theorem inode_lt (h : s.Accounts held) (hf : f ∈ s.files) : f.inode < s.next := by
  obtain ⟨i, hi, href⟩ := h.opened f hf
  exact href ▸ h.freshRef i hi

theorem held_lt (h : s.Accounts held) {r : InodeRef} (hr : r ∈ held) : r < s.next := by
  obtain ⟨i, hi, href⟩ := h.holds r hr
  exact href ▸ h.freshRef i hi

/-- Denials are made by openers. -/
theorem deny_le (h : s.Accounts held) (hi : i ∈ s.openInodes) : i.denyWriteCnt ≤ i.openCnt := by
  rw [h.deny i hi, h.count i hi]
  have hle : (s.files.countP fun f => f.inode = i.ref ∧ f.denyWrite = true) ≤
      s.files.countP (·.inode = i.ref) := by
    refine countP_mono_left fun f _ hf => ?_
    simp only [decide_eq_true_eq] at hf ⊢
    exact hf.1
  omega

/-- The references that are held may be listed in another order. -/
theorem perm (h : s.Accounts held) (hperm : held.Perm held') : s.Accounts held' := by
  refine ⟨h.refs, h.sectors, h.ptrs, h.freshRef, h.freshPtr, h.opened,
    fun r hr => h.holds r (hperm.mem_iff.mpr hr), fun i hi => ?_, h.deny⟩
  rw [← hperm.count_eq]
  exact h.count i hi

/-- The accounts are about the tables only. -/
theorem congr (h : s.Accounts held) (hinodes : s'.openInodes = s.openInodes)
    (hfiles : s'.files = s.files) (hnext : s'.next = s.next) : s'.Accounts held := by
  constructor <;> simp only [hinodes, hfiles, hnext]
  exacts [h.refs, h.sectors, h.ptrs, h.freshRef, h.freshPtr, h.opened, h.holds, h.count, h.deny]

/-! ### Inodes -/

/-- A change of an inode leaves it where it is. -/
theorem map_sector_setInode (h : s.Accounts held) (hi : i ∈ s.openInodes) (i' : Inode)
    (href : i'.ref = i.ref) (hsector : i'.sector = i.sector) :
    (s.setInode i').openInodes.map (·.sector) = s.openInodes.map (·.sector) := by
  rw [Fs.setInode, map_map]
  refine map_congr_left fun j hj => ?_
  rw [Function.comp_apply]
  split_ifs with hji
  · rw [hsector, h.inode_unique hj hi (hji.trans href)]
  · rfl

/-- The inodes after a store into one of them. -/
theorem mem_setInode (hi : i ∈ s.openInodes) (i' : Inode) (href : i'.ref = i.ref) {j : Inode} :
    j ∈ (s.setInode i').openInodes ↔ j = i' ∨ j ∈ s.openInodes ∧ j.ref ≠ i.ref := by
  rw [Fs.setInode, mem_replace Inode.ref, href]
  exact or_congr_left ⟨fun hj => hj.1, fun hj => ⟨hj, i, hi, rfl⟩⟩

/-- An inode keeps its address and its sector when one is changed. -/
theorem find_setInode (h : s.Accounts held) (hi : i ∈ s.openInodes) (href : i'.ref = i.ref)
    (hsector : i'.sector = i.sector) {j : Inode} (hj : j ∈ s.openInodes) :
    ∃ j' ∈ (s.setInode i').openInodes, j'.ref = j.ref ∧ j'.sector = j.sector := by
  by_cases hji : j.ref = i.ref
  · obtain rfl := h.inode_unique hj hi hji
    exact ⟨i', (mem_setInode hi i' href).mpr (.inl rfl), href, hsector⟩
  · exact ⟨j, (mem_setInode hi i' href).mpr (.inr ⟨hj, hji⟩), rfl, rfl⟩

/-- An open inode is changed, and with it who holds references to it. -/
theorem setInode (h : s.Accounts held) (hi : i ∈ s.openInodes) (i' : Inode)
    (href : i'.ref = i.ref) (hsector : i'.sector = i.sector)
    (hdeny : i'.denyWriteCnt = i.denyWriteCnt)
    (hcount : i'.openCnt = s.files.countP (·.inode = i.ref) + held'.count i.ref)
    (hheld : ∀ r, r ≠ i.ref → held'.count r = held.count r) : (s.setInode i').Accounts held' := by
  have hmem : ∀ {j}, j ∈ (s.setInode i').openInodes ↔ _ := mem_setInode hi i' href
  refine ⟨?_, ?_, h.ptrs, fun j hj => ?_, h.freshPtr, fun g hg => ?_, fun r hr => ?_,
    fun j hj => ?_, fun j hj => ?_⟩
  · rw [Fs.setInode, map_key_replace Inode.ref rfl]
    exact h.refs
  · rw [h.map_sector_setInode hi i' href hsector]
    exact h.sectors
  · rcases hmem.mp hj with rfl | ⟨hj, -⟩
    · rw [href]
      exact h.freshRef i hi
    · exact h.freshRef j hj
  · obtain ⟨j, hj, hjg⟩ := h.opened g hg
    obtain ⟨j', hj', hjref, -⟩ := h.find_setInode hi href hsector hj
    exact ⟨j', hj', hjref.trans hjg⟩
  · by_cases hri : r = i.ref
    · exact ⟨i', hmem.mpr (.inl rfl), href.trans hri.symm⟩
    · have hr' : r ∈ held := count_pos_iff.mp (by
        rw [← hheld r hri]
        exact count_pos_iff.mpr hr)
      obtain ⟨j, hj, hjr⟩ := h.holds r hr'
      obtain ⟨j', hj', hjref, -⟩ := h.find_setInode hi href hsector hj
      exact ⟨j', hj', hjref.trans hjr⟩
  · rcases hmem.mp hj with rfl | ⟨hj, hji⟩
    · rw [href]
      exact hcount
    · rw [hheld j.ref hji]
      exact h.count j hj
  · rcases hmem.mp hj with rfl | ⟨hj, -⟩
    · rw [href, hdeny]
      exact h.deny i hi
    · exact h.deny j hj

/-- An inode is read into memory, and its opener holds the reference. -/
theorem push (h : s.Accounts held) (hx : ∀ i ∈ s.openInodes, i.sector ≠ x) (d : InodeDisk) :
    { s with openInodes := ⟨s.next, x, 1, false, 0, d⟩ :: s.openInodes,
             next := s.next + 1 }.Accounts (s.next :: held) := by
  have hne : ∀ j ∈ s.openInodes, j.ref ≠ s.next := fun j hj => Nat.ne_of_lt (h.freshRef j hj)
  refine ⟨?_, ?_, h.ptrs, fun j hj => ?_, fun g hg => ?_, fun g hg => ?_, fun r hr => ?_,
    fun j hj => ?_, fun j hj => ?_⟩
  · rw [map_cons, nodup_cons]
    refine ⟨fun hmem => ?_, h.refs⟩
    obtain ⟨j, hj, href⟩ := mem_map.mp hmem
    exact hne j hj href
  · rw [map_cons, nodup_cons]
    refine ⟨fun hmem => ?_, h.sectors⟩
    obtain ⟨j, hj, hsec⟩ := mem_map.mp hmem
    exact hx j hj hsec
  · rcases mem_cons.mp hj with rfl | hj
    · exact Nat.lt_succ_self _
    · exact Nat.lt_succ_of_lt (h.freshRef j hj)
  · exact Nat.lt_succ_of_lt (h.freshPtr g hg)
  · obtain ⟨j, hj, href⟩ := h.opened g hg
    exact ⟨j, mem_cons_of_mem _ hj, href⟩
  · rcases mem_cons.mp hr with rfl | hr
    · exact ⟨_, mem_cons_self, rfl⟩
    · obtain ⟨j, hj, href⟩ := h.holds r hr
      exact ⟨j, mem_cons_of_mem _ hj, href⟩
  · rcases mem_cons.mp hj with rfl | hj
    · have hfiles : s.files.countP (·.inode = s.next) = 0 := by
        rw [countP_eq_zero]
        intro g hg
        simpa using Nat.ne_of_lt (h.inode_lt hg)
      have hheld : held.count s.next = 0 := by
        rw [count_eq_zero]
        exact fun hr => Nat.lt_irrefl _ (h.held_lt hr)
      simp only [hfiles, count_cons_self, hheld]
      rfl
    · rw [count_cons_of_ne (hne j hj).symm]
      exact h.count j hj
  · rcases mem_cons.mp hj with rfl | hj
    · have hfiles : (s.files.countP fun g => g.inode = s.next ∧ g.denyWrite = true) = 0 := by
        rw [countP_eq_zero]
        intro g hg
        simp [Nat.ne_of_lt (h.inode_lt hg)]
      simp only [hfiles]
      rfl
    · exact h.deny j hj

/-- No file refers to an inode whose last reference is held by someone else. -/
theorem not_refers (h : s.Accounts (i.ref :: held)) (hi : i ∈ s.openInodes)
    (hlast : i.openCnt = 1) : ∀ g ∈ s.files, g.inode ≠ i.ref := by
  have hcount := h.count i hi
  rw [hlast, count_cons_self] at hcount
  have hzero : s.files.countP (·.inode = i.ref) = 0 := by omega
  rw [countP_eq_zero] at hzero
  intro g hg
  simpa using hzero g hg

/-- The last opener of an inode closes it. -/
theorem drop (h : s.Accounts (i.ref :: held)) (hi : i ∈ s.openInodes) (hlast : i.openCnt = 1) :
    { s with openInodes := s.openInodes.filter (·.ref ≠ i.ref) }.Accounts held := by
  have hcount := h.count i hi
  rw [hlast, count_cons_self] at hcount
  have hheld : i.ref ∉ held := by
    rw [← count_eq_zero]
    omega
  have hfiles := h.not_refers hi hlast
  have hmem : ∀ {j}, j ∈ s.openInodes.filter (·.ref ≠ i.ref) ↔
      j ∈ s.openInodes ∧ j.ref ≠ i.ref := by
    intro j
    rw [mem_filter, decide_eq_true_eq]
  refine ⟨h.refs.sublist (filter_sublist.map _), h.sectors.sublist (filter_sublist.map _),
    h.ptrs, fun j hj => h.freshRef j (hmem.mp hj).1, h.freshPtr, fun g hg => ?_, fun r hr => ?_,
    fun j hj => ?_, fun j hj => h.deny j (hmem.mp hj).1⟩
  · obtain ⟨j, hj, href⟩ := h.opened g hg
    exact ⟨j, hmem.mpr ⟨hj, href ▸ hfiles g hg⟩, href⟩
  · obtain ⟨j, hj, href⟩ := h.holds r (mem_cons_of_mem _ hr)
    refine ⟨j, hmem.mpr ⟨hj, fun hji => hheld ?_⟩, href⟩
    rw [← hji, href]
    exact hr
  · obtain ⟨hj, hji⟩ := hmem.mp hj
    have hc := h.count j hj
    rw [count_cons_of_ne hji.symm] at hc
    exact hc

/-! ### Files -/

/-- A file takes over the reference of the one who opens it. -/
theorem addFile {r : InodeRef} (h : s.Accounts (r :: held)) :
    { s with files := ⟨s.next, r, 0, false⟩ :: s.files, next := s.next + 1 }.Accounts held := by
  refine ⟨h.refs, h.sectors, ?_, fun j hj => Nat.lt_succ_of_lt (h.freshRef j hj), fun g hg => ?_,
    fun g hg => ?_, fun r hr => h.holds r (mem_cons_of_mem _ hr), fun j hj => ?_,
    fun j hj => ?_⟩
  · rw [map_cons, nodup_cons]
    refine ⟨fun hmem => ?_, h.ptrs⟩
    obtain ⟨g, hg, hptr⟩ := mem_map.mp hmem
    exact Nat.ne_of_lt (h.freshPtr g hg) hptr
  · rcases mem_cons.mp hg with rfl | hg
    · exact Nat.lt_succ_self _
    · exact Nat.lt_succ_of_lt (h.freshPtr g hg)
  · rcases mem_cons.mp hg with rfl | hg
    · exact h.holds r mem_cons_self
    · exact h.opened g hg
  · have hc := h.count j hj
    rw [count_cons] at hc
    rw [countP_cons, hc]
    by_cases hjr : r = j.ref
    · simp only [hjr, beq_self_eq_true, if_true, decide_true]
      omega
    · simp [hjr]
  · rw [h.deny j hj, countP_cons_of_neg (by simp)]

/-- A file that is closed hands its reference over to the one who closes it. -/
theorem removeFile (h : s.Accounts held) (hf : f ∈ s.files) (hdeny : f.denyWrite = false) :
    { s with files := s.files.filter (·.ptr ≠ f.ptr) }.Accounts (f.inode :: held) := by
  have hmem : ∀ {g}, g ∈ s.files.filter (·.ptr ≠ f.ptr) → g ∈ s.files := fun hg =>
    mem_of_mem_filter hg
  refine ⟨h.refs, h.sectors, h.ptrs.sublist (filter_sublist.map _), h.freshRef,
    fun g hg => h.freshPtr g (hmem hg), fun g hg => h.opened g (hmem hg),
    fun r hr => ?_, fun j hj => ?_, fun j hj => ?_⟩
  · rcases mem_cons.mp hr with rfl | hr
    · exact h.opened f hf
    · exact h.holds r hr
  · have hremove := countP_remove h.ptrs hf fun g => decide (g.inode = j.ref)
    rw [h.count j hj, ← hremove, count_cons]
    simp only [decide_eq_true_eq, beq_iff_eq]
    omega
  · have hremove := countP_remove h.ptrs hf fun g =>
      decide (g.inode = j.ref ∧ g.denyWrite = true)
    rw [h.deny j hj, ← hremove, hdeny]
    simp

/-- The files after a store into one of them. -/
theorem mem_setFile {f' g : File} (hptr : f'.ptr = f.ptr) (hg : g ∈ (s.setFile f').files) :
    g = f' ∨ g ∈ s.files ∧ g.ptr ≠ f.ptr := by
  rw [Fs.setFile, mem_replace File.ptr, hptr] at hg
  exact hg.imp_left And.left

/-- The open inodes, where `f'` is counted among those that deny writes instead of `f`. -/
structure Recounts (s : Fs) (f f' : File) (openInodes : List Inode) : Prop where
  refs : openInodes.map (·.ref) = s.openInodes.map (·.ref)
  sectors : openInodes.map (·.sector) = s.openInodes.map (·.sector)
  same : ∀ i' ∈ openInodes, ∃ i ∈ s.openInodes, i'.ref = i.ref ∧ i'.sector = i.sector ∧
    i'.openCnt = i.openCnt ∧
    i'.denyWriteCnt + (if f.inode = i.ref ∧ f.denyWrite = true then 1 else 0 : ℕ) =
      i.denyWriteCnt + (if f.inode = i.ref ∧ f'.denyWrite = true then 1 else 0 : ℕ)

/-- An open file is changed, and with it the denials that the inodes count. -/
theorem setFile (h : s.Accounts held) (hf : f ∈ s.files) (f' : File) (hptr : f'.ptr = f.ptr)
    (hinode : f'.inode = f.inode) {openInodes : List Inode} (hr : Recounts s f f' openInodes) :
    { s.setFile f' with openInodes := openInodes }.Accounts held := by
  have hkeys : (s.setFile f').files.map (·.ptr) = s.files.map (·.ptr) :=
    map_key_replace File.ptr rfl
  have hcountP : ∀ p : File → Bool, (s.setFile f').files.countP p + (if p f then 1 else 0) =
      s.files.countP p + if p f' then 1 else 0 := by
    intro p
    rw [Fs.setFile, hptr]
    exact countP_replace h.ptrs hf p
  have hfind : ∀ {j}, j ∈ s.openInodes → ∃ j' ∈ openInodes, j'.ref = j.ref := by
    intro j hj
    have href : j.ref ∈ openInodes.map (·.ref) := hr.refs ▸ mem_map_of_mem hj
    exact mem_map.mp href
  refine ⟨hr.refs ▸ h.refs, hr.sectors ▸ h.sectors, hkeys ▸ h.ptrs, fun j hj => ?_, fun g hg => ?_,
    fun g hg => ?_, fun r hheld => ?_, fun j hj => ?_, fun j hj => ?_⟩
  · obtain ⟨i, hi, href, -⟩ := hr.same j hj
    rw [href]
    exact h.freshRef i hi
  · rcases mem_setFile hptr hg with rfl | ⟨hg, -⟩
    · rw [hptr]
      exact h.freshPtr f hf
    · exact h.freshPtr g hg
  · have hold : ∃ g' ∈ s.files, g'.inode = g.inode := by
      rcases mem_setFile hptr hg with rfl | ⟨hg, -⟩
      · exact ⟨f, hf, hinode.symm⟩
      · exact ⟨g, hg, rfl⟩
    obtain ⟨g', hg', hgi⟩ := hold
    obtain ⟨j, hj, hjg⟩ := h.opened g' hg'
    obtain ⟨j', hj', hjref⟩ := hfind hj
    exact ⟨j', hj', (hjref.trans hjg).trans hgi⟩
  · obtain ⟨j, hj, hjr⟩ := h.holds r hheld
    obtain ⟨j', hj', hjref⟩ := hfind hj
    exact ⟨j', hj', hjref.trans hjr⟩
  · obtain ⟨i, hi, href, -, hopen, -⟩ := hr.same j hj
    have hc := hcountP fun g => decide (g.inode = i.ref)
    simp only [hinode, Nat.add_right_cancel_iff] at hc
    rw [hopen, href, h.count i hi, ← hc]
  · obtain ⟨i, hi, href, -, -, hdeny⟩ := hr.same j hj
    have hc := hcountP fun g => decide (g.inode = i.ref ∧ g.denyWrite = true)
    simp only [hinode, decide_eq_true_eq] at hc
    rw [h.deny i hi] at hdeny
    rw [href]
    dsimp only
    omega

/-- What a file that starts or stops denying writes does to the inodes. -/
theorem recounts (h : s.Accounts held) (hi : i ∈ s.openInodes) (href : i.ref = f.inode)
    (deny : Bool) {cnt : ℤ} (hcnt : cnt + (if f.denyWrite = true then 1 else 0 : ℕ) =
      i.denyWriteCnt + (if deny = true then 1 else 0 : ℕ)) :
    Recounts s f { f with denyWrite := deny }
      (s.setInode { i with denyWriteCnt := cnt }).openInodes := by
  refine ⟨map_key_replace Inode.ref rfl, h.map_sector_setInode hi _ rfl rfl, fun i' hi' => ?_⟩
  rcases (mem_setInode hi { i with denyWriteCnt := cnt } rfl).mp hi' with rfl | ⟨hj, hji⟩
  · refine ⟨i, hi, rfl, rfl, rfl, ?_⟩
    simpa only [href, true_and] using hcnt
  · refine ⟨i', hj, rfl, rfl, rfl, ?_⟩
    have hne : f.inode ≠ i'.ref := fun heq => hji (heq.symm.trans href.symm)
    simp only [hne, false_and, if_false]

/-- A file starts or stops denying writes. -/
theorem setDeny (h : s.Accounts held) (hf : f ∈ s.files) (hi : i ∈ s.openInodes)
    (href : i.ref = f.inode) (deny : Bool) {cnt : ℤ}
    (hcnt : cnt + (if f.denyWrite = true then 1 else 0 : ℕ) =
      i.denyWriteCnt + (if deny = true then 1 else 0 : ℕ)) :
    ((s.setFile { f with denyWrite := deny }).setInode { i with denyWriteCnt := cnt }).Accounts
      held :=
  h.setFile hf { f with denyWrite := deny } rfl rfl (h.recounts hi href deny hcnt)

end Accounts

end Fs

end Pintos
