import Pintos.FilesysSafety
import Pintos.InodeAccounting

/-!
# Handles of Open Inodes

Whoever opens an inode has a raw reference to it, and may make a file or a directory of it,
which takes the reference over; a `struct dir` stands for the reference that it keeps. The
callers here do so in any order, on any sectors of any device, whether these hold inodes or
not: they open and reopen inodes, make files and directories of them, close these, deny and
allow writes, and remove inodes. All that is taken for granted is that a call is made with a
reference that its caller has, and that nobody closes the free map's file. The counters do
not overflow: whoever has a reference keeps it in a word of memory, and an `int` can count
all of these.

The accounts of the open inodes are right after every call, so the assertions about the
number of denials never fail. The free map changes only when the last reference to an inode
that was removed is given up, and an address is not that of an open inode ever after.

## Main results

* `Handles.Inv.perform`: what a call does.
* `openInode_accounting`: the accounts in every state that is reached.
-/

namespace Pintos

open Verif Outcome List

/-- The file system with the references to open inodes that are not those of files: the raw
ones, and those of directories. -/
structure Handles where
  fs : Fs
  raw : List InodeRef
  dirs : List InodeRef

/-- A call that opens or closes, or is about writes or removal. -/
inductive HandleOp where
  | inodeOpen (sector : ℕ)
  | inodeReopen (r : InodeRef)
  | inodeClose (r : InodeRef)
  | inodeRemove (r : InodeRef)
  | fileOpen (inode : Option InodeRef)
  | fileReopen (p : FilePtr)
  | fileClose (p : FilePtr)
  | fileDenyWrite (p : FilePtr)
  | fileAllowWrite (p : FilePtr)
  | dirOpen (inode : Option InodeRef)
  | dirClose (r : InodeRef)
  deriving DecidableEq

/-- A call, and what its allocations of memory are answered. -/
structure HandleCall where
  op : HandleOp
  answers : List Bool

namespace Handles

/-- The caller has what the call is made with. -/
def Has (h : Handles) : HandleOp → Prop
  | .inodeOpen _ => True
  | .inodeReopen r | .inodeRemove r => h.fs.HasInode r
  | .inodeClose r => r ∈ h.raw
  | .fileOpen inode | .dirOpen inode => ∀ r ∈ inode, r ∈ h.raw
  | .fileReopen p | .fileClose p | .fileDenyWrite p | .fileAllowWrite p => h.fs.IsOpen p
  | .dirClose r => r ∈ h.dirs

instance (h : Handles) : (op : HandleOp) → Decidable (h.Has op)
  | .inodeOpen _ => inferInstanceAs (Decidable True)
  | .inodeReopen r | .inodeRemove r => inferInstanceAs (Decidable (h.fs.HasInode r))
  | .inodeClose r => inferInstanceAs (Decidable (r ∈ h.raw))
  | .fileOpen inode | .dirOpen inode => inferInstanceAs (Decidable (∀ r ∈ inode, r ∈ h.raw))
  | .fileReopen p | .fileClose p | .fileDenyWrite p | .fileAllowWrite p =>
    inferInstanceAs (Decidable (h.fs.IsOpen p))
  | .dirClose r => inferInstanceAs (Decidable (r ∈ h.dirs))

/-- What a call does. -/
def perform (h : Handles) : HandleOp → FsM Handles
  | .inodeOpen sector => do
    let (r, fs) ← h.fs.inodeOpen sector
    return { h with fs := fs, raw := r.toList ++ h.raw }
  | .inodeReopen r => do
    let fs ← h.fs.inodeReopen r
    return { h with fs := fs, raw := r :: h.raw }
  | .inodeClose r => do
    let fs ← h.fs.inodeClose r
    return { h with fs := fs, raw := h.raw.erase r }
  | .inodeRemove r => do
    let fs ← h.fs.inodeRemove r
    return { h with fs := fs }
  | .fileOpen inode => do
    let (_, fs) ← h.fs.fileOpen inode
    return { h with fs := fs, raw := inode.elim h.raw h.raw.erase }
  | .fileReopen p => do
    let (_, fs) ← h.fs.fileReopen p
    return { h with fs := fs }
  | .fileClose p => do
    let fs ← h.fs.fileClose p
    return { h with fs := fs }
  | .fileDenyWrite p => do
    let fs ← h.fs.fileDenyWrite p
    return { h with fs := fs }
  | .fileAllowWrite p => do
    let fs ← h.fs.fileAllowWrite p
    return { h with fs := fs }
  | .dirOpen inode => do
    let (dir, fs) ← h.fs.dirOpen inode
    return ⟨fs, inode.elim h.raw h.raw.erase, dir.toList ++ h.dirs⟩
  | .dirClose r => do
    let fs ← h.fs.inodeClose r
    return { h with fs := fs, dirs := h.dirs.erase r }

/-- A call by someone who has what it is made with. -/
def step (h : Handles) (c : HandleCall) : Outcome FsPanic Handles := do
  Outcome.require (h.Has c.op)
  let (h, _) ← h.perform c.op c.answers
  return h

/-! ### The invariant -/

/-- The references that are not those of files. -/
def held (h : Handles) : List InodeRef := h.raw ++ h.dirs

/-- The accounts are right. -/
def Inv (h : Handles) : Prop := h.fs.Balanced h.held

/-- The assertions that can fail: a sector past the end of the device is read, or the last
reference to an inode is given up that was removed, but whose sectors are not all marked. -/
def Faults (h : Handles) (op : HandleOp) (e : FsPanic) : Prop :=
  e = .pastEnd ∧ (∃ sector, op = .inodeOpen sector ∧ h.fs.device.size ≤ sector) ∨
  (e = .bitmapRange ∨ e = .bitmapAll) ∧ ∃ i ∈ h.fs.openInodes, h.fs.Stuck i

/-- **What a call does to the open inodes**, but for their counters, and to the free map. -/
inductive Effect (h h' : Handles) : HandleOp → Prop
  | recounts {op : HandleOp} (hop : ∀ r, op ≠ .inodeRemove r) (hs : h.fs.Recounts h'.fs) :
      Effect h h' op
  | opens {sector : ℕ} (hmap : h'.fs.freeMap = h.fs.freeMap) (hnext : h.fs.next ≤ h'.fs.next)
      (hbare : h'.fs.bare =
        (⟨h.fs.next, sector, 0, false, 0, h.fs.onDisk sector⟩ : Inode) :: h.fs.bare) :
      Effect h h' (.inodeOpen sector)
  | removes {r : InodeRef} (hmap : h'.fs.freeMap = h.fs.freeMap)
      (hnext : h'.fs.next = h.fs.next)
      (hbare : h'.fs.bare = h.fs.bare.map fun j =>
        if j.ref = r then { j with removed := true } else j) :
      Effect h h' (.inodeRemove r)
  | closes {op : HandleOp} {i : Inode} (hop : ∀ r, op ≠ .inodeRemove r)
      (hi : i ∈ h.fs.openInodes) (hs : h.fs.LastClose i h'.fs) : Effect h h' op

variable {h h' : Handles} {r : Bool} {ref : InodeRef}

/-- A raw reference may be put first. -/
theorem Inv.take_raw (hinv : h.Inv) (hr : ref ∈ h.raw) :
    h.fs.Balanced (ref :: (h.raw.erase ref ++ h.dirs)) :=
  Fs.Balanced.perm hinv ((perm_cons_erase hr).append_right h.dirs)

/-- A directory's reference may be put first. -/
theorem Inv.take_dir (hinv : h.Inv) (hr : ref ∈ h.dirs) :
    h.fs.Balanced (ref :: (h.raw ++ h.dirs.erase ref)) :=
  Fs.Balanced.perm hinv
    (((perm_cons_erase hr).append_left h.raw).trans perm_middle)

/-- The inode that a reference is to. -/
theorem Inv.inode (hinv : h.Inv) (hr : ref ∈ h.held) : ∃ i ∈ h.fs.openInodes, i.ref = ref :=
  hinv.accounts.holds ref hr

/-- A reference is given up, or handed over: no inode is marked as removed. -/
theorem Effect.of_close {op : HandleOp} (hop : ∀ r, op ≠ .inodeRemove r) {i : Inode}
    (hi : i ∈ h.fs.openInodes) (hs : h.fs.Recounts h'.fs ∨ h.fs.LastClose i h'.fs) :
    h.Effect h' op := by
  rcases hs with hs | hs
  · exact .recounts hop hs
  · exact .closes hop hi hs

theorem faults_of_stuck {op : HandleOp} {i : Inode} (hi : i ∈ h.fs.openInodes)
    (hstuck : h.fs.Stuck i) : h.Faults op .bitmapRange ∧ h.Faults op .bitmapAll :=
  ⟨.inr ⟨.inl rfl, i, hi, hstuck⟩, .inr ⟨.inr rfl, i, hi, hstuck⟩⟩

theorem file_of_isOpen {p : FilePtr} (hp : h.fs.IsOpen p) :
    ∃ f ∈ h.fs.files, f.ptr = p ∧ h.fs.freeMapFile ≠ some f.ptr := by
  obtain ⟨⟨f, hf, rfl⟩, hmap⟩ := hp
  exact ⟨f, hf, rfl, hmap⟩

/-- **What a call does**: the accounts are right after it. -/
theorem Inv.perform (hinv : h.Inv) {op : HandleOp} (hop : h.Has op) :
    (h.perform op).Spec r (h.Faults op) fun h' => h'.Inv ∧ h.Effect h' op := by
  cases op with
  | inodeOpen sector =>
    refine (Fs.Balanced.inodeOpen hinv sector fun hle => .inl ⟨rfl, sector, rfl, hle⟩).bind
      fun v hv => .pure ?_
    obtain ⟨ref, fs⟩ := v
    cases ref with
    | none =>
      obtain rfl : fs = h.fs := hv.2
      exact ⟨hinv, .recounts (fun _ => by simp) ⟨rfl, rfl, le_rfl⟩⟩
    | some ref =>
      obtain ⟨hbal, hmap, hnext, hbare | hbare, -⟩ := hv
      · exact ⟨hbal, .recounts (fun _ => by simp) ⟨hbare, hmap, hnext⟩⟩
      · exact ⟨hbal, .opens hmap hnext hbare⟩
  | inodeReopen ref =>
    obtain ⟨i, hi, rfl⟩ := hop
    exact (Fs.Balanced.inodeReopen hinv hi).bind fun fs hs => .pure
      ⟨hs.1, .recounts (fun _ => by simp) hs.2.1⟩
  | inodeClose ref =>
    obtain ⟨i, hi, rfl⟩ := hinv.inode (mem_append_left _ hop)
    exact ((hinv.take_raw hop).inodeClose hi (faults_of_stuck hi)).bind fun fs hs => .pure
      ⟨hs.1, .of_close (fun _ => by simp) hi hs.2.1⟩
  | inodeRemove ref =>
    obtain ⟨i, hi, rfl⟩ := hop
    exact (Fs.Balanced.inodeRemove hinv hi).bind fun fs hs => .pure
      ⟨hs.1, .removes hs.2.1 hs.2.2.1 hs.2.2.2.2⟩
  | fileOpen inode =>
    cases inode with
    | none =>
      refine OracleM.Spec.bind (P := fun v => v.2 = h.fs)
        (OracleM.Spec.draw.bind fun _ _ => .pure rfl) fun v hv => .pure ?_
      obtain ⟨_, fs⟩ := v
      obtain rfl : fs = h.fs := hv
      exact ⟨hinv, .recounts (fun _ => by simp) ⟨rfl, rfl, le_rfl⟩⟩
    | some ref =>
      have hr : ref ∈ h.raw := hop ref rfl
      obtain ⟨i, hi, rfl⟩ := hinv.inode (mem_append_left _ hr)
      exact ((hinv.take_raw hr).fileOpen hi (faults_of_stuck hi)).bind fun v hv => .pure
        ⟨hv.1, .of_close (fun _ => by simp) hi hv.2⟩
  | fileReopen p =>
    obtain ⟨f, hf, rfl, -⟩ := file_of_isOpen hop
    exact (Fs.Balanced.fileReopen hinv hf).bind fun v hv => .pure
      ⟨hv.1, .recounts (fun _ => by simp) hv.2⟩
  | fileClose p =>
    obtain ⟨f, hf, rfl, hmap⟩ := file_of_isOpen hop
    refine (Fs.Balanced.fileClose hinv hf hmap fun i hi => faults_of_stuck hi).bind
      fun fs hs => .pure ⟨hs.1, ?_⟩
    rcases hs.2 with hs | ⟨i, hi, hs⟩
    · exact .recounts (fun _ => by simp) hs
    · exact .closes (fun _ => by simp) hi hs
  | fileDenyWrite p =>
    obtain ⟨f, hf, rfl, -⟩ := file_of_isOpen hop
    exact (Fs.Balanced.fileDenyWrite hinv hf).bind fun fs hs => .pure
      ⟨hs.1, .recounts (fun _ => by simp) hs.2.recounts⟩
  | fileAllowWrite p =>
    obtain ⟨f, hf, rfl, -⟩ := file_of_isOpen hop
    exact (Fs.Balanced.fileAllowWrite hinv hf).bind fun fs hs => .pure
      ⟨hs.1, .recounts (fun _ => by simp) hs.2.recounts⟩
  | dirOpen inode =>
    cases inode with
    | none =>
      refine OracleM.Spec.bind (P := fun v => v = (none, h.fs))
        (OracleM.Spec.draw.bind fun _ _ => .pure rfl) fun v hv => .pure ?_
      subst hv
      exact ⟨hinv, .recounts (fun _ => by simp) ⟨rfl, rfl, le_rfl⟩⟩
    | some ref =>
      have hr : ref ∈ h.raw := hop ref rfl
      obtain ⟨i, hi, rfl⟩ := hinv.inode (mem_append_left _ hr)
      have hbal := hinv.take_raw hr
      refine (hbal.dirOpen hi (faults_of_stuck hi)).bind fun v hv => .pure ?_
      obtain ⟨dir, fs⟩ := v
      cases dir with
      | none => exact ⟨hv.1, .of_close (fun _ => by simp) hi hv.2⟩
      | some dir =>
        obtain ⟨rfl, rfl⟩ := hv
        -- the raw reference is a directory's now
        exact ⟨hbal.perm perm_middle.symm,
          .recounts (fun _ => by simp) ⟨rfl, rfl, le_rfl⟩⟩
  | dirClose ref =>
    obtain ⟨i, hi, rfl⟩ := hinv.inode (mem_append_right _ hop)
    exact ((hinv.take_dir hop).inodeClose hi (faults_of_stuck hi)).bind fun fs hs => .pure
      ⟨hs.1, .of_close (fun _ => by simp) hi hs.2.1⟩

/-! ### The open inodes after a call -/

theorem mem_bare {s : Fs} {b : Inode} : b ∈ s.bare ↔ ∃ i ∈ s.openInodes, i.bare = b :=
  mem_map

theorem hasInode_iff {s : Fs} : s.HasInode ref ↔ ∃ b ∈ s.bare, b.ref = ref := by
  constructor
  · rintro ⟨i, hi, rfl⟩
    exact ⟨i.bare, mem_bare.mpr ⟨i, hi, rfl⟩, rfl⟩
  · rintro ⟨b, hb, rfl⟩
    obtain ⟨i, hi, rfl⟩ := mem_bare.mp hb
    exact ⟨i, hi, rfl⟩

theorem Effect.next_le {op : HandleOp} (heff : h.Effect h' op) : h.fs.next ≤ h'.fs.next := by
  cases heff with
  | recounts hop hs | closes hop hi hs => exact hs.next
  | opens hmap hnext hbare => exact hnext
  | removes hmap hnext hbare => exact hnext.ge

/-- An inode that is open was open before, or it is read into memory by the call. -/
theorem Effect.opened {op : HandleOp} (heff : h.Effect h' op) {i' : Inode}
    (hi' : i' ∈ h'.fs.openInodes) :
    (∃ i ∈ h.fs.openInodes, i'.ref = i.ref ∧ i'.sector = i.sector ∧ i'.data = i.data ∧
      (i'.removed = true ↔ i.removed = true ∨ op = .inodeRemove i.ref)) ∨
    op = .inodeOpen i'.sector ∧ i'.ref = h.fs.next ∧ i'.removed = false ∧
      i'.data = h.fs.onDisk i'.sector := by
  have hmem : i'.bare ∈ h'.fs.bare := mem_bare.mpr ⟨i', hi', rfl⟩
  -- an inode that is the same but for its counters
  have hsame : i'.bare ∈ h.fs.bare → (∀ r, op ≠ .inodeRemove r) →
      ∃ i ∈ h.fs.openInodes, i'.ref = i.ref ∧ i'.sector = i.sector ∧ i'.data = i.data ∧
        (i'.removed = true ↔ i.removed = true ∨ op = .inodeRemove i.ref) := by
    intro hb hop
    obtain ⟨i, hi, hbare⟩ := mem_bare.mp hb
    simp only [Inode.bare, Inode.mk.injEq] at hbare
    obtain ⟨href, hsector, -, hremoved, -, hdata⟩ := hbare
    refine ⟨i, hi, href.symm, hsector.symm, hdata.symm, ?_⟩
    rw [hremoved, or_iff_left (hop _)]
  cases heff with
  | recounts hop hs =>
    rw [hs.bare] at hmem
    exact .inl (hsame hmem hop)
  | opens hmap hnext hbare =>
    rw [hbare, mem_cons] at hmem
    rcases hmem with hnew | hold
    · simp only [Inode.bare, Inode.mk.injEq] at hnew
      obtain ⟨href, hsector, -, hremoved, -, hdata⟩ := hnew
      subst hsector
      exact .inr ⟨rfl, href, hremoved, hdata⟩
    · exact .inl (hsame hold (fun _ => by simp))
  | @removes r hmap hnext hbare =>
    rw [hbare, mem_map] at hmem
    obtain ⟨b, hb, heq⟩ := hmem
    obtain ⟨i, hi, rfl⟩ := mem_bare.mp hb
    refine .inl ⟨i, hi, ?_⟩
    by_cases hir : i.ref = r
    · rw [if_pos (show i.bare.ref = r from hir)] at heq
      simp only [Inode.bare, Inode.mk.injEq] at heq
      obtain ⟨href, hsector, -, hremoved, -, hdata⟩ := heq
      refine ⟨href.symm, hsector.symm, hdata.symm, ?_⟩
      simp [← hremoved, hir]
    · rw [if_neg (show i.bare.ref ≠ r from hir)] at heq
      simp only [Inode.bare, Inode.mk.injEq] at heq
      obtain ⟨href, hsector, -, hremoved, -, hdata⟩ := heq
      refine ⟨href.symm, hsector.symm, hdata.symm, ?_⟩
      simp [← hremoved, Ne.symm hir]
  | closes hop hi hs =>
    rw [hs.bare] at hmem
    exact .inl (hsame (mem_of_mem_filter hmem) hop)

/-- An inode that is open stays open, or the last reference to it is given up. -/
theorem Effect.closed {op : HandleOp} (heff : h.Effect h' op) (hinv : h.Inv) :
    (∀ i ∈ h.fs.openInodes, h'.fs.HasInode i.ref) ∧ h'.fs.freeMap = h.fs.freeMap ∨
    ∃ i ∈ h.fs.openInodes, i.openCnt = 1 ∧ ¬h'.fs.HasInode i.ref ∧
      (∀ j ∈ h.fs.openInodes, j ≠ i → h'.fs.HasInode j.ref) ∧
      h'.fs.freeMap = if i.removed then i.release h.fs.freeMap else h.fs.freeMap := by
  have hbareMem : ∀ i ∈ h.fs.openInodes, i.bare ∈ h.fs.bare := fun i hi =>
    mem_bare.mpr ⟨i, hi, rfl⟩
  cases heff with
  | recounts hop hs =>
    refine .inl ⟨fun i hi => hasInode_iff.mpr ⟨i.bare, ?_, rfl⟩, hs.freeMap⟩
    rw [hs.bare]
    exact hbareMem i hi
  | opens hmap hnext hbare =>
    refine .inl ⟨fun i hi => hasInode_iff.mpr ⟨i.bare, ?_, rfl⟩, hmap⟩
    rw [hbare]
    exact mem_cons_of_mem _ (hbareMem i hi)
  | @removes r hmap hnext hbare =>
    refine .inl ⟨fun i hi => hasInode_iff.mpr ?_, hmap⟩
    rw [hbare]
    refine ⟨_, mem_map_of_mem (hbareMem i hi), ?_⟩
    split
    · rfl
    · rfl
  | @closes _ i hop hi hs =>
    refine .inr ⟨i, hi, hs.last, fun hhas => ?_, fun j hj hne => ?_, hs.freeMap⟩
    · obtain ⟨b, hb, href⟩ := hasInode_iff.mp hhas
      rw [hs.bare, mem_filter, decide_eq_true_eq] at hb
      exact hb.2 href
    · refine hasInode_iff.mpr ⟨j.bare, ?_, rfl⟩
      rw [hs.bare, mem_filter, decide_eq_true_eq]
      exact ⟨hbareMem j hj, fun href => hne (hinv.accounts.inode_unique hj hi href)⟩

/-! ### Runs -/

/-- What a call that completes does. -/
theorem step_eq_ok {c : HandleCall} (hstep : h.step c = .ok h') (hinv : h.Inv) :
    h'.Inv ∧ h.Effect h' c.op := by
  rw [step, require_bind_eq_ok] at hstep
  obtain ⟨hhas, hstep⟩ := hstep
  obtain ⟨v, hv, hs⟩ := bind_eq_ok.mp hstep
  obtain rfl : v.1 = h' := ok.inj hs
  exact (hinv.perform hhas).of_eq_ok hv

/-- The assertion that a call fails. -/
theorem step_eq_panic {c : HandleCall} {e : FsPanic} (hstep : h.step c = .panic e)
    (hinv : h.Inv) : h.Faults c.op e := by
  rw [step, require_bind_eq_panic] at hstep
  obtain ⟨hhas, hstep⟩ := hstep
  rcases bind_eq_panic.mp hstep with hv | ⟨v, hv, hs⟩
  · exact (hinv.perform hhas).of_eq_panic hv
  · cases hs

/-- **An address is used once**: that of an inode that was closed is not that of an open
inode ever after. -/
theorem not_hasInode_of_reachable (hinv : h.Inv) (hlt : ref < h.fs.next)
    (hclosed : ¬h.fs.HasInode ref) (hreach : Reachable step (fun _ _ => True) h h') :
    ¬h'.fs.HasInode ref := by
  have hall : h'.Inv ∧ ref < h'.fs.next ∧ ¬h'.fs.HasInode ref := by
    refine hreach.invariant (I := fun h => h.Inv ∧ ref < h.fs.next ∧ ¬h.fs.HasInode ref)
      ⟨hinv, hlt, hclosed⟩ fun h c h' hh _ hstep => ?_
    obtain ⟨hinv, hlt, hclosed⟩ := hh
    obtain ⟨hinv', heff⟩ := step_eq_ok hstep hinv
    refine ⟨hinv', lt_of_lt_of_le hlt heff.next_le, ?_⟩
    rintro ⟨i', hi', rfl⟩
    rcases heff.opened hi' with ⟨i, hi, href, -⟩ | ⟨-, href, -⟩
    · exact hclosed ⟨i, hi, href.symm⟩
    · exact absurd href (Nat.ne_of_lt hlt)
  exact hall.2.2

end Handles

/-- The states reached from a device with any contents, on which the free map's file has just
been opened. -/
def HandlesReachable (h : Handles) : Prop :=
  ∃ s i f, Fs.Mounted i f s ∧ (s.onDisk freeMapSector).Within s.device ∧
    Reachable Handles.step (fun _ _ => True) ⟨s, [], []⟩ h

/-- **The accounts are right in every state that is reached.** -/
theorem HandlesReachable.inv {h : Handles} (hreach : HandlesReachable h) : h.Inv := by
  obtain ⟨s, i, f, hmounted, hwithin, hrun⟩ := hreach
  exact hrun.invariant (hmounted.balanced hwithin) fun h c h' hinv _ hstep =>
    (Handles.step_eq_ok hstep hinv).1

/-- What a call adds to the open inodes and what it takes away. -/
theorem Handles.Effect.summary {h h' : Handles} {op : HandleOp} (heff : h.Effect h' op)
    (hinv : h.Inv) (hinv' : h'.Inv) :
    (∀ i ∈ h.fs.openInodes, ∀ i' ∈ h'.fs.openInodes, i'.ref = i.ref → i'.sector = i.sector ∧
      i'.data = i.data ∧ (i'.removed = true ↔ i.removed = true ∨ op = .inodeRemove i.ref)) ∧
    ((∀ i ∈ h.fs.openInodes, h'.fs.HasInode i.ref) → h'.fs.freeMap = h.fs.freeMap) ∧
    ∀ i ∈ h.fs.openInodes, ¬h'.fs.HasInode i.ref → i.openCnt = 1 ∧
      (h'.fs.freeMap = if i.removed then i.release h.fs.freeMap else h.fs.freeMap) ∧
      ∀ h'', Reachable Handles.step (fun _ _ => True) h' h'' → ¬h''.fs.HasInode i.ref := by
  refine ⟨fun i hi i' hi' href => ?_, fun hall => ?_, fun i hi hnot => ?_⟩
  · rcases heff.opened hi' with ⟨j, hj, hjref, hsector, hdata, hremoved⟩ | ⟨-, hnew, -⟩
    · obtain rfl := hinv.accounts.inode_unique hj hi (hjref.symm.trans href)
      exact ⟨hsector, hdata, hremoved⟩
    · exact absurd (href.symm.trans hnew) (Nat.ne_of_lt (hinv.accounts.freshRef i hi))
  · rcases heff.closed hinv with ⟨-, hmap⟩ | ⟨i, hi, -, hnot, -⟩
    · exact hmap
    · exact absurd (hall i hi) hnot
  · rcases heff.closed hinv with ⟨hall, -⟩ | ⟨j, hj, hlast, -, hothers, hmap⟩
    · exact absurd (hall i hi) hnot
    · obtain rfl : i = j := by
        by_contra hne
        exact hnot (hothers i hi hne)
      refine ⟨hlast, hmap, fun h'' hreach => ?_⟩
      have hlt := lt_of_lt_of_le (hinv.accounts.freshRef i hi) heff.next_le
      exact Handles.not_hasInode_of_reachable hinv' hlt hnot hreach

/-- **Accounting of open inodes.** In every state that is reached, whatever sectors are opened
and whatever memory is refused: at most one inode is open for a sector; an inode that is open
has as many openers as its counter says, and at least one, and every file, directory and raw
reference is to an inode that is open; its other counter is the number of its files that deny
writes, which is at most that of its openers, and a write to it writes nothing if there are
any. The only assertions that fail are those about sectors past the end of the device and
about freeing sectors that are not marked. A call leaves the free map as it was unless it
gives up the last reference to an inode; if that was removed, by `inode_remove`, its sectors
are freed then, and no inode has its address ever after. -/
theorem openInode_accounting {h : Handles} (hreach : HandlesReachable h) :
    (h.fs.openInodes.map (·.sector)).Nodup ∧
    (∀ i ∈ h.fs.openInodes, 0 < i.openCnt ∧
      i.openCnt = h.fs.files.countP (·.inode = i.ref) + h.dirs.count i.ref + h.raw.count i.ref) ∧
    (∀ r, (∃ f ∈ h.fs.files, f.inode = r) ∨ r ∈ h.dirs ∨ r ∈ h.raw → h.fs.HasInode r) ∧
    (∀ i ∈ h.fs.openInodes,
      i.denyWriteCnt = (h.fs.files.countP fun f => f.inode = i.ref ∧ f.denyWrite = true) ∧
      i.denyWriteCnt ≤ i.openCnt ∧
      (0 < i.denyWriteCnt → ∀ buffer size offset answers,
        h.fs.inodeWriteAt i.ref buffer size offset answers = .ok ((0, h.fs), answers))) ∧
    (∀ c e, h.step c = .panic e → h.Faults c.op e) ∧
    ∀ c h', h.step c = .ok h' →
      (∀ i ∈ h.fs.openInodes, ∀ i' ∈ h'.fs.openInodes, i'.ref = i.ref → i'.sector = i.sector ∧
        i'.data = i.data ∧ (i'.removed = true ↔ i.removed = true ∨ c.op = .inodeRemove i.ref)) ∧
      ((∀ i ∈ h.fs.openInodes, h'.fs.HasInode i.ref) → h'.fs.freeMap = h.fs.freeMap) ∧
      ∀ i ∈ h.fs.openInodes, ¬h'.fs.HasInode i.ref → i.openCnt = 1 ∧
        (h'.fs.freeMap = if i.removed then i.release h.fs.freeMap else h.fs.freeMap) ∧
        ∀ h'', Reachable Handles.step (fun _ _ => True) h' h'' → ¬h''.fs.HasInode i.ref := by
  have hinv := hreach.inv
  have haccounts := hinv.accounts
  refine ⟨haccounts.sectors, fun i hi => ⟨hinv.positive i hi, ?_⟩, fun r hr => ?_,
    fun i hi => ⟨haccounts.deny i hi, haccounts.deny_le hi, fun hpos _ _ _ _ => ?_⟩,
    fun c e hstep => Handles.step_eq_panic hstep hinv, fun c h' hstep => ?_⟩
  · rw [haccounts.count i hi, Handles.held, List.count_append]
    omega
  · rcases hr with ⟨f, hf, rfl⟩ | hr | hr
    · exact haccounts.opened f hf
    · exact haccounts.holds r (List.mem_append_right _ hr)
    · exact haccounts.holds r (List.mem_append_left _ hr)
  · rw [Fs.inodeWriteAt, Fs.inode, haccounts.find_inode hi, OracleM.bind_apply]
    show (if i.denyWriteCnt ≠ 0 then (pure (0, h.fs) : FsM (ℕ × Fs)) else _) _ = _
    rw [if_pos hpos.ne']
    rfl
  · obtain ⟨hinv', heff⟩ := Handles.step_eq_ok hstep hinv
    exact heff.summary hinv hinv'

/-- Calls on a small device that was just formatted, with all the memory that they want. -/
def sampleHandles (ops : List HandleOp) : Outcome FsPanic Handles := do
  let (s, _) ← Fs.filesysInit Fs.blankDevice (fun _ => false) []
  exec Handles.step ⟨s, [], []⟩ (ops.map fun op => ⟨op, []⟩)

theorem sampleHandles_reachable {ops : List HandleOp} {h : Handles}
    (hrun : sampleHandles ops = .ok h) : HandlesReachable h := by
  obtain ⟨v, hinit, hexec⟩ := bind_eq_ok.mp hrun
  have hformatted := (Fs.filesysInit_spec _ _).of_eq_ok hinit
  obtain ⟨i, f, hmounted⟩ := hformatted.mounted
  exact ⟨v.1, i, f, hmounted, (hformatted.inv.space.within _ v.1.live_freeMap).2, _,
    .of_exec hexec⟩

/-- The inode of sector 1 was removed; it has a file that denies writes and a directory. -/
theorem openInode_accounting_removed : ∃ h : Handles, HandlesReachable h ∧
    ∃ i ∈ h.fs.openInodes, i.sector = 1 ∧ i.removed = true ∧ i.denyWriteCnt = 1 ∧
      i.openCnt = h.fs.files.countP (·.inode = i.ref) + h.dirs.count i.ref + h.raw.count i.ref ∧
      h.fs.inodeWriteAt i.ref (fun _ => 0) 1 0 [] = .ok ((0, h.fs), []) := by
  have htest : (sampleHandles [.inodeOpen 1, .inodeOpen 1, .fileOpen (some 4), .dirOpen (some 4),
      .fileDenyWrite 5, .inodeRemove 4]).test (fun h => decide (∃ i ∈ h.fs.openInodes,
        i.sector = 1 ∧ i.removed = true ∧ i.denyWriteCnt = 1)) = true := by
    decide +kernel
  obtain ⟨h, hrun, hs⟩ := Outcome.of_test htest
  obtain ⟨i, hi, hsector, hremoved, hdeny⟩ := of_decide_eq_true hs
  have hreach := sampleHandles_reachable hrun
  obtain ⟨-, hcount, -, hwrite, -⟩ := openInode_accounting hreach
  refine ⟨h, hreach, i, hi, hsector, hremoved, hdeny, (hcount i hi).2, ?_⟩
  exact (hwrite i hi).2.2 (by rw [hdeny]; decide) _ _ _ _

end Pintos
