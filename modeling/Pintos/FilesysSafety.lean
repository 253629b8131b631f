import Pintos.FilesysFormat

/-!
# Safety of the File System

From a freshly formatted device on, whatever is called and whatever memory is refused, the
sectors of different live inodes are different, and all are marked in the free map. So no
sector is freed twice, and a write to a file changes no byte of any other.

A creation that fails is not without effect, however: `filesys_create` releases the sector
of the inode, but not those of the data.

## Main results

* `space_safety`: the sectors of the live inodes, in every state that is reached.
* `create_fails_clean_iff`: when a creation that fails leaves the free map as it was.
* `create_succeeds_iff`: when a creation succeeds.
-/

namespace Pintos

open Verif Outcome

/-- The assertions that a caller can make fail: the size of a new file, or a new position,
is negative. -/
def FsOp.Faults : FsOp → FsPanic → Prop
  | create _ size _, e => int32 size < 0 ∧ e = .lengthNegative
  | seek _ newPos, e => int32 newPos < 0 ∧ e = .seekNegative
  | _, _ => False

/-- The file that a call writes to. -/
def FsOp.written : FsOp → Option FilePtr
  | write p _ _ | writeAt p _ _ _ => some p
  | _ => none

/-- The file that a call closes. -/
def FsOp.closes : FsOp → Option FilePtr
  | close p => some p
  | _ => none

theorem FsOp.file_of_written {op : FsOp} {p : FilePtr} (h : op.written = some p) :
    op.file = some p := by
  cases op <;> first | exact h | cases h

theorem FsOp.file_of_closes {op : FsOp} {p : FilePtr} (h : op.closes = some p) :
    op.file = some p := by
  cases op <;> first | exact h | cases h

namespace Fs

variable {s s' : Fs} {r : Bool} {p : FilePtr}

/-! ### Every call -/

/-- The files that were open still are, but for the one that is closed. -/
structure Keeps (s : Fs) (closed : Option FilePtr) (s' : Fs) : Prop where
  pointer : s'.freeMapFile = s.freeMapFile
  files : ∀ f ∈ s.files, closed ≠ some f.ptr → ∃ f' ∈ s'.files, f'.ptr = f.ptr

theorem Keeps.isOpen {closed : Option FilePtr} (h : s.Keeps closed s') (hp : s.IsOpen p)
    (hne : closed ≠ some p) : s'.IsOpen p := by
  obtain ⟨⟨f, hf, rfl⟩, hmap⟩ := hp
  exact ⟨h.files f hf hne, h.pointer ▸ hmap⟩

theorem SameFiles.keeps (h : s.SameFiles s') : s.Keeps none s' :=
  ⟨h.pointer, fun f hf _ => ⟨f, h.files ▸ hf, rfl⟩⟩

theorem Keeps.trans {s₁ : Fs} (h : s.Keeps none s₁) (h' : s₁.Keeps none s') :
    s.Keeps none s' := by
  refine ⟨h'.pointer.trans h.pointer, fun f hf hne => ?_⟩
  obtain ⟨f₁, hf₁, hptr₁⟩ := h.files f hf hne
  obtain ⟨f', hf', hptr'⟩ := h'.files f₁ hf₁ (by simp)
  exact ⟨f', hf', hptr'.trans hptr₁⟩

theorem Opens.keeps {q : Option FilePtr} (h : s.Opens q s') : s.Keeps none s' := by
  cases q with
  | none => exact SameFiles.keeps h
  | some q =>
    obtain ⟨f, -, -, hfiles, hmap⟩ := h
    exact ⟨hmap, fun g hg _ => ⟨g, hfiles ▸ List.mem_cons_of_mem _ hg, rfl⟩⟩

theorem keeps_withFile (hmap : s'.freeMapFile = s.freeMapFile) {u : File → File}
    (hfiles : s'.files = withFile s.files p u) (hu : ∀ g, (u g).ptr = g.ptr) :
    s.Keeps none s' := by
  refine ⟨hmap, fun f hf _ => ⟨if f.ptr = p then u f else f, ?_, ?_⟩⟩
  · rw [hfiles]
    exact List.mem_map_of_mem hf
  · split
    · exact hu f
    · rfl

/-- A change of a file's position. -/
theorem Inv.keeps_setPos (h : s.Inv []) {f : File} (hf : f ∈ s.files) (pos : ℕ) :
    s.Keeps none (s.setFile { f with pos := pos }) := by
  have hfiles := h.table.files_setFile hf ({ · with pos := pos }) rfl
  exact keeps_withFile rfl hfiles fun _ => rfl

/-- A write changes no sector but those of the file's data. -/
theorem Inv.write_spec (h : s.Inv []) {op : FsOp} (hop : op.written = some p) (hp : s.IsOpen p) :
    (s.perform op).Spec r op.Faults fun s' => s'.Inv [] ∧ s.Keeps none s' ∧ s.Saves r s' ∧
      s'.freeMap = s.freeMap ∧ ∃ f ∈ s.files, f.ptr = p ∧ ∃ i ∈ s.openInodes, i.ref = f.inode ∧
        (i.sector ≠ freeMapSector ∧ i.sector ≠ rootDirSector) ∧
        ∀ k, ¬(s.onDisk i.sector).Covers k → s'.device.disk k = s.device.disk k := by
  obtain ⟨f, i, hf, hptr, hi, href, hmap, hroot⟩ := h.of_isOpen hp
  have hfile := h.table.find_file hf
  rw [hptr] at hfile
  cases op with
  | write q buffer size =>
    obtain rfl : q = p := Option.some.inj hop
    have hwrite : (s.fileWrite q buffer (int32 size)).Spec r
        (FsOp.write q buffer size).Faults fun v => v.2.Inv [] ∧ s.Keeps none v.2 ∧
        s.Saves r v.2 ∧ v.2.freeMap = s.freeMap ∧
        ∀ k, ¬(s.onDisk i.sector).Covers k → v.2.device.disk k = s.device.disk k := by
      rw [fileWrite]
      refine (file_spec hfile).bind fun g hg => ?_
      subst hg
      refine (h.inodeWriteAt hi href hroot _ _ _).bind fun v hv => .pure ?_
      obtain ⟨h', hs'⟩ := hv
      have hf' : g ∈ v.2.files := hs'.files ▸ hf
      refine ⟨h'.setPos hf' _, ?_, ?_, hs'.freeMap, hs'.disk⟩
      · exact hs'.sameFiles.keeps.trans (h'.keeps_setPos hf' _)
      · exact (h.saves_data (live_open hi) hmap hs').trans (.of_same rfl rfl)
    exact hwrite.bind fun v hv => .pure
      ⟨hv.1, hv.2.1, hv.2.2.1, hv.2.2.2.1, f, hf, hptr, i, hi, href, ⟨hmap, hroot⟩,
        hv.2.2.2.2⟩
  | writeAt q buffer size fileOfs =>
    obtain rfl : q = p := Option.some.inj hop
    have hwrite : (s.fileWriteAt q buffer (int32 size) fileOfs).Spec r
        (FsOp.writeAt q buffer size fileOfs).Faults fun v => v.2.Inv [] ∧
        DiskChange (s.onDisk i.sector).Covers s v.2 := by
      rw [fileWriteAt]
      refine (file_spec hfile).bind fun g hg => ?_
      subst hg
      exact h.inodeWriteAt hi href hroot _ _ _
    exact hwrite.bind fun v hv => .pure
      ⟨hv.1, hv.2.sameFiles.keeps, h.saves_data (live_open hi) hmap hv.2, hv.2.freeMap, f, hf,
        hptr, i, hi, href, ⟨hmap, hroot⟩, hv.2.disk⟩
  | create name size stack | openFile name | remove name | reopen q | close q | read q size
  | readAt q size fileOfs | seek q newPos | denyWrite q | allowWrite q => cases hop

/-- **Every call keeps the invariant**, and the files that it does not close. -/
theorem Inv.perform (h : s.Inv []) {op : FsOp} (hop : ∀ p ∈ op.file, s.IsOpen p) :
    (s.perform op).Spec r op.Faults fun s' =>
      s'.Inv [] ∧ s.Keeps op.closes s' ∧ s.Saves r s' := by
  cases op with
  | create name size stack =>
    refine (h.filesysCreate (fun hneg => ⟨hneg, rfl⟩) (int32_bounds size).2 stack).bind
      fun v hv => .pure ⟨hv.1, hv.2.2.1.keeps, hv.2.1⟩
  | openFile name => exact h.filesysOpen.bind fun v hv => .pure ⟨hv.1, hv.2.2.1.keeps, hv.2.1⟩
  | remove name => exact h.filesysRemove.bind fun v hv => .pure ⟨hv.1, hv.2.2.keeps, hv.2.1⟩
  | reopen p =>
    exact (h.fileReopen (hop p rfl)).bind fun v hv => .pure ⟨hv.1, hv.2.2.keeps, hv.2.1⟩
  | close p =>
    refine (h.fileClose (hop p rfl)).mono fun s' hs' =>
      ⟨hs'.1, ⟨hs'.2.2.1, fun f hf hne => ?_⟩, hs'.2.1⟩
    refine ⟨f, ?_, rfl⟩
    rw [hs'.2.2.2, List.mem_filter, decide_eq_true_eq]
    exact ⟨hf, fun heq => hne (congrArg some heq.symm)⟩
  | read p size =>
    obtain ⟨f, i, hf, rfl, hi, href, -⟩ := h.of_isOpen (hop p rfl)
    have hread : (s.fileRead f.ptr (int32 size)).Spec r (FsOp.read f.ptr size).Faults
        fun v => v.2.Inv [] ∧ s.Keeps none v.2 ∧ s.Saves r v.2 := by
      rw [fileRead]
      refine (file_spec (h.table.find_file hf)).bind fun g hg => ?_
      subst hg
      exact (h.inodeReadAt hi href _ _).bind fun _ _ => .pure
        ⟨h.setPos hf _, h.keeps_setPos hf _, .of_same rfl rfl⟩
    exact hread.bind fun v hv => .pure hv
  | write p buffer size | writeAt p buffer size fileOfs =>
    exact (h.write_spec rfl (hop p rfl)).mono fun s' hs' => ⟨hs'.1, hs'.2.1, hs'.2.2.1⟩
  | readAt p size fileOfs =>
    obtain ⟨f, i, hf, rfl, hi, href, -⟩ := h.of_isOpen (hop p rfl)
    have hread : (s.fileReadAt f.ptr (int32 size) fileOfs).Spec r
        (FsOp.readAt f.ptr size fileOfs).Faults fun _ => True := by
      rw [fileReadAt]
      refine (file_spec (h.table.find_file hf)).bind fun g hg => ?_
      subst hg
      exact h.inodeReadAt hi href _ _
    exact hread.bind fun _ _ => .pure ⟨h, (SameFiles.refl s).keeps, .refl s r⟩
  | seek p newPos =>
    obtain ⟨f, i, hf, rfl, -⟩ := h.of_isOpen (hop p rfl)
    refine (file_spec (h.table.find_file hf)).bind fun g hg => ?_
    subst hg
    exact .assert_of (fun hneg => ⟨by omega, rfl⟩) fun _ => .pure
      ⟨h.setPos hf _, h.keeps_setPos hf _, .of_same rfl rfl⟩
  | denyWrite p =>
    exact (h.fileDenyWrite (hop p rfl)).mono fun s' hs' =>
      ⟨hs'.1, keeps_withFile hs'.2.2.1 hs'.2.2.2 fun _ => rfl, hs'.2.1⟩
  | allowWrite p =>
    exact (h.fileAllowWrite (hop p rfl)).mono fun s' hs' =>
      ⟨hs'.1, keeps_withFile hs'.2.2.1 hs'.2.2.2 fun _ => rfl, hs'.2.1⟩

/-- What a call that completes does. -/
theorem step_eq_ok {c : FsCall} (h : s.step c = .ok s') :
    (∀ p ∈ c.op.file, s.IsOpen p) ∧ ∃ rest, s.perform c.op c.answers = .ok (s', rest) := by
  rw [step, require_bind_eq_ok] at h
  obtain ⟨hopen, h⟩ := h
  obtain ⟨v, hv, hs⟩ := bind_eq_ok.mp h
  obtain rfl : v.1 = s' := ok.inj hs
  exact ⟨hopen, v.2, hv⟩

/-- The assertion that a call fails. -/
theorem step_eq_panic {c : FsCall} {e : FsPanic} (h : s.step c = .panic e) :
    (∀ p ∈ c.op.file, s.IsOpen p) ∧ s.perform c.op c.answers = .panic e := by
  rw [step, require_bind_eq_panic] at h
  obtain ⟨hopen, h⟩ := h
  refine ⟨hopen, ?_⟩
  rcases bind_eq_panic.mp h with hv | ⟨v, hv, hs⟩
  · exact hv
  · cases hs

end Fs

/-- **The invariant holds in every state that is reached.** -/
theorem FsReachable.inv {s : Fs} (h : FsReachable s) : s.Inv [] := by
  obtain ⟨device, junk, answers, s₀, rest, hinit, hrun⟩ := h
  refine hrun.invariant ((Fs.filesysInit_spec device junk).of_eq_ok hinit).inv
    fun s c s' hs _ hstep => ?_
  obtain ⟨hopen, rest, hperform⟩ := Fs.step_eq_ok hstep
  exact ((hs.perform hopen).of_eq_ok hperform).1

/-- A run on a small device, with all the memory that it wants. -/
def sampleRun (ops : List FsOp) : Outcome FsPanic Fs := do
  let (s, _) ← Fs.filesysInit Fs.blankDevice (fun _ => false) []
  exec Fs.step s (ops.map fun op => ⟨op, []⟩)

/-- A file name with one letter. -/
def sampleName (c : UInt8) (h : c ≠ 0) : CString := ⟨[c], by simpa using h.symm⟩

theorem sampleRun_reachable {ops : List FsOp} {s : Fs} (h : sampleRun ops = .ok s) :
    FsReachable s := by
  obtain ⟨v, hinit, hexec⟩ := bind_eq_ok.mp h
  exact ⟨_, _, _, v.1, v.2, hinit, _, .of_exec hexec⟩

instance (s : Fs) (j x : ℕ) : Decidable (s.Names j x) :=
  inferInstanceAs (Decidable (_ ∧ _ ∧ _))

/-- **Space safety of the file system.** In every state that is reached from a freshly
formatted device, the sectors of different live inodes are disjoint, all are on the device
and marked in the free map, and the inodes in memory are those on the device. No call fails
an assertion but for a negative size or position. A write to a file changes neither the free
map nor a sector of any other live inode, nor the file's own inode. -/
theorem space_safety {s : Fs} (h : FsReachable s) :
    (∀ x y k, s.Live x → s.Live y → x ≠ y → s.Occupies x k → ¬s.Occupies y k) ∧
    (∀ x k, s.Live x → s.Occupies x k → k < s.device.size ∧ s.freeMap k = true) ∧
    (∀ i ∈ s.openInodes, i.data = s.onDisk i.sector) ∧
    (∀ c e, s.step c = .panic e → c.op.Faults e) ∧
    ∀ c s' p, c.op.written = some p → s.step c = .ok s' → s'.freeMap = s.freeMap ∧
      ∃ f ∈ s.files, f.ptr = p ∧ ∃ i ∈ s.openInodes, i.ref = f.inode ∧
        i.sector ≠ freeMapSector ∧ i.sector ≠ rootDirSector ∧
        s'.device.disk i.sector = s.device.disk i.sector ∧
        ∀ x k, s.Live x → x ≠ i.sector → s.Occupies x k →
          s'.device.disk k = s.device.disk k := by
  have hinv := h.inv
  have hspace := hinv.space
  refine ⟨fun x y k hx hy hne hkx hky => ?_, fun x k hx hk => ⟨?_, ?_⟩, hinv.data,
    fun c e hstep => ?_, fun c s' p hop hstep => ?_⟩
  · exact hne (hspace.disjoint x y k hx hy hkx hky)
  · obtain ⟨hlt, hwithin⟩ := hspace.within x hx
    rcases hk with rfl | hk
    · exact hlt
    · exact lt_of_lt_of_le hk.2 hwithin.fits
  · exact hspace.marked x k hx hk
  · obtain ⟨hopen, hperform⟩ := Fs.step_eq_panic hstep
    exact (hinv.perform hopen).of_eq_panic hperform
  · obtain ⟨hopen, rest, hperform⟩ := Fs.step_eq_ok hstep
    obtain ⟨-, -, -, hmap, f, hf, hptr, i, hi, href, ⟨hne₀, hne₁⟩, hdisk⟩ :=
      (hinv.write_spec hop (hopen p (FsOp.file_of_written hop))).of_eq_ok hperform
    have hlive := Fs.live_open hi
    refine ⟨hmap, f, hf, hptr, i, hi, href, hne₀, hne₁, hdisk _ (hspace.apart _ hlive),
      fun x k hx hne hk => hdisk k fun hcovers => ?_⟩
    exact hne (hspace.disjoint x _ k hx hlive hk (.inr hcovers))

/-- The file `a` was removed while it is open, and the file `b` was created after that. -/
theorem space_safety_removed : ∃ s, FsReachable s ∧
    (∃ i ∈ s.openInodes, i.sector = 4 ∧ i.removed = true) ∧ s.Names 0 7 ∧
    ∀ k, s.Occupies 4 k → ¬s.Occupies 7 k := by
  have htest : (sampleRun [.create (sampleName 97 (by decide)) 600 (fun _ => 0),
      .openFile (sampleName 97 (by decide)), .remove (sampleName 97 (by decide)),
      .create (sampleName 98 (by decide)) 10 (fun _ => 0)]).test (fun s =>
        decide ((∃ i ∈ s.openInodes, i.sector = 4 ∧ i.removed = true) ∧ s.Names 0 7)) = true := by
    decide +kernel
  obtain ⟨s, hrun, hs⟩ := Outcome.of_test htest
  obtain ⟨⟨i, hi, hsector, hremoved⟩, hnames⟩ := of_decide_eq_true hs
  have hreach := sampleRun_reachable hrun
  refine ⟨s, hreach, ⟨i, hi, hsector, hremoved⟩, hnames, fun k => ?_⟩
  exact (space_safety hreach).1 4 7 k (hsector ▸ Fs.live_open hi) (.inr (.inr (.inl ⟨0, hnames⟩)))
    (by decide)

/-! ### A creation that fails -/

/-- A file with a byte has a sector. -/
theorem bytesToSectors_pos {size : ℤ} (h₀ : 0 < size) (h₁ : size < 2 ^ 31) :
    0 < bytesToSectors size := by
  rcases le_or_gt size (2 ^ 31 - 512) with hle | hlt
  · rw [bytesToSectors_of_le h₀.le hle]
    omega
  · exact lt_of_lt_of_le (by decide) (bytesToSectors_of_lt hlt h₁)

/-- What `filesys_create` does if no memory is refused. -/
theorem Fs.Inv.create_run {s : Fs} (h : s.Inv []) (name : CString) {size : ℤ} (h₀ : 0 ≤ size)
    (h₁ : size < 2 ^ 31) (stack : DirEntry) :
    ∃ v, s.filesysCreate name size stack [] = .ok (v, []) ∧
      (v.1 = false → s.Leaves false name size v.2) ∧ (v.1 = true → s.Addable name) := by
  obtain ⟨v, hv, -, -, -, hfail, hdone⟩ :=
    OracleM.Spec.run (h.filesysCreate (fun hneg => absurd hneg (by omega)) h₁ stack)
  exact ⟨v, hv, hfail, fun htrue => (hdone htrue rfl).1⟩

/-- A creation that fails leaves nothing behind if the file was to be empty, or there was no
room for it, or its name could be added. -/
theorem Fs.Leaves.clean {s s' : Fs} {r : Bool} {name : CString} {size : ℤ}
    (h : s.Leaves r name size s')
    (hcond : size = 0 ∨ (∀ x start, ¬s.RoomAt size x start) ∨ r = false ∧ s.Addable name) :
    s'.freeMap = s.freeMap ∧ s.SameDirectory s' := by
  obtain ⟨hsame, ⟨hmap, -⟩ | ⟨x, start, hroom, hadd, hmap⟩⟩ := h
  · exact ⟨hmap, hsame⟩
  · refine ⟨?_, hsame⟩
    rcases hcond with rfl | hnone | ⟨hr, hname⟩
    · rw [hmap]
      funext k
      have hzero : bytesToSectors 0 = 0 := rfl
      rw [Bitmap.setMultiple, if_neg (by omega)]
    · exact absurd hroom (hnone x start)
    · exact absurd hname (hadd hr)

/-- Otherwise it does. -/
theorem Fs.Leaves.not_clean {s s' : Fs} {name : CString} {size : ℤ}
    (h : s.Leaves false name size s') (hsize : 0 < bytesToSectors size) {x start : ℕ}
    (hroom : s.RoomAt size x start) : s'.freeMap ≠ s.freeMap := by
  obtain ⟨-, ⟨-, hnone⟩ | ⟨x', start', hroom', -, hmap⟩⟩ := h
  · exact absurd hroom (hnone rfl x start)
  · intro heq
    -- the first sector of the data was free, and is marked now
    have hfree := (Bitmap.scan_eq_some hroom'.2).2 start' le_rfl (by omega)
    have hmarked : s.freeMap start' = true := by
      rw [← heq, hmap]
      exact Bitmap.setMultiple_of_mem le_rfl (by omega)
    rw [Bitmap.setMultiple] at hfree
    split at hfree
    · cases hfree
    · rw [hmarked] at hfree
      cases hfree

/-- **A creation that fails.** If no memory is refused, a call of `filesys_create` that
returns false leaves the free map and the directory as they were if and only if the file was
to be empty, or there was no room for it, or its name could be added to the directory: when
there is room and the name is refused, the sectors of the data stay marked. An empty file, or
one that there is no room for, leaves nothing behind even if memory is refused. -/
theorem create_fails_clean_iff {s : Fs} (h : FsReachable s) (name : CString) {size : ℤ}
    (h₀ : 0 ≤ size) (h₁ : size < 2 ^ 31) (stack : DirEntry) :
    ((∀ s' rest, s.filesysCreate name size stack [] = .ok ((false, s'), rest) →
        s'.freeMap = s.freeMap ∧ s.SameDirectory s') ↔
      size = 0 ∨ (∀ x start, ¬s.RoomAt size x start) ∨ s.Addable name) ∧
    (size = 0 ∨ (∀ x start, ¬s.RoomAt size x start) → ∀ answers s' rest,
      s.filesysCreate name size stack answers = .ok ((false, s'), rest) →
        s'.freeMap = s.freeMap ∧ s.SameDirectory s') := by
  refine ⟨⟨fun hclean => ?_, fun hcond s' rest hrun => ?_⟩, fun hcond answers s' rest hrun => ?_⟩
  · by_contra hcond
    rw [not_or, not_or] at hcond
    obtain ⟨hsize, hroom, hadd⟩ := hcond
    push Not at hroom
    obtain ⟨x, start, hroom⟩ := hroom
    obtain ⟨v, hrun, hfail, hdone⟩ := h.inv.create_run name h₀ h₁ stack
    obtain ⟨b, s'⟩ := v
    cases b with
    | false =>
      exact (hfail rfl).not_clean (bytesToSectors_pos (by omega) h₁) hroom (hclean s' [] hrun).1
    | true => exact hadd (hdone rfl)
  · obtain ⟨v, hrun', hfail, -⟩ := h.inv.create_run name h₀ h₁ stack
    rw [hrun', Outcome.ok.injEq, Prod.mk.injEq] at hrun
    obtain ⟨rfl, -⟩ := hrun
    exact (hfail rfl).clean (hcond.imp_right (.imp_right fun hname => ⟨rfl, hname⟩))
  · have hspec : (s.filesysCreate name size stack).Spec true (fun _ => True) _ :=
      h.inv.filesysCreate (fun _ => trivial) h₁ stack
    have hleaves := (hspec.of_eq_ok hrun).2.2.2.1 rfl
    exact hleaves.clean (hcond.imp_right .inl)

/-- The file `a` exists, so an empty one is not created; nothing is left behind. -/
theorem create_twice_empty : ∃ s s', FsReachable s ∧
    s.filesysCreate (sampleName 97 (by decide)) 0 (fun _ => 0) [] = .ok ((false, s'), []) ∧
    s'.freeMap = s.freeMap ∧ s.SameDirectory s' := by
  have htest : (sampleRun [.create (sampleName 97 (by decide)) 600 (fun _ => 0)]).test (fun s =>
      (s.filesysCreate (sampleName 97 (by decide)) 0 (fun _ => 0) []).test fun v =>
        decide (v.1.1 = false ∧ v.2 = [])) = true := by
    decide +kernel
  obtain ⟨s, hrun, hs⟩ := Outcome.of_test htest
  obtain ⟨⟨⟨b, s'⟩, rest⟩, hcreate, hv⟩ := Outcome.of_test hs
  obtain ⟨rfl, rfl⟩ := of_decide_eq_true hv
  have hreach := sampleRun_reachable hrun
  have hiff := (create_fails_clean_iff hreach (sampleName 97 (by decide)) le_rfl (by decide)
    fun _ => 0).1
  exact ⟨s, s', hreach, hcreate, hiff.mpr (.inl rfl) s' [] hcreate⟩

/-- The file `a` exists, so it is not created again; two sectors for its data stay marked. -/
theorem create_twice_leaks : ∃ s s', FsReachable s ∧
    s.filesysCreate (sampleName 97 (by decide)) 600 (fun _ => 0) [] = .ok ((false, s'), []) ∧
    (s.freeMap 8 = false ∧ s'.freeMap 8 = true) ∧ s.freeMap 9 = false ∧ s'.freeMap 9 = true := by
  have htest : (sampleRun [.create (sampleName 97 (by decide)) 600 (fun _ => 0)]).test (fun s =>
      (s.filesysCreate (sampleName 97 (by decide)) 600 (fun _ => 0) []).test fun v =>
        decide ((v.1.1 = false ∧ v.2 = []) ∧ (s.freeMap 8 = false ∧ v.1.2.freeMap 8 = true) ∧
          s.freeMap 9 = false ∧ v.1.2.freeMap 9 = true)) = true := by
    decide +kernel
  obtain ⟨s, hrun, hs⟩ := Outcome.of_test htest
  obtain ⟨⟨⟨b, s'⟩, rest⟩, hcreate, hv⟩ := Outcome.of_test hs
  obtain ⟨⟨rfl, rfl⟩, hmap⟩ := of_decide_eq_true hv
  exact ⟨s, s', sampleRun_reachable hrun, hcreate, hmap⟩

/-- **A creation that succeeds.** If no memory is refused, `filesys_create` returns true if and
only if the name can be added and there is room, and then makes a file of zeros in the first
sectors that are free. -/
theorem create_succeeds_iff {s : Fs} (h : FsReachable s) (name : CString) (size : ℤ) (h₀ : 0 ≤ size)
    (h₁ : size < 2 ^ 31) (stack : DirEntry) :
    ∃ b s', s.filesysCreate name size stack [] = .ok ((b, s'), []) ∧
      (b = true ↔ s.Addable name ∧ ∃ x start, s.RoomAt size x start) ∧
      (b = true → ∃ x start, s.RoomAt size x start ∧ s'.freeMap = Bitmap.setMultiple
        (Bitmap.setMultiple s.freeMap x 1 true) start (bytesToSectors size) true ∧
          s.Creates name size x start s') := by
  obtain ⟨⟨b, s'⟩, hrun, -, -, -, hfail, hdone⟩ :=
    OracleM.Spec.run (h.inv.filesysCreate (fun hneg => absurd hneg (by omega)) h₁ stack)
  refine ⟨b, s', hrun, ?_, fun hb => (hdone hb rfl).2⟩
  cases b with
  | true =>
    obtain ⟨hadd, x, start, hroom, -⟩ := hdone rfl rfl
    exact iff_of_true rfl ⟨hadd, x, start, hroom⟩
  | false =>
    refine iff_of_false Bool.false_ne_true ?_
    rintro ⟨hadd, x, start, hroom⟩
    obtain ⟨-, ⟨-, hnone⟩ | ⟨_, _, -, hrefused, -⟩⟩ := hfail rfl
    · exact hnone rfl x start hroom
    · exact hrefused rfl hadd

/-- The file `b` is created beside the file `a`. -/
theorem create_succeeds_iff_second : ∃ s s' x start, FsReachable s ∧
    s.filesysCreate (sampleName 98 (by decide)) 600 (fun _ => 0) [] = .ok ((true, s'), []) ∧
    s.Addable (sampleName 98 (by decide)) ∧ s.RoomAt 600 x start ∧
    s.Creates (sampleName 98 (by decide)) 600 x start s' := by
  have htest : (sampleRun [.create (sampleName 97 (by decide)) 600 (fun _ => 0)]).test (fun s =>
      (s.filesysCreate (sampleName 98 (by decide)) 600 (fun _ => 0) []).test fun v =>
        v.1.1) = true := by
    decide +kernel
  obtain ⟨s, hrun, hs⟩ := Outcome.of_test htest
  obtain ⟨⟨⟨b, s'⟩, rest⟩, hcreate, hb⟩ := Outcome.of_test hs
  have hreach := sampleRun_reachable hrun
  obtain ⟨b', s₁, hcreate', hiff, hdone⟩ := create_succeeds_iff hreach
    (sampleName 98 (by decide)) 600 (by decide) (by decide) fun _ => 0
  rw [hcreate] at hcreate'
  cases hcreate'
  obtain rfl : b = true := hb
  obtain ⟨x, start, hroom, -, hnew⟩ := hdone rfl
  exact ⟨s, s', x, start, hreach, hcreate, (hiff.mp rfl).1, hroom, hnew⟩

end Pintos
