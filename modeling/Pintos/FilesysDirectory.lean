import Pintos.Directory
import Pintos.FilesysSteps

/-!
# The Root Directory

Looking up, adding and removing names. Entries are read and written as a whole, or not at
all: for want of memory a read may find nothing, but never a part of an entry. The entry
that `dir_add` fills in names an inode that nobody named before, and the one that
`dir_remove` clears was the only one to name its inode, which is why it can be removed.

## Main results

* `Inv.lookup`: what is found is there.
* `Inv.dirAdd`, `Inv.dirRemove`: the invariant is kept, and when a name is added.
-/

namespace Pintos

open Verif

namespace Fs

variable {s s' : Fs} {held : List InodeRef} {dir : InodeRef} {x j : ℕ} {r : Bool}
  {E : FsPanic → Prop} {name : CString}

/-- How many entries there is room for in the root directory. -/
def slots : ℕ := 16

theorem Inv.entryCnt (h : s.Inv held) : entryCnt (s.onDisk rootDirSector) = slots := by
  rw [Fs.entryCnt, h.format.2]
  decide

/-- A name is present if an entry that is in use has it. -/
def Present (s : Fs) (name : CString) : Prop :=
  ∃ j < slots, (s.entry j).inUse = true ∧ (s.entry j).name = name.1

/-- **The root directory as a table of slots.** -/
def rootTable (s : Fs) : SlotTable (List UInt8) ℕ := s.dirTable (s.onDisk rootDirSector)

theorem rootTable_eq_some {n : List UInt8} :
    s.rootTable[j]? = some (some (n, x)) ↔ s.Names j x ∧ (s.entry j).name = n := by
  rw [rootTable, dirTable_eq_some, Names]
  constructor
  · rintro ⟨hj, huse, hname, hx⟩
    exact ⟨⟨hj, huse, hx⟩, hname⟩
  · rintro ⟨⟨hj, huse, hx⟩, hname⟩
    exact ⟨hj, huse, hname, hx⟩

/-- The names that are present are the keys of the table. -/
theorem Inv.present_iff (h : s.Inv held) : s.Present name ↔ name.1 ∈ s.rootTable.keys := by
  rw [SlotTable.mem_keys_iff, Present]
  constructor
  · rintro ⟨j, hj, huse, hname⟩
    rw [← h.entryCnt] at hj
    exact ⟨j, _, rootTable_eq_some.mpr ⟨⟨hj, huse, rfl⟩, hname⟩⟩
  · rintro ⟨j, x, hslot⟩
    obtain ⟨⟨hj, huse, -⟩, hname⟩ := rootTable_eq_some.mp hslot
    rw [h.entryCnt] at hj
    exact ⟨j, hj, huse, hname⟩

theorem present_of_device (h : s'.device = s.device) : s'.Present name ↔ s.Present name := by
  rw [Present, Present, funext (entry_of_device h)]

theorem rootTable_of_device (h : s'.device = s.device) : s'.rootTable = s.rootTable := by
  rw [rootTable, rootTable, onDisk_of_device h]
  refine dirTable_congr fun j _ i _ => ?_
  rw [entryOf, entryOf, h]

/-- There is an entry that is not in use. -/
def Vacant (s : Fs) : Prop := ∃ j < slots, (s.entry j).inUse = false

/-! ### Reading and writing entries -/

/-- No file refers to the directory, so nobody denies writes to it. -/
theorem Inv.deny_rootDir (h : s.Inv held) {i : Inode} (hi : i ∈ s.openInodes)
    (hsector : i.sector = rootDirSector) : i.denyWriteCnt = 0 := by
  rw [h.table.deny i hi, Nat.cast_eq_zero, List.countP_eq_zero]
  intro f hf hfi
  obtain ⟨i', hi', href, hroot, -⟩ := h.table.opened f hf
  obtain rfl := h.table.inode_unique hi' hi (href.trans (of_decide_eq_true hfi).1)
  exact hroot hsector

/-- The root directory is a directory. -/
theorem Inv.directory (h : s.Inv held) (hdir : s.Refers dir rootDirSector) :
    s.Directory dir (s.onDisk rootDirSector) := by
  obtain ⟨i, hi, rfl, hsector⟩ := hdir
  refine ⟨⟨i, h.table.find_inode hi, ?_, h.deny_rootDir hi hsector⟩,
    (h.space.within _ s.live_rootDir).2⟩
  rw [h.data i hi, hsector]

/-- **An entry is written** as a whole, or not at all. -/
theorem Inv.writeEntry (h : s.Inv held) (hdir : s.Refers dir rootDirSector) (j : ℕ)
    (e : DirEntry) :
    (s.inodeWriteAt dir e dirEntrySize (j * dirEntrySize)).Spec r E fun v =>
      v.1 = dirEntrySize ∧ j < slots ∧ DiskChange (s.onDisk rootDirSector).Covers s v.2 ∧
        (∀ i < dirEntrySize, v.2.entry j i = e i) ∧
        (∀ j' ≠ j, ∀ i < dirEntrySize, v.2.entry j' i = s.entry j' i) ∧
        v.2.rootTable = s.rootTable.set j e.slot ∨
      v.1 ≠ dirEntrySize ∧ DiskChange (fun _ => False) s v.2 ∧ (j < slots → r = true) := by
  refine ((h.directory hdir).writeEntry j e).mono fun v hv => ?_
  rw [h.entryCnt] at hv
  rcases hv with ⟨hn, hj, hs⟩ | ⟨hn, hrefused, hs⟩
  · have hroot := hs.change.onDisk (h.space.apart _ s.live_rootDir)
    have hentry : ∀ j', v.2.entry j' = v.2.entryOf (s.onDisk rootDirSector) j' := fun j' => by
      rw [← hroot]
      rfl
    refine .inl ⟨hn, hj, hs.change, fun k hk => ?_, fun j' hj' k hk => ?_, ?_⟩
    · rw [hentry]
      exact hs.entry k hk
    · rw [hentry]
      exact hs.others j' hj' k hk
    · rw [rootTable, hroot]
      exact hs.table
  · refine .inr ⟨hn, hs.whole ?_, hrefused⟩
    rw [h.format.2]
    decide

/-! ### Looking up -/

/-- **Looking a name up.** -/
theorem Inv.lookup (h : s.Inv held) (hdir : s.Refers dir rootDirSector) :
    (s.lookup dir name).Spec r E fun found =>
      match found with
      | none => r = false → ¬s.Present name
      | some (e, ofs) => s.rootTable.find name.1 = some e.inodeSector ∧ s.Present name ∧
          ∃ j, ofs = j * dirEntrySize ∧ s.Names j e.inodeSector := by
  refine (h.directory hdir).lookup.mono fun found hfound => ?_
  cases found with
  | none =>
    intro hr hpresent
    exact hfound hr (h.present_iff.mp hpresent)
  | some v =>
    obtain ⟨j, -, hofs, hslot, hfind⟩ := hfound
    exact ⟨hfind, h.present_iff.mpr (SlotTable.mem_keys_iff.mpr ⟨j, _, hslot⟩), j, hofs,
      (rootTable_eq_some.mp hslot).1⟩

/-- `dir_lookup` opens the inode that is found. -/
theorem Inv.dirLookup (h : s.Inv held) (hdir : s.Refers dir rootDirSector) :
    (s.dirLookup dir name).Spec r E fun v =>
      match v.1 with
      | none => v.2 = s ∧ (r = false → ¬s.Present name)
      | some ref => s.Present name ∧ s.Switches (ref :: held) v.2 ∧
          ∃ x, v.2.Refers ref x ∧ (x ≠ freeMapSector ∧ x ≠ rootDirSector) ∧
            s.rootTable.find name.1 = some x := by
  rw [Fs.dirLookup]
  refine (h.lookup hdir).bind fun found hfound => ?_
  cases found with
  | none => exact .pure ⟨rfl, hfound⟩
  | some v =>
    obtain ⟨hfind, hpresent, j, -, hnames⟩ := hfound
    refine (h.inodeOpen (.inr (.inr (.inl ⟨j, hnames⟩)))).mono fun w hw => ?_
    obtain ⟨ref, s'⟩ := w
    cases ref with
    | none =>
      refine ⟨hw.2, fun hr => ?_⟩
      rw [hw.1] at hr
      cases hr
    | some ref => exact ⟨hpresent, hw.1, _, hw.2, h.space.system j _ hnames, hfind⟩

/-- The directory is never removed, so closing it changes nothing but the tables. -/
theorem Inv.closeRootDir (h : s.Inv (dir :: held)) (hdir : s.Refers dir rootDirSector) :
    (s.inodeClose dir).Spec r E fun s' => s.Switches held s' := by
  refine h.inodeClose.mono fun s' hs => hs.1.quiet fun i hi href => ?_
  obtain ⟨i', hi', href', hsector⟩ := hdir
  obtain rfl := h.table.inode_unique hi hi' (href.trans href'.symm)
  exact Bool.eq_false_iff.mpr fun hremoved => (h.removed i hi hremoved).2.1 hsector

/-- `dir_open_root` takes a reference to the directory. -/
theorem Inv.dirOpenRoot (h : s.Inv held) :
    s.dirOpenRoot.Spec r E fun v =>
      match v.1 with
      | none => r = true ∧ s.Switches held v.2
      | some dir => s.Switches (dir :: held) v.2 ∧ v.2.Refers dir rootDirSector := by
  rw [Fs.dirOpenRoot]
  refine (h.inodeOpen s.live_rootDir).bind fun v hv => ?_
  obtain ⟨ref, s'⟩ := v
  refine OracleM.Spec.draw.bind fun memory hmemory => ?_
  cases ref with
  | none =>
    obtain ⟨hr, rfl⟩ := hv
    exact .pure ⟨hr, h, .refl _, rfl, rfl, fun _ _ _ href => href⟩
  | some ref =>
    obtain ⟨hs, href⟩ := hv
    split_ifs with hrefused
    · exact .pure ⟨hs, href⟩
    · refine (hs.inv.closeRootDir href).bind fun s'' hs' => .pure ⟨?_, ?_⟩
      · cases r with
        | true => rfl
        | false => exact absurd (hmemory rfl) hrefused
      · exact hs.trans hs' fun ref hmem => List.mem_cons_of_mem _ hmem

/-! ### Adding a name -/

/-- The slot that `dir_add` finds is not in use, if there is such a slot. -/
theorem Inv.freeSlotLoop (h : s.Inv held) (hdir : s.Refers dir rootDirSector) (e : DirEntry) :
    (s.freeSlotLoop dir (slots + 1) e 0).Spec r E fun v =>
      ∃ j, v.2 = j * dirEntrySize ∧ (r = false → (j < slots ↔ s.Vacant) ∧
        (j < slots → s.rootTable.FirstVacant j)) := by
  rw [← Nat.zero_mul dirEntrySize, ← h.entryCnt]
  refine ((h.directory hdir).freeSlotLoop (Nat.zero_add _) (Nat.zero_le _)
    fun _ j hj => absurd hj (Nat.not_lt_zero j)).mono fun v hv => ?_
  obtain ⟨j, hofs, hslot⟩ := hv
  refine ⟨j, hofs, fun hr => ?_⟩
  obtain ⟨hused, hfree⟩ := hslot hr
  rw [h.entryCnt] at hfree ⊢
  refine ⟨⟨fun hlt => ⟨j, hlt, hfree hlt⟩, ?_⟩, fun hlt => ⟨?_, fun i hi => ?_⟩⟩
  · rintro ⟨j', hj', hvacant⟩
    -- the slots before this one are in use
    have hle : j ≤ j' := Nat.le_of_not_lt fun hlt => by
      cases (hused j' hlt).symm.trans hvacant
    omega
  · rw [rootTable, getElem?_dirTable (h.entryCnt.symm ▸ hlt), DirEntry.slot_eq_none.mpr (hfree hlt)]
  · rw [rootTable, getElem?_dirTable (h.entryCnt.symm ▸ hi.trans hlt)]
    intro hnone
    cases (hused i hi).symm.trans (DirEntry.slot_eq_none.mp (Option.some.inj hnone))

/-- A change of one entry keeps the invariant. -/
theorem Inv.rename (h : s.Inv held) (hs : DiskChange (s.onDisk rootDirSector).Covers s s')
    (hold : ∀ j' ≠ j, ∀ i < dirEntrySize, s'.entry j' i = s.entry j' i)
    (hnew : ∀ x, s'.Names j x → s.Embryo x) (htitled : s'.Titled j) : s'.Inv held := by
  have hdisk : ∀ {x}, s.Live x → s'.onDisk x = s.onDisk x := fun {x} hx => by
    refine hs.onDisk fun hk => ?_
    obtain rfl := h.space.disjoint x _ x hx s.live_rootDir (s.occupies_self x) (.inr hk)
    exact h.space.apart _ hx hk
  have hnames : ∀ j' x, j' ≠ j → (s'.Names j' x ↔ s.Names j' x) := fun j' x hne =>
    names_congr (hdisk s.live_rootDir) fun i hi _ => hold j' hne i hi
  refine ⟨h.space.rename hs hold hnew htitled,
    h.table.congr hs.openInodes hs.files hs.freeMapFile ?_, fun i hi => ?_, fun i hi hr => ?_, ?_⟩
  · rw [hs.same]
  · rw [hs.openInodes] at hi
    rw [hdisk (live_open hi)]
    exact h.data i hi
  · rw [hs.openInodes] at hi
    obtain ⟨h₁, h₂, h₃⟩ := h.removed i hi hr
    refine ⟨h₁, h₂, fun j' hj' => ?_⟩
    rcases eq_or_ne j' j with rfl | hne
    · exact (hnew _ hj').not_live (live_open hi)
    · exact h₃ j' ((hnames j' _ hne).mp hj')
  · rw [hdisk s.live_freeMap, hdisk s.live_rootDir, hs.size]
    exact h.format

/-- The names that can be added to the directory. -/
def Addable (s : Fs) (name : CString) : Prop :=
  name.1 ≠ [] ∧ name.1.length ≤ nameMax ∧ ¬s.Present name ∧ s.Vacant

/-- **Adding a name** for an inode that nobody names yet. -/
theorem Inv.dirAdd (h : s.Inv held) (hdir : s.Refers dir rootDirSector) (hx : s.Embryo x)
    (stack : DirEntry) :
    (s.dirAdd dir name x stack).Spec r E fun v => v.2.Inv held ∧ s.Saves r v.2 ∧ s.SameFiles v.2 ∧
      v.2.Refers dir rootDirSector ∧
      (v.1 = false → DiskChange (fun _ => False) s v.2) ∧
      (r = false → (v.1 = true ↔ s.Addable name) ∧
        (v.1 = true → DiskChange (s.onDisk rootDirSector).Covers s v.2 ∧
          ∃ j, s.rootTable.FirstVacant j ∧
            v.2.rootTable = s.rootTable.set j (some (name.1, x)))) := by
  rw [Fs.dirAdd]
  split
  · rename_i hname
    refine .pure ⟨h, .refl s r, .refl s, hdir, fun _ => .refl _ s,
      fun _ => ⟨iff_of_false Bool.false_ne_true ?_, fun htrue => by cases htrue⟩⟩
    rintro ⟨hne, hle, -⟩
    rcases hname with hnil | hlong
    · exact absurd hnil hne
    · omega
  rename_i hname
  rw [not_or, Nat.not_lt] at hname
  refine (h.lookup hdir).bind fun found hfound => ?_
  split
  · rename_i hsome
    refine .pure ⟨h, .refl s r, .refl s, hdir, fun _ => .refl _ s,
      fun _ => ⟨iff_of_false Bool.false_ne_true ?_, fun htrue => by cases htrue⟩⟩
    rintro ⟨-, -, habsent, -⟩
    obtain ⟨v, rfl⟩ := Option.isSome_iff_exists.mp hsome
    exact absurd hfound.2.1 habsent
  rename_i hnone
  obtain rfl : found = none := by simpa using hnone
  obtain ⟨i, hi, rfl, hsector⟩ := id hdir
  refine (inode_spec (h.table.find_inode hi)).bind fun i' hi' => ?_
  subst hi'
  have hdata := h.data i' hi
  rw [hsector] at hdata
  rw [hdata, h.entryCnt]
  refine (h.freeSlotLoop hdir stack).bind fun v hv => ?_
  obtain ⟨e, ofs⟩ := v
  obtain ⟨j, rfl, hslot⟩ := hv
  refine (h.writeEntry hdir j _).bind fun w hw => .pure ?_
  rcases hw with ⟨hn, hj, hs, hentry, hold, htable⟩ | ⟨hn, hs, hrefused⟩
  · have hlt : x < 2 ^ 32 := lt_trans (hx.spare x (s.occupies_self x)).lt s.device.size_lt
    have hfill := DirEntry.fill_spec (e := e) hname.2 hlt
    refine ⟨h.rename hs hold (fun y hy => ?_) fun _ _ => ?_,
      h.saves_data s.live_rootDir (by decide) hs, hs.sameFiles, hs.refers.mpr hdir,
      fun hfalse => ?_, fun hr => ?_⟩
    · -- the entry names the new inode
      have hsame := (DirEntry.congr hentry).2.1
      rw [hfill.2, hy.2.2] at hsame
      exact hsame ▸ hx
    · rw [(DirEntry.congr hentry).2.2, DirEntry.name_fill hname.2 name.2]
      exact hname.2
    · exact absurd hn (of_decide_eq_false hfalse)
    · obtain ⟨hvacant, hfirst⟩ := hslot hr
      refine ⟨iff_of_true (decide_eq_true hn) ⟨hname.1, hname.2, hfound hr, hvacant.mp hj⟩,
        fun _ => ⟨hs, j, hfirst hj, ?_⟩⟩
      rw [htable, DirEntry.slot_fill hname.2 name.2 hlt]
  · refine ⟨h.change hs ⟨fun _ _ => id, fun _ _ => id⟩, h.saves_change hs fun _ _ => id,
      hs.sameFiles, hs.refers.mpr hdir, fun _ => hs, fun hr => ?_⟩
    refine ⟨iff_of_false (fun htrue => hn (of_decide_eq_true htrue)) ?_,
      fun htrue => absurd (of_decide_eq_true htrue) hn⟩
    rintro ⟨-, -, -, hvacant⟩
    rw [hrefused ((hslot hr).1.mpr hvacant)] at hr
    cases hr

/-! ### Removing a name -/

/-- Nobody names the inode of an entry that is cleared. -/
theorem Inv.clearEntry (h : s.Inv held) (hnames : s.Names j x)
    (hs : DiskChange (s.onDisk rootDirSector).Covers s s') (huse : (s'.entry j).inUse = false)
    (hold : ∀ j' ≠ j, ∀ i < dirEntrySize, s'.entry j' i = s.entry j' i) :
    s'.Inv held ∧ ∀ j', ¬s'.Names j' x := by
  have hcleared : ∀ y, ¬s'.Names j y := fun y hy => by
    rw [hy.2.1] at huse
    cases huse
  refine ⟨h.rename hs hold (fun y hy => absurd hy (hcleared y)) fun _ htrue => ?_,
    fun j' hj' => ?_⟩
  · rw [huse] at htrue
    cases htrue
  rcases eq_or_ne j' j with rfl | hne
  · exact hcleared _ hj'
  · have hroot := hs.onDisk (h.space.apart _ s.live_rootDir)
    have hj := (names_congr hroot fun i hi _ => hold j' hne i hi).mp hj'
    exact hne (h.space.once j' j _ hj hnames)

/-- **Removing a name**, and with it the inode. -/
theorem Inv.dirRemove (h : s.Inv held) (hdir : s.Refers dir rootDirSector) (hmem : dir ∈ held) :
    (s.dirRemove dir name).Spec r E fun v => v.2.Inv held ∧ s.Saves r v.2 ∧ s.SameFiles v.2 ∧
      v.2.Refers dir rootDirSector := by
  rw [Fs.dirRemove]
  refine (h.lookup hdir).bind fun found hfound => ?_
  cases found with
  | none => exact .pure ⟨h, .refl s r, .refl s, hdir⟩
  | some v =>
    obtain ⟨e, ofs⟩ := v
    obtain ⟨-, -, j, rfl, hnames⟩ := hfound
    refine (h.inodeOpen (.inr (.inr (.inl ⟨j, hnames⟩)))).bind fun w hw => ?_
    obtain ⟨ref, s₁⟩ := w
    cases ref with
    | none =>
      obtain ⟨-, rfl⟩ := hw
      exact .pure ⟨h, .refl _ r, .refl _, hdir⟩
    | some ref =>
      obtain ⟨hs₁, href⟩ := hw
      have hdir₁ := hs₁.refers dir (List.mem_cons_of_mem _ hmem) _ hdir
      refine (hs₁.inv.writeEntry hdir₁ j e.clear).bind fun w hw => ?_
      obtain ⟨n, s₂⟩ := w
      rcases hw with ⟨hn, -, hs₂, hentry, hold, -⟩ | ⟨hn, hs₂, -⟩
      · have huse : (s₂.entry j).inUse = false :=
          (DirEntry.congr hentry).1.trans e.clear_inUse
        obtain ⟨h₂, hunnamed⟩ :=
          hs₁.inv.clearEntry ((names_of_device hs₁.device).mpr hnames) hs₂ huse hold
        obtain ⟨hmap, hroot⟩ := h.space.system j _ hnames
        dsimp only
        rw [if_pos hn]
        refine (h₂.inodeRemove (hs₂.refers.mpr href) ⟨hmap, hroot, hunnamed⟩).bind
          fun s₃ hs₃ => ?_
        have hsaves₂ : s₁.Saves r s₂ :=
          hs₁.inv.saves_data s₁.live_rootDir (by decide) hs₂
        refine hs₃.inv.inodeClose.bind fun s₄ hs₄ => .pure ⟨hs₄.1.inv,
          hs₁.saves.trans (hsaves₂.trans (hs₃.saves.trans hs₄.2)),
          hs₁.same.trans (hs₂.sameFiles.trans (hs₃.same.trans hs₄.1.same)),
          hs₄.1.refers dir hmem _ ?_⟩
        exact hs₃.refers dir (List.mem_cons_of_mem _ hmem) _ (hs₂.refers.mpr hdir₁)
      · have h₂ := hs₁.inv.change hs₂ ⟨fun _ _ => id, fun _ _ => id⟩
        dsimp only at hn ⊢
        rw [if_neg hn]
        have hsaves₂ : s₁.Saves r s₂ := hs₁.inv.saves_change hs₂ fun _ _ => id
        refine h₂.inodeClose.bind fun s₃ hs₃ => .pure ⟨hs₃.1.inv,
          hs₁.saves.trans (hsaves₂.trans hs₃.2),
          hs₁.same.trans (hs₂.sameFiles.trans hs₃.1.same), ?_⟩
        exact hs₃.1.refers dir hmem _ (hs₂.refers.mpr hdir₁)

end Fs

end Pintos
