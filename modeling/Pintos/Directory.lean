import Pintos.FilesysInvariant
import Pintos.SlotTable

/-!
# Directories

A directory is a file of entries of fixed size, each of which is in use or not. Its entries
are a table of slots, from names to the sectors of inodes. The lemmas of this module are about
any directory that is open, wherever it is on the device and however many entries it has room
for; its length need not be a multiple of the size of an entry. Entries are read as a whole or
not at all: for want of memory a read may find nothing, and the read after the last entry is
short.

## Main results

* `DirEntry.slot_fill`, `DirEntry.slot_clear`: the slots that `dir_add` and `dir_remove` write.
* `Fs.EntryChange.table`: writing an entry fills its slot.
* `Fs.Directory.lookup`, `Fs.Directory.freeSlotLoop`, `Fs.Directory.readdirLoop`: what the loops
  over the entries find.
-/

namespace Pintos

open Verif

namespace DirEntry

variable {e e' : DirEntry} {name : List UInt8}

/-- The slot that an entry is: a name and the sector of an inode, if it is in use. -/
def slot (e : DirEntry) : Option (List UInt8 × ℕ) :=
  if e.inUse then some (e.name, e.inodeSector) else none

theorem slot_congr (h : ∀ i < dirEntrySize, e i = e' i) : e.slot = e'.slot := by
  obtain ⟨huse, hsector, hname⟩ := DirEntry.congr h
  rw [slot, slot, huse, hsector, hname]

theorem slot_eq_some {n : List UInt8} {x : ℕ} :
    e.slot = some (n, x) ↔ e.inUse = true ∧ e.name = n ∧ e.inodeSector = x := by
  rw [slot]
  split
  · rename_i huse
    rw [Option.some.injEq, Prod.mk.injEq]
    exact (and_iff_right huse).symm
  · rename_i huse
    exact iff_of_false (Option.some_ne_none _).symm fun h => huse h.1

theorem slot_eq_none : e.slot = none ↔ e.inUse = false := by
  rw [slot]
  split
  · rename_i huse
    exact iff_of_false (Option.some_ne_none _) (ne_false_of_eq_true huse)
  · rename_i huse
    exact iff_of_true rfl (Bool.eq_false_iff.mpr huse)

/-- The entry that `dir_add` fills in is in use, and names the inode. -/
theorem fill_spec (hname : name.length ≤ nameMax) {sector : ℕ} (hsector : sector < 2 ^ 32) :
    (e.fill name sector).inUse = true ∧ (e.fill name sector).inodeSector = sector := by
  rw [nameMax] at hname
  constructor
  · have h19 : e.fill name sector 19 = 1 := by
      rw [fill, if_neg (by omega), if_neg (by omega), if_neg (by omega), if_pos rfl]
    rw [inUse, h19]
    decide
  · have hword : word (e.fill name sector) = word (byteOf sector) :=
      word_congr fun k hk => if_pos hk
    rw [inodeSector, hword, word_byteOf hsector]

/-- The name that `dir_add` fills in is read back. -/
theorem name_fill (hname : name.length ≤ nameMax) (hzero : 0 ∉ name) (sector : ℕ) :
    (e.fill name sector).name = name := by
  obtain ⟨m, hm⟩ : ∃ m, nameMax + 1 = name.length + (m + 1) := ⟨nameMax - name.length, by omega⟩
  have hbytes : (List.range name.length).map (fun i => e.fill name sector (4 + i)) = name := by
    refine List.ext_getElem (by simp) fun i h₁ h₂ => ?_
    rw [List.getElem_map, List.getElem_range, fill, if_neg (by omega), if_pos (by omega),
      Nat.add_sub_cancel_left, List.getD_eq_getElem?_getD, List.getElem?_eq_getElem h₂,
      Option.getD_some]
  have hend : e.fill name sector (4 + (name.length + 0)) = 0 := by
    rw [Nat.add_zero, fill, if_neg (by omega), if_neg (by omega), if_pos rfl]
  rw [DirEntry.name, hm, List.range_add, List.map_append, hbytes, List.takeWhile_append_of_pos,
    List.range_succ_eq_map, List.map_cons, List.map_cons, List.takeWhile_cons_of_neg,
    List.append_nil]
  · simpa using hend
  · intro b hb
    simpa using fun h : b = 0 => hzero (h ▸ hb)

theorem clear_inUse (e : DirEntry) : e.clear.inUse = false := by
  rw [inUse, clear, if_pos rfl]
  rfl

/-- **The slot that `dir_add` writes.** -/
theorem slot_fill (hname : name.length ≤ nameMax) (hzero : 0 ∉ name) {sector : ℕ}
    (hsector : sector < 2 ^ 32) : (e.fill name sector).slot = some (name, sector) := by
  obtain ⟨huse, hword⟩ := fill_spec (e := e) hname hsector
  exact slot_eq_some.mpr ⟨huse, name_fill hname hzero sector, hword⟩

/-- **The slot that `dir_remove` writes.** -/
theorem slot_clear (e : DirEntry) : e.clear.slot = none := slot_eq_none.mpr e.clear_inUse

end DirEntry

namespace Fs

variable {s s' : Fs} {d : InodeDisk} {dir : InodeRef} {j : ℕ} {r : Bool} {E : FsPanic → Prop}
  {name : CString}

/-! ### Entries -/

/-- The entry `j` of a directory. -/
def entryOf (s : Fs) (d : InodeDisk) (j : ℕ) : DirEntry := fun i =>
  cell s.device.disk d.start (j * dirEntrySize + i)

/-- **The directory as a table of slots.** -/
def dirTable (s : Fs) (d : InodeDisk) : SlotTable (List UInt8) ℕ :=
  (List.range (entryCnt d)).map fun j => (s.entryOf d j).slot

theorem length_dirTable (s : Fs) (d : InodeDisk) : (s.dirTable d).length = entryCnt d := by
  rw [dirTable, List.length_map, List.length_range]

theorem getElem?_dirTable (hj : j < entryCnt d) :
    (s.dirTable d)[j]? = some (s.entryOf d j).slot := by
  rw [dirTable, List.getElem?_map, List.getElem?_range hj, Option.map_some]

theorem dirTable_eq_some {n : List UInt8} {x : ℕ} :
    (s.dirTable d)[j]? = some (some (n, x)) ↔ j < entryCnt d ∧ (s.entryOf d j).inUse = true ∧
      (s.entryOf d j).name = n ∧ (s.entryOf d j).inodeSector = x := by
  constructor
  · intro h
    have hj := (List.getElem?_eq_some_iff.mp h).1
    rw [length_dirTable] at hj
    rw [getElem?_dirTable hj, Option.some.injEq, DirEntry.slot_eq_some] at h
    exact ⟨hj, h⟩
  · rintro ⟨hj, h⟩
    rw [getElem?_dirTable hj, DirEntry.slot_eq_some.mpr h]

/-- The table depends on the entries only. -/
theorem dirTable_congr
    (h : ∀ j < entryCnt d, ∀ i < dirEntrySize, s'.entryOf d j i = s.entryOf d j i) :
    s'.dirTable d = s.dirTable d :=
  List.map_congr_left fun j hj => DirEntry.slot_congr (h j (List.mem_range.mp hj))

/-- The entries are on the disk. -/
theorem entryOf_congr (hlt : d.length < 2 ^ 31) (hj : j < entryCnt d) {i : ℕ}
    (hi : i < dirEntrySize) (h : ∀ k, d.Covers k → s'.device.disk k = s.device.disk k) :
    s'.entryOf d j i = s.entryOf d j i :=
  cell_congr (h _ (covers_entry hlt hj hi))

/-- The entry `j` was written, and no other. -/
structure EntryChange (d : InodeDisk) (j : ℕ) (e : DirEntry) (s s' : Fs) : Prop where
  change : DiskChange d.Covers s s'
  entry : ∀ i < dirEntrySize, s'.entryOf d j i = e i
  others : ∀ j' ≠ j, ∀ i < dirEntrySize, s'.entryOf d j' i = s.entryOf d j' i

/-- No entry was written; what follows the last entry may have been. -/
structure NoEntryChange (d : InodeDisk) (s s' : Fs) : Prop where
  change : DiskChange d.Covers s s'
  entries : ∀ j < entryCnt d, ∀ i < dirEntrySize, s'.entryOf d j i = s.entryOf d j i
  whole : dirEntrySize ∣ d.length.toNat → DiskChange (fun _ => False) s s'

theorem NoEntryChange.refl (d : InodeDisk) (s : Fs) : NoEntryChange d s s :=
  ⟨.refl _ s, fun _ _ _ _ => rfl, fun _ => .refl _ s⟩

/-- **Writing an entry** fills its slot. -/
theorem EntryChange.table {e : DirEntry} (h : EntryChange d j e s s') :
    s'.dirTable d = (s.dirTable d).set j e.slot := by
  refine List.ext_getElem? fun i => ?_
  rw [List.getElem?_set, length_dirTable]
  by_cases hi : i < entryCnt d
  · rw [getElem?_dirTable hi]
    split
    · rename_i hji
      subst hji
      rw [if_pos hi, DirEntry.slot_congr h.entry]
    · rename_i hji
      rw [getElem?_dirTable hi, DirEntry.slot_congr (h.others i (Ne.symm hji))]
  · rw [List.getElem?_eq_none (by rw [length_dirTable]; omega)]
    split
    · rename_i hji
      rw [if_neg (hji ▸ hi)]
    · rw [List.getElem?_eq_none (by rw [length_dirTable]; omega)]

/-! ### Reading and writing entries -/

/-- The directory is open, its data are on the device, and nobody denies writes to it. -/
structure Directory (s : Fs) (dir : InodeRef) (d : InodeDisk) : Prop where
  inode : ∃ i, s.openInodes.find? (·.ref = dir) = some i ∧ i.data = d ∧ i.denyWriteCnt = 0
  within : d.Within s.device

/-- What is asked for at the place of an entry. -/
theorem transferSize_entry (hlength : 0 ≤ d.length) (j : ℕ) :
    (j < entryCnt d → transferSize d.length dirEntrySize (j * dirEntrySize) = dirEntrySize) ∧
    (entryCnt d ≤ j → transferSize d.length dirEntrySize (j * dirEntrySize) < dirEntrySize) ∧
    (entryCnt d ≤ j → dirEntrySize ∣ d.length.toNat →
      transferSize d.length dirEntrySize (j * dirEntrySize) = 0) := by
  simp only [transferSize, entryCnt, dirEntrySize]
  omega

/-- **An entry is read** as a whole, or not at all. -/
theorem Directory.readEntry (h : s.Directory dir d) (j : ℕ) :
    (s.inodeReadAt dir dirEntrySize (j * dirEntrySize)).Spec r E fun bytes =>
      bytes.length = dirEntrySize ∧ j < entryCnt d ∧
        (∀ e : DirEntry, ∀ i < dirEntrySize, e.overlay bytes i = s.entryOf d j i) ∨
      bytes.length ≠ dirEntrySize ∧ (j < entryCnt d → r = true) := by
  obtain ⟨i, hi, rfl, -⟩ := h.inode
  obtain ⟨hfull, hshort, -⟩ := transferSize_entry h.within.nonneg j
  refine (inodeReadAt_spec hi h.within.onDevice).mono fun bytes hbytes => ?_
  obtain ⟨hslice, -, hall⟩ := hbytes
  rcases hall with hall | ⟨hr, hzero | hlarge⟩
  · by_cases hj : j < entryCnt i.data
    · rw [hfull hj] at hall
      refine .inl ⟨hall, hj, fun e k hk => ?_⟩
      rw [DirEntry.overlay, List.getD_eq_getElem?_getD, hslice, hall, getElem?_slice hk,
        Option.getD_some, entryOf]
    · have := hshort (Nat.le_of_not_lt hj)
      exact .inr ⟨by omega, fun hlt => absurd hlt hj⟩
  · exact .inr ⟨by rw [hzero]; decide, fun _ => hr⟩
  · exact absurd hlarge (by decide)

/-- **An entry is written** as a whole, or not at all. -/
theorem Directory.writeEntry (h : s.Directory dir d) (j : ℕ) (e : DirEntry) :
    (s.inodeWriteAt dir e dirEntrySize (j * dirEntrySize)).Spec r E fun v =>
      v.1 = dirEntrySize ∧ j < entryCnt d ∧ EntryChange d j e s v.2 ∨
      v.1 ≠ dirEntrySize ∧ (j < entryCnt d → r = true) ∧ NoEntryChange d s v.2 := by
  obtain ⟨i, hi, rfl, hdeny⟩ := h.inode
  obtain ⟨hfull, hshort, hnone⟩ := transferSize_entry h.within.nonneg j
  refine (inodeWriteAt_spec hi h.within.onDevice).mono fun v hv => ?_
  obtain ⟨hs, hwritten, -, hall⟩ := hv
  have hnothing : v.1 = 0 → DiskChange (fun _ => False) s v.2 := fun hzero => by
    rw [hzero] at hwritten
    exact ⟨hs.same, hs.size, fun k _ => hwritten.disk_of_zero k⟩
  -- what is written past the last entry leaves the entries as they are
  have hpast : v.1 = 0 ∨ entryCnt i.data ≤ j → ∀ j' < entryCnt i.data, ∀ k < dirEntrySize,
      v.2.entryOf i.data j' k = s.entryOf i.data j' k := by
    intro hcase j' hj' k hk
    rw [entryOf, entryOf, hwritten.cells, if_neg]
    simp only [dirEntrySize] at hk ⊢
    omega
  rcases hall with hall | ⟨hne, -⟩ | ⟨hr, hzero | hlarge⟩
  · by_cases hj : j < entryCnt i.data
    · rw [hfull hj] at hall
      refine .inl ⟨hall, hj, hs, fun k hk => ?_, fun j' hj' k hk => ?_⟩
      · rw [entryOf, hwritten.cells, if_pos (by omega), Nat.add_sub_cancel_left]
      · rw [entryOf, hwritten.cells, if_neg, entryOf]
        rw [hall]
        simp only [dirEntrySize] at hk ⊢
        omega
    · have hle := Nat.le_of_not_lt hj
      have := hshort hle
      exact .inr ⟨by omega, fun hlt => absurd hlt hj, hs, hpast (.inr hle),
        fun hdvd => hnothing (hall.trans (hnone hle hdvd))⟩
  · exact absurd hdeny hne
  · exact .inr ⟨by rw [hzero]; decide, fun _ => hr, hs, hpast (.inl hzero),
      fun _ => hnothing hzero⟩
  · exact absurd hlarge (by decide)

/-! ### Looking up -/

/-- What `lookup` finds is there; it finds nothing only if there is nothing, or for want of
memory. -/
theorem Directory.lookupLoop (h : s.Directory dir d) {fuel : ℕ}
    (hfuel : j + fuel = entryCnt d + 1) :
    (s.lookupLoop dir name fuel (j * dirEntrySize)).Spec r E fun found =>
      match found with
      | none => r = false → ∀ j', j ≤ j' → j' < entryCnt d →
          ¬((s.entryOf d j').inUse = true ∧ (s.entryOf d j').name = name.1)
      | some (e, ofs) => ∃ j' < entryCnt d, ofs = j' * dirEntrySize ∧
          (∀ i < dirEntrySize, e i = s.entryOf d j' i) ∧ e.inUse = true ∧ e.name = name.1 ∧
          ∀ i, j ≤ i → i < j' →
            ¬((s.entryOf d i).inUse = true ∧ (s.entryOf d i).name = name.1) := by
  induction fuel generalizing j with
  | zero => exact .pure fun _ j' h₁ h₂ => by omega
  | succ fuel ih =>
    rw [Fs.lookupLoop]
    refine (h.readEntry j).bind fun bytes hbytes => ?_
    split
    · rename_i hshort
      refine .pure fun hr j' h₁ h₂ => ?_
      rcases hbytes with ⟨hfull, -⟩ | ⟨-, hrefused⟩
      · exact absurd hfull hshort
      · rw [hrefused (by omega)] at hr
        cases hr
    · rename_i hfull
      rcases hbytes with ⟨-, hj, hentry⟩ | ⟨hshort, -⟩
      · have hbyte := hentry fun _ => 0
        obtain ⟨huse, -, hname⟩ := DirEntry.congr hbyte
        dsimp only
        split_ifs with hmatch
        · exact .pure ⟨j, hj, rfl, hbyte, hmatch.1, hmatch.2.symm, fun i h₁ h₂ => by omega⟩
        · rw [← Nat.succ_mul]
          have hnot : ¬((s.entryOf d j).inUse = true ∧ (s.entryOf d j).name = name.1) :=
            fun hj' => hmatch ⟨huse.trans hj'.1, (hname.trans hj'.2).symm⟩
          refine (ih (by omega)).mono fun found hfound => ?_
          cases found with
          | none =>
            intro hr j' h₁ h₂
            rcases Nat.eq_or_lt_of_le h₁ with rfl | hlt
            · exact hnot
            · exact hfound hr j' hlt h₂
          | some v =>
            obtain ⟨j', hj', hofs, hbyte', huse', hname', hfirst⟩ := hfound
            refine ⟨j', hj', hofs, hbyte', huse', hname', fun i h₁ h₂ => ?_⟩
            rcases Nat.eq_or_lt_of_le h₁ with rfl | hlt
            · exact hnot
            · exact hfirst i hlt h₂
      · exact absurd hshort hfull

/-- **Looking a name up** finds the first slot with the name. -/
theorem Directory.lookup (h : s.Directory dir d) :
    (s.lookup dir name).Spec r E fun found =>
      match found with
      | none => r = false → name.1 ∉ (s.dirTable d).keys
      | some (e, ofs) => ∃ j < entryCnt d, ofs = j * dirEntrySize ∧
          (s.dirTable d)[j]? = some (some (name.1, e.inodeSector)) ∧
          (s.dirTable d).find name.1 = some e.inodeSector := by
  obtain ⟨i, hi, rfl, -⟩ := id h.inode
  rw [Fs.lookup]
  refine (inode_spec hi).bind fun i' hi' => ?_
  subst hi'
  rw [← Nat.zero_mul dirEntrySize]
  refine (h.lookupLoop (Nat.zero_add _)).mono fun found hfound => ?_
  cases found with
  | none =>
    intro hr hmem
    obtain ⟨j, x, hj⟩ := SlotTable.mem_keys_iff.mp hmem
    obtain ⟨hlt, huse, hname, -⟩ := dirTable_eq_some.mp hj
    exact hfound hr j (Nat.zero_le j) hlt ⟨huse, hname⟩
  | some v =>
    obtain ⟨j, hj, hofs, hbyte, huse, hname, hfirst⟩ := hfound
    have hslot : (s.dirTable i'.data)[j]? = some (some (name.1, v.1.inodeSector)) := by
      rw [getElem?_dirTable hj, ← DirEntry.slot_congr hbyte]
      exact congrArg some (DirEntry.slot_eq_some.mpr ⟨huse, hname, rfl⟩)
    refine ⟨j, hj, hofs, hslot, SlotTable.find_of_first hslot fun i hi x hx => ?_⟩
    obtain ⟨-, huse', hname', -⟩ := dirTable_eq_some.mp hx
    exact hfirst i (Nat.zero_le i) hi ⟨huse', hname'⟩

/-! ### Free slots -/

/-- The slot that `dir_add` finds: the first that is not in use, or the end of the directory,
unless a read fails for want of memory. -/
theorem Directory.freeSlotLoop (h : s.Directory dir d) {fuel : ℕ} {e : DirEntry}
    (hfuel : j + fuel = entryCnt d + 1) (hj : j ≤ entryCnt d)
    (hused : r = false → ∀ j' < j, (s.entryOf d j').inUse = true) :
    (s.freeSlotLoop dir fuel e (j * dirEntrySize)).Spec r E fun v =>
      ∃ j', v.2 = j' * dirEntrySize ∧
        (r = false → (∀ i < j', (s.entryOf d i).inUse = true) ∧
          (j' < entryCnt d → (s.entryOf d j').inUse = false)) := by
  induction fuel generalizing j e with
  | zero => omega
  | succ fuel ih =>
    rw [Fs.freeSlotLoop]
    refine (h.readEntry j).bind fun bytes hbytes => ?_
    dsimp only
    split_ifs with hnext
    · rcases hbytes with ⟨-, hlt, hentry⟩ | ⟨hshort, -⟩
      · have huse := (DirEntry.congr (hentry e)).1.symm.trans hnext.2
        rw [← Nat.succ_mul]
        refine ih (by omega) hlt fun hr j' hj' => ?_
        rcases Nat.eq_or_lt_of_le (Nat.le_of_lt_succ hj') with rfl | hlt'
        · exact huse
        · exact hused hr j' hlt'
      · exact absurd hnext.1 hshort
    · refine .pure ⟨j, rfl, fun hr => ⟨hused hr, fun hlt => ?_⟩⟩
      rcases hbytes with ⟨hfull, -, hentry⟩ | ⟨-, hrefused⟩
      · rw [← (DirEntry.congr (hentry e)).1]
        exact Bool.eq_false_iff.mpr fun htrue => hnext ⟨hfull, htrue⟩
      · rw [hrefused hlt] at hr
        cases hr

/-! ### Listing the names -/

/-- What `dir_readdir` finds: the next entry that is in use. -/
theorem Directory.readdirLoop (h : s.Directory dir d) {fuel : ℕ}
    (hfuel : entryCnt d < j + fuel) (hj : j ≤ entryCnt d) :
    (s.readdirLoop dir fuel (j * dirEntrySize)).Spec false E fun v =>
      ∃ j' ≤ entryCnt d, v.2 = j' * dirEntrySize ∧
        match v.1 with
        | none => SlotTable.keys ((s.dirTable d).drop j) = [] ∧ j' = entryCnt d
        | some n => j < j' ∧ ∃ i < entryCnt d, (s.entryOf d i).inUse = true ∧
            n = (s.entryOf d i).name.take nameMax ∧
            SlotTable.keys ((s.dirTable d).drop j) =
              (s.entryOf d i).name :: SlotTable.keys ((s.dirTable d).drop j') := by
  induction fuel generalizing j with
  | zero => omega
  | succ fuel ih =>
    rw [Fs.readdirLoop]
    refine (h.readEntry j).bind fun bytes hbytes => ?_
    split
    · rename_i hshort
      rcases hbytes with ⟨hfull, -⟩ | ⟨-, hrefused⟩
      · exact absurd hfull hshort
      · obtain rfl : j = entryCnt d := by
          refine hj.antisymm (Nat.le_of_not_lt fun hlt => ?_)
          cases hrefused hlt
        refine .pure ⟨_, le_rfl, rfl, ?_, rfl⟩
        rw [List.drop_eq_nil_of_le (length_dirTable s d).le]
        rfl
    · rename_i hfull
      rcases hbytes with ⟨-, hlt, hentry⟩ | ⟨hshort, -⟩
      · obtain ⟨huse, -, hname⟩ := DirEntry.congr (hentry fun _ => 0)
        have hslot := getElem?_dirTable (s := s) hlt
        dsimp only
        rw [← Nat.succ_mul, huse, hname]
        split_ifs with hin
        · rw [DirEntry.slot, if_pos hin] at hslot
          exact .pure ⟨j + 1, hlt, rfl, Nat.lt_succ_self j, j, hlt, hin, rfl,
            SlotTable.keys_drop_of_some hslot⟩
        · rw [DirEntry.slot, if_neg hin] at hslot
          rw [SlotTable.keys_drop_of_none hslot]
          refine (ih (by omega) hlt).mono fun v hv => ?_
          obtain ⟨n, pos⟩ := v
          obtain ⟨j', hj', hpos, hv⟩ := hv
          refine ⟨j', hj', hpos, ?_⟩
          cases n with
          | none => exact hv
          | some n => exact ⟨(Nat.lt_succ_self j).trans hv.1, hv.2⟩
      · exact absurd hshort hfull

end Fs

end Pintos
