import Mathlib.Logic.Function.Basic
import Pintos.Outcome
import Pintos.Pte

/-!
# Loadable Segments

The part of `load` in `userprog/process.c` that handles a program header of type `PT_LOAD`, with
`validate_segment` and `load_segment`, and the function `load_page_from_filesys` of `vm/page.c`,
which reads a page when it is touched. All the sizes, addresses and offsets are 32-bit words, of
which offsets in files are read as signed.

## Conventions

* A file is its bytes and the position of the one `struct file` that `load` opens; pages are read
  later through the same `struct file`.
* The loop of `load_segment` has fuel; without it, it does not return.
* `malloc` finds memory for the entries of the supplemental page table; the source does not check.
-/

namespace Pintos

open Verif Function Outcome

/-- A file that is open: its length is an `off_t`. -/
structure ElfFile where
  bytes : List UInt8
  pos : ℕ
  length_lt : bytes.length < 2 ^ 31

/-- The fields of `struct Elf32_Phdr` that are read for a header of type `PT_LOAD`. -/
structure Phdr where
  offset : Word
  vaddr : Word
  filesz : Word
  memsz : Word
  flags : Word
  deriving DecidableEq, Repr

/-- An entry of the supplemental page table, as `supt_install_filesys` makes it. -/
structure FileEntry where
  offset : Word
  readBytes : Word
  zeroBytes : Word
  writable : Bool
  deriving DecidableEq, Repr

/-- The assertions and panics of the functions. -/
inductive ElfPanic where
  /-- `ASSERT ((read_bytes + zero_bytes) % PGSIZE == 0)`. -/
  | sizes
  /-- `ASSERT (pg_ofs (upage) == 0)`. -/
  | upage
  /-- `ASSERT (ofs % PGSIZE == 0)`. -/
  | ofs
  /-- `ASSERT (new_pos >= 0)`. -/
  | seek
  /-- `ASSERT (pagedir_get_page (cur->pagedir, upage) == NULL)`. -/
  | mapped
  /-- "Duplicated SUPT entry for filesys-page". -/
  | duplicate
  /-- `ASSERT (spte->read_bytes + spte->zero_bytes == PGSIZE)`. -/
  | pageSizes
  deriving DecidableEq, Repr

/-- Computations of the loader. -/
abbrev ElfM := Outcome ElfPanic

/-- What loading reads and changes: the executable's file, and the supplemental page table and the
page directory of the process. -/
structure LoadState where
  file : ElfFile
  supt : Word → Option FileEntry
  pagedir : Word → Option ℕ

namespace ElfFile

/-- `file_seek`. -/
def fileSeek (f : ElfFile) (newPos : Word) : ElfM ElfFile := do
  Outcome.ensure (0 ≤ newPos.toInt) .seek
  return { f with pos := newPos.toNat }

/-- `file_read`, of a size that is not negative. -/
def fileRead (f : ElfFile) (size : Word) : List UInt8 × ElfFile :=
  let bytes := (f.bytes.drop f.pos).take size.toNat
  (bytes, { f with pos := f.pos + bytes.length })

end ElfFile

namespace Phdr

/-- `validate_segment`. -/
def validateSegment (p : Phdr) (f : ElfFile) : Bool :=
  if Pte.pgOfs p.offset ≠ Pte.pgOfs p.vaddr then false
  else if p.offset > BitVec.ofNat 32 f.bytes.length then false
  else if p.memsz < p.filesz then false
  else if p.memsz = 0 then false
  else if Pte.isUserVaddr p.vaddr = false then false
  else if Pte.isUserVaddr (p.vaddr + p.memsz) = false then false
  else if p.vaddr + p.memsz < p.vaddr then false
  else if p.vaddr < 4096 then false
  else true

/-- `ROUND_UP (x, PGSIZE)`. -/
def roundUp (x : Word) : Word := (x + 4096 - 1) / 4096 * 4096

/-- `file_page`. -/
def filePage (p : Phdr) : Word := p.offset &&& ~~~0xfff

/-- `mem_page`. -/
def memPage (p : Phdr) : Word := p.vaddr &&& ~~~0xfff

/-- `page_offset`. -/
def pageOffset (p : Phdr) : Word := p.vaddr &&& 0xfff

/-- `read_bytes`. -/
def readBytes (p : Phdr) : Word := if p.filesz > 0 then p.pageOffset + p.filesz else 0

/-- `zero_bytes`. -/
def zeroBytes (p : Phdr) : Word :=
  if p.filesz > 0 then roundUp (p.pageOffset + p.memsz) - p.readBytes
  else roundUp (p.pageOffset + p.memsz)

/-- `writable`. -/
def writable (p : Phdr) : Bool := p.flags &&& 2 ≠ 0

end Phdr

/-- `page_read_bytes`. -/
def pageReadBytes (readBytes : Word) : Word := if readBytes < 4096 then readBytes else 4096

/-- `page_zero_bytes`. -/
def pageZeroBytes (readBytes : Word) : Word := 4096 - pageReadBytes readBytes

namespace LoadState

/-- `supt_install_filesys`. -/
def suptInstallFilesys (s : LoadState) (upage : Word) (e : FileEntry) : ElfM LoadState := do
  Outcome.ensure (s.supt upage = none) .duplicate
  return { s with supt := update s.supt upage (some e) }

/-- The loop of `load_segment`. -/
def loadSegmentLoop (writable : Bool) : (fuel : ℕ) → (s : LoadState) →
    (ofs upage readBytes zeroBytes : Word) → ElfM (Bool × LoadState)
  | 0, _, _, _, _, _ => .blocked
  | fuel + 1, s, ofs, upage, readBytes, zeroBytes =>
    if readBytes > 0 ∨ zeroBytes > 0 then do
      Outcome.ensure (s.pagedir upage = none) .mapped
      let s ← s.suptInstallFilesys upage
        ⟨ofs, pageReadBytes readBytes, pageZeroBytes readBytes, writable⟩
      loadSegmentLoop writable fuel s (ofs + 4096) (upage + 4096)
        (readBytes - pageReadBytes readBytes) (zeroBytes - pageZeroBytes readBytes)
    else
      return (true, s)

/-- `load_segment`. -/
def loadSegment (s : LoadState) (fuel : ℕ) (ofs upage readBytes zeroBytes : Word)
    (writable : Bool) : ElfM (Bool × LoadState) := do
  Outcome.ensure ((readBytes + zeroBytes) % 4096 = 0) .sizes
  Outcome.ensure (Pte.pgOfs upage = 0) .upage
  Outcome.ensure (ofs.toInt.tmod 4096 = 0) .ofs
  let file ← s.file.fileSeek ofs
  loadSegmentLoop writable fuel { s with file := file } ofs upage readBytes zeroBytes

/-- `load`, for a program header of type `PT_LOAD`; `false` if it is refused. -/
def loadPhdr (s : LoadState) (fuel : ℕ) (p : Phdr) : ElfM (Bool × LoadState) :=
  if p.validateSegment s.file then
    s.loadSegment fuel p.filePage p.memPage p.readBytes p.zeroBytes p.writable
  else
    return (false, s)

end LoadState

/-- The contents of a frame. -/
abbrev FrameBytes := ℕ → UInt8

/-- `load_page_from_filesys`: whether it succeeds, what the frame contains then, and the file. -/
def loadPageFromFilesys (f : ElfFile) (e : FileEntry) (kpage : FrameBytes) :
    ElfM (Bool × FrameBytes × ElfFile) := do
  let f ← f.fileSeek e.offset
  let (bytes, f) := f.fileRead e.readBytes
  let kpage := fun i => bytes.getD i (kpage i)
  if bytes.length = e.readBytes.toNat then do
    Outcome.ensure (e.readBytes + e.zeroBytes = 4096) .pageSizes
    return (true, fun i =>
      if bytes.length ≤ i ∧ i < bytes.length + e.zeroBytes.toNat then 0 else kpage i, f)
  else
    return (false, kpage, f)

/-! ### What a valid header says -/

/-- The part of an address above the offset in its page. -/
theorem Pte.and_not_toNat (x : Word) : (x &&& ~~~0xfff).toNat = x.toNat - x.toNat % 4096 := by
  have hdisjoint : (x &&& ~~~0xfff) &&& (x &&& 0xfff) = 0 := by
    apply BitVec.eq_of_getLsbD_eq
    intro i hi
    simp only [BitVec.getLsbD_and, BitVec.getLsbD_not]
    cases x.getLsbD i <;> cases BitVec.getLsbD (0xfff : Word) i <;> simp
  have hsplit : (x &&& ~~~0xfff) ||| (x &&& 0xfff) = x := by
    apply BitVec.eq_of_getLsbD_eq
    intro i hi
    simp only [BitVec.getLsbD_or, BitVec.getLsbD_and, BitVec.getLsbD_not, decide_eq_true hi]
    cases x.getLsbD i <;> cases BitVec.getLsbD (0xfff : Word) i <;> rfl
  have hsum := BitVec.add_eq_or_of_and_eq_zero _ _ hdisjoint
  rw [hsplit] at hsum
  have hofs := Pte.pgOfs_toNat x
  rw [Pte.pgOfs] at hofs
  have hnat := congrArg BitVec.toNat hsum
  rw [BitVec.toNat_add, hofs] at hnat
  omega

namespace Phdr

variable {p : Phdr} {f : ElfFile}

/-- **What `validate_segment` accepts**, as numbers. -/
structure Valid (p : Phdr) (f : ElfFile) : Prop where
  congr : p.offset.toNat % 4096 = p.vaddr.toNat % 4096
  offset_le : p.offset.toNat ≤ f.bytes.length
  filesz_le : p.filesz.toNat ≤ p.memsz.toNat
  memsz_pos : 0 < p.memsz.toNat
  end_lt : p.vaddr.toNat + p.memsz.toNat < 3221225472
  page_le : 4096 ≤ p.vaddr.toNat

theorem isUserVaddr_iff_toNat {va : Word} :
    Pte.isUserVaddr va = true ↔ va.toNat < 3221225472 := by
  rw [Pte.isUserVaddr, decide_eq_true_iff, BitVec.lt_def]
  exact Iff.rfl

theorem validateSegment_eq_true : p.validateSegment f = true ↔ p.Valid f := by
  have hlength := f.length_lt
  have hofs : Pte.pgOfs p.offset = Pte.pgOfs p.vaddr ↔
      p.offset.toNat % 4096 = p.vaddr.toNat % 4096 := by
    rw [← BitVec.toNat_inj, Pte.pgOfs_toNat, Pte.pgOfs_toNat]
    exact Iff.rfl
  have hoffset : p.offset > BitVec.ofNat 32 f.bytes.length ↔ f.bytes.length < p.offset.toNat := by
    rw [gt_iff_lt, BitVec.lt_def, BitVec.toNat_ofNat, Nat.mod_eq_of_lt (by omega)]
  have hzero : p.memsz = 0 ↔ p.memsz.toNat = 0 := by
    rw [← BitVec.toNat_inj]
    rfl
  have huser : ∀ va : Word, Pte.isUserVaddr va = false ↔ 3221225472 ≤ va.toNat := fun va => by
    rw [← Bool.not_eq_true, isUserVaddr_iff_toNat, Nat.not_lt]
  have hpage : p.vaddr < 4096 ↔ p.vaddr.toNat < 4096 := BitVec.lt_def
  simp only [validateSegment, hofs, hoffset, hzero, huser, hpage, BitVec.lt_def, BitVec.toNat_add,
    ne_eq]
  constructor
  · intro h
    split_ifs at h
    exact ⟨by omega, by omega, by omega, by omega, by omega, by omega⟩
  · rintro ⟨h₁, h₂, h₃, h₄, h₅, h₆⟩
    rw [if_neg (by omega), if_neg (by omega), if_neg (by omega), if_neg (by omega),
      if_neg (by omega), if_neg (by omega), if_neg (by omega), if_neg (by omega)]

/-- The number of pages of a segment. -/
def pageCount (p : Phdr) : ℕ := (p.vaddr.toNat % 4096 + p.memsz.toNat + 4095) / 4096

theorem filePage_toNat (p : Phdr) : p.filePage.toNat = p.offset.toNat - p.offset.toNat % 4096 :=
  Pte.and_not_toNat p.offset

theorem memPage_toNat (p : Phdr) : p.memPage.toNat = p.vaddr.toNat - p.vaddr.toNat % 4096 :=
  Pte.and_not_toNat p.vaddr

theorem pageOffset_toNat (p : Phdr) : p.pageOffset.toNat = p.vaddr.toNat % 4096 :=
  Pte.pgOfs_toNat p.vaddr

theorem roundUp_toNat {x : Word} (h : x.toNat + 4095 < 2 ^ 32) :
    (roundUp x).toNat = (x.toNat + 4095) / 4096 * 4096 := by
  have hsum : (x + 4096 - 1).toNat = x.toNat + 4095 := by bv_omega
  rw [roundUp, BitVec.toNat_mul, BitVec.toNat_udiv, hsum]
  have hstep : BitVec.toNat (4096 : Word) = 4096 := rfl
  rw [hstep]
  omega

/-- The bytes that are read from the file. -/
theorem Valid.readBytes_toNat (h : p.Valid f) : p.readBytes.toNat =
    if 0 < p.filesz.toNat then p.vaddr.toNat % 4096 + p.filesz.toNat else 0 := by
  have hend := h.end_lt
  have hfilesz := h.filesz_le
  rw [readBytes]
  by_cases hpos : 0 < p.filesz.toNat
  · rw [if_pos (show p.filesz > 0 from hpos), if_pos hpos, BitVec.toNat_add, pageOffset_toNat]
    omega
  · rw [if_neg (show ¬p.filesz > 0 from hpos), if_neg hpos]
    rfl

/-- The bytes that are read and those that are zeroed are whole pages. -/
theorem Valid.bytes (h : p.Valid f) :
    p.readBytes.toNat + p.zeroBytes.toNat = p.pageCount * 4096 := by
  have hend := h.end_lt
  have hfilesz := h.filesz_le
  have hread := h.readBytes_toNat
  have hsum : (p.pageOffset + p.memsz).toNat = p.vaddr.toNat % 4096 + p.memsz.toNat := by
    rw [BitVec.toNat_add, pageOffset_toNat]
    omega
  have hround : (roundUp (p.pageOffset + p.memsz)).toNat = p.pageCount * 4096 := by
    rw [roundUp_toNat (by omega), hsum, pageCount]
  have hcount : p.vaddr.toNat % 4096 + p.memsz.toNat ≤ p.pageCount * 4096 := by
    rw [pageCount]
    omega
  rw [zeroBytes]
  by_cases hpos : 0 < p.filesz.toNat
  · rw [if_pos hpos] at hread
    rw [if_pos (show p.filesz > 0 from hpos), BitVec.toNat_sub, hround]
    omega
  · rw [if_neg hpos] at hread
    rw [if_neg (show ¬p.filesz > 0 from hpos), hread, hround, Nat.zero_add]

/-- The pages of a segment. -/
def Covers (p : Phdr) (u : Word) : Prop :=
  Pte.pgOfs u = 0 ∧ Pte.pgNo p.vaddr ≤ Pte.pgNo u ∧ Pte.pgNo u ≤ Pte.pgNo (p.vaddr + p.memsz - 1)

end Phdr

/-- The pages from `upage` on. -/
def InPages (upage : Word) (n : ℕ) (u : Word) : Prop :=
  u.toNat % 4096 = 0 ∧ upage.toNat ≤ u.toNat ∧ u.toNat < upage.toNat + n * 4096

instance (upage : Word) (n : ℕ) (u : Word) : Decidable (InPages upage n u) :=
  inferInstanceAs (Decidable (_ ∧ _))

theorem Phdr.Valid.covers_iff {p : Phdr} {f : ElfFile} (h : p.Valid f) {u : Word} :
    p.Covers u ↔ InPages p.memPage p.pageCount u := by
  have hend := h.end_lt
  have hpos := h.memsz_pos
  have hlast : (p.vaddr + p.memsz - 1).toNat = p.vaddr.toNat + p.memsz.toNat - 1 := by
    bv_omega
  rw [Covers, InPages, Pte.pgOfs_eq_zero, BitVec.le_def, BitVec.le_def, Pte.pgNo_toNat,
    Pte.pgNo_toNat, Pte.pgNo_toNat, hlast, memPage_toNat, pageCount]
  omega

/-! ### The loop -/

theorem pageReadBytes_toNat (r : Word) : (pageReadBytes r).toNat = min r.toNat 4096 := by
  have hstep : r < 4096 ↔ r.toNat < 4096 := BitVec.lt_def
  rw [pageReadBytes]
  by_cases hr : r.toNat < 4096
  · rw [if_pos (hstep.mpr hr), Nat.min_eq_left (by omega)]
  · rw [if_neg (mt hstep.mp hr), Nat.min_eq_right (by omega)]
    rfl

theorem pageZeroBytes_toNat (r : Word) : (pageZeroBytes r).toNat = 4096 - min r.toNat 4096 := by
  have hread := pageReadBytes_toNat r
  have hstep : BitVec.toNat (4096 : Word) = 4096 := rfl
  rw [pageZeroBytes, BitVec.toNat_sub, hread, hstep]
  omega

/-- The counters after a round in which some are left. -/
theorem counters_step {r z : Word} {n : ℕ} (h : r.toNat + z.toNat = (n + 1) * 4096) :
    (r - pageReadBytes r).toNat = r.toNat - min r.toNat 4096 ∧
      (z - pageZeroBytes r).toNat = z.toNat - (4096 - min r.toNat 4096) ∧
      4096 - min r.toNat 4096 ≤ z.toNat := by
  have hread := pageReadBytes_toNat r
  have hzero := pageZeroBytes_toNat r
  rw [BitVec.toNat_sub, BitVec.toNat_sub, hread, hzero]
  omega

/-- The values of `read_bytes` and `zero_bytes` at the start of the rounds of `load_segment`. -/
def counters : (fuel : ℕ) → (readBytes zeroBytes : Word) → List (Word × Word)
  | 0, _, _ => []
  | fuel + 1, r, z =>
    if r > 0 ∨ z > 0 then
      (r, z) :: counters fuel (r - pageReadBytes r) (z - pageZeroBytes r)
    else
      []

/-- **Neither counter underflows.** -/
theorem counters_le {n fuel : ℕ} {r z : Word} (h : r.toNat + z.toNat = n * 4096) :
    ∀ c ∈ counters fuel r z, pageReadBytes c.1 ≤ c.1 ∧ pageZeroBytes c.1 ≤ c.2 := by
  induction fuel generalizing n r z with
  | zero => exact fun c hc => absurd hc List.not_mem_nil
  | succ fuel ih =>
    intro c hc
    rw [counters] at hc
    split at hc
    · rename_i hleft
      have hleft' : 0 < r.toNat ∨ 0 < z.toNat := hleft
      obtain ⟨m, rfl⟩ : ∃ m, n = m + 1 := ⟨n - 1, by omega⟩
      obtain ⟨hr, hz, hle⟩ := counters_step h
      rcases List.mem_cons.mp hc with rfl | hc
      · rw [BitVec.le_def, BitVec.le_def, pageReadBytes_toNat, pageZeroBytes_toNat]
        exact ⟨by omega, hle⟩
      · exact ih (n := m) (by omega) c hc
    · exact absurd hc List.not_mem_nil

/-- What the loop installs for a page. -/
def entryAt (writable : Bool) (ofs upage readBytes u : Word) : FileEntry :=
  let left := BitVec.ofNat 32 (readBytes.toNat - (u - upage).toNat)
  ⟨ofs + (u - upage), pageReadBytes left, pageZeroBytes left, writable⟩

theorem entryAt_self (writable : Bool) (ofs upage r : Word) : entryAt writable ofs upage r upage =
    ⟨ofs, pageReadBytes r, pageZeroBytes r, writable⟩ := by
  simp [entryAt]

theorem sub_toNat {u v : Word} (h : v.toNat ≤ u.toNat) : (u - v).toNat = u.toNat - v.toNat :=
  BitVec.toNat_sub_of_le h

/-- The next round installs for the pages after it what the loop installs for them. -/
theorem entryAt_next {writable : Bool} {ofs upage r z u : Word} {n : ℕ}
    (h : r.toNat + z.toNat = (n + 1) * 4096) (hu : upage.toNat + 4096 ≤ u.toNat) :
    entryAt writable (ofs + 4096) (upage + 4096) (r - pageReadBytes r) u =
      entryAt writable ofs upage r u := by
  have hnext : (upage + 4096).toNat = upage.toNat + 4096 := by bv_omega
  have hdiff : (u - upage).toNat = u.toNat - upage.toNat := sub_toNat (by omega)
  have hdiff' : (u - (upage + 4096)).toNat = u.toNat - (upage.toNat + 4096) := by
    rw [sub_toNat (by omega), hnext]
  have hofs : ofs + 4096 + (u - (upage + 4096)) = ofs + (u - upage) := by bv_omega
  have hleft : (r - pageReadBytes r).toNat - (u - (upage + 4096)).toNat =
      r.toNat - (u - upage).toNat := by
    rw [(counters_step h).1, hdiff, hdiff']
    omega
  rw [entryAt, entryAt, hofs, hleft]

namespace LoadState

variable {s s' : LoadState} {writable : Bool} {ofs upage r z : Word} {n fuel : ℕ}

/-- No page from `upage` on is in use. -/
def Vacant (s : LoadState) (upage : Word) (n : ℕ) : Prop :=
  ∀ u, InPages upage n u → s.supt u = none ∧ s.pagedir u = none

/-- The state after the loop. -/
def installed (s : LoadState) (writable : Bool) (n : ℕ) (ofs upage r : Word) : LoadState :=
  { s with supt := fun u =>
      if InPages upage n u then some (entryAt writable ofs upage r u) else s.supt u }

/-- The pages after the first one. -/
theorem inPages_succ (hupage : upage.toNat % 4096 = 0)
    (hend : upage.toNat + (n + 1) * 4096 < 2 ^ 32) {u : Word} :
    InPages upage (n + 1) u ↔ u = upage ∨ InPages (upage + 4096) n u := by
  have hnext : (upage + 4096).toNat = upage.toNat + 4096 := by bv_omega
  rw [InPages, InPages, hnext, ← BitVec.toNat_inj]
  omega

/-- The rest of the loop installs what the loop installs, but for the first page. -/
theorem installed_next (hbytes : r.toNat + z.toNat = (n + 1) * 4096)
    (hupage : upage.toNat % 4096 = 0) (hend : upage.toNat + (n + 1) * 4096 < 2 ^ 32) :
    LoadState.installed { s with supt := update s.supt upage (some
        ⟨ofs, pageReadBytes r, pageZeroBytes r, writable⟩) } writable n (ofs + 4096)
      (upage + 4096) (r - pageReadBytes r) = s.installed writable (n + 1) ofs upage r := by
  have hnext : (upage + 4096).toNat = upage.toNat + 4096 := by bv_omega
  have hpages := fun u => inPages_succ hupage hend (u := u)
  rw [installed, installed]
  dsimp only
  rw [mk.injEq]
  refine ⟨rfl, ?_, rfl⟩
  funext u
  by_cases hu : InPages (upage + 4096) n u
  · have hge := hu.2.1
    rw [if_pos hu, if_pos ((hpages u).mpr (.inr hu)), entryAt_next hbytes (by omega)]
  · rw [if_neg hu]
    by_cases huu : u = upage
    · rw [huu, update_self, if_pos ((hpages upage).mpr (.inl rfl)), entryAt_self]
    · rw [update_of_ne huu, if_neg]
      rw [hpages u, not_or]
      exact ⟨huu, hu⟩

/-- **The loop of `load_segment`** installs the entries of the pages, if none is in use. -/
theorem loadSegmentLoop_spec (hbytes : r.toNat + z.toNat = n * 4096) (hfuel : n < fuel)
    (hupage : upage.toNat % 4096 = 0) (hend : upage.toNat + n * 4096 < 2 ^ 32)
    (hvacant : s.Vacant upage n) :
    loadSegmentLoop writable fuel s ofs upage r z =
      .ok (true, s.installed writable n ofs upage r) := by
  induction n generalizing s ofs upage r z fuel with
  | zero =>
    obtain ⟨fuel, rfl⟩ : ∃ k, fuel = k + 1 := ⟨fuel - 1, by omega⟩
    have hnone : ¬(r > 0 ∨ z > 0) := fun hleft => by
      have hleft' : 0 < r.toNat ∨ 0 < z.toNat := hleft
      omega
    have hsame : s.installed writable 0 ofs upage r = s := by
      rw [installed]
      have hsupt : (fun u => if InPages upage 0 u then
          some (entryAt writable ofs upage r u) else s.supt u) = s.supt := by
        funext u
        rw [if_neg]
        rintro ⟨-, hge, hlt⟩
        omega
      rw [hsupt]
    rw [loadSegmentLoop, if_neg hnone, hsame]
    rfl
  | succ n ih =>
    obtain ⟨fuel, rfl⟩ : ∃ k, fuel = k + 1 := ⟨fuel - 1, by omega⟩
    have hleft : r > 0 ∨ z > 0 := by
      have hleft' : 0 < r.toNat ∨ 0 < z.toNat := by omega
      exact hleft'
    have hpages := fun u => inPages_succ hupage hend (u := u)
    obtain ⟨hsupt, hpagedir⟩ := hvacant upage ((hpages upage).mpr (.inl rfl))
    have hnext : (upage + 4096).toNat = upage.toNat + 4096 := by bv_omega
    obtain ⟨hr, hz, hle⟩ := counters_step hbytes
    have hrest : LoadState.Vacant { s with supt := update s.supt upage (some
        ⟨ofs, pageReadBytes r, pageZeroBytes r, writable⟩) } (upage + 4096) n := by
      intro u hu
      have hne : u ≠ upage := by
        rintro rfl
        have hge := hu.2.1
        omega
      dsimp only
      rw [update_of_ne hne]
      exact hvacant u ((hpages u).mpr (.inr hu))
    rw [loadSegmentLoop, if_pos hleft, ensure_of_true hpagedir, ok_bind,
      suptInstallFilesys, ensure_of_true hsupt, ok_bind, pure_eq,
      ok_bind, ih (by omega) (by omega) (by omega) (by omega) hrest,
      installed_next hbytes hupage hend]

/-- If the loop completes, no page has been in use. -/
theorem vacant_of_loadSegmentLoop (hbytes : r.toNat + z.toNat = n * 4096)
    (hupage : upage.toNat % 4096 = 0) (hend : upage.toNat + n * 4096 < 2 ^ 32) {b : Bool}
    (hrun : loadSegmentLoop writable fuel s ofs upage r z = .ok (b, s')) :
    s.Vacant upage n := by
  induction n generalizing s ofs upage r z fuel with
  | zero =>
    rintro u ⟨-, hge, hlt⟩
    omega
  | succ n ih =>
    cases fuel with
    | zero => cases hrun
    | succ fuel =>
      have hleft : r > 0 ∨ z > 0 := by
        have hleft' : 0 < r.toNat ∨ 0 < z.toNat := by omega
        exact hleft'
      have hnext : (upage + 4096).toNat = upage.toNat + 4096 := by bv_omega
      obtain ⟨hr, hz, hle⟩ := counters_step hbytes
      rw [loadSegmentLoop, if_pos hleft] at hrun
      obtain ⟨hpagedir, hrun⟩ := ensure_bind_eq_ok.mp hrun
      obtain ⟨s₁, hinstall, hrun⟩ := bind_eq_ok.mp hrun
      obtain ⟨hsupt, hinstall⟩ := ensure_bind_eq_ok.mp hinstall
      cases hinstall
      have hrest := ih (by omega) (by omega) (by omega) hrun
      intro u hu
      rcases (inPages_succ hupage hend).mp hu with rfl | hu
      · exact ⟨hsupt, hpagedir⟩
      · have hne : u ≠ upage := by
          rintro rfl
          have hge := hu.2.1
          omega
        have hvacant := hrest u hu
        dsimp only at hvacant
        rwa [update_of_ne hne] at hvacant

end LoadState

end Pintos
