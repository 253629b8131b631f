import Mathlib.Data.List.Forall2
import Pintos.Elf

/-!
# The Layout of a Segment

A program header that `validate_segment` accepts says which bytes of the file are at which
addresses, and where there are zeros. `load_segment` splits it into pages, each with the offset and
the number of bytes to read, and `load_page_from_filesys` reads a page when it is touched. Here the
two are compared with what the header says.

They agree if the process has none of the pages yet, no page has an offset beyond what an `off_t`
can hold, and the file has the bytes that the header names: `load_page_from_filesys` gives up on a
page some of whose bytes the file does not have.

## Main results

* `Phdr.Valid.loadPhdr_eq`: what `load` installs for a header.
* `loadPageFromFilesys_spec`: what a frame contains after a page is loaded.
* `faithful_iff`: a valid header is laid out as it says if and only if it is `Loadable`.
-/

namespace Pintos

open Verif List

/-! ### The entries of a segment -/

namespace Phdr

variable {p : Phdr} {f : ElfFile} {s s' : LoadState} {u : Word} {fuel : ℕ}

/-- The entry of a page of the segment. -/
def entryOf (p : Phdr) (u : Word) : FileEntry :=
  entryAt p.writable p.filePage p.memPage p.readBytes u

/-- The state in which the loop of `load_segment` starts. -/
def seeked (p : Phdr) (s : LoadState) : LoadState :=
  { s with file := { s.file with pos := p.filePage.toNat } }

/-- `load_segment` comes to its loop. -/
theorem Valid.loadPhdr_eq (h : p.Valid s.file) : s.loadPhdr fuel p =
    LoadState.loadSegmentLoop p.writable fuel (p.seeked s) p.filePage p.memPage p.readBytes
      p.zeroBytes := by
  have hlength := s.file.length_lt
  have hoffset := h.offset_le
  have hend := h.end_lt
  have hbytes := h.bytes
  have hfile := p.filePage_toNat
  have hsizes : (p.readBytes + p.zeroBytes) % 4096 = 0 := by
    have hcount : p.pageCount * 4096 < 2 ^ 32 := by
      rw [pageCount]
      omega
    have hstep : BitVec.toNat (4096 : Word) = 4096 := rfl
    apply BitVec.eq_of_toNat_eq
    rw [BitVec.toNat_umod, BitVec.toNat_add, hbytes, hstep, Nat.mod_eq_of_lt hcount,
      Nat.mul_mod_left]
    rfl
  have hupage : Pte.pgOfs p.memPage = 0 := by
    rw [Pte.pgOfs_eq_zero, memPage_toNat]
    omega
  have hint : p.filePage.toInt = (p.filePage.toNat : ℤ) :=
    BitVec.toInt_eq_toNat_of_lt (by omega)
  have hofs : p.filePage.toInt.tmod 4096 = 0 := by
    rw [hint, Int.tmod_eq_emod_of_nonneg (by omega), hfile]
    omega
  have hseek : 0 ≤ p.filePage.toInt := by
    rw [hint]
    omega
  rw [LoadState.loadPhdr, if_pos (validateSegment_eq_true.mpr h), LoadState.loadSegment,
    Outcome.ensure_of_true hsizes, Outcome.ok_bind, Outcome.ensure_of_true hupage, Outcome.ok_bind,
    Outcome.ensure_of_true hofs, Outcome.ok_bind, ElfFile.fileSeek, Outcome.ensure_of_true hseek,
    Outcome.ok_bind, Outcome.pure_eq, Outcome.ok_bind]
  rfl

theorem Valid.memPage (h : p.Valid f) : p.memPage.toNat % 4096 = 0 ∧
    p.memPage.toNat + p.pageCount * 4096 < 2 ^ 32 := by
  have hend := h.end_lt
  rw [memPage_toNat, pageCount]
  omega

/-- The state in which the pages of the header are installed. -/
def loaded (p : Phdr) (s : LoadState) : LoadState :=
  (p.seeked s).installed p.writable p.pageCount p.filePage p.memPage p.readBytes

/-- **What `load` installs** for a header, if none of its pages is in use. -/
theorem Valid.loadPhdr_ok (h : p.Valid s.file) (hfuel : p.pageCount < fuel)
    (hvacant : s.Vacant p.memPage p.pageCount) : s.loadPhdr fuel p =
      .ok (true, p.loaded s) := by
  rw [h.loadPhdr_eq]
  exact LoadState.loadSegmentLoop_spec h.bytes hfuel h.memPage.1 h.memPage.2 hvacant

theorem Valid.vacant_of_loadPhdr (h : p.Valid s.file) {b : Bool}
    (hrun : s.loadPhdr fuel p = .ok (b, s')) : s.Vacant p.memPage p.pageCount := by
  rw [h.loadPhdr_eq] at hrun
  show (p.seeked s).Vacant p.memPage p.pageCount
  exact LoadState.vacant_of_loadSegmentLoop h.bytes h.memPage.1 h.memPage.2 hrun

/-- The numbers in the entry of a page. -/
theorem Valid.entryOf (h : p.Valid f) (hu : p.Covers u) :
    (p.entryOf u).offset.toNat =
        (p.filePage.toNat + (u.toNat - p.memPage.toNat)) % 2 ^ 32 ∧
      (p.entryOf u).readBytes.toNat = min (p.readBytes.toNat - (u.toNat - p.memPage.toNat)) 4096 ∧
      (p.entryOf u).readBytes.toNat + (p.entryOf u).zeroBytes.toNat = 4096 := by
  obtain ⟨-, hge, -⟩ := h.covers_iff.mp hu
  have hlt := p.readBytes.isLt
  have hleft : (BitVec.ofNat 32 (p.readBytes.toNat - (u.toNat - p.memPage.toNat))).toNat =
      p.readBytes.toNat - (u.toNat - p.memPage.toNat) := by
    rw [BitVec.toNat_ofNat]
    omega
  rw [Phdr.entryOf, entryAt]
  dsimp only
  rw [BitVec.toNat_add, sub_toNat hge, pageReadBytes_toNat, pageZeroBytes_toNat, hleft]
  omega

end Phdr

/-! ### Loading a page -/

/-- **What a frame contains** after a page is loaded: the bytes of the file, and zeros after the
bytes that are read. It is loaded unless the file does not have all the bytes. -/
theorem loadPageFromFilesys_spec (f : ElfFile) (e : FileEntry) (k : FrameBytes)
    (hofs : e.offset.toNat < 2 ^ 31) (hsum : e.readBytes.toNat + e.zeroBytes.toNat = 4096) :
    ∃ b k' f', loadPageFromFilesys f e k = .ok (b, k', f') ∧ f'.bytes = f.bytes ∧
      (b = true ↔ e.offset.toNat + e.readBytes.toNat ≤ f.bytes.length ∨ e.readBytes.toNat = 0) ∧
      (b = true →
        (∀ i < e.readBytes.toNat, ∀ x, f.bytes[e.offset.toNat + i]? = some x → k' i = x) ∧
        ∀ i, e.readBytes.toNat ≤ i → i < 4096 → k' i = 0) := by
  have hint : e.offset.toInt = (e.offset.toNat : ℤ) := BitVec.toInt_eq_toNat_of_lt (by omega)
  have hseek : 0 ≤ e.offset.toInt := by
    rw [hint]
    omega
  have hlength : ((f.bytes.drop e.offset.toNat).take e.readBytes.toNat).length =
      min e.readBytes.toNat (f.bytes.length - e.offset.toNat) := by
    rw [List.length_take, List.length_drop]
  rw [loadPageFromFilesys, ElfFile.fileSeek, Outcome.ensure_of_true hseek, Outcome.ok_bind,
    Outcome.pure_eq, Outcome.ok_bind, ElfFile.fileRead]
  dsimp only
  by_cases hall : ((f.bytes.drop e.offset.toNat).take e.readBytes.toNat).length =
      e.readBytes.toNat
  · have hpage : e.readBytes + e.zeroBytes = 4096 := by
      apply BitVec.eq_of_toNat_eq
      rw [BitVec.toNat_add, hsum]
      rfl
    rw [if_pos hall, Outcome.ensure_of_true hpage]
    refine ⟨_, _, _, rfl, rfl, iff_of_true rfl ?_,
      fun _ => ⟨fun i hi x hx => ?_, fun i hge hlt => ?_⟩⟩
    · rw [hlength] at hall
      omega
    · rw [if_neg (by rw [hall]; omega), List.getD_eq_getElem?_getD, List.getElem?_take_of_lt hi,
        List.getElem?_drop, hx]
      rfl
    · rw [if_pos (by rw [hall]; omega)]
  · rw [if_neg hall]
    refine ⟨_, _, _, rfl, rfl, iff_of_false Bool.false_ne_true ?_,
      fun h => (Bool.false_ne_true h).elim⟩
    rw [hlength] at hall
    omega

/-- A page whose offset does not fit into an `off_t` cannot be loaded. -/
theorem loadPageFromFilesys_panic (f : ElfFile) {e : FileEntry} (k : FrameBytes)
    (hofs : e.offset.toNat = 2 ^ 31) : loadPageFromFilesys f e k = .panic .seek := by
  have hneg : ¬0 ≤ e.offset.toInt := by
    rw [BitVec.toInt_eq_toNat_cond, hofs]
    decide
  rw [loadPageFromFilesys, ElfFile.fileSeek, Outcome.ensure, if_neg hneg]
  rfl

/-- Loading some pages, one after the other: whether each succeeds, and what its frame contains. -/
def loadPages (f : ElfFile) :
    List (FileEntry × FrameBytes) → ElfM (List (Bool × FrameBytes) × ElfFile)
  | [] => return ([], f)
  | (e, k) :: rest => do
    let (loaded, k, f) ← loadPageFromFilesys f e k
    let (ks, f) ← loadPages f rest
    return ((loaded, k) :: ks, f)

/-! ### The layout -/

/-- **What a header says** about a page of its segment: the bytes of the file that are in it, and
where it is zero. -/
def PageRight (p : Phdr) (bytes : List UInt8) (u : Word) (k : FrameBytes) : Prop :=
  ∀ i < 4096,
    (p.vaddr.toNat ≤ u.toNat + i → u.toNat + i < p.vaddr.toNat + p.filesz.toNat →
      ∀ x, bytes[p.offset.toNat + (u.toNat + i - p.vaddr.toNat)]? = some x → k i = x) ∧
    (p.vaddr.toNat + p.filesz.toNat ≤ u.toNat + i →
      u.toNat + i < p.vaddr.toNat + p.memsz.toNat → k i = 0)

/-- The entries of the segment's pages are new, and no other is changed. -/
structure Installed (p : Phdr) (s s' : LoadState) : Prop where
  page : ∀ u, p.Covers u → s.supt u = none ∧ ∃ e, s'.supt u = some e ∧
    e.readBytes.toNat + e.zeroBytes.toNat = 4096 ∧ e.writable = p.writable
  other : ∀ u, ¬p.Covers u → s'.supt u = s.supt u

/-- In whatever order some pages of the segment are loaded, and whatever the frames contain before,
each is loaded, and is right. -/
def LoadsRight (p : Phdr) (s' : LoadState) : Prop :=
  ∀ order : List (Word × FileEntry × FrameBytes),
    (∀ x ∈ order, p.Covers x.1 ∧ s'.supt x.1 = some x.2.1) →
    ∃ ks f', loadPages s'.file (order.map (·.2)) = .ok (ks, f') ∧
      List.Forall₂ (fun x k => k.1 = true ∧ PageRight p s'.file.bytes x.1 k.2) order ks

/-- **A segment is laid out as its header says.** -/
structure Faithful (p : Phdr) (s : LoadState) : Prop where
  /-- Its pages are user pages, and none is page 0. -/
  user : ∀ u, p.Covers u → Pte.isUserVaddr u = true ∧ Pte.pgNo u ≠ 0
  /-- The counters of the loop do not underflow. -/
  counters : ∀ fuel, ∀ c ∈ counters fuel p.readBytes p.zeroBytes,
    pageReadBytes c.1 ≤ c.1 ∧ pageZeroBytes c.1 ≤ c.2
  /-- The loop ends, and then there is an entry for each page, which can be loaded. -/
  installs : ∃ n, ∀ fuel, n ≤ fuel → ∃ s', s.loadPhdr fuel p = .ok (true, s') ∧
    Installed p s s' ∧ LoadsRight p s'

/-- **When a segment is laid out as its header says**: none of its pages is in use, its offsets fit
into an `off_t`, and the file has the bytes that it names. -/
structure Loadable (p : Phdr) (s : LoadState) : Prop where
  vacant : ∀ u, p.Covers u → s.supt u = none ∧ s.pagedir u = none
  offset : p.offset.toNat + p.memsz.toNat ≤ 2 ^ 31
  bytes : p.offset.toNat + p.filesz.toNat ≤ s.file.bytes.length ∨ p.filesz.toNat = 0

namespace Phdr

variable {p : Phdr} {s s' : LoadState} {u : Word}

/-- The pages of a segment are user pages. -/
theorem Valid.user (h : p.Valid s.file) (hu : p.Covers u) :
    Pte.isUserVaddr u = true ∧ Pte.pgNo u ≠ 0 := by
  obtain ⟨hmod, hge, hlt⟩ := h.covers_iff.mp hu
  have hend := h.end_lt
  have hpage := h.page_le
  rw [memPage_toNat] at hge hlt
  rw [pageCount] at hlt
  refine ⟨isUserVaddr_iff_toNat.mpr (by omega), fun hzero => ?_⟩
  have hno := Pte.pgNo_toNat u
  rw [hzero] at hno
  have hnat : BitVec.toNat (0 : Word) = 0 := rfl
  omega

theorem Valid.supt_loaded (h : p.Valid f) (hu : p.Covers u) :
    (p.loaded s).supt u = some (p.entryOf u) :=
  if_pos (h.covers_iff.mp hu)

/-- The entries that are installed. -/
theorem Valid.installed (h : p.Valid s.file)
    (hvacant : ∀ u, p.Covers u → s.supt u = none ∧ s.pagedir u = none) :
    Installed p s (p.loaded s) := by
  refine ⟨fun u hu => ⟨(hvacant u hu).1, p.entryOf u, ?_, (h.entryOf hu).2.2, rfl⟩, fun u hu => ?_⟩
  · rw [h.supt_loaded hu]
  · exact if_neg (mt h.covers_iff.mpr hu)

/-- **A page is loaded, and is right**, if the segment can be loaded. -/
theorem Valid.pageRight (h : p.Valid s.file) (hload : Loadable p s) (hu : p.Covers u)
    {f : ElfFile} (hf : f.bytes = s.file.bytes) (k : FrameBytes) :
    ∃ k' f', loadPageFromFilesys f (p.entryOf u) k = .ok (true, k', f') ∧
      f'.bytes = s.file.bytes ∧ PageRight p s.file.bytes u k' := by
  obtain ⟨hmod, hge, hlt⟩ := h.covers_iff.mp hu
  obtain ⟨hofs, hread, hsum⟩ := h.entryOf hu
  have hcongr := h.congr
  have hfilesz := h.filesz_le
  have hbytes := h.readBytes_toNat
  have hoffset := hload.offset
  have hhas := hload.bytes
  rw [pageCount] at hlt
  rw [memPage_toNat] at hge hlt hofs hread
  rw [filePage_toNat] at hofs
  have hofs' : (p.entryOf u).offset.toNat = p.offset.toNat - p.offset.toNat % 4096 +
      (u.toNat - (p.vaddr.toNat - p.vaddr.toNat % 4096)) := by omega
  obtain ⟨b, k', f', hrun, hf', hloaded, hright⟩ :=
    loadPageFromFilesys_spec f (p.entryOf u) k (by omega) hsum
  obtain rfl : b = true := by
    rw [hloaded, hf, hofs']
    split at hbytes <;> omega
  obtain ⟨hbyte, hzero⟩ := hright rfl
  refine ⟨k', f', hrun, hf'.trans hf, fun i hi => ⟨fun hstart hend x hx => ?_,
    fun hstart hend => ?_⟩⟩
  · rw [if_pos (by omega)] at hbytes
    have hpos : (p.entryOf u).offset.toNat + i =
        p.offset.toNat + (u.toNat + i - p.vaddr.toNat) := by omega
    refine hbyte i (by omega) x ?_
    rw [hpos, hf, hx]
  · refine hzero i ?_ hi
    split at hbytes <;> omega

/-- So are pages that are loaded one after the other. -/
theorem Valid.loadsRight (h : p.Valid s.file) (hload : Loadable p s) :
    LoadsRight p (p.loaded s) := by
  have hentry : ∀ u e, p.Covers u → (p.loaded s).supt u = some e → e = p.entryOf u := by
    intro u e hu he
    rw [h.supt_loaded hu] at he
    exact (Option.some.inj he).symm
  intro order horder
  have hgeneral : ∀ f : ElfFile, f.bytes = s.file.bytes →
      ∃ ks f', loadPages f (order.map (·.2)) = .ok (ks, f') ∧
        List.Forall₂ (fun x k => k.1 = true ∧ PageRight p s.file.bytes x.1 k.2) order ks := by
    induction order with
    | nil => exact fun f _ => ⟨[], f, rfl, .nil⟩
    | cons x order ih =>
      intro f hf
      obtain ⟨u, e, k⟩ := x
      obtain ⟨hu, he⟩ := horder _ mem_cons_self
      obtain rfl := hentry u e hu he
      obtain ⟨k', f₁, hrun, hf₁, hright⟩ := h.pageRight hload hu hf k
      obtain ⟨ks, f', hrest, hall⟩ := ih (fun y hy => horder y (mem_cons_of_mem _ hy)) f₁ hf₁
      refine ⟨(true, k') :: ks, f', ?_, .cons ⟨rfl, hright⟩ hall⟩
      rw [map_cons, loadPages, hrun, Outcome.ok_bind]
      dsimp only
      rw [hrest]
      rfl
  exact hgeneral _ rfl

/-- Each page of a segment that is laid out as its header says is loaded. -/
theorem Valid.loaded_of_loadsRight (h : p.Valid s.file)
    (hright : LoadsRight p (p.loaded s)) (hu : p.Covers u) :
    ∃ k f', loadPageFromFilesys (p.seeked s).file (p.entryOf u) (fun _ => 0) =
      .ok (true, k, f') := by
  obtain ⟨ks, f', hrun, hall⟩ := hright [(u, p.entryOf u, fun _ => 0)] fun x hx => by
    obtain rfl := mem_singleton.mp hx
    exact ⟨hu, h.supt_loaded hu⟩
  rw [map_cons, loadPages] at hrun
  obtain ⟨⟨loaded, k, f₁⟩, hload, hrun⟩ := Outcome.bind_eq_ok.mp hrun
  cases hrun
  obtain ⟨⟨hloaded, -⟩, -⟩ := forall₂_cons.mp hall
  obtain rfl : loaded = true := hloaded
  exact ⟨k, _, hload⟩

/-- A page whose offset does not fit is not loaded. -/
theorem Valid.offset_le_of_loadsRight (h : p.Valid s.file)
    (hright : LoadsRight p (p.loaded s)) : p.offset.toNat + p.memsz.toNat ≤ 2 ^ 31 := by
  by_contra hgt
  have hcongr := h.congr
  have hoffset := h.offset_le
  have hlength := s.file.length_lt
  have hend := h.end_lt
  have hfile := p.filePage_toNat
  have hmem := p.memPage_toNat
  -- the first page whose offset is at least `2 ^ 31` has this offset
  let u : Word := BitVec.ofNat 32 (p.memPage.toNat + (2 ^ 31 - p.filePage.toNat))
  have hu : u.toNat = p.memPage.toNat + (2 ^ 31 - p.filePage.toNat) := by
    rw [BitVec.toNat_ofNat]
    omega
  have hcovers : p.Covers u := by
    rw [h.covers_iff, InPages, hu, pageCount]
    omega
  obtain ⟨k, f', hload⟩ := h.loaded_of_loadsRight hright hcovers
  obtain ⟨hofs, -, -⟩ := h.entryOf hcovers
  rw [loadPageFromFilesys_panic _ _ (by rw [hofs, hu]; omega)] at hload
  cases hload

/-- A page with bytes that the file does not have is not loaded. -/
theorem Valid.bytes_of_loadsRight (h : p.Valid s.file)
    (hright : LoadsRight p (p.loaded s)) :
    p.offset.toNat + p.filesz.toNat ≤ s.file.bytes.length ∨ p.filesz.toNat = 0 := by
  by_contra hnot
  have hoffset := h.offset_le_of_loadsRight hright
  have hcongr := h.congr
  have hfilesz := h.filesz_le
  have hend := h.end_lt
  have hfile := p.filePage_toNat
  have hmem := p.memPage_toNat
  have hbytes := h.readBytes_toNat
  rw [if_pos (by omega)] at hbytes
  -- the page of the last byte
  let u : Word := BitVec.ofNat 32 ((p.vaddr.toNat + p.filesz.toNat - 1) / 4096 * 4096)
  have hu : u.toNat = (p.vaddr.toNat + p.filesz.toNat - 1) / 4096 * 4096 := by
    rw [BitVec.toNat_ofNat]
    omega
  have hcovers : p.Covers u := by
    rw [h.covers_iff, InPages, hu, hmem, pageCount]
    omega
  obtain ⟨hofs, hread, hsum⟩ := h.entryOf hcovers
  rw [hu] at hofs hread
  obtain ⟨k, f', hload⟩ := h.loaded_of_loadsRight hright hcovers
  obtain ⟨b, k', f₁, hrun, -, hloaded, -⟩ := loadPageFromFilesys_spec (p.seeked s).file
    (p.entryOf u) (fun _ => 0) (by omega) hsum
  rw [hload] at hrun
  cases hrun
  have hhas : (p.entryOf u).offset.toNat + (p.entryOf u).readBytes.toNat ≤ s.file.bytes.length ∨
      (p.entryOf u).readBytes.toNat = 0 := hloaded.mp rfl
  omega

end Phdr

theorem Phdr.Valid.loadable_of_faithful {p : Phdr} {s : LoadState} (h : p.Valid s.file)
    (hfaithful : Faithful p s) : Loadable p s := by
  obtain ⟨n, hn⟩ := hfaithful.installs
  obtain ⟨s', hrun, -, hright⟩ := hn (max n (p.pageCount + 1)) (Nat.le_max_left _ _)
  have hvacant := h.vacant_of_loadPhdr hrun
  rw [h.loadPhdr_ok (by omega) hvacant] at hrun
  cases hrun
  exact ⟨fun u hu => hvacant u (h.covers_iff.mp hu), h.offset_le_of_loadsRight hright,
    h.bytes_of_loadsRight hright⟩

/-- **A segment is laid out as its header says** if and only if it can be loaded. -/
theorem faithful_iff {p : Phdr} {s : LoadState} (hvalid : p.validateSegment s.file = true) :
    Faithful p s ↔ Loadable p s := by
  have h := Phdr.validateSegment_eq_true.mp hvalid
  refine ⟨h.loadable_of_faithful, fun hload => ?_⟩
  refine ⟨fun u hu => h.user hu, fun fuel => counters_le h.bytes, p.pageCount + 1,
    fun fuel hfuel => ⟨_, h.loadPhdr_ok (by omega) fun u hu => ?_, h.installed hload.vacant,
      h.loadsRight hload⟩⟩
  exact hload.vacant u (h.covers_iff.mpr hu)

theorem length_zeros {n : ℕ} (h : n < 2 ^ 31) : (replicate n (0 : UInt8)).length < 2 ^ 31 := by
  rwa [length_replicate]

/-- A new process, and a file of zeros. -/
def newProcess (n : ℕ) (h : n < 2 ^ 31) : LoadState :=
  ⟨⟨replicate n 0, 0, length_zeros h⟩, fun _ => none, fun _ => none⟩

/-- A segment of two pages, with 5000 bytes from the file and 1000 zeros. -/
def smallPhdr : Phdr := ⟨0, 0x08048000, 5000, 6000, 5⟩

theorem faithful_small : Faithful smallPhdr (newProcess 5000 (by decide)) := by
  have hlength : (newProcess 5000 (by decide)).file.bytes.length = 5000 := length_replicate
  refine (faithful_iff ?_).mpr ⟨fun _ _ => ⟨rfl, rfl⟩, by decide, .inl ?_⟩
  · rw [Phdr.validateSegment_eq_true]
    exact ⟨by decide, Nat.zero_le _, by decide, by decide, by decide, by decide⟩
  · rw [hlength]
    decide

/-- A segment of a gigabyte of zeros, at the end of a file of almost a gigabyte. -/
def farPhdr : Phdr := ⟨0x3f000000, 0x08048000, 0, 0x41001000, 6⟩

/-- The header is accepted, and the file's position for its last page is negative. -/
theorem not_faithful_far :
    farPhdr.validateSegment (newProcess 0x3f000000 (by decide)).file = true ∧
      farPhdr.Covers 0x49048000 ∧
      (∀ f k, loadPageFromFilesys f (farPhdr.entryOf 0x49048000) k = .panic .seek) ∧
      ¬Faithful farPhdr (newProcess 0x3f000000 (by decide)) := by
  have hlength : (newProcess 0x3f000000 (by decide)).file.bytes.length = 0x3f000000 :=
    length_replicate
  have hvalid : farPhdr.Valid (newProcess 0x3f000000 (by decide)).file := by
    refine ⟨by decide, ?_, by decide, by decide, by decide, by decide⟩
    rw [hlength]
    decide
  refine ⟨Phdr.validateSegment_eq_true.mpr hvalid, ⟨by decide, by decide, by decide⟩,
    fun f k => loadPageFromFilesys_panic f k (by decide), fun hfaithful => ?_⟩
  exact absurd (hvalid.loadable_of_faithful hfaithful).offset (by decide)

end Pintos
