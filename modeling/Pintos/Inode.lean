import Pintos.Extent
import Pintos.FixedPoint
import Pintos.Oracle
import Pintos.Swap

/-!
# Inodes on Disk

An inode is one sector: the first sector of the file's data, its length and a magic
number; the data are consecutive sectors. `inode_read_at` and `inode_write_at` go through
the sectors that a range of bytes lies in, one after the other, in the same loop: a full
sector is transferred directly, a part of one through a bounce buffer that is allocated
when it is needed first, and the loop ends early if it cannot be.

## Main results

* `InodeDisk.decode_encode`: what was written to an inode's sector is what is read back.
* `transferLoop_spec`: the loop that both functions share.
* `Device.inodeReadAt_spec`, `Device.inodeWriteAt_spec`: what is read are the bytes of the
  file, and writing changes the bytes it says it has written, and nothing else on the disk.
-/

namespace Pintos

open Verif Function

instance : NeZero blockSectorSize := ⟨by decide⟩

/-- The assertions and panics of the file system. -/
inductive FsPanic where
  /-- `check_sector`: access past the end of the device. -/
  | pastEnd
  /-- `ASSERT (start + cnt <= b->bit_cnt)`. -/
  | bitmapRange
  /-- `ASSERT (bitmap_all (free_map, sector, cnt))`. -/
  | bitmapAll
  /-- `ASSERT (length >= 0)`, in `inode_create`. -/
  | lengthNegative
  /-- `ASSERT (new_pos >= 0)`, in `file_seek`. -/
  | seekNegative
  /-- `ASSERT (inode->deny_write_cnt <= inode->open_cnt)`. -/
  | denyWrite
  /-- `ASSERT (inode->deny_write_cnt > 0)`. -/
  | allowWrite
  /-- A pointer to an inode or a file that is not allocated is followed. -/
  | dangling
  /-- A panic of `filesys_init`. -/
  | format
  deriving DecidableEq, Repr

/-- A computation of the file system; the answers are those of `malloc` and `calloc`. -/
abbrev FsM := OracleM FsPanic

/-- `malloc` or `calloc`: whether there was memory. -/
def malloc : FsM Bool := OracleM.draw

/-- The device that holds the file system; `block_sector_t` has 32 bits. -/
structure Device where
  size : ℕ
  disk : ℕ → Sector
  size_lt : size < 2 ^ 32

/-- `block_read`. -/
def Device.blockRead (dev : Device) (sector : ℕ) : FsM Sector := do
  OracleM.assert (sector < dev.size) .pastEnd
  return dev.disk sector

/-- `block_write`. -/
def Device.blockWrite (dev : Device) (sector : ℕ) (data : Sector) : FsM Device := do
  OracleM.assert (sector < dev.size) .pastEnd
  return { dev with disk := update dev.disk sector data }

/-- A sector of zeros. -/
def zeros : Sector := fun _ => 0

/-! ### The inode's sector -/

/-- The byte `k` of a number in memory. -/
def byteOf (n k : ℕ) : UInt8 := UInt8.ofNat (n / 256 ^ k)

/-- The 32-bit number whose bytes in memory are given. -/
def word (b : ℕ → UInt8) : ℕ :=
  (b 0).toNat + 256 * (b 1).toNat + 65536 * (b 2).toNat + 16777216 * (b 3).toNat

/-- `struct inode_disk`. -/
structure InodeDisk where
  start : ℕ
  length : ℤ
  magic : ℕ
  deriving DecidableEq, Repr

/-- `INODE_MAGIC`. -/
def inodeMagic : ℕ := 0x494e4f44

/-- `bytes_to_sectors`: the sum is one of an `int`, and the result is a `size_t`. -/
def bytesToSectors (size : ℤ) : ℕ :=
  ((int32 (size + blockSectorSize - 1)).tdiv blockSectorSize % 2 ^ 32).toNat

namespace InodeDisk

/-- The bytes of the inode. -/
def encode (d : InodeDisk) : Sector := fun i =>
  if i.val < 4 then byteOf d.start i
  else if i.val < 8 then byteOf (d.length % 2 ^ 32).toNat (i - 4)
  else if i.val < 12 then byteOf d.magic (i - 8)
  else 0

/-- The inode that the bytes of a sector are. -/
def decode (b : Sector) : InodeDisk where
  start := word fun k => b (Fin.ofNat _ k)
  length := int32 (word fun k => b (Fin.ofNat _ (4 + k)))
  magic := word fun k => b (Fin.ofNat _ (8 + k))

/-- How many sectors the data take. -/
def sectors (d : InodeDisk) : ℕ := bytesToSectors d.length

/-- The sector is one of the data's. -/
def Covers (d : InodeDisk) (k : ℕ) : Prop := d.start ≤ k ∧ k < d.start + d.sectors

instance (d : InodeDisk) (k : ℕ) : Decidable (d.Covers k) :=
  inferInstanceAs (Decidable (d.start ≤ k ∧ k < d.start + d.sectors))

/-- `byte_to_sector`. -/
def byteToSector (d : InodeDisk) (pos : ℕ) : ℕ :=
  if pos < d.length then (d.start + pos / blockSectorSize) % 2 ^ 32 else 2 ^ 32 - 1

end InodeDisk

/-! ### Numbers in memory -/

theorem word_byteOf {n : ℕ} (h : n < 2 ^ 32) : word (byteOf n) = n := by
  simp only [word, byteOf, UInt8.toNat_ofNat']
  omega

/-- Only four bytes of a number matter. -/
theorem word_congr {b b' : ℕ → UInt8} (h : ∀ k < 4, b k = b' k) : word b = word b' := by
  rw [word, word, h 0 (by omega), h 1 (by omega), h 2 (by omega), h 3 (by omega)]

/-- The bytes of the fields. -/
theorem InodeDisk.encode_apply (d : InodeDisk) {k : ℕ} (hk : k < 4) :
    d.encode (Fin.ofNat _ k) = byteOf d.start k ∧
    d.encode (Fin.ofNat _ (4 + k)) = byteOf (d.length % 2 ^ 32).toNat k ∧
    d.encode (Fin.ofNat _ (8 + k)) = byteOf d.magic k := by
  have hval : ∀ {j : ℕ}, j < 12 → (Fin.ofNat blockSectorSize j).val = j := fun hj =>
    Nat.mod_eq_of_lt (lt_trans hj (by decide))
  refine ⟨?_, ?_, ?_⟩
  · rw [encode, hval (by omega), if_pos hk]
  · rw [encode, hval (by omega), if_neg (by omega), if_pos (by omega), Nat.add_sub_cancel_left]
  · rw [encode, hval (by omega), if_neg (by omega), if_neg (by omega), if_pos (by omega),
      Nat.add_sub_cancel_left]

/-- **An inode that was written is read back.** -/
theorem InodeDisk.decode_encode {d : InodeDisk} (hstart : d.start < 2 ^ 32)
    (hlength : 0 ≤ d.length ∧ d.length < 2 ^ 31) (hmagic : d.magic < 2 ^ 32) :
    decode d.encode = d := by
  have hword : (word fun k => d.encode (Fin.ofNat _ (4 + k))) = d.length.toNat := by
    rw [word_congr fun k hk => (d.encode_apply hk).2.1, word_byteOf (by omega)]
    omega
  rw [decode, word_congr fun k hk => (d.encode_apply hk).1,
    word_congr fun k hk => (d.encode_apply hk).2.2, hword, word_byteOf hstart,
    word_byteOf hmagic, int32_of_bounds (by omega) (by omega), Int.toNat_of_nonneg hlength.1]

/-- `bytes_to_sectors` of a length of which the sum does not overflow. -/
theorem bytesToSectors_of_le {length : ℤ} (h₀ : 0 ≤ length) (h₁ : length ≤ 2 ^ 31 - 512) :
    bytesToSectors length = (length.toNat + 511) / 512 := by
  have hsum : int32 (length + blockSectorSize - 1) = ((length.toNat + 511 : ℕ) : ℤ) := by
    rw [blockSectorSize, int32_of_bounds (by omega) (by omega)]
    omega
  rw [bytesToSectors, hsum, blockSectorSize, Int.tdiv_eq_ediv_of_nonneg (by omega)]
  omega

/-- `bytes_to_sectors` of a length of which the sum overflows. -/
theorem bytesToSectors_of_lt {length : ℤ} (h₀ : 2 ^ 31 - 512 < length) (h₁ : length < 2 ^ 31) :
    2 ^ 31 ≤ bytesToSectors length := by
  have hsum : int32 (length + blockSectorSize - 1) = -((2 ^ 32 - 511 - length.toNat : ℕ) : ℤ) := by
    rw [blockSectorSize, int32, Int.bmod_def]
    omega
  rw [bytesToSectors, hsum, blockSectorSize, Int.neg_tdiv, Int.tdiv_eq_ediv_of_nonneg (by omega)]
  omega

/-- The sectors of a file are enough for its bytes. -/
theorem lt_bytesToSectors {length : ℤ} {pos : ℕ} (hlength : length < 2 ^ 31)
    (hpos : pos < length) : pos / blockSectorSize < bytesToSectors length := by
  rw [blockSectorSize]
  by_cases h : length ≤ 2 ^ 31 - 512
  · rw [bytesToSectors_of_le (by omega) h]
    omega
  · have := bytesToSectors_of_lt (by omega) hlength
    omega

/-! ### Transfers -/

/-- How many bytes are transferred from or to the sector that `offset` lies in. -/
def chunkSize (length size : ℤ) (offset : ℕ) : ℤ :=
  let sectorOfs := offset % blockSectorSize
  let inodeLeft := length - offset
  let sectorLeft : ℤ := blockSectorSize - sectorOfs
  let minLeft := if inodeLeft < sectorLeft then inodeLeft else sectorLeft
  if size < minLeft then size else minLeft

/-- Part of a sector goes through the bounce buffer, which is allocated once. -/
def getBounce (direct bounce : Bool) : FsM Bool :=
  if direct || bounce then pure true else malloc

/-- The loop of `inode_read_at` and `inode_write_at`; `body s offset done n` transfers `n`
bytes within a sector, after `done` bytes have been transferred. -/
def transferLoop {σ : Type} (length : ℤ) (body : σ → (offset done n : ℕ) → FsM σ) :
    (fuel : ℕ) → (bounce : Bool) → (size : ℤ) → (offset done : ℕ) → σ → FsM (ℕ × σ)
  | 0, _, _, _, done, s => return (done, s)
  | fuel + 1, bounce, size, offset, done, s => do
    if size ≤ 0 then
      return (done, s)
    let chunk := chunkSize length size offset
    if chunk ≤ 0 then
      return (done, s)
    let direct : Bool := offset % blockSectorSize = 0 ∧ chunk = blockSectorSize
    let ready ← getBounce direct bounce
    if ready = false then
      return (done, s)
    let s ← body s offset done chunk.toNat
    transferLoop length body fuel (bounce || !direct) (size - chunk) (offset + chunk.toNat)
      (done + chunk.toNat) s

namespace Device

/-- Copy a part of a sector to the end of what is in the buffer. -/
def readChunk (dev : Device) (d : InodeDisk) (buffer : List UInt8) (offset _done n : ℕ) :
    FsM (List UInt8) := do
  let sector ← dev.blockRead (d.byteToSector offset)
  return buffer ++ copyOut sector (offset % blockSectorSize) n

/-- `inode_read_at`: the bytes that are copied to the buffer. -/
def inodeReadAt (dev : Device) (d : InodeDisk) (size : ℤ) (offset : ℕ) : FsM (List UInt8) := do
  let (_, buffer) ← transferLoop d.length (dev.readChunk d) size.toNat false size offset 0 []
  return buffer

/-- Write a part of a sector: the sector is read first, unless all of it is replaced. -/
def writeChunk (d : InodeDisk) (buffer : ℕ → UInt8) (dev : Device) (offset done n : ℕ) :
    FsM Device := do
  let sectorIdx := d.byteToSector offset
  let sectorOfs := offset % blockSectorSize
  let old ← if 0 < sectorOfs ∨ n < blockSectorSize - sectorOfs then dev.blockRead sectorIdx
    else pure zeros
  dev.blockWrite sectorIdx (patch old sectorOfs n fun i => buffer (done + i))

/-- `inode_write_at`, when writes are not denied: how many bytes are written. -/
def inodeWriteAt (dev : Device) (d : InodeDisk) (buffer : ℕ → UInt8) (size : ℤ) (offset : ℕ) :
    FsM (ℕ × Device) :=
  transferLoop d.length (writeChunk d buffer) size.toNat false size offset 0 dev

end Device

/-! ### What a transfer does -/

/-- How many bytes a transfer is about: those that lie in the file. -/
def transferSize (length size : ℤ) (offset : ℕ) : ℕ := (min size (length - offset)).toNat

section

variable {length size : ℤ} {offset : ℕ}

/-- A chunk lies in one sector and in the file, and the rest of the transfer follows it. -/
theorem chunkSize_of_pos (h : 0 < chunkSize length size offset) :
    offset % blockSectorSize + (chunkSize length size offset).toNat ≤ blockSectorSize ∧
    ((offset + (chunkSize length size offset).toNat : ℕ) : ℤ) ≤ length ∧
    chunkSize length size offset ≤ size ∧
    transferSize length size offset = (chunkSize length size offset).toNat +
      transferSize length (size - chunkSize length size offset)
        (offset + (chunkSize length size offset).toNat) := by
  have hofs : offset % blockSectorSize < blockSectorSize := Nat.mod_lt _ (by decide)
  have hchunk : chunkSize length size offset =
      min size (min (length - offset) (blockSectorSize - (offset % blockSectorSize : ℕ))) := by
    simp only [chunkSize]
    split <;> split <;> omega
  generalize chunkSize length size offset = chunk at hchunk h
  simp only [transferSize]
  generalize offset % blockSectorSize = ofs at hchunk hofs
  omega

/-- There is no chunk if there is nothing left to transfer. -/
theorem transferSize_of_chunkSize (hsize : 0 < size) (h : chunkSize length size offset ≤ 0) :
    transferSize length size offset = 0 := by
  have hofs : offset % blockSectorSize < blockSectorSize := Nat.mod_lt _ (by decide)
  simp only [chunkSize] at h
  rw [transferSize]
  generalize offset % blockSectorSize = ofs at h hofs
  split at h <;> split at h <;> omega

theorem transferSize_of_nonpos (hsize : size ≤ 0) : transferSize length size offset = 0 := by
  rw [transferSize]
  omega

end

theorem getBounce_spec (direct bounce : Bool) {r : Bool} {E : FsPanic → Prop} :
    (getBounce direct bounce).Spec r E fun ready =>
      ready = true ∨ r = true ∧ direct = false ∧ bounce = false := by
  rw [getBounce]
  split_ifs with h
  · exact .pure (.inl rfl)
  · refine OracleM.Spec.draw.mono fun ready hready => ?_
    cases ready with
    | true => exact .inl rfl
    | false => simp_all

/-- **The loop of a transfer**: what its body keeps holds at the end, when as many bytes
have been transferred as lie in the file, unless the bounce buffer could not be allocated;
and that is found out before anything is transferred, unless there are full sectors. -/
theorem transferLoop_spec {σ : Type} {I : ℕ → σ → Prop} {length : ℤ}
    {body : σ → (offset done n : ℕ) → FsM σ} {r : Bool} {E : FsPanic → Prop} {o : ℕ}
    (hbody : ∀ done n s, I done s → 0 < n → (o + done) % blockSectorSize + n ≤ blockSectorSize →
      ((o + done + n : ℕ) : ℤ) ≤ length → (body s (o + done) done n).Spec r E (I (done + n)))
    (fuel : ℕ) : ∀ (bounce : Bool) (size : ℤ) (done : ℕ) (s : σ), size.toNat ≤ fuel → I done s →
    (transferLoop length body fuel bounce size (o + done) done s).Spec r E fun v =>
      I v.1 v.2 ∧ v.1 ≤ done + transferSize length size (o + done) ∧
      (v.1 = done + transferSize length size (o + done) ∨
        r = true ∧ bounce = false ∧ (v.1 = done ∨ blockSectorSize ≤ size)) := by
  induction fuel with
  | zero =>
    intro bounce size done s hfuel hI
    have hzero : transferSize length size (o + done) = 0 := transferSize_of_nonpos (by omega)
    refine .pure ⟨hI, ?_, .inl ?_⟩ <;> rw [hzero] <;> rfl
  | succ fuel ih =>
    intro bounce size done s hfuel hI
    rw [transferLoop]
    split_ifs with hsize
    · have hzero : transferSize length size (o + done) = 0 := transferSize_of_nonpos ‹_›
      refine .pure ⟨hI, ?_, .inl ?_⟩ <;> rw [hzero] <;> rfl
    dsimp only
    split_ifs with hchunk
    · have hzero := transferSize_of_chunkSize (lt_of_not_ge hsize) ‹_›
      refine .pure ⟨hI, ?_, .inl ?_⟩ <;> rw [hzero] <;> rfl
    obtain ⟨hsector, hfile, hle, htransfer⟩ := chunkSize_of_pos (lt_of_not_ge hchunk)
    generalize chunkSize length size (o + done) = chunk at hchunk hsector hfile hle htransfer
    refine (getBounce_spec _ _).bind fun ready hready => ?_
    split
    · -- the bounce buffer could not be allocated
      rename_i hnot
      rcases hready with hready | ⟨hr, -, hbounce⟩
      · rw [hready] at hnot
        cases hnot
      · exact .pure ⟨hI, by omega, .inr ⟨hr, hbounce, .inl rfl⟩⟩
    · refine (hbody done chunk.toNat s hI (by omega) hsector hfile).bind fun s' hI' => ?_
      have hrest := ih (bounce || !decide ((o + done) % blockSectorSize = 0 ∧
        chunk = blockSectorSize)) (size - chunk) (done + chunk.toNat) s' (by omega) hI'
      rw [← Nat.add_assoc] at hrest
      refine hrest.mono fun v hv => ⟨hv.1, by omega, ?_⟩
      rcases hv.2.2 with hall | ⟨hr, hbounce, hpart⟩
      · exact .inl (by omega)
      · -- the chunk was a full sector
        rw [Bool.or_eq_false_iff, Bool.not_eq_false', decide_eq_true_eq] at hbounce
        exact .inr ⟨hr, hbounce.1, .inr (by omega)⟩

/-! ### Reading and writing -/

/-- The data of the inode are on the device. -/
structure InodeDisk.Within (d : InodeDisk) (dev : Device) : Prop where
  nonneg : 0 ≤ d.length
  lt : d.length < 2 ^ 31
  fits : d.start + d.sectors ≤ dev.size

/-- Every sector that a byte of the file lies in is on the device. `bytes_to_sectors` may count more
of them, if its sum overflows. -/
structure InodeDisk.OnDevice (d : InodeDisk) (dev : Device) : Prop where
  lt : d.length < 2 ^ 31
  fits : d.start + (d.length.toNat + (blockSectorSize - 1)) / blockSectorSize ≤ dev.size

/-- A part of a file was written: its bytes are those of the buffer, and no others have
changed, of the file or elsewhere. -/
structure Device.Written (dev : Device) (d : InodeDisk) (o n : ℕ) (buffer : ℕ → UInt8)
    (dev' : Device) : Prop where
  size : dev'.size = dev.size
  outside : ∀ k, ¬d.Covers k → dev'.disk k = dev.disk k
  cells : ∀ i, cell dev'.disk d.start i =
    if o ≤ i ∧ i < o + n then buffer (i - o) else cell dev.disk d.start i

section

variable {dev dev' : Device} {d : InodeDisk} {o n done : ℕ} {size : ℤ} {buffer : ℕ → UInt8}
  {r : Bool} {E : FsPanic → Prop}

theorem InodeDisk.Within.onDevice (h : d.Within dev) : d.OnDevice dev := by
  refine ⟨h.lt, le_trans (Nat.add_le_add_left ?_ d.start) h.fits⟩
  have hnonneg := h.nonneg
  have hlt := h.lt
  rw [InodeDisk.sectors, blockSectorSize]
  by_cases hlength : d.length ≤ 2 ^ 31 - 512
  · rw [bytesToSectors_of_le hnonneg hlength]
  · have := bytesToSectors_of_lt (by omega) hlt
    omega

/-- The sector that a byte of the file lies in is one of the file's. -/
theorem InodeDisk.OnDevice.byteToSector (h : d.OnDevice dev) (hpos : (o : ℤ) < d.length) :
    d.byteToSector o = d.start + o / blockSectorSize ∧
    d.Covers (d.start + o / blockSectorSize) ∧ d.start + o / blockSectorSize < dev.size := by
  have hlt : o / blockSectorSize < d.sectors := lt_bytesToSectors h.lt hpos
  have hfits := h.fits
  have hsize := dev.size_lt
  have hbound : o / blockSectorSize <
      (d.length.toNat + (blockSectorSize - 1)) / blockSectorSize := by
    rw [blockSectorSize]
    omega
  refine ⟨?_, ⟨Nat.le_add_right _ _, Nat.add_lt_add_left hlt _⟩, by omega⟩
  rw [InodeDisk.byteToSector, if_pos hpos, Nat.mod_eq_of_lt (by omega)]

theorem InodeDisk.Within.change (h : d.Within dev) (hsize : dev'.size = dev.size) :
    d.Within dev' :=
  ⟨h.nonneg, h.lt, hsize ▸ h.fits⟩

/-- Nothing is written yet. -/
theorem Device.Written.zero : dev.Written d o 0 buffer dev :=
  ⟨rfl, fun _ _ => rfl, fun i => by rw [if_neg (by omega)]⟩

/-- Writing nothing leaves the disk as it is. -/
theorem Device.Written.disk_of_zero (h : dev.Written d o 0 buffer dev') (k : ℕ) :
    dev'.disk k = dev.disk k := by
  by_cases hk : d.Covers k
  · refine block_congr (fun i _ => ?_) hk.1
    rw [h.cells, if_neg (by omega)]
  · exact h.outside k hk

/-- Writing a part of a sector, after what comes before it. -/
theorem Device.Written.next (h : dev.Written d o done buffer dev')
    (hcovers : d.Covers (d.start + (o + done) / blockSectorSize))
    (hsector : (o + done) % blockSectorSize + n ≤ blockSectorSize) :
    dev.Written d o (done + n) buffer { dev' with
      disk := update dev'.disk (d.start + (o + done) / blockSectorSize)
        (patch (dev'.disk (d.start + (o + done) / blockSectorSize))
          ((o + done) % blockSectorSize) n fun i => buffer (done + i)) } := by
  refine ⟨h.size, fun k hk => ?_, fun i => ?_⟩
  · have hne : k ≠ d.start + (o + done) / blockSectorSize := by
      rintro rfl
      exact hk hcovers
    show update dev'.disk _ _ k = _
    rw [update_of_ne hne, h.outside k hk]
  · rw [cell_update_patch hsector, h.cells]
    by_cases hnew : o + done ≤ i ∧ i < o + done + n
    · rw [if_pos hnew, if_pos (by omega)]
      congr 1
      omega
    · rw [if_neg hnew]
      by_cases hold : o ≤ i ∧ i < o + done
      · rw [if_pos hold, if_pos (by omega)]
      · rw [if_neg hold, if_neg (by omega)]

theorem Device.blockRead_spec {k : ℕ} (hk : k < dev.size) :
    (dev.blockRead k).Spec r E fun b => b = dev.disk k :=
  .assert hk (.pure rfl)

theorem Device.blockWrite_spec {k : ℕ} {b : Sector} (hk : k < dev.size) :
    (dev.blockWrite k b).Spec r E fun dev' =>
      dev' = { dev with disk := update dev.disk k b } :=
  .assert hk (.pure rfl)

/-- Reading a chunk, after what comes before it. -/
theorem Device.readChunk_spec (h : d.OnDevice dev)
    (hsector : (o + done) % blockSectorSize + n ≤ blockSectorSize)
    (hfile : ((o + done : ℕ) : ℤ) < d.length) :
    (dev.readChunk d (slice dev.disk d.start o done) (o + done) done n).Spec r E fun bytes =>
      bytes = slice dev.disk d.start o (done + n) := by
  obtain ⟨hsec, -, hlt⟩ := h.byteToSector hfile
  rw [readChunk, hsec]
  refine (blockRead_spec hlt).bind fun b hb => .pure ?_
  rw [hb, copyOut_eq_slice hsector, slice_append]

/-- Writing a chunk, after what comes before it. -/
theorem Device.writeChunk_spec (h : d.OnDevice dev) (hdev : dev.Written d o done buffer dev')
    (hsector : (o + done) % blockSectorSize + n ≤ blockSectorSize)
    (hfile : ((o + done : ℕ) : ℤ) < d.length) :
    (writeChunk d buffer dev' (o + done) done n).Spec r E (dev.Written d o (done + n) buffer) := by
  obtain ⟨hsec, hcovers, hlt⟩ := h.byteToSector hfile
  rw [← hdev.size] at hlt
  rw [writeChunk, hsec]
  -- what was in the sector before does not matter if all of it is replaced
  have hwrite : ∀ old : Sector, (old = dev'.disk (d.start + (o + done) / blockSectorSize) ∨
      (o + done) % blockSectorSize = 0 ∧ n = blockSectorSize) →
      (dev'.blockWrite (d.start + (o + done) / blockSectorSize)
        (patch old ((o + done) % blockSectorSize) n fun i => buffer (done + i))).Spec r E
        (dev.Written d o (done + n) buffer) := by
    intro old hold
    refine (blockWrite_spec hlt).mono fun dev'' hdev'' => ?_
    have hpatch : patch old ((o + done) % blockSectorSize) n (fun i => buffer (done + i)) =
        patch (dev'.disk (d.start + (o + done) / blockSectorSize))
          ((o + done) % blockSectorSize) n fun i => buffer (done + i) := by
      rcases hold with rfl | ⟨hofs, rfl⟩
      · rfl
      · rw [hofs]
        exact patch_full _ _ _
    rw [hdev'', hpatch]
    exact hdev.next hcovers hsector
  split
  · exact (blockRead_spec hlt).bind fun old hread => hwrite old (.inl hread)
  · exact OracleM.Spec.bind (P := fun old => old = zeros) (.pure rfl) fun old _ =>
      hwrite old (.inr (by omega))

/-- **What is read are the bytes of the file**, as many as were asked for and lie in it,
unless the bounce buffer could not be allocated. -/
theorem Device.inodeReadAt_spec (h : d.OnDevice dev) :
    (dev.inodeReadAt d size o).Spec r E fun bytes =>
      bytes = slice dev.disk d.start o bytes.length ∧
      bytes.length ≤ transferSize d.length size o ∧
      (bytes.length = transferSize d.length size o ∨
        r = true ∧ (bytes.length = 0 ∨ blockSectorSize ≤ size)) := by
  have hbody : ∀ done n bytes, bytes = slice dev.disk d.start o done → 0 < n →
      (o + done) % blockSectorSize + n ≤ blockSectorSize →
      ((o + done + n : ℕ) : ℤ) ≤ d.length →
      (dev.readChunk d bytes (o + done) done n).Spec r E fun bytes =>
        bytes = slice dev.disk d.start o (done + n) := by
    rintro done n _ rfl hn hsector hfile
    exact readChunk_spec h hsector (by omega)
  refine (transferLoop_spec hbody size.toNat false size 0 [] le_rfl rfl).bind fun v hv =>
    .pure ?_
  obtain ⟨hbytes, hle, hall⟩ := hv
  have hlength : v.2.length = v.1 := by rw [hbytes, length_slice]
  rw [Nat.zero_add] at hle hall
  rw [hlength]
  refine ⟨hbytes, hle, ?_⟩
  rcases hall with hall | ⟨hr, -, hpart⟩
  · exact .inl hall
  · exact .inr ⟨hr, hpart⟩

/-- **Writing changes the bytes that it says it has written**, and nothing else. -/
theorem Device.inodeWriteAt_spec (h : d.OnDevice dev) :
    (dev.inodeWriteAt d buffer size o).Spec r E fun v =>
      dev.Written d o v.1 buffer v.2 ∧ v.1 ≤ transferSize d.length size o ∧
      (v.1 = transferSize d.length size o ∨ r = true ∧ (v.1 = 0 ∨ blockSectorSize ≤ size)) := by
  have hbody : ∀ done n dev', dev.Written d o done buffer dev' → 0 < n →
      (o + done) % blockSectorSize + n ≤ blockSectorSize →
      ((o + done + n : ℕ) : ℤ) ≤ d.length →
      (writeChunk d buffer dev' (o + done) done n).Spec r E
        (dev.Written d o (done + n) buffer) := by
    intro done n dev' hdev hn hsector hfile
    exact writeChunk_spec h hdev hsector (by omega)
  refine (transferLoop_spec hbody size.toNat false size 0 dev le_rfl .zero).mono fun v hv => ?_
  obtain ⟨hdev, hle, hall⟩ := hv
  rw [Nat.zero_add] at hle hall
  refine ⟨hdev, hle, ?_⟩
  rcases hall with hall | ⟨hr, -, hpart⟩
  · exact .inl hall
  · exact .inr ⟨hr, hpart⟩

end

end Pintos
