import Pintos.Inode

/-!
# Scanning for Partitions

`partition_scan` follows the extended partition tables of a disk from the master boot record
on, and registers the partitions that it finds. A table is allocated before it is read and
freed after the tables that it leads to, so the recursion is bounded by how many tables there
is memory for; it panics when there is none left. What is printed is left out, and the
descriptor of a partition is assumed to find memory.

Whatever table it is asked for, `read_partition_table` reads sector 0. Inside an extended
partition it therefore finds the master boot record again, moved by the start of the
partition: either one of its entries leads on, and the recursion does not end, or they all point
past the end of the device, and its partitions are found once more. This is right only where the
extended table is a copy of the master boot record.

## Main results

* `Device.partitionScan_faithful`: disks whose partitions are found, and disks on which the scan
  does not end.
* `Device.partitionScan_diverges`: an extended partition in sector 1.
-/

namespace Pintos

open Verif Verif.Outcome List

/-! ### Tables -/

/-- `struct partition_table_entry`; the other fields are not used. -/
structure PartitionTableEntry where
  type : UInt8
  offset : UInt32
  size : UInt32
  deriving DecidableEq

/-- `struct partition_table`, without the loader. -/
structure PartitionTable where
  partitions : List PartitionTableEntry
  signature : ℕ

namespace PartitionTableEntry

def decode (b : ℕ → UInt8) : PartitionTableEntry :=
  ⟨b 4, .ofNat (word fun k => b (8 + k)), .ofNat (word fun k => b (12 + k))⟩

def isEmpty (e : PartitionTableEntry) : Bool := e.size = 0 ∨ e.type = 0

def isExtended (e : PartitionTableEntry) : Bool :=
  e.type = 0x05 ∨ e.type = 0x0f ∨ e.type = 0x85 ∨ e.type = 0xc5

end PartitionTableEntry

/-- The table in a sector. -/
def PartitionTable.decode (b : Sector) : PartitionTable where
  partitions := (range 4).map fun i =>
    .decode fun k => b (Fin.ofNat _ (446 + 16 * i + k))
  signature := (b 510).toNat + 256 * (b 511).toNat

/-! ### The scan -/

/-- What `found_partition` is called with, but for the number. -/
structure PartitionArgs where
  type : UInt8
  start : UInt32
  size : UInt32
  deriving DecidableEq

/-- The arguments for an entry of the table in a sector. -/
def PartitionTableEntry.args (p : UInt32 × PartitionTableEntry) : PartitionArgs :=
  ⟨p.2.type, p.2.offset + p.1, p.2.size⟩

/-- `*part_nr`, and the calls of `found_partition`, with the numbers that they were given. -/
structure PartitionScan where
  partNr : ℕ
  found : List (PartitionArgs × ℕ)
  deriving DecidableEq

inductive PartitionPanic where
  | noMemory
  deriving DecidableEq

namespace PartitionScan

/-- An entry of the table in a sector that is a partition. -/
def add (scan : PartitionScan) (p : UInt32 × PartitionTableEntry) : PartitionScan :=
  ⟨scan.partNr + 1, scan.found ++ [(PartitionTableEntry.args p, scan.partNr + 1)]⟩

/-- What is done with an entry of the table in a sector; `read` is `read_partition_table`. -/
def parse (read : UInt32 → UInt32 → PartitionScan → Outcome PartitionPanic PartitionScan)
    (sector primaryExtendedSector : UInt32) (scan : PartitionScan) (e : PartitionTableEntry) :
    Outcome PartitionPanic PartitionScan :=
  if e.isEmpty then
    return scan
  else if e.isExtended then
    if sector = 0 then
      read e.offset e.offset scan
    else
      read (e.offset + primaryExtendedSector) primaryExtendedSector scan
  else
    return scan.add (sector, e)

end PartitionScan

/-- `struct partition`, with the size of its block device. -/
structure DiskPartition where
  start : UInt32
  size : UInt32

namespace Device

/-- `read_partition_table`, with memory for so many tables. -/
def readPartitionTable (dev : Device) (memory : ℕ) (sector primaryExtendedSector : UInt32)
    (scan : PartitionScan) : Outcome PartitionPanic PartitionScan :=
  if dev.size ≤ sector.toNat then
    return scan
  else
    match memory with
    | 0 => .panic .noMemory
    | memory + 1 =>
      let pt := PartitionTable.decode (dev.disk 0)
      if pt.signature ≠ 0xaa55 then
        return scan
      else
        pt.partitions.foldlM
          (PartitionScan.parse (dev.readPartitionTable memory) sector primaryExtendedSector) scan

/-- `partition_scan`. -/
def partitionScan (dev : Device) (memory : ℕ) : Outcome PartitionPanic PartitionScan :=
  dev.readPartitionTable memory 0 0 ⟨0, []⟩

/-- `found_partition`: the partition that is registered. -/
def foundPartition (dev : Device) (args : PartitionArgs) : Option DiskPartition :=
  if dev.size ≤ args.start.toNat then
    none
  else if args.start + args.size < args.start ∨ dev.size < (args.start + args.size).toNat then
    none
  else
    some ⟨args.start, args.size⟩

/-- `partition_read`. -/
def partitionRead (dev : Device) (p : DiskPartition) (sector : UInt32) : FsM Sector :=
  dev.blockRead (p.start + sector).toNat

/-- `partition_write`. -/
def partitionWrite (dev : Device) (p : DiskPartition) (sector : UInt32) (data : Sector) :
    FsM Device :=
  dev.blockWrite (p.start + sector).toNat data

/-! ### What is on the disk -/

/-- There is a partition table in the sector. -/
def HasTable (dev : Device) (sector : UInt32) : Prop :=
  sector.toNat < dev.size ∧ (PartitionTable.decode (dev.disk sector.toNat)).signature = 0xaa55

instance (dev : Device) (sector : UInt32) : Decidable (dev.HasTable sector) :=
  inferInstanceAs (Decidable (_ ∧ _))

/-- **The partitions on the disk**: the entries of the table in a sector that are in use, each
with the sector of its table, those of the extended tables in the place of the entries that
lead there. There are none if the tables are nested more deeply than `depth`. -/
def partitionsFrom (dev : Device) :
    ℕ → UInt32 → UInt32 → Option (List (UInt32 × PartitionTableEntry))
  | 0, _, _ => none
  | depth + 1, sector, primary =>
    if dev.HasTable sector then do
      let parts ← (PartitionTable.decode (dev.disk sector.toNat)).partitions.mapM fun e =>
        if e.isEmpty then some []
        else if e.isExtended then
          if sector = 0 then dev.partitionsFrom depth e.offset e.offset
          else dev.partitionsFrom depth (e.offset + primary) primary
        else some [(sector, e)]
      return parts.flatten
    else some []

variable {dev : Device} {e e' : PartitionTableEntry} {scan : PartitionScan}
  {sector primary : UInt32} {memory depth : ℕ} {ps : List (UInt32 × PartitionTableEntry)}

/-- The entries of the master boot record. -/
def entries (dev : Device) : List PartitionTableEntry :=
  (PartitionTable.decode (dev.disk 0)).partitions

/-- The entry of the master boot record leads to an extended table. -/
def Leads (dev : Device) (e : PartitionTableEntry) : Prop :=
  e ∈ dev.entries ∧ e.isEmpty = false ∧ e.isExtended = true

/-- **Where the scan is right**: an entry of the master boot record that leads to a sector of the
device leads to a copy of the master boot record, no entry of which leads on. -/
def Repeats (dev : Device) : Prop :=
  dev.HasTable 0 → ∀ e, dev.Leads e → e.offset.toNat < dev.size →
    PartitionTable.decode (dev.disk e.offset.toNat) = PartitionTable.decode (dev.disk 0) ∧
    ∀ e', dev.Leads e' → dev.size ≤ (e'.offset + e.offset).toNat

/-! ### What the scan does -/

/-- Partitions are numbered as they are found. -/
theorem foldl_add (ps : List (UInt32 × PartitionTableEntry)) (scan : PartitionScan) :
    ps.foldl .add scan = ⟨scan.partNr + ps.length,
      scan.found ++ (ps.map PartitionTableEntry.args).zipIdx (scan.partNr + 1)⟩ := by
  induction ps generalizing scan with
  | nil => simp
  | cons p ps ih =>
    rw [foldl_cons, ih]
    simp [PartitionScan.add, zipIdx_cons, Nat.add_assoc, Nat.add_comm 1]

/-- The loop over the entries of a table adds the partitions that they stand for, if it does so
for each of them. -/
theorem foldlM_of_mapM {l : List PartitionTableEntry}
    {f : PartitionScan → PartitionTableEntry → Outcome PartitionPanic PartitionScan}
    {g : PartitionTableEntry → Option (List (UInt32 × PartitionTableEntry))}
    (h : ∀ e ∈ l, ∀ x, g e = some x → ∀ scan, f scan e = ok (x.foldl .add scan))
    {r : List (List (UInt32 × PartitionTableEntry))} (hr : l.mapM g = some r)
    (scan : PartitionScan) : l.foldlM f scan = ok (r.flatten.foldl .add scan) := by
  induction l generalizing r scan with
  | nil =>
    obtain rfl := Option.some.inj hr
    rfl
  | cons e l ih =>
    rw [mapM_cons, Option.bind_eq_bind, Option.bind_eq_some_iff] at hr
    obtain ⟨x, hx, hr⟩ := hr
    rw [Option.bind_eq_bind, Option.bind_eq_some_iff] at hr
    obtain ⟨r', hr', hr⟩ := hr
    obtain rfl := Option.some.inj hr
    rw [foldlM_cons, h e mem_cons_self x hx, ok_bind, flatten_cons, foldl_append]
    exact ih (fun e' he' => h e' (mem_cons_of_mem _ he')) hr' _

/-- The loop does not end if it does not end for one of the entries. -/
theorem foldlM_ne_ok {l : List PartitionTableEntry}
    {f : PartitionScan → PartitionTableEntry → Outcome PartitionPanic PartitionScan} (he : e ∈ l)
    (h : ∀ scan r, f scan e ≠ ok r) (scan r : PartitionScan) : l.foldlM f scan ≠ ok r := by
  induction l generalizing scan with
  | nil => cases he
  | cons e₀ l ih =>
    rw [foldlM_cons]
    intro hok
    obtain ⟨scan', h₁, h₂⟩ := bind_eq_ok.mp hok
    rcases mem_cons.mp he with rfl | he
    · exact h _ _ h₁
    · exact ih he _ h₂

/-- There is nothing past the end of the device. -/
theorem readPartitionTable_pastEnd (h : dev.size ≤ sector.toNat)
    (hps : dev.partitionsFrom depth sector primary = some ps) :
    dev.readPartitionTable memory sector primary scan = ok (ps.foldl .add scan) := by
  cases depth with
  | zero => cases hps
  | succ depth =>
    rw [partitionsFrom, if_neg fun htable => Nat.not_lt.mpr h htable.1] at hps
    obtain rfl := Option.some.inj hps
    rw [readPartitionTable.eq_def, if_pos h]
    rfl

theorem readPartitionTable_table (h : dev.HasTable 0) (hsector : sector.toNat < dev.size) :
    dev.readPartitionTable (memory + 1) sector primary scan =
      dev.entries.foldlM (PartitionScan.parse (dev.readPartitionTable memory) sector primary)
        scan := by
  rw [readPartitionTable.eq_def, if_neg (Nat.not_le.mpr hsector)]
  exact if_neg (not_not.mpr h.2)

/-- **The recursion does not end** once it has come from an entry of the master boot record to
its own table, if from there one of the entries leads on. -/
theorem readPartitionTable_ne_ok (h : dev.HasTable 0) (he : dev.Leads e)
    (hin : e.offset.toNat < dev.size) (he' : dev.Leads e')
    (hin' : (e'.offset + e.offset).toNat < dev.size) (hsector : sector.toNat < dev.size)
    (hbase : sector = 0 ∨ primary = e.offset) (scan r : PartitionScan) :
    dev.readPartitionTable memory sector primary scan ≠ ok r := by
  induction memory generalizing sector primary scan r with
  | zero =>
    rw [readPartitionTable.eq_def, if_neg (Nat.not_le.mpr hsector)]
    exact fun hok => by cases hok
  | succ memory ih =>
    rw [readPartitionTable_table h hsector]
    by_cases hzero : sector = 0
    · refine foldlM_ne_ok he.1 (fun scan r => ?_) scan r
      rw [PartitionScan.parse, if_neg (by simp [he.2.1]), if_pos he.2.2, if_pos hzero]
      exact ih hin (.inr rfl) scan r
    · refine foldlM_ne_ok he'.1 (fun scan r => ?_) scan r
      rw [PartitionScan.parse, if_neg (by simp [he'.2.1]), if_pos he'.2.2, if_neg hzero,
        hbase.resolve_left hzero]
      exact ih hin' (.inr rfl) scan r

/-- The partitions of the master boot record, or of a copy of it, are found, if those of the
tables are that its entries lead to. -/
theorem readPartitionTable_copy (h : dev.HasTable 0) (hsector : sector.toNat < dev.size)
    (hcopy : PartitionTable.decode (dev.disk sector.toNat) = PartitionTable.decode (dev.disk 0))
    (hnext : ∀ e, dev.Leads e → ∀ ps, (if sector = 0 then dev.partitionsFrom depth e.offset e.offset
        else dev.partitionsFrom depth (e.offset + primary) primary) = some ps → ∀ scan,
      (if sector = 0 then dev.readPartitionTable memory e.offset e.offset scan
        else dev.readPartitionTable memory (e.offset + primary) primary scan) =
          ok (ps.foldl .add scan))
    (hps : dev.partitionsFrom (depth + 1) sector primary = some ps) (scan : PartitionScan) :
    dev.readPartitionTable (memory + 1) sector primary scan = ok (ps.foldl .add scan) := by
  have htable : dev.HasTable sector := ⟨hsector, hcopy ▸ h.2⟩
  rw [partitionsFrom, if_pos htable, hcopy, Option.bind_eq_bind, Option.bind_eq_some_iff] at hps
  obtain ⟨r, hr, hps⟩ := hps
  obtain rfl := Option.some.inj hps
  rw [readPartitionTable_table h hsector]
  refine foldlM_of_mapM (fun e he x hx scan => ?_) hr scan
  rw [PartitionScan.parse]
  by_cases hempty : e.isEmpty = true
  · rw [if_pos hempty] at hx ⊢
    obtain rfl := Option.some.inj hx
    rfl
  · rw [if_neg hempty] at hx ⊢
    by_cases hext : e.isExtended = true
    · rw [if_pos hext] at hx ⊢
      exact hnext e ⟨he, Bool.eq_false_iff.mpr hempty, hext⟩ x hx scan
    · rw [if_neg hext] at hx ⊢
      obtain rfl := Option.some.inj hx
      rfl

/-- **The scan finds what is on the disk**, where it is right. -/
theorem Repeats.readPartitionTable_eq (h : dev.Repeats)
    (hps : dev.partitionsFrom depth 0 0 = some ps) (scan : PartitionScan) :
    dev.readPartitionTable (memory + 2) 0 0 scan = ok (ps.foldl .add scan) := by
  cases depth with
  | zero => cases hps
  | succ depth =>
    by_cases htable : dev.HasTable 0
    · refine readPartitionTable_copy htable htable.1 rfl (fun e he ps hps scan => ?_) hps scan
      rw [if_pos rfl] at hps ⊢
      by_cases hin : e.offset.toNat < dev.size
      · obtain ⟨hcopy, hend⟩ := h htable e he hin
        have hne : e.offset ≠ 0 := fun hzero => by
          have hle := hend e he
          rw [hzero] at hle
          exact absurd htable.1 (Nat.not_lt.mpr hle)
        cases depth with
        | zero => cases hps
        | succ depth =>
          refine readPartitionTable_copy htable hin hcopy (fun e' he' ps hps scan => ?_) hps scan
          rw [if_neg hne] at hps ⊢
          exact readPartitionTable_pastEnd (hend e' he') hps
      · exact readPartitionTable_pastEnd (Nat.not_lt.mp hin) hps
    · rw [partitionsFrom, if_neg htable] at hps
      obtain rfl := Option.some.inj hps
      rw [readPartitionTable.eq_def]
      split_ifs with hsize
      · rfl
      · exact if_pos fun hsig => htable ⟨Nat.not_le.mp hsize, hsig⟩

/-- A partition that is registered is inside the device. -/
theorem registered_inside {args : PartitionArgs} {p : DiskPartition}
    (h : dev.foundPartition args = some p) (hsector : sector < p.size) :
    (p.start + sector).toNat = p.start.toNat + sector.toNat ∧
      p.start.toNat + sector.toNat < dev.size := by
  rw [foundPartition] at h
  split at h
  · cases h
  · split at h
    · cases h
    · rename_i hstart hend
      obtain rfl := Option.some.inj h
      rw [not_or, UInt32.not_lt, Nat.not_lt, UInt32.le_iff_toNat_le, UInt32.toNat_add] at hend
      rw [UInt32.lt_iff_toNat_lt] at hsector
      have hsize := args.size.toNat_lt
      rw [UInt32.toNat_add]
      dsimp only at hsector ⊢
      omega

/-- **Which disks are scanned faithfully.** For every disk whose extended tables are nested to
some depth only: if the entries of the master boot record lead to no sector of the device, or to
copies of the master boot record that lead nowhere, `partition_scan` ends, given memory for two
tables, and has called `found_partition` once for each partition on the disk, with the sector of
its table added to its offset, and numbered in the order of the traversal. If an entry leads to a
sector of the device, and from there, read as a table that it is not, the master boot record leads
on, it does not end. On every disk the partitions that are registered are inside the device, and
reading and writing their sectors stays there. -/
theorem partitionScan_faithful (dev : Device) (depth : ℕ)
    (ps : List (UInt32 × PartitionTableEntry)) (hps : dev.partitionsFrom depth 0 0 = some ps) :
    (dev.Repeats → ∀ memory ≥ 2, dev.partitionScan memory =
      ok ⟨ps.length, (ps.map fun p => ⟨p.2.type, p.2.offset + p.1, p.2.size⟩).zipIdx 1⟩) ∧
    (dev.HasTable 0 → ∀ e e', dev.Leads e → dev.Leads e' → e.offset.toNat < dev.size →
      (e'.offset + e.offset).toNat < dev.size → ∀ memory r, dev.partitionScan memory ≠ ok r) ∧
    ∀ args p, dev.foundPartition args = some p → ∀ sector < p.size,
      p.start.toNat + sector.toNat < dev.size ∧
      (dev.partitionRead p sector).Spec true (fun _ => False)
        (· = dev.disk (p.start.toNat + sector.toNat)) ∧
      ∀ data, (dev.partitionWrite p sector data).Spec true (fun _ => False) (· = { dev with
        disk := Function.update dev.disk (p.start.toNat + sector.toNat) data }) := by
  refine ⟨fun hrepeats memory hmemory => ?_, fun htable e e' he he' hin hin' memory r => ?_,
    fun args p hp sector hsector => ?_⟩
  · obtain ⟨m, rfl⟩ := Nat.exists_eq_add_of_le' hmemory
    rw [partitionScan, hrepeats.readPartitionTable_eq hps, foldl_add, Nat.zero_add]
    rfl
  · exact readPartitionTable_ne_ok htable he hin he' hin' htable.1 (.inl rfl) _ r
  · obtain ⟨hadd, hlt⟩ := registered_inside hp hsector
    rw [partitionRead]
    refine ⟨hlt, hadd ▸ blockRead_spec (hadd ▸ hlt), fun data => ?_⟩
    rw [partitionWrite, hadd]
    exact blockWrite_spec hlt

/-- A table with two entries. -/
def sampleTable (a b : UInt8 × UInt8 × UInt8) : Sector := fun k =>
  if k = 450 then a.1 else if k = 454 then a.2.1 else if k = 458 then a.2.2
  else if k = 466 then b.1 else if k = 470 then b.2.1 else if k = 474 then b.2.2
  else if k = 510 then 0x55 else if k = 511 then 0xaa else 0

/-- A disk with tables in the first sector and in another one. -/
def sampleDisk (mbr : Sector) (sector : ℕ) (table : Sector) : Device :=
  ⟨8, fun k => if k = 0 then mbr else if k = sector then table else zeros, by decide⟩

/-- A disk with a partition and an extended partition, which has the same table. -/
def copiedDisk : Device :=
  sampleDisk (sampleTable (0x21, 2, 1) (0x05, 5, 3)) 5 (sampleTable (0x21, 2, 1) (0x05, 5, 3))

/-- The partition in the extended table is found. -/
theorem partitionScan_faithful_copied : copiedDisk.Repeats ∧
    copiedDisk.partitionScan 2 = ok ⟨2, [(⟨0x21, 2, 1⟩, 1), (⟨0x21, 7, 1⟩, 2)]⟩ := by
  have hleads : ∀ e ∈ copiedDisk.entries, e.isExtended = true → e = ⟨0x05, 5, 3⟩ := by
    decide
  have hrepeats : copiedDisk.Repeats := by
    intro _ e he _
    obtain rfl := hleads e he.1 he.2.2
    refine ⟨rfl, fun e' he' => ?_⟩
    obtain rfl := hleads e' he'.1 he'.2.2
    decide
  exact ⟨hrepeats, (partitionScan_faithful copiedDisk 3
    [(0, ⟨0x21, 2, 1⟩), (5, ⟨0x21, 2, 1⟩)] (by decide)).1 hrepeats 2 le_rfl⟩

/-- **A partition in an extended table is not found**: the scan of a disk with one partition,
in an extended table in sector 1, does not end. -/
theorem partitionScan_diverges :
    ¬∀ (dev : Device) (depth : ℕ) (ps : List (UInt32 × PartitionTableEntry)),
      dev.partitionsFrom depth 0 0 = some ps → ∃ tables, ∀ memory ≥ tables,
        dev.partitionScan memory =
          ok ⟨ps.length, (ps.map fun p => ⟨p.2.type, p.2.offset + p.1, p.2.size⟩).zipIdx 1⟩ := by
  intro h
  let dev := sampleDisk (sampleTable (0x05, 1, 4) (0, 0, 0)) 1
    (sampleTable (0x21, 1, 2) (0, 0, 0))
  obtain ⟨tables, hscan⟩ := h dev 2 [(1, ⟨0x21, 1, 2⟩)] (by decide)
  have he : dev.Leads ⟨0x05, 1, 4⟩ := ⟨by decide, rfl, rfl⟩
  exact readPartitionTable_ne_ok (by decide) he (by decide) he (by decide) (by decide) (.inl rfl)
    _ _ (hscan tables le_rfl)

end Device

end Pintos
