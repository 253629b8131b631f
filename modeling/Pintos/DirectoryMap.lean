import Pintos.DirectoryCalls

/-!
# A Directory is a Finite Map

A directory that `dir_create` has made, for any number of entries, is opened and used: names
are added, removed, looked up and listed in any order, with all the memory that these calls
want. In every state that is reached the entries in use are a finite map from names to the
sectors of inodes, and each call does to the map what it is for. A call can fail an assertion
only about the inode that a name is mapped to: its sector is past the end of the device, or
its sectors are not marked when they are freed.

## Main results

* `DirState.Inv.perform`: what a call does to the map.
* `directory_refines_map`: the same, in every state that is reached; and listing the names
  yields every name of the map once.
-/

namespace Pintos

open Verif Outcome

/-! ### The state -/

/-- A `struct dir` that is open, and the inodes that `dir_lookup` has opened since. -/
structure DirState where
  fs : Fs
  dir : InodeRef
  pos : ℕ
  raw : List InodeRef

/-- A call on the directory, or the `inode_close` of an inode that was looked up. -/
inductive DirOp where
  | add (name : CString) (sector : UInt32) (stack : DirEntry)
  | remove (name : CString)
  | lookup (name : CString)
  | readdir
  | close (r : InodeRef)

/-- What a call returns. -/
inductive DirResult where
  | success (b : Bool)
  | entry (name : Option (List UInt8))
  | closed
  deriving DecidableEq, Repr

/-- The loop of `fsutil_ls`: the names that `dir_readdir` yields until it fails. -/
def Fs.readdirAll (s : Fs) (dir : InodeRef) : (fuel : ℕ) → (pos : ℕ) → FsM (List (List UInt8))
  | 0, _ => return []
  | fuel + 1, pos => do
    let (name, pos) ← s.dirReaddir dir pos
    match name with
    | none => return []
    | some name => do
      let names ← readdirAll s dir fuel pos
      return name :: names

namespace DirState

/-- The inodes that are closed are those that were looked up. -/
def Has (d : DirState) : DirOp → Prop
  | .close r => r ∈ d.raw
  | _ => True

instance (d : DirState) (op : DirOp) : Decidable (d.Has op) :=
  match op with
  | .add _ _ _ => inferInstanceAs (Decidable True)
  | .remove _ => inferInstanceAs (Decidable True)
  | .lookup _ => inferInstanceAs (Decidable True)
  | .readdir => inferInstanceAs (Decidable True)
  | .close r => inferInstanceAs (Decidable (r ∈ d.raw))

/-- What a call does. -/
def perform (d : DirState) : DirOp → FsM (DirResult × DirState)
  | .add name sector stack => do
    let (success, fs) ← d.fs.dirAdd d.dir name sector.toNat stack
    return (.success success, { d with fs := fs })
  | .remove name => do
    let (success, fs) ← d.fs.dirRemove d.dir name
    return (.success success, { d with fs := fs })
  | .lookup name => do
    let (inode, fs) ← d.fs.dirLookup d.dir name
    match inode with
    | none => return (.success false, { d with fs := fs })
    | some r => return (.success true, { d with fs := fs, raw := r :: d.raw })
  | .readdir => do
    let (name, pos) ← d.fs.dirReaddir d.dir d.pos
    return (.entry name, { d with pos := pos })
  | .close r => do
    let fs ← d.fs.inodeClose r
    return (.closed, { d with fs := fs, raw := d.raw.erase r })

/-- A call that gets all the memory that it wants. -/
def step (d : DirState) (op : DirOp) : Outcome FsPanic DirState := do
  Outcome.require (d.Has op)
  let ((_, d'), _) ← d.perform op []
  return d'

/-- The directory's inode. -/
def data (d : DirState) : InodeDisk :=
  match d.fs.openInodes.find? (·.ref = d.dir) with
  | some i => i.data
  | none => ⟨0, 0, 0⟩

/-- The entries. -/
def table (d : DirState) : SlotTable (List UInt8) ℕ := d.fs.dirTable d.data

/-- **The map**, from the names of the entries in use to the sectors of their inodes. -/
def map (d : DirState) : List UInt8 → Option ℕ := d.table.find

/-! ### What the calls are for -/

/-- A name can be added if it is one, and not there yet, and there is a slot for it. -/
def Addable (d : DirState) (name : CString) : Prop :=
  name.1 ≠ [] ∧ name.1.length ≤ nameMax ∧ d.map name.1 = none ∧ none ∈ d.table

/-- **What a call does to the map**, and what it returns. A call that fails changes nothing;
only if the directory's length is not a multiple of the size of an entry, `dir_add` may have
written what follows the last entry. -/
def Meets (d : DirState) : DirOp → DirResult → DirState → Prop
  | .add name sector _, result, d' => ∃ b, result = .success b ∧ (b = true ↔ d.Addable name) ∧
      (b = true → d'.map = Function.update d.map name.1 (some sector.toNat)) ∧
      (b = false → d'.map = d.map ∧ (dirEntrySize ∣ d.data.length.toNat → d' = d))
  | .remove name, result, d' => ∃ b, result = .success b ∧ (b = true ↔ (d.map name.1).isSome) ∧
      (b = true → d'.map = Function.update d.map name.1 none) ∧ (b = false → d' = d)
  | .lookup name, result, d' => ∃ b, result = .success b ∧ (b = true ↔ (d.map name.1).isSome) ∧
      d'.map = d.map ∧ (b = false → d' = d) ∧
      (b = true → ∃ r, d'.raw = r :: d.raw ∧ ∃ i ∈ d'.fs.openInodes, i.ref = r ∧
        d.map name.1 = some i.sector)
  | .readdir, result, d' => d'.map = d.map ∧ ∃ n, result = .entry n ∧
      ∀ name ∈ n, (d.map name).isSome
  | .close _, result, d' => d'.map = d.map ∧ result = .closed

/-- The assertions that a call may fail: they are about the inode that a name is mapped to, or
about one that is closed. -/
def Faults (d : DirState) : DirOp → FsPanic → Prop
  | .lookup name, e => e = .pastEnd ∧ ∃ x, d.map name.1 = some x ∧ d.fs.device.size ≤ x
  | .remove name, e => ∃ x, d.map name.1 = some x ∧
      (e = .pastEnd ∧ d.fs.device.size ≤ x ∨
        (e = .bitmapRange ∨ e = .bitmapAll) ∧ d.fs.Unfreeable x)
  | .close r, e => (e = .bitmapRange ∨ e = .bitmapAll) ∧
      ∃ i ∈ d.fs.openInodes, i.ref = r ∧ d.fs.Stuck i
  | _, _ => False

/-! ### The invariant -/

variable {d d' : DirState} {D : InodeDisk} {held : List InodeRef}

theorem data_eq (h : d.fs.Hosts held d.dir D) : d.data = D := by
  obtain ⟨i, hi, hdata, -⟩ := h.directory.inode
  rw [data, hi]
  exact hdata

theorem map_eq (h : d.fs.Hosts held d.dir D) : d.map = (d.fs.dirTable D).find := by
  rw [map, table, data_eq h]

/-- **The invariant**: the directory is open, no two of its entries have the same name, their
names are not too long, and the position is that of an entry. -/
structure Inv (d : DirState) : Prop where
  hosts : d.fs.Hosts d.raw d.dir d.data
  distinct : d.table.Distinct
  names : ∀ n ∈ d.table.keys, n.length ≤ nameMax
  pos : ∃ j ≤ Fs.entryCnt d.data, d.pos = j * dirEntrySize

/-- The invariant in terms of the directory's inode. -/
theorem inv_of (h : d.fs.Hosts d.raw d.dir D) (hdistinct : (d.fs.dirTable D).Distinct)
    (hnames : ∀ n ∈ (d.fs.dirTable D).keys, n.length ≤ nameMax)
    (hpos : ∃ j ≤ Fs.entryCnt D, d.pos = j * dirEntrySize) : d.Inv := by
  obtain rfl := data_eq h
  exact ⟨h, hdistinct, hnames, hpos⟩

/-- The entries are what they were. -/
theorem Inv.of_table (h : d.Inv) (d' : DirState) (h' : d'.fs.Hosts d'.raw d'.dir d.data)
    (htable : d'.fs.dirTable d.data = d.table)
    (hpos : ∃ j ≤ Fs.entryCnt d.data, d'.pos = j * dirEntrySize) : d'.Inv ∧ d'.map = d.map := by
  refine ⟨inv_of h' ?_ ?_ hpos, ?_⟩
  · rw [htable]
    exact h.distinct
  · rw [htable]
    exact h.names
  · rw [map_eq h', htable]
    rfl

theorem Inv.map_eq_some (h : d.Inv) {n : List UInt8} {x j : ℕ}
    (hj : (d.fs.dirTable d.data)[j]? = some (some (n, x))) : d.map n = some x :=
  (SlotTable.find_eq_some h.distinct).mpr ⟨j, hj⟩

theorem Inv.map_eq_none (h : d.Inv) {n : List UInt8} : d.map n = none ↔ n ∉ d.table.keys :=
  SlotTable.find_eq_none h.distinct

/-- A write of nothing. -/
theorem eq_of_diskChange {s s' : Fs} (h : Fs.DiskChange (fun _ => False) s s') : s' = s := by
  have hext : ∀ {a b : Device}, a.size = b.size → a.disk = b.disk → a = b := by
    rintro ⟨_, _, _⟩ ⟨_, _, _⟩ rfl rfl
    rfl
  have hdevice : s'.device = s.device := hext h.size (funext fun k => h.disk k id)
  rw [h.same, hdevice]

/-! ### The calls -/

/-- `dir_add`. -/
theorem Inv.add (h : d.Inv) (name : CString) (sector : UInt32) (stack : DirEntry) :
    (d.perform (.add name sector stack)).Spec false (d.Faults (.add name sector stack)) fun v =>
      v.2.Inv ∧ d.Meets (.add name sector stack) v.1 v.2 := by
  refine (h.hosts.dirAdd name sector.toNat_lt stack).bind fun v hv => .pure ?_
  obtain ⟨b, fs⟩ := v
  obtain ⟨hhosts, hv⟩ := hv
  rcases hv with ⟨rfl, ⟨hne, hle, habsent⟩, j, hj, htable⟩ | ⟨rfl, hcase, hs⟩
  · have hlt := (List.getElem?_eq_some_iff.mp hj).1
    have hmap := SlotTable.find_fill (v := sector.toNat) h.distinct hj habsent
    refine ⟨inv_of hhosts ?_ ?_ h.pos, true, rfl, iff_of_true rfl ?_, fun _ => ?_, fun hb => ?_⟩
    · rw [htable]
      exact h.distinct.fill hlt habsent
    · intro n hn
      rw [htable, SlotTable.mem_keys_iff] at hn
      obtain ⟨i, x, hi⟩ := hn
      rw [SlotTable.getElem?_fill hlt] at hi
      split at hi
      · cases hi
        exact hle
      · exact h.names n (SlotTable.mem_keys_iff.mpr ⟨i, x, hi⟩)
    · exact ⟨hne, hle, h.map_eq_none.mpr habsent, List.mem_of_getElem? hj⟩
    · rw [map_eq hhosts, htable]
      exact hmap
    · cases hb
  · obtain ⟨hinv, hmap⟩ := h.of_table { d with fs := fs } hhosts
      (Fs.dirTable_congr hs.entries) h.pos
    refine ⟨hinv, false, rfl, iff_of_false Bool.false_ne_true ?_, fun hb => ?_, fun _ => ⟨hmap, ?_⟩⟩
    · rintro ⟨hne, hle, habsent, hfree⟩
      rcases hcase with hnil | hlong | hmem | hfull
      · exact hne hnil
      · exact absurd hle (Nat.not_le_of_lt hlong)
      · exact h.map_eq_none.mp habsent hmem
      · exact hfull hfree
    · cases hb
    · intro hdvd
      rw [eq_of_diskChange (hs.whole hdvd)]

/-- `dir_remove`. -/
theorem Inv.remove (h : d.Inv) (name : CString) :
    (d.perform (.remove name)).Spec false (d.Faults (.remove name)) fun v =>
      v.2.Inv ∧ d.Meets (.remove name) v.1 v.2 := by
  have hE : ∀ (j x : ℕ), (d.fs.dirTable d.data)[j]? = some (some (name.1, x)) →
      (d.fs.device.size ≤ x → d.Faults (.remove name) .pastEnd) ∧
      (d.fs.Unfreeable x → d.Faults (.remove name) .bitmapRange ∧
        d.Faults (.remove name) .bitmapAll) := by
    intro j x hj
    have hmap := h.map_eq_some hj
    exact ⟨fun hle => ⟨x, hmap, .inl ⟨rfl, hle⟩⟩, fun hfree =>
      ⟨⟨x, hmap, .inr ⟨.inl rfl, hfree⟩⟩, ⟨x, hmap, .inr ⟨.inr rfl, hfree⟩⟩⟩⟩
  refine (h.hosts.dirRemove hE).bind fun v hv => .pure ?_
  obtain ⟨b, fs⟩ := v
  obtain ⟨hhosts, hv⟩ := hv
  rcases hv with ⟨rfl, j, x, hj, htable⟩ | ⟨rfl, habsent, rfl⟩
  · have hlt := (List.getElem?_eq_some_iff.mp hj).1
    refine ⟨inv_of hhosts ?_ ?_ h.pos, true, rfl, iff_of_true rfl ?_, fun _ => ?_, fun hb => ?_⟩
    · rw [htable]
      exact h.distinct.clear hlt
    · intro n hn
      rw [htable, SlotTable.mem_keys_iff] at hn
      obtain ⟨i, y, hi⟩ := hn
      rw [SlotTable.getElem?_fill hlt] at hi
      split at hi
      · cases hi
      · exact h.names n (SlotTable.mem_keys_iff.mpr ⟨i, y, hi⟩)
    · rw [h.map_eq_some hj]
      rfl
    · rw [map_eq hhosts, htable]
      exact SlotTable.find_clear h.distinct hj
    · cases hb
  · refine ⟨h, false, rfl, iff_of_false Bool.false_ne_true ?_, fun hb => ?_, fun _ => rfl⟩
    · rw [h.map_eq_none.mpr habsent]
      exact Bool.false_ne_true
    · cases hb

/-- `dir_lookup`. -/
theorem Inv.lookup (h : d.Inv) (name : CString) :
    (d.perform (.lookup name)).Spec false (d.Faults (.lookup name)) fun v =>
      v.2.Inv ∧ d.Meets (.lookup name) v.1 v.2 := by
  have hE : ∀ (j x : ℕ), (d.fs.dirTable d.data)[j]? = some (some (name.1, x)) →
      d.fs.device.size ≤ x → d.Faults (.lookup name) .pastEnd := fun j x hj hle =>
    ⟨rfl, x, h.map_eq_some hj, hle⟩
  refine (h.hosts.dirLookup hE).bind fun v hv => ?_
  obtain ⟨ref, fs⟩ := v
  cases ref with
  | none =>
    obtain ⟨habsent, rfl⟩ := hv
    refine .pure ⟨h, false, rfl, iff_of_false Bool.false_ne_true ?_, rfl, fun _ => rfl,
      fun hb => ?_⟩
    · rw [h.map_eq_none.mpr habsent]
      exact Bool.false_ne_true
    · cases hb
  | some ref =>
    obtain ⟨hhosts, hdevice, i, hi, href, j, hj⟩ := hv
    have htable : fs.dirTable d.data = d.table :=
      Fs.dirTable_congr fun _ _ _ _ => by rw [Fs.entryOf, Fs.entryOf, hdevice]
    obtain ⟨hinv, hmap⟩ := h.of_table { d with fs := fs, raw := ref :: d.raw } hhosts
      htable h.pos
    refine .pure ⟨hinv, true, rfl, iff_of_true rfl ?_, hmap, fun hb => ?_,
      fun _ => ⟨ref, rfl, i, hi, href, h.map_eq_some hj⟩⟩
    · rw [h.map_eq_some hj]
      rfl
    · cases hb

/-- `dir_readdir`. -/
theorem Inv.readdir (h : d.Inv) :
    (d.perform .readdir).Spec false (d.Faults .readdir) fun v =>
      v.2.Inv ∧ d.Meets .readdir v.1 v.2 := by
  obtain ⟨j, hj, hpos⟩ := h.pos
  rw [perform, hpos]
  refine (h.hosts.dirReaddir hj h.names).bind fun v hv => .pure ?_
  obtain ⟨n, pos⟩ := v
  obtain ⟨j', hj', hpos', hv⟩ := hv
  obtain ⟨hinv, hmap⟩ := h.of_table { d with pos := pos } h.hosts rfl ⟨j', hj', hpos'⟩
  refine ⟨hinv, hmap, n, rfl, fun name hname => ?_⟩
  obtain rfl := Option.mem_def.mp hname
  -- the name is one of those from the position on
  have hmem : name ∈ SlotTable.keys ((d.fs.dirTable d.data).drop j) := by
    rw [hv.2]
    exact List.mem_cons_self
  refine (SlotTable.mem_keys h.distinct).mp ?_
  exact (List.drop_sublist j _).filterMap _ |>.subset hmem

/-- `inode_close`. -/
theorem Inv.close (h : d.Inv) {r : InodeRef} (hr : r ∈ d.raw) :
    (d.perform (.close r)).Spec false (d.Faults (.close r)) fun v =>
      v.2.Inv ∧ d.Meets (.close r) v.1 v.2 := by
  obtain ⟨i, hi, rfl⟩ := h.hosts.balanced.accounts.holds r (List.mem_cons_of_mem _ hr)
  have hhosts : d.fs.Hosts (i.ref :: d.raw.erase i.ref) d.dir d.data :=
    ⟨h.hosts.balanced.perm ((List.perm_cons_erase hr).cons _), h.hosts.data, h.hosts.within,
      h.hosts.files, h.hosts.apart⟩
  refine (hhosts.inodeClose hi fun hstuck => ?_).bind fun fs hs => .pure ?_
  · exact ⟨⟨.inl rfl, i, hi, rfl, hstuck⟩, ⟨.inr rfl, i, hi, rfl, hstuck⟩⟩
  · obtain ⟨hinv, hmap⟩ := h.of_table { d with fs := fs, raw := d.raw.erase i.ref } hs.1
      (hhosts.table hs.2) h.pos
    exact ⟨hinv, hmap, rfl⟩

/-- **What a call does to the map.** -/
theorem Inv.perform (h : d.Inv) {op : DirOp} (hop : d.Has op) :
    (d.perform op).Spec false (d.Faults op) fun v => v.2.Inv ∧ d.Meets op v.1 v.2 := by
  cases op with
  | add name sector stack => exact h.add name sector stack
  | remove name => exact h.remove name
  | lookup name => exact h.lookup name
  | readdir => exact h.readdir
  | close r => exact h.close hop

/-- Listing the names from a position on. -/
theorem Inv.readdirAll (h : d.Inv) {E : FsPanic → Prop} {fuel j : ℕ}
    (hj : j ≤ Fs.entryCnt d.data) (hfuel : Fs.entryCnt d.data < j + fuel) :
    (d.fs.readdirAll d.dir fuel (j * dirEntrySize)).Spec false E fun names =>
      names = SlotTable.keys (d.table.drop j) := by
  induction fuel generalizing j with
  | zero => omega
  | succ fuel ih =>
    rw [Fs.readdirAll]
    refine (h.hosts.dirReaddir hj h.names).bind fun v hv => ?_
    obtain ⟨n, pos⟩ := v
    obtain ⟨j', hj', hpos, hv⟩ := hv
    cases n with
    | none => exact .pure hv.symm
    | some n =>
      obtain ⟨hlt, hkeys⟩ := hv
      dsimp only at hpos ⊢
      rw [hpos]
      refine (ih hj' (by omega)).bind fun names hnames => .pure ?_
      rw [hnames]
      exact hkeys.symm

/-! ### Runs -/

theorem Inv.step {op : DirOp} (h : d.Inv) (hstep : d.step op = .ok d') : d'.Inv := by
  rw [DirState.step, require_bind_eq_ok] at hstep
  obtain ⟨hop, hstep⟩ := hstep
  obtain ⟨v, hv, hd⟩ := bind_eq_ok.mp hstep
  obtain rfl : v.1.2 = d' := ok.inj hd
  rcases (h.perform hop).run_or with ⟨w, hw, hinv, -⟩ | ⟨e, he, -⟩
  · obtain rfl : v = (w, []) := ok.inj (hv.symm.trans hw)
    exact hinv
  · cases hv.symm.trans he

end DirState

/-- The states of a directory that `dir_create` has made for a number of entries, and that was
opened. -/
def DirReachable (d : DirState) : Prop :=
  ∃ (s : Fs) (sector entryCnt : ℕ) (s₁ s₂ : Fs) (dir : InodeRef), s.Prepared sector ∧
    s.dirCreate sector entryCnt [] = .ok ((true, s₁), []) ∧
    (s₁.inodeOpen sector >>= fun v => v.2.dirOpen v.1) [] = .ok ((some dir, s₂), []) ∧
    Reachable DirState.step (fun _ _ => True) ⟨s₂, dir, 0, []⟩ d

/-- **The invariant holds in every state that is reached.** -/
theorem DirReachable.inv {d : DirState} (h : DirReachable d) : d.Inv := by
  obtain ⟨s, sector, entryCnt, s₁, s₂, dir, hprepared, hcreate, hopen, hrun⟩ := h
  rw [Fs.dirCreate] at hcreate
  have hlaid : ∃ D, s₁.Laid sector D := by
    rcases (hprepared.inodeCreate (int32_bounds _).2).run_or with ⟨v, hv, hD⟩ | ⟨e, he, -⟩
    · rw [hcreate, ok.injEq, Prod.mk.injEq] at hv
      rw [← hv.1] at hD
      exact hD rfl
    · rw [hcreate] at he
      cases he
  obtain ⟨D, hlaid⟩ := hlaid
  have hhosts : s₂.Hosts [] dir D ∧ s₂.device = s₁.device := by
    rcases hlaid.open.run_or with ⟨v, hv, hD⟩ | ⟨e, he, -⟩
    · obtain rfl : (some dir, s₂) = v := (Prod.mk.inj (ok.inj (hopen.symm.trans hv))).1
      exact hD dir rfl
    · cases hopen.symm.trans he
  obtain ⟨hhosts, hdevice⟩ := hhosts
  have hempty : ∀ (j : ℕ) (p : List UInt8 × ℕ), (s₂.dirTable D)[j]? ≠ some (some p) := by
    have hsame : s₂.dirTable D = s₁.dirTable D :=
      Fs.dirTable_congr fun _ _ _ _ => by rw [Fs.entryOf, Fs.entryOf, hdevice]
    rw [hsame]
    exact hlaid.table
  refine hrun.invariant (I := DirState.Inv) ?_ fun d op d' hinv _ hstep => hinv.step hstep
  refine DirState.inv_of (D := D) hhosts (fun i j n x y hi _ => absurd hi (hempty i _)) ?_
    ⟨0, Nat.zero_le _, rfl⟩
  intro n hn
  obtain ⟨j, x, hj⟩ := SlotTable.mem_keys_iff.mp hn
  exact absurd hj (hempty j _)

/-- **A directory refines a finite map.** In every state that is reached, no two entries in use
have the same name; a call does to the map what it is for, or fails an assertion about the inode
that the name is mapped to; and listing the names from the beginning yields every name of the map
once. -/
theorem directory_refines_map {d : DirState} (hreach : DirReachable d) :
    d.table.keys.Nodup ∧
    (∀ op, d.Has op →
      (∃ result d', d.perform op [] = .ok ((result, d'), []) ∧ d.Meets op result d') ∨
      ∃ e, d.perform op [] = .panic e ∧ d.Faults op e) ∧
    ∀ fuel, Fs.entryCnt d.data < fuel → ∃ names, d.fs.readdirAll d.dir fuel 0 [] = .ok (names, []) ∧
      names.Nodup ∧ ∀ n, n ∈ names ↔ (d.map n).isSome := by
  have hinv := hreach.inv
  refine ⟨SlotTable.nodup_keys hinv.distinct, fun op hop => ?_, fun fuel hfuel => ?_⟩
  · rcases (hinv.perform hop).run_or with ⟨⟨result, d'⟩, hv, -, hmeets⟩ | hpanic
    · exact .inl ⟨result, d', hv, hmeets⟩
    · exact .inr hpanic
  · have hlist := hinv.readdirAll (E := fun _ => False) (Nat.zero_le _)
      (hfuel.trans_le (Nat.zero_add fuel).ge)
    rw [Nat.zero_mul] at hlist
    obtain ⟨names, hrun, rfl⟩ := hlist.run
    exact ⟨_, hrun, SlotTable.nodup_keys hinv.distinct, fun n => SlotTable.mem_keys hinv.distinct⟩

/-- On a device that was just formatted a directory can be made in place of the root directory. -/
theorem Fs.Formatted.prepared {s : Fs} (h : s.Formatted) : s.Prepared rootDirSector := by
  obtain ⟨i, f, hmounted⟩ := h.mounted
  have hspace := h.inv.space
  have hwithin := (hspace.within _ s.live_freeMap).2
  refine ⟨hmounted.balanced hwithin, fun j hj => ?_, ?_, fun f' j hmap k hk => ?_⟩
  · rw [hmounted.inodes, List.mem_singleton] at hj
    rw [hj, hmounted.sector]
    decide
  · exact hspace.marked _ _ s.live_rootDir (s.occupies_self _)
  · rw [← (hmounted.mapFile hwithin).unique hmap, hmounted.data] at hk
    refine ⟨fun heq => ?_, hspace.marked _ k s.live_freeMap (.inr hk)⟩
    rw [heq] at hk
    cases hspace.disjoint _ _ _ s.live_freeMap s.live_rootDir (.inr hk) (s.occupies_self _)

/-- Calls on a directory for so many entries, on a small device that was just formatted. -/
def sampleDirectory (entryCnt : ℕ) (ops : List DirOp) : Outcome FsPanic DirState := do
  let (s, _) ← Fs.filesysInit Fs.blankDevice (fun _ => false) []
  let ((created, s₁), rest) ← s.dirCreate rootDirSector entryCnt []
  Outcome.require (created = true ∧ rest = [])
  let ((dir, s₂), rest) ← (s₁.inodeOpen rootDirSector >>= fun v => v.2.dirOpen v.1) []
  Outcome.require (dir.isSome ∧ rest = [])
  exec DirState.step ⟨s₂, dir.getD 0, 0, []⟩ ops

theorem sampleDirectory_reachable {entryCnt : ℕ} {ops : List DirOp} {d : DirState}
    (hrun : sampleDirectory entryCnt ops = .ok d) : DirReachable d := by
  obtain ⟨⟨s, rest₀⟩, hinit, hrun⟩ := bind_eq_ok.mp hrun
  obtain ⟨⟨⟨created, s₁⟩, rest₁⟩, hcreate, hrun⟩ := bind_eq_ok.mp hrun
  obtain ⟨⟨hcreated, hrest₁⟩, hrun⟩ := require_bind_eq_ok.mp hrun
  obtain ⟨⟨⟨dir, s₂⟩, rest₂⟩, hopen, hrun⟩ := bind_eq_ok.mp hrun
  obtain ⟨⟨hdir, hrest₂⟩, hrun⟩ := require_bind_eq_ok.mp hrun
  obtain ⟨dir, rfl⟩ := Option.isSome_iff_exists.mp hdir
  rw [hcreated, hrest₁] at hcreate
  rw [hrest₂] at hopen
  have hformatted := (Fs.filesysInit_spec _ _).of_eq_ok hinit
  exact ⟨s, rootDirSector, entryCnt, s₁, s₂, dir, hformatted.prepared, hcreate, hopen, _,
    .of_exec hrun⟩

/-- In a directory with room for three entries a name was added and removed, and another one
added. -/
theorem directory_refines_map_removed : ∃ d : DirState, DirReachable d ∧
    d.map [98] = some 7 ∧ d.map [97] = none ∧
    ∃ names, d.fs.readdirAll d.dir 4 0 [] = .ok (names, []) ∧ names.Nodup ∧ [98] ∈ names ∧
      [97] ∉ names := by
  have htest : (sampleDirectory 3 [.add ⟨[97], by decide⟩ 3 (fun _ => 0),
      .add ⟨[98], by decide⟩ 7 (fun _ => 0), .remove ⟨[97], by decide⟩]).test
      (fun d => decide (d.map [98] = some 7 ∧ d.map [97] = none ∧ Fs.entryCnt d.data < 4)) =
      true := by
    decide +kernel
  obtain ⟨d, hrun, hd⟩ := Outcome.of_test htest
  obtain ⟨hb, ha, hcnt⟩ := of_decide_eq_true hd
  have hreach := sampleDirectory_reachable hrun
  obtain ⟨names, hnames, hnodup, hmem⟩ := (directory_refines_map hreach).2.2 4 hcnt
  refine ⟨d, hreach, hb, ha, names, hnames, hnodup, (hmem _).mpr ?_, fun h => ?_⟩
  · rw [hb]
    rfl
  · have := (hmem _).mp h
    rw [ha] at this
    cases this

end Pintos
