import Pintos.FixedPoint
import Pintos.Swap

/-!
# The Swap Device

The functions of `vm/swap.c` down to the sectors of the device. Slots are numbered by an `int`,
sectors by 32 bits without a sign, and the slot that `bitmap_scan` fails to find is number -1,
the sectors of which are past the end of the device. A panic keeps the state of the device in
which it happens. Pages are given by their contents: they are pages of the kernel, which is what
the functions assert about them.

## Main results

* `SwapDevice.swapOut_eq`, `SwapDevice.swapIn_eq`: the calls are those of the swap area.
* `swap_roundTrip`: what was swapped out is swapped in, in any sequence of calls.
-/

namespace Pintos

open Verif Verif.Outcome Function List

/-- The swap device, `swap_available` and `swap_size`. The device is a disk or a partition of
one, and `ide.c` registers no disk of a gigabyte or more. -/
structure SwapDevice where
  size : ℕ
  size_lt : size < 2 ^ 21
  area : SwapArea

/-- A computation that may panic, in some state of the device. -/
abbrev SwapM := Outcome (SwapPanic × SwapDevice)

/-- The page after a sector was read to `page + BLOCK_SECTOR_SIZE * j`. -/
def putSector (page : Page) (j : ℕ) (data : Sector) : Page := fun i =>
  if i.val / blockSectorSize = j then data ⟨i % blockSectorSize, sectorOfs_lt i⟩
  else page i

namespace SwapDevice

/-- The device after the swap area changed. -/
def withArea (s : SwapDevice) (area : SwapArea) : SwapDevice := { s with area := area }

/-- A call on the swap area, as one on the device. -/
def lift {α β : Type} (s : SwapDevice) (f : α → β) :
    Outcome SwapPanic (SwapArea × α) → SwapM (SwapDevice × β)
  | .ok (area, x) => .ok (s.withArea area, f x)
  | .blocked => .blocked
  | .panic e => .panic (e, s)

/-- `swap_size`. -/
def swapSize (s : SwapDevice) : ℕ := s.size / sectorsPerPage

/-- `block_write`. -/
def blockWrite (s : SwapDevice) (sector : ℤ) (data : Sector) : SwapM SwapDevice := do
  ensure ((sector % 2 ^ 32).toNat < s.size) (.pastEnd, s)
  return s.withArea { s.area with
    disk := update s.area.disk (sector % 2 ^ 32).toNat data }

/-- `block_read`. -/
def blockRead (s : SwapDevice) (sector : ℤ) : SwapM Sector := do
  ensure ((sector % 2 ^ 32).toNat < s.size) (.pastEnd, s)
  return s.area.disk (sector % 2 ^ 32).toNat

/-- `bitmap_set (swap_available, …)`. -/
def bitmapSet (s : SwapDevice) (i : ℤ) (value : Bool) : SwapM SwapDevice := do
  ensure ((i % 2 ^ 32).toNat < s.swapSize) (.bitIndex, s)
  return s.withArea { s.area with
    available := update s.area.available (i % 2 ^ 32).toNat value }

/-- `swap_out`. -/
def swapOut (s : SwapDevice) (page : Page) : SwapM (SwapDevice × ℤ) := do
  let swapIndex := int32 ((Bitmap.scan s.area.available s.swapSize 1 true).getD (2 ^ 32 - 1))
  let s ← (range sectorsPerPage).foldlM
    (fun s i => s.blockWrite (swapIndex * sectorsPerPage + i) (sectorOf page i)) s
  let s ← s.bitmapSet swapIndex false
  return (s, swapIndex)

/-- The checks of `swap_in` and `swap_free`. -/
def checkSlot (s : SwapDevice) (swapIndex : ℤ) : SwapM Unit := do
  ensure (swapIndex < s.swapSize) (.slotRange, s)
  ensure ((swapIndex % 2 ^ 32).toNat < s.swapSize) (.bitIndex, s)
  ensure (s.area.available (swapIndex % 2 ^ 32).toNat = false) (.unassigned, s)

/-- `swap_in`. -/
def swapIn (s : SwapDevice) (swapIndex : ℤ) (page : Page) : SwapM (SwapDevice × Page) := do
  s.checkSlot swapIndex
  let page ← (range sectorsPerPage).foldlM (fun page (i : ℕ) => do
    let data ← s.blockRead (swapIndex * sectorsPerPage + i)
    return putSector page i data) page
  let s ← s.bitmapSet swapIndex true
  return (s, page)

/-- `swap_free`. -/
def swapFree (s : SwapDevice) (swapIndex : ℤ) : SwapM SwapDevice := do
  s.checkSlot swapIndex
  s.bitmapSet swapIndex true

variable {s : SwapDevice} {n j m : ℕ} {page : Page}

/-! ### The calls -/

/-- The sectors of a slot are on the device. -/
theorem sector_eq (hn : n < s.swapSize) (hj : j < sectorsPerPage) :
    ((n * sectorsPerPage + j : ℤ) % 2 ^ 32).toNat = n * sectorsPerPage + j ∧
      n * sectorsPerPage + j < s.size := by
  have hsize := s.size_lt
  rw [swapSize] at hn
  rw [show sectorsPerPage = 8 from rfl] at hn hj ⊢
  omega

theorem index_eq (hn : n < s.swapSize) : ((n : ℤ) % 2 ^ 32).toNat = n := by
  have hsize := s.size_lt
  rw [swapSize, show sectorsPerPage = 8 from rfl] at hn
  omega

theorem bitmapSet_eq (hn : n < s.swapSize) (value : Bool) :
    s.bitmapSet n value =
      ok (s.withArea { s.area with available := update s.area.available n value }) := by
  rw [bitmapSet, index_eq hn, ensure_of_true hn]
  rfl

theorem blockWrite_eq (hn : n < s.swapSize) (hj : j < sectorsPerPage) (data : Sector) :
    s.blockWrite ((n : ℤ) * sectorsPerPage + j) data = ok (s.withArea
      { s.area with disk := update s.area.disk (n * sectorsPerPage + j) data }) := by
  obtain ⟨hsector, hlt⟩ := sector_eq hn hj
  rw [blockWrite, hsector, ensure_of_true hlt]
  rfl

/-- The loop that writes a page to a slot. -/
theorem writeLoop_eq (hn : n < s.swapSize) (page : Page) (hm : m ≤ sectorsPerPage) :
    (range m).foldlM
      (fun s i => s.blockWrite ((n : ℤ) * sectorsPerPage + i) (sectorOf page i)) s =
    ok (s.withArea ⟨s.area.available, (range m).foldl
      (fun d i => update d (n * sectorsPerPage + i) (sectorOf page i)) s.area.disk⟩) := by
  induction m with
  | zero => rfl
  | succ m ih =>
    rw [range_succ, foldlM_append, ih (Nat.le_of_succ_le hm), ok_bind, foldlM_cons,
      blockWrite_eq ?_ hm, foldl_append]
    · rfl
    · exact hn

/-- The loop that reads a page from a slot. -/
theorem readLoop_eq (hn : n < s.swapSize) (page : Page) (hm : m ≤ sectorsPerPage) :
    (range m).foldlM (fun page (i : ℕ) => do
      let data ← s.blockRead ((n : ℤ) * sectorsPerPage + i)
      return putSector page i data) page =
    (ok fun i => if i / blockSectorSize < m then swapRead s.area.disk n i else page i :
      SwapM Page) := by
  induction m with
  | zero => rfl
  | succ m ih =>
    obtain ⟨hsector, hlt⟩ := sector_eq hn hm
    rw [range_succ, foldlM_append, ih (Nat.le_of_succ_le hm), ok_bind, foldlM_cons,
      blockRead, hsector, ensure_of_true hlt]
    refine congrArg ok (funext fun i => ?_)
    rw [putSector]
    by_cases hi : i / blockSectorSize = m
    · rw [if_pos hi, if_pos (hi ▸ Nat.lt_succ_self _), swapRead, hi]
    · rw [if_neg hi]
      exact if_congr (by omega) rfl rfl

/-- **`swap_out`** takes the first slot that is available; if there is none it panics before the
first sector is written. -/
theorem swapOut_eq (s : SwapDevice) (page : Page) :
    s.swapOut page = s.lift (fun n : ℕ => (n : ℤ)) (s.area.swapOut s.swapSize page) := by
  have hsize := s.size_lt
  rw [swapOut, SwapArea.swapOut]
  cases hscan : Bitmap.scan s.area.available s.swapSize 1 true with
  | none =>
    have hsector : ((int32 ((2 ^ 32 - 1 : ℕ) : ℤ) * sectorsPerPage + (0 : ℕ)) % 2 ^ 32).toNat =
        2 ^ 32 - 8 := rfl
    rw [Option.getD_none, show range sectorsPerPage = [0, 1, 2, 3, 4, 5, 6, 7] from rfl,
      foldlM_cons, blockWrite, hsector, ensure, if_neg (by omega)]
    rfl
  | some n =>
    have hn := (Bitmap.scan_one_eq_some hscan).2
    have hint : int32 n = n := by
      have hle := Nat.div_le_self s.size sectorsPerPage
      rw [swapSize] at hn
      exact int32_of_bounds (by omega) (by omega)
    rw [Option.getD_some, hint, writeLoop_eq hn page le_rfl, ok_bind, bitmapSet_eq ?_]
    · rfl
    · exact hn

theorem checkSlot_eq (hn : n < s.swapSize) (hused : s.area.available n = false) :
    s.checkSlot n = ok () := by
  rw [checkSlot, index_eq hn, ensure_of_true (Int.ofNat_lt.mpr hn), ensure_of_true hn,
    ensure_of_true hused]
  rfl

theorem swapFree_eq (hn : n < s.swapSize) (hused : s.area.available n = false) :
    s.swapFree n =
      ok (s.withArea { s.area with available := update s.area.available n true }) := by
  rw [swapFree, checkSlot_eq hn hused, ok_bind, bitmapSet_eq hn]

/-- **`swap_in`** reads a slot that is in use. -/
theorem swapIn_eq (s : SwapDevice) (n : ℕ) (page : Page) :
    s.swapIn n page = s.lift id (s.area.swapIn s.swapSize n) := by
  rw [swapIn, SwapArea.swapIn]
  split_ifs with hn hused
  · rw [checkSlot, ensure, if_neg (Int.not_lt.mpr (Int.ofNat_le.mpr hn))]
    rfl
  · rw [Nat.not_le] at hn
    rw [checkSlot, index_eq hn, ensure_of_true (Int.ofNat_lt.mpr hn), ensure_of_true hn, ensure,
      if_neg (by rw [hused]; decide)]
    rfl
  · rw [Nat.not_le] at hn
    rw [checkSlot_eq hn (Bool.eq_false_iff.mpr hused), ok_bind, readLoop_eq hn page le_rfl, ok_bind,
      bitmapSet_eq hn]
    refine congrArg ok (Prod.ext rfl (funext fun i => ?_))
    exact if_pos (div_lt_sectorsPerPage i)

theorem swapIn_used (page : Page) (hn : n < s.swapSize) (hused : s.area.available n = false) :
    s.swapIn n page =
      ok (s.withArea { s.area with available := update s.area.available n true },
        swapRead s.area.disk n) := by
  rw [swapIn_eq, SwapArea.swapIn, if_neg hn.not_ge, if_neg (by rw [hused]; decide)]
  rfl

end SwapDevice

/-! ### Sequences of calls -/

/-- The device, and the pages in the slots that `swap_out` has returned and that nobody has
swapped in or freed since. -/
structure SwapRun where
  device : SwapDevice
  slots : ℤ → Option Page

inductive SwapCall where
  | swapOut (page : Page)
  | swapIn (swapIndex : ℤ) (page : Page)
  | swapFree (swapIndex : ℤ)

namespace SwapRun

/-- A call; a slot is swapped in or freed once after it was swapped out. -/
def step (r : SwapRun) : SwapCall → SwapM SwapRun
  | .swapOut page => do
    let (device, i) ← r.device.swapOut page
    return ⟨device, update r.slots i (some page)⟩
  | .swapIn i page => do
    require ((r.slots i).isSome = true)
    let (device, _) ← r.device.swapIn i page
    return ⟨device, update r.slots i none⟩
  | .swapFree i => do
    require ((r.slots i).isSome = true)
    let device ← r.device.swapFree i
    return ⟨device, update r.slots i none⟩

/-- After `swap_init`. -/
def init (size : ℕ) (h : size < 2 ^ 21) (disk : ℕ → Sector) : SwapRun :=
  ⟨⟨size, h, fun _ => true, disk⟩, fun _ => none⟩

/-- **The invariant**: the slots hold their pages, and the others are available. -/
structure Inv (r : SwapRun) : Prop where
  used : ∀ i page, r.slots i = some page → ∃ n : ℕ, i = n ∧ n < r.device.swapSize ∧
    r.device.area.available n = false ∧ swapRead r.device.area.disk n = page
  free : ∀ n < r.device.swapSize, r.slots n = none → r.device.area.available n = true

variable {r r' : SwapRun}

/-- A slot is given back. -/
theorem Inv.release (h : r.Inv) (n : ℕ) :
    Inv ⟨r.device.withArea { r.device.area with
      available := update r.device.area.available n true }, update r.slots n none⟩ := by
  refine ⟨fun i page hi => ?_, fun k hk hnone => ?_⟩
  · change update r.slots n none i = some page at hi
    have hne : i ≠ n := by
      rintro rfl
      simp at hi
    rw [update_of_ne hne] at hi
    obtain ⟨k, rfl, hk, hused, hread⟩ := h.used i page hi
    exact ⟨k, rfl, hk, (update_of_ne (Int.ofNat_inj.not.mp hne) _ _).trans hused, hread⟩
  · change update r.slots n none k = none at hnone
    rcases eq_or_ne k n with rfl | hne
    · exact update_self _ _ _
    · rw [update_of_ne (Int.ofNat_inj.not.mpr hne)] at hnone
      exact (update_of_ne hne _ _).trans (h.free k hk hnone)

/-- A page is swapped out. -/
theorem Inv.take (h : r.Inv) {n : ℕ} (hn : n < r.device.swapSize)
    (havailable : r.device.area.available n = true) (page : Page) :
    Inv ⟨r.device.withArea ⟨update r.device.area.available n false,
      swapWrite r.device.area.disk n page⟩, update r.slots n (some page)⟩ := by
  refine ⟨fun i page' hi => ?_, fun k hk hnone => ?_⟩
  · change update r.slots n (some page) i = some page' at hi
    rcases eq_or_ne i n with rfl | hne
    · rw [update_self] at hi
      obtain rfl := Option.some.inj hi
      exact ⟨n, rfl, hn, update_self _ _ _, swapRead_swapWrite _ _ _⟩
    · rw [update_of_ne hne] at hi
      obtain ⟨k, rfl, hk, hused, hread⟩ := h.used i page' hi
      have hkn : k ≠ n := Int.ofNat_inj.not.mp hne
      exact ⟨k, rfl, hk, (update_of_ne hkn _ _).trans hused,
        (swapRead_swapWrite_of_ne _ _ hkn).trans hread⟩
  · change update r.slots n (some page) k = none at hnone
    have hne : k ≠ n := by
      rintro rfl
      simp at hnone
    rw [update_of_ne (Int.ofNat_inj.not.mpr hne)] at hnone
    exact (update_of_ne hne _ _).trans (h.free k hk hnone)

/-- **Every call keeps the invariant.** -/
theorem Inv.step (h : r.Inv) {c : SwapCall} (hstep : r.step c = ok r') : r'.Inv := by
  cases c with
  | swapOut page =>
    rw [SwapRun.step, SwapDevice.swapOut_eq, SwapArea.swapOut] at hstep
    cases hscan : Bitmap.scan r.device.area.available r.device.swapSize 1 true with
    | none =>
      rw [hscan] at hstep
      cases hstep
    | some n =>
      rw [hscan] at hstep
      obtain rfl := Outcome.ok.inj hstep
      obtain ⟨havailable, hn⟩ := Bitmap.scan_one_eq_some hscan
      exact h.take hn havailable page
  | swapIn i page =>
    rw [SwapRun.step, require_bind_eq_ok] at hstep
    obtain ⟨page', hpage⟩ := Option.isSome_iff_exists.mp hstep.1
    obtain ⟨n, rfl, hn, hused, -⟩ := h.used i page' hpage
    rw [SwapDevice.swapIn_used page hn hused] at hstep
    obtain rfl := Outcome.ok.inj hstep.2
    exact h.release n
  | swapFree i =>
    rw [SwapRun.step, require_bind_eq_ok] at hstep
    obtain ⟨page', hpage⟩ := Option.isSome_iff_exists.mp hstep.1
    obtain ⟨n, rfl, hn, hused, -⟩ := h.used i page' hpage
    rw [SwapDevice.swapFree_eq hn hused] at hstep
    obtain rfl := Outcome.ok.inj hstep.2
    exact h.release n

end SwapRun

/-- **The swap round trip.** After any sequence of calls in which slots are swapped in and freed
once after they were swapped out, on any device: the slots in use are slots of the device;
`swap_in` fills a page with what was given to the `swap_out` that returned the slot, and neither
it nor `swap_free` panics; if there is a slot that is not in use `swap_out` returns one, and
writes its sectors only; and if there is none it panics with all sectors as they were. -/
theorem swap_roundTrip {size : ℕ} (hsize : size < 2 ^ 21) {disk : ℕ → Sector} {r : SwapRun}
    (h : Reachable SwapRun.step (fun _ _ => True) (SwapRun.init size hsize disk) r) :
    (∀ i page, r.slots i = some page → 0 ≤ i ∧ i < r.device.swapSize ∧
      (∀ old, ∃ device, r.device.swapIn i old = ok (device, page)) ∧
      ∃ device, r.device.swapFree i = ok device) ∧
    ∀ page, (∃ device i, r.device.swapOut page = ok (device, i) ∧ 0 ≤ i ∧
        i < r.device.swapSize ∧ r.slots i = none ∧
        ∀ k : ℕ, (k / sectorsPerPage : ℕ) ≠ i → device.area.disk k = r.device.area.disk k) ∨
      (∀ i : ℤ, 0 ≤ i → i < r.device.swapSize → r.slots i ≠ none) ∧
        r.device.swapOut page = .panic (.pastEnd, r.device) := by
  have hinv : r.Inv := h.invariant ⟨fun i page hi => (Option.some_ne_none page hi.symm).elim,
    fun n _ _ => rfl⟩ fun r c r' hr _ hstep => hr.step hstep
  refine ⟨fun i page hi => ?_, fun page => ?_⟩
  · obtain ⟨n, rfl, hn, hused, rfl⟩ := hinv.used i page hi
    exact ⟨Int.natCast_nonneg n, Int.ofNat_lt.mpr hn,
      fun old => ⟨_, SwapDevice.swapIn_used old hn hused⟩, _, SwapDevice.swapFree_eq hn hused⟩
  · rw [SwapDevice.swapOut_eq, SwapArea.swapOut]
    cases hscan : Bitmap.scan r.device.area.available r.device.swapSize 1 true with
    | none =>
      refine .inr ⟨fun i hpos hi hnone => ?_, rfl⟩
      obtain ⟨n, rfl⟩ := Int.eq_ofNat_of_zero_le hpos
      have hn := Int.ofNat_lt.mp hi
      exact Bitmap.scan_one_eq_none hscan hn (hinv.free n hn hnone)
    | some n =>
      obtain ⟨havailable, hn⟩ := Bitmap.scan_one_eq_some hscan
      refine .inl ⟨_, n, rfl, Int.natCast_nonneg n, Int.ofNat_lt.mpr hn, ?_, fun k hk => ?_⟩
      · cases hslot : r.slots n with
        | none => rfl
        | some page' =>
          obtain ⟨n', hn', -, hused, -⟩ := hinv.used n page' hslot
          rw [← Int.ofNat_inj.mp hn', havailable] at hused
          cases hused
      · refine (foldl_update_apply _ _ _ _ _).trans (if_neg fun hrange => hk ?_)
        rw [show sectorsPerPage = 8 from rfl] at hrange ⊢
        omega

/-- Two different pages are swapped out, and each can be swapped in again. -/
theorem swap_roundTrip_two : ∃ r : SwapRun,
    Reachable SwapRun.step (fun _ _ => True) (SwapRun.init 16 (by decide) fun _ _ => 7) r ∧
    r.slots 0 = some zeroPage ∧ r.slots 1 = some (fun _ => 1) ∧
    (∀ old, ∃ device, r.device.swapIn 0 old = ok (device, zeroPage)) ∧
    ∀ old, ∃ device, r.device.swapIn 1 old = ok (device, fun _ => 1) := by
  have hout : ∃ r, exec SwapRun.step (SwapRun.init 16 (by decide) fun _ _ => 7)
      [.swapOut zeroPage, .swapOut fun _ => 1] = ok r ∧
        r.slots 0 = some zeroPage ∧ r.slots 1 = some (fun _ => 1) := by
    simp only [exec, SwapRun.step, SwapDevice.swapOut_eq]
    exact ⟨_, rfl, rfl, rfl⟩
  obtain ⟨r, hrun, hzero, hone⟩ := hout
  have hreach : Reachable SwapRun.step (fun _ _ => True)
      (SwapRun.init 16 (by decide) fun _ _ => 7) r := ⟨_, .of_exec hrun⟩
  have hslots := (swap_roundTrip (by decide) hreach).1
  exact ⟨r, hreach, hzero, hone, (hslots 0 _ hzero).2.2.1, (hslots 1 _ hone).2.2.1⟩

end Pintos
