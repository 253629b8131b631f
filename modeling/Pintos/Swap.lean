import Mathlib.Logic.Function.Basic
import Pintos.Bitmap
import Pintos.Outcome

/-!
# The Swap Area

The swap device is an array of sectors; `SECTORS_PER_PAGE` consecutive sectors make a
slot, which holds one page, and `swap_available` has one bit per slot. `swap_out` takes
the first available slot, writes the page into its sectors one after the other and then
marks the slot; `swap_in` reads a marked slot back the same way and returns it. Here the two
calls act on the slots as a whole; `SwapDevice` has them sector by sector, and shows that they
come to this.

## Main results

* `swapRead_swapWrite`: a slot that was written reads back as the page.
* `swapRead_swapWrite_of_ne`: writing a slot leaves every other slot alone.
* `swapOut_eq_ok`, `swapIn_eq_ok`: what a call that completes has done.
-/

open Verif Function List

namespace Pintos

/-- `PGSIZE`. -/
def pgSize : ℕ := 4096

/-- `BLOCK_SECTOR_SIZE`. -/
def blockSectorSize : ℕ := 512

/-- `SECTORS_PER_PAGE`. -/
def sectorsPerPage : ℕ := pgSize / blockSectorSize

/-- The bytes of a page. -/
abbrev Page := Fin pgSize → UInt8

/-- The bytes of a sector. -/
abbrev Sector := Fin blockSectorSize → UInt8

/-- `pg_ofs`: the offset of an address in its page. -/
def pgOfs (a : ℕ) : Fin pgSize := ⟨a % pgSize, Nat.mod_lt a (by decide)⟩

/-- A page of zeros. -/
def zeroPage : Page := fun _ => 0

/-- The bytes `page + BLOCK_SECTOR_SIZE * j` up to the next sector. -/
def sectorOf (page : Page) (j : ℕ) : Sector := fun i => page (pgOfs (blockSectorSize * j + i))

/-- The loop of `swap_out` over the sectors of slot `n`. -/
def swapWrite (disk : ℕ → Sector) (n : ℕ) (page : Page) : ℕ → Sector :=
  (range sectorsPerPage).foldl
    (fun d j => update d (n * sectorsPerPage + j) (sectorOf page j)) disk

theorem sectorOfs_lt (i : Fin pgSize) : i % blockSectorSize < blockSectorSize :=
  Nat.mod_lt _ (by decide)

/-- The page that the loop of `swap_in` assembles from the sectors of slot `n`. -/
def swapRead (disk : ℕ → Sector) (n : ℕ) : Page := fun i =>
  disk (n * sectorsPerPage + i / blockSectorSize)
    ⟨i % blockSectorSize, sectorOfs_lt i⟩

/-- Writing consecutive sectors changes these and no others. -/
theorem foldl_update_apply {β : Type} (d : ℕ → β) (b : ℕ) (x : ℕ → β) (n k : ℕ) :
    (range n).foldl (fun d j => update d (b + j) (x j)) d k =
      if b ≤ k ∧ k < b + n then x (k - b) else d k := by
  induction n with
  | zero => rw [if_neg (by omega), range_zero, foldl_nil]
  | succ n ih =>
    rw [range_succ, foldl_append, foldl_cons, foldl_nil,
      update_apply, ih]
    by_cases hk : k = b + n
    · subst hk
      rw [if_pos rfl, if_pos ⟨by omega, by omega⟩, Nat.add_sub_cancel_left]
    · rw [if_neg hk]
      have hiff : (b ≤ k ∧ k < b + (n + 1)) ↔ (b ≤ k ∧ k < b + n) := by omega
      simp only [hiff]

/-- A byte of a page lies in one of the page's sectors. -/
theorem div_lt_sectorsPerPage (i : Fin pgSize) : i.val / blockSectorSize < sectorsPerPage :=
  Nat.div_lt_of_lt_mul i.isLt

/-- **A slot that was written reads back as the page.** -/
theorem swapRead_swapWrite (disk : ℕ → Sector) (n : ℕ) (page : Page) :
    swapRead (swapWrite disk n page) n = page := by
  funext i
  have hlt := Nat.add_lt_add_left (div_lt_sectorsPerPage i) (n * sectorsPerPage)
  have hofs : pgOfs (blockSectorSize * (i.val / blockSectorSize) +
      i.val % blockSectorSize) = i := by
    ext
    rw [Nat.div_add_mod]
    exact Nat.mod_eq_of_lt i.isLt
  rw [swapRead, swapWrite, foldl_update_apply, if_pos ⟨Nat.le_add_right _ _, hlt⟩,
    Nat.add_sub_cancel_left, sectorOf, hofs]

/-- **Writing a slot leaves every other slot alone.** -/
theorem swapRead_swapWrite_of_ne (disk : ℕ → Sector) {n n' : ℕ} (page : Page) (h : n' ≠ n) :
    swapRead (swapWrite disk n page) n' = swapRead disk n' := by
  funext i
  have hlt := div_lt_sectorsPerPage i
  rw [swapRead, swapRead, swapWrite, foldl_update_apply, if_neg]
  generalize i.val / blockSectorSize = j at hlt
  rintro ⟨h₁, h₂⟩
  -- the two slots are disjoint intervals of sectors
  rcases Nat.lt_or_gt_of_ne h with hn | hn
  · have := Nat.mul_le_mul_right sectorsPerPage (Nat.succ_le_of_lt hn)
    rw [Nat.succ_mul] at this
    omega
  · have := Nat.mul_le_mul_right sectorsPerPage (Nat.succ_le_of_lt hn)
    rw [Nat.succ_mul] at this
    omega

/-- The failures of the swap functions and of those that they call. -/
inductive SwapPanic where
  | pastEnd     -- `check_sector`: `bitmap_scan` found no slot, and the sectors of slot -1 are none
  | bitIndex    -- `ASSERT (idx < b->bit_cnt)`
  | slotRange   -- `ASSERT (swap_index < swap_size)`
  | unassigned  -- the panics of `swap_in` and `swap_free`
  deriving DecidableEq, Repr

/-- The swap device and `swap_available`. -/
structure SwapArea where
  available : ℕ → Bool
  disk : ℕ → Sector

/-- `swap_out`. -/
def SwapArea.swapOut (size : ℕ) (a : SwapArea) (page : Page) : Outcome SwapPanic (SwapArea × ℕ) :=
  match Bitmap.scan a.available size 1 true with
  | none => .panic .pastEnd
  | some n => .ok (⟨update a.available n false, swapWrite a.disk n page⟩, n)

/-- `swap_in`. -/
def SwapArea.swapIn (size : ℕ) (a : SwapArea) (n : ℕ) : Outcome SwapPanic (SwapArea × Page) :=
  if size ≤ n then .panic .slotRange
  else if a.available n then .panic .unassigned
  else .ok ({ a with available := update a.available n true }, swapRead a.disk n)

/-- A call of `swap_out` that completes took an available slot for the page. -/
theorem SwapArea.swapOut_eq_ok {size n : ℕ} {a a' : SwapArea} {page : Page}
    (h : a.swapOut size page = .ok (a', n)) :
    a.available n = true ∧ n < size ∧
      a' = ⟨update a.available n false, swapWrite a.disk n page⟩ := by
  rw [swapOut] at h
  cases hs : Bitmap.scan a.available size 1 true with
  | none => simp [hs] at h
  | some n' =>
    simp only [hs, Outcome.ok.injEq, Prod.mk.injEq] at h
    obtain ⟨rfl, rfl⟩ := h
    exact ⟨(Bitmap.scan_one_eq_some hs).1, (Bitmap.scan_one_eq_some hs).2, rfl⟩

/-- A call of `swap_in` that completes read a slot that was in use, and returned it. -/
theorem SwapArea.swapIn_eq_ok {size n : ℕ} {a a' : SwapArea} {page : Page}
    (h : a.swapIn size n = .ok (a', page)) :
    n < size ∧ a.available n = false ∧ page = swapRead a.disk n ∧
      a' = { a with available := update a.available n true } := by
  rw [swapIn] at h
  split at h
  · cases h
  · split at h
    · cases h
    · rename_i hsize havail
      simp only [Outcome.ok.injEq, Prod.mk.injEq] at h
      obtain ⟨rfl, rfl⟩ := h
      exact ⟨Nat.lt_of_not_le hsize, Bool.eq_false_iff.mpr havail, rfl, rfl⟩

end Pintos
