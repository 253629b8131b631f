import Mathlib.Algebra.Order.Ring.Nat
import Mathlib.Logic.Function.Basic
import Mathlib.Tactic.Common

/-!
# Extents of a Block Device

A device is a sequence of blocks of `w` cells, and can be read and written a block at a
time only. An extent is a sequence of consecutive blocks, seen as one sequence of cells.
Writing some cells of one block, by reading the block, changing it and writing it back,
changes these cells of the extent and no others.

## Main results

* `cell_update_patch`: what writing a part of a block does to the cells of an extent.
* `copyOut_eq_slice`: reading a part of a block reads these cells of the extent.
* `take_drop_slice`, `slice_eq_splice`: reading and writing cells of an extent is reading from the
  list of its cells, and splicing it.
-/

namespace Verif

open List Function

variable {β : Type} {w : ℕ} [NeZero w] {d d' : ℕ → Fin w → β} {start o n m i : ℕ} {x : ℕ → β}

/-- The cell `i` of the extent that begins with the block `start`. -/
def cell (d : ℕ → Fin w → β) (start i : ℕ) : β := d (start + i / w) (Fin.ofNat w i)

/-- A block with the `n` cells from `ofs` on replaced. -/
def patch (b : Fin w → β) (ofs n : ℕ) (x : ℕ → β) : Fin w → β := fun i =>
  if ofs ≤ i ∧ i < ofs + n then x (i - ofs) else b i

/-- The `n` cells of a block from `ofs` on. -/
def copyOut (b : Fin w → β) (ofs n : ℕ) : List β :=
  (List.range n).map fun k => b (Fin.ofNat w (ofs + k))

/-- The `n` cells of an extent from `o` on. -/
def slice (d : ℕ → Fin w → β) (start o n : ℕ) : List β :=
  (List.range n).map fun k => cell d start (o + k)

/-- A cell in the middle of a block. -/
theorem add_mod_of_le {k : ℕ} (h : o % w + n ≤ w) (hk : k < n) :
    (o + k) / w = o / w ∧ (o + k) % w = o % w + k := by
  have hlt : o % w + k < w := by omega
  have ho : o + k = w * (o / w) + (o % w + k) := by
    have := Nat.div_add_mod o w
    omega
  constructor
  · rw [ho, Nat.mul_add_div (Nat.pos_of_neZero w), Nat.div_eq_of_lt hlt, Nat.add_zero]
  · rw [ho, Nat.mul_add_mod, Nat.mod_eq_of_lt hlt]

/-- **Writing a part of a block** changes these cells of the extent and no others. -/
theorem cell_update_patch (h : o % w + n ≤ w) :
    cell (update d (start + o / w) (patch (d (start + o / w)) (o % w) n x)) start i =
      if o ≤ i ∧ i < o + n then x (i - o) else cell d start i := by
  have ho := Nat.div_add_mod o w
  have hi := Nat.div_add_mod i w
  rw [cell]
  rcases eq_or_ne (i / w) (o / w) with hb | hb
  · rw [hb, update_self, patch, Fin.val_ofNat]
    have hiff : (o % w ≤ i % w ∧ i % w < o % w + n) ↔ (o ≤ i ∧ i < o + n) := by
      rw [hb] at hi
      omega
    by_cases hin : o ≤ i ∧ i < o + n
    · rw [if_pos hin, if_pos (hiff.mpr hin)]
      congr 1
      rw [hb] at hi
      omega
    · rw [if_neg hin, if_neg fun h => hin (hiff.mp h), cell, hb]
  · rw [update_of_ne fun h => hb (Nat.add_left_cancel h), if_neg, cell]
    -- the cells that are written lie in one block
    rintro ⟨h₁, h₂⟩
    obtain ⟨k, rfl⟩ := Nat.exists_eq_add_of_le h₁
    exact hb (add_mod_of_le h (by omega)).1

omit [NeZero w] in
/-- The old contents of a block that is replaced as a whole do not matter. -/
theorem patch_full (b b' : Fin w → β) (x : ℕ → β) : patch b 0 w x = patch b' 0 w x := by
  funext i
  rw [patch, patch, if_pos ⟨Nat.zero_le _, by omega⟩, if_pos ⟨Nat.zero_le _, by omega⟩]

/-- **Reading a part of a block** reads these cells of the extent. -/
theorem copyOut_eq_slice (h : o % w + n ≤ w) :
    copyOut (d (start + o / w)) (o % w) n = slice d start o n := by
  refine map_congr_left fun k hk => ?_
  obtain ⟨hdiv, hmod⟩ := add_mod_of_le h (mem_range.mp hk)
  have hofs : Fin.ofNat w (o % w + k) = Fin.ofNat w (o + k) := by
    ext
    rw [Fin.val_ofNat, Fin.val_ofNat, hmod, Nat.mod_eq_of_lt]
    have := mem_range.mp hk
    omega
  rw [cell, hdiv, hofs]

@[simp] theorem length_slice (d : ℕ → Fin w → β) (start o n : ℕ) :
    (slice d start o n).length = n := by
  simp [slice]

theorem slice_append (d : ℕ → Fin w → β) (start o n m : ℕ) :
    slice d start o n ++ slice d start (o + n) m = slice d start o (n + m) := by
  simp only [slice, range_add, map_append, map_map]
  congr 2
  funext k
  simp [Nat.add_assoc]

theorem getElem?_slice {k : ℕ} (hk : k < n) :
    (slice d start o n)[k]? = some (cell d start (o + k)) := by
  simp [slice, hk]

theorem getElem?_slice_eq_none {k : ℕ} (hk : n ≤ k) : (slice d start o n)[k]? = none :=
  getElem?_eq_none (by rwa [length_slice])

/-- Reading from the list of the cells of an extent. -/
theorem take_drop_slice (d : ℕ → Fin w → β) (start o n m : ℕ) :
    ((slice d start 0 n).drop o).take m = slice d start o (min m (n - o)) := by
  refine ext_getElem? fun k => ?_
  rw [getElem?_take, getElem?_drop]
  by_cases hk : k < min m (n - o)
  · rw [if_pos (by omega), getElem?_slice hk, getElem?_slice (by omega), Nat.zero_add]
  · rw [getElem?_slice_eq_none (Nat.le_of_not_lt hk)]
    split
    · exact getElem?_slice_eq_none (by omega)
    · rfl

/-- A list with some of its elements replaced; what would come after its end is left out. -/
def splice (l : List β) (o : ℕ) (new : List β) : List β :=
  l.take o ++ (new.take (l.length - o) ++ l.drop (o + new.length))

theorem getElem?_splice (l new : List β) (o k : ℕ) : (splice l o new)[k]? =
    if o ≤ k ∧ k < o + min new.length (l.length - o) then new[k - o]? else l[k]? := by
  rw [splice, getElem?_append, length_take]
  by_cases hlow : k < min o l.length
  · rw [if_pos hlow, getElem?_take_of_lt (by omega), if_neg (by omega)]
  · rw [if_neg hlow, getElem?_append, length_take, getElem?_drop,
      getElem?_take]
    by_cases ho : o ≤ l.length
    · rw [Nat.min_eq_left ho] at hlow ⊢
      by_cases hnew : k - o < min (l.length - o) new.length
      · rw [if_pos hnew, if_pos (by omega), if_pos (by omega)]
      · rw [if_neg hnew, if_neg (by omega)]
        rcases Nat.le_total new.length (l.length - o) with hle | hle
        · congr 1
          omega
        · rw [getElem?_eq_none (by omega), getElem?_eq_none (by omega)]
    · -- the list ends before the place
      rw [if_neg (by omega), if_neg (by omega), getElem?_eq_none (by omega),
        getElem?_eq_none (by omega)]

/-- **Writing to the cells of an extent** is splicing the list of its cells. -/
theorem slice_eq_splice (h : ∀ i, cell d' start i =
      if o ≤ i ∧ i < o + min m (n - o) then x (i - o) else cell d start i) :
    slice d' start 0 n = splice (slice d start 0 n) o ((range m).map x) := by
  refine ext_getElem? fun k => ?_
  rw [getElem?_splice, length_slice, length_map, length_range]
  by_cases hk : k < n
  · rw [getElem?_slice hk, getElem?_slice hk, Nat.zero_add, h k]
    split
    · rw [getElem?_map, getElem?_range (by omega)]
      rfl
    · rfl
  · rw [getElem?_slice_eq_none (Nat.le_of_not_lt hk), if_neg (by omega),
      getElem?_slice_eq_none (Nat.le_of_not_lt hk)]

/-- Cells of blocks that two devices agree on. -/
theorem cell_congr (h : d' (start + i / w) = d (start + i / w)) :
    cell d' start i = cell d start i := by
  rw [cell, cell, h]

/-- A block of an extent is its cells. -/
theorem block_congr {k : ℕ} (h : ∀ i, i / w = k - start → cell d' start i = cell d start i)
    (hk : start ≤ k) : d' k = d k := by
  funext c
  have hw := Nat.pos_of_neZero w
  have hquot : (w * (k - start) + c) / w = k - start := by
    rw [Nat.mul_add_div hw, Nat.div_eq_of_lt c.isLt, Nat.add_zero]
  have hdiv : start + (w * (k - start) + c) / w = k := by omega
  have hmod : Fin.ofNat w (w * (k - start) + c) = c := by
    ext
    rw [Fin.val_ofNat, Nat.mul_add_mod, Nat.mod_eq_of_lt c.isLt]
  have hc := h (w * (k - start) + c) hquot
  rwa [cell, cell, hdiv, hmod] at hc

end Verif
