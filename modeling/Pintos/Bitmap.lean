import Mathlib.Data.Nat.Bitwise
import Mathlib.Tactic.Common

/-!
# Bitmaps

The bitmaps of `lib/kernel/bitmap.c`, which the free map, the descriptors and the page allocator
are made of: searching for a run of equal bits, setting one, and the bytes that a bitmap takes in
memory and in a file.

## Main results

* `Bitmap.scan_eq_some`, `Bitmap.scan_eq_none`: what is found is free, and nothing is found
  only if there is nothing.
* `Bitmap.ofBytes_bytes`: a bitmap that was written to its file is read back.
-/

namespace Pintos

open List

namespace Bitmap

/-- `bitmap_contains`. -/
def contains (b : ℕ → Bool) (start cnt : ℕ) (value : Bool) : Bool :=
  (range cnt).any fun i => b (start + i) == value

/-- `bitmap_all`. -/
def all (b : ℕ → Bool) (start cnt : ℕ) : Bool := !contains b start cnt false

/-- `bitmap_scan`, from the first bit on. -/
def scan (b : ℕ → Bool) (bitCnt cnt : ℕ) (value : Bool) : Option ℕ :=
  if cnt ≤ bitCnt then
    (range (bitCnt - cnt + 1)).find? fun i => !contains b i cnt (!value)
  else
    none

/-- `bitmap_set_multiple`. -/
def setMultiple (b : ℕ → Bool) (start cnt : ℕ) (value : Bool) : ℕ → Bool := fun i =>
  if start ≤ i ∧ i < start + cnt then value else b i

/-- `byte_cnt`: the elements of a bitmap have 32 bits. -/
def byteCnt (bitCnt : ℕ) : ℕ := 4 * ((bitCnt + 32 - 1) % 2 ^ 32 / 32)

/-- The bytes of a bitmap in memory. -/
def bytes (b : ℕ → Bool) (k : ℕ) : UInt8 :=
  UInt8.ofNat (Nat.ofBits fun j : Fin 8 => b (8 * k + j))

/-- The bitmap that bytes in memory are; the bits from `bitCnt` on are masked. -/
def ofBytes (bitCnt : ℕ) (bytes : List UInt8) : ℕ → Bool := fun i =>
  decide (i < bitCnt) && (bytes.getD (i / 8) 0).toNat.testBit (i % 8)

/-! ### Searching and setting -/

variable {b : ℕ → Bool} {bitCnt start cnt i k : ℕ} {value : Bool}

theorem contains_eq_false :
    contains b start cnt value = false ↔ ∀ k, start ≤ k → k < start + cnt → b k ≠ value := by
  simp only [contains, any_eq_false, mem_range, beq_iff_eq]
  constructor
  · intro h k h₁ h₂
    have := h (k - start) (by omega)
    rwa [Nat.add_sub_cancel' h₁] at this
  · intro h i hi
    exact h (start + i) (by omega) (by omega)

theorem all_eq_true : all b start cnt = true ↔ ∀ k, start ≤ k → k < start + cnt → b k = true := by
  rw [all, Bool.not_eq_true', contains_eq_false]
  simp

/-- **What is found is free.** -/
theorem scan_eq_some (h : scan b bitCnt cnt value = some i) :
    i + cnt ≤ bitCnt ∧ ∀ k, i ≤ k → k < i + cnt → b k = value := by
  rw [scan] at h
  split at h
  · have hmem := mem_range.mp (mem_of_find?_eq_some h)
    have hfree := find?_some h
    rw [Bool.not_eq_true', contains_eq_false] at hfree
    refine ⟨by omega, fun k h₁ h₂ => ?_⟩
    have := hfree k h₁ h₂
    cases value <;> simp_all
  · cases h

/-- **Nothing is found only if there is nothing.** -/
theorem scan_eq_none (h : scan b bitCnt cnt value = none) (hi : i + cnt ≤ bitCnt) :
    ∃ k, i ≤ k ∧ k < i + cnt ∧ b k ≠ value := by
  rw [scan, if_pos (by omega), find?_eq_none] at h
  have hnot := h i (mem_range.mpr (by omega))
  by_contra hall
  refine hnot ?_
  rw [Bool.not_eq_true', contains_eq_false]
  intro k h₁ h₂ hk
  refine hall ⟨k, h₁, h₂, ?_⟩
  rw [hk]
  cases value <;> simp

theorem scan_one_eq_some (h : scan b bitCnt 1 value = some i) : b i = value ∧ i < bitCnt := by
  obtain ⟨hfits, hfree⟩ := scan_eq_some h
  exact ⟨hfree i le_rfl (Nat.lt_succ_self i), hfits⟩

theorem scan_one_eq_none (h : scan b bitCnt 1 value = none) (hi : i < bitCnt) : b i ≠ value := by
  obtain ⟨k, h₁, h₂, hk⟩ := scan_eq_none h hi
  obtain rfl : k = i := by omega
  exact hk

theorem setMultiple_of_mem (h₁ : start ≤ k) (h₂ : k < start + cnt) :
    setMultiple b start cnt value k = value := by
  rw [setMultiple, if_pos ⟨h₁, h₂⟩]

theorem setMultiple_of_not_mem (h : ¬(start ≤ k ∧ k < start + cnt)) :
    setMultiple b start cnt value k = b k := by
  rw [setMultiple, if_neg h]

/-- Setting bits back to what they were. -/
theorem setMultiple_undo (h : ∀ k, start ≤ k → k < start + cnt → b k = value) (v : Bool) :
    setMultiple (setMultiple b start cnt v) start cnt value = b := by
  funext k
  by_cases hk : start ≤ k ∧ k < start + cnt
  · rw [setMultiple_of_mem hk.1 hk.2, h k hk.1 hk.2]
  · rw [setMultiple_of_not_mem hk, setMultiple_of_not_mem hk]

/-- A bitmap has a bit for everything that its bytes have. -/
theorem le_byteCnt (h : bitCnt + 31 < 2 ^ 32) : bitCnt ≤ 8 * byteCnt bitCnt := by
  rw [byteCnt]
  omega

theorem byteCnt_lt (bitCnt : ℕ) : byteCnt bitCnt < 2 ^ 31 := by
  rw [byteCnt]
  omega

theorem testBit_bytes (b : ℕ → Bool) (i : ℕ) : (bytes b (i / 8)).toNat.testBit (i % 8) = b i := by
  have hlt : i % 8 < 8 := Nat.mod_lt _ (by decide)
  have hbits := Nat.ofBits_lt_two_pow fun j : Fin 8 => b (8 * (i / 8) + j)
  rw [bytes, UInt8.toNat_ofNat', Nat.mod_eq_of_lt hbits, Nat.testBit_ofBits_lt _ _ hlt]
  exact congrArg b (Nat.div_add_mod i 8)

/-- **A bitmap that was written is read back.** -/
theorem ofBytes_bytes {bs : List UInt8} (hsize : bitCnt + 31 < 2 ^ 32)
    (hbs : ∀ k < byteCnt bitCnt, bs.getD k 0 = bytes b k) (hi : i < bitCnt) :
    ofBytes bitCnt bs i = b i := by
  have hle := le_byteCnt hsize
  rw [ofBytes, decide_eq_true hi, Bool.true_and, hbs _ (by omega), testBit_bytes]

end Bitmap

end Pintos
