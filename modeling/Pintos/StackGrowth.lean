import Pintos.VmRules

/-!
# Stack Growth in User Mode and in System Calls

`page_fault` grows the stack for an address that looks like a stack access. For an access
in user mode the stack pointer is the one in the interrupt frame; for an access by the
kernel on behalf of the process it is the one that `syscall_handler` saved. The test for
addresses above the stack pointer uses the right one of the two, the test for the words
that `PUSH` and `PUSHA` touch below it always uses the interrupt frame's, which after a
fault in the kernel has nothing to do with the user's stack.

## Main results

* `grows_iff`: when a fault adds a page to the stack.
* `growth_agrees_iff`: when it does not matter who touches the stack.
* `growth_differs`: a system call that touches the word below the stack pointer.
-/

namespace Pintos

/-- The local `esp` of `page_fault`: that of the interrupt frame for an access in user mode,
and the `current_esp` that `syscall_handler` saved otherwise. -/
def faultEsp (user : Bool) (fEsp currentEsp : ℕ) : ℕ :=
  if user then fEsp else currentEsp

/-- `esp - n`, as an address. -/
def below (esp n : ℕ) : ℕ := (esp + wordRange - n) % wordRange

/-- The 8 MB below `PHYS_BASE`. -/
def InStackArea (addr : ℕ) : Prop := physBase - 0x800000 ≤ addr ∧ addr < physBase

/-- What `PUSH` and `PUSHA` touch below the stack pointer `esp`. -/
def IsPush (addr esp : ℕ) : Prop := addr = below esp 4 ∨ addr = below esp 32

instance (addr : ℕ) : Decidable (InStackArea addr) := inferInstanceAs (Decidable (_ ∧ _))

instance (addr esp : ℕ) : Decidable (IsPush addr esp) := inferInstanceAs (Decidable (_ ∨ _))

theorem growsStack_eq_true {addr esp fEsp : ℕ} :
    growsStack addr esp fEsp = true ↔ (esp ≤ addr ∨ IsPush addr fEsp) ∧ InStackArea addr := by
  simp only [growsStack, IsPush, below, InStackArea, Bool.and_eq_true, Bool.or_eq_true,
    decide_eq_true_eq, beq_iff_eq, or_assoc]

namespace Vm

variable {s : Vm} {p : Pid} {addr u fEsp currentEsp : ℕ} {user : Bool} {junk : Spte}

/-- `page_fault` for a page that is not present, with `f->esp`, `current_esp` and whether
the access was made in user mode. -/
def pageFaultFrom (s : Vm) (p : Pid) (addr : ℕ) (user : Bool) (fEsp currentEsp : ℕ)
    (junk : Spte) : Vm :=
  s.pageFault p addr (faultEsp user fEsp currentEsp) fEsp junk

/-- The fault adds a page to the stack: the page had no entry, and has one afterwards. -/
def Grows (s : Vm) (p : Pid) (addr : ℕ) (user : Bool) (fEsp currentEsp : ℕ) (junk : Spte) : Prop :=
  s.suptLookup p (addr / pgSize) = none ∧
    ((s.pageFaultFrom p addr user fEsp currentEsp junk).suptLookup p (addr / pgSize)).isSome = true

/-- `load_page` leaves the entries alone up to its call of `frame_allocate`. -/
theorem suptLookup_loadPage (s : Vm) (p : Pid) (u : ℕ) (q : Pid) (v : ℕ) :
    (s.loadPage p u).suptLookup q v = s.suptLookup q v := by
  rw [loadPage]
  split
  · rfl
  · split <;> rfl

/-- **When a fault adds a page**: the page has no entry, and the address passes the test. -/
theorem grows_iff :
    s.Grows p addr user fEsp currentEsp junk ↔ s.suptLookup p (addr / pgSize) = none ∧
      (faultEsp user fEsp currentEsp ≤ addr ∨ IsPush addr fEsp) ∧ InStackArea addr := by
  rw [Grows, ← growsStack_eq_true]
  refine and_congr_right fun hnone => ?_
  rw [pageFaultFrom, pageFault, hnone]
  cases hgrow : growsStack addr (faultEsp user fEsp currentEsp) fEsp with
  | false =>
    rw [Option.isNone_none, Bool.and_true, if_neg Bool.false_ne_true, suptLookup_loadPage, hnone]
    simp
  | true =>
    have hnew : (s.suptInstallZeropage p (addr / pgSize) junk).suptLookup p (addr / pgSize) =
        some { junk with kpage := none, status := .allZero, dirty := false } :=
      (suptLookup_setSpte s p _ _ p _).trans (if_pos ⟨rfl, rfl⟩)
    rw [Option.isNone_none, Bool.and_true, if_pos rfl, suptLookup_loadPage, hnew]
    simp

/-- It does not matter who touches `addr`, with the user's stack pointer `u`: the fault adds
a page for the kernel exactly when it does for the user, and in both cases only for an
address in the stack area at or above `u` or one that a push touches. -/
def GrowthAgrees (s : Vm) (p : Pid) (addr u fEsp currentEsp : ℕ) (junk : Spte) : Prop :=
  (s.Grows p addr false fEsp u junk ↔ s.Grows p addr true u currentEsp junk) ∧
  (s.Grows p addr false fEsp u junk → InStackArea addr ∧ (u ≤ addr ∨ IsPush addr u)) ∧
  (s.Grows p addr true u currentEsp junk → InStackArea addr ∧ (u ≤ addr ∨ IsPush addr u))

end Vm

/-- **Who touches the stack matters** only for an address below the stack pointer, in the
stack area and on a page without an entry: then the kernel's interrupt frame must tell the
same about a push as the user's stack pointer. -/
theorem growth_agrees_iff (s : Vm) (p : Pid) (addr u fEsp currentEsp : ℕ) (junk : Spte) :
    s.GrowthAgrees p addr u fEsp currentEsp junk ↔
      (s.suptLookup p (addr / pgSize)).isSome = true ∨ ¬InStackArea addr ∨ u ≤ addr ∨
        (IsPush addr fEsp ↔ IsPush addr u) := by
  have hkernel : faultEsp false fEsp u = u := rfl
  have huser : faultEsp true u currentEsp = u := rfl
  rw [Vm.GrowthAgrees, Vm.grows_iff, Vm.grows_iff, hkernel, huser]
  cases he : s.suptLookup p (addr / pgSize) with
  | some e => simp
  | none =>
    simp only [Option.isSome_none, Bool.false_eq_true, false_or, true_and]
    by_cases harea : InStackArea addr
    · by_cases hle : u ≤ addr
      · simp [harea, hle]
      · simp only [harea, hle, not_true_eq_false, false_or, and_true, true_and]
        constructor
        · rintro ⟨hiff, -, -⟩
          exact hiff
        · intro hiff
          exact ⟨hiff, hiff.mp, id⟩
    · simp [harea]

/-- **A system call that touches the word below the stack pointer** is not given a page,
while the same access in user mode is. -/
theorem growth_differs :
    (vmInit ⟨fun _ => [], 1, 1, fun _ => zeroPage, fun _ _ => 0⟩).Grows 0 (physBase - 4100) true
        (physBase - 4096) 0 ⟨none, .allZero, false, none, 0, 0, 0, 0, false⟩ ∧
      ¬(vmInit ⟨fun _ => [], 1, 1, fun _ => zeroPage, fun _ _ => 0⟩).GrowthAgrees 0
        (physBase - 4100) (physBase - 4096) 0 0
        ⟨none, .allZero, false, none, 0, 0, 0, 0, false⟩ := by
  have hnone : ∀ m u, (vmInit m).suptLookup 0 u = none := fun _ _ => rfl
  constructor
  · rw [Vm.grows_iff, hnone]
    decide
  · rintro ⟨hiff, -⟩
    rw [Vm.grows_iff, Vm.grows_iff, hnone] at hiff
    revert hiff
    decide

end Pintos
