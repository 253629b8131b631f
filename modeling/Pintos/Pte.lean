import Mathlib.Data.Nat.Bitwise
import Mathlib.Tactic.Common

/-!
# Page Table Entries

The addresses and entries of `threads/vaddr.h` and `threads/pte.h`, as 32-bit words. An entry is a
page's physical address, of which the lowest 12 bits are zero, with flags in their place. A virtual
address is the index of an entry in the page directory, the index of one in a page table, and an
offset.

## Main results

* `Pte.pgNo_eq_iff`: the two indices of an address determine its page.
* `Pte.decode_create`, `Pte.decode_eq_none`, `Pte.decode_setFlag_flagD`, `Pte.decode_setFlag_flagA`:
  what an entry says when it is made, when it is not present, and when one of its flags is
  changed.
* `Pte.pdeCreate_spec`: the page table that an entry of the directory points to.
-/

namespace Pintos

/-- A machine word, or an address. -/
abbrev Word := BitVec 32

namespace Pte

/-! ### Addresses -/

/-- `PHYS_BASE`. -/
def physBase : Word := 0xc0000000

/-- `pg_ofs`. -/
def pgOfs (va : Word) : Word := va &&& 0xfff

/-- `pg_no`. -/
def pgNo (va : Word) : Word := va >>> 12

/-- `pt_no`. -/
def ptNo (va : Word) : ℕ := ((va &&& 0x3ff000) >>> 12).toNat

/-- `pd_no`. -/
def pdNo (va : Word) : ℕ := (va >>> 22).toNat

/-- `is_user_vaddr`. -/
def isUserVaddr (va : Word) : Bool := va < physBase

/-- `vtop`, of a kernel address. -/
def vtop (va : Word) : Word := va - physBase

/-- `ptov`, of a physical address below `PHYS_BASE`. -/
def ptov (paddr : Word) : Word := paddr + physBase

/-! ### Entries -/

/-- `PTE_P`: the page is present. -/
def flagP : Word := 0x1

/-- `PTE_W`: the page is writable. -/
def flagW : Word := 0x2

/-- `PTE_U`: the page is one of a user's. -/
def flagU : Word := 0x4

/-- `PTE_A`: the page was accessed. -/
def flagA : Word := 0x20

/-- `PTE_D`: the page is dirty. -/
def flagD : Word := 0x40

/-- `PTE_ADDR`. -/
def addrMask : Word := 0xfffff000

/-- `pde_create`. -/
def pdeCreate (pt : Word) : Word := vtop pt ||| flagU ||| flagP ||| flagW

/-- `pde_get_pt`, of an entry that is present. -/
def pdeGetPt (pde : Word) : Word := ptov (pde &&& addrMask)

/-- `pte_create_kernel`. -/
def pteCreateKernel (page : Word) (writable : Bool) : Word :=
  vtop page ||| flagP ||| (if writable then flagW else 0)

/-- `pte_create_user`. -/
def pteCreateUser (page : Word) (writable : Bool) : Word := pteCreateKernel page writable ||| flagU

/-- `pte_get_page`. -/
def pteGetPage (pte : Word) : Word := ptov (pte &&& addrMask)

/-- A flag of an entry is set or cleared. -/
def setFlag (pte flag : Word) (value : Bool) : Word :=
  if value then pte ||| flag else pte &&& ~~~flag

/-- A flag of an entry is set. -/
def isSet (pte flag : Word) : Bool := pte &&& flag ≠ 0

/-- **What an entry says** about a page: the frame it is in, as a kernel address, and its flags. -/
structure Mapping where
  frame : Word
  writable : Bool
  accessed : Bool
  dirty : Bool
  deriving DecidableEq, Repr

/-- What an entry says, if it is present. -/
def decode (pte : Word) : Option Mapping :=
  if isSet pte flagP then
    some ⟨pteGetPage pte, isSet pte flagW, isSet pte flagA, isSet pte flagD⟩
  else
    none

/-! ### The parts of an address -/

variable {va vb page : Word}

theorem pgNo_toNat (va : Word) : (pgNo va).toNat = va.toNat / 2 ^ 12 := by
  rw [pgNo, BitVec.toNat_ushiftRight, Nat.shiftRight_eq_div_pow]

theorem pdNo_eq (va : Word) : pdNo va = va.toNat / 2 ^ 22 := by
  rw [pdNo, BitVec.toNat_ushiftRight, Nat.shiftRight_eq_div_pow]

theorem ptNo_eq (va : Word) : ptNo va = va.toNat / 2 ^ 12 % 2 ^ 10 := by
  have hmask : (0x3ff000 : Word).toNat >>> 12 = 2 ^ 10 - 1 := by decide
  rw [ptNo, BitVec.toNat_ushiftRight, BitVec.toNat_and, Nat.shiftRight_and_distrib, hmask,
    Nat.and_two_pow_sub_one_eq_mod, Nat.shiftRight_eq_div_pow]

theorem pgOfs_toNat (va : Word) : (pgOfs va).toNat = va.toNat % 2 ^ 12 := by
  have hmask : (0xfff : Word).toNat = 2 ^ 12 - 1 := by decide
  rw [pgOfs, BitVec.toNat_and, hmask, Nat.and_two_pow_sub_one_eq_mod]

theorem pdNo_lt (va : Word) : pdNo va < 1024 := by
  have := va.isLt
  rw [pdNo_eq]
  omega

theorem ptNo_lt (va : Word) : ptNo va < 1024 := by
  rw [ptNo_eq]
  omega

/-- User addresses are those of the first entries of a directory. -/
theorem isUserVaddr_iff : isUserVaddr va = true ↔ pdNo va < 768 := by
  have hbase : physBase.toNat = 3221225472 := by decide
  rw [isUserVaddr, decide_eq_true_eq, BitVec.lt_def, hbase, pdNo_eq]
  omega

/-- **The indices of an address determine its page.** -/
theorem pgNo_eq_iff : pgNo va = pgNo vb ↔ pdNo va = pdNo vb ∧ ptNo va = ptNo vb := by
  rw [← BitVec.toNat_inj, pgNo_toNat, pgNo_toNat, pdNo_eq, pdNo_eq, ptNo_eq, ptNo_eq]
  omega

/-- An address without an offset is a multiple of the size of a page. -/
theorem pgOfs_eq_zero : pgOfs va = 0 ↔ va.toNat % 2 ^ 12 = 0 := by
  rw [← BitVec.toNat_inj, pgOfs_toNat]
  rfl

/-- The page with given indices. -/
def pageAt (pd pt : ℕ) : Word := BitVec.ofNat 32 (pd * 2 ^ 22 + pt * 2 ^ 12)

theorem pageAt_spec {pd pt : ℕ} (hpd : pd < 1024) (hpt : pt < 1024) :
    pdNo (pageAt pd pt) = pd ∧ ptNo (pageAt pd pt) = pt ∧ pgOfs (pageAt pd pt) = 0 := by
  have hnat : (pageAt pd pt).toNat = pd * 2 ^ 22 + pt * 2 ^ 12 := by
    rw [pageAt, BitVec.toNat_ofNat]
    omega
  rw [pdNo_eq, ptNo_eq, pgOfs_eq_zero, hnat]
  omega

/-! ### The bits of an entry -/

/-- A mask of one bit. -/
theorem isSet_twoPow (x : Word) (k : ℕ) : isSet x (BitVec.twoPow 32 k) = x.getLsbD k := by
  rw [isSet, BitVec.and_twoPow]
  cases hk : x.getLsbD k with
  | false => simp
  | true =>
    have hlt : k < 32 := by
      by_contra hge
      rw [BitVec.getLsbD_of_ge x k (by omega)] at hk
      cases hk
    have hne : BitVec.twoPow 32 k ≠ 0 := fun h => by
      have hbit := congrArg (fun y : Word => y.getLsbD k) h
      simp [hlt] at hbit
    simpa using hne

theorem isSet_flagP (x : Word) : isSet x flagP = x.getLsbD 0 := isSet_twoPow x 0

theorem isSet_flagW (x : Word) : isSet x flagW = x.getLsbD 1 := isSet_twoPow x 1

theorem isSet_flagA (x : Word) : isSet x flagA = x.getLsbD 5 := isSet_twoPow x 5

theorem isSet_flagD (x : Word) : isSet x flagD = x.getLsbD 6 := isSet_twoPow x 6

theorem getLsbD_addrMask {i : ℕ} (hi : i < 32) : addrMask.getLsbD i = decide (12 ≤ i) := by
  have hall : ∀ i : Fin 32, addrMask.getLsbD i = decide (12 ≤ i.val) := by decide
  exact hall ⟨i, hi⟩

/-- An address without an offset has no bits where the flags are. -/
theorem getLsbD_of_pgOfs (h : pgOfs va = 0) {i : ℕ} (hi : i < 12) : va.getLsbD i = false := by
  have hmask : ∀ i : Fin 12, (0xfff : Word).getLsbD i = true := by decide
  have hbit := congrArg (fun y : Word => y.getLsbD i) h
  simp only [pgOfs, BitVec.getLsbD_and, hmask ⟨i, hi⟩, Bool.and_true] at hbit
  simpa using hbit

theorem and_addrMask_of_pgOfs (h : pgOfs va = 0) : va &&& addrMask = va := by
  refine BitVec.eq_of_getLsbD_eq fun i hi => ?_
  rw [BitVec.getLsbD_and, getLsbD_addrMask hi]
  by_cases h12 : 12 ≤ i
  · simp [h12]
  · rw [getLsbD_of_pgOfs h (by omega), Bool.false_and]

/-- `PHYS_BASE` is a multiple of the size of a page. -/
theorem pgOfs_vtop (h : pgOfs page = 0) : pgOfs (vtop page) = 0 := by
  have hbase : physBase.toNat = 3221225472 := by decide
  rw [pgOfs_eq_zero] at h ⊢
  rw [vtop, BitVec.toNat_sub, hbase]
  omega

theorem ptov_vtop (page : Word) : ptov (vtop page) = page := by
  rw [ptov, vtop, BitVec.sub_add_cancel]

/-- The physical address of a kernel address is below `PHYS_BASE`. -/
theorem vtop_lt (h : isUserVaddr page = false) : vtop page < physBase := by
  have hbase : physBase.toNat = 3221225472 := by decide
  rw [isUserVaddr, decide_eq_false_iff_not, BitVec.not_lt, BitVec.le_def, hbase] at h
  rw [BitVec.lt_def, vtop, BitVec.toNat_sub, hbase]
  omega

/-! ### What an entry says -/

/-- Flags do not change the address. -/
theorem or_and_addrMask (x : Word) {f : Word} (hf : f &&& addrMask = 0) :
    (x ||| f) &&& addrMask = x &&& addrMask := by
  rw [BitVec.and_comm, BitVec.and_or_distrib_left, BitVec.and_comm addrMask f, hf, BitVec.and_comm]
  exact BitVec.or_zero

theorem setFlag_and_addrMask (x : Word) {f : Word} (hf : f &&& addrMask = 0)
    (hf' : ~~~f &&& addrMask = addrMask) (value : Bool) :
    setFlag x f value &&& addrMask = x &&& addrMask := by
  cases value with
  | true => exact or_and_addrMask x hf
  | false =>
    show (x &&& ~~~f) &&& addrMask = x &&& addrMask
    rw [BitVec.and_assoc, hf']

/-- **The page table** that an entry of a directory points to. -/
theorem pdeCreate_spec (h : pgOfs page = 0) :
    pdeGetPt (pdeCreate page) = page ∧ isSet (pdeCreate page) flagP = true ∧
      pdeCreate page &&& addrMask = vtop page ∧ pdeCreate page ≠ 0 := by
  have haddr : pdeCreate page &&& addrMask = vtop page := by
    rw [pdeCreate, or_and_addrMask _ (by decide), or_and_addrMask _ (by decide),
      or_and_addrMask _ (by decide), and_addrMask_of_pgOfs (pgOfs_vtop h)]
  have hpresent : isSet (pdeCreate page) flagP = true := by
    rw [isSet_flagP, pdeCreate, BitVec.getLsbD_or, BitVec.getLsbD_or]
    simp [flagP]
  refine ⟨?_, hpresent, haddr, fun hzero => ?_⟩
  · rw [pdeGetPt, haddr, ptov_vtop]
  · rw [hzero] at hpresent
    cases hpresent

theorem pteCreateUser_eq (page : Word) (writable : Bool) : pteCreateUser page writable =
    vtop page ||| (flagP ||| (if writable then flagW else 0) ||| flagU) := by
  rw [pteCreateUser, pteCreateKernel, BitVec.or_assoc, BitVec.or_assoc, BitVec.or_assoc]

theorem pteCreateUser_and_addrMask (h : pgOfs page = 0) (writable : Bool) :
    pteCreateUser page writable &&& addrMask = vtop page := by
  rw [pteCreateUser_eq, or_and_addrMask _ (by cases writable <;> decide),
    and_addrMask_of_pgOfs (pgOfs_vtop h)]

/-- **What an entry says when it is made.** -/
theorem decode_create (h : pgOfs page = 0) (writable : Bool) :
    decode (pteCreateUser page writable) = some ⟨page, writable, false, false⟩ := by
  have haddr := pteCreateUser_and_addrMask h writable
  have hbit : ∀ {i}, i < 12 → (pteCreateUser page writable).getLsbD i =
      (flagP ||| (if writable then flagW else 0) ||| flagU).getLsbD i := by
    intro i hi
    rw [pteCreateUser_eq, BitVec.getLsbD_or, getLsbD_of_pgOfs (pgOfs_vtop h) hi, Bool.false_or]
  rw [decode, isSet_flagP, isSet_flagW, isSet_flagA, isSet_flagD, hbit (by decide),
    hbit (by decide), hbit (by decide), hbit (by decide), pteGetPage, haddr, ptov_vtop]
  cases writable <;> rfl

theorem isSet_clear (pte : Word) : isSet (pte &&& ~~~flagP) flagP = false := by
  rw [isSet_flagP, BitVec.getLsbD_and, BitVec.getLsbD_not]
  simp [flagP]

/-- **An entry that is not present** says nothing. -/
theorem decode_eq_none {pte : Word} : decode pte = none ↔ isSet pte flagP = false := by
  rw [decode]
  split <;> simp_all

/-- A flag that is neither the address nor whether the page is present. -/
def IsFlag (f : Word) : Prop :=
  f &&& addrMask = 0 ∧ ~~~f &&& addrMask = addrMask ∧ isSet f flagP = false

theorem isFlag_flagD : IsFlag flagD := ⟨by decide, by decide, by decide⟩

theorem isFlag_flagA : IsFlag flagA := ⟨by decide, by decide, by decide⟩

theorem IsFlag.isSet_setFlag {f : Word} (hf : IsFlag f) {pte : Word} {value : Bool} :
    isSet (setFlag pte f value) flagP = isSet pte flagP := by
  have hbit : f.getLsbD 0 = false := by rw [← isSet_flagP, hf.2.2]
  rw [isSet_flagP, isSet_flagP, setFlag]
  cases value
  · simp only [Bool.false_eq_true, if_false, BitVec.getLsbD_and, BitVec.getLsbD_not, hbit]
    simp
  · simp only [if_true, BitVec.getLsbD_or, hbit, Bool.or_false]

/-- **What an entry says when its dirty flag is changed.** -/
theorem decode_setFlag_flagD (pte : Word) (value : Bool) :
    decode (setFlag pte flagD value) = (decode pte).map ({ · with dirty := value }) := by
  have haddr := setFlag_and_addrMask pte (f := flagD) (by decide) (by decide) value
  simp only [decode, pteGetPage, haddr, isSet_flagP, isSet_flagW, isSet_flagA, isSet_flagD]
  cases value <;> simp [setFlag, flagD]

/-- **What an entry says when its accessed flag is changed.** -/
theorem decode_setFlag_flagA (pte : Word) (value : Bool) :
    decode (setFlag pte flagA value) = (decode pte).map ({ · with accessed := value }) := by
  have haddr := setFlag_and_addrMask pte (f := flagA) (by decide) (by decide) value
  simp only [decode, pteGetPage, haddr, isSet_flagP, isSet_flagW, isSet_flagA, isSet_flagD]
  cases value <;> simp [setFlag, flagA]

end Pte

end Pintos
