import Pintos.Bitmap
import Pintos.Outcome
import Pintos.Vm

/-!
# The Page Allocator

The memory from 1 MB to the end of RAM is divided into two pools of pages, for the kernel and for
user processes. A pool begins with the bitmap of its pages: `init_pool` takes as many pages for it
as a bitmap for the whole pool needs, and the bitmap is about the pages that remain.

A call runs from its beginning to its end; `palloc_free_multiple` does not take the pool's lock.

## Conventions

* Addresses are kernel virtual addresses, which begin at `PHYS_BASE`. RAM ends at 64 MB at most, so
  that no sum or product of the source wraps around.

## Main results

* `pallocInit_spec`: the layout of the pools and their bitmaps.
* `Palloc.Layout.not_inPool`: no page is in both pools.
* `Palloc.getMultiple_cases`, `Palloc.freeMultiple_spec`: what the calls do to the bitmap of a pool.
-/

namespace Pintos

open Verif Outcome List Bitmap

/-- The panics of the page allocator. -/
inductive PallocPanic where
  /-- "Not enough memory in %s for bitmap." -/
  | noBitmapRoom
  /-- `ASSERT (block_size >= bitmap_buf_size (bit_cnt))`. -/
  | bufSize
  /-- "palloc_get: out of pages". -/
  | outOfPages
  /-- `ASSERT (pg_ofs (pages) == 0)`. -/
  | pgOfs
  /-- `NOT_REACHED ()`: the page is in neither pool. -/
  | notReached
  /-- `ASSERT (start + cnt <= b->bit_cnt)`. -/
  | bitmapRange
  /-- `ASSERT (bitmap_all (pool->used_map, page_idx, page_cnt))`. -/
  | bitmapAll
  deriving DecidableEq, Repr

/-- Computations of the page allocator. -/
abbrev PallocM := Outcome PallocPanic

/-- `ptov`. -/
def ptov (paddr : ℕ) : ℕ := physBase + paddr

/-- `pg_no`. -/
def pgNo (va : ℕ) : ℕ := va / pgSize

/-- `struct pool`, and the `struct bitmap` that `used_map` points to. -/
structure Pool where
  /-- `used_map`: where the bitmap is. -/
  block : ℕ
  /-- The bits of `used_map`. -/
  usedMap : ℕ → Bool
  /-- `bitmap_size (used_map)`. -/
  bitCnt : ℕ
  base : ℕ

/-- The two pools, and the memory that the pages are in. -/
structure Palloc where
  kernelPool : Pool
  userPool : Pool
  memory : ℕ → UInt8

/-- `enum palloc_flags`: `PAL_USER`, `PAL_ZERO` and `PAL_ASSERT`. -/
structure PallocFlags where
  user : Bool
  zero : Bool
  assert : Bool
  deriving DecidableEq, Repr

/-- `bitmap_buf_size`, where `sizeof (struct bitmap)` is 8. -/
def bitmapBufSize (bitCnt : ℕ) : ℕ := 8 + byteCnt bitCnt

/-- `memset`. -/
def memset (m : ℕ → UInt8) (dst : ℕ) (value : UInt8) (size : ℕ) : ℕ → UInt8 := fun i =>
  if dst ≤ i ∧ i < dst + size then value else m i

/-- `init_pool`. -/
def initPool (base pageCnt : ℕ) : PallocM Pool := do
  let bmPages := (bitmapBufSize pageCnt + pgSize - 1) / pgSize
  Outcome.ensure (bmPages ≤ pageCnt) .noBitmapRoom
  let pageCnt := pageCnt - bmPages
  Outcome.ensure (bitmapBufSize pageCnt ≤ bmPages * pgSize) .bufSize
  return ⟨base, fun _ => false, pageCnt, base + bmPages * pgSize⟩

/-- `palloc_init`; `memory` is what is in memory then. -/
def pallocInit (initRamPages userPageLimit : ℕ) (memory : ℕ → UInt8) : PallocM Palloc := do
  let freeStart := ptov (1024 * 1024)
  let freeEnd := ptov (initRamPages * pgSize)
  let freePages := (freeEnd - freeStart) / pgSize
  let userPages := min (freePages / 2) userPageLimit
  let kernelPages := freePages - userPages
  let kernelPool ← initPool freeStart kernelPages
  let userPool ← initPool (freeStart + kernelPages * pgSize) userPages
  return ⟨kernelPool, userPool, memory⟩

/-- `page_from_pool`. -/
def Pool.pageFromPool (pool : Pool) (page : ℕ) : Bool :=
  pgNo pool.base ≤ pgNo page ∧ pgNo page < pgNo pool.base + pool.bitCnt

namespace Palloc

/-- The pool that a flag selects. -/
def pool (s : Palloc) (user : Bool) : Pool := if user then s.userPool else s.kernelPool

/-- Store into a pool's bitmap. -/
def setUsedMap (s : Palloc) (user : Bool) (usedMap : ℕ → Bool) : Palloc :=
  if user then { s with userPool := { s.userPool with usedMap := usedMap } }
  else { s with kernelPool := { s.kernelPool with usedMap := usedMap } }

/-- `palloc_get_multiple`: the address of the pages, unless it is null. -/
def getMultiple (s : Palloc) (flags : PallocFlags) (pageCnt : ℕ) : PallocM (Option ℕ × Palloc) :=
  let pool := s.pool flags.user
  if pageCnt = 0 then
    return (none, s)
  else
    match scan pool.usedMap pool.bitCnt pageCnt false with
    | some pageIdx =>
      let s := s.setUsedMap flags.user (setMultiple pool.usedMap pageIdx pageCnt true)
      let pages := pool.base + pgSize * pageIdx
      if flags.zero then
        return (some pages, { s with memory := memset s.memory pages 0 (pgSize * pageCnt) })
      else
        return (some pages, s)
    | none => do
      Outcome.ensure (flags.assert = false) .outOfPages
      return (none, s)

/-- `palloc_free_multiple`, with the pool that the pages were found in. -/
def freeFrom (s : Palloc) (user : Bool) (pages pageCnt : ℕ) : PallocM Palloc := do
  let pool := s.pool user
  let pageIdx := pgNo pages - pgNo pool.base
  let s := { s with memory := memset s.memory pages 0xcc (pgSize * pageCnt) }
  Outcome.ensure (pageIdx + pageCnt ≤ pool.bitCnt) .bitmapRange
  Outcome.ensure (all pool.usedMap pageIdx pageCnt = true) .bitmapAll
  return s.setUsedMap user (setMultiple pool.usedMap pageIdx pageCnt false)

/-- `palloc_free_multiple`. -/
def freeMultiple (s : Palloc) (pages pageCnt : ℕ) : PallocM Palloc := do
  Outcome.ensure (pages % pgSize = 0) .pgOfs
  if pages = 0 ∨ pageCnt = 0 then
    return s
  else if s.kernelPool.pageFromPool pages then
    s.freeFrom false pages pageCnt
  else if s.userPool.pageFromPool pages then
    s.freeFrom true pages pageCnt
  else
    .panic .notReached

end Palloc

/-- The page number is one of a range. -/
def InRange (start cnt page : ℕ) : Prop := start ≤ page ∧ page < start + cnt

instance (start cnt page : ℕ) : Decidable (InRange start cnt page) :=
  inferInstanceAs (Decidable (start ≤ page ∧ page < start + cnt))

/-- The parts of memory that the bitmaps and the pools take, from the first address on. -/
def Palloc.regions (s : Palloc) : List (ℕ × ℕ) :=
  [(s.kernelPool.block, s.kernelPool.base - s.kernelPool.block),
    (s.kernelPool.base, pgSize * s.kernelPool.bitCnt),
    (s.userPool.block, s.userPool.base - s.userPool.block),
    (s.userPool.base, pgSize * s.userPool.bitCnt)]

/-- **The layout of the pools**: the bitmaps and the pools are whole pages between 1 MB and the
end of RAM that do not overlap, and the bitmaps have enough room. -/
structure Palloc.Layout (s : Palloc) (initRamPages : ℕ) : Prop where
  aligned : ∀ r ∈ s.regions, r.1 % pgSize = 0 ∧ r.2 % pgSize = 0
  bounds : ∀ r ∈ s.regions, ptov (1024 * 1024) ≤ r.1 ∧ r.1 + r.2 ≤ ptov (initRamPages * pgSize)
  disjoint : s.regions.Pairwise fun r r' => r.1 + r.2 ≤ r'.1
  bitmaps : ∀ user, (s.pool user).block + bitmapBufSize (s.pool user).bitCnt ≤ (s.pool user).base

/-! ### The layout -/

/-- What `init_pool` makes of a range of pages. -/
theorem initPool_eq_ok {base pageCnt : ℕ} {pool : Pool} (h : initPool base pageCnt = .ok pool) :
    ∃ bmPages, 1 ≤ bmPages ∧ bmPages ≤ pageCnt ∧
      bitmapBufSize (pageCnt - bmPages) ≤ bmPages * pgSize ∧
      pool = ⟨base, fun _ => false, pageCnt - bmPages, base + bmPages * pgSize⟩ := by
  obtain ⟨hroom, h⟩ := ensure_bind_eq_ok.mp h
  obtain ⟨hbuf, h⟩ := ensure_bind_eq_ok.mp h
  refine ⟨(bitmapBufSize pageCnt + pgSize - 1) / pgSize, ?_, hroom, hbuf, (ok.inj h).symm⟩
  rw [bitmapBufSize, pgSize]
  omega

/-- **The layout** that `palloc_init` makes, if there is enough memory for the bitmaps. -/
theorem pallocInit_spec {initRamPages userPageLimit : ℕ} {memory : ℕ → UInt8} {s : Palloc}
    (hram : 256 < initRamPages) (h : pallocInit initRamPages userPageLimit memory = .ok s) :
    s.Layout initRamPages ∧ ∀ user i, (s.pool user).usedMap i = false := by
  rw [pallocInit] at h
  have hfree : (ptov (initRamPages * pgSize) - ptov (1024 * 1024)) / pgSize =
      initRamPages - 256 := by
    rw [ptov, ptov, pgSize]
    omega
  rw [hfree] at h
  have hle : min ((initRamPages - 256) / 2) userPageLimit ≤ initRamPages - 256 := by omega
  generalize min ((initRamPages - 256) / 2) userPageLimit = userPages at h hle
  obtain ⟨kernelPool, hkernel, h⟩ := bind_eq_ok.mp h
  obtain ⟨userPool, huser, h⟩ := bind_eq_ok.mp h
  obtain ⟨k, hk₁, hk₂, hk₃, rfl⟩ := initPool_eq_ok hkernel
  obtain ⟨u, hu₁, hu₂, hu₃, rfl⟩ := initPool_eq_ok huser
  obtain rfl := ok.inj h
  have hphys : physBase % pgSize = 0 := by decide
  refine ⟨⟨?_, ?_, ?_, ?_⟩, fun user i => by cases user <;> rfl⟩
  · simp only [Palloc.regions, forall_mem_cons, ptov, pgSize] at hphys ⊢
    refine ⟨?_, ?_, ?_, ?_, fun _ h => absurd h not_mem_nil⟩ <;> omega
  · simp only [Palloc.regions, forall_mem_cons, ptov, pgSize]
    refine ⟨?_, ?_, ?_, ?_, fun _ h => absurd h not_mem_nil⟩ <;> omega
  · simp only [Palloc.regions, pairwise_cons, forall_mem_cons, not_mem_nil,
      false_imp_iff, forall_const, and_true, List.Pairwise.nil, pgSize]
    refine ⟨⟨?_, ?_, ?_⟩, ⟨?_, ?_⟩, ?_⟩ <;> omega
  · intro user
    cases user with
    | false => exact Nat.add_le_add_left hk₃ _
    | true => exact Nat.add_le_add_left hu₃ _

/-! ### Pools -/

namespace Palloc

variable {s s' : Palloc} {initRamPages page : ℕ} {user : Bool}

theorem memory_setUsedMap (s : Palloc) (user : Bool) (usedMap : ℕ → Bool) :
    (s.setUsedMap user usedMap).memory = s.memory := by
  cases user <;> rfl

theorem usedMap_setUsedMap (s : Palloc) (user : Bool) (usedMap : ℕ → Bool) (u : Bool) :
    ((s.setUsedMap user usedMap).pool u).usedMap =
      if u = user then usedMap else (s.pool u).usedMap := by
  cases user <;> cases u <;> rfl

/-- Only the bits of the pools, and memory, may have changed. -/
structure SamePools (s s' : Palloc) : Prop where
  block : ∀ user, (s'.pool user).block = (s.pool user).block
  bitCnt : ∀ user, (s'.pool user).bitCnt = (s.pool user).bitCnt
  base : ∀ user, (s'.pool user).base = (s.pool user).base

theorem SamePools.trans {s'' : Palloc} (h : s.SamePools s') (h' : s'.SamePools s'') :
    s.SamePools s'' :=
  ⟨fun u => (h'.block u).trans (h.block u), fun u => (h'.bitCnt u).trans (h.bitCnt u),
    fun u => (h'.base u).trans (h.base u)⟩

theorem SamePools.setUsedMap (s : Palloc) (user : Bool) (usedMap : ℕ → Bool)
    (memory : ℕ → UInt8) :
    s.SamePools ({ s with memory := memory }.setUsedMap user usedMap) := by
  refine ⟨fun u => ?_, fun u => ?_, fun u => ?_⟩ <;> cases user <;> cases u <;> rfl

/-- Pools with the same bits are the same. -/
theorem SamePools.pool_eq (h : s.SamePools s')
    (hbits : (s'.pool user).usedMap = (s.pool user).usedMap) : s'.pool user = s.pool user := by
  have hpool : ∀ p : Pool, p = ⟨p.block, p.usedMap, p.bitCnt, p.base⟩ := fun _ => rfl
  rw [hpool (s'.pool user), h.block, hbits, h.bitCnt, h.base]

theorem SamePools.regions (h : s.SamePools s') : s'.regions = s.regions := by
  have hblock := h.block
  have hcnt := h.bitCnt
  have hbase := h.base
  rw [Bool.forall_bool] at hblock hcnt hbase
  show [((s'.pool false).block, (s'.pool false).base - (s'.pool false).block),
    ((s'.pool false).base, pgSize * (s'.pool false).bitCnt),
    ((s'.pool true).block, (s'.pool true).base - (s'.pool true).block),
    ((s'.pool true).base, pgSize * (s'.pool true).bitCnt)] = s.regions
  rw [hblock.1, hblock.2, hcnt.1, hcnt.2, hbase.1, hbase.2]
  rfl

theorem Layout.same (h : s.Layout initRamPages) (hs : s.SamePools s') : s'.Layout initRamPages where
  aligned := hs.regions ▸ h.aligned
  bounds := hs.regions ▸ h.bounds
  disjoint := hs.regions ▸ h.disjoint
  bitmaps user := by
    rw [hs.block, hs.bitCnt, hs.base]
    exact h.bitmaps user

/-- The page is one of the pool's. -/
def InPool (s : Palloc) (user : Bool) (page : ℕ) : Prop :=
  InRange (pgNo (s.pool user).base) (s.pool user).bitCnt page

theorem SamePools.inPool (h : s.SamePools s') : s'.InPool user page ↔ s.InPool user page := by
  rw [InPool, InPool, h.base, h.bitCnt]

theorem pageFromPool_eq_true {va : ℕ} :
    (s.pool user).pageFromPool va = true ↔ s.InPool user (pgNo va) := by
  rw [Pool.pageFromPool, decide_eq_true_eq]
  rfl

theorem pool_mem_regions (s : Palloc) (user : Bool) :
    ((s.pool user).base, pgSize * (s.pool user).bitCnt) ∈ s.regions := by
  cases user with
  | false => exact mem_cons_of_mem _ mem_cons_self
  | true => exact mem_of_getElem? (i := 3) rfl

theorem Layout.base_aligned (h : s.Layout initRamPages) (user : Bool) :
    (s.pool user).base % pgSize = 0 :=
  (h.aligned _ (s.pool_mem_regions user)).1

/-- Every page of a pool is above 1 MB. -/
theorem Layout.base_pos (h : s.Layout initRamPages) (user : Bool) :
    0 < pgNo (s.pool user).base := by
  have hle : ptov (1024 * 1024) ≤ (s.pool user).base :=
    (h.bounds _ (s.pool_mem_regions user)).1
  refine Nat.div_pos (le_trans ?_ hle) (by decide)
  decide

/-- **No page is in both pools.** -/
theorem Layout.not_inPool (h : s.Layout initRamPages) (hpage : s.InPool user page) :
    ¬s.InPool (!user) page := by
  have hkernel : (s.pool false).base % pgSize = 0 := h.base_aligned false
  have horder : (s.pool false).base + pgSize * (s.pool false).bitCnt ≤ (s.pool true).base := by
    have hdisjoint := h.disjoint
    rw [regions, pairwise_cons, pairwise_cons] at hdisjoint
    exact hdisjoint.2.1 (s.userPool.base, pgSize * s.userPool.bitCnt) (by simp)
  have hnever : ∀ {page}, s.InPool false page → ¬s.InPool true page := by
    intro page h₁ h₂
    rw [InPool, InRange, pgNo, pgSize] at h₁ h₂
    rw [pgSize] at hkernel horder
    omega
  cases user with
  | false => exact hnever hpage
  | true => exact fun hpage' => hnever hpage' hpage

/-! ### The calls -/

/-- The page at an index of a pool. -/
theorem pgNo_base_add (s : Palloc) (user : Bool) (i : ℕ) :
    pgNo ((s.pool user).base + pgSize * i) = pgNo (s.pool user).base + i :=
  Nat.add_mul_div_left _ _ (by decide)

/-- The memory outside a range of pages is not written. -/
theorem memset_of_not_inRange {m : ℕ → UInt8} {pages cnt va : ℕ} {value : UInt8}
    (hva : ¬InRange (pgNo pages) cnt (pgNo va)) (hpages : pages % pgSize = 0) :
    memset m pages value (pgSize * cnt) va = m va := by
  rw [memset, if_neg]
  rw [InRange, pgNo, pgNo, pgSize] at hva
  rw [pgSize] at hpages ⊢
  omega

/-- **`palloc_get_multiple`** takes the first run of free pages, if there is one. -/
theorem getMultiple_cases (s : Palloc) (flags : PallocFlags) {pageCnt : ℕ} (hcnt : 0 < pageCnt) :
    (∃ i memory, scan (s.pool flags.user).usedMap (s.pool flags.user).bitCnt pageCnt false =
          some i ∧
        s.getMultiple flags pageCnt = .ok (some ((s.pool flags.user).base + pgSize * i),
          { s with memory := memory }.setUsedMap flags.user
            (setMultiple (s.pool flags.user).usedMap i pageCnt true)) ∧
        (memory = s.memory ∨ memory =
          memset s.memory ((s.pool flags.user).base + pgSize * i) 0 (pgSize * pageCnt))) ∨
    scan (s.pool flags.user).usedMap (s.pool flags.user).bitCnt pageCnt false = none ∧
      s.getMultiple flags pageCnt = if flags.assert then .panic .outOfPages else .ok (none, s) := by
  rw [getMultiple, if_neg (Nat.ne_of_gt hcnt)]
  cases hscan : scan (s.pool flags.user).usedMap (s.pool flags.user).bitCnt pageCnt false with
  | none =>
    refine .inr ⟨rfl, ?_⟩
    cases flags.assert <;> rfl
  | some i =>
    refine .inl ⟨i, ?_⟩
    dsimp only
    rw [memory_setUsedMap]
    split
    · refine ⟨_, rfl, ?_, .inr rfl⟩
      cases flags.user <;> rfl
    · exact ⟨s.memory, rfl, rfl, .inl rfl⟩

/-- **`palloc_free_multiple`** of pages of a pool that are all used. -/
theorem freeMultiple_spec {pages pageCnt : ℕ} (h : s.Layout initRamPages)
    (hpages : pages % pgSize = 0) (hcnt : 0 < pageCnt)
    (hin : ∀ page, InRange (pgNo pages) pageCnt page → s.InPool user page)
    (hused : ∀ i, InRange (pgNo pages) pageCnt (pgNo (s.pool user).base + i) →
      (s.pool user).usedMap i = true) :
    s.freeMultiple pages pageCnt = .ok ({ s with
      memory := memset s.memory pages 0xcc (pgSize * pageCnt) }.setUsedMap user
        (setMultiple (s.pool user).usedMap (pgNo pages - pgNo (s.pool user).base) pageCnt
          false)) := by
  have hfirst : s.InPool user (pgNo pages) := hin _ ⟨le_rfl, by omega⟩
  have hlast : s.InPool user (pgNo pages + (pageCnt - 1)) := hin _ ⟨by omega, by omega⟩
  have hnull : ¬(pages = 0 ∨ pageCnt = 0) := by
    rintro (rfl | rfl)
    · have hpos := h.base_pos user
      have hle := hfirst.1
      have hzero : pgNo 0 = 0 := Nat.zero_div pgSize
      omega
    · omega
  have hfrom : s.freeFrom user pages pageCnt = .ok ({ s with
      memory := memset s.memory pages 0xcc (pgSize * pageCnt) }.setUsedMap user
        (setMultiple (s.pool user).usedMap (pgNo pages - pgNo (s.pool user).base) pageCnt
          false)) := by
    have hrange : pgNo pages - pgNo (s.pool user).base + pageCnt ≤ (s.pool user).bitCnt := by
      rw [InPool, InRange] at hfirst hlast
      omega
    have hall : all (s.pool user).usedMap (pgNo pages - pgNo (s.pool user).base) pageCnt =
        true := by
      refine all_eq_true.mpr fun i h₁ h₂ => hused i ?_
      rw [InPool, InRange] at hfirst
      rw [InRange]
      omega
    rw [freeFrom, ensure_of_true hrange, ok_bind, ensure_of_true hall]
    rfl
  rw [freeMultiple, ensure_of_true hpages, ok_bind, if_neg hnull]
  cases user with
  | false =>
    have hkernel : s.kernelPool.pageFromPool pages = true := pageFromPool_eq_true.mpr hfirst
    rw [if_pos hkernel, hfrom]
  | true =>
    have hkernel : ¬s.kernelPool.pageFromPool pages = true := fun hfalse =>
      h.not_inPool hfirst (pageFromPool_eq_true.mp hfalse)
    have huser : s.userPool.pageFromPool pages = true := pageFromPool_eq_true.mpr hfirst
    rw [if_neg hkernel, if_pos huser, hfrom]

end Palloc

end Pintos
