import Pintos.Palloc

/-!
# Sequences of Calls of the Page Allocator

What the page allocator is for: to give every caller pages that nobody else has. An `Allocation` is
what remains of one call of `palloc_get_multiple`, namely the pages of it that have not been freed.
The code does not see these; they say which calls of `palloc_free_multiple` are legitimate, and the
bitmaps are compared with them. Pages need not be freed all at once, nor as they were allocated.

## Main results

* `PallocRun.Inv.get`, `PallocRun.Inv.free`: a call keeps the bitmaps in accordance with the
  allocations.
* `palloc_correct`: what holds after every sequence of legitimate calls.
-/

namespace Pintos

open Verif Outcome List Bitmap

/-- The pages that one call of `palloc_get_multiple` has given out, and which it has not got back:
from which pool, and their numbers. -/
structure Allocation where
  user : Bool
  pages : List ℕ
  deriving DecidableEq, Repr

/-- The page allocator, and what it has given out. -/
structure PallocRun where
  palloc : Palloc
  outstanding : List Allocation

/-- A call of the page allocator. -/
inductive PallocOp where
  | get (flags : PallocFlags) (pageCnt : ℕ)
  | free (pages pageCnt : ℕ)
  deriving DecidableEq, Repr

/-- The pages of an allocation that are not in a range. -/
def Allocation.without (a : Allocation) (start cnt : ℕ) : Allocation :=
  { a with pages := a.pages.filter fun page => ¬InRange start cnt page }

namespace PallocRun

/-- The page belongs to an allocation of the pool. -/
def Allocated (s : PallocRun) (user : Bool) (page : ℕ) : Prop :=
  ∃ a ∈ s.outstanding, a.user = user ∧ page ∈ a.pages

/-- One call. -/
def step (s : PallocRun) : PallocOp → PallocM PallocRun
  | .get flags pageCnt => do
    let (pages, palloc) ← s.palloc.getMultiple flags pageCnt
    match pages with
    | none => return ⟨palloc, s.outstanding⟩
    | some pages =>
      return ⟨palloc, ⟨flags.user, range' (pgNo pages) pageCnt⟩ :: s.outstanding⟩
  | .free pages pageCnt => do
    let palloc ← s.palloc.freeMultiple pages pageCnt
    return ⟨palloc, s.outstanding.map (·.without (pgNo pages) pageCnt)⟩

/-- **The calls that are legitimate**: the pages that are freed are those of a range that was
allocated, and have not been freed since. -/
def Legitimate (s : PallocRun) : PallocOp → Prop
  | .get _ _ => True
  | .free pages pageCnt => pages % pgSize = 0 ∧
      ∃ user, ∀ page, InRange (pgNo pages) pageCnt page → s.Allocated user page

/-- A page of the pool that is in no allocation. -/
def Free (s : PallocRun) (user : Bool) (page : ℕ) : Prop :=
  s.palloc.InPool user page ∧ ¬s.Allocated user page

/-- The pool has a run of consecutive free pages. -/
def HasRun (s : PallocRun) (user : Bool) (pageCnt : ℕ) : Prop :=
  ∃ start, ∀ page, InRange start pageCnt page → s.Free user page

end PallocRun

namespace PallocRun

/-- **What is right about the page allocator** in a state. -/
structure Correct (s : PallocRun) (initRamPages : ℕ) : Prop where
  /-- The pools and their bitmaps do not overlap. -/
  layout : s.palloc.Layout initRamPages
  /-- An allocation lies in the pool that was selected, and `page_from_pool` says so. -/
  attributed : ∀ a ∈ s.outstanding, ∀ va, pgNo va ∈ a.pages →
    s.palloc.InPool a.user (pgNo va) ∧ (s.palloc.pool a.user).pageFromPool va = true ∧
      (s.palloc.pool (!a.user)).pageFromPool va = false
  /-- No two allocations have a page in common. -/
  disjoint : s.outstanding.Pairwise fun a b => ∀ page ∈ a.pages, page ∉ b.pages
  /-- A request is granted if there is a run of free pages, and what is given out is free and in
  the pool; no other memory is written. -/
  granted : ∀ flags pageCnt, 1 ≤ pageCnt → s.HasRun flags.user pageCnt →
    ∃ pages palloc, s.palloc.getMultiple flags pageCnt = .ok (some pages, palloc) ∧
      pages % pgSize = 0 ∧
      (∀ page, InRange (pgNo pages) pageCnt page → s.Free flags.user page) ∧
      (∀ va, ¬InRange (pgNo pages) pageCnt (pgNo va) → palloc.memory va = s.palloc.memory va) ∧
      -- freeing the pages again restores the pools
      ∃ palloc', palloc.freeMultiple pages pageCnt = .ok palloc' ∧
        ∀ user, palloc'.pool user = s.palloc.pool user
  /-- A request is refused if there is none. -/
  refused : ∀ flags pageCnt, 1 ≤ pageCnt → ¬s.HasRun flags.user pageCnt →
    s.palloc.getMultiple flags pageCnt =
      if flags.assert then .panic .outOfPages else .ok (none, s.palloc)
  /-- Pages that are freed are free afterwards, and nothing else about the pools changes. -/
  freed : ∀ pages pageCnt, s.Legitimate (.free pages pageCnt) →
    ∃ palloc, s.palloc.freeMultiple pages pageCnt = .ok palloc ∧ s.palloc.SamePools palloc ∧
      (∀ user i, i < (s.palloc.pool user).bitCnt → (palloc.pool user).usedMap i =
        if InRange (pgNo pages) pageCnt (pgNo (s.palloc.pool user).base + i) then false
        else (s.palloc.pool user).usedMap i) ∧
      ∀ va, ¬InRange (pgNo pages) pageCnt (pgNo va) → palloc.memory va = s.palloc.memory va
  /-- The pages that are marked are those of the allocations. -/
  used : ∀ user i, i < (s.palloc.pool user).bitCnt →
    ((s.palloc.pool user).usedMap i = true ↔ s.Allocated user (pgNo (s.palloc.pool user).base + i))

/-- **The invariant**: the pages that are marked in the bitmaps are those of the allocations, which
do not overlap. -/
structure Inv (s : PallocRun) (initRamPages : ℕ) : Prop where
  layout : s.palloc.Layout initRamPages
  used : ∀ user i, i < (s.palloc.pool user).bitCnt →
    ((s.palloc.pool user).usedMap i = true ↔ s.Allocated user (pgNo (s.palloc.pool user).base + i))
  within : ∀ a ∈ s.outstanding, ∀ page ∈ a.pages, s.palloc.InPool a.user page
  disjoint : s.outstanding.Pairwise fun a b => ∀ page ∈ a.pages, page ∉ b.pages

variable {s : PallocRun} {initRamPages page i pages pageCnt : ℕ} {user : Bool} {palloc : Palloc}

theorem Inv.inPool (h : s.Inv initRamPages) (hpage : s.Allocated user page) :
    s.palloc.InPool user page := by
  obtain ⟨a, ha, rfl, hmem⟩ := hpage
  exact h.within a ha page hmem

/-- A page that is allocated in one pool is not in the other. -/
theorem Inv.not_inPool (h : s.Inv initRamPages) (hpage : s.Allocated user page) :
    ¬s.palloc.InPool (!user) page :=
  h.layout.not_inPool (h.inPool hpage)

/-! ### Allocating -/

theorem allocated_cons {a : Allocation} :
    (⟨palloc, a :: s.outstanding⟩ : PallocRun).Allocated user page ↔
      a.user = user ∧ page ∈ a.pages ∨ s.Allocated user page := by
  simp only [Allocated, exists_mem_cons_iff]

/-- A free page is one whose bit is clear. -/
theorem Inv.free_iff (h : s.Inv initRamPages) (hi : i < (s.palloc.pool user).bitCnt) :
    s.Free user (pgNo (s.palloc.pool user).base + i) ↔
      (s.palloc.pool user).usedMap i = false := by
  rw [Free, ← h.used user i hi, Bool.not_eq_true]
  exact and_iff_right ⟨Nat.le_add_right _ _, Nat.add_lt_add_left hi _⟩

/-- **What is found is a run of free pages.** -/
theorem Inv.free_of_scan (h : s.Inv initRamPages)
    (hscan : scan (s.palloc.pool user).usedMap (s.palloc.pool user).bitCnt pageCnt false =
      some i) :
    ∀ page, InRange (pgNo (s.palloc.pool user).base + i) pageCnt page → s.Free user page := by
  obtain ⟨hfits, hclear⟩ := scan_eq_some hscan
  rintro page ⟨h₁, h₂⟩
  obtain ⟨k, rfl⟩ := Nat.exists_eq_add_of_le (le_trans (Nat.le_add_right _ _) h₁)
  exact (h.free_iff (by omega)).mpr (hclear k (by omega) (by omega))

/-- **Nothing is found only if there is no run.** -/
theorem Inv.not_hasRun (h : s.Inv initRamPages) (hcnt : 0 < pageCnt)
    (hscan : scan (s.palloc.pool user).usedMap (s.palloc.pool user).bitCnt pageCnt false =
      none) : ¬s.HasRun user pageCnt := by
  rintro ⟨start, hrun⟩
  have hfirst : s.palloc.InPool user start := (hrun start ⟨le_rfl, by omega⟩).1
  have hlast : s.palloc.InPool user (start + (pageCnt - 1)) :=
    (hrun _ ⟨Nat.le_add_right _ _, by omega⟩).1
  obtain ⟨k, rfl⟩ := Nat.exists_eq_add_of_le hfirst.1
  obtain ⟨hlo, hhi⟩ := hlast
  obtain ⟨j, h₁, h₂, hj⟩ := scan_eq_none (i := k) hscan (by omega)
  refine hj ((h.free_iff (by omega)).mp (hrun _ ⟨by omega, by omega⟩))

/-- **An allocation**: its pages are those of a run of free pages. -/
theorem Inv.get (h : s.Inv initRamPages) (memory : ℕ → UInt8)
    (hscan : scan (s.palloc.pool user).usedMap (s.palloc.pool user).bitCnt pageCnt false =
      some i) :
    Inv ⟨{ s.palloc with memory := memory }.setUsedMap user
        (setMultiple (s.palloc.pool user).usedMap i pageCnt true),
      ⟨user, range' (pgNo (s.palloc.pool user).base + i) pageCnt⟩ :: s.outstanding⟩
      initRamPages := by
  have hfree := h.free_of_scan hscan
  have hsame := Palloc.SamePools.setUsedMap s.palloc user
    (setMultiple (s.palloc.pool user).usedMap i pageCnt true) memory
  have hrange : ∀ {page}, page ∈ range' (pgNo (s.palloc.pool user).base + i) pageCnt ↔
      InRange (pgNo (s.palloc.pool user).base + i) pageCnt page := by
    intro page
    rw [mem_range'_1, InRange]
  refine ⟨h.layout.same hsame, fun u k hk => ?_, fun a ha page hpage => ?_, ?_⟩
  · rw [hsame.bitCnt] at hk
    rw [allocated_cons, hsame.base, hrange, Palloc.usedMap_setUsedMap]
    by_cases hu : u = user
    · subst hu
      rw [if_pos rfl]
      by_cases hin : i ≤ k ∧ k < i + pageCnt
      · rw [setMultiple_of_mem hin.1 hin.2]
        exact iff_of_true rfl (.inl ⟨rfl, by omega, by omega⟩)
      · rw [setMultiple_of_not_mem hin, h.used _ k hk, InRange]
        refine (or_iff_right fun hmem => hin ?_).symm
        omega
    · rw [if_neg hu]
      refine (h.used u k hk).trans (or_iff_right fun hmem => hu hmem.1.symm).symm
  · rw [hsame.inPool]
    rcases mem_cons.mp ha with rfl | ha
    · exact (hfree page (hrange.mp hpage)).1
    · exact h.within a ha page hpage
  · refine pairwise_cons.mpr ⟨fun a ha page hpage hmem => ?_, h.disjoint⟩
    obtain ⟨hin, hnot⟩ := hfree page (hrange.mp hpage)
    rcases Bool.eq_or_eq_not a.user user with hu | hu
    · exact hnot ⟨a, ha, hu, hmem⟩
    · have hother := h.layout.not_inPool hin
      rw [← hu] at hother
      exact hother (h.within a ha page hmem)

/-! ### Freeing -/

theorem mem_without {a : Allocation} {start cnt : ℕ} :
    page ∈ (a.without start cnt).pages ↔ page ∈ a.pages ∧ ¬InRange start cnt page := by
  rw [Allocation.without, mem_filter, decide_eq_true_eq]

theorem allocated_without {start cnt : ℕ} :
    (⟨palloc, s.outstanding.map (·.without start cnt)⟩ : PallocRun).Allocated user page ↔
      s.Allocated user page ∧ ¬InRange start cnt page := by
  simp only [Allocated, mem_map, exists_exists_and_eq_and, mem_without]
  constructor
  · rintro ⟨a, ha, hpage, huser, hnot⟩
    exact ⟨⟨a, ha, hpage, huser⟩, hnot⟩
  · rintro ⟨⟨a, ha, hpage, huser⟩, hnot⟩
    exact ⟨a, ha, hpage, huser, hnot⟩

/-- **What a legitimate call frees.** -/
theorem Inv.freeMultiple (h : s.Inv initRamPages) (hlegit : s.Legitimate (.free pages pageCnt)) :
    ∃ palloc, s.palloc.freeMultiple pages pageCnt = .ok palloc ∧ s.palloc.SamePools palloc ∧
      (∀ user i, i < (s.palloc.pool user).bitCnt → (palloc.pool user).usedMap i =
        if InRange (pgNo pages) pageCnt (pgNo (s.palloc.pool user).base + i) then false
        else (s.palloc.pool user).usedMap i) ∧
      ∀ va, ¬InRange (pgNo pages) pageCnt (pgNo va) → palloc.memory va = s.palloc.memory va := by
  obtain ⟨hpages, user, hall⟩ := hlegit
  rcases Nat.eq_zero_or_pos pageCnt with rfl | hcnt
  · refine ⟨s.palloc, ?_, ⟨fun _ => rfl, fun _ => rfl, fun _ => rfl⟩, fun u k _ => ?_,
      fun _ _ => rfl⟩
    · rw [Palloc.freeMultiple, ensure_of_true hpages, ok_bind, if_pos (.inr rfl)]
      rfl
    · rw [if_neg]
      rintro ⟨h₁, h₂⟩
      omega
  · have hin : ∀ page, InRange (pgNo pages) pageCnt page → s.palloc.InPool user page :=
      fun page hpage => h.inPool (hall page hpage)
    have hfirst : s.palloc.InPool user (pgNo pages) := hin _ ⟨le_rfl, by omega⟩
    have hused : ∀ i, InRange (pgNo pages) pageCnt (pgNo (s.palloc.pool user).base + i) →
        (s.palloc.pool user).usedMap i = true := by
      intro i hi
      have hlt := (hin _ hi).2
      exact (h.used user i (by omega)).mpr (hall _ hi)
    refine ⟨_, Palloc.freeMultiple_spec h.layout hpages hcnt hin hused, ?_, fun u k hk => ?_,
      fun va hva => ?_⟩
    · exact Palloc.SamePools.setUsedMap s.palloc user _ _
    · rw [Palloc.usedMap_setUsedMap]
      by_cases hu : u = user
      · subst hu
        rw [if_pos rfl]
        have hle := hfirst.1
        by_cases hk' : InRange (pgNo pages) pageCnt (pgNo (s.palloc.pool u).base + k)
        · rw [if_pos hk', setMultiple_of_mem] <;> rw [InRange] at hk' <;> omega
        · rw [if_neg hk', setMultiple_of_not_mem]
          rw [InRange] at hk'
          omega
      · rw [if_neg hu, if_neg]
        · rfl
        · intro hk'
          have hnot := h.not_inPool (hall _ hk')
          have hother : (!user) = u := by
            cases u <;> cases user <;> simp_all
          rw [hother] at hnot
          exact hnot ⟨Nat.le_add_right _ _, Nat.add_lt_add_left hk _⟩
    · rw [Palloc.memory_setUsedMap]
      exact Palloc.memset_of_not_inRange hva hpages

theorem Inv.free (h : s.Inv initRamPages) (hsame : s.palloc.SamePools palloc)
    (hbits : ∀ user i, i < (s.palloc.pool user).bitCnt → (palloc.pool user).usedMap i =
      if InRange (pgNo pages) pageCnt (pgNo (s.palloc.pool user).base + i) then false
      else (s.palloc.pool user).usedMap i) :
    Inv ⟨palloc, s.outstanding.map (·.without (pgNo pages) pageCnt)⟩ initRamPages := by
  refine ⟨h.layout.same hsame, fun user k hk => ?_, fun a ha page hpage => ?_, ?_⟩
  · rw [hsame.bitCnt] at hk
    rw [allocated_without, hsame.base, hbits user k hk, ← h.used user k hk]
    split
    · exact iff_of_false Bool.false_ne_true fun hnot => hnot.2 ‹_›
    · exact (and_iff_left ‹_›).symm
  · obtain ⟨b, hb, rfl⟩ := mem_map.mp ha
    rw [hsame.inPool]
    exact h.within b hb page (mem_without.mp hpage).1
  · rw [pairwise_map]
    refine h.disjoint.imp fun hab page hpage hpage' => ?_
    exact hab page (mem_without.mp hpage).1 (mem_without.mp hpage').1

/-- **Freeing what was just allocated** restores the pools. -/
theorem Inv.free_get (h : s.Inv initRamPages) (memory : ℕ → UInt8) (hcnt : 0 < pageCnt)
    (hscan : scan (s.palloc.pool user).usedMap (s.palloc.pool user).bitCnt pageCnt false =
      some i) :
    ∃ palloc, ({ s.palloc with memory := memory }.setUsedMap user
        (setMultiple (s.palloc.pool user).usedMap i pageCnt true)).freeMultiple
          ((s.palloc.pool user).base + pgSize * i) pageCnt = .ok palloc ∧
      ∀ u, palloc.pool u = s.palloc.pool u := by
  have hsame := Palloc.SamePools.setUsedMap s.palloc user
    (setMultiple (s.palloc.pool user).usedMap i pageCnt true) memory
  have hbits := Palloc.usedMap_setUsedMap { s.palloc with memory := memory } user
    (setMultiple (s.palloc.pool user).usedMap i pageCnt true)
  have hfree := h.free_of_scan hscan
  generalize hs : { s.palloc with memory := memory }.setUsedMap user
    (setMultiple (s.palloc.pool user).usedMap i pageCnt true) = palloc at hsame hbits ⊢
  have haligned : ((s.palloc.pool user).base + pgSize * i) % pgSize = 0 := by
    rw [Nat.add_mul_mod_self_left]
    exact h.layout.base_aligned user
  have hin : ∀ page, InRange (pgNo ((s.palloc.pool user).base + pgSize * i)) pageCnt page →
      palloc.InPool user page := by
    intro page hpage
    rw [Palloc.pgNo_base_add] at hpage
    exact hsame.inPool.mpr (hfree page hpage).1
  have hused : ∀ k, InRange (pgNo ((s.palloc.pool user).base + pgSize * i)) pageCnt
      (pgNo (palloc.pool user).base + k) → (palloc.pool user).usedMap k = true := by
    intro k hk
    rw [Palloc.pgNo_base_add, hsame.base, InRange] at hk
    rw [hbits, if_pos rfl]
    exact setMultiple_of_mem (by omega) (by omega)
  refine ⟨_, Palloc.freeMultiple_spec (h.layout.same hsame) haligned hcnt hin hused, fun u => ?_⟩
  refine (hsame.trans (Palloc.SamePools.setUsedMap palloc user _ _)).pool_eq ?_
  rw [Palloc.usedMap_setUsedMap, hsame.base, Palloc.pgNo_base_add, Nat.add_sub_cancel_left]
  by_cases hu : u = user
  · rw [if_pos hu, hbits, if_pos rfl, hu]
    exact setMultiple_undo (scan_eq_some hscan).2 true
  · rw [if_neg hu]
    exact (hbits u).trans (if_neg hu)

/-! ### Sequences of calls -/

/-- **One call keeps the invariant.** -/
theorem Inv.step (h : s.Inv initRamPages) {op : PallocOp} (hlegit : s.Legitimate op)
    {s' : PallocRun} (hstep : s.step op = .ok s') : s'.Inv initRamPages := by
  cases op with
  | get flags pageCnt =>
    obtain ⟨⟨res, palloc⟩, hget, hstep⟩ := bind_eq_ok.mp hstep
    rcases Nat.eq_zero_or_pos pageCnt with rfl | hcnt
    · rw [Palloc.getMultiple, if_pos rfl] at hget
      obtain ⟨rfl, rfl⟩ := Prod.mk.inj (ok.inj hget)
      obtain rfl := ok.inj hstep
      exact h
    · rcases s.palloc.getMultiple_cases flags hcnt with
        ⟨i, memory, hscan, hrun, -⟩ | ⟨-, hrun⟩
      · rw [hrun] at hget
        obtain ⟨rfl, rfl⟩ := Prod.mk.inj (ok.inj hget)
        obtain rfl := ok.inj hstep
        rw [Palloc.pgNo_base_add]
        exact h.get memory hscan
      · rw [hrun] at hget
        split at hget
        · cases hget
        · obtain ⟨rfl, rfl⟩ := Prod.mk.inj (ok.inj hget)
          obtain rfl := ok.inj hstep
          exact h
  | free pages pageCnt =>
    obtain ⟨palloc, hfree, hsame, hbits, -⟩ := h.freeMultiple hlegit
    rw [PallocRun.step, hfree, ok_bind] at hstep
    obtain rfl := ok.inj hstep
    exact h.free hsame hbits

/-- **The invariant says that all is right.** -/
theorem Inv.correct (h : s.Inv initRamPages) : s.Correct initRamPages where
  layout := h.layout
  used := h.used
  disjoint := h.disjoint
  freed _ _ hlegit := h.freeMultiple hlegit
  attributed a ha va hva := by
    have hin := h.within a ha _ hva
    refine ⟨hin, Palloc.pageFromPool_eq_true.mpr hin, ?_⟩
    rw [← Bool.not_eq_true, Palloc.pageFromPool_eq_true]
    exact h.layout.not_inPool hin
  refused flags pageCnt hcnt hnone := by
    rcases s.palloc.getMultiple_cases flags hcnt with ⟨i, palloc', hscan, -⟩ | ⟨-, hrun⟩
    · exact absurd ⟨_, h.free_of_scan hscan⟩ hnone
    · exact hrun
  granted flags pageCnt hcnt hsome := by
    rcases s.palloc.getMultiple_cases flags hcnt with
      ⟨i, memory, hscan, hrun, hmemory⟩ | ⟨hscan, -⟩
    · have haligned : ((s.palloc.pool flags.user).base + pgSize * i) % pgSize = 0 := by
        rw [Nat.add_mul_mod_self_left]
        exact h.layout.base_aligned flags.user
      have hfree := h.free_of_scan hscan
      rw [← Palloc.pgNo_base_add] at hfree
      refine ⟨_, _, hrun, haligned, hfree, fun va hva => ?_, h.free_get memory hcnt hscan⟩
      rw [Palloc.memory_setUsedMap]
      rcases hmemory with rfl | rfl
      · rfl
      · exact Palloc.memset_of_not_inRange hva haligned
    · exact absurd hsome (h.not_hasRun hcnt hscan)

end PallocRun

/-- **The page allocator is correct**: after every sequence of requests and of calls that free what
was allocated and was not freed since, all is right about it. -/
theorem palloc_correct {initRamPages userPageLimit : ℕ} {memory : ℕ → UInt8} {palloc : Palloc}
    {ops : List PallocOp} {s : PallocRun} (hram : 256 < initRamPages)
    (hinit : pallocInit initRamPages userPageLimit memory = .ok palloc)
    (hrun : Run PallocRun.step PallocRun.Legitimate ⟨palloc, []⟩ ops s) :
    s.Correct initRamPages := by
  obtain ⟨hlayout, hclear⟩ := pallocInit_spec hram hinit
  have hinv : s.Inv initRamPages := by
    refine hrun.invariant (I := fun s => s.Inv initRamPages)
      ⟨hlayout, fun user i _ => ?_, fun a ha => absurd ha not_mem_nil,
        List.Pairwise.nil⟩
      fun s op s' hs hlegit hstep => hs.step hlegit hstep
    rw [hclear user i]
    refine iff_of_false Bool.false_ne_true ?_
    rintro ⟨a, ha, -⟩
    cases ha
  exact hinv.correct

/-- 260 pages of RAM: there is one page in each pool. -/
theorem palloc_correct_small : ∃ palloc s,
    pallocInit 260 (2 ^ 32 - 1) (fun _ => 0) = .ok palloc ∧
    Run PallocRun.step PallocRun.Legitimate ⟨palloc, []⟩
      [.get ⟨false, true, false⟩ 1, .get ⟨true, false, false⟩ 1, .free 0xc0101000 1] s ∧
    s.Correct 260 := by
  have hrun : ∃ palloc s, pallocInit 260 (2 ^ 32 - 1) (fun _ => 0) = .ok palloc ∧
      Run PallocRun.step PallocRun.Legitimate ⟨palloc, []⟩
        [.get ⟨false, true, false⟩ 1, .get ⟨true, false, false⟩ 1, .free 0xc0101000 1] s := by
    refine ⟨_, _, rfl, .snoc (.snoc (.snoc .nil trivial rfl) trivial rfl) ?_ rfl⟩
    refine ⟨by decide, false, fun page hpage => ?_⟩
    refine ⟨_, mem_cons_of_mem _ mem_cons_self, rfl, ?_⟩
    rw [mem_range'_1]
    exact hpage
  obtain ⟨palloc, s, hinit, hrun⟩ := hrun
  exact ⟨palloc, s, hinit, hrun, palloc_correct (by decide) hinit hrun⟩

end Pintos
