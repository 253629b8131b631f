import Pintos.Pagedir

/-!
# The Entries of a Page Directory

What a page directory is made of, and what the calls do to the entries of its pages: each call
changes the entry of the page it names, and no other. The page directory of the kernel, which
`paging_init` makes, has no page table for a user page.

## Main results

* `Pagedir.Wf.pteAt_store`: storing into an entry changes this entry of the directory and no other.
* `Pagedir.Wf.lookupPage`, `Pagedir.Wf.lookupPage_create`: what `lookup_page` finds and makes.
* `Pagedir.Wf.pagedirSetPage`, `Pagedir.Wf.pagedirClearPage`, `Pagedir.Wf.changeFlag`,
  `Pagedir.Wf.pagedirGetPage`: what the calls do to the entries.
* `Pagedir.kernelDir_of_pagingInit`, `Pagedir.KernelDir.pagedirCreate`: where directories start.
-/

namespace Pintos

open Verif Pte Function Outcome List

namespace Pagedir

/-! ### Directories -/

/-- The entry of a page; if there is no page table for it, it is zero. -/
def pteAt (s : Pagedir) (pd va : Word) : Word :=
  if s.memory pd (pdNo va) = 0 then 0 else s.memory (pdeGetPt (s.memory pd (pdNo va))) (ptNo va)

/-- A page that may be a page table of a directory: a page of the kernel that is neither the
directory nor `init_page_dir`. -/
structure TablePage (s : Pagedir) (pd pt : Word) : Prop where
  aligned : pgOfs pt = 0
  kernel : isUserVaddr pt = false
  ne_pd : pt ≠ pd
  ne_init : pt ≠ s.initPageDir

/-- **A directory is well-formed** if its entries are zero or point to page tables, each to another
one, and the user pages that are present are in frames. -/
structure Wf (s : Pagedir) (pd : Word) : Prop where
  ne_init : pd ≠ s.initPageDir
  table : ∀ i < 1024, s.memory pd i ≠ 0 →
    ∃ pt, s.memory pd i = pdeCreate pt ∧ s.TablePage pd pt
  inj : ∀ i < 1024, ∀ j < 1024, s.memory pd i ≠ 0 → s.memory pd j ≠ 0 →
    pdeGetPt (s.memory pd i) = pdeGetPt (s.memory pd j) → i = j
  frame : ∀ va, isUserVaddr va = true → isSet (s.pteAt pd va) flagP = true →
    s.pteAt pd va &&& addrMask < physBase

variable {s s' : Pagedir} {pd va vb pt : Word} {i j : ℕ}

theorem store_memory (s : Pagedir) (page : Word) (i : ℕ) (w p : Word) (j : ℕ) :
    (s.store page i w).memory p j = if p = page ∧ j = i then w else s.memory p j := by
  rw [store]
  dsimp only
  by_cases hp : p = page
  · subst hp
    rw [update_self]
    by_cases hj : j = i
    · rw [hj, update_self, if_pos ⟨rfl, rfl⟩]
    · rw [update_of_ne hj, if_neg fun h => hj h.2]
  · rw [update_of_ne hp, if_neg fun h => hp h.1]

theorem fillPage_memory (s : Pagedir) (page w p : Word) (j : ℕ) :
    (s.fillPage page w).memory p j = if p = page then w else s.memory p j := by
  rw [fillPage]
  dsimp only
  by_cases hp : p = page
  · rw [hp, update_self, if_pos rfl]
  · rw [update_of_ne hp, if_neg hp]

theorem TablePage.pdeGetPt (h : s.TablePage pd pt) : pdeGetPt (pdeCreate pt) = pt :=
  (pdeCreate_spec h.aligned).1

/-- The page table of an entry. -/
theorem Wf.getPt (h : s.Wf pd) (hi : i < 1024) (hne : s.memory pd i ≠ 0) :
    Pagedir.getPt (s.memory pd i) = .ok (pdeGetPt (s.memory pd i)) ∧
      isSet (s.memory pd i) flagP = true ∧ s.TablePage pd (pdeGetPt (s.memory pd i)) := by
  obtain ⟨pt, hpt, hpage⟩ := h.table i hi hne
  obtain ⟨hget, hpresent, haddr, -⟩ := pdeCreate_spec hpage.aligned
  rw [hpt]
  refine ⟨?_, hpresent, by rwa [hget]⟩
  rw [Pagedir.getPt, ensure_of_true hpresent, ok_bind,
    ensure_of_true (by rw [haddr]; exact vtop_lt hpage.kernel)]
  rfl

/-- **Storing into an entry** changes this entry and no other. -/
theorem Wf.pteAt_store (h : s.Wf pd) (hne : s.memory pd (pdNo va) ≠ 0) (w : Word) (vb : Word) :
    (s.store (pdeGetPt (s.memory pd (pdNo va))) (ptNo va) w).pteAt pd vb =
      if pgNo vb = pgNo va then w else s.pteAt pd vb := by
  have htable := (h.getPt (pdNo_lt va) hne).2.2
  have hpd : ∀ i, (s.store (pdeGetPt (s.memory pd (pdNo va))) (ptNo va) w).memory pd i =
      s.memory pd i := fun i => by
    rw [store_memory, if_neg fun hp => htable.ne_pd hp.1.symm]
  rw [pteAt, hpd, store_memory, pteAt]
  by_cases hzero : s.memory pd (pdNo vb) = 0
  · rw [if_pos hzero, if_pos hzero, if_neg]
    intro hpage
    rw [(pgNo_eq_iff.mp hpage).1] at hzero
    exact hne hzero
  · rw [if_neg hzero, if_neg hzero]
    have hiff : (pdeGetPt (s.memory pd (pdNo vb)) = pdeGetPt (s.memory pd (pdNo va)) ∧
        ptNo vb = ptNo va) ↔ pgNo vb = pgNo va := by
      rw [pgNo_eq_iff]
      refine and_congr_left' ⟨h.inj _ (pdNo_lt vb) _ (pdNo_lt va) hzero hne, fun heq => ?_⟩
      rw [heq]
    rw [if_congr hiff rfl rfl]

theorem Wf.store (h : s.Wf pd) (hne : s.memory pd (pdNo va) ≠ 0) {w : Word}
    (hw : isUserVaddr va = true → isSet w flagP = true → w &&& addrMask < physBase) :
    (s.store (pdeGetPt (s.memory pd (pdNo va))) (ptNo va) w).Wf pd := by
  have htable := (h.getPt (pdNo_lt va) hne).2.2
  have hpd : ∀ i, (s.store (pdeGetPt (s.memory pd (pdNo va))) (ptNo va) w).memory pd i =
      s.memory pd i := fun i => by
    rw [store_memory, if_neg fun hp => htable.ne_pd hp.1.symm]
  refine ⟨h.ne_init, fun i hi hi' => ?_, fun i hi j hj hi' hj' heq => ?_, fun vb hvb hset => ?_⟩
  · rw [hpd] at hi' ⊢
    obtain ⟨pt, hpt, hpage⟩ := h.table i hi hi'
    exact ⟨pt, hpt, hpage.aligned, hpage.kernel, hpage.ne_pd, hpage.ne_init⟩
  · rw [hpd] at hi' hj'
    rw [hpd, hpd] at heq
    exact h.inj i hi j hj hi' hj' heq
  · rw [h.pteAt_store hne] at hset ⊢
    split at hset
    · rename_i hpage
      rw [if_pos hpage]
      refine hw ?_ hset
      rw [isUserVaddr_iff] at hvb ⊢
      rwa [← (pgNo_eq_iff.mp hpage).1]
    · rename_i hpage
      rw [if_neg hpage]
      exact h.frame vb hvb hset

/-! ### Looking up an entry -/

/-- What `lookup_page` finds, if it does not make a page table. -/
theorem Wf.lookupPage (h : s.Wf pd) (va : Word) :
    s.lookupPage pd va false none = .ok (if s.memory pd (pdNo va) = 0 then none
      else some (pdeGetPt (s.memory pd (pdNo va)), ptNo va), s) := by
  rw [Pagedir.lookupPage, ensure_of_true (.inl rfl), ok_bind, makeTable]
  by_cases hzero : s.memory pd (pdNo va) = 0
  · rw [if_pos hzero, if_pos hzero]
    rfl
  · rw [if_neg hzero, if_neg hzero, pure_eq, ok_bind]
    dsimp only
    rw [(h.getPt (pdNo_lt va) hzero).1]
    rfl

/-- The page that `palloc_get_page` answers with is not one that the directory is made of. -/
def Fresh (s : Pagedir) (pd : Word) (page : Option Word) : Prop :=
  ∀ pt, page = some pt → s.TablePage pd pt ∧
    ∀ i < 1024, s.memory pd i ≠ 0 → pdeGetPt (s.memory pd i) ≠ pt

/-- The page tables are still different from each other when one is added. -/
theorem inj_of_update {e e' : ℕ → Word} {k : ℕ} (hpt : pgOfs pt = 0)
    (hinj : ∀ i < 1024, ∀ j < 1024, e i ≠ 0 → e j ≠ 0 → pdeGetPt (e i) = pdeGetPt (e j) → i = j)
    (hfresh : ∀ i < 1024, e i ≠ 0 → pdeGetPt (e i) ≠ pt)
    (he : ∀ i, e' i = if i = k then pdeCreate pt else e i) :
    ∀ i < 1024, ∀ j < 1024, e' i ≠ 0 → e' j ≠ 0 → pdeGetPt (e' i) = pdeGetPt (e' j) → i = j := by
  intro i hi j hj hi' hj' heq
  have hget := (pdeCreate_spec hpt).1
  rw [he] at hi' hj'
  rw [he, he] at heq
  by_cases hik : i = k
  · by_cases hjk : j = k
    · rw [hik, hjk]
    · rw [if_neg hjk] at hj' heq
      rw [if_pos hik, hget] at heq
      exact absurd heq.symm (hfresh j hj hj')
  · rw [if_neg hik] at hi' heq
    by_cases hjk : j = k
    · rw [if_pos hjk, hget] at heq
      exact absurd heq (hfresh i hi hi')
    · rw [if_neg hjk] at hj' heq
      exact hinj i hi j hj hi' hj' heq

/-- **A page table is made**: the entries in it are zero, which they have been before. -/
theorem Wf.makeTable (h : s.Wf pd) (hpage : s.TablePage pd pt)
    (hfresh : ∀ i < 1024, s.memory pd i ≠ 0 → pdeGetPt (s.memory pd i) ≠ pt)
    (hzero : s.memory pd (pdNo va) = 0) :
    ((s.fillPage pt 0).store pd (pdNo va) (pdeCreate pt)).Wf pd ∧
      (∀ i, ((s.fillPage pt 0).store pd (pdNo va) (pdeCreate pt)).memory pd i =
        if i = pdNo va then pdeCreate pt else s.memory pd i) ∧
      ∀ vb, ((s.fillPage pt 0).store pd (pdNo va) (pdeCreate pt)).pteAt pd vb = s.pteAt pd vb := by
  have hget := hpage.pdeGetPt
  have hpd : ∀ i, ((s.fillPage pt 0).store pd (pdNo va) (pdeCreate pt)).memory pd i =
      if i = pdNo va then pdeCreate pt else s.memory pd i := fun i => by
    rw [store_memory, fillPage_memory, if_neg hpage.ne_pd.symm]
    exact if_congr (and_iff_right rfl) rfl rfl
  have hpte : ∀ vb, ((s.fillPage pt 0).store pd (pdNo va) (pdeCreate pt)).pteAt pd vb =
      s.pteAt pd vb := fun vb => by
    rw [pteAt, hpd, pteAt]
    by_cases hvb : pdNo vb = pdNo va
    · rw [if_pos hvb, if_neg (pdeCreate_spec hpage.aligned).2.2.2, hget, store_memory,
        if_neg fun hp => hpage.ne_pd hp.1, fillPage_memory, if_pos rfl, hvb, if_pos hzero]
    · rw [if_neg hvb]
      by_cases hvb' : s.memory pd (pdNo vb) = 0
      · rw [if_pos hvb', if_pos hvb']
      · have htable := (h.getPt (pdNo_lt vb) hvb').2.2
        rw [if_neg hvb', if_neg hvb', store_memory, if_neg fun hp => htable.ne_pd hp.1,
          fillPage_memory, if_neg (hfresh _ (pdNo_lt vb) hvb')]
  refine ⟨⟨h.ne_init, fun i hi hi' => ?_, fun i hi j hj hi' hj' heq => ?_, fun vb hvb hset => ?_⟩,
    hpd, hpte⟩
  · rw [hpd] at hi' ⊢
    split_ifs with hne
    · exact ⟨pt, rfl, hpage.aligned, hpage.kernel, hpage.ne_pd, hpage.ne_init⟩
    · rw [if_neg hne] at hi'
      obtain ⟨pt', hpt', hpage'⟩ := h.table i hi hi'
      exact ⟨pt', hpt', hpage'.aligned, hpage'.kernel, hpage'.ne_pd, hpage'.ne_init⟩
  · exact inj_of_update hpage.aligned h.inj hfresh hpd i hi j hj hi' hj' heq
  · rw [hpte] at hset ⊢
    exact h.frame vb hvb hset

/-- **What `lookup_page` finds or makes**: nothing if there is no page table and no page for it;
otherwise the entry, in a directory that has the entries it had before. -/
theorem Wf.lookupPage_create (h : s.Wf pd) (huser : isUserVaddr va = true) {page : Option Word}
    (hfresh : s.Fresh pd page) :
    s.lookupPage pd va true page = .ok (none, s) ∧ page = none ∨
    ∃ s', s.lookupPage pd va true page =
        .ok (some (pdeGetPt (s'.memory pd (pdNo va)), ptNo va), s') ∧
      s'.Wf pd ∧ s'.memory pd (pdNo va) ≠ 0 ∧ (∀ vb, s'.pteAt pd vb = s.pteAt pd vb) ∧
      s'.initPageDir = s.initPageDir ∧ s'.initRamPages = s.initRamPages ∧
      ∀ i, s.memory pd i ≠ 0 → s'.memory pd i = s.memory pd i := by
  rw [Pagedir.lookupPage, ensure_of_true (.inr huser), ok_bind,
    Pagedir.makeTable.eq_def]
  by_cases hzero : s.memory pd (pdNo va) = 0
  · rw [if_pos hzero, if_pos rfl]
    cases page with
    | none => exact .inl ⟨rfl, rfl⟩
    | some pt =>
      obtain ⟨hpage, hother⟩ := hfresh pt rfl
      obtain ⟨hwf, hpd, hpte⟩ := h.makeTable hpage hother hzero
      have hne : ((s.fillPage pt 0).store pd (pdNo va) (pdeCreate pt)).memory pd (pdNo va) ≠ 0 := by
        rw [hpd, if_pos rfl]
        exact (pdeCreate_spec hpage.aligned).2.2.2
      refine .inr ⟨_, ?_, hwf, hne, hpte, rfl, rfl, fun i hi => ?_⟩
      · dsimp only
        rw [ensure_of_true hpage.aligned, ok_bind,
          ensure_of_true hpage.kernel, ok_bind, pure_eq, ok_bind]
        dsimp only
        rw [(hwf.getPt (pdNo_lt va) hne).1]
        rfl
      · rw [hpd, if_neg]
        rintro rfl
        exact hi hzero
  · rw [if_neg hzero, pure_eq, ok_bind]
    dsimp only
    rw [(h.getPt (pdNo_lt va) hzero).1]
    exact .inr ⟨s, rfl, h, hzero, fun _ => rfl, rfl, rfl, fun _ _ => rfl⟩

/-! ### The calls -/

/-- The entry of a page is the same for all its addresses. -/
theorem pteAt_congr (h : pgNo va = pgNo vb) : s.pteAt pd va = s.pteAt pd vb := by
  rw [pteAt, pteAt, (pgNo_eq_iff.mp h).1, (pgNo_eq_iff.mp h).2]

/-- **`pagedir_set_page`** on a page that is not present. -/
theorem Wf.pagedirSetPage (h : s.Wf pd) {upage kpage : Word} (writable : Bool)
    {page : Option Word} (hupage : pgOfs upage = 0) (hkpage : pgOfs kpage = 0)
    (huser : isUserVaddr upage = true) (hkernel : isUserVaddr kpage = false)
    (hram : vtop kpage >>> 12 < s.initRamPages) (hfresh : s.Fresh pd page)
    (habsent : isSet (s.pteAt pd upage) flagP = false) :
    s.pagedirSetPage pd upage kpage writable page = .ok (false, s) ∧ page = none ∨
    ∃ s', s.pagedirSetPage pd upage kpage writable page = .ok (true, s') ∧ s'.Wf pd ∧
      ∀ vb, s'.pteAt pd vb =
        if pgNo vb = pgNo upage then pteCreateUser kpage writable else s.pteAt pd vb := by
  rw [Pagedir.pagedirSetPage, ensure_of_true hupage, ok_bind,
    ensure_of_true hkpage, ok_bind, ensure_of_true huser, ok_bind,
    ensure_of_true hkernel, ok_bind, ensure_of_true hram, ok_bind,
    ensure_of_true h.ne_init, ok_bind]
  rcases h.lookupPage_create huser hfresh with ⟨hrun, hpage⟩ | ⟨s', hrun, hwf, hne, hpte, -⟩
  · refine .inl ⟨?_, hpage⟩
    rw [hrun]
    rfl
  · have hentry : s'.memory (pdeGetPt (s'.memory pd (pdNo upage))) (ptNo upage) =
        s.pteAt pd upage := by
      rw [← hpte upage, pteAt, if_neg hne]
    refine .inr ⟨_, ?_, hwf.store hne (w := pteCreateUser kpage writable) fun _ _ => ?_,
      fun vb => ?_⟩
    · rw [hrun, ok_bind]
      dsimp only
      rw [hentry, ensure_of_true habsent]
      rfl
    · rw [pteCreateUser_and_addrMask hkpage]
      exact vtop_lt hkernel
    · rw [hwf.pteAt_store hne, hpte]

/-- **`pagedir_clear_page`.** -/
theorem Wf.pagedirClearPage (h : s.Wf pd) {upage : Word} (hupage : pgOfs upage = 0)
    (huser : isUserVaddr upage = true) :
    ∃ s', s.pagedirClearPage pd upage = .ok s' ∧ s'.Wf pd ∧
      (∀ vb, pgNo vb ≠ pgNo upage → s'.pteAt pd vb = s.pteAt pd vb) ∧
      isSet (s'.pteAt pd upage) flagP = false := by
  rw [Pagedir.pagedirClearPage, ensure_of_true hupage, ok_bind,
    ensure_of_true huser, ok_bind, h.lookupPage, ok_bind]
  by_cases hzero : s.memory pd (pdNo upage) = 0
  · rw [if_pos hzero]
    refine ⟨s, rfl, h, fun _ _ => rfl, ?_⟩
    rw [pteAt, if_pos hzero]
    rfl
  · have hentry : s.pteAt pd upage =
        s.memory (pdeGetPt (s.memory pd (pdNo upage))) (ptNo upage) := by
      rw [pteAt, if_neg hzero]
    rw [if_neg hzero]
    dsimp only
    rw [← hentry]
    split_ifs with hnot
    · have hcleared : isSet (s.pteAt pd upage &&& ~~~flagP) flagP = false := isSet_clear _
      refine ⟨_, rfl, h.store hzero fun _ hset => ?_, fun vb hvb => ?_, ?_⟩
      · rw [hcleared] at hset
        cases hset
      · rw [h.pteAt_store hzero, if_neg hvb]
      · rw [h.pteAt_store hzero, if_pos rfl, hcleared]
    · exact ⟨s, rfl, h, fun _ _ => rfl, by simpa using hnot⟩

/-- **`pagedir_set_dirty` and `pagedir_set_accessed`.** -/
theorem Wf.changeFlag (h : s.Wf pd) (va : Word) {flag : Word} (hflag : IsFlag flag) (value : Bool) :
    ∃ s', s.changeFlag pd va flag value = .ok s' ∧ s'.Wf pd ∧
      (∀ vb, pgNo vb ≠ pgNo va → s'.pteAt pd vb = s.pteAt pd vb) ∧
      (s'.pteAt pd va = setFlag (s.pteAt pd va) flag value ∨
        s'.pteAt pd va = s.pteAt pd va ∧ isSet (s.pteAt pd va) flagP = false) := by
  rw [Pagedir.changeFlag, h.lookupPage, ok_bind]
  by_cases hzero : s.memory pd (pdNo va) = 0
  · rw [if_pos hzero]
    refine ⟨s, rfl, h, fun _ _ => rfl, .inr ⟨rfl, ?_⟩⟩
    rw [pteAt, if_pos hzero]
    rfl
  · have hentry : s.pteAt pd va = s.memory (pdeGetPt (s.memory pd (pdNo va))) (ptNo va) := by
      rw [pteAt, if_neg hzero]
    rw [if_neg hzero]
    dsimp only
    rw [← hentry]
    refine ⟨_, rfl, h.store hzero fun huser hset => ?_, fun vb hvb => ?_, .inl ?_⟩
    · rw [hflag.isSet_setFlag] at hset
      rw [setFlag_and_addrMask _ hflag.1 hflag.2.1]
      exact h.frame va huser hset
    · rw [h.pteAt_store hzero, if_neg hvb]
    · rw [h.pteAt_store hzero, if_pos rfl]

/-- **`pagedir_get_page`.** -/
theorem Wf.pagedirGetPage (h : s.Wf pd) (huser : isUserVaddr va = true) :
    s.pagedirGetPage pd va = .ok ((decode (s.pteAt pd va)).map fun m => m.frame + pgOfs va) := by
  rw [Pagedir.pagedirGetPage, ensure_of_true huser, ok_bind, h.lookupPage,
    ok_bind]
  by_cases hzero : s.memory pd (pdNo va) = 0
  · rw [if_pos hzero, pteAt, if_pos hzero]
    rfl
  · have hentry : s.pteAt pd va = s.memory (pdeGetPt (s.memory pd (pdNo va))) (ptNo va) := by
      rw [pteAt, if_neg hzero]
    rw [if_neg hzero]
    dsimp only
    rw [← hentry, decode]
    split_ifs with hset
    · rw [ensure_of_true (h.frame va huser hset)]
      rfl
    · rfl

/-- **`pagedir_is_dirty` and `pagedir_is_accessed`.** -/
theorem Wf.isFlag (h : s.Wf pd) (va flag : Word) :
    s.isFlag pd va flag = .ok (isSet (s.pteAt pd va) flag) := by
  rw [Pagedir.isFlag, h.lookupPage, ok_bind]
  by_cases hzero : s.memory pd (pdNo va) = 0
  · have hclear : isSet 0 flag = false := by simp [isSet]
    rw [if_pos hzero, pteAt, if_pos hzero, hclear]
    rfl
  · rw [if_neg hzero, pteAt, if_neg hzero]
    rfl

/-! ### The directory of the kernel -/

/-- **`init_page_dir`**: no user page has a page table. -/
structure KernelDir (s : Pagedir) : Prop where
  user : ∀ i < 768, s.memory s.initPageDir i = 0
  table : ∀ i < 1024, s.memory s.initPageDir i ≠ 0 →
    ∃ pt, s.memory s.initPageDir i = pdeCreate pt ∧ pgOfs pt = 0 ∧ isUserVaddr pt = false ∧
      pt ≠ s.initPageDir
  inj : ∀ i < 1024, ∀ j < 1024, s.memory s.initPageDir i ≠ 0 → s.memory s.initPageDir j ≠ 0 →
    pdeGetPt (s.memory s.initPageDir i) = pdeGetPt (s.memory s.initPageDir j) → i = j

/-- Pages that `palloc_get_page` may answer with in `paging_init`. -/
structure FreePages (s : Pagedir) (pages : List Word) : Prop where
  nodup : pages.Nodup
  ne_init : ∀ page ∈ pages, page ≠ s.initPageDir
  table : ∀ page ∈ pages, ∀ i < 1024, s.memory s.initPageDir i ≠ 0 →
    pdeGetPt (s.memory s.initPageDir i) ≠ page

/-- Only the words of `init_page_dir` matter. -/
theorem KernelDir.congr (h : s.KernelDir) (hinit : s'.initPageDir = s.initPageDir)
    (hmemory : ∀ i, s'.memory s.initPageDir i = s.memory s.initPageDir i) : s'.KernelDir := by
  refine ⟨fun i hi => ?_, fun i hi hne => ?_, fun i hi j hj hi' hj' heq => ?_⟩
  · rw [hinit, hmemory]
    exact h.user i hi
  · rw [hinit, hmemory] at hne ⊢
    exact h.table i hi hne
  · rw [hinit, hmemory] at hi' hj'
    rw [hinit, hmemory, hmemory] at heq
    exact h.inj i hi j hj hi' hj' heq

theorem FreePages.congr {pages : List Word} (h : s.FreePages pages)
    (hinit : s'.initPageDir = s.initPageDir)
    (hmemory : ∀ i, s'.memory s.initPageDir i = s.memory s.initPageDir i) :
    s'.FreePages pages := by
  refine ⟨h.nodup, fun page hpage => ?_, fun page hpage i hi hne => ?_⟩
  · rw [hinit]
    exact h.ne_init page hpage
  · rw [hinit, hmemory] at hne ⊢
    exact h.table page hpage i hi hne

/-- A page table of the kernel is made. -/
theorem KernelDir.makeTable (h : s.KernelDir) {pages : List Word}
    (hpages : s.FreePages (pt :: pages)) (haligned : pgOfs pt = 0)
    (hkernel : isUserVaddr pt = false) (hva : isUserVaddr va = false) :
    ((s.fillPage pt 0).store s.initPageDir (pdNo va) (pdeCreate pt)).KernelDir ∧
      ((s.fillPage pt 0).store s.initPageDir (pdNo va) (pdeCreate pt)).FreePages pages := by
  have hne := hpages.ne_init pt mem_cons_self
  have hother := hpages.table pt mem_cons_self
  have hget := (pdeCreate_spec haligned).1
  have hge : ¬pdNo va < 768 := fun hlt => by
    rw [isUserVaddr_iff.mpr hlt] at hva
    cases hva
  have hmemory : ∀ i, ((s.fillPage pt 0).store s.initPageDir (pdNo va) (pdeCreate pt)).memory
      s.initPageDir i = if i = pdNo va then pdeCreate pt else s.memory s.initPageDir i :=
    fun i => by
      rw [store_memory, fillPage_memory, if_neg hne.symm]
      exact if_congr (and_iff_right rfl) rfl rfl
  have hinit : ((s.fillPage pt 0).store s.initPageDir (pdNo va) (pdeCreate pt)).initPageDir =
      s.initPageDir := rfl
  refine ⟨⟨fun i hi => ?_, fun i hi hi' => ?_, fun i hi j hj hi' hj' heq => ?_⟩,
    (nodup_cons.mp hpages.nodup).2,
    fun page hpage => hpages.ne_init page (mem_cons_of_mem _ hpage),
    fun page hpage i hi hi' => ?_⟩
  · rw [hinit, hmemory, if_neg (by omega)]
    exact h.user i hi
  · rw [hinit, hmemory] at hi' ⊢
    split_ifs with hi''
    · exact ⟨pt, rfl, haligned, hkernel, hne⟩
    · rw [if_neg hi''] at hi'
      exact h.table i hi hi'
  · exact inj_of_update haligned h.inj hother hmemory i hi j hj hi' hj' heq
  · rw [hinit, hmemory] at hi' ⊢
    split_ifs with hi''
    · rw [hget]
      rintro rfl
      exact (nodup_cons.mp hpages.nodup).1 hpage
    · rw [if_neg hi''] at hi'
      exact hpages.table page (mem_cons_of_mem _ hpage) i hi hi'

/-- One page of memory in `paging_init`. -/
theorem KernelDir.pagingTable (h : s.KernelDir) {pages pages' : List Word} {pt' : Word}
    (hpages : s.FreePages pages) (hpt : pt ≠ s.initPageDir) (hva : isUserVaddr va = false)
    (hrun : s.pagingTable s.initPageDir va pt pages = .ok (s', pt', pages')) :
    s'.KernelDir ∧ s'.FreePages pages' ∧ pt' ≠ s.initPageDir ∧ s'.initPageDir = s.initPageDir := by
  rw [Pagedir.pagingTable.eq_def] at hrun
  split at hrun
  · cases pages with
    | nil => cases hrun
    | cons page rest =>
      obtain ⟨haligned, hrun⟩ := ensure_bind_eq_ok.mp hrun
      obtain ⟨hkernel, hrun⟩ := ensure_bind_eq_ok.mp hrun
      cases hrun
      obtain ⟨hdir, hfree⟩ := h.makeTable hpages haligned hkernel hva
      exact ⟨hdir, hfree, hpages.ne_init _ mem_cons_self, rfl⟩
  · cases hrun
    exact ⟨h, hpages, hpt, rfl⟩

theorem KernelDir.pagingLoop {inKernelText : Word → Bool} {rest : List ℕ} {pages : List Word}
    (h : s.KernelDir) (hpages : s.FreePages pages) (hpt : pt ≠ s.initPageDir)
    (hrun : s.pagingLoop s.initPageDir inKernelText rest pt pages = .ok s') : s'.KernelDir := by
  induction rest generalizing s pt pages with
  | nil =>
    cases hrun
    exact h
  | cons page rest ih =>
    obtain ⟨-, hrun⟩ := ensure_bind_eq_ok.mp hrun
    obtain ⟨⟨s₁, pt₁, pages₁⟩, htable, hrun⟩ := bind_eq_ok.mp hrun
    obtain ⟨-, hrun⟩ := ensure_bind_eq_ok.mp hrun
    obtain ⟨hva, hrun⟩ := ensure_bind_eq_ok.mp hrun
    obtain ⟨hdir, hfree, hpt₁, hinit⟩ := h.pagingTable hpages hpt hva htable
    rw [← hinit] at hrun hpt₁
    have hmemory : ∀ i w j, (s₁.store pt₁ i w).memory s₁.initPageDir j =
        s₁.memory s₁.initPageDir j := fun i w j => by
      rw [store_memory, if_neg fun hp => hpt₁ hp.1.symm]
    refine ih (s := s₁.store pt₁ _ _) ?_ ?_ hpt₁ hrun
    · exact hdir.congr rfl (hmemory _ _)
    · exact hfree.congr rfl (hmemory _ _)

/-- **`paging_init`** makes the directory of the kernel. -/
theorem kernelDir_of_pagingInit {inKernelText : Word → Bool} {pages : List Word}
    (hnodup : pages.Nodup) (hnull : (0 : Word) ∉ pages)
    (hrun : s.pagingInit inKernelText pages = .ok s') : s'.KernelDir := by
  cases pages with
  | nil => cases hrun
  | cons pd pages =>
    have hzero : ∀ i, (s.fillPage pd 0).memory pd i = 0 := fun i => by
      rw [fillPage_memory, if_pos rfl]
    refine KernelDir.pagingLoop (s := { s.fillPage pd 0 with initPageDir := pd })
      ⟨fun i _ => hzero i, fun i _ hne => absurd (hzero i) hne,
        fun i _ _ _ hne => absurd (hzero i) hne⟩
      ⟨(nodup_cons.mp hnodup).2, fun page hpage heq => ?_,
        fun _ _ i _ hne => absurd (hzero i) hne⟩ (fun heq => ?_) hrun
    · rw [heq] at hpage
      exact (nodup_cons.mp hnodup).1 hpage
    · rw [heq] at hnull
      exact hnull mem_cons_self

/-- **`pagedir_create`** makes a directory that maps no user page. -/
theorem KernelDir.pagedirCreate (h : s.KernelDir) (hne : pd ≠ s.initPageDir)
    (hfresh : ∀ i < 1024, s.memory s.initPageDir i ≠ 0 →
      pdeGetPt (s.memory s.initPageDir i) ≠ pd) :
    (s.pagedirCreate (some pd)).2.Wf pd ∧
      ∀ va, isUserVaddr va = true → (s.pagedirCreate (some pd)).2.pteAt pd va = 0 := by
  have hmemory : ∀ i, (s.pagedirCreate (some pd)).2.memory pd i = s.memory s.initPageDir i :=
    fun i => by
      rw [Pagedir.pagedirCreate]
      dsimp only
      rw [update_self]
  have huser : ∀ va, isUserVaddr va = true → (s.pagedirCreate (some pd)).2.pteAt pd va = 0 :=
    fun va hva => by
      rw [pteAt, hmemory, if_pos (h.user _ (isUserVaddr_iff.mp hva))]
  refine ⟨⟨hne, fun i hi hi' => ?_, fun i hi j hj hi' hj' heq => ?_, fun va hva hset => ?_⟩,
    huser⟩
  · rw [hmemory] at hi' ⊢
    obtain ⟨pt, hpt, haligned, hkernel, hinit⟩ := h.table i hi hi'
    refine ⟨pt, hpt, haligned, hkernel, ?_, hinit⟩
    rintro rfl
    refine hfresh i hi hi' ?_
    rw [hpt, (pdeCreate_spec haligned).1]
  · rw [hmemory] at hi' hj'
    rw [hmemory, hmemory] at heq
    exact h.inj i hi j hj hi' hj' heq
  · rw [huser va hva] at hset
    cases hset

end Pagedir

end Pintos
