import Mathlib.Data.List.Nodup
import Pintos.PagedirEntries

/-!
# A Page Directory as a Map

What a page directory is for is a map from user pages to frames and their flags. From
`pagedir_create` on, whatever sequence of calls is made and whether or not there is memory for page
tables, `pagedir_get_page` finds what the map has, each call changes the page it names and no
other, and a `pagedir_set_page` that fails changes nothing. `pagedir_destroy` frees the frames, the
page tables and the directory, each once, if no two pages share a frame.

## Main results

* `PdRun.Inv.step`: a call does to the directory what it does to the map.
* `Pagedir.Wf.pagedirDestroy`: the pages that `pagedir_destroy` frees.
* `pagedir_refines_map`: all this at the end of every run.
-/

namespace Pintos

open Verif Pte Outcome List Function

/-- The calls that change a directory. What `palloc_get_page` answers in `pagedir_set_page` is
`page`. -/
inductive PdOp where
  | setPage (upage kpage : Word) (writable : Bool) (page : Option Word)
  | clearPage (upage : Word)
  | setDirty (vpage : Word) (dirty : Bool)
  | setAccessed (vpage : Word) (accessed : Bool)

/-- The page that a call names. -/
def PdOp.page : PdOp → Word
  | .setPage upage _ _ _ => upage
  | .clearPage upage => upage
  | .setDirty vpage _ => vpage
  | .setAccessed vpage _ => vpage

/-- A directory, and the map it stands for. -/
structure PdRun where
  st : Pagedir
  map : Word → Option Mapping

namespace PdRun

/-- A call, on the directory and on the map. -/
def step (pd : Word) (r : PdRun) : PdOp → PdM PdRun
  | .setPage upage kpage writable page => do
    let (success, st) ← r.st.pagedirSetPage pd upage kpage writable page
    return ⟨st, if success then
      update r.map (pgNo upage) (some ⟨kpage, writable, false, false⟩) else r.map⟩
  | .clearPage upage => do
    let st ← r.st.pagedirClearPage pd upage
    return ⟨st, update r.map (pgNo upage) none⟩
  | .setDirty vpage dirty => do
    let st ← r.st.pagedirSetDirty pd vpage dirty
    return ⟨st, update r.map (pgNo vpage)
      ((r.map (pgNo vpage)).map ({ · with dirty := dirty }))⟩
  | .setAccessed vpage accessed => do
    let st ← r.st.pagedirSetAccessed pd vpage accessed
    return ⟨st, update r.map (pgNo vpage)
      ((r.map (pgNo vpage)).map ({ · with accessed := accessed }))⟩

/-- The calls that `pagedir.c` allows: addresses of pages where it asserts so, a frame in memory,
and a page that is not mapped for `pagedir_set_page`. The page that `palloc_get_page` answers with
is not in use by the directory. -/
def Legitimate (pd : Word) (r : PdRun) : PdOp → Prop
  | .setPage upage kpage _ page =>
    pgOfs upage = 0 ∧ pgOfs kpage = 0 ∧ isUserVaddr upage = true ∧ isUserVaddr kpage = false ∧
      vtop kpage >>> 12 < r.st.initRamPages ∧ r.map (pgNo upage) = none ∧ r.st.Fresh pd page
  | .clearPage upage => pgOfs upage = 0 ∧ isUserVaddr upage = true
  | .setDirty _ _ => True
  | .setAccessed _ _ => True

/-- A directory that `pagedir_create` has just made. -/
def start (s : Pagedir) (pd : Word) : PdRun := ⟨(s.pagedirCreate (some pd)).2, fun _ => none⟩

/-- **The directory stands for the map.** -/
structure Inv (pd : Word) (r : PdRun) : Prop where
  wf : r.st.Wf pd
  view : ∀ va, isUserVaddr va = true → decode (r.st.pteAt pd va) = r.map (pgNo va)
  user : ∀ u m, r.map u = some m → ∃ va, isUserVaddr va = true ∧ u = pgNo va

variable {pd : Word} {r : PdRun} {op : PdOp}

/-- A call that changes the entry of its page and no other does so to the map. -/
theorem Inv.update (h : r.Inv pd) {st : Pagedir} {va : Word} {x : Option Mapping}
    (hwf : st.Wf pd) (hframe : ∀ vb, pgNo vb ≠ pgNo va → st.pteAt pd vb = r.st.pteAt pd vb)
    (hview : isUserVaddr va = true → decode (st.pteAt pd va) = x)
    (huser : isUserVaddr va = false → x = none) :
    Inv pd ⟨st, update r.map (pgNo va) x⟩ := by
  refine ⟨hwf, fun vb hvb => ?_, fun u m hu => ?_⟩
  · dsimp only
    by_cases hpage : pgNo vb = pgNo va
    · rw [hpage, update_self, Pagedir.pteAt_congr hpage]
      refine hview ?_
      rw [isUserVaddr_iff] at hvb ⊢
      rwa [← (pgNo_eq_iff.mp hpage).1]
    · rw [update_of_ne hpage, hframe vb hpage]
      exact h.view vb hvb
  · dsimp only at hu
    by_cases hpage : u = pgNo va
    · refine ⟨va, ?_, hpage⟩
      rw [hpage, update_self] at hu
      by_contra hva
      rw [huser (by simpa using hva)] at hu
      cases hu
    · rw [update_of_ne hpage] at hu
      exact h.user u m hu

/-- The pages of the kernel are not in the map. -/
theorem Inv.kernel (h : r.Inv pd) {va : Word} (hva : isUserVaddr va = false) :
    r.map (pgNo va) = none := by
  cases hmap : r.map (pgNo va) with
  | none => rfl
  | some m =>
    obtain ⟨vb, hvb, hpage⟩ := h.user _ _ hmap
    rw [isUserVaddr_iff, ← (pgNo_eq_iff.mp hpage).1, ← isUserVaddr_iff, hva] at hvb
    cases hvb

/-- A call that changes a flag. -/
theorem Inv.changeFlag (h : r.Inv pd) (va : Word) {flag : Word} (hflag : IsFlag flag) (value : Bool)
    {f : Mapping → Mapping}
    (hdecode : ∀ pte, decode (setFlag pte flag value) = (decode pte).map f) :
    ∃ st, r.st.changeFlag pd va flag value = .ok st ∧
      Inv pd ⟨st, Function.update r.map (pgNo va) ((r.map (pgNo va)).map f)⟩ ∧
      ∀ vb, pgNo vb ≠ pgNo va → st.pteAt pd vb = r.st.pteAt pd vb := by
  obtain ⟨st, hrun, hwf, hframe, hentry⟩ := h.wf.changeFlag va hflag value
  refine ⟨st, hrun, h.update hwf hframe (fun hva => ?_) (fun hva => ?_), hframe⟩
  · rw [← h.view va hva]
    rcases hentry with hentry | ⟨hentry, habsent⟩
    · rw [hentry, hdecode]
    · rw [hentry, decode_eq_none.mpr habsent]
      rfl
  · rw [h.kernel hva]
    rfl

/-- **A call** completes, does to the directory what it does to the map, and changes the entry of
the page it names only. -/
theorem Inv.step (h : r.Inv pd) (hop : Legitimate pd r op) :
    ∃ r', r.step pd op = .ok r' ∧ r'.Inv pd ∧
      ∀ va, pgNo va ≠ pgNo op.page → r'.st.pteAt pd va = r.st.pteAt pd va := by
  cases op with
  | setPage upage kpage writable page =>
    obtain ⟨hupage, hkpage, huser, hkernel, hram, hmap, hfresh⟩ := hop
    have habsent : isSet (r.st.pteAt pd upage) flagP = false := by
      rw [← decode_eq_none, h.view upage huser, hmap]
    rw [PdRun.step]
    rcases h.wf.pagedirSetPage writable hupage hkpage huser hkernel hram hfresh habsent with
      ⟨hrun, -⟩ | ⟨st, hrun, hwf, hpte⟩
    · rw [hrun]
      exact ⟨_, rfl, h, fun _ _ => rfl⟩
    · have hframe : ∀ vb, pgNo vb ≠ pgNo upage → st.pteAt pd vb = r.st.pteAt pd vb :=
        fun vb hvb => by rw [hpte, if_neg hvb]
      rw [hrun]
      refine ⟨_, rfl, h.update hwf hframe (fun _ => ?_) (fun hva => ?_), hframe⟩
      · rw [hpte, if_pos rfl, decode_create hkpage]
      · rw [huser] at hva
        cases hva
  | clearPage upage =>
    obtain ⟨hupage, huser⟩ := hop
    obtain ⟨st, hrun, hwf, hframe, habsent⟩ := h.wf.pagedirClearPage hupage huser
    rw [PdRun.step, hrun]
    exact ⟨_, rfl, h.update hwf hframe (fun _ => decode_eq_none.mpr habsent) (fun _ => rfl),
      hframe⟩
  | setDirty vpage dirty =>
    obtain ⟨st, hrun, hinv, hframe⟩ := h.changeFlag vpage isFlag_flagD dirty
      (f := ({ · with dirty := dirty })) (fun pte => decode_setFlag_flagD pte dirty)
    rw [PdRun.step, Pagedir.pagedirSetDirty, hrun]
    exact ⟨_, rfl, hinv, hframe⟩
  | setAccessed vpage accessed =>
    obtain ⟨st, hrun, hinv, hframe⟩ := h.changeFlag vpage isFlag_flagA accessed
      (f := ({ · with accessed := accessed })) (fun pte => decode_setFlag_flagA pte accessed)
    rw [PdRun.step, Pagedir.pagedirSetAccessed, hrun]
    exact ⟨_, rfl, hinv, hframe⟩

end PdRun

/-! ### Destroying a directory -/

namespace Pagedir

/-- The frames of the pages that are present in a page table. -/
def framesOf (s : Pagedir) (pt : Word) (is : List ℕ) : List Word :=
  (is.filter fun i => isSet (s.memory pt i) flagP).map fun i => pteGetPage (s.memory pt i)

/-- The pages that the entries of a directory lead to: the frames of a page table, then the page
table. -/
def freedOf (s : Pagedir) (pd : Word) (is : List ℕ) : List Word :=
  is.flatMap fun i => if s.memory pd i = 0 then [] else
    s.framesOf (pdeGetPt (s.memory pd i)) (List.range 1024) ++ [pdeGetPt (s.memory pd i)]

/-- No frame is a page of the directory itself. -/
def Separate (s : Pagedir) (pd : Word) : Prop :=
  ∀ va, isUserVaddr va = true → isSet (s.pteAt pd va) flagP = true →
    pteGetPage (s.pteAt pd va) ≠ pd ∧
      ∀ i < 768, s.memory pd i ≠ 0 → pteGetPage (s.pteAt pd va) ≠ pdeGetPt (s.memory pd i)

variable {s s₀ : Pagedir} {pd pt : Word} {is : List ℕ} {i k : ℕ}

/-- **The frames of a page table are freed.** A page that is freed is filled, which must not be the
page table, whose other entries are still to be read. -/
theorem destroyFrames_spec (s : Pagedir) (pt : Word) (is : List ℕ)
    (hframe : ∀ i ∈ is, isSet (s.memory pt i) flagP = true →
      s.memory pt i &&& addrMask < physBase ∧ pteGetPage (s.memory pt i) ≠ pt) :
    ∃ s', s.destroyFrames pt is = .ok (s.framesOf pt is, s') ∧
      ∀ page ∉ s.framesOf pt is, s'.memory page = s.memory page := by
  induction is generalizing s with
  | nil => exact ⟨s, rfl, fun _ _ => rfl⟩
  | cons i is ih =>
    rw [destroyFrames]
    by_cases hset : isSet (s.memory pt i) flagP = true
    · obtain ⟨haddr, hne⟩ := hframe i mem_cons_self hset
      have hpt : (s.pallocFreePage (pteGetPage (s.memory pt i))).memory pt = s.memory pt := by
        funext j
        rw [pallocFreePage, fillPage_memory, if_neg hne.symm]
      have hframes : s.framesOf pt (i :: is) = pteGetPage (s.memory pt i) ::
          (s.pallocFreePage (pteGetPage (s.memory pt i))).framesOf pt is := by
        simp only [framesOf, hpt, filter_cons, hset, if_true, map_cons]
      obtain ⟨s', hrun, hmemory⟩ := ih (s.pallocFreePage (pteGetPage (s.memory pt i)))
        fun j hj => by
          rw [hpt]
          exact hframe j (mem_cons_of_mem _ hj)
      rw [if_pos hset, ensure_of_true haddr, ok_bind, hrun, hframes]
      refine ⟨s', rfl, fun page hpage => ?_⟩
      rw [mem_cons, not_or] at hpage
      rw [hmemory page hpage.2]
      funext j
      rw [pallocFreePage, fillPage_memory, if_neg hpage.1]
    · have hframes : s.framesOf pt (i :: is) = s.framesOf pt is := by
        rw [framesOf, filter_cons_of_neg (by simpa using hset), framesOf]
      rw [if_neg hset, hframes]
      exact ih s fun j hj => hframe j (mem_cons_of_mem _ hj)

theorem mem_framesOf {page : Word} : page ∈ s.framesOf pt (range 1024) ↔
    ∃ k < 1024, isSet (s.memory pt k) flagP = true ∧ pteGetPage (s.memory pt k) = page := by
  simp only [framesOf, mem_map, mem_filter, mem_range, and_assoc]

/-- The entries of a page table are the entries of its pages. -/
theorem pteAt_pageAt (hi : i < 768) (hk : k < 1024) (hne : s.memory pd i ≠ 0) :
    isUserVaddr (pageAt i k) = true ∧
      s.pteAt pd (pageAt i k) = s.memory (pdeGetPt (s.memory pd i)) k := by
  obtain ⟨hpd, hpt, -⟩ := pageAt_spec (show i < 1024 by omega) hk
  rw [isUserVaddr_iff, pteAt, hpd, hpt, if_neg hne]
  exact ⟨hi, rfl⟩

/-- A frame of a page table is not a page of the directory. -/
theorem Separate.framesOf (h : s.Separate pd) (hi : i < 768) (hne : s.memory pd i ≠ 0)
    (page : Word) (hpage : page ∈ s.framesOf (pdeGetPt (s.memory pd i)) (range 1024)) :
    page ≠ pd ∧ ∀ j < 768, s.memory pd j ≠ 0 → page ≠ pdeGetPt (s.memory pd j) := by
  obtain ⟨k, hk, hset, hframe⟩ := mem_framesOf.mp hpage
  obtain ⟨huser, hpte⟩ := pteAt_pageAt hi hk hne
  rw [← hframe, ← hpte]
  rw [← hpte] at hset
  exact h _ huser hset

/-- **The page tables are freed**, with their frames: what is freed before is not read again. -/
theorem Wf.destroyTables (h : s₀.Wf pd) (hsep : s₀.Separate pd) (is : List ℕ)
    (his : ∀ i ∈ is, i < 768) (hnodup : is.Nodup) (hpd : s.memory pd = s₀.memory pd)
    (htable : ∀ i ∈ is, s₀.memory pd i ≠ 0 →
      s.memory (pdeGetPt (s₀.memory pd i)) = s₀.memory (pdeGetPt (s₀.memory pd i))) :
    ∃ s', s.destroyTables pd is = .ok (s₀.freedOf pd is, s') := by
  induction is generalizing s with
  | nil => exact ⟨s, rfl⟩
  | cons i is ih =>
    have hi := his i mem_cons_self
    have hrest : ∀ j ∈ is, j < 768 := fun j hj => his j (mem_cons_of_mem _ hj)
    obtain ⟨hnot, hnodup⟩ := nodup_cons.mp hnodup
    rw [Pagedir.destroyTables, hpd]
    by_cases hzero : s₀.memory pd i = 0
    · have hfreed : s₀.freedOf pd (i :: is) = s₀.freedOf pd is := by
        rw [freedOf, flatMap_cons, if_pos hzero, nil_append, freedOf]
      rw [hzero, hfreed]
      exact ih hrest hnodup hpd fun j hj => htable j (mem_cons_of_mem _ hj)
    · obtain ⟨hget, hset, hpage⟩ := h.getPt (show i < 1024 by omega) hzero
      have hmemory := htable i mem_cons_self hzero
      have hframes : s.framesOf (pdeGetPt (s₀.memory pd i)) (range 1024) =
          s₀.framesOf (pdeGetPt (s₀.memory pd i)) (range 1024) := by
        simp only [Pagedir.framesOf, hmemory]
      have hsep' := hsep.framesOf hi hzero
      obtain ⟨s₁, hrun, hkeep⟩ := destroyFrames_spec s (pdeGetPt (s₀.memory pd i))
        (range 1024) fun k hk hk' => by
          obtain ⟨huser, hpte⟩ := pteAt_pageAt hi (mem_range.mp hk) hzero
          rw [hmemory, ← hpte] at hk' ⊢
          exact ⟨h.frame _ huser hk', (hsep _ huser hk').2 i hi hzero⟩
      rw [hframes] at hrun hkeep
      -- the pages that are read later are neither among the frames nor this page table
      have hother : ∀ page, page ≠ pdeGetPt (s₀.memory pd i) →
          page ∉ s₀.framesOf (pdeGetPt (s₀.memory pd i)) (range 1024) →
          (s₁.pallocFreePage (pdeGetPt (s₀.memory pd i))).memory page = s.memory page :=
        fun page hne hnotin => by
          funext j
          rw [pallocFreePage, fillPage_memory, if_neg hne, hkeep page hnotin]
      obtain ⟨s', hrest⟩ := ih (s := s₁.pallocFreePage (pdeGetPt (s₀.memory pd i))) hrest hnodup
        (by rw [hother pd hpage.ne_pd.symm fun hin => (hsep' pd hin).1 rfl, hpd])
        fun j hj hj' => by
          have hlt := his j (mem_cons_of_mem _ hj)
          rw [hother, htable j (mem_cons_of_mem _ hj) hj']
          · intro heq
            rw [h.inj j (by omega) i (by omega) hj' hzero heq] at hj
            exact hnot hj
          · exact fun hin => (hsep' _ hin).2 j hlt hj' rfl
      have hfreed : s₀.freedOf pd (i :: is) =
          s₀.framesOf (pdeGetPt (s₀.memory pd i)) (range 1024) ++
            pdeGetPt (s₀.memory pd i) :: s₀.freedOf pd is := by
        rw [freedOf, flatMap_cons, if_neg hzero, append_assoc, freedOf]
        rfl
      refine ⟨s', ?_⟩
      rw [if_pos hset, hget, ok_bind, hrun, ok_bind]
      dsimp only
      rw [hrest, hfreed]
      rfl

/-- **`pagedir_destroy`**: the pages that it frees. -/
theorem Wf.pagedirDestroy (h : s.Wf pd) (hsep : s.Separate pd) :
    ∃ s', s.pagedirDestroy pd = .ok (s.freedOf pd (range 768) ++ [pd], s') := by
  obtain ⟨s', hrun⟩ := h.destroyTables hsep (range 768)
    (fun i => mem_range.mp) nodup_range rfl fun _ _ _ => rfl
  refine ⟨s'.pallocFreePage pd, ?_⟩
  have hpdNo : pdNo Pte.physBase = 768 := by decide
  rw [Pagedir.pagedirDestroy, ensure_of_true h.ne_init, ok_bind, hpdNo, hrun]
  rfl

end Pagedir

namespace PdRun

variable {pd : Word} {r : PdRun} {i j k : ℕ}

/-- No two pages share a frame. -/
def Injective (r : PdRun) : Prop :=
  ∀ u u' m m', r.map u = some m → r.map u' = some m' → m.frame = m'.frame → u = u'

/-- No frame that is mapped is a page of the directory itself. -/
def Separate (pd : Word) (r : PdRun) : Prop :=
  ∀ u m, r.map u = some m → m.frame ≠ pd ∧
    ∀ i < 768, r.st.memory pd i ≠ 0 → m.frame ≠ pdeGetPt (r.st.memory pd i)

/-- A page that is present is in the map. -/
theorem Inv.map_of_isSet (h : r.Inv pd) {va : Word} (hva : isUserVaddr va = true)
    (hset : isSet (r.st.pteAt pd va) flagP = true) :
    ∃ m, r.map (pgNo va) = some m ∧ m.frame = pteGetPage (r.st.pteAt pd va) := by
  rw [← h.view va hva, decode, if_pos hset]
  exact ⟨_, rfl, rfl⟩

theorem Inv.separate (h : r.Inv pd) (hsep : r.Separate pd) : r.st.Separate pd := by
  intro va hva hset
  obtain ⟨m, hmap, hframe⟩ := h.map_of_isSet hva hset
  rw [← hframe]
  exact hsep _ m hmap

/-- The frames of a page table are those of its pages. -/
theorem Inv.mem_framesOf (h : r.Inv pd) (hi : i < 768) (hne : r.st.memory pd i ≠ 0) {page : Word} :
    page ∈ r.st.framesOf (pdeGetPt (r.st.memory pd i)) (range 1024) →
      ∃ k < 1024, ∃ m, r.map (pgNo (pageAt i k)) = some m ∧ m.frame = page := by
  intro hpage
  obtain ⟨k, hk, hset, hframe⟩ := Pagedir.mem_framesOf.mp hpage
  obtain ⟨huser, hpte⟩ := Pagedir.pteAt_pageAt hi hk hne
  rw [← hpte] at hset hframe
  obtain ⟨m, hmap, hm⟩ := h.map_of_isSet huser hset
  exact ⟨k, hk, m, hmap, hm.trans hframe⟩

/-- Different entries have different pages. -/
theorem pageAt_inj {i' k' : ℕ} (hi : i < 768) (hk : k < 1024) (hi' : i' < 768) (hk' : k' < 1024)
    (h : pgNo (pageAt i k) = pgNo (pageAt i' k')) : i = i' ∧ k = k' := by
  obtain ⟨hpd, hpt, -⟩ := pageAt_spec (show i < 1024 by omega) hk
  obtain ⟨hpd', hpt', -⟩ := pageAt_spec (show i' < 1024 by omega) hk'
  rwa [pgNo_eq_iff, hpd, hpt, hpd', hpt'] at h

/-- The frames of a page table are different if no two pages share a frame. -/
theorem Inv.nodup_framesOf (h : r.Inv pd) (hinj : r.Injective) (hi : i < 768)
    (hne : r.st.memory pd i ≠ 0) :
    (r.st.framesOf (pdeGetPt (r.st.memory pd i)) (range 1024)).Nodup := by
  refine Nodup.map_on (fun k hk k' hk' heq => ?_) (nodup_range.filter _)
  obtain ⟨hk, hset⟩ := mem_filter.mp hk
  obtain ⟨hk', hset'⟩ := mem_filter.mp hk'
  rw [mem_range] at hk hk'
  obtain ⟨huser, hpte⟩ := Pagedir.pteAt_pageAt hi hk hne
  obtain ⟨huser', hpte'⟩ := Pagedir.pteAt_pageAt hi hk' hne
  obtain ⟨m, hmap, hm⟩ := h.map_of_isSet huser (by rw [hpte]; exact hset)
  obtain ⟨m', hmap', hm'⟩ := h.map_of_isSet huser' (by rw [hpte']; exact hset')
  have hframe : m.frame = m'.frame := by
    rw [hm, hm', hpte, hpte']
    exact heq
  exact (pageAt_inj hi hk hi hk' (hinj _ _ _ _ hmap hmap' hframe)).2

/-- **What is freed** is different pages. -/
theorem Inv.nodup_freedOf (h : r.Inv pd) (hinj : r.Injective) (hsep : r.Separate pd) :
    (r.st.freedOf pd (range 768) ++ [pd]).Nodup := by
  have hclear := fun {i} (hi : i < 768) hne => (h.separate hsep).framesOf hi hne
  have htable := fun {i} (hi : i < 1024) hne => (h.wf.getPt hi hne).2.2
  refine Nodup.append ?_ (nodup_singleton pd) ?_
  · refine nodup_flatMap.mpr ⟨fun i hi => ?_, ?_⟩
    · rw [mem_range] at hi
      split_ifs with hne
      · exact nodup_nil
      · refine Nodup.append (h.nodup_framesOf hinj hi hne) (nodup_singleton _) ?_
        rw [disjoint_singleton]
        exact fun hin => (hclear hi hne _ hin).2 i hi hne rfl
    · refine List.Pairwise.imp_of_mem (fun {i j} hi hj hij => ?_) nodup_range
      rw [mem_range] at hi hj
      intro page hpage hpage'
      dsimp only at hpage hpage'
      split at hpage
      · cases hpage
      split at hpage'
      · cases hpage'
      rename_i hne hne'
      rw [mem_append, mem_singleton] at hpage hpage'
      rcases hpage with hpage | hpage <;> rcases hpage' with hpage' | hpage'
      · obtain ⟨k, hk, m, hmap, hm⟩ := h.mem_framesOf hi hne hpage
        obtain ⟨k', hk', m', hmap', hm'⟩ := h.mem_framesOf hj hne' hpage'
        exact hij (pageAt_inj hi hk hj hk' (hinj _ _ _ _ hmap hmap' (hm.trans hm'.symm))).1
      · exact (hclear hi hne _ hpage).2 j hj hne' hpage'
      · exact (hclear hj hne' _ hpage').2 i hi hne hpage
      · exact hij (h.wf.inj i (by omega) j (by omega) hne hne' (hpage.symm.trans hpage'))
  · rw [disjoint_singleton, Pagedir.freedOf, mem_flatMap]
    rintro ⟨i, hi, hpage⟩
    rw [mem_range] at hi
    split at hpage
    · cases hpage
    · rename_i hne
      rw [mem_append, mem_singleton] at hpage
      rcases hpage with hpage | hpage
      · exact (hclear hi hne _ hpage).1 rfl
      · exact (htable (by omega) hne).ne_pd hpage.symm

/-- **What is freed** is the frames and the page tables. -/
theorem Inv.mem_freedOf (h : r.Inv pd) {page : Word} :
    page ∈ r.st.freedOf pd (range 768) ↔
      (∃ u m, r.map u = some m ∧ m.frame = page) ∨
        ∃ i < 768, r.st.memory pd i ≠ 0 ∧ pdeGetPt (r.st.memory pd i) = page := by
  rw [Pagedir.freedOf, mem_flatMap]
  constructor
  · rintro ⟨i, hi, hpage⟩
    rw [mem_range] at hi
    split at hpage
    · cases hpage
    · rename_i hne
      rw [mem_append, mem_singleton] at hpage
      rcases hpage with hpage | hpage
      · obtain ⟨k, -, m, hmap, hm⟩ := h.mem_framesOf hi hne hpage
        exact .inl ⟨_, m, hmap, hm⟩
      · exact .inr ⟨i, hi, hne, hpage.symm⟩
  · rintro (⟨u, m, hmap, hm⟩ | ⟨i, hi, hne, hpage⟩)
    · obtain ⟨va, hva, rfl⟩ := h.user u m hmap
      rw [← h.view va hva, decode] at hmap
      split at hmap
      · rename_i hset
        have hne : r.st.memory pd (pdNo va) ≠ 0 := fun hzero => by
          rw [Pagedir.pteAt, if_pos hzero] at hset
          cases hset
        rw [Pagedir.pteAt, if_neg hne] at hset hmap
        refine ⟨pdNo va, mem_range.mpr (isUserVaddr_iff.mp hva), ?_⟩
        rw [if_neg hne, mem_append, Pagedir.mem_framesOf]
        refine .inl ⟨ptNo va, ptNo_lt va, hset, ?_⟩
        rw [← hm, ← Option.some.inj hmap]
      · cases hmap
    · refine ⟨i, mem_range.mpr hi, ?_⟩
      rw [if_neg hne, mem_append, hpage]
      exact .inr (mem_singleton_self _)

/-! ### Runs -/

/-- **What a page directory is for**, in one state. -/
structure Correct (pd : Word) (r : PdRun) : Prop where
  /-- `pagedir_get_page` finds what the map has. -/
  getPage : ∀ va, isUserVaddr va = true →
    r.st.pagedirGetPage pd va = .ok ((r.map (pgNo va)).map fun m => m.frame + pgOfs va)
  /-- So do `pagedir_is_dirty`, `pagedir_is_accessed` and the processor. -/
  flags : ∀ va m, r.map (pgNo va) = some m →
    r.st.pagedirIsDirty pd va = .ok m.dirty ∧ r.st.pagedirIsAccessed pd va = .ok m.accessed ∧
      isSet (r.st.pteAt pd va) flagW = m.writable
  /-- A call completes, and changes the entry of the page it names only, whether the others are
  user pages or the kernel's. -/
  step : ∀ op, Legitimate pd r op → ∃ r', r.step pd op = .ok r' ∧
    ∀ va, pgNo va ≠ pgNo op.page → r'.st.pteAt pd va = r.st.pteAt pd va
  /-- If `pagedir_set_page` fails, there has been no memory and nothing changes. -/
  failed : ∀ upage kpage writable page st,
    Legitimate pd r (.setPage upage kpage writable page) →
    r.st.pagedirSetPage pd upage kpage writable page = .ok (false, st) → page = none ∧ st = r.st
  /-- `pagedir_destroy` frees each frame, each page table and the directory once. -/
  destroy : r.Injective → r.Separate pd → ∃ freed st,
    r.st.pagedirDestroy pd = .ok (freed, st) ∧ freed.Nodup ∧
      ∀ page, page ∈ freed ↔ (∃ u m, r.map u = some m ∧ m.frame = page) ∨
        (∃ i < 768, r.st.memory pd i ≠ 0 ∧ pdeGetPt (r.st.memory pd i) = page) ∨ page = pd

theorem Inv.correct (h : r.Inv pd) : r.Correct pd where
  getPage va hva := by
    rw [h.wf.pagedirGetPage hva, h.view va hva]
  flags va m hmap := by
    obtain ⟨vb, hvb, hpage⟩ := h.user _ _ hmap
    have hview := h.view vb hvb
    rw [← hpage, hmap, ← Pagedir.pteAt_congr hpage, decode] at hview
    split at hview
    · rw [← Option.some.inj hview, Pagedir.pagedirIsDirty, Pagedir.pagedirIsAccessed, h.wf.isFlag,
        h.wf.isFlag]
      exact ⟨rfl, rfl, rfl⟩
    · cases hview
  step op hop := by
    obtain ⟨r', hrun, -, hframe⟩ := h.step hop
    exact ⟨r', hrun, hframe⟩
  failed upage kpage writable page st hop hrun := by
    obtain ⟨hupage, hkpage, huser, hkernel, hram, hmap, hfresh⟩ := hop
    have habsent : isSet (r.st.pteAt pd upage) flagP = false := by
      rw [← decode_eq_none, h.view upage huser, hmap]
    rcases h.wf.pagedirSetPage writable hupage hkpage huser hkernel hram hfresh habsent with
      ⟨hrun', hpage⟩ | ⟨st', hrun', -⟩
    · rw [hrun'] at hrun
      cases hrun
      exact ⟨hpage, rfl⟩
    · rw [hrun'] at hrun
      cases hrun
  destroy hinj hsep := by
    obtain ⟨st, hrun⟩ := h.wf.pagedirDestroy (h.separate hsep)
    refine ⟨_, st, hrun, h.nodup_freedOf hinj hsep, fun page => ?_⟩
    rw [mem_append, h.mem_freedOf, mem_singleton, or_assoc]

/-- A new directory stands for the map that is nowhere defined. -/
theorem inv_start {s : Pagedir} (h : s.KernelDir) (hne : pd ≠ s.initPageDir)
    (hfresh : ∀ i < 1024, s.memory s.initPageDir i ≠ 0 →
      pdeGetPt (s.memory s.initPageDir i) ≠ pd) : (start s pd).Inv pd := by
  obtain ⟨hwf, hpte⟩ := h.pagedirCreate hne hfresh
  refine ⟨hwf, fun va hva => ?_, fun u m hu => ?_⟩
  · rw [start, hpte va hva]
    rfl
  · cases hu

end PdRun

/-- **The page directory refines a map from user pages.** After `paging_init`, let `pagedir_create`
get a page that the kernel's directory is not made of; then at the end of every sequence of calls
the directory does what the map says. -/
theorem pagedir_refines_map {s s₀ : Pagedir} {inKernelText : Word → Bool} {pages : List Word}
    (hnodup : pages.Nodup) (hnull : (0 : Word) ∉ pages)
    (hinit : s.pagingInit inKernelText pages = .ok s₀) {pd : Word} (hne : pd ≠ s₀.initPageDir)
    (hfresh : ∀ i < 1024, s₀.memory s₀.initPageDir i ≠ 0 →
      pdeGetPt (s₀.memory s₀.initPageDir i) ≠ pd) {ops : List PdOp} {r : PdRun}
    (hrun : Run (PdRun.step pd) (PdRun.Legitimate pd) (PdRun.start s₀ pd) ops r) :
    r.Correct pd := by
  have hinv : r.Inv pd := by
    refine hrun.invariant
      (PdRun.inv_start (Pagedir.kernelDir_of_pagingInit hnodup hnull hinit) hne hfresh) ?_
    intro r op r' hr hop hstep
    obtain ⟨r'', hstep', hr'', -⟩ := hr.step hop
    rw [hstep] at hstep'
    cases hstep'
    exact hr''
  exact hinv.correct

/-- A kernel with two pages of memory, after `paging_init`. -/
def bootedDir : Pagedir :=
  (((((⟨fun _ _ => 0, 0xc0010000, 2⟩ : Pagedir).fillPage 0xc0010000 0).fillPage 0xc0011000 0).store
    0xc0010000 768 (pdeCreate 0xc0011000)).store 0xc0011000 0
      (pteCreateKernel 0xc0000000 true)).store 0xc0011000 1 (pteCreateKernel 0xc0001000 true)

theorem pagingInit_bootedDir : Pagedir.pagingInit ⟨fun _ _ => 0, 0, 2⟩ (fun _ => false)
    [0xc0010000, 0xc0011000] = .ok bootedDir := rfl

theorem bootedDir_memory (i : ℕ) : bootedDir.memory 0xc0010000 i =
    if i = 768 then pdeCreate 0xc0011000 else 0 := by
  rw [bootedDir, Pagedir.store_memory, if_neg fun h => absurd h.1 (by decide), Pagedir.store_memory,
    if_neg fun h => absurd h.1 (by decide), Pagedir.store_memory, Pagedir.fillPage_memory,
    Pagedir.fillPage_memory]
  by_cases hi : i = 768
  · rw [if_pos ⟨rfl, hi⟩, if_pos hi]
  · rw [if_neg (fun h => hi h.2), if_neg (by decide), if_pos rfl, if_neg hi]

/-- The page table of this kernel. -/
theorem bootedDir_table {i : ℕ} (hne : bootedDir.memory 0xc0010000 i ≠ 0) :
    pdeGetPt (bootedDir.memory 0xc0010000 i) = 0xc0011000 := by
  rw [bootedDir_memory] at hne ⊢
  split at hne
  · rename_i hi
    rw [if_pos hi]
    decide
  · exact absurd rfl hne

/-- Two pages with one page table are mapped; one is written to, and the other unmapped. -/
def twoPages : List PdOp :=
  [.setPage 0x08048000 0xc0000000 true (some 0xc0013000), .setPage 0x08049000 0xc0001000 true none,
    .setDirty 0x08049000 true, .clearPage 0x08048000]

theorem pagedir_refines_map_twoPages :
    ∃ r, Run (PdRun.step 0xc0012000) (PdRun.Legitimate 0xc0012000)
        (PdRun.start bootedDir 0xc0012000) twoPages r ∧
      r.map (pgNo 0x08048000) = none ∧
      r.map (pgNo 0x08049000) = some ⟨0xc0001000, true, false, true⟩ ∧ r.Correct 0xc0012000 := by
  have hstart : ∀ i, (PdRun.start bootedDir 0xc0012000).st.memory 0xc0012000 i =
      bootedDir.memory 0xc0010000 i := fun _ => rfl
  have hfirst : PdRun.Legitimate 0xc0012000 (PdRun.start bootedDir 0xc0012000)
      (.setPage 0x08048000 0xc0000000 true (some 0xc0013000)) := by
    refine ⟨by decide, by decide, by decide, by decide, by decide, rfl, fun pt hpt => ?_⟩
    cases hpt
    refine ⟨⟨by decide, by decide, by decide, by decide⟩, fun i _ hne => ?_⟩
    rw [hstart] at hne ⊢
    rw [bootedDir_table hne]
    decide
  have hone := @Run.snoc _ _ _ (PdRun.step 0xc0012000) _ _ _ _ _ _ .nil hfirst rfl
  have htwo := hone.snoc (a := PdOp.setPage 0x08049000 0xc0001000 true none)
    ⟨by decide, by decide, by decide, by decide, by decide, rfl, fun pt hpt => by cases hpt⟩ rfl
  have hdirty := htwo.snoc (a := PdOp.setDirty 0x08049000 true) trivial rfl
  have hrun := hdirty.snoc (a := PdOp.clearPage 0x08048000) ⟨by decide, by decide⟩ rfl
  refine ⟨_, hrun, rfl, rfl, pagedir_refines_map (by decide) (by decide) pagingInit_bootedDir
    (by decide) (fun i _ hne => ?_) hrun⟩
  rw [show bootedDir.initPageDir = 0xc0010000 from rfl] at hne ⊢
  rw [bootedDir_table hne]
  decide

end Pintos
