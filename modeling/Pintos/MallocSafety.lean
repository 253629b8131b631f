import Mathlib.Data.List.Pairwise
import Mathlib.Order.CompletePartialOrder
import Mathlib.Order.Interval.Set.Disjoint
import Pintos.MallocCalls

/-!
# The Kernel Heap Is Sound

The blocks handed out are disjoint and inside the pages the heap holds, every other block of an
arena is in its descriptor's list once, and an arena's page is given back by the call that
frees its last block.

What a caller gets may be less than it asked for: the sum of a request and the size of the
arena header wraps for the eleven greatest sizes, and one page is handed out for them.

## Main results

* `Heap.Core.bytes_disjoint`, `Heap.Core.header_disjoint`: where blocks lie.
* `Heap.Core.size_le_iff`: which requests are met.
* `malloc_heap`: what the invariant says of blocks, lists, counters and pages.
* `malloc_wraps`: a request for 4 GB is answered with one page.
-/

namespace Pintos

open Verif Verif.Outcome

/-! ### Blocks, lists and pages -/

namespace Heap

/-- The bytes of a block. -/
def bytes (h : Heap) (b : ℕ) : Set ℕ :=
  Set.Ico b (b + h.blockSize b)

/-- The bytes of a run of pages after the arena header. -/
def usableBytes (run : ℕ × ℕ) : Set ℕ :=
  Set.Ico (run.1 * pgSize + sizeofArena) ((run.1 + run.2) * pgSize)

/-- The bytes of the arena header of a run of pages. -/
def headerBytes (run : ℕ × ℕ) : Set ℕ :=
  Set.Ico (run.1 * pgSize) (run.1 * pgSize + sizeofArena)

variable {h : Heap} {a d b n p : ℕ} {arena : Arena}

theorem blockSize_block (ha : h.arenas (b / pgSize) = some arena) (hdesc : arena.desc = some d) :
    h.blockSize b = (h.descs d).blockSize := by
  rw [blockSize, ha]
  dsimp only
  rw [hdesc]

theorem blockSize_big (ha : h.arenas (b / pgSize) = some arena) (hdesc : arena.desc = none) :
    h.blockSize b = pgSize * arena.freeCnt - b % pgSize := by
  rw [blockSize, ha]
  dsimp only
  rw [hdesc]

/-- A block lies in the pages of its arena after the header. -/
theorem Core.bytes_subset (hc : Core h) (hb : b ∈ h.addrs) :
    ∃ n, (b / pgSize, n) ∈ h.held ∧ h.bytes b ⊆ usableBytes (b / pgSize, n) := by
  obtain ⟨m, hm⟩ := mem_addrs.mp hb
  obtain ⟨arena, ha, hs⟩ := hc.placed b m hm
  refine ⟨arena.pages, hc.held.mem ha, ?_⟩
  have hdiv := Nat.div_add_mod b pgSize
  rw [Nat.mul_comm] at hdiv
  cases hdesc : arena.desc with
  | none =>
    simp only [Serves, hdesc] at hs
    have hpages : arena.pages = arena.freeCnt := by
      simp only [Arena.pages, hdesc]
    have hpos := (hc.held.bounds _ (hc.held.mem ha)).2.1
    have hle := Nat.mul_le_mul_left pgSize (Nat.succ_le_of_lt hpos)
    have hpg : pgSize = 4096 := rfl
    rw [bytes, usableBytes, blockSize_big ha hdesc, hs.1]
    dsimp only
    rw [Nat.add_mul, Nat.mul_comm arena.pages, ← hpages]
    refine Set.Ico_subset_Ico ?_ ?_
    · omega
    · dsimp only at hle
      rw [sizeofArena] at hs ⊢
      omega
  | some d =>
    simp only [Serves, hdesc] at hs
    obtain ⟨-, i, -, hmod, hend⟩ := block_ofs (hc.ok_of_arena ha hdesc) hs.1
    have hpages : arena.pages = 1 := by
      simp only [Arena.pages, hdesc]
    rw [bytes, usableBytes, blockSize_block ha hdesc, hpages]
    dsimp only
    rw [Nat.add_mul, Nat.one_mul]
    exact Set.Ico_subset_Ico (by omega) (by omega)

/-- Pages that are held apart have no byte in common. -/
theorem disjoint_pages {x y : ℕ × ℕ} (hxy : Apart x y) :
    Disjoint (Set.Ico (x.1 * pgSize) ((x.1 + x.2) * pgSize))
      (Set.Ico (y.1 * pgSize) ((y.1 + y.2) * pgSize)) := by
  rw [Set.Ico_disjoint_Ico]
  rcases hxy with hle | hle
  · exact (min_le_left _ _).trans ((Nat.mul_le_mul_right _ hle).trans (le_max_right _ _))
  · exact (min_le_right _ _).trans ((Nat.mul_le_mul_right _ hle).trans (le_max_left _ _))

theorem usableBytes_subset (run : ℕ × ℕ) :
    usableBytes run ⊆ Set.Ico (run.1 * pgSize) ((run.1 + run.2) * pgSize) :=
  Set.Ico_subset_Ico_left (Nat.le_add_right _ _)

theorem headerBytes_subset {run : ℕ × ℕ} (hpos : 0 < run.2) :
    headerBytes run ⊆ Set.Ico (run.1 * pgSize) ((run.1 + run.2) * pgSize) := by
  refine Set.Ico_subset_Ico_right ?_
  have hle := Nat.mul_le_mul_right pgSize (Nat.succ_le_of_lt hpos)
  have hpg : sizeofArena ≤ pgSize := by decide
  rw [Nat.add_mul]
  omega

instance : Std.Symm Apart where
  symm _ _ h := h.symm

/-- **Blocks that are handed out are disjoint.** -/
theorem Core.bytes_disjoint {b' : ℕ} (hc : Core h) (hb : b ∈ h.addrs) (hb' : b' ∈ h.addrs)
    (hne : b ≠ b') : Disjoint (h.bytes b) (h.bytes b') := by
  obtain ⟨n, hn, hsub⟩ := hc.bytes_subset hb
  obtain ⟨n', hn', hsub'⟩ := hc.bytes_subset hb'
  by_cases hpage : b / pgSize = b' / pgSize
  · -- blocks of one arena
    obtain ⟨m, hm⟩ := mem_addrs.mp hb
    obtain ⟨m', hm'⟩ := mem_addrs.mp hb'
    obtain ⟨arena, ha, hs⟩ := hc.placed b m hm
    obtain ⟨arena', ha', hs'⟩ := hc.placed b' m' hm'
    rw [← hpage, ha] at ha'
    obtain rfl := Option.some.inj ha'
    have hdiv := Nat.div_add_mod b pgSize
    have hdiv' := Nat.div_add_mod b' pgSize
    rw [← hpage] at hdiv'
    cases hdesc : arena.desc with
    | none =>
      simp only [Serves, hdesc] at hs hs'
      omega
    | some d =>
      simp only [Serves, hdesc] at hs hs'
      have hok := hc.ok_of_arena ha hdesc
      obtain ⟨-, i, -, hmod, -⟩ := block_ofs hok hs.1
      obtain ⟨-, j, -, hmod', -⟩ := block_ofs hok hs'.1
      rw [bytes, bytes, blockSize_block ha hdesc, blockSize_block (hpage ▸ ha) hdesc,
        Set.Ico_disjoint_Ico]
      rcases Nat.lt_trichotomy i j with hij | rfl | hij
      · have hmul := Nat.mul_le_mul_right (h.descs d).blockSize (Nat.succ_le_of_lt hij)
        rw [Nat.succ_mul] at hmul
        omega
      · omega
      · have hmul := Nat.mul_le_mul_right (h.descs d).blockSize (Nat.succ_le_of_lt hij)
        rw [Nat.succ_mul] at hmul
        omega
  · have hapart : Apart (b / pgSize, n) (b' / pgSize, n') :=
      hc.held.apart.forall hn hn' fun heq => hpage (congrArg Prod.fst heq)
    exact ((disjoint_pages hapart).mono_left (hsub.trans (usableBytes_subset _))).mono_right
      (hsub'.trans (usableBytes_subset _))

/-- No block overlaps an arena header. -/
theorem Core.header_disjoint {run : ℕ × ℕ} (hc : Core h) (hb : b ∈ h.addrs)
    (hrun : run ∈ h.held) : Disjoint (h.bytes b) (headerBytes run) := by
  obtain ⟨n, hn, hsub⟩ := hc.bytes_subset hb
  by_cases heq : (b / pgSize, n) = run
  · subst run
    refine Disjoint.mono_left hsub ?_
    rw [usableBytes, headerBytes, Set.Ico_disjoint_Ico]
    exact (min_le_right _ _).trans (le_max_left _ _)
  · have hapart : Apart (b / pgSize, n) run := hc.held.apart.forall hn hrun heq
    exact ((disjoint_pages hapart).mono_left (hsub.trans (usableBytes_subset _))).mono_right
      (headerBytes_subset (hc.held.bounds run hrun).2.1)

/-- **A block holds what was asked for** unless the size wrapped. -/
theorem Core.size_le_iff (hc : Core h) (hb : (b, n) ∈ h.live) :
    n ≤ h.blockSize b ↔ n + sizeofArena ≤ 2 ^ 32 := by
  obtain ⟨arena, ha, hs⟩ := hc.placed b n hb
  cases hdesc : arena.desc with
  | none =>
    simp only [Serves, hdesc] at hs
    have hpages : arena.pages = arena.freeCnt := by
      simp only [Arena.pages, hdesc]
    have hpos := (hc.held.bounds _ (hc.held.mem ha)).2.1
    dsimp only at hpos
    rw [hpages] at hpos
    rw [blockSize_big ha hdesc, hs.1]
    have hbig := hs.2
    simp only [bigPages, sizeofArena, pgSize] at hbig ⊢
    omega
  | some d =>
    simp only [Serves, hdesc] at hs
    obtain ⟨-, i, -, -, hend⟩ := block_ofs (hc.ok_of_arena ha hdesc) hs.1
    rw [blockSize_block ha hdesc]
    have hpg : sizeofArena + pgSize ≤ 2 ^ 32 := by decide
    omega

/-- The members of the free lists. -/
theorem Core.mem_freeList_iff (hc : Core h) : b ∈ h.freeList d ↔
    ∃ a, h.descAt a = some d ∧ b ∈ h.blocks a d ∧ b ∉ h.addrs := by
  rw [hc.housed.mem_iff, home_eq_some_iff]
  constructor
  · exact fun hhome => ⟨b / pgSize, hhome⟩
  · rintro ⟨a, hdesc, hb, hout⟩
    rw [(block_ofs (hc.descs d (hc.owner a d hdesc)) hb).1]
    exact ⟨hdesc, hb, hout⟩

/-- `free_cnt` is the number of the arena's blocks in the list. -/
theorem Core.freeCnt_eq (hc : Core h) (ha : h.arenas a = some arena)
    (hdesc : arena.desc = some d) :
    arena.freeCnt = (h.freeList d).countP fun b => b / pgSize = a := by
  have hok := hc.ok_of_arena ha hdesc
  rw [hc.count a arena d ha hdesc, List.countP_eq_length_filter, List.countP_eq_length_filter]
  refine List.Perm.length_eq ((List.perm_ext_iff_of_nodup ((nodup_blocks hok a).filter _)
    ((hc.housed.nodup d).filter _)).mpr fun b => ?_)
  rw [List.mem_filter, List.mem_filter, hc.housed.mem_iff, home_eq_some_iff, decide_eq_true_eq,
    decide_eq_true_eq]
  constructor
  · rintro ⟨hb, hout⟩
    have hdiv := (block_ofs hok hb).1
    rw [hdiv, descAt_of ha]
    exact ⟨⟨hdesc, hb, hout⟩, rfl⟩
  · rintro ⟨⟨-, hb, hout⟩, rfl⟩
    exact ⟨hb, hout⟩

/-- An arena has a block that is handed out. -/
theorem Inv.freeCnt_lt (hi : Inv h) (ha : h.arenas a = some arena) (hdesc : arena.desc = some d) :
    arena.freeCnt < (h.descs d).blocksPerArena := by
  refine lt_of_le_of_ne (hi.freeCnt_le ha hdesc) fun heq => ?_
  rw [hi.count a arena d ha hdesc, ← length_blocks h a d] at heq
  obtain ⟨b, hb, rfl⟩ := hi.used a arena ha
  obtain ⟨m, hm⟩ := mem_addrs.mp hb
  obtain ⟨arena', ha', hs⟩ := hi.placed b m hm
  obtain rfl := Option.mem_unique ha ha'
  simp only [Serves, hdesc] at hs
  exact of_decide_eq_true (List.countP_eq_length.mp heq b hs.1) hb

/-- **Pages are held as long as something in them is handed out.** -/
theorem Inv.held_iff (hi : Inv h) : (∃ n, (a, n) ∈ h.held) ↔ ∃ b ∈ h.addrs, b / pgSize = a := by
  constructor
  · rintro ⟨n, hn⟩
    obtain ⟨arena, ha, -⟩ := (hi.held.mem_iff a n).mp hn
    exact hi.used a arena ha
  · rintro ⟨b, hb, rfl⟩
    obtain ⟨n, hn, -⟩ := hi.bytes_subset hb
    exact ⟨n, hn⟩

/-- **`free` gives the pages back whose last block it frees.** -/
theorem Inv.returned {h' : Heap} (hi : Inv h) (hstep : h.step (.free p) = ok h') {run : ℕ × ℕ}
    (hrun : run ∈ h.held) :
    run ∉ h'.held ↔ ∀ b ∈ h.addrs, b / pgSize = run.1 → b = p := by
  obtain ⟨hp, hstep⟩ := require_bind_eq_ok.mp hstep
  obtain ⟨h₁, hfree, hend⟩ := bind_eq_ok.mp hstep
  obtain ⟨hi', hsub, hlive⟩ := (hi.free hp).of_eq_ok hfree
  obtain rfl := Outcome.ok.inj hend
  have haddrs : ∀ b, b ∈ (h₁.takeBack p).addrs ↔ b ∈ h.addrs ∧ b ≠ p := by
    intro b
    rw [mem_addrs_takeBack, addrs, addrs, hlive]
  obtain ⟨a, n⟩ := run
  constructor
  · intro hnot b hb hdiv
    by_contra hbp
    obtain ⟨n', hn'⟩ := hi'.held_iff.mpr ⟨b, (haddrs b).mpr ⟨hb, hbp⟩, hdiv⟩
    -- the pages of an arena are determined by its header
    obtain ⟨arena, ha, rfl⟩ := (hi.held.mem_iff _ _).mp hrun
    obtain ⟨arena', ha', hp'⟩ := (hi.held.mem_iff _ _).mp (hsub _ hn')
    obtain rfl := Option.mem_unique ha ha'
    exact hnot (hp' ▸ hn')
  · intro honly hmem
    obtain ⟨b, hb, hdiv⟩ := hi'.held_iff.mp ⟨n, hmem⟩
    obtain ⟨hb, hbp⟩ := (haddrs b).mp hb
    exact hbp (honly b hb hdiv)

end Heap

/-- **The kernel heap.** In every heap that calls of `malloc` and `free` reach:
the blocks handed out are disjoint, they lie inside the pages the heap holds and overlap no
arena header; the bytes that were asked for lie inside the block exactly if the request and
the header together do not exceed the range of `size_t`; the free list of a descriptor holds
each block of its arenas that is not handed out, once, and nothing else; `free_cnt` is the
number of an arena's blocks in the list and less than the number of its blocks; the page
allocator gets the pages of an arena back by the call of `free` for the last block in them;
and no call fails an assertion. -/
theorem malloc_heap {h : Heap} (hr : HeapReachable h) :
    (h.addrs.Nodup ∧ ∀ b ∈ h.addrs,
      (∀ b' ∈ h.addrs, b ≠ b' → Disjoint (h.bytes b) (h.bytes b')) ∧
      (∃ run ∈ h.held, h.bytes b ⊆ Heap.usableBytes run) ∧
      ∀ run ∈ h.held, Disjoint (h.bytes b) (Heap.headerBytes run)) ∧
    (∀ b n, (b, n) ∈ h.live →
      (Set.Ico b (b + n) ⊆ h.bytes b ↔ n + sizeofArena ≤ 2 ^ 32)) ∧
    (∀ d, (h.freeList d).Nodup ∧ ∀ b, b ∈ h.freeList d ↔
      ∃ a, h.descAt a = some d ∧ b ∈ h.blocks a d ∧ b ∉ h.addrs) ∧
    (∀ a arena d, h.arenas a = some arena → arena.desc = some d →
      arena.freeCnt = (h.freeList d).countP (fun b => b / pgSize = a) ∧
      arena.freeCnt < (h.descs d).blocksPerArena) ∧
    (h.held.Pairwise Apart ∧
      (∀ size page h', h.step (.malloc size page) = ok h' → ∀ run ∈ h.held, run ∈ h'.held) ∧
      ∀ p h', h.step (.free p) = ok h' → ∀ run ∈ h.held,
        (run ∉ h'.held ↔ ∀ b ∈ h.addrs, b / pgSize = run.1 → b = p)) ∧
    ∀ call e, h.step call ≠ .panic e := by
  have hi := hr.inv
  refine ⟨⟨hi.nodup, fun b hb => ⟨fun b' hb' => hi.bytes_disjoint hb hb', ?_,
    fun run hrun => hi.header_disjoint hb hrun⟩⟩, fun b n hb => ?_,
    fun d => ⟨hi.housed.nodup d, fun b => hi.mem_freeList_iff⟩,
    fun a arena d ha hdesc => ⟨hi.freeCnt_eq ha hdesc, hi.freeCnt_lt ha hdesc⟩,
    ⟨hi.held.apart, fun size page h' hstep run hrun => ?_,
      fun p h' hstep run hrun => hi.returned hstep hrun⟩,
    fun call e hpanic => (hi.step call).of_eq_panic hpanic⟩
  · obtain ⟨n, hn, hsub⟩ := hi.bytes_subset hb
    exact ⟨_, hn, hsub⟩
  · rw [← hi.size_le_iff hb, Heap.bytes]
    rcases Nat.eq_zero_or_pos n with rfl | hpos
    · simp
    · rw [Set.Ico_subset_Ico_iff (by omega)]
      omega
  · obtain ⟨-, hstep⟩ := require_bind_eq_ok.mp hstep
    obtain ⟨r, hmalloc, hend⟩ := bind_eq_ok.mp hstep
    obtain rfl := Outcome.ok.inj hend
    have hheld := ((hi.malloc size page).of_eq_ok hmalloc).2 run hrun
    cases hr1 : r.1 with
    | none | some b => exact hheld

/-- Two blocks of one arena are handed out and the first is freed: the arena's page is still
held, and it is given back when the second is freed. -/
theorem malloc_heap_two :
    ∃ h, HeapReachable h ∧ h.live = [(21516, 900)] ∧ (5, 1) ∈ h.held ∧
      Set.Ico 21516 (21516 + 900) ⊆ h.bytes 21516 ∧
      ∀ h', h.step (.free 21516) = ok h' → (5, 1) ∉ h'.held := by
  have key : ∃ h, HeapReachable h ∧ h.live = [(21516, 900)] ∧ h.held = [(5, 1)] :=
    ⟨_, ⟨_, rfl, [.malloc 1000 (some 5), .malloc 900 none, .free 20492], Run.of_exec rfl⟩, rfl, rfl⟩
  obtain ⟨h, hreach, hlive, hheld⟩ := key
  have hmem : (5, 1) ∈ h.held := by
    rw [hheld]
    exact List.mem_cons_self
  obtain ⟨-, hsize, -, -, ⟨-, -, hreturned⟩, -⟩ := malloc_heap hreach
  refine ⟨h, hreach, hlive, hmem, (hsize 21516 900 (by rw [hlive]; simp)).mpr (by decide),
    fun h' hstep => (hreturned 21516 h' hstep (5, 1) hmem).mpr fun b hb _ => ?_⟩
  rw [Heap.addrs, hlive] at hb
  simpa using hb

/-- **A request that wraps.** `malloc (4294967295)` hands out a block in a single page. -/
theorem malloc_wraps :
    ∃ h, HeapReachable h ∧ (20492, 4294967295) ∈ h.live ∧ h.held = [(5, 1)] ∧
      ¬Set.Ico 20492 (20492 + 4294967295) ⊆ Set.Ico (5 * pgSize) ((5 + 1) * pgSize) := by
  refine ⟨_, ⟨_, rfl, [.malloc 4294967295 (some 5)], Run.of_exec rfl⟩, List.mem_cons_self, rfl, ?_⟩
  rw [Set.Ico_subset_Ico_iff (by decide)]
  decide

end Pintos
