import Pintos.MallocInvariant

/-!
# Calls of the Kernel Heap

`malloc_init`, `malloc` and `free` establish and keep the invariant and fail no assertion.
`malloc` keeps the pages that are held, and `free` gets none.

## Main results

* `Heap.mallocInit_inv`: the heap is empty after `malloc_init`.
* `Heap.Inv.malloc`, `Heap.Inv.free`: the calls.
* `HeapReachable.inv`: the invariant of every reachable heap.
-/

namespace Pintos

open Verif Verif.Outcome Function List

namespace Heap

/-! ### `malloc_init` -/

/-- The descriptors `malloc_init` makes fit their blocks into an arena. -/
theorem mallocInitLoop_spec (fuel : ℕ) {blockSize : ℕ} {h : Heap}
    (hsize : blockSize = 16 * 2 ^ h.descCnt) (hdescs : ∀ d < h.descCnt, (h.descs d).Ok) :
    (mallocInitLoop fuel blockSize h).Spec (fun _ => False) fun h' =>
      (∀ d < h'.descCnt, (h'.descs d).Ok) ∧ h'.freeList = h.freeList ∧ h'.arenas = h.arenas ∧
      h'.held = h.held ∧ h'.live = h.live := by
  induction fuel generalizing blockSize h with
  | zero => exact ⟨hdescs, rfl, rfl, rfl, rfl⟩
  | succ fuel ih =>
    rw [mallocInitLoop]
    split_ifs with hlt
    · have hpow : 2 ^ h.descCnt < 2 ^ 7 := by
        have hpg : pgSize / 2 = 2048 := rfl
        omega
      have hcnt := (Nat.pow_lt_pow_iff_right (by decide)).mp hpow
      refine Spec.ensure (by omega) (ih ?_ ?_)
      · rw [hsize, Nat.pow_succ, Nat.mul_assoc]
      · intro d hd
        dsimp only
        rcases Nat.lt_succ_iff_lt_or_eq.mp hd with hd | rfl
        · rw [update_of_ne (Nat.ne_of_lt hd)]
          exact hdescs d hd
        · rw [update_self]
          have hpg : pgSize = 4096 := rfl
          have hpos : 0 < 2 ^ h.descCnt := Nat.two_pow_pos _
          refine ⟨by dsimp only; omega, ?_, ?_⟩
          · exact Nat.div_pos (by rw [hpg] at hlt ⊢; rw [sizeofArena]; omega) (by omega)
          · have hmul := Nat.div_mul_le_self (pgSize - sizeofArena) blockSize
            have hle : sizeofArena ≤ pgSize := by decide
            dsimp only
            omega
    · exact ⟨hdescs, rfl, rfl, rfl, rfl⟩

/-- The heap is empty after `malloc_init`. -/
theorem mallocInit_inv {h₀ : Heap} (h : mallocInit = ok h₀) : Inv h₀ := by
  obtain ⟨hdescs, hlists, harenas, hheld, hlive⟩ :=
    (mallocInitLoop_spec 11 (by rfl) (by simp)).of_eq_ok h
  have hnone : ∀ a, h₀.arenas a = none := fun a => congrFun harenas a
  have haddrs : h₀.addrs = [] := by
    rw [addrs, hlive]
    rfl
  have hdescAt : ∀ a, h₀.descAt a = none := fun a => by rw [descAt, hnone, Option.bind_none]
  refine { descs := hdescs, owner := ?_, held := ⟨?_, ?_, ?_⟩, placed := ?_, nodup := ?_,
           housed := ⟨fun q => ?_, fun q x => ?_⟩, count := ?_, used := ?_ }
  · intro a d hd
    rw [hdescAt] at hd
    cases hd
  · simp [hheld, hnone]
  · rw [hheld]
    exact .nil
  · simp [hheld]
  · simp [hlive]
  · rw [haddrs]
    exact nodup_nil
  · rw [hlists]
    exact nodup_nil
  · rw [hlists, home_eq_some_iff, hdescAt]
    simp
  · simp [hnone]
  · simp [hnone]

example : (mallocInit.test fun h => h.descCnt = 7 ∧ (h.descs 6).blockSize = 1024) = true := by
  decide

/-! ### `malloc` -/

variable {h : Heap} {a d b n p : ℕ} {arena : Arena}

/-- The counter of an arena is at most the number of its blocks. -/
theorem Core.freeCnt_le (hc : Core h) (ha : h.arenas a = some arena) (hdesc : arena.desc = some d) :
    arena.freeCnt ≤ (h.descs d).blocksPerArena := by
  rw [hc.count a arena d ha hdesc, ← length_blocks h a d]
  exact countP_le_length

/-- Every arena has a block handed out, but for the one whose block is the first of a list. -/
def AlmostUsed (h : Heap) (d : ℕ) : Prop :=
  ∀ a arena, h.arenas a = some arena → (∃ b ∈ h.addrs, b / pgSize = a) ∨
    ∀ b ∈ (h.freeList d).head?, b / pgSize = a

/-- **Taking the first block of a list.** -/
theorem Core.takeBlock (hc : Core h) (hne : h.freeList d ≠ []) (hn : n ≤ (h.descs d).blockSize)
    (hused : h.AlmostUsed d) : (h.takeBlock d).Spec (fun _ => False) fun r =>
      Inv (r.2.handOut n r.1) ∧ r.2.held = h.held := by
  obtain ⟨b, rest, hlist⟩ := exists_cons_of_ne_nil hne
  obtain ⟨arena, ha, hdesc, hb, hout⟩ := hc.front hlist
  have hok := hc.ok_of_arena ha hdesc
  obtain ⟨hcore, hpos⟩ := hc.handOutBlock hlist ha hdesc hb hout hn
  have harena : (h.setList d rest).blockToArena b = ok arena := blockToArena_block hok ha hdesc hb
  have hcnt : (arena.freeCnt + 2 ^ 32 - 1) % 2 ^ 32 = arena.freeCnt - 1 := by
    have hle := hc.freeCnt_le ha hdesc
    have hlt := hok.lt
    omega
  rw [Heap.takeBlock, hlist]
  dsimp only
  rw [harena, ok_bind, hcnt]
  refine ⟨⟨hcore, fun x ar har => ?_⟩, rfl⟩
  change update h.arenas _ _ x = _ at har
  change ∃ c ∈ b :: h.addrs, c / pgSize = x
  rcases eq_or_ne x (b / pgSize) with rfl | hx
  · exact ⟨b, mem_cons_self, rfl⟩
  · rw [update_of_ne hx] at har
    rcases hused x ar har with ⟨c, hc, hcx⟩ | hfront
    · exact ⟨c, mem_cons_of_mem _ hc, hcx⟩
    · exact absurd (hfront b (by rw [hlist]; rfl)).symm hx

/-- The answer of the page allocator. -/
theorem pallocGetMultiple_spec (h : Heap) (cnt : ℕ) (page : Option ℕ) :
    (h.pallocGetMultiple cnt page).Spec (fun _ => False) fun r => ∀ a h', r = some (a, h') →
      h.pallocOk cnt a ∧ h' = { h with held := (a, cnt) :: h.held } := by
  cases page with
  | none => exact fun _ _ heq => by cases heq
  | some a =>
    refine Spec.require fun hok => ?_
    rintro _ _ ⟨⟩
    exact ⟨hok, rfl⟩

/-- **Creating an arena.** -/
theorem Inv.newArena (hi : Inv h) (hd : d < h.descCnt) (hempty : h.freeList d = [])
    (page : Option ℕ) : (h.newArena d page).Spec (fun _ => False) fun r =>
      ∀ h', r = some h' → Core h' ∧ h'.freeList d ≠ [] ∧ h'.AlmostUsed d ∧ h'.descs = h.descs ∧
        ∀ run ∈ h.held, run ∈ h'.held := by
  have hdok := hi.descs d hd
  refine (h.pallocGetMultiple_spec 1 page).bind fun r _ hr => ?_
  cases r with
  | none => exact fun _ heq => by cases heq
  | some r =>
    obtain ⟨a, h₁⟩ := r
    obtain ⟨hok, rfl⟩ := hr a h₁ rfl
    have hnew : (({ h with held := (a, 1) :: h.held } : Heap).setArena a
        (some ⟨some d, (h.descs d).blocksPerArena⟩)).arenas a =
        some ⟨some d, (h.descs d).blocksPerArena⟩ := update_self ..
    have hadd := addBlocks_eq (range (h.descs d).blocksPerArena) hnew rfl
      fun i hi => mem_range.mp hi
    dsimp only
    rw [hadd, ok_bind]
    rintro _ ⟨⟩
    have hlist : (h.addArena d a).freeList d = h.blocks a d := by
      rw [addArena, freeList_setList, hempty, nil_append]
    refine ⟨hi.addArena hd hok, ?_, fun x ar har => ?_, rfl,
      fun run hrun => mem_cons_of_mem _ hrun⟩
    · change (h.addArena d a).freeList d ≠ []
      rw [hlist, ← length_pos_iff, length_blocks]
      exact hdok.some
    · change update h.arenas a _ x = _ at har
      rcases eq_or_ne x a with rfl | hx
      · right
        change ∀ b ∈ ((h.addArena d x).freeList d).head?, _
        rw [hlist]
        exact fun b hb => (block_ofs hdok (mem_of_mem_head? hb)).1
      · rw [update_of_ne hx] at har
        exact .inl (hi.used x ar har)

/-- A block that is too big for any descriptor. -/
theorem Inv.mallocBig (hi : Inv h) (size : ℕ) (page : Option ℕ) :
    (h.mallocBig size page).Spec (fun _ => False) fun r =>
      Inv (r.2.handOut size r.1) ∧ ∀ run ∈ h.held, run ∈ r.2.held := by
  refine (h.pallocGetMultiple_spec (bigPages size) page).bind fun r _ hr => ?_
  cases r with
  | none => exact ⟨hi, fun _ => id⟩
  | some r =>
    obtain ⟨a, h₁⟩ := r
    obtain ⟨hok, rfl⟩ := hr a h₁ rfl
    refine ⟨⟨hi.addBig hok, fun x ar har => ?_⟩, fun run hrun => mem_cons_of_mem _ hrun⟩
    change update h.arenas a _ x = _ at har
    change ∃ c ∈ (a * pgSize + sizeofArena) :: h.addrs, c / pgSize = x
    rcases eq_or_ne x a with rfl | hx
    · refine ⟨_, mem_cons_self, ?_⟩
      rw [Nat.mul_comm, Nat.mul_add_div (by decide), Nat.div_eq_of_lt (by decide), Nat.add_zero]
    · rw [update_of_ne hx] at har
      obtain ⟨c, hc, hcx⟩ := hi.used x ar har
      exact ⟨c, mem_cons_of_mem _ hc, hcx⟩

/-- The descriptor that is found has blocks of the size. -/
theorem findDesc_spec {size : ℕ} (hfind : h.findDesc size = some d) :
    d < h.descCnt ∧ size ≤ (h.descs d).blockSize :=
  ⟨mem_range.mp (mem_of_find?_eq_some hfind), by simpa using find?_some hfind⟩

/-- **`malloc` keeps the invariant** and the pages that are held. -/
theorem Inv.malloc (hi : Inv h) (size : ℕ) (page : Option ℕ) :
    (h.malloc size page).Spec (fun _ => False) fun r =>
      Inv (r.2.handOut size r.1) ∧ ∀ run ∈ h.held, run ∈ r.2.held := by
  unfold Heap.malloc
  split
  · exact ⟨hi, fun _ => id⟩
  · split
    · exact hi.mallocBig size page
    · rename_i d hfind
      obtain ⟨hd, hsize⟩ := findDesc_spec hfind
      split_ifs with hempty
      · refine (hi.newArena hd hempty page).bind fun r _ hr => ?_
        cases r with
        | none => exact ⟨hi, fun _ => id⟩
        | some h₁ =>
          obtain ⟨hc, hne, hused, hdescs, hheld⟩ := hr h₁ rfl
          refine (hc.takeBlock hne (by rw [hdescs]; exact hsize) hused).mono
            fun r _ ⟨hinv, heq⟩ => ⟨hinv, fun run hrun => ?_⟩
          rw [heq]
          exact hheld run hrun
      · refine (hi.takeBlock hempty hsize fun x ar har => .inl (hi.used x ar har)).mono
          fun r _ ⟨hinv, heq⟩ => ⟨hinv, fun run hrun => ?_⟩
        rw [heq]
        exact hrun

/-! ### `free` -/

/-- Giving pages back that are held. -/
theorem pallocFreeMultiple_eq (hpos : 0 < n) (hmem : (a, n) ∈ h.held) :
    h.pallocFreeMultiple a n = ok (({ h with held := h.held.erase (a, n) } : Heap).setArena a
      none) := by
  rw [pallocFreeMultiple, if_neg (Nat.ne_of_gt hpos), ensure_of_true hmem, ok_bind, pure_eq]

/-- What other arenas have handed out is not `p`. -/
theorem Inv.used_other {x : ℕ} {ar : Arena} (hi : Inv h) (har : h.arenas x = some ar)
    (hx : x ≠ p / pgSize) : ∃ c ∈ (h.takeBack p).addrs, c / pgSize = x := by
  obtain ⟨c, hc, hcx⟩ := hi.used x ar har
  refine ⟨c, mem_addrs_takeBack.mpr ⟨hc, ?_⟩, hcx⟩
  rintro rfl
  exact hx hcx.symm

/-- Freeing a big block. -/
theorem Inv.freeBig (hi : Inv h) (hp : p ∈ h.addrs) (ha : h.arenas (p / pgSize) = some arena)
    (hdesc : arena.desc = none) (hofs : p % pgSize = sizeofArena) :
    (h.pallocFreeMultiple (p / pgSize) arena.freeCnt).Spec (fun _ => False) fun h' =>
      Inv (h'.takeBack p) ∧ (∀ run ∈ h'.held, run ∈ h.held) ∧ h'.live = h.live := by
  have hpages : arena.pages = arena.freeCnt := by
    simp only [Arena.pages, hdesc]
  have hmem := hi.held.mem ha
  have hpos := (hi.held.bounds _ hmem).2.1
  rw [hpages] at hmem hpos
  rw [pallocFreeMultiple_eq hpos hmem]
  -- a big block is the only one of its pages
  have honly : ∀ x ∈ h.addrs, x / pgSize = p / pgSize → x = p := by
    intro x hx hdiv
    obtain ⟨m, hm⟩ := mem_addrs.mp hx
    obtain ⟨ar, har, hs⟩ := hi.placed x m hm
    rw [hdiv, ha] at har
    obtain rfl := Option.some.inj har
    simp only [Serves, hdesc] at hs
    rw [← Nat.div_add_mod x pgSize, hdiv, hs.1, ← hofs, Nat.div_add_mod]
  have hne : ∀ x m, (x, m) ∈ h.live → x ≠ p → x / pgSize ≠ p / pgSize :=
    fun x m hx hxp hdiv => hxp (honly x (mem_addrs.mpr ⟨m, hx⟩) hdiv)
  refine ⟨⟨hi.dropPages ha rfl rfl (by rw [hpages]; rfl) rfl (fun x m hx => ?_) (fun x hx => ?_)
    (hi.nodup_takeBack p) fun q => ⟨hi.housed.nodup q, fun x => ?_⟩, fun x ar har => ?_⟩,
    fun run => mem_of_mem_erase, rfl⟩
  · obtain ⟨hold, hxp⟩ := mem_filter.mp hx
    exact ⟨hold, hne x m hold (by simpa using hxp)⟩
  · refine (mem_addrs_takeBack (h := h)).trans (and_iff_left ?_)
    rintro rfl
    exact hx rfl
  · refine (and_iff_left_of_imp fun hx => ?_).symm
    rintro hdiv
    have hhome := home_eq_some_iff.mp ((hi.housed.mem_iff q x).mp hx)
    rw [hdiv, descAt_of ha, hdesc] at hhome
    cases hhome.1
  · change update h.arenas _ none x = _ at har
    rw [update_apply] at har
    split at har
    · cases har
    · rename_i hx
      exact hi.used_other har hx

/-- A block is freed and its arena has others that are handed out. -/
theorem Inv.freeBlock (hi : Inv h) (hp : p ∈ h.addrs) (ha : h.arenas (p / pgSize) = some arena)
    (hdesc : arena.desc = some d) (hb : p ∈ h.blocks (p / pgSize) d)
    (hlt : arena.freeCnt + 1 < (h.descs d).blocksPerArena) : Inv (h.takeBackBlock d p arena) := by
  have hc := hi.takeBackBlock hp ha hdesc hb
  refine ⟨hc, fun x ar har => ?_⟩
  change update h.arenas _ _ x = _ at har
  rcases eq_or_ne x (p / pgSize) with rfl | hx
  · -- the counter is less than the number of blocks
    have hcount := hc.count (p / pgSize) _ d (update_self ..) hdesc
    by_contra hnone
    have hall : (h.blocks (p / pgSize) d).countP (fun b => b ∉ (h.takeBackBlock d p arena).addrs) =
        (h.blocks (p / pgSize) d).length := by
      refine countP_eq_length.mpr fun b hb => decide_eq_true fun hmem => hnone ⟨b, hmem, ?_⟩
      exact (block_ofs (hi.ok_of_arena ha hdesc) hb).1
    rw [length_blocks] at hall
    have heq : arena.freeCnt + 1 = (h.descs d).blocksPerArena := hcount.trans hall
    omega
  · rw [update_of_ne hx] at har
    exact hi.used_other har hx

/-- The last block of an arena is freed: all its blocks leave the list, and its page is given
back. -/
theorem Inv.freeLast (hi : Inv h) (hp : p ∈ h.addrs) (ha : h.arenas (p / pgSize) = some arena)
    (hdesc : arena.desc = some d) (hb : p ∈ h.blocks (p / pgSize) d)
    (heq : arena.freeCnt + 1 = (h.descs d).blocksPerArena) :
    (removeBlocks d (p / pgSize) (range (h.descs d).blocksPerArena)
      ((h.setList d (p :: h.freeList d)).setArena (p / pgSize)
        (some { arena with freeCnt := arena.freeCnt + 1 })) >>= fun h =>
        h.pallocFreeMultiple (p / pgSize) 1).Spec (fun _ => False) fun h' =>
      Inv (h'.takeBack p) ∧ (∀ run ∈ h'.held, run ∈ h.held) ∧ h'.live = h.live := by
  have hok := hi.ok_of_arena ha hdesc
  have hc := hi.takeBackBlock hp ha hdesc hb
  have harena : (h.takeBackBlock d p arena).arenas (p / pgSize) =
      some { arena with freeCnt := arena.freeCnt + 1 } := update_self ..
  have hdescAt : (h.takeBackBlock d p arena).descAt (p / pgSize) = some d :=
    (descAt_of harena).trans hdesc
  -- none of its blocks is handed out, so all are in the list
  have hall : ∀ b ∈ h.blocks (p / pgSize) d, b ∉ (h.takeBackBlock d p arena).addrs := by
    have hcount : arena.freeCnt + 1 = (h.blocks (p / pgSize) d).countP
        fun b => b ∉ (h.takeBackBlock d p arena).addrs := hc.count (p / pgSize) _ d harena hdesc
    rw [heq, ← length_blocks h (p / pgSize) d] at hcount
    intro b hb
    exact of_decide_eq_true (countP_eq_length.mp hcount.symm b hb)
  have hlisted : ∀ b ∈ h.blocks (p / pgSize) d, b ∈ (h.takeBackBlock d p arena).freeList d := by
    intro b hb
    have hdiv := (block_ofs hok hb).1
    refine (hc.housed.mem_iff d b).mpr (home_eq_some_iff.mpr ⟨?_, ?_, hall b hb⟩)
    · rw [hdiv]
      exact hdescAt
    · rw [hdiv]
      exact hb
  have hset : ((h.setList d (p :: h.freeList d)).setArena (p / pgSize)
      (some { arena with freeCnt := arena.freeCnt + 1 })).arenas (p / pgSize) =
      some { arena with freeCnt := arena.freeCnt + 1 } := harena
  obtain ⟨l, hrun, hnodup, hmem⟩ := removeBlocks_eq (range (h.descs d).blocksPerArena)
    hset hdesc hok nodup_range (fun i hi => mem_range.mp hi) (hc.housed.nodup d)
    fun i hi => hlisted _ (mem_blocks.mpr ⟨i, mem_range.mp hi, rfl⟩)
  have hpages : ∀ ar : Arena, ar.desc = some d → ar.pages = 1 := fun ar har => by
    simp only [Arena.pages, har]
  have hone : ({ arena with freeCnt := arena.freeCnt + 1 } : Arena).pages = 1 := hpages _ hdesc
  have hheld : (p / pgSize, 1) ∈ h.held := hpages arena hdesc ▸ hi.held.mem ha
  rw [hrun, ok_bind, pallocFreeMultiple_eq Nat.one_pos (by exact hheld)]
  refine ⟨⟨hc.dropPages harena rfl rfl (by rw [hone]; rfl) rfl (fun x m hx => ?_)
    (fun x hx => Iff.rfl) hc.nodup fun q => ?_, fun x ar har => ?_⟩,
    fun run => mem_of_mem_erase, rfl⟩
  · refine ⟨hx, fun hdiv => ?_⟩
    obtain ⟨ar, har, hs⟩ := hc.placed x m hx
    rw [hdiv, harena] at har
    obtain rfl := Option.some.inj har
    simp only [Serves, hdesc, hdiv] at hs
    exact hall x hs.1 (mem_addrs.mpr ⟨m, hx⟩)
  · change (update (h.takeBackBlock d p arena).freeList d l q).Nodup ∧
      ∀ x, x ∈ update (h.takeBackBlock d p arena).freeList d l q ↔ _
    rw [update_apply]
    split_ifs with hq
    · subst q
      refine ⟨hnodup, fun x => (hmem x).trans (and_congr_right fun hx => not_congr ?_)⟩
      refine ⟨fun hx' => (block_ofs hok hx').1, fun hdiv => ?_⟩
      have hhome := (home_eq_some_iff.mp ((hc.housed.mem_iff d x).mp hx)).2.1
      rw [hdiv] at hhome
      exact hhome
    · refine ⟨hc.housed.nodup q, fun x => (and_iff_left_of_imp fun hx hdiv => hq ?_).symm⟩
      have hhome := (home_eq_some_iff.mp ((hc.housed.mem_iff q x).mp hx)).1
      rw [hdiv, hdescAt] at hhome
      exact (Option.some.inj hhome).symm
  · change update (h.takeBackBlock d p arena).arenas (p / pgSize) none x = _ at har
    rw [update_apply] at har
    split at har
    · cases har
    · rename_i hx
      change update h.arenas _ _ x = _ at har
      rw [update_of_ne hx] at har
      exact hi.used_other har hx

/-- **`free` keeps the invariant** and gets no pages. -/
theorem Inv.free (hi : Inv h) (hp : p = 0 ∨ p ∈ h.addrs) :
    (h.free p).Spec (fun _ => False) fun h' =>
      Inv (h'.takeBack p) ∧ (∀ run ∈ h'.held, run ∈ h.held) ∧ h'.live = h.live := by
  -- the null page is not held
  have hzero : ∀ x ∈ h.addrs, x ≠ 0 := by
    rintro x hx rfl
    obtain ⟨arena, ha⟩ := hi.handed hx
    exact absurd (hi.held.bounds _ (hi.held.mem ha)).1 (by simp)
  by_cases hp0 : p = 0
  · subst p
    have hsame : h.takeBack 0 = h := by
      rw [takeBack, filter_eq_self.mpr]
      intro x hx
      simpa using hzero x.1 (mem_addrs.mpr ⟨x.2, hx⟩)
    rw [Heap.free, if_pos rfl]
    refine ⟨?_, fun _ => id, rfl⟩
    rw [hsame]
    exact hi
  · have hp := hp.resolve_left hp0
    obtain ⟨m, hm⟩ := mem_addrs.mp hp
    obtain ⟨arena, ha, hs⟩ := hi.placed p m hm
    rw [Heap.free, if_neg hp0]
    cases hdesc : arena.desc with
    | none =>
      simp only [Serves, hdesc] at hs
      rw [blockToArena_big ha hdesc hs.1, ok_bind]
      rw [hdesc]
      exact hi.freeBig hp ha hdesc hs.1
    | some d =>
      simp only [Serves, hdesc] at hs
      have hok := hi.ok_of_arena ha hdesc
      have hle := hi.freeCnt_le ha hdesc
      have hcnt : (arena.freeCnt + 1) % 2 ^ 32 = arena.freeCnt + 1 := by
        have hlt := hok.lt
        omega
      have hle' := (hi.takeBackBlock hp ha hdesc hs.1).freeCnt_le (update_self ..) hdesc
      rw [blockToArena_block hok ha hdesc hs.1, ok_bind]
      rw [hdesc]
      dsimp only
      rw [hcnt]
      split_ifs with hge
      · have heq : arena.freeCnt + 1 = (h.descs d).blocksPerArena := Nat.le_antisymm hle' hge
        refine Spec.ensure heq ?_
        have hlast := hi.freeLast hp ha hdesc hs.1 heq
        rw [hdesc] at hlast
        exact hlast
      · have hinv := hi.freeBlock hp ha hdesc hs.1 (Nat.lt_of_not_le hge)
        rw [takeBackBlock, hdesc] at hinv
        exact ⟨hinv, fun _ => id, rfl⟩

/-! ### Runs -/

/-- **Every call keeps the invariant** and fails no assertion. -/
theorem Inv.step (hi : Inv h) (call : HeapCall) : (h.step call).Spec (fun _ => False) Inv := by
  cases call with
  | malloc size page =>
    refine Spec.require fun _ => ?_
    exact (hi.malloc size page).bind fun r _ hr => hr.1
  | free p =>
    refine Spec.require fun hp => ?_
    exact (hi.free hp).bind fun h' _ hr => hr.1

end Heap

theorem HeapReachable.inv {h : Heap} (hr : HeapReachable h) : h.Inv := by
  obtain ⟨h₀, h₀eq, hreach⟩ := hr
  exact hreach.invariant (Heap.mallocInit_inv h₀eq) fun h call h' hi _ hstep =>
    (hi.step call).of_eq_ok hstep

end Pintos
