import Pintos.Homes
import Pintos.Keyed
import Pintos.Malloc

/-!
# The Invariant of the Kernel Heap

The blocks of an arena are its page after the header, cut into pieces of the descriptor's
block size. A block that is not handed out is in the free list of its arena's descriptor,
which is its `home`; `free_cnt` counts these blocks of an arena. In between two calls every
arena also has a block that is handed out.

## Main results

* `Heap.Core`, `Heap.Inv`: the invariant within a call and between calls.
* `Heap.Core.addArena`, `Heap.Core.handOutBlock`, `Heap.Core.addBig`: what `malloc` does.
* `Heap.Core.takeBackBlock`, `Heap.Core.dropPages`: what `free` does.
-/

namespace Pintos

open Verif Verif.Outcome Function List

/-- A descriptor whose blocks fit into an arena. -/
structure Desc.Ok (d : Desc) : Prop where
  pos : 0 < d.blockSize
  some : 0 < d.blocksPerArena
  fits : sizeofArena + d.blocksPerArena * d.blockSize ≤ pgSize

theorem Desc.Ok.lt {d : Desc} (hd : d.Ok) : d.blocksPerArena < 2 ^ 32 - 1 := by
  have hmul := Nat.le_mul_of_pos_right d.blocksPerArena hd.pos
  have hfits := hd.fits
  have hpg : pgSize = 4096 := rfl
  omega

/-- The pages of an arena. -/
def Arena.pages (arena : Arena) : ℕ :=
  match arena.desc with
  | some _ => 1
  | none => arena.freeCnt

/-- Two runs of pages that do not overlap. -/
def Apart (x y : ℕ × ℕ) : Prop :=
  x.1 + x.2 ≤ y.1 ∨ y.1 + y.2 ≤ x.1

/-- The pages held are those of the arenas, and no page is held twice. -/
structure Held (held : List (ℕ × ℕ)) (arenas : ℕ → Option Arena) : Prop where
  mem_iff : ∀ a n, (a, n) ∈ held ↔ ∃ arena, arenas a = some arena ∧ arena.pages = n
  apart : held.Pairwise Apart
  bounds : ∀ run ∈ held, 0 < run.1 ∧ 0 < run.2 ∧ run.1 + run.2 ≤ 2 ^ 20

namespace Held

variable {held : List (ℕ × ℕ)} {arenas : ℕ → Option Arena} {a n : ℕ} {arena arena' : Arena}

theorem mem (h : Held held arenas) (ha : arenas a = some arena) : (a, arena.pages) ∈ held :=
  (h.mem_iff a _).mpr ⟨arena, ha, rfl⟩

theorem nodup (h : Held held arenas) : held.Nodup := by
  refine h.apart.imp_of_mem fun {x y} hx _ hxy => ?_
  rintro rfl
  have hpos := (h.bounds x hx).2.1
  rcases hxy with hxy | hxy <;> omega

/-- Pages that are not held have no arena. -/
theorem fresh (h : Held held arenas) (hn : 0 < n)
    (hapart : ∀ run ∈ held, a + n ≤ run.1 ∨ run.1 + run.2 ≤ a) : arenas a = none := by
  cases ha : arenas a with
  | none => rfl
  | some arena =>
    have hmem := h.mem ha
    have hpos := (h.bounds _ hmem).2.1
    rcases hapart _ hmem with hle | hle
    · exact absurd hle (by dsimp only; omega)
    · exact absurd hle (by dsimp only at hpos ⊢; omega)

/-- New pages are got. -/
theorem add (h : Held held arenas) (hn : 0 < n) (ha : 0 < a) (hend : a + n ≤ 2 ^ 20)
    (hapart : ∀ run ∈ held, a + n ≤ run.1 ∨ run.1 + run.2 ≤ a) (hp : arena.pages = n) :
    Held ((a, n) :: held) (update arenas a (some arena)) := by
  have hnone := h.fresh hn hapart
  refine ⟨fun x m => ?_, pairwise_cons.mpr ⟨hapart, h.apart⟩, ?_⟩
  · rw [mem_cons]
    rcases eq_or_ne x a with rfl | hne
    · rw [update_self, h.mem_iff, hnone]
      simp [hp, eq_comm]
    · rw [update_of_ne hne, h.mem_iff]
      simp [hne]
  · intro run hrun
    rcases mem_cons.mp hrun with rfl | hold
    · exact ⟨ha, hn, hend⟩
    · exact h.bounds run hold

/-- The pages of an arena are given back. -/
theorem drop (h : Held held arenas) (ha : arenas a = some arena) :
    Held (held.erase (a, arena.pages)) (update arenas a none) := by
  refine ⟨fun x m => ?_, h.apart.sublist erase_sublist,
    fun run hrun => h.bounds run (mem_of_mem_erase hrun)⟩
  rw [h.nodup.mem_erase_iff, h.mem_iff]
  rcases eq_or_ne x a with rfl | hne
  · rw [update_self, ha]
    simp [eq_comm]
  · rw [update_of_ne hne]
    simp [hne]

/-- An arena's header changes. -/
theorem congr (h : Held held arenas) (ha : arenas a = some arena)
    (hp : arena'.pages = arena.pages) : Held held (update arenas a (some arena')) := by
  refine ⟨fun x m => ?_, h.apart, h.bounds⟩
  rw [h.mem_iff]
  rcases eq_or_ne x a with rfl | hne
  · rw [update_self, ha]
    simp [hp]
  · rw [update_of_ne hne]

end Held

namespace Heap

variable {arena : Arena} {h : Heap} {a b d : ℕ}

/-- The blocks of the arena at page `a` of descriptor `d`. -/
def blocks (h : Heap) (a d : ℕ) : List ℕ :=
  (List.range (h.descs d).blocksPerArena).map fun i =>
    a * pgSize + sizeofArena + i * (h.descs d).blockSize

/-- The descriptor of the arena at page `a`. -/
def descAt (h : Heap) (a : ℕ) : Option ℕ :=
  (h.arenas a).bind Arena.desc

/-- The free list a block belongs in: that of its arena, unless it is handed out. -/
def home (h : Heap) (b : ℕ) : Option ℕ :=
  (h.descAt (b / pgSize)).filter fun d => b ∈ h.blocks (b / pgSize) d ∧ b ∉ h.addrs

/-- The arena has a block at `b` for `n` bytes: one of its blocks, or the pages that were
computed for that size. -/
def Serves (h : Heap) (arena : Arena) (b n : ℕ) : Prop :=
  match arena.desc with
  | some d => b ∈ h.blocks (b / pgSize) d ∧ n ≤ (h.descs d).blockSize
  | none => b % pgSize = sizeofArena ∧ arena.freeCnt = bigPages n

/-- The invariant within a call. -/
structure Core (h : Heap) : Prop where
  descs : ∀ d < h.descCnt, (h.descs d).Ok
  owner : ∀ a d, h.descAt a = some d → d < h.descCnt
  held : Held h.held h.arenas
  placed : ∀ b n, (b, n) ∈ h.live →
    ∃ arena, h.arenas (b / pgSize) = some arena ∧ h.Serves arena b n
  nodup : h.addrs.Nodup
  housed : Housed h.freeList h.home
  count : ∀ a arena d, h.arenas a = some arena → arena.desc = some d →
    arena.freeCnt = (h.blocks a d).countP fun b => b ∉ h.addrs

/-- The invariant between calls: every arena has a block that is handed out. -/
structure Inv (h : Heap) : Prop extends Core h where
  used : ∀ a arena, h.arenas a = some arena → ∃ b ∈ h.addrs, b / pgSize = a

/-! ### Blocks -/

theorem mem_blocks : b ∈ h.blocks a d ↔
    ∃ i < (h.descs d).blocksPerArena,
      a * pgSize + sizeofArena + i * (h.descs d).blockSize = b := by
  simp [blocks]

theorem length_blocks (h : Heap) (a d : ℕ) :
    (h.blocks a d).length = (h.descs d).blocksPerArena := by
  rw [blocks, length_map, length_range]

theorem nodup_blocks (hd : (h.descs d).Ok) (a : ℕ) : (h.blocks a d).Nodup := by
  refine nodup_range.map fun i j hij => ?_
  exact Nat.eq_of_mul_eq_mul_right hd.pos (Nat.add_left_cancel hij)

/-- Where a block lies in its page. -/
theorem block_ofs (hd : (h.descs d).Ok) (hb : b ∈ h.blocks a d) :
    b / pgSize = a ∧ ∃ i < (h.descs d).blocksPerArena,
      b % pgSize = sizeofArena + i * (h.descs d).blockSize ∧
      b % pgSize + (h.descs d).blockSize ≤ pgSize := by
  obtain ⟨i, hi, rfl⟩ := mem_blocks.mp hb
  have hend : i * (h.descs d).blockSize + (h.descs d).blockSize ≤
      (h.descs d).blocksPerArena * (h.descs d).blockSize := by
    rw [← Nat.succ_mul]
    exact Nat.mul_le_mul_right _ hi
  have hfits := hd.fits
  have hpos := hd.pos
  have hlt : sizeofArena + i * (h.descs d).blockSize < pgSize := by omega
  have hmod : (a * pgSize + sizeofArena + i * (h.descs d).blockSize) % pgSize =
      sizeofArena + i * (h.descs d).blockSize := by
    rw [Nat.add_assoc, Nat.mul_comm a, Nat.mul_add_mod, Nat.mod_eq_of_lt hlt]
  refine ⟨?_, i, hi, hmod, ?_⟩
  · rw [Nat.add_assoc, Nat.mul_comm a, Nat.mul_add_div (by decide), Nat.div_eq_of_lt hlt,
      Nat.add_zero]
  · rw [hmod]
    omega

/-! ### `block_to_arena` and `arena_to_block` -/

theorem blockToArena_block (hd : (h.descs d).Ok) (ha : h.arenas a = some arena)
    (hdesc : arena.desc = some d) (hb : b ∈ h.blocks a d) : h.blockToArena b = ok arena := by
  obtain ⟨hdiv, i, hi, hmod, hend⟩ := block_ofs hd hb
  rw [blockToArena, hdiv, ha]
  dsimp only
  rw [hdesc]
  dsimp only
  rw [ensure_of_true, ok_bind, pure_eq]
  have hofs : (b % pgSize + 2 ^ 32 - sizeofArena) % 2 ^ 32 = i * (h.descs d).blockSize := by
    have hpg : pgSize = 4096 := rfl
    omega
  rw [hofs, Nat.mul_mod_left]

theorem blockToArena_big (ha : h.arenas (b / pgSize) = some arena) (hdesc : arena.desc = none)
    (hb : b % pgSize = sizeofArena) : h.blockToArena b = ok arena := by
  rw [blockToArena, ha]
  dsimp only
  rw [hdesc]
  rw [ensure_of_true hb, ok_bind, pure_eq]

theorem arenaToBlock_eq {i : ℕ} (ha : h.arenas a = some arena) (hdesc : arena.desc = some d)
    (hi : i < (h.descs d).blocksPerArena) :
    h.arenaToBlock a i = ok (a * pgSize + sizeofArena + i * (h.descs d).blockSize) := by
  rw [arenaToBlock, ha]
  dsimp only
  rw [hdesc]
  dsimp only
  rw [ensure_of_true hi, ok_bind, pure_eq]

theorem setList_setList (h : Heap) (d : ℕ) (l l' : List ℕ) :
    (h.setList d l).setList d l' = h.setList d l' := by
  rw [setList, setList, update_idem]
  rfl

@[simp] theorem freeList_setList (h : Heap) (d : ℕ) (l : List ℕ) :
    (h.setList d l).freeList d = l :=
  update_self ..

theorem setList_self (h : Heap) (d : ℕ) : h.setList d (h.freeList d) = h := by
  rw [setList, update_eq_self]

/-- The blocks of a new arena are added in order. -/
theorem addBlocks_eq (is : List ℕ) (ha : h.arenas a = some arena) (hdesc : arena.desc = some d)
    (his : ∀ i ∈ is, i < (h.descs d).blocksPerArena) :
    addBlocks d a is h = ok (h.setList d (h.freeList d ++
      is.map fun i => a * pgSize + sizeofArena + i * (h.descs d).blockSize)) := by
  induction is generalizing h with
  | nil => rw [addBlocks, map_nil, append_nil, setList_self, pure_eq]
  | cons i is ih =>
    have hrest := ih (h := h.setList d (h.freeList d ++
      [a * pgSize + sizeofArena + i * (h.descs d).blockSize])) ha
      fun j hj => his j (mem_cons_of_mem _ hj)
    rw [addBlocks, arenaToBlock_eq ha hdesc (his i mem_cons_self), ok_bind, hrest,
      setList_setList, freeList_setList, append_assoc]
    rfl

/-- The blocks of an unused arena are removed, each from a list that holds it. -/
theorem removeBlocks_eq (is : List ℕ) (ha : h.arenas a = some arena) (hdesc : arena.desc = some d)
    (hd : (h.descs d).Ok) (hnodup : is.Nodup) (his : ∀ i ∈ is, i < (h.descs d).blocksPerArena)
    (hl : (h.freeList d).Nodup)
    (hmem : ∀ i ∈ is, a * pgSize + sizeofArena + i * (h.descs d).blockSize ∈ h.freeList d) :
    ∃ l, removeBlocks d a is h = ok (h.setList d l) ∧ l.Nodup ∧
      ∀ b, b ∈ l ↔ b ∈ h.freeList d ∧
        b ∉ is.map fun i => a * pgSize + sizeofArena + i * (h.descs d).blockSize := by
  induction is generalizing h with
  | nil => exact ⟨h.freeList d, by rw [removeBlocks, setList_self, pure_eq], hl, by simp⟩
  | cons i is ih =>
    set b₀ := a * pgSize + sizeofArena + i * (h.descs d).blockSize with hb₀
    obtain ⟨hi, hnodup⟩ := nodup_cons.mp hnodup
    -- the other blocks are still there
    have hrest : ∀ j ∈ is, a * pgSize + sizeofArena + j * (h.descs d).blockSize ∈
        (h.freeList d).erase b₀ := by
      intro j hj
      refine (mem_erase_of_ne fun heq => hi ?_).mpr (hmem j (mem_cons_of_mem _ hj))
      have hij := Nat.eq_of_mul_eq_mul_right hd.pos (Nat.add_left_cancel heq)
      exact hij ▸ hj
    have hnodup' : ((h.setList d ((h.freeList d).erase b₀)).freeList d).Nodup := by
      rw [freeList_setList]
      exact hl.erase b₀
    obtain ⟨l, hrun, hnl, hml⟩ := ih (h := h.setList d ((h.freeList d).erase b₀)) ha hd hnodup
      (fun j hj => his j (mem_cons_of_mem _ hj)) hnodup'
      (by rw [freeList_setList]; exact hrest)
    refine ⟨l, ?_, hnl, fun b => ?_⟩
    · rw [removeBlocks, arenaToBlock_eq ha hdesc (his i mem_cons_self), ok_bind,
        ensure_of_true (hmem i mem_cons_self), ok_bind, ← hb₀, hrun, setList_setList]
    · rw [hml, freeList_setList, hl.mem_erase_iff, map_cons, mem_cons, not_or, ← hb₀]
      tauto

/-! ### Homes -/

theorem home_eq_some_iff : h.home b = some d ↔
    h.descAt (b / pgSize) = some d ∧ b ∈ h.blocks (b / pgSize) d ∧ b ∉ h.addrs := by
  rw [home, Option.filter_eq_some_iff]
  simp

theorem descAt_of (ha : h.arenas a = some arena) : h.descAt a = arena.desc := by
  rw [descAt, ha, Option.bind_some]

theorem descAt_setArena (h : Heap) (a : ℕ) (arena : Option Arena) (x : ℕ) :
    (h.setArena a arena).descAt x = if x = a then arena.bind Arena.desc else h.descAt x := by
  rw [descAt, setArena]
  dsimp only
  rw [update_apply]
  split <;> rfl

theorem mem_addrs : b ∈ h.addrs ↔ ∃ n, (b, n) ∈ h.live := by
  simp [addrs]

@[simp] theorem mem_addrs_takeBack {p : ℕ} : b ∈ (h.takeBack p).addrs ↔ b ∈ h.addrs ∧ b ≠ p := by
  simp [addrs, takeBack]

namespace Core

variable {h : Heap} {a d b n p : ℕ} {arena : Arena}

/-- A block that is handed out has an arena. -/
theorem handed (hc : Core h) (hb : b ∈ h.addrs) : ∃ arena, h.arenas (b / pgSize) = some arena := by
  obtain ⟨n, hn⟩ := mem_addrs.mp hb
  obtain ⟨arena, ha, -⟩ := hc.placed b n hn
  exact ⟨arena, ha⟩

theorem ok_of_arena (hc : Core h) (ha : h.arenas a = some arena) (hdesc : arena.desc = some d) :
    (h.descs d).Ok :=
  hc.descs d (hc.owner a d ((descAt_of ha).trans hdesc))

theorem home_none_of_mem (hb : b ∈ h.addrs) : h.home b = none := by
  cases hh : h.home b with
  | none => rfl
  | some d => exact absurd hb (home_eq_some_iff.mp hh).2.2

/-- The blocks outside an arena's page are not its own. -/
theorem not_mem_blocks (hd : (h.descs d).Ok) (hb : b / pgSize ≠ a) : b ∉ h.blocks a d :=
  fun hmem => hb (block_ofs hd hmem).1

end Core

/-! ### What `malloc` does -/

/-- The heap with a new arena at page `a`. -/
def addArena (h : Heap) (d a : ℕ) : Heap :=
  (({ h with held := (a, 1) :: h.held } : Heap).setArena a
    (some { desc := some d, freeCnt := (h.descs d).blocksPerArena })).setList d
    (h.freeList d ++ h.blocks a d)

/-- The heap with the first block `b` of a list handed out. -/
def handOutBlock (h : Heap) (d b n : ℕ) (rest : List ℕ) (arena : Arena) : Heap :=
  ((h.setList d rest).setArena (b / pgSize)
    (some { arena with freeCnt := arena.freeCnt - 1 })).handOut n (some b)

/-- The heap with a new big block at page `a`. -/
def addBig (h : Heap) (n a : ℕ) : Heap :=
  (({ h with held := (a, bigPages n) :: h.held } : Heap).setArena a
    (some { desc := none, freeCnt := bigPages n })).handOut n (some (a * pgSize + sizeofArena))

namespace Core

variable {h : Heap} {a d b n p : ℕ} {arena : Arena}

/-- Nothing that is handed out lies in pages that are not held. -/
theorem addrs_ne (hc : Core h) (ha : h.arenas a = none) (hb : b ∈ h.addrs) : b / pgSize ≠ a := by
  rintro rfl
  obtain ⟨arena, harena⟩ := hc.handed hb
  rw [ha] at harena
  cases harena

theorem descAt_none (ha : h.arenas a = none) : h.descAt a = none := by
  rw [descAt, ha, Option.bind_none]

/-- **A new arena**: all of its blocks are free. -/
theorem addArena (hc : Core h) (hd : d < h.descCnt) (hok : h.pallocOk 1 a) :
    Core (h.addArena d a) := by
  have hnone := hc.held.fresh hok.1 hok.2.2.2
  have hdok := hc.descs d hd
  have hdescAt : ∀ x, (h.addArena d a).descAt x = if x = a then some d else h.descAt x :=
    descAt_setArena _ a _
  have hqueue : ∀ q, (h.addArena d a).freeList q =
      if q = d then h.freeList d ++ h.blocks a d else h.freeList q :=
    update_apply _ _ _
  -- no block of the new page is in a list
  have hfree : ∀ q x, x ∈ h.freeList q → x / pgSize ≠ a := by
    rintro q x hx rfl
    have hhome := home_eq_some_iff.mp ((hc.housed.mem_iff q x).mp hx)
    rw [descAt_none hnone] at hhome
    cases hhome.1
  refine ⟨hc.descs, fun x e he => ?_, hc.held.add hok.1 hok.2.1 hok.2.2.1 hok.2.2.2 rfl,
    fun x m hx => ?_, hc.nodup, ⟨fun q => ?_, fun q x => ?_⟩, fun x ar e har he => ?_⟩
  · rw [hdescAt] at he
    split at he
    · exact Option.some.inj he ▸ hd
    · exact hc.owner x e he
  · obtain ⟨ar, har, hs⟩ := hc.placed x m hx
    have hne := hc.addrs_ne hnone (mem_addrs.mpr ⟨m, hx⟩)
    exact ⟨ar, (update_of_ne hne ..).trans har, hs⟩
  · rw [hqueue]
    split
    · refine nodup_append.mpr ⟨hc.housed.nodup d, nodup_blocks hdok a, fun x hx y hy => ?_⟩
      rintro rfl
      exact hfree d x hx (block_ofs hdok hy).1
    · exact hc.housed.nodup q
  · rw [home_eq_some_iff, hdescAt, hqueue]
    change _ ↔ _ ∧ x ∈ h.blocks (x / pgSize) q ∧ x ∉ h.addrs
    by_cases hx : x / pgSize = a
    · have hnot : ∀ r, x ∉ h.freeList r := fun r hr => hfree r x hr hx
      have hout : x ∉ h.addrs := fun hmem => hc.addrs_ne hnone hmem hx
      rw [if_pos hx, hx]
      split_ifs with hne
      · subst q
        simp [hnot, hout]
      · simp [hnot, Ne.symm hne]
    · rw [if_neg hx, ← home_eq_some_iff, ← hc.housed.mem_iff]
      split
      · subst q
        simp [not_mem_blocks hdok hx]
      · rfl
  · change update h.arenas a _ x = _ at har
    change _ = (h.blocks x e).countP fun b => b ∉ h.addrs
    rcases eq_or_ne x a with rfl | hne
    · rw [update_self] at har
      obtain rfl := Option.some.inj har
      obtain rfl := Option.some.inj he
      rw [countP_eq_length.mpr, length_blocks]
      intro b hb
      exact decide_eq_true fun hmem => hc.addrs_ne hnone hmem (block_ofs hdok hb).1
    · rw [update_of_ne hne] at har
      exact hc.count x ar e har he

/-- **A big block**: its pages are outside the free lists. -/
theorem addBig (hc : Core h) (hok : h.pallocOk (bigPages n) a) : Core (h.addBig n a) := by
  have hnone := hc.held.fresh hok.1 hok.2.2.2
  have hdescAt : ∀ x, (h.addBig n a).descAt x = h.descAt x := by
    intro x
    refine (descAt_setArena _ a _ x).trans ?_
    split
    · subst x
      exact (descAt_none hnone).symm
    · rfl
  have hlt : sizeofArena < pgSize := by decide
  have hdiv : (a * pgSize + sizeofArena) / pgSize = a := by
    rw [Nat.mul_comm, Nat.mul_add_div (by decide), Nat.div_eq_of_lt hlt, Nat.add_zero]
  have hmod : (a * pgSize + sizeofArena) % pgSize = sizeofArena := by
    rw [Nat.mul_comm, Nat.mul_add_mod, Nat.mod_eq_of_lt hlt]
  have haddrs : (h.addBig n a).addrs = (a * pgSize + sizeofArena) :: h.addrs := rfl
  have hhome : (h.addBig n a).home = h.home := by
    funext x
    refine Option.ext fun e => ?_
    rw [home_eq_some_iff, home_eq_some_iff, hdescAt, haddrs, mem_cons, not_or]
    change _ ∧ x ∈ h.blocks (x / pgSize) e ∧ _ ↔ _
    refine ⟨fun ⟨hx, hb, _, hout⟩ => ⟨hx, hb, hout⟩, fun ⟨hx, hb, hout⟩ => ⟨hx, hb, ?_, hout⟩⟩
    rintro rfl
    rw [hdiv, descAt_none hnone] at hx
    cases hx
  refine ⟨hc.descs, fun x e he => hc.owner x e (hdescAt x ▸ he),
    hc.held.add hok.1 hok.2.1 hok.2.2.1 hok.2.2.2 rfl, fun x m hx => ?_, ?_, ?_,
    fun x ar e har he => ?_⟩
  · rcases mem_cons.mp hx with heq | hold
    · obtain ⟨rfl, rfl⟩ := Prod.mk.inj heq
      refine ⟨{ desc := none, freeCnt := bigPages m }, ?_, hmod, rfl⟩
      rw [hdiv]
      exact update_self ..
    · obtain ⟨ar, har, hs⟩ := hc.placed x m hold
      have hne := hc.addrs_ne hnone (mem_addrs.mpr ⟨m, hold⟩)
      exact ⟨ar, (update_of_ne hne ..).trans har, hs⟩
  · rw [haddrs]
    exact nodup_cons.mpr ⟨fun hmem => hc.addrs_ne hnone hmem hdiv, hc.nodup⟩
  · rw [hhome]
    exact hc.housed
  · change update h.arenas a _ x = _ at har
    have hne : x ≠ a := by
      rintro rfl
      rw [update_self] at har
      obtain rfl := Option.some.inj har
      cases he
    rw [update_of_ne hne] at har
    have hd := hc.ok_of_arena har he
    have hmem : ∀ y, y ∈ (h.addBig n a).addrs ↔ y = a * pgSize + sizeofArena ∨ y ∈ h.addrs :=
      fun y => by rw [haddrs, mem_cons]
    have hcount := countP_notMem (nodup_blocks hd x) hmem
      fun hmem => hc.addrs_ne hnone hmem hdiv
    rw [if_neg (not_mem_blocks hd (by rw [hdiv]; exact hne.symm)), Nat.add_zero] at hcount
    exact (hc.count x ar e har he).trans hcount.symm

/-- **One block changes hands**: it is taken from its list or put back, and `free_cnt` counts
the blocks of its arena that are not handed out. -/
theorem flip {h' : Heap} {k : ℕ} (hc : Core h) (ha : h.arenas (b / pgSize) = some arena)
    (hdesc : arena.desc = some d) (hb : b ∈ h.blocks (b / pgSize) d)
    (hdescs : h'.descs = h.descs) (hcnt : h'.descCnt = h.descCnt) (hheld : h'.held = h.held)
    (harenas : h'.arenas =
      update h.arenas (b / pgSize) (some { arena with freeCnt := k }))
    (hlive : ∀ x m, (x, m) ∈ h'.live → (x, m) ∈ h.live ∨ x = b ∧ m ≤ (h.descs d).blockSize)
    (haddrs : ∀ x, x ≠ b → (x ∈ h'.addrs ↔ x ∈ h.addrs)) (hnodup : h'.addrs.Nodup)
    (hqueue : ∀ q, (h'.freeList q).Perm (Housed.moved h.freeList b (h'.home b) q))
    (hk : k = (h.blocks (b / pgSize) d).countP fun x => x ∉ h'.addrs) : Core h' := by
  have hblocks : h'.blocks = h.blocks := by
    funext x e
    rw [blocks, blocks, hdescs]
  have hserves : ∀ ar x m, h'.Serves ar x m = h.Serves ar x m := by
    intro ar x m
    rw [Serves, Serves, hblocks, hdescs]
  have hdescAt : ∀ x, h'.descAt x = h.descAt x := by
    intro x
    rw [descAt, harenas, update_apply]
    split
    · subst x
      exact (descAt_of ha).symm
    · rfl
  refine ⟨?_, fun x e he => ?_, ?_, fun x m hx => ?_, hnodup, ?_, fun x ar e har he => ?_⟩
  · rw [hcnt, hdescs]
    exact hc.descs
  · rw [hcnt]
    exact hc.owner x e (hdescAt x ▸ he)
  · rw [hheld, harenas]
    refine hc.held.congr ha ?_
    simp only [Arena.pages, hdesc]
  · -- the arena of the block serves it as before
    rw [harenas, update_apply]
    simp only [hserves]
    rcases hlive x m hx with hold | ⟨rfl, hm⟩
    · obtain ⟨ar, har, hs⟩ := hc.placed x m hold
      split_ifs with heq
      · rw [heq, ha] at har
        obtain rfl := Option.some.inj har
        refine ⟨_, rfl, ?_⟩
        simp only [Serves, hdesc] at hs ⊢
        exact hs
      · exact ⟨ar, har, hs⟩
    · rw [if_pos rfl]
      refine ⟨_, rfl, ?_⟩
      simp only [Serves, hdesc]
      exact ⟨hb, hm⟩
  · refine hc.housed.move b (fun x hx => ?_) hqueue
    refine Option.ext fun e => ?_
    rw [home_eq_some_iff, home_eq_some_iff, hdescAt, hblocks, haddrs x hx]
  · rw [harenas] at har
    rw [hblocks]
    rcases eq_or_ne x (b / pgSize) with rfl | hne
    · rw [update_self] at har
      obtain rfl := Option.some.inj har
      obtain rfl := Option.mem_unique hdesc he
      exact hk
    · rw [update_of_ne hne] at har
      rw [hc.count x ar e har he]
      refine countP_congr fun y hy => ?_
      have hyb : y ≠ b := by
        rintro rfl
        exact hne (block_ofs (hc.ok_of_arena har he) hy).1.symm
      simp [haddrs y hyb]

/-- The first block of a list. -/
theorem front {rest : List ℕ} (hc : Core h) (hlist : h.freeList d = b :: rest) :
    ∃ arena, h.arenas (b / pgSize) = some arena ∧ arena.desc = some d ∧
      b ∈ h.blocks (b / pgSize) d ∧ b ∉ h.addrs := by
  have hmem : b ∈ h.freeList d := by
    rw [hlist]
    exact mem_cons_self
  obtain ⟨hdesc, hb, hout⟩ := home_eq_some_iff.mp ((hc.housed.mem_iff d b).mp hmem)
  obtain ⟨arena, ha, hd⟩ := Option.bind_eq_some_iff.mp hdesc
  exact ⟨arena, ha, hd, hb, hout⟩

/-- **A block is handed out.** -/
theorem handOutBlock {rest : List ℕ} (hc : Core h) (hlist : h.freeList d = b :: rest)
    (ha : h.arenas (b / pgSize) = some arena) (hdesc : arena.desc = some d)
    (hb : b ∈ h.blocks (b / pgSize) d) (hout : b ∉ h.addrs) (hn : n ≤ (h.descs d).blockSize) :
    Core (h.handOutBlock d b n rest arena) ∧ 0 < arena.freeCnt := by
  have haddrs : (h.handOutBlock d b n rest arena).addrs = b :: h.addrs := rfl
  have hmem : ∀ y, y ∈ b :: h.addrs ↔ y = b ∨ y ∈ h.addrs := fun y => mem_cons
  have hcount := countP_notMem (nodup_blocks (hc.ok_of_arena ha hdesc) (b / pgSize)) hmem hout
  rw [if_pos hb, ← hc.count _ arena d ha hdesc] at hcount
  refine ⟨hc.flip ha hdesc hb rfl rfl rfl rfl ?_ ?_ ?_ (fun q => ?_) ?_, by omega⟩
  · intro x m hx
    rcases mem_cons.mp hx with heq | hold
    · obtain ⟨rfl, rfl⟩ := Prod.mk.inj heq
      exact .inr ⟨rfl, hn⟩
    · exact .inl hold
  · intro x hx
    rw [haddrs, mem_cons, or_iff_right hx]
  · rw [haddrs]
    exact nodup_cons.mpr ⟨hout, hc.nodup⟩
  · have hmem : b ∈ (h.handOutBlock d b n rest arena).addrs := mem_cons_self
    have hbhome : h.home b = some d := by
      refine (hc.housed.mem_iff d b).mp ?_
      rw [hlist]
      exact mem_cons_self
    rw [home_none_of_mem hmem, Housed.moved_leave (by simp)]
    refine List.Perm.of_eq ?_
    change update h.freeList d rest q = _
    rw [update_apply]
    split_ifs with hq
    · subst q
      rw [hlist, erase_cons_head]
    · rw [hc.housed.erase_eq]
      rw [hbhome]
      exact fun heq => hq (Option.some.inj heq).symm
  · rw [haddrs]
    omega

end Core

/-! ### What `free` does -/

/-- The heap with the block `p` put back into its list. -/
def takeBackBlock (h : Heap) (d p : ℕ) (arena : Arena) : Heap :=
  ((h.setList d (p :: h.freeList d)).setArena (p / pgSize)
    (some { arena with freeCnt := arena.freeCnt + 1 })).takeBack p

namespace Core

variable {h : Heap} {a d b n p : ℕ} {arena : Arena}

theorem nodup_takeBack (hc : Core h) (p : ℕ) : (h.takeBack p).addrs.Nodup := by
  refine hc.nodup.sublist (List.Sublist.map _ ?_)
  exact filter_sublist

/-- **A block is put back.** -/
theorem takeBackBlock (hc : Core h) (hp : p ∈ h.addrs)
    (ha : h.arenas (p / pgSize) = some arena) (hdesc : arena.desc = some d)
    (hb : p ∈ h.blocks (p / pgSize) d) : Core (h.takeBackBlock d p arena) := by
  have haddrs : ∀ x, x ∈ (h.takeBackBlock d p arena).addrs ↔ x ∈ h.addrs ∧ x ≠ p :=
    fun x => mem_addrs_takeBack (h := h)
  have hout : p ∉ (h.takeBackBlock d p arena).addrs := fun hmem => ((haddrs p).mp hmem).2 rfl
  have hmem : ∀ y, y ∈ h.addrs ↔ y = p ∨ y ∈ (h.takeBackBlock d p arena).addrs := by
    intro y
    rw [haddrs]
    rcases eq_or_ne y p with rfl | hy
    · simp [hp]
    · simp [hy]
  have hcount := countP_notMem (nodup_blocks (hc.ok_of_arena ha hdesc) (p / pgSize)) hmem hout
  rw [if_pos hb, ← hc.count _ arena d ha hdesc] at hcount
  refine hc.flip ha hdesc hb rfl rfl rfl rfl ?_ ?_ (hc.nodup_takeBack p) (fun q => ?_) hcount
  · intro x m hx
    exact .inl (mem_filter.mp hx).1
  · intro x hx
    rw [haddrs, and_iff_left hx]
  · have hhome : (h.takeBackBlock d p arena).home p = some d := by
      refine home_eq_some_iff.mpr ⟨?_, hb, hout⟩
      exact (descAt_setArena _ _ _ _).trans (by rw [if_pos rfl]; exact hdesc)
    have hnone := home_none_of_mem hp
    rw [hhome]
    refine List.Perm.of_eq ?_
    change update h.freeList d _ q = _
    rw [update_apply]
    split_ifs with hq
    · subst q
      rw [hc.housed.moved_enter (by rw [hnone]; simp)]
    · rw [hc.housed.moved_none (by rw [hnone]; simp) fun heq => hq (Option.some.inj heq).symm]

/-- **Pages are given back** from which nothing is handed out: their blocks leave the lists. -/
theorem dropPages {h' : Heap} (hc : Core h) (ha : h.arenas a = some arena)
    (hdescs : h'.descs = h.descs) (hcnt : h'.descCnt = h.descCnt)
    (hheld : h'.held = h.held.erase (a, arena.pages))
    (harenas : h'.arenas = update h.arenas a none)
    (hlive : ∀ x m, (x, m) ∈ h'.live → (x, m) ∈ h.live ∧ x / pgSize ≠ a)
    (haddrs : ∀ x, x / pgSize ≠ a → (x ∈ h'.addrs ↔ x ∈ h.addrs)) (hnodup : h'.addrs.Nodup)
    (hqueue : ∀ q, (h'.freeList q).Nodup ∧
      ∀ x, x ∈ h'.freeList q ↔ x ∈ h.freeList q ∧ x / pgSize ≠ a) : Core h' := by
  have hblocks : h'.blocks = h.blocks := by
    funext x e
    rw [blocks, blocks, hdescs]
  have hserves : ∀ ar x m, h'.Serves ar x m = h.Serves ar x m := by
    intro ar x m
    rw [Serves, Serves, hblocks, hdescs]
  have hdescAt : ∀ x, h'.descAt x = if x = a then none else h.descAt x := by
    intro x
    rw [descAt, harenas, update_apply]
    split <;> rfl
  refine ⟨?_, fun x e he => ?_, ?_, fun x m hx => ?_, hnodup,
    ⟨fun q => (hqueue q).1, fun q x => ?_⟩, fun x ar e har he => ?_⟩
  · rw [hcnt, hdescs]
    exact hc.descs
  · rw [hcnt]
    rw [hdescAt] at he
    split at he
    · cases he
    · exact hc.owner x e he
  · rw [hheld, harenas]
    exact hc.held.drop ha
  · obtain ⟨hold, hne⟩ := hlive x m hx
    obtain ⟨ar, har, hs⟩ := hc.placed x m hold
    rw [harenas, update_of_ne hne]
    exact ⟨ar, har, hserves ar x m ▸ hs⟩
  · rw [(hqueue q).2, hc.housed.mem_iff, home_eq_some_iff, home_eq_some_iff, hdescAt, hblocks]
    by_cases hx : x / pgSize = a
    · simp [hx]
    · simp [hx, haddrs x hx]
  · rw [harenas, update_apply] at har
    split at har
    · cases har
    · rename_i hne
      rw [hblocks, hc.count x ar e har he]
      refine countP_congr fun y hy => ?_
      have hya : y / pgSize ≠ a := by
        rw [(block_ofs (hc.ok_of_arena har he) hy).1]
        exact hne
      simp [haddrs y hya]

end Core

end Heap

end Pintos
