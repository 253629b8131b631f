import Mathlib.Algebra.Order.Ring.Nat
import Mathlib.Logic.Function.Basic
import Pintos.Outcome
import Pintos.Swap

/-!
# The Kernel Heap

`malloc_init`, `malloc`, `free` and their helpers of `threads/malloc.c`. A descriptor serves
the requests up to its block size from arenas of one page each, all of whose free blocks are
linked in the descriptor's list; a greater request gets pages of its own. A block's arena is
found by rounding its address down to a page.

## Conventions

* A page is named by its number and a descriptor by its index in `descs`. `arenas a` is the
  `struct arena` at the start of page `a`; `none` says that no `ARENA_MAGIC` stands there,
  which is so for pages that were given back, as `palloc_free_multiple` fills them with 0xcc.
* The page allocator's answer is an argument. It is assumed correct: the pages it hands out
  are not held by the heap (`pallocOk`). `held` lists the runs of pages the heap has got and
  not given back.
* `size_t` is 32 bits wide: the page count of a big block and the counters wrap.
* `live` is a record of the blocks that are handed out, with the sizes asked for. It is read
  by `step` only, which frees handed out blocks only.
* The locks, which order the calls for one descriptor, are left out.
-/

namespace Pintos

open Verif Verif.Outcome Function

/-- `sizeof (struct arena)`. -/
def sizeofArena : ℕ := 12

/-- `struct desc` without its list and lock. -/
structure Desc where
  blockSize : ℕ
  blocksPerArena : ℕ
  deriving DecidableEq, Repr

/-- `struct arena`. -/
structure Arena where
  /-- The owning descriptor, `none` for a big block. -/
  desc : Option ℕ
  /-- The free blocks, or the pages of a big block. -/
  freeCnt : ℕ
  deriving DecidableEq, Repr

/-- The assertions of `threads/malloc.c` and of the functions it calls. -/
inductive MallocAssert where
  /-- `malloc_init`: `desc_cnt <= sizeof descs / sizeof *descs`. -/
  | descCount
  /-- `a != NULL` and `a->magic == ARENA_MAGIC`. -/
  | arenaMagic
  /-- `block_to_arena`: the block is not aligned for its arena. -/
  | blockAlignment
  /-- `block_to_arena`: a big block is not right after its arena. -/
  | bigBlock
  /-- `arena_to_block`: `idx < a->desc->blocks_per_arena`. -/
  | blockIndex
  /-- `arena_to_block` reads the descriptor of a big block. -/
  | nullDesc
  /-- `list_pop_front` of an empty list. -/
  | listEmpty
  /-- `list_remove` of an element that is not in the list. -/
  | listRemove
  /-- `free`: `a->free_cnt == d->blocks_per_arena`. -/
  | freeCount
  /-- `palloc_free_multiple` of pages that are not allocated. -/
  | notHeld
  deriving DecidableEq, Repr

/-- A computation that may fail an assertion. -/
abbrev MallocM := Outcome MallocAssert

/-- The heap. -/
structure Heap where
  descs : ℕ → Desc
  descCnt : ℕ
  /-- `free_list` of each descriptor. -/
  freeList : ℕ → List ℕ
  arenas : ℕ → Option Arena
  /-- The runs of pages got from the page allocator: the first page and their number. -/
  held : List (ℕ × ℕ)
  /-- The blocks handed out: the address and the size asked for. -/
  live : List (ℕ × ℕ)

/-- `DIV_ROUND_UP (size + sizeof *a, PGSIZE)`. -/
def bigPages (size : ℕ) : ℕ :=
  ((size + sizeofArena) % 2 ^ 32 + pgSize - 1) % 2 ^ 32 / pgSize

namespace Heap

/-- Store an arena's header. -/
def setArena (h : Heap) (a : ℕ) (arena : Option Arena) : Heap :=
  { h with arenas := update h.arenas a arena }

/-- Replace the free list of a descriptor. -/
def setList (h : Heap) (d : ℕ) (list : List ℕ) : Heap :=
  { h with freeList := update h.freeList d list }

/-! ### Initialisation -/

/-- The loop of `malloc_init`. -/
def mallocInitLoop : ℕ → ℕ → Heap → MallocM Heap
  | 0, _, h => return h
  | fuel + 1, blockSize, h =>
    if blockSize < pgSize / 2 then do
      ensure (h.descCnt + 1 ≤ 10) .descCount
      let desc : Desc :=
        { blockSize := blockSize, blocksPerArena := (pgSize - sizeofArena) / blockSize }
      mallocInitLoop fuel (blockSize * 2)
        { h with descs := update h.descs h.descCnt desc, descCnt := h.descCnt + 1 }
    else return h

/-- `malloc_init`. The loop ends within as many turns as `descs` has elements. -/
def mallocInit : MallocM Heap :=
  mallocInitLoop 11 16
    { descs := fun _ => ⟨0, 0⟩, descCnt := 0, freeList := fun _ => [], arenas := fun _ => none,
      held := [], live := [] }

/-! ### Blocks and arenas -/

/-- `block_to_arena`, which checks the arena it finds. -/
def blockToArena (h : Heap) (b : ℕ) : MallocM Arena :=
  match h.arenas (b / pgSize) with
  | none => .panic .arenaMagic
  | some arena =>
    match arena.desc with
    | some d => do
      let ofs := (b % pgSize + 2 ^ 32 - sizeofArena) % 2 ^ 32
      ensure (ofs % (h.descs d).blockSize = 0) .blockAlignment
      return arena
    | none => do
      ensure (b % pgSize = sizeofArena) .bigBlock
      return arena

/-- `arena_to_block`. -/
def arenaToBlock (h : Heap) (a idx : ℕ) : MallocM ℕ :=
  match h.arenas a with
  | none => .panic .arenaMagic
  | some arena =>
    match arena.desc with
    | none => .panic .nullDesc
    | some d => do
      ensure (idx < (h.descs d).blocksPerArena) .blockIndex
      return a * pgSize + sizeofArena + idx * (h.descs d).blockSize

/-- `block_size`: the bytes that are available in a block. -/
def blockSize (h : Heap) (b : ℕ) : ℕ :=
  match h.arenas (b / pgSize) with
  | none => 0
  | some arena =>
    match arena.desc with
    | some d => (h.descs d).blockSize
    | none => pgSize * arena.freeCnt - b % pgSize

/-! ### The page allocator -/

/-- What is assumed of the pages the page allocator hands out: they are inside the address
space, not the null page, and not held by the heap already. -/
def pallocOk (h : Heap) (pageCnt page : ℕ) : Prop :=
  0 < pageCnt ∧ 0 < page ∧ page + pageCnt ≤ 2 ^ 20 ∧
    ∀ run ∈ h.held, page + pageCnt ≤ run.1 ∨ run.1 + run.2 ≤ page

instance (h : Heap) (pageCnt page : ℕ) : Decidable (h.pallocOk pageCnt page) :=
  inferInstanceAs (Decidable (_ ∧ _ ∧ _ ∧ _))

/-- `palloc_get_multiple`, with its answer. -/
def pallocGetMultiple (h : Heap) (pageCnt : ℕ) : Option ℕ → MallocM (Option (ℕ × Heap))
  | none => return none
  | some page => do
    require (h.pallocOk pageCnt page)
    return some (page, { h with held := (page, pageCnt) :: h.held })

/-- `palloc_free_multiple`. -/
def pallocFreeMultiple (h : Heap) (page pageCnt : ℕ) : MallocM Heap :=
  if pageCnt = 0 then return h
  else do
    ensure ((page, pageCnt) ∈ h.held) .notHeld
    return { h with held := h.held.erase (page, pageCnt) }.setArena page none

/-! ### `malloc` -/

/-- The descriptor for a request: the first whose blocks are big enough. -/
def findDesc (h : Heap) (size : ℕ) : Option ℕ :=
  (List.range h.descCnt).find? fun d => size ≤ (h.descs d).blockSize

/-- The part of `malloc` for requests that are too big for any descriptor. -/
def mallocBig (h : Heap) (size : ℕ) (page : Option ℕ) : MallocM (Option ℕ × Heap) := do
  match ← h.pallocGetMultiple (bigPages size) page with
  | none => return (none, h)
  | some (a, h) =>
    return (some (a * pgSize + sizeofArena),
      h.setArena a (some { desc := none, freeCnt := bigPages size }))

/-- The loop of `malloc` over the blocks of a new arena it has still to add. -/
def addBlocks (d a : ℕ) : List ℕ → Heap → MallocM Heap
  | [], h => return h
  | i :: rest, h => do
    let b ← h.arenaToBlock a i
    addBlocks d a rest (h.setList d (h.freeList d ++ [b]))

/-- The part of `malloc` that creates a new arena. -/
def newArena (h : Heap) (d : ℕ) (page : Option ℕ) : MallocM (Option Heap) := do
  match ← h.pallocGetMultiple 1 page with
  | none => return none
  | some (a, h) => do
    let blocks := (h.descs d).blocksPerArena
    let h := h.setArena a (some { desc := some d, freeCnt := blocks })
    let h ← addBlocks d a (List.range blocks) h
    return some h

/-- The end of `malloc`: take the first block of the list. -/
def takeBlock (h : Heap) (d : ℕ) : MallocM (Option ℕ × Heap) :=
  match h.freeList d with
  | [] => .panic .listEmpty
  | b :: rest => do
    let h := h.setList d rest
    let arena ← h.blockToArena b
    return (some b, h.setArena (b / pgSize)
      (some { arena with freeCnt := (arena.freeCnt + 2 ^ 32 - 1) % 2 ^ 32 }))

/-- `malloc`, with the answer of the page allocator in case it is asked. -/
def malloc (h : Heap) (size : ℕ) (page : Option ℕ) : MallocM (Option ℕ × Heap) :=
  if size = 0 then return (none, h)
  else
    match h.findDesc size with
    | none => h.mallocBig size page
    | some d =>
      if h.freeList d = [] then do
        match ← h.newArena d page with
        | none => return (none, h)
        | some h => h.takeBlock d
      else h.takeBlock d

/-! ### `free` -/

/-- The loop of `free` over the blocks of an unused arena it has still to remove. -/
def removeBlocks (d a : ℕ) : List ℕ → Heap → MallocM Heap
  | [], h => return h
  | i :: rest, h => do
    let b ← h.arenaToBlock a i
    ensure (b ∈ h.freeList d) .listRemove
    removeBlocks d a rest (h.setList d ((h.freeList d).erase b))

/-- `free`. -/
def free (h : Heap) (p : ℕ) : MallocM Heap :=
  if p = 0 then return h
  else do
    let arena ← h.blockToArena p
    let a := p / pgSize
    match arena.desc with
    | some d =>
      let blocks := (h.descs d).blocksPerArena
      let freeCnt := (arena.freeCnt + 1) % 2 ^ 32
      let h := h.setList d (p :: h.freeList d)
      let h := h.setArena a (some { arena with freeCnt := freeCnt })
      if blocks ≤ freeCnt then do
        ensure (freeCnt = blocks) .freeCount
        let h ← removeBlocks d a (List.range blocks) h
        h.pallocFreeMultiple a 1
      else return h
    | none => h.pallocFreeMultiple a arena.freeCnt

end Heap

/-! ### Steps -/

/-- A call. -/
inductive HeapCall where
  /-- `malloc`, and the pages the page allocator answers with if it is asked. -/
  | malloc (size : ℕ) (page : Option ℕ)
  | free (p : ℕ)
  deriving DecidableEq, Repr

namespace Heap

/-- The addresses of the blocks that are handed out. -/
def addrs (h : Heap) : List ℕ :=
  h.live.map Prod.fst

/-- Hand a block out. -/
def handOut (h : Heap) (size : ℕ) : Option ℕ → Heap
  | none => h
  | some b => { h with live := (b, size) :: h.live }

/-- Take a block back. -/
def takeBack (h : Heap) (p : ℕ) : Heap :=
  { h with live := h.live.filter fun x => x.1 ≠ p }

/-- One call: `malloc` of any size, or `free` of a null pointer or a block handed out. -/
def step (h : Heap) : HeapCall → MallocM Heap
  | .malloc size page => do
    require (size < 2 ^ 32)
    let (b, h) ← h.malloc size page
    return h.handOut size b
  | .free p => do
    require (p = 0 ∨ p ∈ h.addrs)
    let h ← h.free p
    return h.takeBack p

end Heap

/-- The heaps that calls reach. -/
def HeapReachable (h : Heap) : Prop :=
  ∃ h₀, Heap.mallocInit = ok h₀ ∧ Reachable Heap.step (fun _ _ => True) h₀ h

end Pintos
