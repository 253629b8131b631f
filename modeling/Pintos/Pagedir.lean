import Mathlib.Logic.Function.Basic
import Pintos.Outcome
import Pintos.Pte

/-!
# Page Directories

The functions of `userprog/pagedir.c`, and `paging_init`. A page directory is a page of entries
that point to page tables, which are pages of entries that point to frames; a page table is made
when a page is first mapped whose entry would be in it. The kernel's part of a directory is a copy
of `init_page_dir`, so that all directories share the kernel's page tables.

## Conventions

* Memory is the words of pages; a page is named by its kernel address.
* What `palloc_get_page` answers is an argument of the functions that call it.
* The TLB is not modelled, and so `invalidate_pagedir` is left out.
-/

namespace Pintos

open Verif Pte Function

/-- The assertions of `pagedir.c`, `pte.h` and `vaddr.h`. -/
inductive PdPanic where
  /-- `ASSERT (!create || is_user_vaddr (vaddr))`. -/
  | create
  /-- `ASSERT (pde & PTE_P)`. -/
  | notPresent
  /-- `ASSERT ((void *) paddr < PHYS_BASE)`. -/
  | ptov
  /-- `ASSERT (is_kernel_vaddr (vaddr))`. -/
  | vtop
  /-- `ASSERT (pg_ofs (...) == 0)`. -/
  | pgOfs
  /-- `ASSERT (is_user_vaddr (...))`. -/
  | userVaddr
  /-- `ASSERT (vtop (kpage) >> PTSHIFT < init_ram_pages)`. -/
  | frame
  /-- `ASSERT (pd != init_page_dir)`. -/
  | initPageDir
  /-- `ASSERT ((*pte & PTE_P) == 0)`. -/
  | mapped
  /-- `PAL_ASSERT`. -/
  | palloc
  deriving DecidableEq, Repr

/-- Computations of `pagedir.c`. -/
abbrev PdM := Outcome PdPanic

/-- The words of the pages, and the variables of the kernel that `pagedir.c` reads. -/
structure Pagedir where
  memory : Word → ℕ → Word
  initPageDir : Word
  initRamPages : Word

namespace Pagedir

/-- Store a word. -/
def store (s : Pagedir) (page : Word) (i : ℕ) (w : Word) : Pagedir :=
  { s with memory := update s.memory page (update (s.memory page) i w) }

/-- Fill a page with a word. -/
def fillPage (s : Pagedir) (page w : Word) : Pagedir :=
  { s with memory := update s.memory page fun _ => w }

/-- `pagedir_create`. -/
def pagedirCreate (s : Pagedir) : (page : Option Word) → Option Word × Pagedir
  | none => (none, s)
  | some pd => (some pd, { s with memory := update s.memory pd (s.memory s.initPageDir) })

/-- `pde_get_pt`, with its assertions. -/
def getPt (pde : Word) : PdM Word := do
  Outcome.ensure (isSet pde flagP = true) .notPresent
  Outcome.ensure (pde &&& addrMask < physBase) .ptov
  return pdeGetPt pde

/-- The part of `lookup_page` that makes a page table, if there is none. -/
def makeTable (s : Pagedir) (pd vaddr : Word) (create : Bool) (page : Option Word) :
    PdM (Option Pagedir) :=
  if s.memory pd (pdNo vaddr) = 0 then
    if create then
      match page with
      | none => return none
      | some pt => do
        -- `PAL_ZERO`
        let s := s.fillPage pt 0
        Outcome.ensure (pgOfs pt = 0) .pgOfs
        Outcome.ensure (isUserVaddr pt = false) .vtop
        return some (s.store pd (pdNo vaddr) (pdeCreate pt))
    else
      return none
  else
    return some s

/-- `lookup_page`: the entry, as a page table and an index. -/
def lookupPage (s : Pagedir) (pd vaddr : Word) (create : Bool) (page : Option Word) :
    PdM (Option (Word × ℕ) × Pagedir) := do
  Outcome.ensure (create = false ∨ isUserVaddr vaddr = true) .create
  match ← s.makeTable pd vaddr create page with
  | none => return (none, s)
  | some s => do
    let pt ← getPt (s.memory pd (pdNo vaddr))
    return (some (pt, ptNo vaddr), s)

/-- `pagedir_set_page`. -/
def pagedirSetPage (s : Pagedir) (pd upage kpage : Word) (writable : Bool) (page : Option Word) :
    PdM (Bool × Pagedir) := do
  Outcome.ensure (pgOfs upage = 0) .pgOfs
  Outcome.ensure (pgOfs kpage = 0) .pgOfs
  Outcome.ensure (isUserVaddr upage = true) .userVaddr
  Outcome.ensure (isUserVaddr kpage = false) .vtop
  Outcome.ensure (vtop kpage >>> 12 < s.initRamPages) .frame
  Outcome.ensure (pd ≠ s.initPageDir) .initPageDir
  match ← s.lookupPage pd upage true page with
  | (none, s) => return (false, s)
  | (some (pt, i), s) => do
    Outcome.ensure (isSet (s.memory pt i) flagP = false) .mapped
    return (true, s.store pt i (pteCreateUser kpage writable))

/-- `pagedir_get_page`. -/
def pagedirGetPage (s : Pagedir) (pd uaddr : Word) : PdM (Option Word) := do
  Outcome.ensure (isUserVaddr uaddr = true) .userVaddr
  match ← s.lookupPage pd uaddr false none with
  | (none, _) => return none
  | (some (pt, i), s) =>
    if isSet (s.memory pt i) flagP then do
      Outcome.ensure (s.memory pt i &&& addrMask < physBase) .ptov
      return some (pteGetPage (s.memory pt i) + pgOfs uaddr)
    else
      return none

/-- `pagedir_clear_page`. -/
def pagedirClearPage (s : Pagedir) (pd upage : Word) : PdM Pagedir := do
  Outcome.ensure (pgOfs upage = 0) .pgOfs
  Outcome.ensure (isUserVaddr upage = true) .userVaddr
  match ← s.lookupPage pd upage false none with
  | (none, s) => return s
  | (some (pt, i), s) =>
    if isSet (s.memory pt i) flagP then
      return s.store pt i (s.memory pt i &&& ~~~flagP)
    else
      return s

/-- `pagedir_is_dirty` and `pagedir_is_accessed`, by their flag. -/
def isFlag (s : Pagedir) (pd vpage flag : Word) : PdM Bool := do
  match ← s.lookupPage pd vpage false none with
  | (none, _) => return false
  | (some (pt, i), s) => return isSet (s.memory pt i) flag

/-- `pagedir_is_dirty`. -/
def pagedirIsDirty (s : Pagedir) (pd vpage : Word) : PdM Bool := s.isFlag pd vpage flagD

/-- `pagedir_is_accessed`. -/
def pagedirIsAccessed (s : Pagedir) (pd vpage : Word) : PdM Bool := s.isFlag pd vpage flagA

/-- `pagedir_set_dirty` and `pagedir_set_accessed`, by their flag. -/
def changeFlag (s : Pagedir) (pd vpage flag : Word) (value : Bool) : PdM Pagedir := do
  match ← s.lookupPage pd vpage false none with
  | (none, s) => return s
  | (some (pt, i), s) => return s.store pt i (setFlag (s.memory pt i) flag value)

/-- `pagedir_set_dirty`. -/
def pagedirSetDirty (s : Pagedir) (pd vpage : Word) (dirty : Bool) : PdM Pagedir :=
  s.changeFlag pd vpage flagD dirty

/-- `pagedir_set_accessed`. -/
def pagedirSetAccessed (s : Pagedir) (pd vpage : Word) (accessed : Bool) : PdM Pagedir :=
  s.changeFlag pd vpage flagA accessed

/-- `palloc_free_page`, as far as memory is concerned: the page is filled with 0xcc. -/
def pallocFreePage (s : Pagedir) (page : Word) : Pagedir := s.fillPage page 0xcccccccc

/-- The loop of `pagedir_destroy` over the entries of a page table: the pages that are freed. -/
def destroyFrames (s : Pagedir) (pt : Word) : List ℕ → PdM (List Word × Pagedir)
  | [] => return ([], s)
  | i :: is =>
    let pte := s.memory pt i
    if isSet pte flagP then do
      Outcome.ensure (pte &&& addrMask < physBase) .ptov
      let (freed, s) ← (s.pallocFreePage (pteGetPage pte)).destroyFrames pt is
      return (pteGetPage pte :: freed, s)
    else
      s.destroyFrames pt is

/-- The loop of `pagedir_destroy` over the entries of the directory. -/
def destroyTables (s : Pagedir) (pd : Word) : List ℕ → PdM (List Word × Pagedir)
  | [] => return ([], s)
  | i :: is =>
    let pde := s.memory pd i
    if isSet pde flagP then do
      let pt ← getPt pde
      let (frames, s) ← s.destroyFrames pt (List.range 1024)
      let (freed, s) ← (s.pallocFreePage pt).destroyTables pd is
      return (frames ++ pt :: freed, s)
    else
      s.destroyTables pd is

/-- `pagedir_destroy`: the pages that are freed, in their order. -/
def pagedirDestroy (s : Pagedir) (pd : Word) : PdM (List Word × Pagedir) := do
  Outcome.ensure (pd ≠ s.initPageDir) .initPageDir
  let (freed, s) ← s.destroyTables pd (List.range (pdNo physBase))
  return (freed ++ [pd], s.pallocFreePage pd)

/-- The part of the loop of `paging_init` that makes a page table, if there is none: the page table
that is filled, and the pages that `palloc_get_page` has left to answer with. -/
def pagingTable (s : Pagedir) (pd vaddr pt : Word) (pages : List Word) :
    PdM (Pagedir × Word × List Word) :=
  if s.memory pd (pdNo vaddr) = 0 then
    match pages with
    | [] => .panic .palloc
    | pt :: pages => do
      Outcome.ensure (pgOfs pt = 0) .pgOfs
      Outcome.ensure (isUserVaddr pt = false) .vtop
      return ((s.fillPage pt 0).store pd (pdNo vaddr) (pdeCreate pt), pt, pages)
  else
    return (s, pt, pages)

/-- The loop of `paging_init` over the pages of memory. -/
def pagingLoop (s : Pagedir) (pd : Word) (inKernelText : Word → Bool) :
    List ℕ → (pt : Word) → (pages : List Word) → PdM Pagedir
  | [], _, _ => return s
  | page :: rest, pt, pages => do
    let paddr := BitVec.ofNat 32 (page * 4096)
    Outcome.ensure (paddr < physBase) .ptov
    let vaddr := ptov paddr
    let (s, pt, pages) ← s.pagingTable pd vaddr pt pages
    Outcome.ensure (pgOfs vaddr = 0) .pgOfs
    Outcome.ensure (isUserVaddr vaddr = false) .vtop
    (s.store pt (ptNo vaddr) (pteCreateKernel vaddr (!inKernelText vaddr))).pagingLoop pd
      inKernelText rest pt pages

/-- `paging_init`. -/
def pagingInit (s : Pagedir) (inKernelText : Word → Bool) : (pages : List Word) → PdM Pagedir
  | [] => .panic .palloc
  | pd :: pages =>
    pagingLoop { s.fillPage pd 0 with initPageDir := pd } pd inKernelText
      (List.range s.initRamPages.toNat) 0 pages

end Pagedir

end Pintos
