import Pintos.Outcome
import Pintos.Links

/-!
# Kernel Lists at the Level of Links

The operations of `lib/kernel/list.c` as they act on the heap of list elements: every
`struct list_elem` has a `prev` and a `next` pointer, a `struct list` is its two header
elements, and an operation is the sequence of its pointer assignments with the assertions
between them. Following a null pointer is a fault, so is a failed assertion; a loop that
walks the links has fuel and does not complete when that runs out.

`ListOp.Sequence` says what each operation does to the sequences a family of disjoint lists
represents: which arguments it may be given, what the sequences become, what is returned and
which elements are affected.

## Main results

* `listInsert_family`, `listRemove_family`, `listSplice_family`, `listReverse_family`: what
  each operation does to a family of lists.
* `list_ops_refine`: every operation completes, does to the sequences what `ListOp.Sequence`
  says, keeps all lists well formed and disjoint and touches no other element.
-/

namespace Pintos

open Verif Outcome Function List

variable {α ι : Type}

/-- A `struct list_elem *`; `none` is the null pointer. -/
abbrev Ptr (α : Type) := Option α

/-- What can go wrong in a list operation. -/
inductive ListFault
  | assertion
  | nullPointer
  deriving DecidableEq, Repr

/-- A computation on the heap of list elements. -/
abbrev ListM (α : Type) := StateT (Links α) (Outcome ListFault)

namespace ListM

theorem bind_apply {β γ : Type} (x : ListM α β) (f : β → ListM α γ) (h : Links α) :
    (x >>= f) h = x h >>= fun r => f r.1 r.2 := rfl

theorem pure_apply {β : Type} (b : β) (h : Links α) : (pure b : ListM α β) h = .ok (b, h) := rfl

/-- `ASSERT`. -/
def check (c : Links α → Bool) : ListM α Unit := fun h =>
  if c h = true then .ok ((), h) else .panic .assertion

/-- A loop that has run out of fuel. -/
def outOfFuel {β : Type} : ListM α β := fun _ => .blocked

/-- `elem->prev`. -/
def readPrev (elem : Ptr α) : ListM α (Ptr α) := fun h =>
  match elem with
  | none => .panic .nullPointer
  | some a => .ok (h.prev a, h)

/-- `elem->next`. -/
def readNext (elem : Ptr α) : ListM α (Ptr α) := fun h =>
  match elem with
  | none => .panic .nullPointer
  | some a => .ok (h.next a, h)

theorem check_apply (c : Links α → Bool) (h : Links α) :
    check c h = if c h = true then .ok ((), h) else .panic .assertion := rfl

@[simp] theorem readPrev_some (a : α) (h : Links α) :
    readPrev (some a) h = .ok (h.prev a, h) := rfl

@[simp] theorem readNext_some (a : α) (h : Links α) :
    readNext (some a) h = .ok (h.next a, h) := rfl

variable [DecidableEq α]

/-- `elem->prev = v`. -/
def writePrev (elem v : Ptr α) : ListM α Unit := fun h =>
  match elem with
  | none => .panic .nullPointer
  | some a => .ok ((), h.setPrev a v)

/-- `elem->next = v`. -/
def writeNext (elem v : Ptr α) : ListM α Unit := fun h =>
  match elem with
  | none => .panic .nullPointer
  | some a => .ok ((), h.setNext a v)

@[simp] theorem writePrev_some (a : α) (v : Ptr α) (h : Links α) :
    writePrev (some a) v h = .ok ((), h.setPrev a v) := rfl

@[simp] theorem writeNext_some (a : α) (v : Ptr α) (h : Links α) :
    writeNext (some a) v h = .ok ((), h.setNext a v) := rfl

end ListM

open ListM

/-! ### The operations -/

/-- `is_head`. -/
def isHead (elem : Ptr α) (h : Links α) : Bool :=
  elem.any fun a => (h.prev a).isNone && (h.next a).isSome

/-- `is_interior`. -/
def isInterior (elem : Ptr α) (h : Links α) : Bool :=
  elem.any fun a => (h.prev a).isSome && (h.next a).isSome

/-- `is_tail`. -/
def isTail (elem : Ptr α) (h : Links α) : Bool :=
  elem.any fun a => (h.prev a).isSome && (h.next a).isNone

/-- `list_begin`. -/
def listBegin (list : Sentinels α) : ListM α (Ptr α) := readNext (some list.head)

/-- `list_end`. -/
def listEnd (list : Sentinels α) : Ptr α := some list.tail

/-- `list_next`. -/
def listNext (elem : Ptr α) : ListM α (Ptr α) := do
  check fun h => isHead elem h || isInterior elem h
  readNext elem

/-- `list_prev`. -/
def listPrev (elem : Ptr α) : ListM α (Ptr α) := do
  check fun h => isInterior elem h || isTail elem h
  readPrev elem

variable [DecidableEq α]

/-- `list_insert`. -/
def listInsert (before elem : Ptr α) : ListM α Unit := do
  check fun h => isInterior before h || isTail before h
  check fun _ => elem.isSome
  writePrev elem (← readPrev before)
  writeNext elem before
  writeNext (← readPrev before) elem
  writePrev before elem

/-- `list_splice`. -/
def listSplice (before first last : Ptr α) : ListM α Unit := do
  check fun h => isInterior before h || isTail before h
  if first = last then
    pure ()
  else
    let last ← listPrev last
    check fun h => isInterior first h
    check fun h => isInterior last h
    -- unlink the range
    writeNext (← readPrev first) (← readNext last)
    writePrev (← readNext last) (← readPrev first)
    -- link it in before `before`
    writePrev first (← readPrev before)
    writeNext last before
    writeNext (← readPrev before) first
    writePrev before last

/-- `list_remove`. -/
def listRemove (elem : Ptr α) : ListM α (Ptr α) := do
  check fun h => isInterior elem h
  writeNext (← readPrev elem) (← readNext elem)
  writePrev (← readNext elem) (← readPrev elem)
  readNext elem

/-- `list_push_front`. -/
def listPushFront (list : Sentinels α) (elem : Ptr α) : ListM α Unit := do
  listInsert (← listBegin list) elem

/-- `list_push_back`. -/
def listPushBack (list : Sentinels α) (elem : Ptr α) : ListM α Unit :=
  listInsert (listEnd list) elem

/-- `list_empty`. -/
def listEmpty (list : Sentinels α) : ListM α Bool := do
  return (← listBegin list) == listEnd list

/-- `list_front`. -/
def listFront (list : Sentinels α) : ListM α (Ptr α) := do
  let empty ← listEmpty list
  check fun _ => !empty
  readNext (some list.head)

/-- `list_back`. -/
def listBack (list : Sentinels α) : ListM α (Ptr α) := do
  let empty ← listEmpty list
  check fun _ => !empty
  readPrev (some list.tail)

/-- `list_pop_front`. -/
def listPopFront (list : Sentinels α) : ListM α (Ptr α) := do
  let front ← listFront list
  let _ ← listRemove front
  return front

/-- `list_pop_back`. -/
def listPopBack (list : Sentinels α) : ListM α (Ptr α) := do
  let back ← listBack list
  let _ ← listRemove back
  return back

/-- The loop of `list_reverse`, which exchanges the links of each element and then walks to
the element its new `prev` link points to. -/
def listReverseLoop (list : Sentinels α) : ℕ → Ptr α → ListM α Unit
  | 0, _ => outOfFuel
  | fuel + 1, e =>
    if e = listEnd list then
      pure ()
    else do
      let t ← readPrev e
      writePrev e (← readNext e)
      writeNext e t
      listReverseLoop list fuel (← readPrev e)

/-- `list_reverse`. -/
def listReverse (fuel : ℕ) (list : Sentinels α) : ListM α Unit := do
  if ← listEmpty list then
    pure ()
  else
    listReverseLoop list fuel (← listBegin list)
    -- swap (&list->head.next, &list->tail.prev)
    let t ← readNext (some list.head)
    writeNext (some list.head) (← readPrev (some list.tail))
    writePrev (some list.tail) t
    -- swap (&list->head.next->prev, &list->tail.prev->next)
    let a ← readNext (some list.head)
    let b ← readPrev (some list.tail)
    let t ← readPrev a
    writePrev a (← readNext b)
    writeNext b t

/-! ### What the assignments amount to -/

section Effect

variable {h : Links α} {a b p q r : α}

omit [DecidableEq α] in
/-- An element with a predecessor passes the assertion on `before`. -/
theorem isInterior_or_isTail (hb : h.prev b = some p) :
    (isInterior (some b) h || isTail (some b) h) = true := by
  cases hn : h.next b <;> simp [isInterior, isTail, hb, hn]

/-- `list_insert` links the new element between `before` and its predecessor. -/
theorem listInsert_eq (hp : h.prev b = some p) (hba : b ≠ a) (hpa : p ≠ a) :
    listInsert (some b) (some a) h = .ok ((), (h.link p a).link a b) := by
  have hheap : ((((h.setPrev a (some p)).setNext a (some b)).setNext p (some a)).setPrev b
      (some a)) = (h.link p a).link a b := by
    ext x : 2
    · simp only [Links.setPrev_prev, Links.setNext_prev, Links.link_prev]
    · simp only [Links.setPrev_next, Links.setNext_next, Links.link_next]
      by_cases hx : x = p
      · rw [if_pos hx, if_neg (hx ▸ hpa), if_pos hx]
      · rw [if_neg hx, if_neg hx]
  simp only [listInsert, bind_apply, check_apply, isInterior_or_isTail hp, Option.isSome_some,
    if_true, ok_bind, readPrev_some, writePrev_some, writeNext_some, Links.setNext_prev,
    Links.setPrev_prev, if_neg hba, hp]
  rw [hheap]

/-- `list_remove` links the neighbours of the element to each other. -/
theorem listRemove_eq (hp : h.prev a = some p) (hq : h.next a = some q) (hpa : a ≠ p) :
    listRemove (some a) h = .ok (some q, h.link p q) := by
  have hint : isInterior (some a) h = true := by simp [isInterior, hp, hq]
  simp only [listRemove, bind_apply, check_apply, hint, if_true, ok_bind, readPrev_some,
    readNext_some, hp, hq, writeNext_some, Links.setNext_next, Links.setNext_prev, if_neg hpa,
    writePrev_some, Links.setPrev_next]
  rfl

/-- `list_splice` links the neighbours of the range `a … z` to each other and the range
between `b` and the predecessor `b` has then. -/
theorem listSplice_eq {z : α} (hb : (h.prev b).isSome) (haq : a ≠ q) (hz : h.prev q = some z)
    (hq : h.next z = some q) (hp : h.prev a = some p) (ha : (h.next a).isSome)
    (hz' : (h.prev z).isSome) (hr : (h.link p q).prev b = some r)
    (hrz : r ≠ z) :
    listSplice (some b) (some a) (some q) h =
      .ok ((), ((h.link p q).link r a).link z b) := by
  obtain ⟨b', hb'⟩ := Option.isSome_iff_exists.mp hb
  have hends : (isInterior (some q) h || isTail (some q) h) = true := isInterior_or_isTail hz
  have hfirst : isInterior (some a) h = true := by simp [isInterior, hp, ha]
  have hlast : isInterior (some z) h = true := by simp [isInterior, hq, hz']
  have hunlink : (h.setNext p (some q)).setPrev q (some p) = h.link p q := rfl
  have hlink : ((((h.link p q).setPrev a (some r)).setNext z (some b)).setNext r (some a)).setPrev
      b (some z) = ((h.link p q).link r a).link z b := by
    ext x : 2
    · simp only [Links.setPrev_prev, Links.setNext_prev, Links.link_prev]
    · simp only [Links.setPrev_next, Links.setNext_next, Links.link_next]
      by_cases hx : x = r
      · rw [if_pos hx, if_neg (hx ▸ hrz), if_pos hx]
      · rw [if_neg hx, if_neg hx]
  have hne : some a ≠ some q := fun heq => haq (Option.some.inj heq)
  simp only [listSplice, listPrev, bind_apply, check_apply, isInterior_or_isTail hb', if_true,
    ok_bind, if_neg hne, hends, readPrev_some, hz, hfirst, hlast, readNext_some, hp, hq,
    writeNext_some, Links.setNext_next, Links.setNext_prev, ite_self, writePrev_some, hunlink, hr,
    Links.setPrev_prev, ite_self]
  rw [hlink]

/-- The heap in which the elements of `l` have their links exchanged. -/
def swapLinks (h : Links α) (l : List α) : Links α where
  prev x := if x ∈ l then h.next x else h.prev x
  next x := if x ∈ l then h.prev x else h.next x

/-- Exchanging the links of one more element. -/
theorem swapped_concat {l : List α} (ha : a ∉ l) :
    ((swapLinks h l).setPrev a (h.next a)).setNext a (h.prev a) =
      swapLinks h (l ++ [a]) := by
  ext x : 2
  · by_cases hx : x = a
    · subst hx
      simp [swapLinks]
    · simp [swapLinks, hx]
  · by_cases hx : x = a
    · subst hx
      simp [swapLinks]
    · simp [swapLinks, hx]

/-- The loop of `list_reverse` exchanges the links of all elements from `e` on: the `prev`
link an element then has leads to the one that was next. -/
theorem listReverseLoop_eq {list : Sentinels α} {l l' : List α} {fuel : ℕ}
    (hr : Represents h list (l ++ l')) (hfuel : l'.length < fuel) :
    listReverseLoop list fuel (some (list.first l')) (swapLinks h l) =
      .ok ((), swapLinks h (l ++ l')) := by
  induction l' generalizing l fuel with
  | nil =>
    obtain ⟨fuel, rfl⟩ := Nat.exists_eq_succ_of_ne_zero (by omega : fuel ≠ 0)
    rw [listReverseLoop, listEnd, Sentinels.first_nil, if_pos rfl, append_nil]
    rfl
  | cons a l' ih =>
    obtain ⟨fuel, rfl⟩ := Nat.exists_eq_succ_of_ne_zero (by omega : fuel ≠ 0)
    have hr' : Represents h list (l ++ [a] ++ l') := by simpa using hr
    have hne : some a ≠ listEnd list := by
      have htail := hr'.tail_ne_last
      rw [Sentinels.last_concat] at htail
      exact fun heq => htail (Option.some.inj heq).symm
    have ha : a ∉ l := by
      have hnd := hr.nodup
      rw [Sentinels.cells_append, nodup_append] at hnd
      exact fun hmem => hnd.2.2 a (by simp [hmem]) a (by simp) rfl
    have hprev : (swapLinks h l).prev a = h.prev a := if_neg ha
    have hnext : (swapLinks h l).next a = h.next a := if_neg ha
    have hstep : (swapLinks h (l ++ [a])).prev a = some (list.first l') := by
      have hnext := hr'.next_last
      rw [Sentinels.last_concat] at hnext
      simpa [swapLinks] using hnext
    rw [listReverseLoop, Sentinels.first_cons, if_neg hne]
    simp only [bind_apply, readPrev_some, ok_bind, readNext_some, writePrev_some, writeNext_some,
      hprev, hnext, swapped_concat ha, hstep]
    rw [ih hr' (by simpa using hfuel), append_assoc, singleton_append]

/-- With the links of its elements exchanged and the two headers linked to the opposite ends,
a list is reversed. -/
theorem represents_reverse {list : Sentinels α} {l : List α} {first last : α}
    (hr : Represents h list l) (hfirst : l.head? = some first) (hlast : l.getLast? = some last) :
    Represents (((swapLinks h l).link list.head last).link first list.tail) list l.reverse := by
  obtain ⟨hhead, htail, hends⟩ := hr.sentinels
  have hlinked : h.Linked l := by
    have hlinked : h.Linked ([list.head] ++ (l ++ [list.tail])) := hr.linked
    exact hlinked.right.left
  have hrev : (swapLinks h l).Linked l.reverse := by
    refine hlinked.reverse.congr (fun x hx => ?_) fun x hx => ?_
    · exact if_pos (mem_reverse.mp (dropLast_subset _ hx))
    · exact if_pos (mem_reverse.mp (mem_of_mem_tail hx))
  have hmem_first : first ∈ l := mem_of_head? hfirst
  have hmem_last : last ∈ l := mem_of_getLast? hlast
  have hhead_last : list.head ≠ last := fun heq => hhead (heq ▸ hmem_last)
  have htail_first : list.tail ≠ first := fun heq => htail (heq ▸ hmem_first)
  have hcells : list.cells l.reverse = [] ++ list.head :: (l.reverse ++ list.tail :: []) := rfl
  have hnd' : (list.cells l.reverse).Nodup := by
    have hperm : (list.cells l.reverse).Perm (list.cells l) :=
      ((reverse_perm l).append_right _).cons _
    exact hperm.nodup_iff.mpr hr.nodup
  refine ⟨?_, hnd', ?_, ?_⟩
  · rw [hcells] at hnd' ⊢
    exact Links.Linked.graft (isChain_singleton _) hrev (isChain_singleton _)
      (by rw [head?_reverse, hlast]) (by rw [getLast?_reverse, hfirst]) hnd'
  · rw [Links.link_prev, if_neg hends, Links.link_prev, if_neg hhead_last]
    exact (if_neg hhead).trans hr.head_prev
  · rw [Links.link_next, if_neg htail_first, Links.link_next, if_neg hends.symm]
    exact (if_neg htail).trans hr.tail_next

/-- `list_reverse` exchanges the links of the elements and links each header to the opposite
end. -/
theorem listReverse_eq {list : Sentinels α} {l : List α} {first last : α} {fuel : ℕ}
    (hr : Represents h list l) (hfirst : l.head? = some first) (hlast : l.getLast? = some last)
    (hfuel : l.length < fuel) :
    listReverse fuel list h =
      .ok ((), ((swapLinks h l).link list.head last).link first list.tail) := by
  obtain ⟨l', rfl⟩ := head?_eq_some_iff.mp hfirst
  obtain ⟨l'', hl''⟩ := getLast?_eq_some_iff.mp hlast
  obtain ⟨hhead, htail, -⟩ := hr.sentinels
  have hmem_last : last ∈ first :: l' := mem_of_getLast? hlast
  have hhead_first : first ≠ list.head := fun heq => hhead (by simp [heq])
  have htail_last : last ≠ list.tail := fun heq => htail (heq ▸ hmem_last)
  have hr₀ : Represents h list ([] ++ first :: l') := hr
  have hbegin : h.next list.head = some first := hr.next_head
  have hprev_first : h.prev first = some list.head := hr₀.prev_first
  have hback : h.prev list.tail = some last := by
    rw [hr.prev_tail, hl'', Sentinels.last_concat]
  have hnext_last : h.next last = some list.tail := by
    have hr₁ : Represents h list (l'' ++ [last] ++ []) := by
      rw [← hl'', append_nil]
      exact hr
    have hnext := hr₁.next_last
    rwa [Sentinels.last_concat] at hnext
  have hloop : listReverseLoop list fuel (some first) h =
      .ok ((), swapLinks h (first :: l')) := by
    have hloop := listReverseLoop_eq hr₀ hfuel
    have hnone : swapLinks h [] = h := by simp [swapLinks]
    rwa [hnone] at hloop
  have hnext_head : (swapLinks h (first :: l')).next list.head = some first :=
    (if_neg hhead).trans hbegin
  have hprev_tail : (swapLinks h (first :: l')).prev list.tail = some last :=
    (if_neg htail).trans hback
  have hnext_first : (swapLinks h (first :: l')).next first = some list.head :=
    (if_pos (mem_cons_self ..)).trans hprev_first
  have hprev_last : (swapLinks h (first :: l')).prev last = some list.tail :=
    (if_pos hmem_last).trans hnext_last
  have hheap : (((((swapLinks h (first :: l')).setNext list.head (some last)).setPrev list.tail
      (some first)).setPrev last (some list.head)).setNext first (some list.tail)) =
      ((swapLinks h (first :: l')).link list.head last).link first list.tail := by
    ext x : 2
    · simp only [Links.setPrev_prev, Links.setNext_prev, Links.link_prev]
      by_cases hx : x = last
      · rw [if_pos hx, if_neg (hx ▸ htail_last), if_pos hx]
      · rw [if_neg hx, if_neg hx]
    · simp only [Links.setPrev_next, Links.setNext_next, Links.link_next]
  have hempty : (some first == listEnd list) = false := by
    have hne : first ≠ list.tail := fun heq => htail (by simp [← heq])
    simpa [listEnd] using hne
  simp only [listReverse, listEmpty, listBegin, bind_apply, pure_apply, readNext_some, hbegin,
    ok_bind, hempty, Bool.false_eq_true, if_false, hloop, hnext_head, readPrev_some,
    hprev_tail, writeNext_some, Links.setNext_prev, writePrev_some, Links.setPrev_next,
    Links.setNext_next, if_true, Links.setPrev_prev, if_neg htail_last, hprev_last,
    if_neg hhead_first, hnext_first]
  rw [hheap]

/-- A list with elements passes the assertion of `list_front` and `list_back`. -/
theorem listEmpty_eq {list : Sentinels α} {l : List α} (hr : Represents h list l) :
    listEmpty list h = .ok (l.isEmpty, h) := by
  have hempty : (some (list.first l) == listEnd list) = l.isEmpty := by
    cases l with
    | nil => simp [listEnd]
    | cons a l =>
      have hne : a ≠ list.tail := fun heq => hr.sentinels.2.1 (by simp [heq])
      simpa [listEnd] using hne
  simp only [listEmpty, listBegin, bind_apply, readNext_some, ok_bind, hr.next_head, hempty,
    pure_apply]

/-- `list_front` and `list_back` return the two ends. -/
theorem listFront_eq {list : Sentinels α} {l : List α} (hr : Represents h list (a :: l)) :
    listFront list h = .ok (some a, h) := by
  simp [listFront, bind_apply, listEmpty_eq hr, check_apply, hr.next_head]

theorem listBack_eq {list : Sentinels α} {l : List α} (hr : Represents h list (l ++ [a])) :
    listBack list h = .ok (some a, h) := by
  simp [listBack, bind_apply, listEmpty_eq hr, check_apply, hr.prev_tail]

end Effect

/-! ### The operations on a family of lists -/

section Families

variable [DecidableEq ι] {e : ι → Sentinels α} {h : Links α} {S : ι → List α} {i j : ι}
  {l₁ l₂ m : List α} {a : α}

/-- `list_insert` puts an element of no list before any element, or at the end, of one. -/
theorem listInsert_family (hF : Family e h S) (hi : S i = l₁ ++ l₂)
    (ha : ∀ j, a ∉ (e j).cells (S j)) :
    ∃ h', listInsert (some ((e i).first l₂)) (some a) h = .ok ((), h') ∧
      Family e h' (update S i (l₁ ++ a :: l₂)) ∧
      Links.SameOff (a :: (e i).cells (S i)) h h' := by
  have hr := hF.represents i
  rw [hi] at hr
  have hai : a ∉ (e i).cells (l₁ ++ l₂) := hi ▸ ha i
  have hfirst : (e i).first l₂ ≠ a := fun heq => hai (heq ▸ (e i).first_mem l₁ l₂)
  have hlast : (e i).last l₁ ≠ a := fun heq => hai (heq ▸ (e i).last_mem l₁ l₂)
  obtain ⟨hgraft, hsame⟩ := hF.graft hi (isChain_singleton a) (nodup_singleton a)
    (fun j x hx => mem_singleton.mp hx ▸ ha j) rfl rfl
  rw [append_assoc, singleton_append] at hgraft
  exact ⟨_, listInsert_eq hr.prev_first hfirst hlast, hgraft, hsame⟩

/-- `list_remove` takes an element out of its list and returns the one after it. -/
theorem listRemove_family (hF : Family e h S) (hi : S i = l₁ ++ a :: l₂) :
    ∃ h', listRemove (some a) h = .ok (some ((e i).first l₂), h') ∧
      Family e h' (update S i (l₁ ++ l₂)) ∧
      Links.SameOff ((e i).cells (S i)) h h' := by
  have hr := hF.represents i
  rw [hi] at hr
  have hnext : h.next a = some ((e i).first l₂) := by
    rw [append_cons] at hr
    simpa using hr.next_last
  have hne : a ≠ (e i).last l₁ := by
    have hr' : Represents h (e i) (l₁ ++ [] ++ a :: l₂) := by simpa using hr
    exact fun heq => hr'.last_ne_first heq.symm
  have hi' : S i = l₁ ++ [a] ++ l₂ := by simpa using hi
  obtain ⟨hcut, hsame, -, -⟩ := hF.cut hi'
  exact ⟨_, listRemove_eq hr.prev_first hnext hne, hcut, hsame⟩

/-- `list_splice` takes a range out of its list and puts it before an element, or at the end,
of the same or another list. -/
theorem listSplice_family {k₁ k₂ : List α} (hF : Family e h S) (hi : S i = l₁ ++ m ++ l₂)
    (hj : update S i (l₁ ++ l₂) j = k₁ ++ k₂) :
    ∃ h', listSplice (some ((e j).first k₂)) (some ((e i).first (m ++ l₂)))
        (some ((e i).first l₂)) h = .ok ((), h') ∧
      Family e h' (update (update S i (l₁ ++ l₂)) j (k₁ ++ m ++ k₂)) ∧
      Links.SameOff ((e i).cells (S i) ++ (e j).cells (S j)) h h' := by
  have hr := hF.represents i
  rw [hi] at hr
  have hsub : ∀ x ∈ k₁ ++ k₂, x ∈ S j := by
    intro x hx
    rw [← hj] at hx
    by_cases hji : j = i
    · subst hji
      rw [update_self] at hx
      rw [hi]
      simp only [mem_append] at hx ⊢
      tauto
    · rwa [update_of_ne hji] at hx
  have hb : (h.prev ((e j).first k₂)).isSome := by
    refine (hF.represents j).prev_isSome ?_
    cases k₂ with
    | nil => simp
    | cons b k₂ => simp [hsub b (by simp)]
  obtain ⟨hcut, hsame, hm, hfree⟩ := hF.cut hi
  have hrj := hcut.represents j
  rw [hj] at hrj
  cases m with
  | nil =>
    -- an empty range: the call returns after its first assertion
    have hS : update S i (l₁ ++ l₂) = S := by
      rw [update_eq_self_iff, hi, append_nil]
    rw [hS] at hj ⊢
    rw [append_nil, ← hj, update_eq_self]
    obtain ⟨b', hb'⟩ := Option.isSome_iff_exists.mp hb
    refine ⟨h, ?_, hF, Links.SameOff.refl _ h⟩
    simp only [listSplice, bind_apply, check_apply, isInterior_or_isTail hb', if_true, ok_bind,
      nil_append]
    rfl
  | cons a m' =>
    obtain ⟨m'', z, hz⟩ : ∃ m'' z, a :: m' = m'' ++ [z] :=
      ⟨_, _, (dropLast_append_getLast (cons_ne_nil a m')).symm⟩
    have haz : z ∈ a :: m' := by simp [hz]
    have hprev_a : h.prev a = some ((e i).last l₁) := by
      have hr' : Represents h (e i) (l₁ ++ (a :: m' ++ l₂)) := by simpa using hr
      exact hr'.prev_first
    have hnext_a : (h.next a).isSome := by
      have hr' : Represents h (e i) (l₁ ++ [a] ++ (m' ++ l₂)) := by simpa using hr
      have hnext := hr'.next_last
      rw [Sentinels.last_concat] at hnext
      simp [hnext]
    have hr_z : Represents h (e i) (l₁ ++ m'' ++ [z] ++ l₂) := by
      rw [hz] at hr
      simpa using hr
    have hprev_q : h.prev ((e i).first l₂) = some z := by
      have hprev := hr_z.prev_first
      rwa [Sentinels.last_concat] at hprev
    have hnext_z : h.next z = some ((e i).first l₂) := by
      have hnext := hr_z.next_last
      rwa [Sentinels.last_concat] at hnext
    have hprev_z : (h.prev z).isSome := by
      refine (hF.represents i).prev_isSome ?_
      rw [hi]
      simp [hz]
    have haq : a ≠ (e i).first l₂ := by
      intro heq
      have hfi := hfree i a (by simp)
      rw [update_self] at hfi
      exact hfi (heq ▸ (e i).first_mem l₁ l₂)
    have hfj := hfree j
    rw [hj] at hfj
    have hrz : (e j).last k₁ ≠ z := fun heq => hfj z haz (heq ▸ (e j).last_mem k₁ k₂)
    have hnd : (a :: m').Nodup := by
      have hnd := hr.nodup
      rw [append_assoc, Sentinels.cells_append] at hnd
      exact hnd.of_append_right.of_append_left.of_append_left
    have hlast : (a :: m').getLast? = some z := by rw [hz, getLast?_concat]
    obtain ⟨hgraft, hsame'⟩ := hcut.graft hj hm hnd hfree rfl hlast
    refine ⟨_, listSplice_eq hb haq hprev_q hnext_z hprev_a hnext_a hprev_z hrj.prev_first
      hrz, hgraft, ?_⟩
    refine (hsame.mono (by simp)).trans (hsame'.mono fun x hx => ?_)
    rcases mem_append.mp hx with hx | hx
    · refine mem_append_left _ ?_
      rw [hi]
      simp only [Sentinels.mem_cells, mem_append, hx]
      tauto
    · refine mem_append_right _ ?_
      rw [hj] at hx
      simp only [Sentinels.mem_cells] at hx ⊢
      rcases hx with hx | hx | hx
      · exact .inl hx
      · exact .inr (.inl (hsub x hx))
      · exact .inr (.inr hx)

/-- `list_reverse` reverses the list. -/
theorem listReverse_family {fuel : ℕ} (hF : Family e h S) (hfuel : (S i).length < fuel) :
    ∃ h', listReverse fuel (e i) h = .ok ((), h') ∧
      Family e h' (update S i (S i).reverse) ∧
      Links.SameOff ((e i).cells (S i)) h h' := by
  have hr := hF.represents i
  have hbegin := hr.next_head
  rcases eq_nil_or_concat (S i) with hS | ⟨l', z, hS⟩
  · rw [hS] at hbegin
    refine ⟨h, ?_, ?_, Links.SameOff.refl _ h⟩
    · simp [-bind_pure_comp, listReverse, listEmpty, listBegin, listEnd, bind_apply, pure_apply,
        hbegin]
    · have hrev : (S i).reverse = S i := by rw [hS, reverse_nil]
      rw [hrev, update_eq_self]
      exact hF
  · obtain ⟨a, ha⟩ : ∃ a, (S i).head? = some a := by
      cases hhead : (S i).head? with
      | none => simp [hS] at hhead
      | some a => exact ⟨a, rfl⟩
    have hz : (S i).getLast? = some z := by rw [hS]; simp
    have hmem_a : a ∈ (e i).cells (S i) := by simp [Sentinels.mem_cells, mem_of_head? ha]
    have hmem_z : z ∈ (e i).cells (S i) := by simp [Sentinels.mem_cells, mem_of_getLast? hz]
    have hsame : Links.SameOff ((e i).cells (S i)) h
        (((swapLinks h (S i)).link (e i).head z).link a (e i).tail) := by
      have hswap : Links.SameOff ((e i).cells (S i)) h (swapLinks h (S i)) := by
        intro x hx
        have hx' : x ∉ S i := fun hmem => hx (by simp [Sentinels.mem_cells, hmem])
        exact ⟨if_neg hx', if_neg hx'⟩
      exact (hswap.trans (Links.sameOff_link _ (by simp [Sentinels.mem_cells]) hmem_z)).trans
        (Links.sameOff_link _ hmem_a (by simp [Sentinels.mem_cells]))
    refine ⟨_, listReverse_eq hr ha hz hfuel, ?_, hsame⟩
    exact hF.update (represents_reverse hr ha hz) hsame
      (fun x hx j hj => hF.disjoint i j (Ne.symm hj) x hx)
      fun x hx => by simpa [Sentinels.mem_cells] using hx

end Families

/-! ### All operations -/

/-- The calls of the list operations. -/
inductive ListOp (ι α : Type)
  | insert (before elem : α)
  | remove (elem : α)
  | splice (before first last : α)
  | pushFront (list : ι) (elem : α)
  | pushBack (list : ι) (elem : α)
  | popFront (list : ι)
  | popBack (list : ι)
  | reverse (list : ι)

namespace ListOp

/-- The call, with the pointer it returns; `none` for those that return nothing. -/
def run (e : ι → Sentinels α) (fuel : ℕ) : ListOp ι α → ListM α (Ptr α)
  | insert before elem => do
    listInsert (some before) (some elem)
    return none
  | remove elem => listRemove (some elem)
  | splice before first last => do
    listSplice (some before) (some first) (some last)
    return none
  | pushFront list elem => do
    listPushFront (e list) (some elem)
    return none
  | pushBack list elem => do
    listPushBack (e list) (some elem)
    return none
  | popFront list => listPopFront (e list)
  | popBack list => listPopBack (e list)
  | reverse list => do
    listReverse fuel (e list)
    return none

/-- What an operation does to the sequences `S` that the lists represent: for which arguments
it is defined, the sequences after it, the pointer it returns and the elements it affects.
`insert` and `splice` find their place by the element `(e i).first` at it, which is the tail
of the list when the place is its end. -/
inductive Sequence [DecidableEq ι] (e : ι → Sentinels α) (S : ι → List α) :
    ListOp ι α → (ι → List α) → Ptr α → List α → Prop
  | insert {i : ι} {xs ys : List α} {elem : α} (hi : S i = xs ++ ys)
      (hfree : ∀ j, elem ∉ (e j).cells (S j)) :
      Sequence e S (.insert ((e i).first ys) elem) (update S i (xs ++ elem :: ys)) none
        (elem :: (e i).cells (S i))
  | remove {i : ι} {xs ys : List α} {elem : α} (hi : S i = xs ++ elem :: ys) :
      Sequence e S (.remove elem) (update S i (xs ++ ys)) (some ((e i).first ys))
        ((e i).cells (S i))
  | splice {i j : ι} {xs range ys us vs : List α} (hi : S i = xs ++ range ++ ys)
      (hj : update S i (xs ++ ys) j = us ++ vs) :
      Sequence e S (.splice ((e j).first vs) ((e i).first (range ++ ys)) ((e i).first ys))
        (update (update S i (xs ++ ys)) j (us ++ range ++ vs)) none
        ((e i).cells (S i) ++ (e j).cells (S j))
  | pushFront {i : ι} {elem : α} (hfree : ∀ j, elem ∉ (e j).cells (S j)) :
      Sequence e S (.pushFront i elem) (update S i (elem :: S i)) none
        (elem :: (e i).cells (S i))
  | pushBack {i : ι} {elem : α} (hfree : ∀ j, elem ∉ (e j).cells (S j)) :
      Sequence e S (.pushBack i elem) (update S i (S i ++ [elem])) none
        (elem :: (e i).cells (S i))
  | popFront {i : ι} {elem : α} {ys : List α} (hi : S i = elem :: ys) :
      Sequence e S (.popFront i) (update S i ys) (some elem) ((e i).cells (S i))
  | popBack {i : ι} {elem : α} {xs : List α} (hi : S i = xs ++ [elem]) :
      Sequence e S (.popBack i) (update S i xs) (some elem) ((e i).cells (S i))
  | reverse {i : ι} :
      Sequence e S (.reverse i) (update S i (S i).reverse) none ((e i).cells (S i))

end ListOp

/-- **The link-level operations implement sequences.** In a heap that represents a family of
disjoint lists every operation, on arguments it is defined for, completes without a fault,
turns the represented sequences into what `ListOp.Sequence` says, keeps every list well formed
and the lists disjoint, and changes no link of an element it does not affect. -/
theorem list_ops_refine [DecidableEq ι] {e : ι → Sentinels α} {h : Links α} {S S' : ι → List α}
    {op : ListOp ι α} {r : Ptr α} {c : List α} (hF : Family e h S)
    (hop : op.Sequence e S S' r c) :
    ∃ n, ∀ fuel ≥ n, ∃ h', op.run e fuel h = .ok (r, h') ∧ Family e h' S' ∧
      Links.SameOff c h h' := by
  cases hop with
  | insert hi hfree =>
    obtain ⟨h', heq, hF', hsame⟩ := listInsert_family hF hi hfree
    exact ⟨0, fun fuel _ => ⟨h', by rw [ListOp.run, bind_apply, heq]; rfl, hF', hsame⟩⟩
  | remove hi =>
    obtain ⟨h', heq, hF', hsame⟩ := listRemove_family hF hi
    exact ⟨0, fun fuel _ => ⟨h', heq, hF', hsame⟩⟩
  | splice hi hj =>
    obtain ⟨h', heq, hF', hsame⟩ := listSplice_family hF hi hj
    exact ⟨0, fun fuel _ => ⟨h', by rw [ListOp.run, bind_apply, heq]; rfl, hF', hsame⟩⟩
  | @pushFront i elem hfree =>
    have hi : S i = [] ++ S i := rfl
    obtain ⟨h', heq, hF', hsame⟩ := listInsert_family hF hi hfree
    refine ⟨0, fun fuel _ => ⟨h', ?_, hF', hsame⟩⟩
    rw [ListOp.run, listPushFront, listBegin, bind_apply, bind_apply, readNext_some, ok_bind,
      (hF.represents i).next_head, heq]
    rfl
  | @pushBack i elem hfree =>
    have hi : S i = S i ++ [] := (List.append_nil _).symm
    obtain ⟨h', heq, hF', hsame⟩ := listInsert_family hF hi hfree
    refine ⟨0, fun fuel _ => ⟨h', ?_, hF', hsame⟩⟩
    rw [ListOp.run, bind_apply, listPushBack, listEnd]
    rw [Sentinels.first_nil] at heq
    rw [heq]
    rfl
  | @popFront i elem ys hi =>
    have hi' : S i = [] ++ elem :: ys := hi
    obtain ⟨h', heq, hF', hsame⟩ := listRemove_family hF hi'
    refine ⟨0, fun fuel _ => ⟨h', ?_, hF', hsame⟩⟩
    have hfront : listFront (e i) h = .ok (some elem, h) := listFront_eq (hi ▸ hF.represents i)
    rw [ListOp.run, listPopFront, bind_apply, hfront, ok_bind, bind_apply, heq]
    rfl
  | @popBack i elem xs hi =>
    obtain ⟨h', heq, hF', hsame⟩ := listRemove_family hF hi
    rw [List.append_nil] at hF'
    refine ⟨0, fun fuel _ => ⟨h', ?_, hF', hsame⟩⟩
    have hback : listBack (e i) h = .ok (some elem, h) := listBack_eq (hi ▸ hF.represents i)
    rw [ListOp.run, listPopBack, bind_apply, hback, ok_bind, bind_apply, heq]
    rfl
  | @reverse i =>
    refine ⟨(S i).length + 1, fun fuel hfuel => ?_⟩
    obtain ⟨h', heq, hF', hsame⟩ := listReverse_family hF hfuel
    exact ⟨h', by rw [ListOp.run, bind_apply, heq]; rfl, hF', hsame⟩

/-- Two of the three elements of one list are moved before the only element of another. -/
theorem list_ops_refine_splice :
    ∃ (e : Bool → Sentinels ℕ) (h : Links ℕ) (S : Bool → List ℕ), Family e h S ∧
      S false = [1, 2, 3] ∧ S true = [11] ∧ ∃ n, ∀ fuel ≥ n, ∃ h',
        (ListOp.splice 11 2 9).run e fuel h = .ok (none, h') ∧
        Family e h' (update (update S false [1]) true [2, 3, 11]) := by
  let e : Bool → Sentinels ℕ := fun b => if b then ⟨10, 19⟩ else ⟨0, 9⟩
  let S : Bool → List ℕ := fun b => if b then [11] else [1, 2, 3]
  let h : Links ℕ := ⟨fun x => [(1, 0), (2, 1), (3, 2), (9, 3), (11, 10), (19, 11)].lookup x,
    fun x => [(0, 1), (1, 2), (2, 3), (3, 9), (10, 11), (11, 19)].lookup x⟩
  have hfalse : Represents h (e false) (S false) := by
    refine ⟨?_, by decide, by decide, by decide⟩
    rw [Links.Linked]
    decide
  have htrue : Represents h (e true) (S true) := by
    refine ⟨?_, by decide, by decide, by decide⟩
    rw [Links.Linked]
    decide
  have hF : Family e h S := by
    refine ⟨fun b => ?_, by decide⟩
    cases b with
    | false => exact hfalse
    | true => exact htrue
  have hi : S false = [1] ++ [2, 3] ++ [] := rfl
  have hj : update S false ([1] ++ []) true = [] ++ [11] := by decide
  obtain ⟨n, hn⟩ := list_ops_refine hF (ListOp.Sequence.splice hi hj)
  refine ⟨e, h, S, hF, rfl, rfl, n, fun fuel hfuel => ?_⟩
  obtain ⟨h', hrun, hF', -⟩ := hn fuel hfuel
  exact ⟨h', hrun, hF'⟩

end Pintos
