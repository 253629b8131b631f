import Mathlib.Data.List.Chain
import Mathlib.Data.List.Nodup

/-!
# Doubly Linked Chains in a Heap

A heap of cells with a link backward and a link forward each, and what it means for such a
heap to represent sequences: a list has a sentinel before its first and one after its last
cell, consecutive cells are linked both ways, and the lists of a family have no cell in
common. `Links.link a b` makes `b` the successor of `a`; every change of links below is made
of it.

## Main results

* `Linked.join`, `Linked.graft`: linking two chains end to end, and a chain between two.
* `Represents.cut`, `Represents.graft`: taking a range of cells out of a list, and putting a
  chain of cells into one.
* `Family.cut`, `Family.graft`: the same in a family of disjoint lists, whose other members
  are not touched.
-/

namespace Verif

open List Function

/-- The links of every cell of a heap. -/
@[ext] structure Links (α : Type) where
  prev : α → Option α
  next : α → Option α

/-- The cells before the first and after the last of a list. -/
structure Sentinels (α : Type) where
  head : α
  tail : α
  deriving DecidableEq

variable {α : Type}

namespace Links

variable [DecidableEq α] (h : Links α)

/-- Assigning a backward link. -/
def setPrev (a : α) (v : Option α) : Links α := { h with prev := update h.prev a v }

/-- Assigning a forward link. -/
def setNext (a : α) (v : Option α) : Links α := { h with next := update h.next a v }

/-- Making `b` the successor of `a`. -/
def link (a b : α) : Links α := (h.setNext a (some b)).setPrev b (some a)

@[simp] theorem setPrev_next (a : α) (v : Option α) : (h.setPrev a v).next = h.next := rfl

@[simp] theorem setNext_prev (a : α) (v : Option α) : (h.setNext a v).prev = h.prev := rfl

@[simp] theorem setPrev_prev (a x : α) (v : Option α) :
    (h.setPrev a v).prev x = if x = a then v else h.prev x :=
  update_apply h.prev a v x

@[simp] theorem setNext_next (a x : α) (v : Option α) :
    (h.setNext a v).next x = if x = a then v else h.next x :=
  update_apply h.next a v x

@[simp] theorem link_next (a b x : α) :
    (h.link a b).next x = if x = a then some b else h.next x := by
  rw [link, setPrev_next, setNext_next]

@[simp] theorem link_prev (a b x : α) :
    (h.link a b).prev x = if x = b then some a else h.prev x := by
  rw [link, setPrev_prev, setNext_prev]

end Links

/-! ### Chains -/

/-- Consecutive cells of `l` are linked both ways. -/
def Links.Linked (h : Links α) (l : List α) : Prop :=
  l.IsChain fun a b => h.next a = some b ∧ h.prev b = some a

/-- Two heaps that differ at most in the links of the cells in `l`. -/
def Links.SameOff (l : List α) (h h' : Links α) : Prop :=
  ∀ x ∉ l, h'.prev x = h.prev x ∧ h'.next x = h.next x

open Links

theorem Links.SameOff.refl (l : List α) (h : Links α) : SameOff l h h := fun _ _ => ⟨rfl, rfl⟩

theorem Links.SameOff.trans {l : List α} {h₁ h₂ h₃ : Links α} (h : SameOff l h₁ h₂)
    (h' : SameOff l h₂ h₃) : SameOff l h₁ h₃ := fun x hx =>
  ⟨(h' x hx).1.trans (h x hx).1, (h' x hx).2.trans (h x hx).2⟩

theorem Links.SameOff.mono {l l' : List α} {h h' : Links α} (hs : SameOff l h h') (hl : l ⊆ l') :
    SameOff l' h h' := fun x hx => hs x fun hx' => hx (hl hx')

section Linked

variable {h h' : Links α} {l l₁ l₂ m : List α} {a b : α}

/-- A chain rests on the forward links of all but its last and the backward links of all but
its first cell. -/
theorem Links.Linked.congr (hl : h.Linked l) (hn : ∀ x ∈ l.dropLast, h'.next x = h.next x)
    (hp : ∀ x ∈ l.tail, h'.prev x = h.prev x) : h'.Linked l := by
  refine isChain_iff_forall_rel_of_append_cons_cons.mpr fun x y l₁ l₂ heq => ?_
  obtain ⟨hnext, hprev⟩ := isChain_iff_forall_rel_of_append_cons_cons.mp hl heq
  have hx : x ∈ l.dropLast := by simp [heq]
  have hy : y ∈ l.tail := by cases l₁ <;> simp [heq]
  exact ⟨(hn x hx).trans hnext, (hp y hy).trans hprev⟩

theorem Links.Linked.left (hl : h.Linked (l₁ ++ l₂)) : h.Linked l₁ := List.IsChain.left_of_append hl

theorem Links.Linked.right (hl : h.Linked (l₁ ++ l₂)) : h.Linked l₂ :=
  List.IsChain.right_of_append hl

/-- A chain read backward is a chain of the heap with its links exchanged. -/
theorem Links.Linked.reverse (hl : h.Linked l) : (Links.mk h.next h.prev).Linked l.reverse :=
  isChain_reverse.mpr (hl.imp fun _ _ hab => ⟨hab.2, hab.1⟩)

variable [DecidableEq α]

/-- Linking `a` to `b` does not touch a chain that `a` ends or is no part of, and that `b`
begins or is no part of. -/
theorem Links.Linked.link_of_notMem (hl : h.Linked l) (ha : a ∉ l.dropLast) (hb : b ∉ l.tail) :
    (h.link a b).Linked l := by
  refine hl.congr (fun x hx => ?_) fun x hx => ?_
  · have hne : x ≠ a := fun heq => ha (heq ▸ hx)
    rw [link_next, if_neg hne]
  · have hne : x ≠ b := fun heq => hb (heq ▸ hx)
    rw [link_prev, if_neg hne]

/-- **Linking two chains end to end.** -/
theorem Links.Linked.join (h₁ : h.Linked (l₁ ++ [a])) (h₂ : h.Linked (b :: l₂))
    (hnd : (l₁ ++ a :: b :: l₂).Nodup) : (h.link a b).Linked (l₁ ++ a :: b :: l₂) := by
  simp only [nodup_append, nodup_cons, mem_cons, not_or, forall_eq_or_imp] at hnd
  obtain ⟨-, ⟨⟨hab, ha₂⟩, hb₂, -⟩, hdis⟩ := hnd
  refine isChain_append_cons_cons.mpr ⟨?_, ?_, ?_⟩
  · refine h₁.link_of_notMem ?_ ?_
    · rw [dropLast_concat]
      exact fun hmem => (hdis a hmem).1 rfl
    · intro hmem
      rcases mem_append.mp (mem_of_mem_tail hmem) with hmem | hmem
      · exact (hdis b hmem).2.1 rfl
      · exact hab (mem_singleton.mp hmem).symm
  · simp
  · refine h₂.link_of_notMem ?_ hb₂
    intro hmem
    rcases mem_cons.mp (dropLast_subset _ hmem) with hmem | hmem
    · exact hab hmem
    · exact ha₂ hmem

/-- **Linking a chain between two others.** -/
theorem Links.Linked.graft {first last : α} (h₁ : h.Linked (l₁ ++ [a])) (hm : h.Linked m)
    (h₂ : h.Linked (b :: l₂)) (hfirst : m.head? = some first) (hlast : m.getLast? = some last)
    (hnd : (l₁ ++ a :: (m ++ b :: l₂)).Nodup) :
    ((h.link a first).link last b).Linked (l₁ ++ a :: (m ++ b :: l₂)) := by
  obtain ⟨m', rfl⟩ : ∃ m', m = first :: m' := head?_eq_some_iff.mp hfirst
  obtain ⟨m'', hm''⟩ : ∃ m'', first :: m' = m'' ++ [last] :=
    getLast?_eq_some_iff.mp hlast
  have hleft : (h.link a first).Linked (l₁ ++ a :: first :: m') :=
    h₁.join hm (hnd.sublist (by simp))
  have hright : (h.link a first).Linked (b :: l₂) := by
    have hmem : ∀ x ∈ b :: l₂, x ≠ a ∧ x ≠ first := by
      intro x hx
      simp only [nodup_append, nodup_cons, cons_append] at hnd
      refine ⟨?_, ?_⟩
      · rintro rfl
        exact hnd.2.1.1 (by simp [mem_cons.mp hx])
      · rintro rfl
        exact hnd.2.1.2.1 (by simp [mem_cons.mp hx])
    exact h₂.link_of_notMem (fun hx => (hmem a (dropLast_subset _ hx)).1 rfl)
      fun hx => (hmem first (mem_of_mem_tail hx)).2 rfl
  have hlist : l₁ ++ a :: (first :: m' ++ b :: l₂) = (l₁ ++ a :: m'') ++ last :: b :: l₂ := by
    rw [hm'']
    simp
  rw [hlist] at hnd ⊢
  refine Linked.join ?_ hright hnd
  have hlist' : l₁ ++ a :: m'' ++ [last] = l₁ ++ a :: first :: m' := by
    rw [hm'']
    simp
  rw [hlist']
  exact hleft

end Linked

/-! ### Lists between sentinels -/

namespace Sentinels

variable (e : Sentinels α)

/-- All cells of a list, with its sentinels. -/
def cells (l : List α) : List α := e.head :: (l ++ [e.tail])

/-- The last cell of the sentinel and the elements after it. -/
def last (l : List α) : α := l.getLastD e.head

/-- The first cell of some elements and the sentinel after them. -/
def first (l : List α) : α := l.headD e.tail

@[simp] theorem last_concat (l : List α) (a : α) : e.last (l ++ [a]) = a := by simp [last]

@[simp] theorem first_nil : e.first [] = e.tail := rfl

@[simp] theorem first_cons (a : α) (l : List α) : e.first (a :: l) = a := rfl

/-- The cells before a position end with `last`. -/
theorem exists_last (l : List α) : ∃ l', e.head :: l = l' ++ [e.last l] := by
  rcases eq_nil_or_concat l with rfl | ⟨l', a, rfl⟩
  · exact ⟨[], rfl⟩
  · exact ⟨e.head :: l', by simp⟩

/-- The cells from a position on begin with `first`. -/
theorem exists_first (l : List α) : ∃ l', l ++ [e.tail] = e.first l :: l' := by
  cases l with
  | nil => exact ⟨[], rfl⟩
  | cons a l => exact ⟨l ++ [e.tail], rfl⟩

theorem cells_append (l₁ l₂ : List α) :
    e.cells (l₁ ++ l₂) = (e.head :: l₁) ++ (l₂ ++ [e.tail]) := by
  simp [cells]

/-- Where the cells on the two sides of some elements stand. -/
theorem exists_cells (l₁ l₂ : List α) :
    ∃ l₁' l₂', ∀ m, e.cells (l₁ ++ m ++ l₂) = l₁' ++ e.last l₁ :: (m ++ e.first l₂ :: l₂') := by
  obtain ⟨l₁', h₁⟩ := e.exists_last l₁
  obtain ⟨l₂', h₂⟩ := e.exists_first l₂
  refine ⟨l₁', l₂', fun m => ?_⟩
  rw [append_assoc, cells_append, h₁, append_assoc m, h₂, append_assoc, singleton_append]

theorem last_mem (l₁ l₂ : List α) : e.last l₁ ∈ e.cells (l₁ ++ l₂) := by
  obtain ⟨l', hl'⟩ := e.exists_last l₁
  rw [cells_append, hl']
  simp

theorem first_mem (l₁ l₂ : List α) : e.first l₂ ∈ e.cells (l₁ ++ l₂) := by
  obtain ⟨l', hl'⟩ := e.exists_first l₂
  rw [cells_append, hl']
  simp

/-- The elements decide which cells a list has, in whatever order they stand. -/
theorem mem_cells {l : List α} {x : α} : x ∈ e.cells l ↔ x = e.head ∨ x ∈ l ∨ x = e.tail := by
  simp [cells]

/-- Elements put into a list are cells more. -/
theorem cells_perm (l₁ m l₂ : List α) :
    (e.cells (l₁ ++ m ++ l₂)).Perm (m ++ e.cells (l₁ ++ l₂)) := by
  rw [append_assoc, cells_append, cells_append, append_assoc m, ← append_assoc, ← append_assoc m]
  exact perm_append_comm.append_right _

end Sentinels

/-- The cells between the sentinels `e` hold, in order, the elements of `l`. -/
structure Represents (h : Links α) (e : Sentinels α) (l : List α) : Prop where
  linked : h.Linked (e.cells l)
  nodup : (e.cells l).Nodup
  head_prev : h.prev e.head = none
  tail_next : h.next e.tail = none

namespace Represents

variable {h h' : Links α} {e : Sentinels α} {l l₁ l₂ m : List α}

/-- At every position the two cells are linked both ways. -/
theorem adjacent (hr : Represents h e (l₁ ++ l₂)) :
    h.next (e.last l₁) = some (e.first l₂) ∧ h.prev (e.first l₂) = some (e.last l₁) := by
  obtain ⟨l₁', l₂', hcells⟩ := e.exists_cells l₁ l₂
  have hl := hr.linked
  rw [← append_nil l₁, hcells] at hl
  exact (isChain_append_cons_cons.mp hl).2.1

theorem next_last (hr : Represents h e (l₁ ++ l₂)) : h.next (e.last l₁) = some (e.first l₂) :=
  hr.adjacent.1

theorem prev_first (hr : Represents h e (l₁ ++ l₂)) : h.prev (e.first l₂) = some (e.last l₁) :=
  hr.adjacent.2

/-- The first sentinel is linked to the first cell after it, -/
theorem next_head (hr : Represents h e l) : h.next e.head = some (e.first l) := by
  have hr' : Represents h e ([] ++ l) := hr
  exact hr'.next_last

/-- and the last to the last cell before it. -/
theorem prev_tail (hr : Represents h e l) : h.prev e.tail = some (e.last l) := by
  have hr' : Represents h e (l ++ []) := by
    rw [append_nil]
    exact hr
  exact hr'.prev_first

/-- The sentinels are distinct and no elements of the list. -/
theorem sentinels (hr : Represents h e l) : e.head ∉ l ∧ e.tail ∉ l ∧ e.head ≠ e.tail := by
  have hnd := hr.nodup
  rw [Sentinels.cells, nodup_cons, nodup_append] at hnd
  refine ⟨fun hmem => hnd.1 (mem_append_left _ hmem),
    fun hmem => hnd.2.2.2 _ hmem _ (by simp) rfl, fun heq => hnd.1 ?_⟩
  rw [heq]
  simp

/-- Every cell but the first sentinel has a predecessor. -/
theorem prev_isSome {x : α} (hr : Represents h e l) (hx : x ∈ l ++ [e.tail]) :
    (h.prev x).isSome := by
  rcases mem_append.mp hx with hx | hx
  · obtain ⟨l₁, l₂, rfl⟩ := append_of_mem hx
    have hprev := hr.prev_first
    rw [Sentinels.first_cons] at hprev
    simp [hprev]
  · rw [mem_singleton.mp hx, hr.prev_tail]
    rfl

/-- The cells of a list are distinct on the two sides of a position. -/
theorem last_ne_first (hr : Represents h e (l₁ ++ m ++ l₂)) : e.last l₁ ≠ e.first l₂ := by
  obtain ⟨l₁', l₂', hcells⟩ := e.exists_cells l₁ l₂
  have hnd := hr.nodup
  rw [hcells] at hnd
  intro heq
  rw [heq] at hnd
  simp [nodup_append] at hnd

/-- A list rests on the links of its own cells. -/
theorem of_sameOff {c : List α} (hr : Represents h e l) (hs : SameOff c h h')
    (hdis : ∀ x ∈ e.cells l, x ∉ c) : Represents h' e l where
  linked := hr.linked.congr
    (fun x hx => (hs x (hdis x (dropLast_subset _ hx))).2)
    fun x hx => (hs x (hdis x (mem_of_mem_tail hx))).1
  nodup := hr.nodup
  head_prev := by
    rw [(hs e.head (hdis _ (e.mem_cells.mpr (.inl rfl)))).1, hr.head_prev]
  tail_next := by
    rw [(hs e.tail (hdis _ (e.mem_cells.mpr (.inr (.inr rfl))))).2, hr.tail_next]

/-- The end of a list is not the beginning of the rest. -/
theorem head_ne_first (hr : Represents h e (l₁ ++ l₂)) : e.head ≠ e.first l₂ := by
  have hr' : Represents h e ([] ++ l₁ ++ l₂) := hr
  exact hr'.last_ne_first

theorem tail_ne_last (hr : Represents h e (l₁ ++ l₂)) : e.tail ≠ e.last l₁ := by
  rw [← append_nil (l₁ ++ l₂)] at hr
  exact hr.last_ne_first.symm

variable [DecidableEq α]

/-- **Taking a range of cells out of a list.** -/
theorem cut (hr : Represents h e (l₁ ++ m ++ l₂)) :
    Represents (h.link (e.last l₁) (e.first l₂)) e (l₁ ++ l₂) ∧
      (h.link (e.last l₁) (e.first l₂)).Linked m := by
  obtain ⟨l₁', l₂', hcells⟩ := e.exists_cells l₁ l₂
  have hcells' := hcells []
  rw [append_nil, nil_append] at hcells'
  have hlinked := hr.linked
  have hnd := hr.nodup
  rw [hcells, append_cons] at hlinked hnd
  have hnd' : (e.cells (l₁ ++ l₂)).Nodup := (e.cells_perm l₁ m l₂).nodup_iff.mp hr.nodup
    |>.sublist (sublist_append_right _ _)
  refine ⟨⟨?_, hnd', ?_, ?_⟩, ?_⟩
  · rw [hcells'] at hnd' ⊢
    exact Linked.join hlinked.left hlinked.right.right hnd'
  · rw [link_prev, if_neg hr.head_ne_first, hr.head_prev]
  · rw [append_assoc] at hr
    rw [link_next, if_neg hr.tail_ne_last, hr.tail_next]
  · simp only [nodup_append, nodup_cons, mem_append, mem_cons] at hnd
    refine hlinked.right.left.link_of_notMem (fun hmem => ?_) fun hmem => ?_
    · exact hnd.2.2 _ (.inr (.inl rfl)) _ (.inl (dropLast_subset _ hmem)) rfl
    · exact hnd.2.1.2.2 _ (mem_of_mem_tail hmem) _ (.inl rfl) rfl

/-- **Putting a chain of cells into a list.** -/
theorem graft {first last : α} (hr : Represents h e (l₁ ++ l₂)) (hm : h.Linked m)
    (hnd : m.Nodup) (hdis : ∀ x ∈ m, x ∉ e.cells (l₁ ++ l₂)) (hfirst : m.head? = some first)
    (hlast : m.getLast? = some last) :
    Represents ((h.link (e.last l₁) first).link last (e.first l₂)) e (l₁ ++ m ++ l₂) := by
  obtain ⟨l₁', l₂', hcells⟩ := e.exists_cells l₁ l₂
  have hhead : e.head ≠ first := fun heq =>
    hdis first (mem_of_head? hfirst) (heq ▸ e.mem_cells.mpr (.inl rfl))
  have htail : e.tail ≠ last := fun heq =>
    hdis last (mem_of_getLast? hlast) (heq ▸ e.mem_cells.mpr (.inr (.inr rfl)))
  have hnd' : (e.cells (l₁ ++ m ++ l₂)).Nodup := by
    rw [(e.cells_perm l₁ m l₂).nodup_iff, nodup_append]
    exact ⟨hnd, hr.nodup, fun a ha b hb heq => hdis a ha (heq ▸ hb)⟩
  have hlinked := hr.linked
  rw [← append_nil l₁, hcells, append_cons] at hlinked
  refine ⟨?_, hnd', ?_, ?_⟩
  · rw [hcells] at hnd' ⊢
    exact hlinked.left.graft hm hlinked.right hfirst hlast hnd'
  · rw [link_prev, if_neg hr.head_ne_first, link_prev, if_neg hhead, hr.head_prev]
  · rw [link_next, if_neg htail, link_next, if_neg hr.tail_ne_last, hr.tail_next]

end Represents

/-! ### Families of disjoint lists -/

/-- Linking two cells touches only those. -/
theorem Links.sameOff_link [DecidableEq α] (h : Links α) {a b : α} {c : List α} (ha : a ∈ c)
    (hb : b ∈ c) : SameOff c h (h.link a b) := by
  intro x hx
  have hxa : x ≠ a := fun heq => hx (heq ▸ ha)
  have hxb : x ≠ b := fun heq => hx (heq ▸ hb)
  rw [link_prev, link_next, if_neg hxa, if_neg hxb]
  exact ⟨rfl, rfl⟩

/-- The lists of a family are represented, and have no cell in common. -/
structure Family {ι : Type} (e : ι → Sentinels α) (h : Links α) (S : ι → List α) : Prop where
  represents : ∀ i, Represents h (e i) (S i)
  disjoint : ∀ i j, i ≠ j → ∀ x ∈ (e i).cells (S i), x ∉ (e j).cells (S j)

namespace Family

variable {ι : Type} [DecidableEq ι] {e : ι → Sentinels α} {h h' : Links α} {S : ι → List α}

/-- A change confined to one list and to cells of no list. -/
theorem update {i : ι} {l : List α} {c : List α} (hF : Family e h S)
    (hl : Represents h' (e i) l) (hs : SameOff c h h')
    (hfree : ∀ x ∈ c, ∀ j, j ≠ i → x ∉ (e j).cells (S j))
    (hsub : ∀ x ∈ (e i).cells l, x ∈ c) : Family e h' (update S i l) := by
  have hother : ∀ j, j ≠ i → ∀ x ∈ (e i).cells l, x ∉ (e j).cells (S j) :=
    fun j hj x hx => hfree x (hsub x hx) j hj
  refine ⟨fun j => ?_, fun j k hjk x hx hx' => ?_⟩
  · by_cases hj : j = i
    · subst hj
      rw [update_self]
      exact hl
    · rw [update_of_ne hj]
      exact (hF.represents j).of_sameOff hs fun x hx hc => hfree x hc j hj hx
  · by_cases hj : j = i
    · subst hj
      rw [update_self] at hx
      rw [update_of_ne (Ne.symm hjk)] at hx'
      exact hother k (Ne.symm hjk) x hx hx'
    · rw [update_of_ne hj] at hx
      by_cases hk : k = i
      · subst hk
        rw [update_self] at hx'
        exact hother j hj x hx' hx
      · rw [update_of_ne hk] at hx'
        exact hF.disjoint j k hjk x hx hx'

variable [DecidableEq α] {i : ι} {l₁ l₂ m : List α}

/-- **Taking a range of cells out of a list of the family.** The cells taken out are a chain
that belongs to no list. -/
theorem cut (hF : Family e h S) (hi : S i = l₁ ++ m ++ l₂) :
    Family e (h.link ((e i).last l₁) ((e i).first l₂)) (Function.update S i (l₁ ++ l₂)) ∧
      SameOff ((e i).cells (S i)) h (h.link ((e i).last l₁) ((e i).first l₂)) ∧
      (h.link ((e i).last l₁) ((e i).first l₂)).Linked m ∧
      ∀ j, ∀ x ∈ m, x ∉ (e j).cells (Function.update S i (l₁ ++ l₂) j) := by
  have hr := hF.represents i
  rw [hi] at hr
  obtain ⟨hcut, hm⟩ := hr.cut
  have hsub : ∀ x ∈ (e i).cells (l₁ ++ l₂), x ∈ (e i).cells (S i) := by
    intro x hx
    rw [hi]
    simp only [Sentinels.mem_cells, mem_append] at hx ⊢
    tauto
  have hlast : (e i).last l₁ ∈ (e i).cells (S i) := hsub _ ((e i).last_mem l₁ l₂)
  have hfirst : (e i).first l₂ ∈ (e i).cells (S i) := hsub _ ((e i).first_mem l₁ l₂)
  have hs := h.sameOff_link hlast hfirst
  refine ⟨hF.update hcut hs (fun x hx j hj => hF.disjoint i j (Ne.symm hj) x hx) hsub, hs, hm,
    fun j x hx hx' => ?_⟩
  by_cases hj : j = i
  · subst hj
    rw [Function.update_self] at hx'
    have hnd := hr.nodup
    rw [((e j).cells_perm l₁ m l₂).nodup_iff, nodup_append] at hnd
    exact hnd.2.2 x hx x hx' rfl
  · rw [Function.update_of_ne hj] at hx'
    have hx'' : x ∈ (e i).cells (S i) := by
      rw [hi]
      simp [Sentinels.mem_cells, hx]
    exact hF.disjoint i j (Ne.symm hj) x hx'' hx'

/-- **Putting a chain of cells of no list into a list of the family.** -/
theorem graft {first last : α} (hF : Family e h S) (hi : S i = l₁ ++ l₂) (hm : h.Linked m)
    (hnd : m.Nodup) (hdis : ∀ j, ∀ x ∈ m, x ∉ (e j).cells (S j)) (hfirst : m.head? = some first)
    (hlast : m.getLast? = some last) :
    Family e ((h.link ((e i).last l₁) first).link last ((e i).first l₂))
        (Function.update S i (l₁ ++ m ++ l₂)) ∧
      SameOff (m ++ (e i).cells (S i)) h
        ((h.link ((e i).last l₁) first).link last ((e i).first l₂)) := by
  have hr := hF.represents i
  have hdis' := hdis i
  rw [hi] at hr hdis'
  have hmem_last : (e i).last l₁ ∈ m ++ (e i).cells (S i) := by
    rw [hi]
    exact mem_append_right _ ((e i).last_mem l₁ l₂)
  have hmem_first : (e i).first l₂ ∈ m ++ (e i).cells (S i) := by
    rw [hi]
    exact mem_append_right _ ((e i).first_mem l₁ l₂)
  have hs : SameOff (m ++ (e i).cells (S i)) h
      ((h.link ((e i).last l₁) first).link last ((e i).first l₂)) :=
    (h.sameOff_link hmem_last (mem_append_left _ (mem_of_head? hfirst))).trans
      (Links.sameOff_link _ (mem_append_left _ (mem_of_getLast? hlast)) hmem_first)
  refine ⟨hF.update (hr.graft hm hnd hdis' hfirst hlast) hs (fun x hx j hj => ?_)
    fun x hx => ?_, hs⟩
  · rcases mem_append.mp hx with hx | hx
    · exact hdis j x hx
    · exact hF.disjoint i j (Ne.symm hj) x hx
  · rw [hi]
    simp only [Sentinels.mem_cells, mem_append] at hx ⊢
    tauto

end Family

end Verif
