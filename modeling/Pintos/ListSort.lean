import Pintos.ListLinks
import Pintos.SchedulerOrder

/-!
# Ordered Insertion and Natural Merge Sort at the Level of Links

`list_insert_ordered` and `list_sort` of `lib/kernel/list.c` as it works on the links: runs are
found by walking `next` and looking back along `prev`, merged by splicing one element at a time,
and the iterators of the pass stay valid because an element that moves keeps its links' meaning.
Every function is proved to compute on the heap what its namesake of `Pintos.KernelList`
computes on the sequence the list represents, with its assertions, among them that the runs
handed to `inplace_merge` and the final list are sorted.

## Main results

* `ListM.findEndOfRun_eq`, `ListM.mergeLoop_family`, `ListM.sortPass_family`,
  `ListM.listSort_family`: each stage refines the sequence-level one.
* `ListM.listInsertOrdered_family`: so does ordered insertion.
* `list_sort_stable`: `list_sort` completes and leaves the stable ordering of the list; in
  particular `calculate_priority` leaves the run queue by non-increasing priority with ties as
  they were.
-/

namespace Pintos

open Verif Outcome Function List

variable {α ι : Type} [DecidableEq α]

namespace ListM

/-- `less (a, b, aux)` on two pointers. -/
def lessPtr (less : α → α → Bool) (a b : Ptr α) : ListM α Bool := fun h =>
  match a, b with
  | some a, some b => .ok (less a b, h)
  | _, _ => .panic .nullPointer

/-- The loop of `is_sorted`. -/
def isSortedLoop (less : α → α → Bool) : ℕ → Ptr α → Ptr α → ListM α Bool
  | 0, _, _ => outOfFuel
  | fuel + 1, a, b => do
    let a ← listNext a
    if a = b then
      pure true
    else if ← lessPtr less a (← listPrev a) then
      pure false
    else
      isSortedLoop less fuel a b

/-- `is_sorted`. -/
def isSorted (fuel : ℕ) (less : α → α → Bool) (a b : Ptr α) : ListM α Bool :=
  if a = b then pure true else isSortedLoop less fuel a b

/-- The loop of `find_end_of_run`. -/
def findEndOfRunLoop (less : α → α → Bool) : ℕ → Ptr α → Ptr α → ListM α (Ptr α)
  | 0, _, _ => outOfFuel
  | fuel + 1, a, b => do
    let a ← listNext a
    if a = b then
      pure a
    else if ← lessPtr less a (← listPrev a) then
      pure a
    else
      findEndOfRunLoop less fuel a b

/-- `find_end_of_run`. -/
def findEndOfRun (fuel : ℕ) (less : α → α → Bool) (a b : Ptr α) : ListM α (Ptr α) := do
  check fun _ => a.isSome
  check fun _ => b.isSome
  check fun _ => a != b
  findEndOfRunLoop less fuel a b

/-- The loop of `inplace_merge`. -/
def mergeLoop (less : α → α → Bool) : ℕ → Ptr α → Ptr α → Ptr α → ListM α Unit
  | 0, _, _, _ => outOfFuel
  | fuel + 1, a0, a1b0, b1 =>
    if a0 ≠ a1b0 ∧ a1b0 ≠ b1 then do
      if !(← lessPtr less a1b0 a0) then
        mergeLoop less fuel (← listNext a0) a1b0 b1
      else
        let a1b0 ← listNext a1b0
        listSplice a0 (← listPrev a1b0) a1b0
        mergeLoop less fuel a0 a1b0 b1
    else
      pure ()

/-- `inplace_merge`. -/
def inplaceMerge (fuel : ℕ) (less : α → α → Bool) (a0 a1b0 b1 : Ptr α) : ListM α Unit := do
  check fun _ => a0.isSome
  check fun _ => a1b0.isSome
  check fun _ => b1.isSome
  let sorted ← isSorted fuel less a0 a1b0
  check fun _ => sorted
  let sorted ← isSorted fuel less a1b0 b1
  check fun _ => sorted
  mergeLoop less fuel a0 a1b0 b1

/-- One pass of `list_sort` from `a0` on, with the number of runs output so far. -/
def sortPass (fuel : ℕ) (less : α → α → Bool) (list : Sentinels α) :
    ℕ → Ptr α → ℕ → ListM α ℕ
  | 0, _, _ => outOfFuel
  | n + 1, a0, outputRunCnt =>
    if a0 = listEnd list then
      pure outputRunCnt
    else do
      let a1b0 ← findEndOfRun fuel less a0 (listEnd list)
      if a1b0 = listEnd list then
        pure (outputRunCnt + 1)
      else
        let b1 ← findEndOfRun fuel less a1b0 (listEnd list)
        inplaceMerge fuel less a0 a1b0 b1
        sortPass fuel less list n b1 (outputRunCnt + 1)

/-- The outer loop of `list_sort`. -/
def listSortLoop (fuel : ℕ) (less : α → α → Bool) (list : Sentinels α) : ℕ → ListM α Unit
  | 0 => outOfFuel
  | n + 1 => do
    let outputRunCnt ← sortPass fuel less list fuel (← listBegin list) 0
    if outputRunCnt > 1 then listSortLoop fuel less list n else pure ()

/-- `list_sort`. -/
def listSort (fuel : ℕ) (less : α → α → Bool) (list : Sentinels α) : ListM α Unit := do
  listSortLoop fuel less list fuel
  let sorted ← isSorted fuel less (← listBegin list) (listEnd list)
  check fun _ => sorted

/-- The loop of `list_insert_ordered`. -/
def insertOrderedLoop (less : α → α → Bool) (list : Sentinels α) (elem : Ptr α) :
    ℕ → Ptr α → ListM α (Ptr α)
  | 0, _ => outOfFuel
  | fuel + 1, e =>
    if e = listEnd list then
      pure e
    else do
      if ← lessPtr less elem e then
        pure e
      else
        insertOrderedLoop less list elem fuel (← listNext e)

/-- `list_insert_ordered`. -/
def listInsertOrdered (fuel : ℕ) (less : α → α → Bool) (list : Sentinels α) (elem : Ptr α) :
    ListM α Unit := do
  check fun _ => elem.isSome
  let e ← insertOrderedLoop less list elem fuel (← listBegin list)
  listInsert e elem

/-! ### Walking a list -/

section Walk

variable {h : Links α} {e : Sentinels α} {less : α → α → Bool} {l₁ l₂ m : List α} {a : α}

omit [DecidableEq α] in
/-- `list_next` of an element. -/
theorem listNext_eq (hr : Represents h e (l₁ ++ a :: l₂)) :
    listNext (some a) h = .ok (some (e.first l₂), h) := by
  have hprev : h.prev a = some (e.last l₁) := hr.prev_first
  have hnext : h.next a = some (e.first l₂) := by
    rw [append_cons] at hr
    have hnext := hr.next_last
    rwa [Sentinels.last_concat] at hnext
  have hint : (isHead (some a) h || isInterior (some a) h) = true := by
    simp [isInterior, hprev, hnext]
  simp only [listNext, bind_apply, check_apply, hint, if_true, ok_bind, readNext_some, hnext]

omit [DecidableEq α] in
/-- `list_prev` at the position after an element. -/
theorem listPrev_eq (hr : Represents h e (l₁ ++ a :: l₂)) :
    listPrev (some (e.first l₂)) h = .ok (some a, h) := by
  rw [append_cons] at hr
  have hprev := hr.prev_first
  rw [Sentinels.last_concat] at hprev
  simp only [listPrev, bind_apply, check_apply, isInterior_or_isTail hprev, if_true, ok_bind,
    readPrev_some, hprev]

omit [DecidableEq α] in
/-- The elements before a position are not at it. -/
theorem ne_first (hr : Represents h e (l₁ ++ l₂)) (ha : a ∈ l₁) : some a ≠ some (e.first l₂) := by
  obtain ⟨l₂', h₂⟩ := e.exists_first l₂
  have hnd := hr.nodup
  rw [e.cells_append, h₂, nodup_append] at hnd
  exact fun heq => hnd.2.2 a (mem_cons_of_mem _ ha) _ (mem_cons_self ..)
    (Option.some.inj heq)

/-- `is_sorted` holds of a range in order. -/
theorem isSortedLoop_eq {fuel : ℕ} (hr : Represents h e (l₁ ++ a :: m ++ l₂))
    (hord : InOrder less (a :: m)) (hfuel : m.length < fuel) :
    isSortedLoop less fuel (some a) (some (e.first l₂)) h = .ok (true, h) := by
  induction m generalizing l₁ a fuel with
  | nil =>
    obtain ⟨fuel, rfl⟩ := Nat.exists_eq_succ_of_ne_zero (by omega : fuel ≠ 0)
    have hr' : Represents h e (l₁ ++ a :: l₂) := by simpa using hr
    simp only [isSortedLoop, bind_apply, listNext_eq hr', ok_bind, if_true, pure_apply]
  | cons b m ih =>
    obtain ⟨fuel, rfl⟩ := Nat.exists_eq_succ_of_ne_zero (by omega : fuel ≠ 0)
    obtain ⟨ha, hord'⟩ := pairwise_cons.mp hord
    have hr' : Represents h e (l₁ ++ a :: (b :: m ++ l₂)) := by simpa using hr
    have hne : some b ≠ some (e.first l₂) := ne_first hr (by simp)
    have hr'' : Represents h e (l₁ ++ [a] ++ b :: m ++ l₂) := by simpa using hr
    have hprev : listPrev (some b) h = .ok (some a, h) := listPrev_eq hr'
    have hnext : listNext (some a) h = .ok (some b, h) := listNext_eq hr'
    simp only [isSortedLoop, bind_apply, hnext, ok_bind, if_neg hne, hprev, lessPtr,
      ha b (by simp), Bool.false_eq_true, if_false]
    exact ih hr'' hord' (by simpa using hfuel)

theorem isSorted_eq {fuel : ℕ} (hr : Represents h e (l₁ ++ m ++ l₂)) (hord : InOrder less m)
    (hfuel : m.length ≤ fuel) :
    isSorted fuel less (some (e.first (m ++ l₂))) (some (e.first l₂)) h = .ok (true, h) := by
  cases m with
  | nil =>
    rw [isSorted, nil_append, if_pos rfl]
    rfl
  | cons a m =>
    have hne : some a ≠ some (e.first l₂) := ne_first hr (by simp)
    rw [isSorted, cons_append, Sentinels.first_cons, if_neg hne]
    exact isSortedLoop_eq hr hord hfuel

/-- `find_end_of_run` stops where the run of the sequence ends. -/
theorem findEndOfRunLoop_eq {fuel : ℕ} (hr : Represents h e (l₁ ++ a :: m))
    (hfuel : m.length < fuel) :
    findEndOfRunLoop less fuel (some a) (some e.tail) h =
      .ok (some (e.first (Pintos.findEndOfRun less a m).2), h) := by
  induction m generalizing l₁ a fuel with
  | nil =>
    obtain ⟨fuel, rfl⟩ := Nat.exists_eq_succ_of_ne_zero (by omega : fuel ≠ 0)
    simp only [findEndOfRunLoop, bind_apply, listNext_eq hr, ok_bind, Sentinels.first_nil,
      if_true, pure_apply, Pintos.findEndOfRun]
  | cons b m ih =>
    obtain ⟨fuel, rfl⟩ := Nat.exists_eq_succ_of_ne_zero (by omega : fuel ≠ 0)
    have hne : some b ≠ some e.tail := by
      have hr' : Represents h e (l₁ ++ a :: b :: m ++ []) := by simpa using hr
      exact ne_first hr' (by simp)
    have hr'' : Represents h e (l₁ ++ [a] ++ b :: m) := by simpa using hr
    have hprev : listPrev (some b) h = .ok (some a, h) := listPrev_eq hr
    have hnext : listNext (some a) h = .ok (some b, h) := listNext_eq hr
    simp only [findEndOfRunLoop, bind_apply, hnext, ok_bind, if_neg hne, hprev, lessPtr]
    rw [Pintos.findEndOfRun]
    split
    · rfl
    · exact ih hr'' (by simpa using hfuel)

theorem findEndOfRun_eq {fuel : ℕ} (hr : Represents h e (l₁ ++ a :: m))
    (hfuel : m.length < fuel) :
    findEndOfRun fuel less (some a) (listEnd e) h =
      .ok (some (e.first (Pintos.findEndOfRun less a m).2), h) := by
  have hne : (some a != some e.tail) = true := by
    have hr' : Represents h e (l₁ ++ a :: m ++ []) := by simpa using hr
    rw [bne_iff_ne]
    exact ne_first hr' (by simp)
  simp only [findEndOfRun, bind_apply, check_apply, Option.isSome_some, listEnd, if_true, ok_bind,
    hne]
  exact findEndOfRunLoop_eq hr hfuel

/-- The loop of `list_insert_ordered` stops at the first element the new one precedes. -/
theorem insertOrderedLoop_eq {fuel : ℕ} {b : α} (hr : Represents h e (l₁ ++ m))
    (hfuel : m.length < fuel) :
    insertOrderedLoop less e (some b) fuel (some (e.first m)) h =
      .ok (some (e.first (m.dropWhile fun x => !less b x)), h) := by
  induction m generalizing l₁ fuel with
  | nil =>
    obtain ⟨fuel, rfl⟩ := Nat.exists_eq_succ_of_ne_zero (by omega : fuel ≠ 0)
    rw [insertOrderedLoop, listEnd, Sentinels.first_nil, if_pos rfl]
    rfl
  | cons a m ih =>
    obtain ⟨fuel, rfl⟩ := Nat.exists_eq_succ_of_ne_zero (by omega : fuel ≠ 0)
    have hne : some a ≠ listEnd e := by
      have hr' : Represents h e (l₁ ++ a :: m ++ []) := by simpa using hr
      exact ne_first hr' (by simp)
    have hr' : Represents h e (l₁ ++ [a] ++ m) := by simpa using hr
    rw [insertOrderedLoop, Sentinels.first_cons, if_neg hne]
    simp only [bind_apply, lessPtr, ok_bind]
    cases hba : less b a with
    | true => simp [hba, pure_apply]
    | false =>
      simp only [Bool.false_eq_true, if_false, bind_apply, listNext_eq hr, ok_bind]
      rw [ih hr' (by simpa using hfuel), dropWhile_cons, hba]
      rfl

end Walk

/-! ### Merging and sorting a list of a family -/

section Sorting

omit [DecidableEq α] in
theorem inplaceMerge_nil_right (less : α → α → Bool) (as : List α) :
    Pintos.inplaceMerge less as [] = as := by
  induction as with
  | nil => rfl
  | cons a as ih => rw [Pintos.inplaceMerge, takeWhile_nil, dropWhile_nil, ih]; rfl

variable [DecidableEq ι] {e : ι → Sentinels α} {h : Links α} {S : ι → List α} {i : ι}
  {less : α → α → Bool} {l₁ l₂ as bs : List α}

/-- The state of the heap after the list at `i` has become `l`, a rearrangement of it. -/
structure Rearranged (e : ι → Sentinels α) (h : Links α) (S : ι → List α) (i : ι) (l : List α)
    (h' : Links α) : Prop where
  family : Family e h' (Function.update S i l)
  sameOff : Links.SameOff ((e i).cells (S i)) h h'

omit [DecidableEq α] in
/-- A second rearrangement after a first. -/
theorem Rearranged.trans {l l' : List α} {h' h'' : Links α} (hR : Rearranged e h S i l h')
    (hperm : l.Perm (S i)) (hR' : Rearranged e h' (update S i l) i l' h'') :
    Rearranged e h S i l' h'' where
  family := by
    have hF := hR'.family
    rwa [update_idem] at hF
  sameOff := by
    refine hR.sameOff.trans (hR'.sameOff.mono fun x hx => ?_)
    rw [update_self] at hx
    simpa only [Sentinels.mem_cells, hperm.mem_iff] using hx

omit [DecidableEq α] in
theorem Rearranged.refl (hF : Family e h S) : Rearranged e h S i (S i) h where
  family := by
    rw [update_eq_self]
    exact hF
  sameOff := Links.SameOff.refl _ h

/-- The loop of `inplace_merge` merges the two ranges as `inplaceMerge` does. -/
theorem mergeLoop_family {fuel : ℕ} (hF : Family e h S) (hi : S i = l₁ ++ as ++ bs ++ l₂)
    (hfuel : as.length + bs.length < fuel) :
    ∃ h', mergeLoop less fuel (some ((e i).first (as ++ bs ++ l₂)))
        (some ((e i).first (bs ++ l₂))) (some ((e i).first l₂)) h = .ok ((), h') ∧
      Rearranged e h S i (l₁ ++ Pintos.inplaceMerge less as bs ++ l₂) h' := by
  induction fuel generalizing h S l₁ as bs with
  | zero => omega
  | succ fuel ih =>
    have hr := hF.represents i
    rw [hi] at hr
    cases as with
    | nil =>
      -- the first range is used up
      refine ⟨h, ?_, ?_⟩
      · rw [mergeLoop, nil_append, if_neg (fun hne => hne.1 rfl)]
        rfl
      · have hmerge : l₁ ++ Pintos.inplaceMerge less [] bs ++ l₂ = S i := by
          rw [hi, Pintos.inplaceMerge, append_nil]
        rw [hmerge]
        exact Rearranged.refl hF
    | cons a as =>
    cases bs with
    | nil =>
      -- the second range is used up
      refine ⟨h, ?_, ?_⟩
      · rw [mergeLoop, nil_append, if_neg (fun hne => hne.2 rfl)]
        rfl
      · have hmerge : l₁ ++ Pintos.inplaceMerge less (a :: as) [] ++ l₂ = S i := by
          rw [hi, inplaceMerge_nil_right, append_nil]
        rw [hmerge]
        exact Rearranged.refl hF
    | cons b bs =>
      have hr_a : Represents h (e i) (l₁ ++ a :: (as ++ b :: bs ++ l₂)) := by simpa using hr
      have hr_b : Represents h (e i) (l₁ ++ a :: as ++ b :: (bs ++ l₂)) := by simpa using hr
      have hne₁ : some a ≠ some b := ne_first hr_b (by simp)
      have hne₂ : some b ≠ some ((e i).first l₂) := ne_first hr (by simp)
      simp only [cons_append, Sentinels.first_cons]
      cases hba : less b a with
      | false =>
        have hnext : listNext (some a) h =
            .ok (some ((e i).first (as ++ b :: bs ++ l₂)), h) := listNext_eq hr_a
        have hi' : S i = l₁ ++ [a] ++ as ++ b :: bs ++ l₂ := by simpa using hi
        obtain ⟨h', hrun, hR⟩ := ih hF hi' (by simp at hfuel ⊢; omega)
        refine ⟨h', ?_, ?_⟩
        · rw [mergeLoop, if_pos ⟨hne₁, hne₂⟩]
          simp only [bind_apply, lessPtr, ok_bind, hba, Bool.not_false, if_true, hnext]
          exact hrun
        · have hmerge : l₁ ++ Pintos.inplaceMerge less (a :: as) (b :: bs) ++ l₂ =
              l₁ ++ [a] ++ Pintos.inplaceMerge less as (b :: bs) ++ l₂ := by
            simp [Pintos.inplaceMerge, hba]
          rw [hmerge]
          exact hR
      | true =>
        have hnext : listNext (some b) h = .ok (some ((e i).first (bs ++ l₂)), h) :=
          listNext_eq hr_b
        have hprev : listPrev (some ((e i).first (bs ++ l₂))) h = .ok (some b, h) :=
          listPrev_eq hr_b
        have hcut : S i = (l₁ ++ a :: as) ++ [b] ++ (bs ++ l₂) := by simpa using hi
        have hput : update S i (l₁ ++ a :: as ++ (bs ++ l₂)) i =
            l₁ ++ (a :: as ++ bs ++ l₂) := by simp
        obtain ⟨h₁, hsplice, hF₁, hsame⟩ := listSplice_family hF hcut hput
        have hR₁ : Rearranged e h S i (l₁ ++ [b] ++ (a :: as ++ bs ++ l₂)) h₁ := by
          rw [update_idem] at hF₁
          exact ⟨hF₁, hsame.mono (by simp)⟩
        have hperm : (l₁ ++ [b] ++ (a :: as ++ bs ++ l₂)).Perm (S i) := by
          have hmid : (b :: (a :: as ++ (bs ++ l₂))).Perm (a :: as ++ b :: (bs ++ l₂)) :=
            perm_middle.symm
          rw [hi]
          simp only [append_assoc]
          exact hmid.append_left l₁
        have hi' : update S i (l₁ ++ [b] ++ (a :: as ++ bs ++ l₂)) i =
            l₁ ++ [b] ++ a :: as ++ bs ++ l₂ := by simp
        obtain ⟨h', hrun, hR⟩ := ih hR₁.family hi' (by simp at hfuel ⊢; omega)
        refine ⟨h', ?_, ?_⟩
        · rw [mergeLoop, if_pos ⟨hne₁, hne₂⟩]
          simp only [cons_append, nil_append, Sentinels.first_cons] at hsplice
          simp only [bind_apply, lessPtr, ok_bind, hba, Bool.not_true, Bool.false_eq_true,
            if_false, hnext, hprev, hsplice]
          exact hrun
        · have hmerge : l₁ ++ Pintos.inplaceMerge less (a :: as) (b :: bs) ++ l₂ =
              l₁ ++ [b] ++ Pintos.inplaceMerge less (a :: as) bs ++ l₂ := by
            simp [Pintos.inplaceMerge, hba]
          rw [hmerge]
          exact hR₁.trans hperm hR

/-- `inplace_merge` on two ranges in order: its assertions hold. -/
theorem inplaceMerge_family {fuel : ℕ} (hF : Family e h S) (hi : S i = l₁ ++ as ++ bs ++ l₂)
    (has : InOrder less as) (hbs : InOrder less bs) (hfuel : as.length + bs.length < fuel) :
    ∃ h', inplaceMerge fuel less (some ((e i).first (as ++ bs ++ l₂)))
        (some ((e i).first (bs ++ l₂))) (some ((e i).first l₂)) h = .ok ((), h') ∧
      Rearranged e h S i (l₁ ++ Pintos.inplaceMerge less as bs ++ l₂) h' := by
  have hr := hF.represents i
  rw [hi] at hr
  have hsorted₁ : isSorted fuel less (some ((e i).first (as ++ bs ++ l₂)))
      (some ((e i).first (bs ++ l₂))) h = .ok (true, h) := by
    have hr' : Represents h (e i) (l₁ ++ as ++ (bs ++ l₂)) := by simpa using hr
    rw [append_assoc]
    exact isSorted_eq hr' has (by omega)
  have hsorted₂ : isSorted fuel less (some ((e i).first (bs ++ l₂))) (some ((e i).first l₂)) h =
      .ok (true, h) := isSorted_eq hr hbs (by omega)
  obtain ⟨h', hrun, hR⟩ := mergeLoop_family hF hi hfuel
  refine ⟨h', ?_, hR⟩
  simp only [inplaceMerge, bind_apply, check_apply, Option.isSome_some, if_true, ok_bind, hsorted₁,
    hsorted₂]
  exact hrun

/-- A pass over the rest `l` of the list does to it what `sortPass` does, and counts the
same runs. -/
theorem sortPass_family (hless : StrictWeakOrder less) {fuel k n cnt : ℕ} {l : List α}
    (hF : Family e h S) (hi : S i = l₁ ++ l) (hfuel : l.length < fuel) (hk : l.length ≤ k)
    (hn : k < n) :
    ∃ h', sortPass fuel less (e i) n (some ((e i).first l)) cnt h =
        .ok (cnt + (Pintos.sortPass less k l).2, h') ∧
      Rearranged e h S i (l₁ ++ (Pintos.sortPass less k l).1) h' := by
  induction k generalizing h S l₁ l n cnt with
  | zero =>
    obtain ⟨n, rfl⟩ := Nat.exists_eq_succ_of_ne_zero (by omega : n ≠ 0)
    obtain rfl : l = [] := length_eq_zero_iff.mp (by omega)
    refine ⟨h, ?_, ?_⟩
    · rw [sortPass, listEnd, Sentinels.first_nil, if_pos rfl]
      rfl
    · rw [Pintos.sortPass, ← hi]
      exact Rearranged.refl hF
  | succ k ih =>
    obtain ⟨n, rfl⟩ := Nat.exists_eq_succ_of_ne_zero (by omega : n ≠ 0)
    cases l with
    | nil =>
      refine ⟨h, ?_, ?_⟩
      · rw [sortPass, listEnd, Sentinels.first_nil, if_pos rfl]
        rfl
      · rw [Pintos.sortPass, ← hi]
        exact Rearranged.refl hF
    | cons a l =>
      have hr := hF.represents i
      rw [hi] at hr
      have hne : some a ≠ listEnd (e i) := by
        have hr' : Represents h (e i) (l₁ ++ a :: l ++ []) := by simpa using hr
        exact ne_first hr' (by simp)
      have happ := findEndOfRun_append less a l
      have hlen := length_findEndOfRun_snd less a l
      have hord₁ := inOrder_findEndOfRun hless a l
      have hend₁ : findEndOfRun fuel less (some a) (listEnd (e i)) h =
          .ok (some ((e i).first (Pintos.findEndOfRun less a l).2), h) :=
        findEndOfRun_eq hr (by simp at hfuel; omega)
      rw [Pintos.sortPass]
      rcases hsplit : Pintos.findEndOfRun less a l with ⟨r₁, _ | ⟨b, l'⟩⟩
      · -- one run is left
        rw [hsplit] at happ hend₁
        dsimp only at happ hend₁ ⊢
        have hend : some ((e i).first []) = listEnd (e i) := rfl
        rw [append_nil] at happ
        rw [happ, ← hi]
        refine ⟨h, ?_, Rearranged.refl hF⟩
        rw [sortPass, Sentinels.first_cons, if_neg hne]
        simp only [bind_apply, hend₁, ok_bind, if_pos hend, pure_apply]
      · rw [hsplit] at happ hend₁ hord₁ hlen
        dsimp only at happ hend₁ hord₁ hlen ⊢
        have hr₂ : Represents h (e i) (l₁ ++ r₁ ++ b :: l') := by
          rw [append_assoc, happ]
          exact hr
        have hne₂ : some b ≠ listEnd (e i) := by
          have hr' : Represents h (e i) (l₁ ++ r₁ ++ b :: l' ++ []) := by simpa using hr₂
          exact ne_first hr' (by simp)
        have happ₂ := findEndOfRun_append less b l'
        have hlen₂ := length_findEndOfRun_snd less b l'
        have hord₂ := inOrder_findEndOfRun hless b l'
        simp only [length_cons] at hfuel hk hlen
        have hend₂ : findEndOfRun fuel less (some b) (listEnd (e i)) h =
            .ok (some ((e i).first (Pintos.findEndOfRun less b l').2), h) :=
          findEndOfRun_eq hr₂ (by omega)
        generalize Pintos.findEndOfRun less b l' = second at happ₂ hlen₂ hord₂ hend₂ ⊢
        obtain ⟨r₂, rest⟩ := second
        dsimp only at happ₂ hlen₂ hord₂ hend₂ ⊢
        have hi₂ : S i = l₁ ++ r₁ ++ r₂ ++ rest := by
          rw [append_assoc, happ₂, append_assoc, happ, hi]
        have hlengths : r₁.length + r₂.length + rest.length = l.length + 1 := by
          have := congrArg length (hi.symm.trans hi₂)
          simp at this
          omega
        obtain ⟨h₁, hmerge, hR₁⟩ := inplaceMerge_family hF hi₂ hord₁ hord₂
          (show r₁.length + r₂.length < fuel by omega)
        have hperm : (l₁ ++ Pintos.inplaceMerge less r₁ r₂ ++ rest).Perm (S i) := by
          rw [hi₂, append_assoc l₁ r₁]
          exact ((inplaceMerge_perm less r₁ r₂).append_left l₁).append_right rest
        have hi₃ : update S i (l₁ ++ Pintos.inplaceMerge less r₁ r₂ ++ rest) i =
            (l₁ ++ Pintos.inplaceMerge less r₁ r₂) ++ rest := by simp
        have hrec : ∃ h', sortPass fuel less (e i) n (some ((e i).first rest)) (cnt + 1) h₁ =
            .ok (cnt + 1 + (Pintos.sortPass less k rest).2, h') ∧ _ :=
          ih hR₁.family hi₃ (by omega) (by omega) (by omega)
        obtain ⟨h', hpass, hR⟩ := hrec
        refine ⟨h', ?_, ?_⟩
        · rw [append_assoc r₁, happ₂, happ, Sentinels.first_cons,
            Sentinels.first_cons] at hmerge
          rw [sortPass, Sentinels.first_cons, if_neg hne]
          simp only [bind_apply, hend₁, ok_bind, Sentinels.first_cons, if_neg hne₂, hend₂,
            hmerge]
          rw [hpass]
          congr 2
          omega
        · rw [← append_assoc]
          exact hR₁.trans hperm hR

/-- The passes end when one outputs at most one run, and so many passes are never needed as
the list has runs and one more. -/
theorem listSortLoop_family (hless : StrictWeakOrder less) {fuel n k : ℕ} (hF : Family e h S)
    (hcount : runCount less (S i) < n) (hn : n ≤ k) (hfuel : (S i).length < fuel) :
    ∃ h', listSortLoop fuel less (e i) k h = .ok ((), h') ∧
      Rearranged e h S i (Pintos.listSortLoop less n (S i)) h' := by
  induction n generalizing h S k with
  | zero => omega
  | succ n ih =>
    obtain ⟨k, rfl⟩ := Nat.exists_eq_succ_of_ne_zero (by omega : k ≠ 0)
    have hbegin : listBegin (e i) h = .ok (some ((e i).first (S i)), h) := by
      rw [listBegin, readNext_some, (hF.represents i).next_head]
    have hi : S i = [] ++ S i := rfl
    have hfirst : ∃ h₁, sortPass fuel less (e i) fuel (some ((e i).first (S i))) 0 h =
        .ok (0 + (Pintos.sortPass less (S i).length (S i)).2, h₁) ∧ _ :=
      sortPass_family hless hF hi hfuel (le_refl _) hfuel
    obtain ⟨h₁, hpass, hR₁⟩ := hfirst
    rw [Nat.zero_add] at hpass
    rw [nil_append] at hR₁
    rw [Pintos.listSortLoop]
    have hread := runCount_sortPass_le hless (le_refl (S i).length)
    have houtput := sortPass_count less (le_refl (S i).length)
    have hperm := sortPass_perm less (S i).length (S i)
    split_ifs with hmore
    · have hrec : ∃ h', listSortLoop fuel less (e i) k h₁ = .ok ((), h') ∧ _ :=
        ih hR₁.family (by rw [update_self]; omega) (by omega)
          (by rw [update_self, hperm.length_eq]; exact hfuel)
      obtain ⟨h', hrun, hR⟩ := hrec
      rw [update_self] at hR
      refine ⟨h', ?_, hR₁.trans hperm hR⟩
      simp only [listSortLoop, bind_apply, hbegin, ok_bind, hpass, if_pos hmore, hrun]
    · refine ⟨h₁, ?_, hR₁⟩
      simp only [listSortLoop, bind_apply, hbegin, ok_bind, hpass, if_neg hmore, pure_apply]

/-- `list_sort` does to the list what `listSort` does to the sequence, and its last assertion
holds. -/
theorem listSort_family (hless : StrictWeakOrder less) {fuel : ℕ} (hF : Family e h S)
    (hfuel : (S i).length < fuel) :
    ∃ h', listSort fuel less (e i) h = .ok ((), h') ∧
      Rearranged e h S i (Pintos.listSort less (S i)) h' := by
  have hcount : runCount less (S i) < (S i).length + 1 :=
    Nat.lt_succ_of_le (runCount_le_length less (S i))
  obtain ⟨h', hrun, hR⟩ := listSortLoop_family hless hF hcount hfuel hfuel
  refine ⟨h', ?_, hR⟩
  have hr : Represents h' (e i) (Pintos.listSort less (S i)) := by
    have hr := hR.family.represents i
    rwa [update_self] at hr
  have hbegin : listBegin (e i) h' =
      .ok (some ((e i).first (Pintos.listSort less (S i) ++ [])), h') := by
    rw [listBegin, readNext_some, hr.next_head, append_nil]
  have hsorted : isSorted fuel less (some ((e i).first (Pintos.listSort less (S i) ++ [])))
      (listEnd (e i)) h' = .ok (true, h') := by
    have hr' : Represents h' (e i) ([] ++ Pintos.listSort less (S i) ++ []) := by simpa using hr
    refine isSorted_eq hr' (listSort_inOrder hless _) ?_
    rw [(listSort_perm less (S i)).length_eq]
    omega
  simp only [listSort, bind_apply, hrun, ok_bind, hbegin, hsorted, check_apply, if_true]

/-- `list_insert_ordered` puts an element of no list where `listInsertOrdered` puts it. -/
theorem listInsertOrdered_family {fuel : ℕ} {a : α} (hF : Family e h S)
    (ha : ∀ j, a ∉ (e j).cells (S j)) (hfuel : (S i).length < fuel) :
    ∃ h', listInsertOrdered fuel less (e i) (some a) h = .ok ((), h') ∧
      Family e h' (update S i (Pintos.listInsertOrdered less a (S i))) ∧
      Links.SameOff (a :: (e i).cells (S i)) h h' := by
  have hr : Represents h (e i) ([] ++ S i) := hF.represents i
  have hloop : insertOrderedLoop less (e i) (some a) fuel (some ((e i).first (S i))) h = _ :=
    insertOrderedLoop_eq hr hfuel
  have hsplit : S i = (S i).takeWhile (fun x => !less a x) ++
      (S i).dropWhile fun x => !less a x := takeWhile_append_dropWhile.symm
  obtain ⟨h', hinsert, hF', hsame⟩ := listInsert_family hF hsplit ha
  refine ⟨h', ?_, ?_, hsame⟩
  · simp only [listInsertOrdered, bind_apply, check_apply, Option.isSome_some, if_true, ok_bind,
      listBegin, readNext_some, (hF.represents i).next_head, hloop, hinsert]
  · have hseq : Pintos.listInsertOrdered less a (S i) = (S i).takeWhile (fun x => !less a x) ++
        a :: (S i).dropWhile fun x => !less a x := by
      rw [Pintos.listInsertOrdered, orderedInsert_eq_take_drop]
      simp
    rw [hseq]
    exact hF'

end Sorting

end ListM

/-- `calculate_priority` sorts the run queue by the new priorities. -/
theorem readyList_calculatePriority (s : Sched) :
    s.calculatePriority.1.readyList =
      listSort s.calculatePriority.1.comparePriority s.readyList := rfl

/-- **`list_sort` is a stable sort.** On any list and for any strict weak order it completes, no
assertion fails, no other list is touched, and the list becomes a permutation of itself, in
order, with equivalent elements in the order they were in. In particular after
`calculate_priority` the run queue holds the same threads by non-increasing priority, those of
each priority in the order they were in. -/
theorem list_sort_stable [DecidableEq ι] {less : α → α → Bool} (hless : StrictWeakOrder less)
    {e : ι → Sentinels α} {h : Links α} {S : ι → List α} (hF : Family e h S) (i : ι) :
    (∃ n, ∀ fuel ≥ n, ∃ h', ListM.listSort fuel less (e i) h = .ok ((), h') ∧
      Family e h' (Function.update S i (listSort less (S i))) ∧
      Links.SameOff ((e i).cells (S i)) h h') ∧
    (listSort less (S i)).Perm (S i) ∧
    InOrder less (listSort less (S i)) ∧
    (∀ a, (listSort less (S i)).filter (equivalent less a) =
      (S i).filter (equivalent less a)) ∧
    ∀ s s' : Sched, s.calculatePriority.1 = s' →
      s'.readyList = listSort s'.comparePriority s.readyList ∧
      s'.readyList.Perm s.readyList ∧
      s'.readyList.Pairwise (fun a b => s'.priority b ≤ s'.priority a) ∧
      ∀ p, s'.readyList.filter (fun t => s'.priority t = p) =
        s.readyList.filter fun t => s'.priority t = p := by
  refine ⟨⟨(S i).length + 1, fun fuel hfuel => ?_⟩, listSort_perm less _,
    listSort_inOrder hless _, listSort_stable hless _, ?_⟩
  · obtain ⟨h', hrun, hR⟩ := ListM.listSort_family hless hF hfuel
    exact ⟨h', hrun, hR.family, hR.sameOff⟩
  · rintro s s' rfl
    have hsort := readyList_calculatePriority s
    have hord := s.calculatePriority.1.comparePriority_strictWeakOrder
    refine ⟨hsort, ?_, s.calculatePriority_ordered, fun p => ?_⟩
    · rw [hsort]
      exact listSort_perm _ _
    · -- the threads of one priority are those equivalent to any one of them
      rw [hsort]
      refine listSort_filter hord fun a b ha => ?_
      simp only [decide_eq_true_eq] at ha
      rw [Bool.eq_iff_iff, equivalent_iff, decide_eq_true_eq]
      simp only [Sched.comparePriority, decide_eq_false_iff_not]
      omega

/-- Four elements sorted by their tens digit. -/
theorem list_sort_stable_four :
    ∃ (e : Unit → Sentinels ℕ) (h : Links ℕ) (S : Unit → List ℕ), Family e h S ∧
      S () = [21, 12, 11, 22] ∧ ∃ n, ∀ fuel ≥ n, ∃ h',
        ListM.listSort fuel (fun a b => decide (a / 10 < b / 10)) (e ()) h = .ok ((), h') ∧
        Family e h' (Function.update S () [12, 11, 21, 22]) := by
  let e : Unit → Sentinels ℕ := fun _ => ⟨0, 9⟩
  let S : Unit → List ℕ := fun _ => [21, 12, 11, 22]
  let h : Links ℕ := ⟨fun x => [(21, 0), (12, 21), (11, 12), (22, 11), (9, 22)].lookup x,
    fun x => [(0, 21), (21, 12), (12, 11), (11, 22), (22, 9)].lookup x⟩
  have hF : Family e h S := by
    refine ⟨fun _ => ⟨?_, by decide, by decide, by decide⟩, fun _ _ hne => absurd rfl hne⟩
    rw [Links.Linked]
    decide
  have hless : StrictWeakOrder fun a b : ℕ => decide (a / 10 < b / 10) := by
    refine ⟨fun a b hab => ?_, fun a b c hab hbc => ?_⟩
    · simp only [decide_eq_true_eq, decide_eq_false_iff_not] at hab ⊢
      omega
    · simp only [decide_eq_false_iff_not] at hab hbc ⊢
      omega
  obtain ⟨⟨n, hn⟩, -⟩ := list_sort_stable hless hF ()
  have hsort : listSort (fun a b : ℕ => decide (a / 10 < b / 10)) (S ()) = [12, 11, 21, 22] := by
    decide
  refine ⟨e, h, S, hF, rfl, n, fun fuel hfuel => ?_⟩
  obtain ⟨h', hrun, hF', -⟩ := hn fuel hfuel
  rw [hsort] at hF'
  exact ⟨h', hrun, hF'⟩

end Pintos
