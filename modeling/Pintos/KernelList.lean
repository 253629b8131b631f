import Mathlib.Data.List.Sort

/-!
# Ordered Insertion and Natural Merge Sort

The two ordering operations of `lib/kernel/list.c` on the sequence a list represents:
`list_insert_ordered`, which walks to the first element the new one precedes, and
`list_sort`, a natural merge sort that passes over the list merging adjacent
nondecreasing runs until a pass outputs at most one run. Both are generic in the
comparison `less`, as in the source.

The passes and the outer loop recurse on fuel. `listSort_inOrder` discharges it: the
length of the list is always enough, because a pass outputs half as many runs as it
reads (`sortPass_count`) and the next pass reads no more runs than were output
(`runCount_sortPass_le`).

## Main results

* `inOrder_listInsertOrdered`: insertion keeps a list in order.
* `listSort_perm`, `listSort_inOrder`: sorting permutes the list and puts it in order.
* `listSort_stable`: equivalent elements keep their order.
-/

namespace Pintos

open List

variable {α : Type}
variable {l : List α} {a : α} {less : α → α → Bool} {fuel : ℕ}

/-- The comparisons the ordering operations may be given: asymmetric, with transitive
incomparability. -/
structure StrictWeakOrder (less : α → α → Bool) : Prop where
  asymm : ∀ a b, less a b = true → less b a = false
  negTrans : ∀ a b c, less a b = false → less b c = false → less a c = false

theorem StrictWeakOrder.irrefl (h : StrictWeakOrder less) (a : α) : less a a = false := by
  cases haa : less a a with
  | false => rfl
  | true => rw [← haa, h.asymm a a haa]

/-- A list is in order when no element precedes an earlier one. -/
def InOrder (less : α → α → Bool) (l : List α) : Prop :=
  l.Pairwise fun a b => less b a = false

/-- `list_insert_ordered`: insert just before the first element that `elem` precedes. -/
def listInsertOrdered (less : α → α → Bool) (elem : α) (list : List α) : List α :=
  list.orderedInsert (fun a b => less a b = true) elem

theorem listInsertOrdered_perm (less : α → α → Bool) (elem : α) (list : List α) :
    (listInsertOrdered less elem list).Perm (elem :: list) :=
  perm_orderedInsert _ elem list

@[simp] theorem mem_listInsertOrdered {elem : α} {list : List α} :
    a ∈ listInsertOrdered less elem list ↔ a = elem ∨ a ∈ list :=
  mem_orderedInsert _

/-- **Insertion keeps a list in order.** -/
theorem inOrder_listInsertOrdered (h : StrictWeakOrder less) (elem : α) {list : List α}
    (hl : InOrder less list) : InOrder less (listInsertOrdered less elem list) := by
  induction list with
  | nil => simp [listInsertOrdered, InOrder]
  | cons e list ih =>
    obtain ⟨he, hrest⟩ := pairwise_cons.mp hl
    rw [listInsertOrdered, orderedInsert_cons]
    by_cases hlt : less elem e = true
    · rw [if_pos hlt]
      refine pairwise_cons.mpr ⟨fun b hb => ?_, hl⟩
      have heb : less e elem = false := h.asymm _ _ hlt
      rcases mem_cons.mp hb with rfl | hb
      · exact heb
      · exact h.negTrans _ _ _ (he b hb) heb
    · rw [if_neg hlt]
      refine pairwise_cons.mpr ⟨fun b hb => ?_, ih hrest⟩
      rcases mem_listInsertOrdered.mp hb with rfl | hb
      · simpa using hlt
      · exact he b hb

/-! ### Runs -/

/-- `find_end_of_run`: split `a :: l` after its first nondecreasing run. -/
def findEndOfRun (less : α → α → Bool) : α → List α → List α × List α
  | a, [] => ([a], [])
  | a, b :: l =>
    if less b a then ([a], b :: l)
    else (a :: (findEndOfRun less b l).1, (findEndOfRun less b l).2)

theorem findEndOfRun_append (less : α → α → Bool) (a : α) (l : List α) :
    (findEndOfRun less a l).1 ++ (findEndOfRun less a l).2 = a :: l := by
  induction l generalizing a with
  | nil => simp [findEndOfRun]
  | cons b l ih =>
    rw [findEndOfRun]
    split
    · simp
    · rw [cons_append, ih b]

/-- The run found starts at the element the search started from. -/
theorem findEndOfRun_head (less : α → α → Bool) (a : α) (l : List α) :
    ∃ r, (findEndOfRun less a l).1 = a :: r := by
  cases l with
  | nil => exact ⟨[], by simp [findEndOfRun]⟩
  | cons b l =>
    rw [findEndOfRun]
    split
    · exact ⟨[], rfl⟩
    · exact ⟨_, rfl⟩

/-- The rest after a run is shorter than the list. -/
theorem length_findEndOfRun_snd (less : α → α → Bool) (a : α) (l : List α) :
    (findEndOfRun less a l).2.length ≤ l.length := by
  obtain ⟨r, hr⟩ := findEndOfRun_head less a l
  have := congrArg length (findEndOfRun_append less a l)
  rw [hr] at this
  simp at this
  omega

theorem inOrder_findEndOfRun (h : StrictWeakOrder less) (a : α) (l : List α) :
    InOrder less (findEndOfRun less a l).1 := by
  induction l generalizing a with
  | nil => simp [findEndOfRun, InOrder]
  | cons b l ih =>
    rw [findEndOfRun]
    split_ifs with hba
    · simp [InOrder]
    · obtain ⟨r, hr⟩ := findEndOfRun_head less b l
      have hrun := ih b
      refine pairwise_cons.mpr ⟨fun c hc => ?_, hrun⟩
      have hba' : less b a = false := by simpa using hba
      rw [hr] at hc hrun
      rcases mem_cons.mp hc with rfl | hc
      · exact hba'
      · exact h.negTrans _ _ _ ((pairwise_cons.mp hrun).1 c hc) hba'

/-- The number of maximal nondecreasing runs of a list. -/
def runCount (less : α → α → Bool) : List α → ℕ
  | [] => 0
  | [_] => 1
  | a :: b :: l => (if less b a then 1 else 0) + runCount less (b :: l)

theorem runCount_eq_findEndOfRun (less : α → α → Bool) (a : α) (l : List α) :
    runCount less (a :: l) = 1 + runCount less (findEndOfRun less a l).2 := by
  induction l generalizing a with
  | nil => simp [runCount, findEndOfRun]
  | cons b l ih =>
    rw [runCount, findEndOfRun]
    by_cases hba : less b a = true
    · simp [hba]
    · simp [hba, ih b]

theorem runCount_le_one (h : InOrder less l) : runCount less l ≤ 1 := by
  induction l with
  | nil => simp [runCount]
  | cons a l ih =>
    obtain ⟨ha, hl⟩ := pairwise_cons.mp h
    cases l with
    | nil => simp [runCount]
    | cons b l =>
      rw [runCount, if_neg (by simp [ha b (by simp)])]
      simpa using ih hl

theorem runCount_append_le (less : α → α → Bool) (l m : List α) :
    runCount less (l ++ m) ≤ runCount less l + runCount less m := by
  induction l with
  | nil => simp [runCount]
  | cons a l ih =>
    cases l with
    | nil =>
      cases m with
      | nil => simp [runCount]
      | cons b m =>
        simp only [singleton_append, runCount]
        split <;> omega
    | cons b l =>
      simp only [cons_append, runCount] at ih ⊢
      omega

theorem runCount_le_length (less : α → α → Bool) (l : List α) :
    runCount less l ≤ l.length := by
  induction l with
  | nil => simp [runCount]
  | cons a l ih =>
    cases l with
    | nil => simp [runCount]
    | cons b l =>
      simp only [runCount, length_cons] at ih ⊢
      split <;> omega

/-! ### Merging -/

/-- `inplace_merge`: elements of the second run that precede the head of the first are
spliced before it, then the first run advances. -/
def inplaceMerge (less : α → α → Bool) : List α → List α → List α
  | [], bs => bs
  | a :: as, bs =>
    bs.takeWhile (fun b => less b a) ++
      a :: inplaceMerge less as (bs.dropWhile fun b => less b a)

theorem inplaceMerge_perm (less : α → α → Bool) (as bs : List α) :
    (inplaceMerge less as bs).Perm (as ++ bs) := by
  induction as generalizing bs with
  | nil => simp [inplaceMerge]
  | cons a as ih =>
    rw [inplaceMerge]
    have hsplit : bs.takeWhile (fun b => less b a) ++ bs.dropWhile (fun b => less b a) = bs :=
      takeWhile_append_dropWhile
    calc bs.takeWhile (fun b => less b a) ++
            a :: inplaceMerge less as (bs.dropWhile fun b => less b a)
        |>.Perm (bs.takeWhile (fun b => less b a) ++
            a :: (as ++ bs.dropWhile fun b => less b a)) :=
          ((ih _).cons a).append_left _
      _ |>.Perm (a :: (as ++ (bs.takeWhile (fun b => less b a) ++
            bs.dropWhile fun b => less b a))) := by
          refine perm_middle.trans (List.Perm.cons a ?_)
          rw [← append_assoc, ← append_assoc]
          exact perm_append_comm.append_right _
      _ = a :: as ++ bs := by rw [hsplit, cons_append]

/-- Past the elements that precede `a`, nothing of an ordered list precedes `a`. -/
theorem not_less_of_mem_dropWhile (h : StrictWeakOrder less) {bs : List α} (hbs : InOrder less bs)
    {b : α} (hb : b ∈ bs.dropWhile fun b => less b a) : less b a = false := by
  induction bs with
  | nil => simp at hb
  | cons c bs ih =>
    obtain ⟨hc, hrest⟩ := pairwise_cons.mp hbs
    by_cases hca : less c a = true
    · rw [dropWhile_cons, if_pos hca] at hb
      exact ih hrest hb
    · rw [dropWhile_cons, if_neg hca] at hb
      have hca' : less c a = false := by simpa using hca
      rcases mem_cons.mp hb with rfl | hb
      · exact hca'
      · exact h.negTrans _ _ _ (hc b hb) hca'

/-- **Merging two ordered runs gives an ordered run.** -/
theorem inOrder_inplaceMerge (h : StrictWeakOrder less) {as bs : List α} (has : InOrder less as)
    (hbs : InOrder less bs) : InOrder less (inplaceMerge less as bs) := by
  induction as generalizing bs with
  | nil => simpa [inplaceMerge] using hbs
  | cons a as ih =>
    obtain ⟨ha, has⟩ := pairwise_cons.mp has
    have hdrop : InOrder less (bs.dropWhile fun b => less b a) :=
      hbs.sublist (dropWhile_sublist _)
    have hmem : ∀ c ∈ inplaceMerge less as (bs.dropWhile fun b => less b a),
        less c a = false := by
      intro c hc
      rcases mem_append.mp ((inplaceMerge_perm less _ _).mem_iff.mp hc) with hc | hc
      · exact ha c hc
      · exact not_less_of_mem_dropWhile h hbs hc
    rw [inplaceMerge]
    refine pairwise_append.mpr
      ⟨hbs.sublist (takeWhile_sublist _), pairwise_cons.mpr ⟨hmem, ih has hdrop⟩, ?_⟩
    intro b hb c hc
    have hba : less b a = true := all_eq_true.mp all_takeWhile b hb
    have hab : less a b = false := h.asymm _ _ hba
    rcases mem_cons.mp hc with rfl | hc
    · exact hab
    · exact h.negTrans _ _ _ (hmem c hc) hab

/-! ### Passes -/

/-- One pass of `list_sort`: merge adjacent pairs of runs, counting the runs output. -/
def sortPass (less : α → α → Bool) : ℕ → List α → List α × ℕ
  | 0, l => (l, 0)
  | _ + 1, [] => ([], 0)
  | fuel + 1, a :: l =>
    match findEndOfRun less a l with
    | (r₁, []) => (r₁, 1)
    | (r₁, b :: l') =>
      let second := findEndOfRun less b l'
      let out := sortPass less fuel second.2
      (inplaceMerge less r₁ second.1 ++ out.1, out.2 + 1)

/-- `list_sort`: passes are made until one outputs at most one run. -/
def listSortLoop (less : α → α → Bool) : ℕ → List α → List α
  | 0, l => l
  | fuel + 1, l =>
    let out := sortPass less l.length l
    if 1 < out.2 then listSortLoop less fuel out.1 else out.1

/-- `list_sort` on the sequence it is applied to. -/
def listSort (less : α → α → Bool) (l : List α) : List α :=
  listSortLoop less (l.length + 1) l

/-- A pass permutes the list. -/
theorem sortPass_perm (less : α → α → Bool) (fuel : ℕ) (l : List α) :
    (sortPass less fuel l).1.Perm l := by
  induction fuel generalizing l with
  | zero => simp [sortPass]
  | succ fuel ih =>
    cases l with
    | nil => simp [sortPass]
    | cons a l =>
      have happ := findEndOfRun_append less a l
      rw [sortPass]
      split
      · rename_i r₁ h
        rw [h] at happ
        simpa using List.Perm.of_eq happ
      · rename_i r₁ b l' h
        rw [h] at happ
        have happ' := findEndOfRun_append less b l'
        calc inplaceMerge less r₁ (findEndOfRun less b l').1 ++
                (sortPass less fuel (findEndOfRun less b l').2).1
            |>.Perm (r₁ ++ (findEndOfRun less b l').1 ++ (findEndOfRun less b l').2) :=
              (inplaceMerge_perm less _ _).append (ih _)
          _ = a :: l := by rw [append_assoc, happ', happ]

/-- A pass outputs one run for every two it reads. -/
theorem sortPass_count (less : α → α → Bool) (hf : l.length ≤ fuel) :
    (sortPass less fuel l).2 = (runCount less l + 1) / 2 := by
  induction fuel generalizing l with
  | zero =>
    obtain rfl : l = [] := length_eq_zero_iff.mp (by omega)
    simp [sortPass, runCount]
  | succ fuel ih =>
    cases l with
    | nil => simp [sortPass, runCount]
    | cons a l =>
      have hcount := runCount_eq_findEndOfRun less a l
      have hlen := length_findEndOfRun_snd less a l
      rw [sortPass]
      split
      · rename_i r₁ h
        rw [h] at hcount
        simp [hcount, runCount]
      · rename_i r₁ b l' h
        rw [h] at hcount hlen
        have hcount' := runCount_eq_findEndOfRun less b l'
        have hlen' := length_findEndOfRun_snd less b l'
        simp only [length_cons] at hlen hf
        have hrec := ih (l := (findEndOfRun less b l').2) (by omega)
        simp only at hcount ⊢
        omega

/-- The next pass reads no more runs than this one output. -/
theorem runCount_sortPass_le (h : StrictWeakOrder less) (hf : l.length ≤ fuel) :
    runCount less (sortPass less fuel l).1 ≤ (sortPass less fuel l).2 := by
  induction fuel generalizing l with
  | zero =>
    obtain rfl : l = [] := length_eq_zero_iff.mp (by omega)
    simp [sortPass, runCount]
  | succ fuel ih =>
    cases l with
    | nil => simp [sortPass, runCount]
    | cons a l =>
      have hrun := inOrder_findEndOfRun h a l
      have hlen := length_findEndOfRun_snd less a l
      rw [sortPass]
      split
      · rename_i r₁ hr
        rw [hr] at hrun
        exact runCount_le_one hrun
      · rename_i r₁ b l' hr
        rw [hr] at hrun hlen
        have hrun' := inOrder_findEndOfRun h b l'
        have hlen' := length_findEndOfRun_snd less b l'
        simp only [length_cons] at hlen hf
        have hmerge := runCount_le_one (inOrder_inplaceMerge h hrun hrun')
        have hrest := ih (l := (findEndOfRun less b l').2) (by omega)
        have happ := runCount_append_le less
          (inplaceMerge less r₁ (findEndOfRun less b l').1)
          (sortPass less fuel (findEndOfRun less b l').2).1
        simp only at hmerge happ ⊢
        omega

/-- A pass that outputs at most one run leaves the list in order. -/
theorem inOrder_sortPass (h : StrictWeakOrder less) (hf : l.length ≤ fuel)
    (hone : (sortPass less fuel l).2 ≤ 1) : InOrder less (sortPass less fuel l).1 := by
  have hcount := runCount_sortPass_le h hf
  revert hcount
  generalize (sortPass less fuel l).1 = out
  intro hcount
  cases out with
  | nil => simp [InOrder]
  | cons a out =>
    have heq := runCount_eq_findEndOfRun less a out
    have hnil : (findEndOfRun less a out).2 = [] := by
      cases hr : (findEndOfRun less a out).2 with
      | nil => rfl
      | cons b r =>
        have hpos := runCount_eq_findEndOfRun less b r
        rw [hr] at heq
        omega
    have happ := findEndOfRun_append less a out
    rw [hnil, append_nil] at happ
    rw [← happ]
    exact inOrder_findEndOfRun h a out

/-! ### The whole sort -/

theorem listSortLoop_perm (less : α → α → Bool) (fuel : ℕ) (l : List α) :
    (listSortLoop less fuel l).Perm l := by
  induction fuel generalizing l with
  | zero => simp [listSortLoop]
  | succ fuel ih =>
    rw [listSortLoop]
    split
    · exact (ih _).trans (sortPass_perm less _ l)
    · exact sortPass_perm less _ l

theorem inOrder_listSortLoop (h : StrictWeakOrder less) (hf : runCount less l < fuel) :
    InOrder less (listSortLoop less fuel l) := by
  induction fuel generalizing l with
  | zero => omega
  | succ fuel ih =>
    rw [listSortLoop]
    split_ifs with hmore
    · have hcount := sortPass_count less (le_refl l.length)
      have hle := runCount_sortPass_le h (le_refl l.length)
      exact ih (by omega)
    · exact inOrder_sortPass h (le_refl _) (by omega)

/-- **Sorting permutes the list.** -/
theorem listSort_perm (less : α → α → Bool) (l : List α) : (listSort less l).Perm l :=
  listSortLoop_perm less _ l

/-- **Sorting puts the list in order**, whatever its length: the fuel never runs out. -/
theorem listSort_inOrder (h : StrictWeakOrder less) (l : List α) : InOrder less (listSort less l) :=
  inOrder_listSortLoop h (Nat.lt_succ_of_le (runCount_le_length less l))

/-! ### Stability -/

/-- Neither of `a` and `b` precedes the other. -/
def equivalent (less : α → α → Bool) (a b : α) : Bool := !less a b && !less b a

theorem equivalent_iff {b : α} :
    equivalent less a b = true ↔ less a b = false ∧ less b a = false := by
  simp [equivalent]

/-- If an element equivalent to `c` precedes the head of an ordered list, no element of that
list is equivalent to `c`. -/
theorem filter_equivalent_eq_nil (h : StrictWeakOrder less) {b c : α} {as : List α}
    (has : InOrder less (a :: as)) (hba : less b a = true) (hcb : equivalent less c b = true) :
    (a :: as).filter (equivalent less c) = [] := by
  refine filter_eq_nil_iff.mpr fun x hx hcx => ?_
  obtain ⟨-, hbc⟩ := equivalent_iff.mp hcb
  obtain ⟨hcx, -⟩ := equivalent_iff.mp hcx
  have hxa : less x a = false := by
    rcases mem_cons.mp hx with rfl | hx
    · exact h.irrefl x
    · exact (pairwise_cons.mp has).1 x hx
  have hba' := h.negTrans _ _ _ (h.negTrans _ _ _ hbc hcx) hxa
  rw [hba] at hba'
  cases hba'

/-- Merging keeps the order of equivalent elements, those of the first run first. -/
theorem inplaceMerge_stable (h : StrictWeakOrder less) {as : List α} (has : InOrder less as)
    (bs : List α) (c : α) :
    (inplaceMerge less as bs).filter (equivalent less c) =
      as.filter (equivalent less c) ++ bs.filter (equivalent less c) := by
  induction as generalizing bs with
  | nil => rfl
  | cons a as ih =>
    have hsplit : bs.takeWhile (fun b => less b a) ++ bs.dropWhile (fun b => less b a) = bs :=
      takeWhile_append_dropWhile
    have hfirst : bs.filter (equivalent less c) =
        (bs.takeWhile fun b => less b a).filter (equivalent less c) ++
          (bs.dropWhile fun b => less b a).filter (equivalent less c) := by
      rw [← filter_append, hsplit]
    rw [inplaceMerge, filter_append, filter_cons, ih (pairwise_cons.mp has).2,
      hfirst]
    cases htaken : (bs.takeWhile fun b => less b a).filter (equivalent less c) with
    | nil => rw [nil_append, nil_append, filter_cons]; split <;> rfl
    | cons b taken =>
      -- an element overtakes the first run, which then has none equivalent to it
      have hb : b ∈ (bs.takeWhile fun b => less b a).filter (equivalent less c) := by
        rw [htaken]
        exact mem_cons_self ..
      obtain ⟨hmem, hcb⟩ := mem_filter.mp hb
      have hba : less b a = true := all_eq_true.mp all_takeWhile b hmem
      have hnil := filter_equivalent_eq_nil h has hba hcb
      rw [hnil]
      rw [filter_cons] at hnil
      split at hnil
      · cases hnil
      · rename_i hca
        rw [if_neg hca, hnil]
        rfl

/-- A pass keeps the order of equivalent elements. -/
theorem sortPass_stable (h : StrictWeakOrder less) (fuel : ℕ) (l : List α) (c : α) :
    (sortPass less fuel l).1.filter (equivalent less c) = l.filter (equivalent less c) := by
  induction fuel generalizing l with
  | zero => rfl
  | succ fuel ih =>
    cases l with
    | nil => rfl
    | cons a l =>
      have happ := findEndOfRun_append less a l
      have hrun := inOrder_findEndOfRun h a l
      rw [sortPass]
      split
      · rename_i r₁ hr
        rw [hr, append_nil] at happ
        rw [happ]
      · rename_i r₁ b l' hr
        rw [hr] at happ hrun
        rw [filter_append, inplaceMerge_stable h hrun, ih, append_assoc,
          ← filter_append, findEndOfRun_append, ← filter_append, happ]

theorem listSortLoop_stable (h : StrictWeakOrder less) (fuel : ℕ) (l : List α) (c : α) :
    (listSortLoop less fuel l).filter (equivalent less c) = l.filter (equivalent less c) := by
  induction fuel generalizing l with
  | zero => rfl
  | succ fuel ih =>
    rw [listSortLoop]
    split
    · rw [ih, sortPass_stable h]
    · exact sortPass_stable h _ l c

/-- **Sorting is stable**: the elements equivalent to any given one keep their order. -/
theorem listSort_stable (h : StrictWeakOrder less) (l : List α) (c : α) :
    (listSort less l).filter (equivalent less c) = l.filter (equivalent less c) :=
  listSortLoop_stable h _ l c

/-- The elements of an equivalence class, however it is given, keep their order. -/
theorem listSort_filter (h : StrictWeakOrder less) {p : α → Bool}
    (hp : ∀ a b, p a = true → p b = equivalent less a b) :
    (listSort less l).filter p = l.filter p := by
  by_cases hnone : ∀ a ∈ l, p a = false
  · have hnil : ∀ m : List α, m.Perm l → m.filter p = [] := by
      intro m hm
      refine filter_eq_nil_iff.mpr fun a ha => ?_
      rw [hnone a (hm.mem_iff.mp ha)]
      exact Bool.false_ne_true
    rw [hnil l (List.Perm.refl l), hnil _ (listSort_perm less l)]
  · push Not at hnone
    obtain ⟨a, -, ha⟩ := hnone
    have heq : p = equivalent less a := funext fun b => hp a b (by simpa using ha)
    rw [heq, listSort_stable h]

end Pintos
