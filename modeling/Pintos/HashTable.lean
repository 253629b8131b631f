import Mathlib.Data.List.Flatten
import Mathlib.Data.List.Pairwise
import Mathlib.Data.List.Perm.Basic
import Mathlib.Data.Nat.Log
import Mathlib.Data.Nat.Bitwise
import Pintos.KernelList

/-!
# Hash Tables

The hash table of `lib/kernel/hash.c`: an array of lists, whose number is a power of two, and the
list that an element is in is given by the lowest bits of its hash value. After an operation the
number of lists is adapted to the number of elements, unless there is no memory for a new array.
The elements are then moved to the new lists one after the other.

The table is generic in its elements, its hash function and its comparison, as in the source. An
element stands for the object that it is embedded in, so that two of them are the same if they
are the same object.

## Conventions

* Every operation allocates memory at most once; `granted` says whether there is some.
* Elements are objects in memory, so that their number does not overflow.

## Main results

* `newBucketCnt_eq`: the number of lists that `rehash` chooses, and that its loop ends.
* `Hash.Inv.insertElem`, `Hash.Inv.removeElem`, `Hash.Inv.rehash`: what the operations are made of
  keeps every element in its list.
* `Hash.Inv.findElem_eq_some`: looking in one list is enough.
-/

namespace Pintos

open List

variable {α : Type}

/-- `struct hash`, without the functions. -/
structure Hash (α : Type) where
  elemCnt : ℕ
  bucketCnt : ℕ
  buckets : List (List α)

/-- What a hash table is initialised with: `hash` and `less`. -/
structure HashFuns (α : Type) where
  hash : α → UInt32
  less : α → α → Bool

/-- `turn_off_least_1bit`. -/
def turnOffLeast1bit (x : ℕ) : ℕ := x &&& (x - 1)

/-- `is_power_of_2`. -/
def isPowerOf2 (x : ℕ) : Bool := x ≠ 0 ∧ turnOffLeast1bit x = 0

/-- The loop of `rehash` that turns bits off. -/
def roundDown : (fuel : ℕ) → (x : ℕ) → Option ℕ
  | 0, _ => none
  | fuel + 1, x => if isPowerOf2 x then some x else roundDown fuel (turnOffLeast1bit x)

/-- How many lists `rehash` wants to have. -/
def newBucketCnt (elemCnt : ℕ) : Option ℕ :=
  let cnt := elemCnt / 2
  let cnt := if cnt < 4 then 4 else cnt
  roundDown (cnt + 1) cnt

namespace Hash

variable (f : HashFuns α)

/-- The index of `find_bucket`. -/
def bucketIdx (bucketCnt : ℕ) (e : α) : ℕ := (f.hash e).toNat &&& (bucketCnt - 1)

/-- `find_elem`, in the list of `find_bucket`. -/
def findElem (h : Hash α) (e : α) : Option α :=
  (h.buckets.getD (bucketIdx f h.bucketCnt e) []).find? fun hi => !f.less hi e && !f.less e hi

/-- `insert_elem`, into the list of `find_bucket`. -/
def insertElem (h : Hash α) (e : α) : Hash α :=
  { h with
    elemCnt := h.elemCnt + 1
    buckets := h.buckets.modify (bucketIdx f h.bucketCnt e) (e :: ·) }

/-- `remove_elem`: the element is taken from the list that it is in. -/
def removeElem [DecidableEq α] (h : Hash α) (e : α) : Hash α :=
  { h with elemCnt := h.elemCnt - 1, buckets := h.buckets.map (·.erase e) }

/-- The loop of `rehash` that moves the elements of an old list to the new lists. -/
def moveBucket (bucketCnt : ℕ) : (old : List α) → (new : List (List α)) → List (List α)
  | [], new => new
  | e :: old, new => moveBucket bucketCnt old (new.modify (bucketIdx f bucketCnt e) (e :: ·))

/-- The loop of `rehash` over the old lists. -/
def moveBuckets (bucketCnt : ℕ) : (old : List (List α)) → (new : List (List α)) → List (List α)
  | [], new => new
  | l :: old, new => moveBuckets bucketCnt old (moveBucket f bucketCnt l new)

/-- `rehash`; there is no result if its first loop does not end. -/
def rehash (h : Hash α) (granted : Bool) : Option (Hash α) := do
  let cnt ← newBucketCnt h.elemCnt
  if cnt = h.bucketCnt then
    return h
  else if granted = false then
    return h
  else
    return { h with
      bucketCnt := cnt
      buckets := moveBuckets f cnt h.buckets (List.replicate cnt []) }

/-- `hash_clear`: the elements that the destructor is called for, and the table. -/
def clear (h : Hash α) (destructor : Bool) : List α × Hash α :=
  (if destructor then h.buckets.flatten else [], { h with
    elemCnt := 0
    buckets := h.buckets.map fun _ => [] })

/-- `hash_init`, if there is memory for the lists. -/
def init : Hash α := ((⟨0, 4, List.replicate 4 []⟩ : Hash α).clear false).2

/-- `hash_insert`. -/
def insert (h : Hash α) (new : α) (granted : Bool) : Option (Option α × Hash α) := do
  let old := h.findElem f new
  let h := if old.isNone then h.insertElem f new else h
  let h ← h.rehash f granted
  return (old, h)

/-- `hash_replace`. -/
def replace [DecidableEq α] (h : Hash α) (new : α) (granted : Bool) :
    Option (Option α × Hash α) := do
  let old := h.findElem f new
  let h := match old with
    | some old => h.removeElem old
    | none => h
  let h := h.insertElem f new
  let h ← h.rehash f granted
  return (old, h)

/-- `hash_delete`. -/
def delete [DecidableEq α] (h : Hash α) (e : α) (granted : Bool) :
    Option (Option α × Hash α) :=
  match h.findElem f e with
  | none => return (none, h)
  | some found => do
    let h ← (h.removeElem found).rehash f granted
    return (some found, h)

/-! ### Iterators -/

/-- What `elem` of an iterator is: the head of a list, an element, or null. -/
inductive Cursor (α : Type) where
  | head
  | elem (a : α)
  | null

/-- `struct hash_iterator`, without the table. -/
structure Iterator (α : Type) where
  bucket : ℕ
  elem : Cursor α

/-- What follows in a list. -/
def after [DecidableEq α] (l : List α) : Cursor α → List α
  | .head => l
  | .elem a => (l.dropWhile (· ≠ a)).tail
  | .null => []

/-- `hash_first`. -/
def first : Iterator α := ⟨0, .head⟩

/-- The loop of `hash_next`: `elem` is the next element of the list, unless it is its end. -/
def nextLoop (h : Hash α) : (fuel bucket : ℕ) → (elem : Option α) → Iterator α
  | _, bucket, some a => ⟨bucket, .elem a⟩
  | 0, bucket, none => ⟨bucket, .null⟩
  | fuel + 1, bucket, none =>
    if h.bucketCnt ≤ bucket + 1 then ⟨bucket + 1, .null⟩
    else h.nextLoop fuel (bucket + 1) (h.buckets.getD (bucket + 1) []).head?

/-- `hash_next`. -/
def next [DecidableEq α] (h : Hash α) (i : Iterator α) : Iterator α :=
  h.nextLoop h.bucketCnt i.bucket (after (h.buckets.getD i.bucket []) i.elem).head?

/-- The elements that an iteration visits, if it ends. -/
def iterate [DecidableEq α] (h : Hash α) : (fuel : ℕ) → Iterator α → Option (List α)
  | 0, _ => none
  | fuel + 1, i =>
    match (h.next i).elem with
    | .elem a => (h.iterate fuel (h.next i)).map (a :: ·)
    | _ => some []

end Hash

/-! ### The number of lists -/

/-- A number that is not a power of two keeps its highest bit when the lowest one is turned off. -/
theorem le_turnOffLeast1bit {x k : ℕ} (hlo : 2 ^ k < x) (hhi : x < 2 ^ (k + 1)) :
    2 ^ k ≤ turnOffLeast1bit x ∧ turnOffLeast1bit x < x := by
  have hbit : ∀ {y}, 2 ^ k ≤ y → y < 2 ^ (k + 1) → y.testBit k = true := by
    intro y h₁ h₂
    rw [Nat.testBit_eq_decide_div_mod_eq, decide_eq_true_eq]
    have hdiv : y / 2 ^ k = 1 := Nat.div_eq_of_lt_le (by omega) (by rw [Nat.pow_succ] at h₂; omega)
    rw [hdiv]
  constructor
  · refine Nat.ge_two_pow_of_testBit ?_
    rw [turnOffLeast1bit, Nat.testBit_and, hbit (by omega) hhi, hbit (by omega) (by omega)]
    rfl
  · have := Nat.and_le_right (n := x) (m := x - 1)
    rw [turnOffLeast1bit]
    omega

theorem isPowerOf2_two_pow (k : ℕ) : isPowerOf2 (2 ^ k) = true := by
  rw [isPowerOf2, decide_eq_true_eq, turnOffLeast1bit, Nat.and_two_pow_sub_one_eq_mod,
    Nat.mod_self]
  exact ⟨Nat.ne_of_gt (Nat.two_pow_pos k), rfl⟩

/-- **The loop ends** with the highest bit. -/
theorem roundDown_eq {fuel x k : ℕ} (hfuel : x < fuel) (hlo : 2 ^ k ≤ x) (hhi : x < 2 ^ (k + 1)) :
    roundDown fuel x = some (2 ^ k) := by
  induction fuel generalizing x with
  | zero => omega
  | succ fuel ih =>
    rw [roundDown]
    rcases Nat.eq_or_lt_of_le hlo with rfl | hlt
    · rw [if_pos (isPowerOf2_two_pow k)]
    · obtain ⟨hle, hlt'⟩ := le_turnOffLeast1bit hlt hhi
      have hnot : ¬isPowerOf2 x = true := by
        rw [isPowerOf2, decide_eq_true_eq]
        omega
      rw [if_neg hnot]
      exact ih (by omega) hle (by omega)

/-- **The number of lists** that `rehash` chooses. -/
theorem newBucketCnt_eq (elemCnt : ℕ) :
    ∃ k, 2 ≤ k ∧ newBucketCnt elemCnt = some (2 ^ k) := by
  rw [newBucketCnt]
  generalize hcnt : (if elemCnt / 2 < 4 then 4 else elemCnt / 2) = cnt
  have hge : 4 ≤ cnt := by
    rw [← hcnt]
    split <;> omega
  refine ⟨Nat.log 2 cnt, ?_, roundDown_eq (Nat.lt_succ_self cnt) ?_ ?_⟩
  · exact (Nat.le_log_iff_pow_le (by decide) (by omega)).mpr hge
  · exact Nat.pow_log_le_self 2 (by omega)
  · exact Nat.lt_pow_succ_log_self (by decide) cnt

/-! ### Equivalent elements -/

namespace HashFuns

/-- Neither element is less than the other. -/
def Equiv (f : HashFuns α) (a b : α) : Prop := f.less a b = false ∧ f.less b a = false

/-- **The functions that a hash table may be given**: a strict weak order, and a hash function that
does not distinguish equivalent elements. -/
structure Lawful (f : HashFuns α) : Prop where
  order : StrictWeakOrder f.less
  hash : ∀ a b, f.Equiv a b → f.hash a = f.hash b

variable {f : HashFuns α} {a b c : α}

theorem Equiv.symm (h : f.Equiv a b) : f.Equiv b a := ⟨h.2, h.1⟩

theorem Lawful.refl (hf : f.Lawful) (a : α) : f.Equiv a a :=
  ⟨hf.order.irrefl a, hf.order.irrefl a⟩

theorem Lawful.trans (hf : f.Lawful) (h : f.Equiv a b) (h' : f.Equiv b c) : f.Equiv a c :=
  ⟨hf.order.negTrans a b c h.1 h'.1, hf.order.negTrans c b a h'.2 h.2⟩

end HashFuns

/-! ### Lists of lists -/

namespace Hash

section

variable {buckets : List (List α)} {i : ℕ} {e : α}

/-- An element is put into one of the lists. -/
theorem flatten_modify (hi : i < buckets.length) :
    (buckets.modify i (e :: ·)).flatten.Perm (e :: buckets.flatten) := by
  induction buckets generalizing i with
  | nil => exact absurd hi (Nat.not_lt_zero i)
  | cons l buckets ih =>
    cases i with
    | zero => exact List.Perm.refl _
    | succ i =>
      rw [modify_succ_cons, flatten_cons, flatten_cons]
      exact ((ih (Nat.lt_of_succ_lt_succ hi)).append_left l).trans perm_middle

/-- An element is taken from the list that it is in. -/
theorem flatten_erase [DecidableEq α] (hnodup : buckets.flatten.Nodup) :
    (buckets.map (·.erase e)).flatten.Perm (buckets.flatten.erase e) := by
  have hsub : (buckets.map (·.erase e)).flatten.Sublist buckets.flatten := by
    induction buckets with
    | nil => exact List.Sublist.refl _
    | cons l buckets ih =>
      rw [flatten_cons, nodup_append] at hnodup
      rw [map_cons, flatten_cons, flatten_cons]
      exact erase_sublist.append (ih hnodup.2.1)
  refine (perm_ext_iff_of_nodup (hnodup.sublist hsub) (hnodup.erase e)).mpr fun a => ?_
  rw [hnodup.mem_erase_iff, mem_flatten, mem_flatten]
  constructor
  · rintro ⟨l', hl', ha⟩
    obtain ⟨l, hl, rfl⟩ := mem_map.mp hl'
    have hlnodup : l.Nodup := (nodup_flatten.mp hnodup).1 l hl
    rw [hlnodup.mem_erase_iff] at ha
    exact ⟨ha.1, l, hl, ha.2⟩
  · rintro ⟨hne, l, hl, ha⟩
    exact ⟨l.erase e, mem_map_of_mem hl, (mem_erase_of_ne hne).mpr ha⟩

end

/-! ### The invariant -/

variable (f : HashFuns α)

/-- The elements of a table. -/
def elems (h : Hash α) : List α := h.buckets.flatten

/-- Every element is in its list. -/
def Placed (bucketCnt : ℕ) (buckets : List (List α)) : Prop :=
  ∀ i l, buckets[i]? = some l → ∀ a ∈ l, bucketIdx f bucketCnt a = i

/-- **The invariant of a hash table.** -/
structure Inv (h : Hash α) : Prop where
  pow : ∃ k, 2 ≤ k ∧ h.bucketCnt = 2 ^ k
  length : h.buckets.length = h.bucketCnt
  placed : Placed f h.bucketCnt h.buckets
  distinct : h.elems.Pairwise fun a b => ¬f.Equiv a b
  count : h.elemCnt = h.elems.length

variable {f} {h : Hash α} {a e : α}

theorem bucketIdx_lt (f : HashFuns α) (k : ℕ) (e : α) : bucketIdx f (2 ^ k) e < 2 ^ k := by
  rw [bucketIdx, Nat.and_two_pow_sub_one_eq_mod]
  exact Nat.mod_lt _ (Nat.two_pow_pos k)

theorem Inv.bucketIdx_lt (hh : h.Inv f) (e : α) :
    bucketIdx f h.bucketCnt e < h.buckets.length := by
  obtain ⟨k, -, hk⟩ := hh.pow
  rw [hh.length, hk]
  exact Hash.bucketIdx_lt f k e

theorem nodup_of_distinct (hf : f.Lawful) {l : List α}
    (hl : l.Pairwise fun a b => ¬f.Equiv a b) : l.Nodup :=
  hl.imp fun {a b} hab heq => hab (by rw [heq]; exact hf.refl b)

theorem Inv.nodup (hf : f.Lawful) (hh : h.Inv f) : h.elems.Nodup :=
  nodup_of_distinct hf hh.distinct

/-- Equivalent elements of a table are the same. -/
theorem Inv.eq_of_equiv (hh : h.Inv f) {b : α} (ha : a ∈ h.elems) (hb : b ∈ h.elems)
    (hab : f.Equiv a b) : a = b := by
  have : Std.Symm fun a b => ¬f.Equiv a b := ⟨fun _ _ hab' hba => hab' hba.symm⟩
  by_contra hne
  exact hh.distinct.forall ha hb hne hab

/-- An element is in the list that `find_bucket` gives for it. -/
theorem Inv.mem_bucket (hh : h.Inv f) :
    a ∈ h.buckets.getD (bucketIdx f h.bucketCnt e) [] ↔
      a ∈ h.elems ∧ bucketIdx f h.bucketCnt a = bucketIdx f h.bucketCnt e := by
  have hlt := hh.bucketIdx_lt e
  rw [getD_eq_getElem?_getD, getElem?_eq_getElem hlt, Option.getD_some, elems]
  constructor
  · intro ha
    exact ⟨mem_flatten_of_mem (getElem_mem hlt) ha,
      hh.placed _ _ (getElem?_eq_getElem hlt) a ha⟩
  · rintro ⟨ha, hidx⟩
    obtain ⟨l, hl, hal⟩ := mem_flatten.mp ha
    obtain ⟨i, hi, rfl⟩ := getElem_of_mem hl
    have hi' := hh.placed i _ (getElem?_eq_getElem hi) a hal
    simp only [← hidx, hi']
    exact hal

/-- **What is found** is the element of the table that is equivalent. -/
theorem Inv.findElem_eq_some (hf : f.Lawful) (hh : h.Inv f) :
    h.findElem f e = some a ↔ a ∈ h.elems ∧ f.Equiv a e := by
  constructor
  · intro hfind
    have hmem := hh.mem_bucket.mp (mem_of_find?_eq_some hfind)
    have heq := find?_some hfind
    rw [Bool.and_eq_true, Bool.not_eq_true', Bool.not_eq_true'] at heq
    exact ⟨hmem.1, heq⟩
  · rintro ⟨ha, hae⟩
    have hidx : bucketIdx f h.bucketCnt a = bucketIdx f h.bucketCnt e := by
      rw [bucketIdx, bucketIdx, hf.hash a e hae]
    have hmem := hh.mem_bucket.mpr ⟨ha, hidx⟩
    cases hfind : h.findElem f e with
    | none =>
      have hnot := find?_eq_none.mp hfind a hmem
      rw [Bool.and_eq_true, Bool.not_eq_true', Bool.not_eq_true'] at hnot
      exact absurd hae hnot
    | some b =>
      have hb := hh.mem_bucket.mp (mem_of_find?_eq_some hfind)
      have hbe := find?_some hfind
      rw [Bool.and_eq_true, Bool.not_eq_true', Bool.not_eq_true'] at hbe
      exact congrArg some (hh.eq_of_equiv hb.1 ha (hf.trans hbe hae.symm))

theorem Inv.findElem_eq_none (hf : f.Lawful) (hh : h.Inv f) :
    h.findElem f e = none ↔ ∀ a ∈ h.elems, ¬f.Equiv a e := by
  rw [Option.eq_none_iff_forall_ne_some]
  constructor
  · exact fun hnone a ha hae => hnone a ((hh.findElem_eq_some hf).mpr ⟨ha, hae⟩)
  · exact fun hall a hfind => hall a ((hh.findElem_eq_some hf).mp hfind).1
      ((hh.findElem_eq_some hf).mp hfind).2

/-! ### Inserting and removing -/

theorem Placed.modify {bucketCnt : ℕ} {buckets : List (List α)} (hp : Placed f bucketCnt buckets)
    (e : α) : Placed f bucketCnt (buckets.modify (bucketIdx f bucketCnt e) (e :: ·)) := by
  intro i l hl a ha
  rw [getElem?_modify] at hl
  obtain ⟨l₀, hl₀, rfl⟩ := Option.map_eq_some_iff.mp hl
  by_cases hi : bucketIdx f bucketCnt e = i
  · rw [if_pos hi] at ha
    rcases mem_cons.mp ha with rfl | ha
    · exact hi
    · exact hp i l₀ hl₀ a ha
  · rw [if_neg hi] at ha
    exact hp i l₀ hl₀ a ha

/-- **An element is inserted** that is not equivalent to any. -/
theorem Inv.insertElem (hh : h.Inv f) (hnew : ∀ a ∈ h.elems, ¬f.Equiv a e) :
    (h.insertElem f e).Inv f ∧ (h.insertElem f e).elems.Perm (e :: h.elems) := by
  have hperm : (h.insertElem f e).elems.Perm (e :: h.elems) :=
    flatten_modify (hh.bucketIdx_lt e)
  refine ⟨⟨hh.pow, ?_, hh.placed.modify e, ?_, ?_⟩, hperm⟩
  · rw [Hash.insertElem, length_modify, hh.length]
  · refine (hperm.pairwise_iff fun hab hba => hab hba.symm).mpr ?_
    exact pairwise_cons.mpr ⟨fun a ha hea => hnew a ha hea.symm, hh.distinct⟩
  · rw [hperm.length_eq, length_cons, ← hh.count]
    rfl

/-- **An element is removed.** -/
theorem Inv.removeElem [DecidableEq α] (hf : f.Lawful) (hh : h.Inv f) (he : e ∈ h.elems) :
    (h.removeElem e).Inv f ∧ (h.removeElem e).elems.Perm (h.elems.erase e) := by
  have hperm : (h.removeElem e).elems.Perm (h.elems.erase e) := flatten_erase (hh.nodup hf)
  refine ⟨⟨hh.pow, ?_, fun i l hl a ha => ?_, ?_, ?_⟩, hperm⟩
  · rw [Hash.removeElem, length_map, hh.length]
  · rw [Hash.removeElem, getElem?_map] at hl
    obtain ⟨l₀, hl₀, rfl⟩ := Option.map_eq_some_iff.mp hl
    exact hh.placed i l₀ hl₀ a (mem_of_mem_erase ha)
  · refine (hperm.pairwise_iff fun hab hba => hab hba.symm).mpr ?_
    exact hh.distinct.sublist erase_sublist
  · rw [hperm.length_eq, length_erase_of_mem he, ← hh.count]
    rfl

/-! ### Moving the elements -/

/-- The elements of one list are moved. -/
theorem moveBucket_spec {k : ℕ} (old : List α) {new : List (List α)} (hlength : new.length = 2 ^ k)
    (hplaced : Placed f (2 ^ k) new) :
    (moveBucket f (2 ^ k) old new).length = 2 ^ k ∧
      Placed f (2 ^ k) (moveBucket f (2 ^ k) old new) ∧
      (moveBucket f (2 ^ k) old new).flatten.Perm (old ++ new.flatten) := by
  induction old generalizing new with
  | nil => exact ⟨hlength, hplaced, List.Perm.refl _⟩
  | cons e old ih =>
    have hlt : bucketIdx f (2 ^ k) e < new.length := by
      rw [hlength]
      exact Hash.bucketIdx_lt f k e
    have hperm := flatten_modify (e := e) hlt
    obtain ⟨h₁, h₂, h₃⟩ := ih (by rw [length_modify, hlength]) (hplaced.modify e)
    refine ⟨h₁, h₂, h₃.trans ?_⟩
    exact (hperm.append_left old).trans perm_middle

/-- The elements of all lists are moved. -/
theorem moveBuckets_spec {k : ℕ} (old : List (List α)) {new : List (List α)}
    (hlength : new.length = 2 ^ k) (hplaced : Placed f (2 ^ k) new) :
    (moveBuckets f (2 ^ k) old new).length = 2 ^ k ∧
      Placed f (2 ^ k) (moveBuckets f (2 ^ k) old new) ∧
      (moveBuckets f (2 ^ k) old new).flatten.Perm (old.flatten ++ new.flatten) := by
  induction old generalizing new with
  | nil => exact ⟨hlength, hplaced, List.Perm.refl _⟩
  | cons l old ih =>
    obtain ⟨hlength', hplaced', hperm⟩ := moveBucket_spec l hlength hplaced
    obtain ⟨h₁, h₂, h₃⟩ := ih hlength' hplaced'
    refine ⟨h₁, h₂, h₃.trans ?_⟩
    rw [flatten_cons, append_assoc]
    exact (hperm.append_left _).trans (perm_append_comm_assoc _ _ _)

theorem Placed.replicate (f : HashFuns α) (bucketCnt n : ℕ) :
    Placed f bucketCnt (replicate n []) := by
  intro i l hl a ha
  rw [getElem?_replicate] at hl
  split at hl
  · obtain rfl := Option.some.inj hl
    cases ha
  · cases hl

/-- **`rehash` ends, and neither loses nor duplicates elements.** -/
theorem Inv.rehash (hh : h.Inv f) (granted : Bool) :
    ∃ h', h.rehash f granted = some h' ∧ h'.Inv f ∧ h'.elems.Perm h.elems := by
  obtain ⟨k, hk, hcnt⟩ := newBucketCnt_eq h.elemCnt
  rw [Hash.rehash, hcnt, Option.bind_eq_bind, Option.bind_some]
  split
  · exact ⟨h, rfl, hh, List.Perm.refl _⟩
  split
  · exact ⟨h, rfl, hh, List.Perm.refl _⟩
  · obtain ⟨hlength, hplaced, hperm⟩ := moveBuckets_spec h.buckets length_replicate
      (Placed.replicate f (2 ^ k) (2 ^ k))
    have hempty : (replicate (2 ^ k) ([] : List α)).flatten = [] := by
      rw [flatten_eq_nil_iff]
      exact fun l hl => eq_of_mem_replicate hl
    rw [hempty, append_nil] at hperm
    refine ⟨_, rfl, ⟨⟨k, hk, rfl⟩, hlength, hplaced, ?_, ?_⟩, hperm⟩
    · exact (hperm.pairwise_iff fun hab hba => hab hba.symm).mpr hh.distinct
    · exact hh.count.trans hperm.length_eq.symm

/-- `hash_clear` makes the table empty, and its destructor gets every element once. -/
theorem Inv.clear (hh : h.Inv f) (destructor : Bool) :
    (h.clear destructor).2.Inv f ∧ (h.clear destructor).2.elems = [] ∧
      (destructor = true → (h.clear destructor).1 = h.elems) := by
  have hempty : (h.clear destructor).2.elems = [] := by
    rw [elems, flatten_eq_nil_iff]
    rintro l hl
    obtain ⟨-, -, rfl⟩ := mem_map.mp hl
    rfl
  refine ⟨⟨hh.pow, ?_, fun i l hl a ha => ?_, ?_, ?_⟩, hempty, ?_⟩
  · rw [Hash.clear, length_map, hh.length]
  · rw [Hash.clear, getElem?_map] at hl
    obtain ⟨-, -, rfl⟩ := Option.map_eq_some_iff.mp hl
    cases ha
  · rw [hempty]
    exact List.Pairwise.nil
  · rw [hempty]
    rfl
  · rintro rfl
    rfl

theorem Inv.init (f : HashFuns α) : (Hash.init : Hash α).Inv f := by
  have hempty : (⟨0, 4, replicate 4 []⟩ : Hash α).Inv f :=
    ⟨⟨2, le_rfl, rfl⟩, rfl, Placed.replicate f 4 4, List.Pairwise.nil, rfl⟩
  exact (hempty.clear false).1

end Hash

end Pintos
