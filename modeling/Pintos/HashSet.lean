import Mathlib.Data.Finset.Dedup
import Mathlib.Data.Finset.Card
import Pintos.HashTable
import Pintos.KeyedSet

/-!
# The Hash Table as a Set

What a hash table is for is a finite set no two elements of which are equivalent. Every operation
returns what the operation on the set returns, whether or not there is memory for new lists, and an
iteration visits every element of the set once.

## Main results

* `Hash.next_spec`, `Hash.iterate_eq`: an iteration visits the elements one after the other.
* `Hash.Inv.step`: one operation does what it does to the set.
* `hash_refines_set`: so does every sequence of operations.
-/

namespace Pintos

open Verif List

variable {α : Type} [DecidableEq α] {f : HashFuns α} {h : Hash α}

namespace Hash

/-! ### Iterating -/

/-- What an iteration has before it. -/
def remaining (h : Hash α) (i : Iterator α) : List α :=
  after (h.buckets.getD i.bucket []) i.elem ++ (h.buckets.drop (i.bucket + 1)).flatten

/-- What follows an element in a list without duplicates. -/
theorem after_elem {l l₁ l₂ : List α} {a : α} (hl : l = l₁ ++ a :: l₂) (hnodup : l.Nodup) :
    after l (.elem a) = l₂ := by
  have hnot : ∀ b ∈ l₁, b ≠ a := by
    rw [hl, nodup_append] at hnodup
    exact fun b hb => hnodup.2.2 b hb a mem_cons_self
  rw [after, hl, dropWhile_append_of_pos (by simpa using hnot),
    dropWhile_cons_of_neg (by simp), tail_cons]

/-- What an iteration has before it at an element. -/
theorem remaining_elem (h : Hash α) (hnodup : h.elems.Nodup) {bucket : ℕ} {l₁ l₂ : List α} {a : α}
    (hl : h.buckets.getD bucket [] = l₁ ++ a :: l₂) :
    h.remaining ⟨bucket, .elem a⟩ = l₂ ++ (h.buckets.drop (bucket + 1)).flatten := by
  have hlt : bucket < h.buckets.length := by
    by_contra hge
    rw [getD_eq_getElem?_getD, getElem?_eq_none (Nat.le_of_not_lt hge)] at hl
    simp at hl
  have hmem : h.buckets.getD bucket [] ∈ h.buckets := by
    rw [getD_eq_getElem?_getD, getElem?_eq_getElem hlt]
    exact getElem_mem hlt
  rw [remaining, after_elem hl ((nodup_flatten.mp hnodup).1 _ hmem)]

/-- A step of an iteration that has `l` before it: the first element of `l` is visited, and the
others remain; or the iteration ends. -/
def Advances (h : Hash α) (i : Iterator α) : List α → Prop
  | [] => i.elem = .null
  | a :: rest => i.elem = .elem a ∧ h.remaining i = rest

/-- The loop of `hash_next` finds what comes next. -/
theorem nextLoop_spec (hlength : h.buckets.length = h.bucketCnt) (hnodup : h.elems.Nodup)
    {fuel bucket : ℕ} {l₁ l₂ : List α} (hfuel : h.bucketCnt ≤ bucket + fuel + 1)
    (hl : h.buckets.getD bucket [] = l₁ ++ l₂) :
    h.Advances (h.nextLoop fuel bucket l₂.head?)
      (l₂ ++ (h.buckets.drop (bucket + 1)).flatten) := by
  induction fuel generalizing bucket l₁ l₂ with
  | zero =>
    cases l₂ with
    | nil =>
      rw [drop_of_length_le (by omega)]
      exact rfl
    | cons a l₂ => exact ⟨rfl, h.remaining_elem hnodup hl⟩
  | succ fuel ih =>
    cases l₂ with
    | cons a l₂ => exact ⟨rfl, h.remaining_elem hnodup hl⟩
    | nil =>
      rw [head?_nil, nextLoop, nil_append]
      split_ifs with hlt
      · rw [drop_of_length_le (by omega)]
        exact rfl
      · have hnext : h.buckets.drop (bucket + 1) =
            h.buckets.getD (bucket + 1) [] :: h.buckets.drop (bucket + 1 + 1) := by
          rw [drop_eq_getElem_cons (by omega), getD_eq_getElem?_getD,
            getElem?_eq_getElem (by omega), Option.getD_some]
        rw [hnext, flatten_cons]
        exact ih (by omega) (nil_append _).symm

/-- **`hash_next`** visits what comes next. -/
theorem next_spec (hlength : h.buckets.length = h.bucketCnt) (hnodup : h.elems.Nodup)
    (i : Iterator α) : h.Advances (h.next i) (h.remaining i) := by
  have hsuffix : ∃ l₁, h.buckets.getD i.bucket [] =
      l₁ ++ after (h.buckets.getD i.bucket []) i.elem := by
    cases i.elem with
    | head => exact ⟨[], rfl⟩
    | null => exact ⟨_, (append_nil _).symm⟩
    | elem a =>
      have hdrop := dropWhile_suffix (· ≠ a) (l := h.buckets.getD i.bucket [])
      obtain ⟨l₁, hl₁⟩ := (tail_suffix _).trans hdrop
      exact ⟨l₁, hl₁.symm⟩
  obtain ⟨l₁, hl₁⟩ := hsuffix
  exact nextLoop_spec hlength hnodup (by omega) hl₁

/-- **An iteration visits the elements one after the other.** -/
theorem iterate_eq (hlength : h.buckets.length = h.bucketCnt) (hnodup : h.elems.Nodup)
    {fuel : ℕ} {i : Iterator α} (hfuel : (h.remaining i).length < fuel) :
    h.iterate fuel i = some (h.remaining i) := by
  induction fuel generalizing i with
  | zero => omega
  | succ fuel ih =>
    have hnext := next_spec hlength hnodup i
    rw [iterate]
    cases hrest : h.remaining i with
    | nil =>
      rw [hrest] at hnext
      rw [show (h.next i).elem = .null from hnext]
    | cons a rest =>
      rw [hrest] at hnext hfuel
      obtain ⟨helem, hremaining⟩ := hnext
      rw [helem]
      rw [ih (by rw [hremaining]; exact Nat.lt_of_succ_lt_succ hfuel), hremaining]
      rfl

end Hash

/-! ### Operations on sets -/

/-- An operation of a hash table; `granted` says whether there is memory for new lists. -/
inductive HashOp (α : Type) where
  | insert (new : α) (granted : Bool)
  | replace (new : α) (granted : Bool)
  | find (e : α)
  | delete (e : α) (granted : Bool)
  | clear (destructor : Bool)

/-- One operation: what it returns, and the table. -/
def Hash.step (f : HashFuns α) (h : Hash α) : HashOp α → Option (Option α × Hash α)
  | .insert new granted => h.insert f new granted
  | .replace new granted => h.replace f new granted
  | .find e => some (h.findElem f e, h)
  | .delete e granted => h.delete f e granted
  | .clear destructor => some (none, (h.clear destructor).2)

/-- A sequence of operations: what they return, and the table. -/
def Hash.run (f : HashFuns α) (h : Hash α) : List (HashOp α) → Option (List (Option α) × Hash α)
  | [] => some ([], h)
  | op :: ops => do
    let (res, h) ← h.step f op
    let (results, h) ← h.run f ops
    return (res :: results, h)

namespace HashOp

variable {r : Setoid α}

/-- **What the operations are for.** -/
noncomputable def onSet (s : KeyedSet α r) : HashOp α → Option α × KeyedSet α r
  | insert new _ => (s.find new, if (s.find new).isSome then s else s.put new)
  | replace new _ => (s.find new, s.put new)
  | find e => (s.find e, s)
  | delete e _ => (s.find e, s.remove e)
  | clear _ => (none, KeyedSet.empty r)

/-- A sequence of operations on a set. -/
noncomputable def runOnSet (s : KeyedSet α r) : List (HashOp α) → List (Option α) × KeyedSet α r
  | [] => ([], s)
  | op :: ops =>
    ((op.onSet s).1 :: (runOnSet (op.onSet s).2 ops).1, (runOnSet (op.onSet s).2 ops).2)

end HashOp

/-- The equivalence of a strict weak order. -/
def HashFuns.Lawful.setoid (hf : f.Lawful) : Setoid α :=
  ⟨f.Equiv, hf.refl, fun h => h.symm, fun h h' => hf.trans h h'⟩

namespace Hash

variable {hf : f.Lawful} {s : KeyedSet α hf.setoid}

/-- **The table represents the set.** -/
structure Represents (hf : f.Lawful) (h : Hash α) (s : KeyedSet α hf.setoid) : Prop where
  inv : h.Inv f
  mem : ∀ a, a ∈ h.elems ↔ a ∈ s.elems

/-- **What is right about a table** that represents a set. -/
structure Correct (hf : f.Lawful) (h : Hash α) (s : KeyedSet α hf.setoid) : Prop where
  /-- The number of lists is a power of two, and at least four. -/
  pow : ∃ k, 2 ≤ k ∧ h.bucketCnt = 2 ^ k ∧ h.buckets.length = 2 ^ k
  /-- Every element is in its list. -/
  placed : ∀ i l, h.buckets[i]? = some l → ∀ a ∈ l, (f.hash a).toNat &&& (h.bucketCnt - 1) = i
  /-- No two elements are equivalent. -/
  distinct : h.elems.Pairwise fun a b => ¬f.Equiv a b
  /-- The elements are those of the set, and their number is right. -/
  mem : ∀ a, a ∈ h.elems ↔ a ∈ s.elems
  count : h.elemCnt = s.elems.card
  /-- `rehash` ends, and neither loses nor duplicates elements. -/
  rehash : ∀ granted, ∃ h', h.rehash f granted = some h' ∧ h'.elems.Perm h.elems
  /-- An iteration visits every element of the set once. -/
  iterate : ∀ fuel, h.elemCnt < fuel → ∃ l, h.iterate fuel Hash.first = some l ∧ l.Nodup ∧
    ∀ a, a ∈ l ↔ a ∈ s.elems
  /-- So does the destructor of `hash_clear`. -/
  destroyed : (h.clear true).1.Nodup ∧ ∀ a, a ∈ (h.clear true).1 ↔ a ∈ s.elems

omit [DecidableEq α] in
theorem Represents.findElem (hr : h.Represents hf s) (e : α) : h.findElem f e = s.find e := by
  cases hfind : h.findElem f e with
  | none =>
    refine (KeyedSet.find_eq_none.mpr fun a ha => ?_).symm
    exact (hr.inv.findElem_eq_none hf).mp hfind a ((hr.mem a).mpr ha)
  | some a =>
    obtain ⟨ha, hae⟩ := (hr.inv.findElem_eq_some hf).mp hfind
    exact (KeyedSet.find_eq_some.mpr ⟨(hr.mem a).mp ha, hae⟩).symm

omit [DecidableEq α] in
/-- `rehash` leaves the set as it is. -/
theorem Represents.rehash (hr : h.Represents hf s) (granted : Bool) :
    ∃ h', h.rehash f granted = some h' ∧ h'.Represents hf s := by
  obtain ⟨h', hrun, hinv, hperm⟩ := hr.inv.rehash granted
  exact ⟨h', hrun, hinv, fun a => hperm.mem_iff.trans (hr.mem a)⟩

omit [DecidableEq α] in
/-- An element is put into a set that has none that is equivalent. -/
theorem Represents.insertElem {e : α} (hr : h.Represents hf s) (hnone : s.find e = none) :
    (h.insertElem f e).Represents hf (s.put e) := by
  have hnew := KeyedSet.find_eq_none.mp hnone
  obtain ⟨hinv, hperm⟩ := hr.inv.insertElem fun a ha => hnew a ((hr.mem a).mp ha)
  refine ⟨hinv, fun a => ?_⟩
  rw [hperm.mem_iff, mem_cons, KeyedSet.mem_put, hr.mem a]
  exact or_congr_right (and_iff_left_of_imp fun ha => hnew a ha).symm

/-- An element is removed from the set. -/
theorem Represents.removeElem {e old : α} (hr : h.Represents hf s) (hfind : s.find e = some old) :
    (h.removeElem old).Represents hf (s.remove e) := by
  obtain ⟨hold, hequiv⟩ := KeyedSet.find_eq_some.mp hfind
  obtain ⟨hinv, hperm⟩ := hr.inv.removeElem hf ((hr.mem old).mpr hold)
  refine ⟨hinv, fun a => ?_⟩
  rw [hperm.mem_iff, (hr.inv.nodup hf).mem_erase_iff, KeyedSet.mem_remove, hr.mem a, and_comm]
  refine and_congr_right fun ha => not_congr ⟨?_, fun hae => ?_⟩
  · rintro rfl
    exact hequiv
  · exact s.distinct a ha old hold (hf.setoid.trans hae (hf.setoid.symm hequiv))

/-- **One operation does what it does to the set.** -/
theorem Represents.step (hr : h.Represents hf s) (op : HashOp α) :
    ∃ h', h.step f op = some ((op.onSet s).1, h') ∧ h'.Represents hf (op.onSet s).2 := by
  cases op with
  | insert new granted =>
    rw [Hash.step, Hash.insert, hr.findElem, HashOp.onSet]
    cases hfind : s.find new with
    | none =>
      obtain ⟨h', hrun, hr'⟩ := (hr.insertElem hfind).rehash granted
      exact ⟨h', by simp [hrun], hr'⟩
    | some old =>
      obtain ⟨h', hrun, hr'⟩ := hr.rehash granted
      exact ⟨h', by simp [hrun], hr'⟩
  | replace new granted =>
    rw [Hash.step, Hash.replace, hr.findElem, HashOp.onSet]
    cases hfind : s.find new with
    | none =>
      obtain ⟨h', hrun, hr'⟩ := (hr.insertElem hfind).rehash granted
      exact ⟨h', by simp [hrun], hr'⟩
    | some old =>
      have hremoved := hr.removeElem hfind
      have hnone : (s.remove new).find new = none :=
        KeyedSet.find_eq_none.mpr fun a ha => (KeyedSet.mem_remove.mp ha).2
      obtain ⟨h', hrun, hr'⟩ := (hremoved.insertElem hnone).rehash granted
      have hput : (s.remove new).put new = s.put new := by
        ext a
        rw [KeyedSet.mem_put, KeyedSet.mem_put, KeyedSet.mem_remove, and_assoc, and_self]
      exact ⟨h', by simp [hrun], hput ▸ hr'⟩
  | find e => exact ⟨h, by rw [Hash.step, hr.findElem, HashOp.onSet], hr⟩
  | delete e granted =>
    rw [Hash.step, Hash.delete, hr.findElem, HashOp.onSet]
    cases hfind : s.find e with
    | none =>
      refine ⟨h, rfl, hr.inv, fun a => (hr.mem a).trans ?_⟩
      rw [KeyedSet.mem_remove]
      exact (and_iff_left_of_imp fun ha => KeyedSet.find_eq_none.mp hfind a ha).symm
    | some old =>
      obtain ⟨h', hrun, hr'⟩ := (hr.removeElem hfind).rehash granted
      exact ⟨h', by simp [hrun], hr'⟩
  | clear destructor =>
    obtain ⟨hinv, hempty, -⟩ := hr.inv.clear destructor
    refine ⟨_, rfl, hinv, fun a => ?_⟩
    rw [hempty]
    exact iff_of_false not_mem_nil (Finset.notMem_empty a)

/-- **A sequence of operations** does what it does to the set. -/
theorem Represents.run (hr : h.Represents hf s) (ops : List (HashOp α)) :
    ∃ h', h.run f ops = some ((HashOp.runOnSet s ops).1, h') ∧
      h'.Represents hf (HashOp.runOnSet s ops).2 := by
  induction ops generalizing h s with
  | nil => exact ⟨h, rfl, hr⟩
  | cons op ops ih =>
    obtain ⟨h₁, hstep, hr₁⟩ := hr.step op
    obtain ⟨h₂, hrun, hr₂⟩ := ih hr₁
    refine ⟨h₂, ?_, hr₂⟩
    rw [Hash.run, hstep, Option.bind_eq_bind, Option.bind_some]
    dsimp only
    rw [hrun]
    rfl

/-- **A table that represents a set is right.** -/
theorem Represents.correct (hr : h.Represents hf s) : h.Correct hf s := by
  have hnodup := hr.inv.nodup hf
  have hremaining : h.remaining Hash.first = h.elems := by
    rw [remaining, Hash.first, after, elems]
    obtain ⟨k, hk, hcnt⟩ := hr.inv.pow
    have hpos : 0 < h.buckets.length := by
      rw [hr.inv.length, hcnt]
      exact Nat.two_pow_pos k
    rw [getD_eq_getElem?_getD, getElem?_eq_getElem hpos, Option.getD_some,
      ← flatten_cons, ← drop_eq_getElem_cons hpos, drop_zero]
  have hcard : s.elems = h.elems.toFinset := by
    ext a
    rw [mem_toFinset, hr.mem a]
  obtain ⟨k, hk, hcnt⟩ := hr.inv.pow
  refine ⟨⟨k, hk, hcnt, hr.inv.length.trans hcnt⟩, hr.inv.placed, hr.inv.distinct, hr.mem, ?_,
    fun granted => ?_, fun fuel hfuel => ⟨h.elems, ?_, hnodup, hr.mem⟩, hnodup, hr.mem⟩
  · rw [hcard, toFinset_card_of_nodup hnodup, hr.inv.count]
  · obtain ⟨h', hrun, -, hperm⟩ := hr.inv.rehash granted
    exact ⟨h', hrun, hperm⟩
  · rw [iterate_eq hr.inv.length hnodup (by rw [hremaining, ← hr.inv.count]; exact hfuel),
      hremaining]

omit [DecidableEq α] in
theorem Represents.init (hf : f.Lawful) :
    (Hash.init : Hash α).Represents hf (KeyedSet.empty hf.setoid) :=
  ⟨Inv.init f, fun a => iff_of_false (by simp [elems, Hash.init, Hash.clear])
    (Finset.notMem_empty a)⟩

end Hash

/-- **The hash table refines a finite set** keyed by its order: for every hash function and every
order that it respects, every sequence of operations returns what it returns for the set, and
leaves a table about which all is right. -/
theorem hash_refines_set {f : HashFuns α} (hf : f.Lawful) (ops : List (HashOp α)) :
    ∃ h, Hash.init.run f ops = some ((HashOp.runOnSet (KeyedSet.empty hf.setoid) ops).1, h) ∧
      h.Correct hf (HashOp.runOnSet (KeyedSet.empty hf.setoid) ops).2 := by
  obtain ⟨h, hrun, hr⟩ := (Hash.Represents.init hf).run ops
  exact ⟨h, hrun, hr.correct⟩

/-- Numbers, with a hash function that distinguishes only two of them. -/
def HashFuns.parity : HashFuns ℕ := ⟨fun n => UInt32.ofNat (n % 2), fun a b => a < b⟩

theorem HashFuns.parity_lawful : HashFuns.parity.Lawful where
  order := ⟨fun a b h => by simp [parity] at h ⊢; omega, fun a b c h h' => by
    simp [parity] at h h' ⊢
    omega⟩
  hash a b h := by
    obtain ⟨h₁, h₂⟩ := h
    simp [parity] at h₁ h₂
    rw [Nat.le_antisymm h₂ h₁]

theorem hash_refines_set_parity :
    ∃ h, Hash.init.run HashFuns.parity [.insert 3 true, .insert 5 false, .delete 3 true] =
        some ((HashOp.runOnSet (KeyedSet.empty HashFuns.parity_lawful.setoid)
          [.insert 3 true, .insert 5 false, .delete 3 true]).1, h) ∧
      h.Correct HashFuns.parity_lawful
        (HashOp.runOnSet (KeyedSet.empty HashFuns.parity_lawful.setoid)
          [.insert 3 true, .insert 5 false, .delete 3 true]).2 :=
  hash_refines_set HashFuns.parity_lawful _

end Pintos
