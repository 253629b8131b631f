import Mathlib.Data.Finset.Insert
import Mathlib.Data.Finset.Filter

/-!
# Finite Sets that Hold One Element of Each Class

A set keyed by an equivalence is a finite set no two elements of which are equivalent. An element
is looked up, replaced and removed by any element that is equivalent to it.

## Main results

* `KeyedSet.find_eq_some`, `KeyedSet.find_eq_none`: what is found.
* `KeyedSet.mem_put`, `KeyedSet.mem_remove`: what is in the set after a change.
-/

namespace Verif

/-- A finite set with at most one element of each class. -/
structure KeyedSet (α : Type) (r : Setoid α) where
  elems : Finset α
  distinct : ∀ a ∈ elems, ∀ b ∈ elems, r a b → a = b

namespace KeyedSet

open Classical

variable {α : Type} {r : Setoid α} {s : KeyedSet α r} {a e : α}

@[ext] theorem ext {s s' : KeyedSet α r} (h : ∀ a, a ∈ s.elems ↔ a ∈ s'.elems) : s = s' := by
  cases s
  cases s'
  congr
  exact Finset.ext h

/-- The set without elements. -/
def empty (r : Setoid α) : KeyedSet α r := ⟨∅, fun _ h => absurd h (Finset.notMem_empty _)⟩

/-- The element that is equivalent to `e`, if there is one. -/
noncomputable def find (s : KeyedSet α r) (e : α) : Option α :=
  if h : ∃ a ∈ s.elems, r a e then some h.choose else none

/-- The set without the element that is equivalent to `e`. -/
noncomputable def remove (s : KeyedSet α r) (e : α) : KeyedSet α r where
  elems := s.elems.filter fun a => ¬r a e
  distinct a ha b hb :=
    s.distinct a (Finset.mem_of_mem_filter a ha) b (Finset.mem_of_mem_filter b hb)

theorem mem_remove : a ∈ (s.remove e).elems ↔ a ∈ s.elems ∧ ¬r a e :=
  Finset.mem_filter

/-- The set with `e` in the place of the element that is equivalent to it. -/
noncomputable def put (s : KeyedSet α r) (e : α) : KeyedSet α r where
  elems := insert e (s.remove e).elems
  distinct a ha b hb hab := by
    rcases Finset.mem_insert.mp ha with rfl | ha
    · rcases Finset.mem_insert.mp hb with rfl | hb
      · rfl
      · exact absurd (r.symm hab) (mem_remove.mp hb).2
    · rcases Finset.mem_insert.mp hb with rfl | hb
      · exact absurd hab (mem_remove.mp ha).2
      · exact (s.remove e).distinct a ha b hb hab

theorem mem_put : a ∈ (s.put e).elems ↔ a = e ∨ a ∈ s.elems ∧ ¬r a e := by
  rw [put, Finset.mem_insert, mem_remove]

/-- **What is found** is the element that is equivalent. -/
theorem find_eq_some : s.find e = some a ↔ a ∈ s.elems ∧ r a e := by
  rw [find]
  constructor
  · intro h
    split at h
    · rename_i hex
      obtain rfl := Option.some.inj h
      exact hex.choose_spec
    · cases h
  · intro h
    have hex : ∃ a ∈ s.elems, r a e := ⟨a, h⟩
    rw [dif_pos hex]
    exact congrArg some (s.distinct _ hex.choose_spec.1 a h.1
      (r.trans hex.choose_spec.2 (r.symm h.2)))

/-- **Nothing is found** if no element is equivalent. -/
theorem find_eq_none : s.find e = none ↔ ∀ a ∈ s.elems, ¬r a e := by
  rw [find]
  split
  · rename_i hex
    obtain ⟨a, ha, hae⟩ := hex
    exact iff_of_false (Option.some_ne_none _) fun h => h a ha hae
  · rename_i hex
    exact iff_of_true rfl fun a ha hae => hex ⟨a, ha, hae⟩

end KeyedSet

end Verif
