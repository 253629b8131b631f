import Mathlib.Logic.Equiv.Basic
import Mathlib.Tactic.Common

/-!
# Places in Custody

An allocator hands out places, and objects sit in them. `Custody alloc place` says that
the places marked allocated are exactly those some object sits in, each occupied by one
object. Objects come into a free place (`Custody.take`), give theirs back
(`Custody.drop`), and trade places (`Custody.trade`, which also covers handing a place
to an object that has none).

## Main results

* `Custody.take`, `Custody.drop`, `Custody.trade`: the moves keep custody.
-/

namespace Verif

open Function

variable {O L : Type}

/-- The allocated places are those some object sits in, and no two objects share one. -/
structure Custody (alloc : L → Bool) (place : O → Option L) : Prop where
  alloc_iff : ∀ l, alloc l = true ↔ ∃ o, place o = some l
  unique : ∀ {o o' l}, place o = some l → place o' = some l → o = o'

namespace Custody

variable {alloc : L → Bool} {place : O → Option L} {o : O} {l : L}

/-- The place an object sits in is allocated. -/
theorem allocated (h : Custody alloc place) (ho : place o = some l) : alloc l = true :=
  (h.alloc_iff l).mpr ⟨o, ho⟩

/-- No object sits in a place that is not allocated. -/
theorem ne_of_free (h : Custody alloc place) (hl : alloc l = false) (o : O) :
    place o ≠ some l := by
  intro ho
  rw [h.allocated ho] at hl
  cases hl

/-- With nothing allocated and every object out of place, custody holds. -/
theorem empty : Custody (fun _ : L => false) (fun _ : O => none) where
  alloc_iff _ := ⟨fun h => absurd h Bool.false_ne_true, fun ⟨_, h⟩ => nomatch h⟩
  unique h := nomatch h

/-- Trading places keeps custody. -/
theorem trade (h : Custody alloc place) (e : O ≃ O) : Custody alloc (place ∘ e) where
  alloc_iff l := by
    rw [h.alloc_iff]
    exact ⟨fun ⟨o, ho⟩ => ⟨e.symm o, by simpa using ho⟩, fun ⟨o, ho⟩ => ⟨e o, ho⟩⟩
  unique h₁ h₂ := e.injective (h.unique h₁ h₂)

variable [DecidableEq O] [DecidableEq L]

/-- An object without a place takes a free one. -/
theorem take (h : Custody alloc place) (ho : place o = none) (hl : alloc l = false) :
    Custody (update alloc l true) (update place o (some l)) where
  alloc_iff l' := by
    rw [update_apply]
    by_cases hl' : l' = l
    · rw [if_pos hl']
      exact ⟨fun _ => ⟨o, by rw [hl', update_self]⟩, fun _ => rfl⟩
    · rw [if_neg hl', h.alloc_iff]
      constructor
      · rintro ⟨o', ho'⟩
        have hne : o' ≠ o := by
          rintro rfl
          rw [ho] at ho'
          cases ho'
        exact ⟨o', by rw [update_of_ne hne, ho']⟩
      · rintro ⟨o', ho'⟩
        by_cases hoo : o' = o
        · rw [hoo, update_self] at ho'
          exact absurd (Option.some.inj ho').symm hl'
        · rw [update_of_ne hoo] at ho'
          exact ⟨o', ho'⟩
  unique {o₁ o₂ l'} h₁ h₂ := by
    have hfree := h.ne_of_free hl
    rw [update_apply] at h₁ h₂
    split at h₁ <;> split at h₂
    · rename_i e₁ e₂
      rw [e₁, e₂]
    · cases h₁
      exact absurd h₂ (hfree o₂)
    · cases h₂
      exact absurd h₁ (hfree o₁)
    · exact h.unique h₁ h₂

/-- An object gives its place back. -/
theorem drop (h : Custody alloc place) (ho : place o = some l) :
    Custody (update alloc l false) (update place o none) where
  alloc_iff l' := by
    rw [update_apply]
    by_cases hl' : l' = l
    · rw [if_pos hl']
      refine ⟨fun hf => absurd hf Bool.false_ne_true, ?_⟩
      rintro ⟨o', ho'⟩
      by_cases hoo : o' = o
      · rw [hoo, update_self] at ho'
        cases ho'
      · rw [update_of_ne hoo, hl'] at ho'
        exact absurd (h.unique ho' ho) hoo
    · rw [if_neg hl', h.alloc_iff]
      constructor
      · rintro ⟨o', ho'⟩
        have hne : o' ≠ o := by
          rintro rfl
          rw [ho] at ho'
          exact hl' (Option.some.inj ho').symm
        exact ⟨o', by rw [update_of_ne hne, ho']⟩
      · rintro ⟨o', ho'⟩
        by_cases hoo : o' = o
        · rw [hoo, update_self] at ho'
          cases ho'
        · rw [update_of_ne hoo] at ho'
          exact ⟨o', ho'⟩
  unique {o₁ o₂ l'} h₁ h₂ := by
    rw [update_apply] at h₁ h₂
    split at h₁ <;> split at h₂ <;> first | cases h₁ | cases h₂ | exact h.unique h₁ h₂

end Custody

end Verif
