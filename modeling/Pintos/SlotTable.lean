import Mathlib.Data.List.Nodup
import Mathlib.Tactic.Common

/-!
# Tables of Slots

A finite map is stored in a table of slots, each of which is empty or holds a key and its
value; no two slots hold the same key. A key is looked up by going through the slots, added
by filling an empty slot, and removed by emptying its slot. These are the lemmas that relate
the table to the map: what filling and emptying a slot do to it, and that going through the
slots from the first to the last meets every key of the map once.

## Main results

* `SlotTable.find_fill`, `SlotTable.find_clear`: the map after a slot was filled or emptied.
* `SlotTable.nodup_keys`, `SlotTable.mem_keys`: every key is met once.
-/

namespace Verif

open Function List

/-- The slots, in their order. -/
abbrev SlotTable (κ ν : Type) := List (Option (κ × ν))

namespace SlotTable

variable {κ ν : Type} {t : SlotTable κ ν} {j : ℕ} {k : κ} {v : ν}

/-- The keys, in the order of their slots. -/
def keys (t : SlotTable κ ν) : List κ := t.filterMap fun o => o.map Prod.fst

/-- No two slots hold the same key. -/
def Distinct (t : SlotTable κ ν) : Prop :=
  ∀ (i j : ℕ) (k : κ) (v w : ν), t[i]? = some (some (k, v)) → t[j]? = some (some (k, w)) → i = j

/-- **The map**: the value in the first slot with the key. -/
def find [DecidableEq κ] (t : SlotTable κ ν) (k : κ) : Option ν :=
  t.findSome? fun o => o.bind fun p => if p.1 = k then some p.2 else none

/-! ### Keys -/

theorem mem_keys_iff : k ∈ t.keys ↔ ∃ (j : ℕ) (v : ν), t[j]? = some (some (k, v)) := by
  rw [keys, mem_filterMap]
  constructor
  · rintro ⟨o, ho, hk⟩
    obtain ⟨⟨k', v⟩, rfl, rfl⟩ := Option.map_eq_some_iff.mp hk
    obtain ⟨j, hj⟩ := mem_iff_getElem?.mp ho
    exact ⟨j, v, hj⟩
  · rintro ⟨j, v, hj⟩
    exact ⟨some (k, v), mem_of_getElem? hj, rfl⟩

/-- **No key is met twice.** -/
theorem nodup_keys (h : t.Distinct) : t.keys.Nodup := by
  induction t with
  | nil => exact nodup_nil
  | cons o t ih =>
    have hrest : Distinct t := fun i j k v w hi hj =>
      Nat.succ.inj (h (i + 1) (j + 1) k v w hi hj)
    cases o with
    | none => exact ih hrest
    | some p =>
      refine nodup_cons.mpr ⟨fun hk => ?_, ih hrest⟩
      obtain ⟨j, w, hj⟩ := mem_keys_iff.mp hk
      exact absurd (h 0 (j + 1) p.1 p.2 w rfl hj) (Nat.succ_ne_zero j).symm

/-- The keys from an empty slot on. -/
theorem keys_drop_of_none (h : t[j]? = some none) : keys (t.drop j) = keys (t.drop (j + 1)) := by
  obtain ⟨hj, hnone⟩ := List.getElem?_eq_some_iff.mp h
  rw [List.drop_eq_getElem_cons hj, hnone]
  rfl

/-- The keys from a slot that is filled on. -/
theorem keys_drop_of_some (h : t[j]? = some (some (k, v))) :
    keys (t.drop j) = k :: keys (t.drop (j + 1)) := by
  obtain ⟨hj, hsome⟩ := List.getElem?_eq_some_iff.mp h
  rw [List.drop_eq_getElem_cons hj, hsome]
  rfl

/-! ### Filling and emptying slots -/

theorem getElem?_fill {o : Option (κ × ν)} (hj : j < t.length) (i : ℕ) :
    (t.set j o)[i]? = if i = j then some o else t[i]? := by
  rw [getElem?_set, if_pos hj]
  split
  · rename_i hji
    exact (if_pos hji.symm).symm
  · rename_i hji
    rw [if_neg (Ne.symm hji)]

/-- A key that is not in the table is put into a slot. -/
theorem Distinct.fill (h : t.Distinct) (hj : j < t.length) (hk : k ∉ t.keys) :
    Distinct (t.set j (some (k, v))) := by
  intro i i' k' v' w' hi hi'
  rw [getElem?_fill hj] at hi hi'
  split at hi <;> split at hi'
  · rename_i h₁ h₂
    exact h₁.trans h₂.symm
  · obtain ⟨rfl, -⟩ := Prod.ext_iff.mp (Option.some.inj (Option.some.inj hi))
    exact absurd (mem_keys_iff.mpr ⟨i', w', hi'⟩) hk
  · obtain ⟨rfl, -⟩ := Prod.ext_iff.mp (Option.some.inj (Option.some.inj hi'))
    exact absurd (mem_keys_iff.mpr ⟨i, v', hi⟩) hk
  · exact h i i' k' v' w' hi hi'

/-- The slot is empty, and those before it are not. -/
def FirstVacant (t : SlotTable κ ν) (j : ℕ) : Prop := t[j]? = some none ∧ ∀ i < j, t[i]? ≠ some none

/-- A slot is emptied. -/
theorem Distinct.clear (h : t.Distinct) (hj : j < t.length) : Distinct (t.set j none) := by
  intro i i' k' v' w' hi hi'
  rw [getElem?_fill hj] at hi hi'
  split at hi
  · cases hi
  split at hi'
  · cases hi'
  · exact h i i' k' v' w' hi hi'

/-! ### The map -/

variable [DecidableEq κ]

/-- What is looked for in a slot. -/
theorem match_eq_some {o : Option (κ × ν)} :
    (o.bind fun p => if p.1 = k then some p.2 else none) = some v ↔ o = some (k, v) := by
  rw [Option.bind_eq_some_iff]
  constructor
  · rintro ⟨p, rfl, hp⟩
    split at hp
    · rename_i hpk
      rw [← hpk, ← Option.some.inj hp]
    · cases hp
  · rintro rfl
    exact ⟨(k, v), rfl, if_pos rfl⟩

/-- The value of a key is in the first slot with the key. -/
theorem find_of_first (hj : t[j]? = some (some (k, v)))
    (hfirst : ∀ i < j, ∀ w, t[i]? ≠ some (some (k, w))) : find t k = some v := by
  induction t generalizing j with
  | nil => cases hj
  | cons o t ih =>
    cases j with
    | zero =>
      rw [find, findSome?_cons, match_eq_some.mpr (Option.some.inj hj)]
    | succ j =>
      have hno : (o.bind fun p => if p.1 = k then some p.2 else none) = none := by
        refine Option.eq_none_iff_forall_ne_some.mpr fun w hw => ?_
        obtain rfl := match_eq_some.mp hw
        exact hfirst 0 (Nat.succ_pos j) w rfl
      rw [find, findSome?_cons, hno]
      exact ih hj fun i hi w => hfirst (i + 1) (Nat.succ_lt_succ hi) w

/-- The value of a key is in the only slot with the key. -/
theorem find_eq_some (h : t.Distinct) :
    find t k = some v ↔ ∃ j : ℕ, t[j]? = some (some (k, v)) := by
  constructor
  · intro hfind
    obtain ⟨o, ho, hv⟩ := exists_of_findSome?_eq_some hfind
    obtain rfl := match_eq_some.mp hv
    exact mem_iff_getElem?.mp ho
  · rintro ⟨j, hj⟩
    exact find_of_first hj fun i hi w hw => absurd (h i j k w v hw hj) (Nat.ne_of_lt hi)

/-- **Every key is met.** -/
theorem mem_keys (h : t.Distinct) : k ∈ t.keys ↔ (find t k).isSome := by
  rw [mem_keys_iff, Option.isSome_iff_exists, exists_comm]
  exact exists_congr fun v => (find_eq_some h).symm

theorem find_eq_none (h : t.Distinct) : find t k = none ↔ k ∉ t.keys := by
  rw [mem_keys h, Option.not_isSome_iff_eq_none]

/-- A key that is neither in the slot before nor after it was changed. -/
theorem find_set_of_ne {o : Option (κ × ν)} (h : t.Distinct) (hset : Distinct (t.set j o))
    (hlt : j < t.length) (hold : ∀ v, t[j]? ≠ some (some (k, v))) (hnew : ∀ v, o ≠ some (k, v)) :
    find (t.set j o) k = find t k := by
  ext v
  rw [find_eq_some hset, find_eq_some h]
  refine exists_congr fun i => ?_
  rw [getElem?_fill hlt]
  split_ifs with hij
  · subst hij
    exact iff_of_false (fun hv => hnew v (Option.some.inj hv)) (hold v)
  · exact Iff.rfl

/-- **A key is added.** -/
theorem find_fill (h : t.Distinct) (hj : t[j]? = some none) (hk : k ∉ t.keys) :
    find (t.set j (some (k, v))) = update (find t) k (some v) := by
  obtain ⟨hlt, -⟩ := List.getElem?_eq_some_iff.mp hj
  have hset := h.fill hlt hk (v := v)
  funext k'
  by_cases hk' : k' = k
  · subst hk'
    rw [update_self, find_eq_some hset]
    exact ⟨j, (getElem?_fill hlt j).trans (if_pos rfl)⟩
  · rw [update_of_ne hk']
    refine find_set_of_ne h hset hlt (fun w hw => ?_) fun w hw => ?_
    · rw [hj] at hw
      cases hw
    · cases hw
      exact hk' rfl

/-- **A key is removed.** -/
theorem find_clear (h : t.Distinct) (hj : t[j]? = some (some (k, v))) :
    find (t.set j none) = update (find t) k none := by
  obtain ⟨hlt, -⟩ := List.getElem?_eq_some_iff.mp hj
  have hset := h.clear hlt
  funext k'
  by_cases hk' : k' = k
  · subst hk'
    rw [update_self, find_eq_none hset, mem_keys_iff]
    rintro ⟨i, w, hi⟩
    rw [getElem?_fill hlt] at hi
    split at hi
    · cases hi
    · rename_i hij
      exact hij (h i j k' w v hi hj)
  · rw [update_of_ne hk']
    refine find_set_of_ne h hset hlt (fun w hw => ?_) fun w hw => ?_
    · rw [hj] at hw
      cases hw
      exact hk' rfl
    · cases hw

end SlotTable

end Verif
