import Mathlib.Data.List.Nodup
import Mathlib.Tactic.Common

/-!
# Lists of Records with Distinct Keys

A table is a list of records no two of which have the same key. Looking a key up, replacing
the record with a key and removing it are `find?`, `map` and `filter`; these lemmas say what
they do to a record that is in the table.

## Main results

* `find?_key`: the record with a key is found.
* `mem_replace`, `map_key_replace`: replacing a record.
* `countP_replace`, `countP_remove`: how many records have a property after that.
* `eraseP_key`, `find?_filter_key`: removing a record.
* `countP_notMem`: how many members of a list are outside a set that gets one member more.
-/

namespace Verif

open List

variable {α κ : Type} {key : α → κ} {l : List α} {a a' b : α} {k : κ}

/-- The other records have other keys. -/
theorem split_key (hl : (l.map key).Nodup) (ha : a ∈ l) :
    ∃ l₁ l₂, l = l₁ ++ a :: l₂ ∧ (∀ b ∈ l₁, key b ≠ key a) ∧ ∀ b ∈ l₂, key b ≠ key a := by
  obtain ⟨l₁, l₂, rfl⟩ := append_of_mem ha
  rw [map_append, map_cons, nodup_middle, nodup_cons, mem_append] at hl
  refine ⟨l₁, l₂, rfl, fun b hb hk => ?_, fun b hb hk => ?_⟩
  · exact hl.1 (.inl (hk ▸ mem_map_of_mem hb))
  · exact hl.1 (.inr (hk ▸ mem_map_of_mem hb))

/-- Records with the same key are the same. -/
theorem eq_of_key (hl : (l.map key).Nodup) (ha : a ∈ l) (hb : b ∈ l) (hk : key a = key b) :
    a = b :=
  inj_on_of_nodup_map hl ha hb hk

variable [DecidableEq κ]

/-- **The record with a key is found.** -/
theorem find?_key (hl : (l.map key).Nodup) (ha : a ∈ l) (hk : key a = k) :
    l.find? (fun b => key b = k) = some a := by
  obtain ⟨l₁, l₂, rfl, h₁, -⟩ := split_key hl ha
  subst hk
  rw [find?_append, find?_eq_none.mpr fun b hb => by simpa using h₁ b hb]
  simp

theorem of_find?_key (h : l.find? (fun b => key b = k) = some a) : a ∈ l ∧ key a = k :=
  ⟨mem_of_find?_eq_some h, by simpa using find?_some h⟩

variable (key) in
/-- The keys after a record was replaced by one with the same key. -/
theorem map_key_replace (hk : key a' = k) :
    (l.map fun b => if key b = k then a' else b).map key = l.map key := by
  rw [map_map]
  refine map_congr_left fun b _ => ?_
  rw [Function.comp_apply]
  split
  · rw [hk, ‹key b = k›]
  · rfl

variable (key) in
theorem mem_replace : b ∈ (l.map fun b => if key b = k then a' else b) ↔
    (b = a' ∧ ∃ a ∈ l, key a = k) ∨ b ∈ l ∧ key b ≠ k := by
  rw [mem_map]
  constructor
  · rintro ⟨c, hc, rfl⟩
    split
    · exact .inl ⟨rfl, c, hc, ‹_›⟩
    · exact .inr ⟨hc, ‹_›⟩
  · rintro (⟨rfl, c, hc, hk⟩ | ⟨hb, hk⟩)
    · exact ⟨c, hc, if_pos hk⟩
    · exact ⟨b, hb, if_neg hk⟩

/-- How many records have a property after one was replaced. -/
theorem countP_replace (hl : (l.map key).Nodup) (ha : a ∈ l) (p : α → Bool) :
    (l.map fun b => if key b = key a then a' else b).countP p + (if p a then 1 else 0) =
      l.countP p + if p a' then 1 else 0 := by
  obtain ⟨l₁, l₂, rfl, h₁, h₂⟩ := split_key hl ha
  have hmap : ∀ l' : List α, (∀ b ∈ l', key b ≠ key a) →
      (l'.map fun b => if key b = key a then a' else b) = l' := fun l' h => by
    conv_rhs => rw [← map_id l']
    exact map_congr_left fun b hb => if_neg (h b hb)
  rw [map_append, map_cons, if_pos rfl, hmap l₁ h₁, hmap l₂ h₂, countP_append,
    countP_append, countP_cons, countP_cons]
  omega

/-- How many records have a property after one was removed. -/
theorem countP_remove (hl : (l.map key).Nodup) (ha : a ∈ l) (p : α → Bool) :
    (l.filter fun b => key b ≠ key a).countP p + (if p a then 1 else 0) = l.countP p := by
  obtain ⟨l₁, l₂, rfl, h₁, h₂⟩ := split_key hl ha
  have hfilter : ∀ l' : List α, (∀ b ∈ l', key b ≠ key a) →
      (l'.filter fun b => key b ≠ key a) = l' := fun l' h => by
    rw [filter_eq_self]
    intro b hb
    simpa using h b hb
  rw [filter_append, filter_cons_of_neg (by simp), hfilter l₁ h₁, hfilter l₂ h₂,
    countP_append, countP_append, countP_cons]
  omega

/-- Removing the first record with a key removes them all. -/
theorem eraseP_key (hl : (l.map key).Nodup) :
    l.eraseP (fun b => key b = k) = l.filter fun b => key b ≠ k := by
  induction l with
  | nil => rfl
  | cons b l ih =>
    rw [map_cons, nodup_cons] at hl
    by_cases hb : key b = k
    · rw [eraseP_cons_of_pos (by simpa using hb), filter_cons_of_neg (by simpa using hb),
        eq_comm, filter_eq_self]
      intro c hc
      have hne : key c ≠ k := fun hk => hl.1 (hb.trans hk.symm ▸ mem_map_of_mem hc)
      simpa using hne
    · rw [eraseP_cons_of_neg (by simpa using hb), filter_cons_of_pos (by simpa using hb),
        ih hl.2]

/-- The replaced element is found. -/
theorem find?_replace_key (h : l.find? (fun b => key b = k) = some a) (hk : key a' = k) :
    (l.map fun b => if key b = k then a' else b).find? (fun b => key b = k) = some a' := by
  induction l with
  | nil => cases h
  | cons b l ih =>
    rw [map_cons]
    by_cases hb : key b = k
    · rw [if_pos hb, find?_cons_of_pos (by simpa using hk)]
    · rw [find?_cons_of_neg (by simpa using hb)] at h
      rw [if_neg hb, find?_cons_of_neg (by simpa using hb), ih h]

/-- What has another key is found as before. -/
theorem find?_replace_key_ne {k' : κ} (hk : key a' = k) (hne : k' ≠ k) :
    (l.map fun b => if key b = k then a' else b).find? (fun b => key b = k') =
      l.find? (fun b => key b = k') := by
  induction l with
  | nil => rfl
  | cons b l ih =>
    rw [map_cons]
    by_cases hb : key b = k
    · have hb' : ¬key b = k' := fun h => hne (h.symm.trans hb)
      have ha' : ¬key a' = k' := fun h => hne (h.symm.trans hk)
      rw [if_pos hb, find?_cons_of_neg (by simpa using ha'),
        find?_cons_of_neg (by simpa using hb'), ih]
    · rw [if_neg hb, find?_cons, find?_cons, ih]

/-- Looking another key up after the records with a key were removed. -/
theorem find?_filter_key {k' : κ} (hk : k ≠ k') :
    (l.filter fun b => key b ≠ k).find? (fun b => key b = k') = l.find? fun b => key b = k' := by
  rw [find?_filter]
  congr 1
  funext b
  by_cases hb : key b = k'
  · simp [hb, hk.symm]
  · simp [hb]

/-- A set `L'` with one member more than `L` leaves one member of `l` less outside, if the
new one is in `l`. -/
theorem countP_notMem [DecidableEq α] {L L' : List α} (hl : l.Nodup)
    (h : ∀ x, x ∈ L' ↔ x = b ∨ x ∈ L) (hb : b ∉ L) :
    l.countP (fun x => x ∉ L') + (if b ∈ l then 1 else 0) = l.countP fun x => x ∉ L := by
  induction l with
  | nil => rfl
  | cons x l ih =>
    obtain ⟨hx, hl⟩ := nodup_cons.mp hl
    have hrest := ih hl
    rw [countP_cons, countP_cons]
    rcases eq_or_ne x b with rfl | hne
    · have hx' : x ∈ L' := (h x).mpr (.inl rfl)
      rw [if_neg hx] at hrest
      simp only [hx', hb, not_true_eq_false, not_false_eq_true, decide_false, decide_true,
        mem_cons_self, if_true, Bool.false_eq_true, if_false]
      omega
    · have hiff : x ∈ L' ↔ x ∈ L := (h x).trans (or_iff_right hne)
      simp only [hiff, mem_cons, hne.symm, false_or]
      omega

end Verif
