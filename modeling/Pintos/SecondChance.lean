import Mathlib.Logic.Function.Basic
import Mathlib.Data.Nat.Find
import Mathlib.Order.Basic

/-!
# Second Chances

A scan over positions, each of which is pinned or has a page. Pages have bits, and a scan stops at
the first position that is not pinned and whose page does not have its bit set; where the bit is
set, it is cleared and the scan goes on. So a position is accepted if it is not pinned, and its
page had no bit at the start or was passed before.

## Main results

* `secondChance_eq_some`: where a scan stops, without the bits it changes.
* `exists_first_accepts`: a scan that is long enough stops.
-/

namespace Verif

variable {π : Type} [DecidableEq π] (pinned : ℕ → Bool) (page : ℕ → π)

/-- The scan from position `it` on, over `fuel` positions: where it stops, and the bits then. -/
def secondChance : (fuel it : ℕ) → (bits : π → Bool) → Option ℕ × (π → Bool)
  | 0, _, bits => (none, bits)
  | fuel + 1, it, bits =>
    if pinned it then
      secondChance fuel (it + 1) bits
    else if bits (page it) then
      secondChance fuel (it + 1) (Function.update bits (page it) false)
    else
      (some it, bits)

/-- **A position is accepted** if it is not pinned, and its page has no bit or was passed before. -/
def Accepts (bits : π → Bool) (k : ℕ) : Prop :=
  pinned k = false ∧ (bits (page k) = true → ∃ j < k, pinned j = false ∧ page j = page k)

/-- The bits at a position, if none before it is accepted. -/
def bitsAt (bits : π → Bool) (k : ℕ) (u : π) : Bool :=
  bits u && decide (∀ j < k, pinned j = true ∨ page j ≠ u)

variable {pinned page} {bits : π → Bool} {k : ℕ}

theorem accepts_iff_bitsAt :
    Accepts pinned page bits k ↔ pinned k = false ∧ bitsAt pinned page bits k (page k) = false := by
  rw [Accepts, bitsAt]
  refine and_congr_right fun _ => ?_
  cases bits (page k) with
  | false | true => simp

theorem bitsAt_zero : bitsAt pinned page bits 0 = bits := by
  funext u
  simp [bitsAt]

theorem bitsAt_succ_of_pinned (h : pinned k = true) :
    bitsAt pinned page bits (k + 1) = bitsAt pinned page bits k := by
  funext u
  rw [bitsAt, bitsAt]
  congr 1
  rw [decide_eq_decide]
  refine ⟨fun hall j hj => hall j (by omega), fun hall j hj => ?_⟩
  rcases Nat.lt_succ_iff_lt_or_eq.mp hj with hj | rfl
  · exact hall j hj
  · exact .inl h

theorem bitsAt_succ (h : pinned k = false) : bitsAt pinned page bits (k + 1) =
    Function.update (bitsAt pinned page bits k) (page k) false := by
  funext u
  by_cases hu : u = page k
  · rw [hu, Function.update_self, bitsAt]
    refine Bool.and_eq_false_imp.mpr fun _ => decide_eq_false fun hall => ?_
    rcases hall k (by omega) with hpinned | hne
    · rw [h] at hpinned
      cases hpinned
    · exact hne rfl
  · rw [Function.update_of_ne hu, bitsAt, bitsAt]
    congr 1
    rw [decide_eq_decide]
    refine ⟨fun hall j hj => hall j (by omega), fun hall j hj => ?_⟩
    rcases Nat.lt_succ_iff_lt_or_eq.mp hj with hj | rfl
    · exact hall j hj
    · exact .inr fun heq => hu heq.symm

/-- Where a scan stops that has come to position `it`. -/
theorem secondChance_bitsAt {fuel it : ℕ} :
    (secondChance pinned page fuel it (bitsAt pinned page bits it)).1 = some k ↔
      it ≤ k ∧ k < it + fuel ∧ Accepts pinned page bits k ∧
        ∀ j, it ≤ j → j < k → ¬Accepts pinned page bits j := by
  induction fuel generalizing it with
  | zero =>
    rw [secondChance]
    constructor
    · intro h
      cases h
    · rintro ⟨hge, hlt, -⟩
      omega
  | succ fuel ih =>
    -- the scan passes `it` or stops there
    have hpass : ¬Accepts pinned page bits it →
        ((it + 1 ≤ k ∧ k < it + 1 + fuel ∧ Accepts pinned page bits k ∧
          ∀ j, it + 1 ≤ j → j < k → ¬Accepts pinned page bits j) ↔
        (it ≤ k ∧ k < it + (fuel + 1) ∧ Accepts pinned page bits k ∧
          ∀ j, it ≤ j → j < k → ¬Accepts pinned page bits j)) := by
      intro hnot
      constructor
      · rintro ⟨hge, hlt, hk, hbefore⟩
        refine ⟨by omega, by omega, hk, fun j hj hjk => ?_⟩
        rcases Nat.eq_or_lt_of_le hj with rfl | hj
        · exact hnot
        · exact hbefore j hj hjk
      · rintro ⟨hge, hlt, hk, hbefore⟩
        have hne : it ≠ k := by
          rintro rfl
          exact hnot hk
        exact ⟨by omega, by omega, hk, fun j hj => hbefore j (by omega)⟩
    have haccepts : Accepts pinned page bits it ↔ _ := accepts_iff_bitsAt
    rw [secondChance]
    by_cases hpinned : pinned it = true
    · rw [if_pos hpinned, ← bitsAt_succ_of_pinned hpinned, ih]
      refine hpass fun h => ?_
      rw [h.1] at hpinned
      cases hpinned
    · rw [if_neg hpinned]
      rw [Bool.not_eq_true] at hpinned
      by_cases hbit : bitsAt pinned page bits it (page it) = true
      · rw [if_pos hbit, ← bitsAt_succ hpinned, ih]
        refine hpass fun h => ?_
        rw [(haccepts.mp h).2] at hbit
        cases hbit
      · rw [Bool.not_eq_true] at hbit
        have hit := haccepts.mpr ⟨hpinned, hbit⟩
        rw [hbit, if_neg Bool.false_ne_true, Option.some.injEq]
        constructor
        · rintro rfl
          exact ⟨le_rfl, by omega, hit, fun j hj hjk => absurd hj (by omega)⟩
        · rintro ⟨hge, -, -, hbefore⟩
          by_contra hne
          exact hbefore it le_rfl (by omega) hit

/-- **Where a scan stops**: at the first position that is accepted. -/
theorem secondChance_eq_some {fuel : ℕ} :
    (secondChance pinned page fuel 0 bits).1 = some k ↔
      k < fuel ∧ Accepts pinned page bits k ∧ ∀ j < k, ¬Accepts pinned page bits j := by
  have h : (secondChance pinned page fuel 0 (bitsAt pinned page bits 0)).1 = some k ↔ _ :=
    secondChance_bitsAt
  rw [bitsAt_zero] at h
  rw [h]
  simp

omit [DecidableEq π] in
/-- If some position is accepted, there is a first one. -/
theorem exists_first_accepts (h : Accepts pinned page bits k) :
    ∃ m ≤ k, Accepts pinned page bits m ∧ ∀ j < m, ¬Accepts pinned page bits j := by
  classical
  have hex : ∃ m, Accepts pinned page bits m := ⟨k, h⟩
  exact ⟨Nat.find hex, Nat.find_min' hex h, Nat.find_spec hex, fun j hj => Nat.find_min hex hj⟩

end Verif
