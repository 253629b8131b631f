import Mathlib.Logic.Function.Basic
import Pintos.Outcome

/-!
# Memory that Holds a List

A memory is a function from addresses to bytes. `Holds m a bs` says that the bytes from the
address `a` on are those of the list `bs`, so that a structure laid out in memory is described
by the list of its bytes, and its parts by the parts of the list. Bytes are stored one after the
other, and only at addresses within bounds; a string is read up to its terminator.

## Main results

* `holds_append`: the parts of a list are in consecutive places.
* `storeBytes_spec`, `le_of_storeBytes`: storing a list within bounds completes, and it does
  not if the list does not fit.
* `Holds.readString`: a string that is in memory is read back.
-/

namespace Verif

open Outcome Function

variable {ε β : Type} {m m' : ℕ → β} {a : ℕ} {b : β} {bs cs : List β}

/-- The memory from the address `a` on is the list. -/
def Holds (m : ℕ → β) (a : ℕ) (bs : List β) : Prop := ∀ k b, bs[k]? = some b → m (a + k) = b

@[simp] theorem holds_nil : Holds m a [] := fun _ _ h => by simp at h

theorem holds_cons : Holds m a (b :: bs) ↔ m a = b ∧ Holds m (a + 1) bs := by
  constructor
  · intro h
    refine ⟨h 0 b rfl, fun k c hk => ?_⟩
    rw [Nat.add_assoc, Nat.add_comm 1 k]
    exact h (k + 1) c hk
  · rintro ⟨hb, h⟩ k c hk
    cases k with
    | zero => exact hb.trans (Option.some.inj hk)
    | succ k =>
      rw [Nat.add_comm k 1, ← Nat.add_assoc]
      exact h k c hk

/-- **The parts of a list** are in consecutive places. -/
theorem holds_append : Holds m a (bs ++ cs) ↔ Holds m a bs ∧ Holds m (a + bs.length) cs := by
  induction bs generalizing a with
  | nil => simp
  | cons b bs ih =>
    rw [List.cons_append, holds_cons, holds_cons, ih, and_assoc, List.length_cons,
      Nat.add_assoc, Nat.add_comm 1]

/-- Only the bytes in the place of the list matter. -/
theorem Holds.congr (h : Holds m a bs)
    (heq : ∀ i, a ≤ i → i < a + bs.length → m' i = m i) : Holds m' a bs := by
  intro k c hk
  have hlt := (List.getElem?_eq_some_iff.mp hk).1
  rw [heq (a + k) (Nat.le_add_right a k) (Nat.add_lt_add_left hlt a)]
  exact h k c hk

/-! ### Storing -/

/-- Store bytes one after the other, at addresses from `lo` up to `hi`; the error `e` is
reported if one of them is not. -/
def storeBytes (lo hi : ℕ) (e : ε) (m : ℕ → β) (a : ℕ) : List β → Outcome ε (ℕ → β)
  | [] => .ok m
  | b :: bs => do
    Outcome.ensure (lo ≤ a ∧ a < hi) e
    storeBytes lo hi e (update m a b) (a + 1) bs

variable {lo hi : ℕ} {e : ε}

/-- **Storing within bounds** puts the list in its place, and changes nothing else. -/
theorem storeBytes_spec (e : ε) (m : ℕ → β) (hlo : lo ≤ a) (hhi : a + bs.length ≤ hi) :
    ∃ m', storeBytes lo hi e m a bs = .ok m' ∧ Holds m' a bs ∧
      ∀ i, i < a ∨ a + bs.length ≤ i → m' i = m i := by
  induction bs generalizing m a with
  | nil => exact ⟨m, rfl, holds_nil, fun _ _ => rfl⟩
  | cons b bs ih =>
    rw [List.length_cons] at hhi ⊢
    obtain ⟨m', hrun, hholds, hrest⟩ :=
      ih (update m a b) (Nat.le_succ_of_le hlo) (by omega)
    refine ⟨m', ?_, holds_cons.mpr ⟨?_, hholds⟩, fun i hi => ?_⟩
    · rw [storeBytes, ensure_of_true ⟨hlo, by omega⟩, ok_bind, hrun]
    · rw [hrest a (.inl (Nat.lt_succ_self a)), update_self]
    · rw [hrest i (by omega), update_of_ne (by omega)]

/-- Storing that completes was within bounds. -/
theorem le_of_storeBytes (h : storeBytes lo hi e m a bs = .ok m') (hne : bs ≠ []) :
    lo ≤ a ∧ a + bs.length ≤ hi := by
  induction bs generalizing m a with
  | nil => exact absurd rfl hne
  | cons b bs ih =>
    obtain ⟨hbounds, hrest⟩ := ensure_bind_eq_ok.mp h
    rw [List.length_cons]
    cases bs with
    | nil => exact ⟨hbounds.1, hbounds.2⟩
    | cons c bs =>
      have := (ih hrest (List.cons_ne_nil c bs)).2
      exact ⟨hbounds.1, by omega⟩

/-- Storing a list that begins within bounds and does not fit fails. -/
theorem storeBytes_panic (e : ε) (m : ℕ → β) (hlo : lo ≤ a) (hhi : max a hi < a + bs.length) :
    storeBytes lo hi e m a bs = .panic e := by
  induction bs generalizing m a with
  | nil => exact absurd hhi (by rw [List.length_nil]; omega)
  | cons b bs ih =>
    rw [List.length_cons] at hhi
    by_cases ha : a < hi
    · rw [storeBytes, ensure_of_true ⟨hlo, ha⟩, ok_bind]
      exact ih _ (Nat.le_succ_of_le hlo) (by omega)
    · rw [storeBytes, ensure, if_neg fun h => ha h.2]
      rfl

/-! ### Strings -/

section

variable {m m' : ℕ → UInt8} {bs : List UInt8} {fuel : ℕ}

/-- The bytes from an address on, up to a zero. -/
def readString (m : ℕ → UInt8) : (fuel : ℕ) → (a : ℕ) → List UInt8
  | 0, _ => []
  | fuel + 1, a => if m a = 0 then [] else m a :: readString m fuel (a + 1)

/-- **A string that is in memory is read back.** -/
theorem Holds.readString (h : Holds m a (bs ++ [0])) (hzero : 0 ∉ bs) (hfuel : bs.length < fuel) :
    readString m fuel a = bs := by
  induction bs generalizing a fuel with
  | nil =>
    obtain ⟨fuel, rfl⟩ := Nat.exists_eq_succ_of_ne_zero (Nat.ne_of_gt hfuel)
    rw [Verif.readString, if_pos (holds_cons.mp h).1]
  | cons b bs ih =>
    obtain ⟨fuel, rfl⟩ := Nat.exists_eq_succ_of_ne_zero (Nat.ne_of_gt (Nat.zero_lt_of_lt hfuel))
    obtain ⟨hb, hrest⟩ := holds_cons.mp h
    rw [List.mem_cons, not_or] at hzero
    rw [Verif.readString, hb, if_neg (Ne.symm hzero.1),
      ih hrest hzero.2 (Nat.lt_of_succ_lt_succ hfuel)]

end

end Verif
