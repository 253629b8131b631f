import Mathlib.Tactic.Common

/-!
# Outcomes, and Runs of Guarded Actions

An action of a state machine whose code contains assertions has three outcomes: it
completes in a new value, it is not enabled in the present state, or one of its
assertions fails. `Outcome ε α` is that three-valued result as a monad, so that an
action is written as the sequence of its statements; `ensure` is an assertion with the
error it reports, `require` a guard.

A `Run step C s₀ as s` is an execution of the actions `as` from `s₀` to `s` in which
every action met the condition `C` in the state it was taken in. Taking `C` to be
trivial gives all executions; taking it to exclude some actions gives the executions
that avoid them.

## Main results

* `Outcome.bind_eq_ok`, `Outcome.bind_eq_panic`: inversion of a sequence of statements.
* `Outcome.Spec`, with `Spec.bind`: one statement says both what holds after a
  computation that completes and which assertions can fail in it.
* `Run.invariant`: what holds initially and is kept by every action that meets the
  condition holds at the end of every run.
* `Run.of_exec`: an evaluation of `exec` is a run, so a concrete run is exhibited by
  computing it.
* `Grounded.at_most_once`: an event that is justified only if no event like it came before
  happens at most once.
-/

namespace Verif

open List

/-- The result of one action: it completes, it is not enabled, or an assertion fails. -/
inductive Outcome (ε α : Type) where
  | ok (a : α)
  | blocked
  | panic (e : ε)
  deriving DecidableEq, Repr

namespace Outcome

variable {ε α β : Type}
variable {c : Prop} {f : Unit → Outcome ε β} {e : ε}

/-- Sequencing: a blocked or failed statement ends the sequence. -/
protected def bind : Outcome ε α → (α → Outcome ε β) → Outcome ε β
  | ok a, f => f a
  | blocked, _ => blocked
  | panic e, _ => panic e

instance : Monad (Outcome ε) where
  pure := ok
  bind := Outcome.bind

instance : LawfulMonad (Outcome ε) :=
  .mk' _ (fun x => by cases x <;> rfl) (fun _ _ => rfl) (fun x _ _ => by cases x <;> rfl)

@[simp] theorem pure_eq (a : α) : (pure a : Outcome ε α) = ok a := rfl

@[simp] theorem ok_bind (a : α) (f : α → Outcome ε β) : (ok a >>= f) = f a := rfl

@[simp] theorem blocked_bind (f : α → Outcome ε β) :
    ((blocked : Outcome ε α) >>= f) = blocked := rfl

@[simp] theorem panic_bind (e : ε) (f : α → Outcome ε β) :
    ((panic e : Outcome ε α) >>= f) = panic e := rfl

/-- A sequence completes exactly when both of its statements do. -/
theorem bind_eq_ok {x : Outcome ε α} {f : α → Outcome ε β} {b : β} :
    (x >>= f) = ok b ↔ ∃ a, x = ok a ∧ f a = ok b := by
  cases x <;> simp

/-- A sequence fails exactly when one of its statements does. -/
theorem bind_eq_panic {x : Outcome ε α} {f : α → Outcome ε β} :
    (x >>= f) = panic e ↔ x = panic e ∨ ∃ a, x = ok a ∧ f a = panic e := by
  cases x <;> simp

/-- A sequence waits exactly when one of its statements does. -/
theorem bind_eq_blocked {x : Outcome ε α} {f : α → Outcome ε β} :
    (x >>= f) = blocked ↔ x = blocked ∨ ∃ a, x = ok a ∧ f a = blocked := by
  cases x <;> simp

/-- An assertion of `c`, reporting `e` when it fails. -/
def ensure (c : Prop) [Decidable c] (e : ε) : Outcome ε Unit :=
  if c then ok () else panic e

/-- A guard: the action is enabled only when `c` holds. -/
def require (c : Prop) [Decidable c] : Outcome ε Unit :=
  if c then ok () else blocked

/-- An assertion on the way of a computation that completes holds. -/
@[simp] theorem ensure_bind_eq_ok [Decidable c] {b : β} :
    (ensure c e >>= f) = ok b ↔ c ∧ f () = ok b := by
  by_cases h : c <;> simp [ensure, h]

/-- A guard on the way of a computation that completes holds. -/
@[simp] theorem require_bind_eq_ok [Decidable c] {b : β} :
    ((require c : Outcome ε Unit) >>= f) = ok b ↔ c ∧ f () = ok b := by
  by_cases h : c <;> simp [require, h]

/-- A computation fails at its assertion or, past it, later. -/
@[simp] theorem ensure_bind_eq_panic [Decidable c] {e' : ε} :
    (ensure c e >>= f) = panic e' ↔ (¬c ∧ e = e') ∨ (c ∧ f () = panic e') := by
  by_cases h : c <;> simp [ensure, h]

/-- A guard never fails. -/
@[simp] theorem require_bind_eq_panic [Decidable c] :
    ((require c : Outcome ε Unit) >>= f) = panic e ↔ c ∧ f () = panic e := by
  by_cases h : c <;> simp [require, h]

theorem ensure_of_true [Decidable c] (h : c) : ensure c e = ok () := by
  simp [ensure, h]

theorem require_of_true [Decidable c] (h : c) : (require c : Outcome ε Unit) = ok () := by
  simp [require, h]

/-! ### Specifications -/

/-- `x.Spec E Q`: if `x` completes its value satisfies `Q`, and if an assertion of `x`
fails it is one of `E`. -/
def Spec (x : Outcome ε α) (E : ε → Prop) (Q : α → Prop) : Prop :=
  match x with
  | ok a => Q a
  | blocked => True
  | panic e => E e

/-- The value of `x` satisfies `Q` if it completes; any assertion may fail. -/
abbrev Post (x : Outcome ε α) (Q : α → Prop) : Prop := x.Spec (fun _ => True) Q

section

variable {E : ε → Prop} {P P' : α → Prop} {Q : β → Prop}
variable {x : Outcome ε α}

theorem Spec.ok_iff {a : α} : (ok a : Outcome ε α).Spec E P ↔ P a := Iff.rfl

theorem Spec.of_blocked : (blocked : Outcome ε α).Spec E P := trivial

/-- The value of a computation that completes satisfies its specification. -/
theorem Spec.of_eq_ok {a : α} (h : x.Spec E P) (hx : x = ok a) : P a := by
  subst hx
  exact h

/-- An assertion that fails is one the specification allows to fail. -/
theorem Spec.of_eq_panic {e : ε} (h : x.Spec E P) (hx : x = panic e) : E e := by
  subst hx
  exact h

/-- The rule of consequence. -/
theorem Spec.mono (h : x.Spec E P) (hP : ∀ a, x = ok a → P a → P' a) : x.Spec E P' := by
  cases x with
  | ok a => exact hP a rfl h
  | blocked => trivial
  | panic e => exact h

/-- Allowing more assertions to fail. -/
theorem Spec.weaken {E' : ε → Prop} (h : x.Spec E P) (hE : ∀ e, E e → E' e) : x.Spec E' P := by
  cases x with
  | ok a => exact h
  | blocked => trivial
  | panic e => exact hE e h

/-- The rule of composition. -/
theorem Spec.bind {f : α → Outcome ε β} (h : x.Spec E P)
    (hf : ∀ a, x = ok a → P a → (f a).Spec E Q) : (x >>= f).Spec E Q := by
  cases x with
  | ok a => exact hf a rfl h
  | blocked => trivial
  | panic e => exact h

/-- The rule of a guard: what follows may assume it. -/
theorem Spec.require {c : Prop} [Decidable c] {f : Unit → Outcome ε β}
    (hf : c → (f ()).Spec E Q) : (require c >>= f).Spec E Q := by
  by_cases h : c
  · rw [require_of_true h]
    exact hf h
  · rw [Outcome.require, if_neg h]
    trivial

/-- The rule of an assertion known to hold. -/
theorem Spec.ensure {c : Prop} [Decidable c] {e : ε} {f : Unit → Outcome ε β} (h : c)
    (hf : (f ()).Spec E Q) : (ensure c e >>= f).Spec E Q := by
  rw [ensure_of_true h]
  exact hf

/-- The rule of an assertion that is allowed to fail. -/
theorem Spec.ensure_of {c : Prop} [Decidable c] {e : ε} {f : Unit → Outcome ε β} (he : E e)
    (hf : c → (f ()).Spec E Q) : (Outcome.ensure c e >>= f).Spec E Q := by
  by_cases h : c
  · rw [ensure_of_true h]
    exact hf h
  · rw [Outcome.ensure, if_neg h]
    exact he

end

end Outcome

variable {ε σ α : Type}

/-- An execution of the actions `as` from `s₀` to `s`, each of which met `C` in the
state it was taken in. -/
inductive Run (step : σ → α → Outcome ε σ) (C : σ → α → Prop) (s₀ : σ) : List α → σ → Prop
  | nil : Run step C s₀ [] s₀
  | snoc {as : List α} {s s' : σ} {a : α} :
      Run step C s₀ as s → C s a → step s a = .ok s' → Run step C s₀ (as ++ [a]) s'

variable {step : σ → α → Outcome ε σ} {C D : σ → α → Prop} {s₀ s s' : σ} {as : List α}

/-- **The invariant rule.** What holds initially and is kept by every action that meets
the condition holds at the end of every run. -/
theorem Run.invariant {I : σ → Prop} (h : Run step C s₀ as s) (h₀ : I s₀)
    (hstep : ∀ s a s', I s → C s a → step s a = .ok s' → I s') : I s := by
  induction h with
  | nil => exact h₀
  | snoc _ hC hs ih => exact hstep _ _ _ ih hC hs

/-- Weakening the condition keeps every run. -/
theorem Run.mono (h : Run step C s₀ as s) (hCD : ∀ s a, C s a → D s a) :
    Run step D s₀ as s := by
  induction h with
  | nil => exact .nil
  | snoc _ hC hs ih => exact .snoc ih (hCD _ _ hC) hs

/-- A run followed by a run is a run. -/
theorem Run.trans {bs : List α} (h : Run step C s₀ as s) (h' : Run step C s bs s') :
    Run step C s₀ (as ++ bs) s' := by
  induction h' with
  | nil => simpa using h
  | snoc _ hC hs ih =>
    rw [← append_assoc]
    exact .snoc ih hC hs

/-- Executing a list of actions one after the other. -/
def exec (step : σ → α → Outcome ε σ) : σ → List α → Outcome ε σ
  | s, [] => .ok s
  | s, a :: as => step s a >>= fun s' => exec step s' as

/-- A test of the result of a computation. -/
def Outcome.test (x : Outcome ε α) (p : α → Bool) : Bool :=
  match x with
  | .ok a => p a
  | .blocked | .panic _ => false

/-- A computation that passes a test completes. -/
theorem Outcome.of_test {x : Outcome ε α} {p : α → Bool} (h : x.test p = true) :
    ∃ a, x = .ok a ∧ p a = true := by
  cases x with
  | ok a => exact ⟨a, rfl, h⟩
  | blocked | panic e => cases h

/-- The step function that takes only the actions that meet a condition. -/
def guarded (C : σ → α → Prop) [∀ s a, Decidable (C s a)] (step : σ → α → Outcome ε σ) (s : σ)
    (a : α) : Outcome ε σ :=
  if C s a then step s a else .blocked

/-- A computed execution that checks the condition is a run under it. -/
theorem Run.of_guarded [∀ s a, Decidable (C s a)] (h : exec (guarded C step) s₀ as = .ok s) :
    Run step C s₀ as s := by
  induction as generalizing s₀ with
  | nil =>
    rw [exec, Outcome.ok.injEq] at h
    exact h ▸ .nil
  | cons a as ih =>
    obtain ⟨s₁, h₁, h₂⟩ := Outcome.bind_eq_ok.mp h
    rw [guarded] at h₁
    split at h₁
    · have hone : Run step C s₀ [a] s₁ := .snoc .nil ‹_› h₁
      exact hone.trans (ih h₂)
    · cases h₁

/-- A computed execution is a run. -/
theorem Run.of_exec (h : exec step s₀ as = .ok s) :
    Run step (fun _ _ => True) s₀ as s := by
  have heq : guarded (fun _ _ => True) step = step := by
    funext s a
    rw [guarded, if_pos trivial]
  exact Run.of_guarded (heq.symm ▸ h)

/-- The states reached by some run. -/
def Reachable (step : σ → α → Outcome ε σ) (C : σ → α → Prop) (s₀ s : σ) : Prop :=
  ∃ as, Run step C s₀ as s

/-- The invariant rule for reachable states. -/
theorem Reachable.invariant {I : σ → Prop} (h : Reachable step C s₀ s) (h₀ : I s₀)
    (hstep : ∀ s a s', I s → C s a → step s a = .ok s' → I s') : I s := by
  obtain ⟨as, hrun⟩ := h
  exact hrun.invariant h₀ hstep

/-! ### Histories -/

/-- A history, latest event first, in which every event is justified by those before it. -/
def Grounded {ι : Type} (J : List ι → ι → Prop) : List ι → Prop
  | [] => True
  | e :: log => J log e ∧ Grounded J log

variable {ι : Type} {J : List ι → ι → Prop} {log : List ι}

/-- The earlier part of a history. -/
theorem Grounded.of_append {l₁ l₂ : List ι} (h : Grounded J (l₁ ++ l₂)) : Grounded J l₂ := by
  induction l₁ with
  | nil => exact h
  | cons e l₁ ih => exact ih h.2

theorem Grounded.justified {l₁ l₂ : List ι} {e : ι} (h : Grounded J (l₁ ++ e :: l₂)) :
    J l₂ e :=
  h.of_append.1

theorem Grounded.of_mem {e : ι} (h : Grounded J log) (he : e ∈ log) :
    ∃ l₁ l₂, log = l₁ ++ e :: l₂ ∧ J l₂ e := by
  obtain ⟨l₁, l₂, rfl⟩ := append_of_mem he
  exact ⟨l₁, l₂, rfl, h.justified⟩

/-- **At most once**: if an event in `P` is justified only by a history without one, the
history has at most one. -/
theorem Grounded.at_most_once {P : ι → Bool} (h : Grounded J log)
    (hP : ∀ l e, J l e → P e = true → ∀ e' ∈ l, P e' = false) : (log.filter P).length ≤ 1 := by
  induction log with
  | nil => exact Nat.zero_le 1
  | cons e log ih =>
    cases he : P e with
    | false =>
      rw [filter_cons_of_neg (by simp [he])]
      exact ih h.2
    | true =>
      have hnone : log.filter P = [] := by
        rw [filter_eq_nil_iff]
        intro e' he'
        rw [hP log e h.1 he e' he']
        exact Bool.false_ne_true
      rw [filter_cons_of_pos he, hnone]
      exact Nat.le_refl 1

/-- Two events of a kind that happens at most once are the same. -/
theorem Grounded.unique {β : Type} {f : β → ι} (h : Grounded J log)
    (hf : ∀ l b, J l (f b) → ∀ b', f b' ∉ l) {b b' : β} (hb : f b ∈ log) (hb' : f b' ∈ log) :
    f b = f b' := by
  obtain ⟨l₁, l₂, hlog, hJ⟩ := h.of_mem hb
  obtain ⟨l₁', l₂', hlog', hJ'⟩ := h.of_mem hb'
  -- the earlier one stands before the later one
  rcases append_eq_append_iff.mp (hlog.symm.trans hlog') with ⟨l, -, hl⟩ | ⟨l, -, hl⟩
  · cases l with
    | nil => exact (cons.inj hl).1
    | cons e l =>
      refine absurd ?_ (hf l₂ b hJ b')
      rw [(cons.inj hl).2]
      exact mem_append_right _ mem_cons_self
  · cases l with
    | nil => exact (cons.inj hl).1.symm
    | cons e l =>
      refine absurd ?_ (hf l₂' b' hJ' b)
      rw [(cons.inj hl).2]
      exact mem_append_right _ mem_cons_self

end Verif
