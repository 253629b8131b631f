import Pintos.Outcome

/-!
# Computations that Consult an Oracle

Code that allocates memory asks a question whose answer it does not control, and goes on
with either answer. `OracleM ε α` is a computation that may fail an assertion and that
draws its answers, one after the other, from a list; once the list is used up every answer
is yes, so that the empty list stands for an environment that never refuses.

`x.Spec r E Q` is total correctness: `x` completes in a value that satisfies `Q`, or an
assertion of `E` fails. With `r = true` it says so for every list of answers; with
`r = false` only for an environment that never refuses. A lemma stated for both has one
proof, and its `Q` may say more for the second.

## Main results

* `OracleM.Spec.bind`, `OracleM.Spec.draw`: the rules of composition and of a question.
* `OracleM.Spec.run_or`, `OracleM.Spec.run`: what a computation that nothing is refused to
  results in.
-/

namespace Verif

/-- A computation that may fail, and draws answers from a list. -/
abbrev OracleM (ε : Type) := StateT (List Bool) (Outcome ε)

namespace OracleM

variable {ε α β : Type}

/-- The next answer; yes, if there are no more. -/
def draw : OracleM ε Bool
  | [] => .ok (true, [])
  | b :: answers => .ok (b, answers)

/-- An assertion of `c`, reporting `e` when it fails. -/
def assert (c : Prop) [Decidable c] (e : ε) : OracleM ε Unit := fun answers =>
  if c then .ok ((), answers) else .panic e

/-- A computation that always fails. -/
def fail (e : ε) : OracleM ε α := fun _ => .panic e

/-- A computation whose failures are reported in other terms. -/
def liftPanic {ε' : Type} (f : ε → ε') (x : OracleM ε α) : OracleM ε' α := fun answers =>
  match x answers with
  | .ok v => .ok v
  | .blocked => .blocked
  | .panic e => .panic (f e)

theorem bind_apply (x : OracleM ε α) (f : α → OracleM ε β) (answers : List Bool) :
    (x >>= f) answers = x answers >>= fun r => f r.1 r.2 := rfl

/-! ### Specifications -/

/-- The lists of answers that refuse nothing, unless refusals are allowed. -/
def Allowed (r : Bool) (answers : List Bool) : Prop := r = false → answers = []

/-- **Total correctness**: for all answers that are allowed, `x` completes in a value that
satisfies `Q`, or one of the assertions of `E` fails. -/
def Spec (x : OracleM ε α) (r : Bool) (E : ε → Prop) (Q : α → Prop) : Prop :=
  ∀ answers, Allowed r answers →
    match x answers with
    | .ok (a, rest) => Allowed r rest ∧ Q a
    | .blocked => False
    | .panic e => E e

section

variable {r : Bool} {E : ε → Prop} {P Q : α → Prop} {R : β → Prop}
variable {x : OracleM ε α} {e : ε}

theorem Spec.pure {a : α} (h : Q a) : (pure a : OracleM ε α).Spec r E Q :=
  fun _ hanswers => ⟨hanswers, h⟩

/-- The rule of composition. -/
theorem Spec.bind {f : α → OracleM ε β} (h : x.Spec r E P) (hf : ∀ a, P a → (f a).Spec r E R) :
    (x >>= f).Spec r E R := by
  intro answers hanswers
  have hx := h answers hanswers
  rw [bind_apply]
  cases hres : x answers with
  | ok v =>
    rw [hres] at hx
    exact hf v.1 hx.2 v.2 hx.1
  | blocked | panic e =>
    rw [hres] at hx
    exact hx

/-- The rule of consequence. -/
theorem Spec.mono (h : x.Spec r E P) (hPQ : ∀ a, P a → Q a) : x.Spec r E Q := by
  intro answers hanswers
  have hx := h answers hanswers
  cases hres : x answers with
  | ok v =>
    rw [hres] at hx
    exact ⟨hx.1, hPQ v.1 hx.2⟩
  | blocked | panic e =>
    rw [hres] at hx
    exact hx

/-- More assertions may be allowed to fail. -/
theorem Spec.weaken {E' : ε → Prop} (h : x.Spec r E Q) (hE : ∀ e, E e → E' e) : x.Spec r E' Q := by
  intro answers hanswers
  have hx := h answers hanswers
  cases hres : x answers with
  | ok v | blocked =>
    rw [hres] at hx
    exact hx
  | panic e =>
    rw [hres] at hx
    exact hE e hx

/-- The rule of an assertion known to hold. -/
theorem Spec.assert {c : Prop} [Decidable c] {f : Unit → OracleM ε β} (h : c)
    (hf : (f ()).Spec r E R) : (assert c e >>= f).Spec r E R := by
  intro answers hanswers
  rw [bind_apply, OracleM.assert, if_pos h]
  exact hf answers hanswers

/-- The rule of an assertion that is allowed to fail. -/
theorem Spec.assert_of {c : Prop} [Decidable c] {f : Unit → OracleM ε β} (he : ¬c → E e)
    (hf : c → (f ()).Spec r E R) : (OracleM.assert c e >>= f).Spec r E R := by
  by_cases h : c
  · exact Spec.assert h (hf h)
  · intro answers _
    rw [bind_apply, OracleM.assert, if_neg h]
    exact he h

/-- The rule of a failure that is allowed. -/
theorem Spec.fail (he : E e) : (fail e : OracleM ε α).Spec r E Q := fun _ _ => he

/-- The rule of a question: both answers are possible, unless nothing is refused. -/
theorem Spec.draw : (draw : OracleM ε Bool).Spec r E fun b => r = false → b = true := by
  intro answers hanswers
  cases answers with
  | nil => exact ⟨hanswers, fun _ => rfl⟩
  | cons b answers =>
    have hrefuse : r ≠ false := fun hr => by cases hanswers hr
    exact ⟨fun hr => absurd hr hrefuse, fun hr => absurd hr hrefuse⟩

/-- The rule of a computation whose failures are reported in other terms. -/
theorem Spec.liftPanic {ε' : Type} {f : ε → ε'} {E' : ε' → Prop}
    (h : x.Spec r (fun e => E' (f e)) P) : (x.liftPanic f).Spec r E' P := by
  intro answers hanswers
  have hx := h answers hanswers
  rw [OracleM.liftPanic]
  cases hres : x answers with
  | ok v | blocked | panic e =>
    rw [hres] at hx
    exact hx

/-- What a computation that completes results in. -/
theorem Spec.of_eq_ok {answers : List Bool} {v : α × List Bool} (h : x.Spec true E Q)
    (hx : x answers = .ok v) : Q v.1 := by
  have hspec := h answers fun hr => by cases hr
  rw [hx] at hspec
  exact hspec.2

/-- The assertions that can fail. -/
theorem Spec.of_eq_panic {answers : List Bool} (h : x.Spec true E Q) (hx : x answers = .panic e) :
    E e := by
  have hspec := h answers fun hr => by cases hr
  rw [hx] at hspec
  exact hspec

/-- **If nothing is refused** a computation completes, or one of the assertions fails. -/
theorem Spec.run_or (h : x.Spec false E Q) :
    (∃ a, x [] = .ok (a, []) ∧ Q a) ∨ ∃ e, x [] = .panic e ∧ E e := by
  have hspec := h [] fun _ => rfl
  cases hres : x [] with
  | ok v =>
    rw [hres] at hspec
    obtain ⟨hrest, hQ⟩ := hspec
    have hv : v = (v.1, []) := Prod.ext rfl (hrest rfl)
    exact .inl ⟨v.1, congrArg _ hv, hQ⟩
  | blocked =>
    rw [hres] at hspec
    exact hspec.elim
  | panic e =>
    rw [hres] at hspec
    exact .inr ⟨e, rfl, hspec⟩

/-- If no assertion can fail either, it completes. -/
theorem Spec.run (h : x.Spec false (fun _ => False) Q) : ∃ a, x [] = .ok (a, []) ∧ Q a :=
  h.run_or.resolve_right fun ⟨_, _, he⟩ => he

end

end OracleM

end Verif
