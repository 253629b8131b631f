import Mathlib.Data.List.Perm.Basic
import Mathlib.Data.List.Nodup
import Mathlib.Logic.Function.Basic
import Mathlib.Tactic.Common

/-!
# Queues That Partition Their Members

A family of queues over members of which each knows where it belongs: `home x` is the
one queue `x` is in, or `none`. `Housed queue home` says that every queue has no
duplicates and holds exactly the members at home there. A member that moves changes
its own home, leaves the queue it was in and enters the one it goes to, and nothing
else changes; `Housed.move` is that rule, whatever the order of the two updates.

## Main results

* `Housed.move`: a single member moves.
* `Housed.perm`: the queues may be permuted.
* `Housed.unique`: no member is in two queues.
-/

namespace Verif

variable {Q T : Type}

/-- Every queue is duplicate-free and holds exactly the members at home there. -/
structure Housed (queue : Q → List T) (home : T → Option Q) : Prop where
  nodup : ∀ q, (queue q).Nodup
  mem_iff : ∀ q x, x ∈ queue q ↔ home x = some q

namespace Housed

variable {queue queue' : Q → List T} {home home' : T → Option Q}

/-- No member is in two queues. -/
theorem unique (h : Housed queue home) (q q' : Q) {x : T} (hq : x ∈ queue q)
    (hq' : x ∈ queue q') : q = q' := by
  have h₁ := (h.mem_iff q x).mp hq
  have h₂ := (h.mem_iff q' x).mp hq'
  exact Option.mem_unique h₁ h₂

/-- A member without a home is in no queue. -/
theorem not_mem (h : Housed queue home) {x : T} (hx : home x = none) (q : Q) :
    x ∉ queue q := by
  rw [h.mem_iff, hx]
  exact Option.some_ne_none q ∘ Eq.symm

/-- Permuting the queues keeps them housed. -/
theorem perm (h : Housed queue home) (hp : ∀ q, (queue' q).Perm (queue q)) :
    Housed queue' home where
  nodup q := (hp q).nodup_iff.mpr (h.nodup q)
  mem_iff q x := (hp q).mem_iff.trans (h.mem_iff q x)

variable [DecidableEq T] [DecidableEq Q]

omit [DecidableEq Q] in
/-- A member has nothing to leave in a queue that is not its home. -/
theorem erase_eq (h : Housed queue home) {t : T} {q : Q} (ht : home t ≠ some q) :
    (queue q).erase t = queue q :=
  List.erase_of_not_mem (mt (h.mem_iff q t).mp ht)

/-- The queue `q` after the member `t` left it, entering it again if it is its new
home. -/
def moved (queue : Q → List T) (t : T) (dest : Option Q) (q : Q) : List T :=
  if dest = some q then t :: (queue q).erase t else (queue q).erase t

/-- **The rule of a move**: `t` leaves its queue and enters its new home, in whatever
place. -/
theorem move (h : Housed queue home) (t : T)
    (hhome : ∀ x, x ≠ t → home' x = home x)
    (hqueue : ∀ q, (queue' q).Perm (moved queue t (home' t) q)) :
    Housed queue' home' := by
  have hmem : ∀ q, t ∉ (queue q).erase t := fun q => (h.nodup q).not_mem_erase
  refine ⟨fun q => (hqueue q).nodup_iff.mpr ?_, fun q x => (hqueue q).mem_iff.trans ?_⟩
  · unfold moved
    split
    · exact List.nodup_cons.mpr ⟨hmem q, (h.nodup q).erase t⟩
    · exact (h.nodup q).erase t
  · unfold moved
    rcases eq_or_ne x t with rfl | hx
    · split
      · simp [*]
      · simp [*]
    · rw [hhome x hx, ← h.mem_iff]
      split <;> simp [hx, List.mem_erase_of_ne hx]

/-- A queue that a homeless member neither leaves nor enters is as it was. -/
theorem moved_none (h : Housed queue home) {t : T} {dest : Option Q} {q : Q}
    (ht : home t ≠ some q) (hdest : dest ≠ some q) : moved queue t dest q = queue q := by
  rw [moved, if_neg hdest, h.erase_eq ht]

/-- The queue a member enters. -/
theorem moved_enter (h : Housed queue home) {t : T} {q : Q} (ht : home t ≠ some q) :
    moved queue t (some q) q = t :: queue q := by
  rw [moved, if_pos rfl, h.erase_eq ht]

/-- The queue a member leaves. -/
theorem moved_leave {t : T} {dest : Option Q} {q : Q} (hdest : dest ≠ some q) :
    moved queue t dest q = (queue q).erase t := by
  rw [moved, if_neg hdest]

end Housed

end Verif
