import Pintos.Synch

/-!
# Which Waiter a Condition Variable Signals

`cond_wait` appends its `semaphore_elem` to the waiters of the condition, and `cond_signal`
takes the first one out. So a condition variable is first come, first served, whatever the
priorities are; the semaphore that orders its waiters by priority is the private one of a
single thread. The thread that is signalled has the highest priority as long as the threads
enter in order of their priorities.

## Main results

* `SynchStep.waiters_cases`: what a step does to the waiters of a condition.
* `condSignal_highest`: in every run in which the threads enter in order, every signal and
  every sequence of signals releases the waiters in order of priority.
* `condSignal_lower`: two threads that enter in the other order.
-/

namespace Pintos

open Verif Verif.Outcome Function List

/-- The thread that a signal of the condition has taken out of the waiters. -/
def SynchEvent.takenFrom (c : CondId) : SynchEvent → Option Tid
  | .signalled _ d (some w) => if d = c then some w else none
  | _ => none

theorem SynchEvent.takenFrom_self (t : Tid) (c : CondId) (w : Tid) :
    SynchEvent.takenFrom c (.signalled t c (some w)) = some w :=
  if_pos rfl

/-- The condition whose waiters a thread is about to enter. -/
def Control.entering (x : Control) : Option CondId :=
  match x.todo with
  | .pushBack c :: _ => some c
  | _ => none

/-- The action changes priorities. -/
def SynchAction.setsPriority : SynchAction → Bool
  | .setPriority _ => true
  | .call _ _ | .run _ => false

namespace Synch

/-- The priority of a thread does not change while it waits for a condition, as it is without
recalculations: a thread sets its own priority only. -/
def KeepsPriorities (s : Synch) : SynchAction → Prop
  | .setPriority p => ∀ c, ∀ t ∈ s.condWaiters c, p t = s.priority t
  | .call _ _ | .run _ => True

theorem keepsPriorities_of_not {s : Synch} {a : SynchAction} (h : a.setsPriority = false) :
    s.KeepsPriorities a := by
  cases a with
  | setPriority p => cases h
  | call t c | run t => trivial

/-- A thread enters the waiters of a condition only if none of them has a lower priority. -/
def EntersLast (s : Synch) : SynchAction → Prop
  | .run t => ∀ c ∈ (s.threads t).entering, ∀ u ∈ s.condWaiters c, s.priority t ≤ s.priority u
  | .call _ _ | .setPriority _ => True

instance (s : Synch) (a : SynchAction) : Decidable (s.EntersLast a) :=
  match a with
  | .run t => inferInstanceAs (Decidable (∀ c ∈ (s.threads t).entering, _))
  | .call _ _ | .setPriority _ => inferInstanceAs (Decidable True)

/-- No thread enters the waiters of the condition. -/
def NoneEnters (c : CondId) (s : Synch) : SynchAction → Prop
  | .run t => (s.threads t).entering ≠ some c
  | .call _ _ | .setPriority _ => True

/-- The waiters of every condition are in order of non-increasing priority. -/
def CondOrdered (s : Synch) : Prop :=
  ∀ c, (s.condWaiters c).Pairwise fun a b => s.priority b ≤ s.priority a

end Synch

variable {s s' : Synch} {a : SynchAction}

/-- **What a step does to the waiters of a condition**: nothing, or a thread enters at the end,
or the first one is signalled. -/
theorem SynchStep.waiters_cases (hst : SynchStep s a s') (c : CondId) :
    (s'.condWaiters c = s.condWaiters c ∧
      ∃ new, s'.log = new ++ s.log ∧ new.filterMap (SynchEvent.takenFrom c) = []) ∨
    (∃ t, a = .run t ∧ (s.threads t).entering = some c ∧
      s'.condWaiters c = s.condWaiters c ++ [t] ∧ s'.log = .waiting t c :: s.log) ∨
    ∃ t w rest, a = .run t ∧ s.condWaiters c = w :: s'.condWaiters c ∧
      s'.log = .signalled t c (some w) :: s.log ∧
      s'.threads t = ⟨.semaUp (.waiter w) :: rest, false⟩ := by
  cases hst with
  | setPriority p | assertNotHeld _ _ | assertHeld _ _ | block _ _ _ | tryFail _ _
  | broadcast _ _ => exact .inl ⟨rfl, [], rfl, rfl⟩
  | call t k htodo =>
    cases k with
    | condBroadcast k l => exact .inl ⟨rfl, [_], rfl, rfl⟩
    | _ => exact .inl ⟨rfl, [], rfl, rfl⟩
  | @pushBack t k rest ht =>
    rcases eq_or_ne c k with rfl | hck
    · exact .inr (.inl ⟨t, rfl, by rw [ht]; rfl, update_self _ _ _, rfl⟩)
    · exact .inl ⟨update_of_ne hck _ _, [_], rfl, rfl⟩
  | @signal t w k rest ws ht hw =>
    rcases eq_or_ne c k with rfl | hck
    · have hself : update s.condWaiters c ws c = ws := update_self _ _ _
      exact .inr (.inr ⟨t, w, rest, rfl, hw.trans (congrArg (w :: ·) hself.symm), rfl,
        update_self _ _ _⟩)
    · refine .inl ⟨update_of_ne hck _ _, [_], rfl, ?_⟩
      simp [SynchEvent.takenFrom, hck.symm]
  | _ => exact .inl ⟨rfl, [_], rfl, rfl⟩

/-- Priorities change in one way only. -/
theorem SynchStep.priority (hst : SynchStep s a s') :
    s'.priority = s.priority ∨ a = .setPriority s'.priority := by
  cases hst with
  | setPriority p => exact .inr rfl
  | call t k htodo => cases k <;> exact .inl rfl
  | _ => exact .inl rfl

/-- **Every step keeps the waiters in order**, if those who enter enter last. -/
theorem SynchStep.condOrdered (hst : SynchStep s a s') (h : s.CondOrdered)
    (hkeep : s.KeepsPriorities a) (hlast : s.EntersLast a) : s'.CondOrdered := by
  intro c
  -- a thread that waits has the priority it had before
  have hprio : ∀ t ∈ s.condWaiters c, s'.priority t = s.priority t := by
    intro t ht
    rcases hst.priority with heq | rfl
    · rw [heq]
    · exact hkeep c t ht
  have hold : (s.condWaiters c).Pairwise fun a b => s'.priority b ≤ s'.priority a := by
    refine (h c).imp_of_mem fun ha hb hab => ?_
    rw [hprio _ ha, hprio _ hb]
    exact hab
  rcases hst.waiters_cases c with ⟨hsame, -⟩ | ⟨t, rfl, henter, hpush, -⟩ |
    ⟨t, w, rest, -, hpop, -⟩
  · rw [hsame]
    exact hold
  · rw [hpush]
    refine pairwise_append.mpr ⟨hold, pairwise_singleton _ _, fun u hu v hv => ?_⟩
    obtain rfl := mem_singleton.mp hv
    rcases hst.priority with heq | heq
    · rw [heq]
      exact hlast c henter u hu
    · cases heq
  · rw [hpop] at hold
    exact hold.of_cons

/-- The condition under which the waiters stay in order. -/
def Synch.InOrder (s : Synch) (a : SynchAction) : Prop :=
  s.KeepsPriorities a ∧ s.EntersLast a

/-- The waiters are in order in every state reached by steps that meet the condition. -/
theorem SynchReachable.condOrdered {value : SemaId → ℕ}
    (h : SynchReachable value Synch.InOrder s) : s.CondOrdered := by
  obtain ⟨junk, hreach⟩ := h
  exact hreach.invariant (fun _ => List.Pairwise.nil) fun s a s' hs ha hstep =>
    (Synch.step_cases hstep).condOrdered hs ha.1 ha.2

/-- As long as nobody enters, the signals of a run take the waiters out from the front. -/
theorem taken_from_front {c : CondId} {as : List SynchAction} {C : Synch → SynchAction → Prop}
    (hrun : Run Synch.step C s as s') (hC : ∀ s a, C s a → Synch.NoneEnters c s a) :
    ∃ new, s'.log = new ++ s.log ∧
      s.condWaiters c = (new.filterMap (SynchEvent.takenFrom c)).reverse ++ s'.condWaiters c := by
  induction hrun with
  | nil => exact ⟨[], rfl, rfl⟩
  | @snoc as s₁ s₂ a _ ha hstep ih =>
    obtain ⟨new, hlog, hwaiters⟩ := ih
    rcases (Synch.step_cases hstep).waiters_cases c with ⟨hsame, es, hes, hnone⟩ |
      ⟨t, rfl, henter, -⟩ | ⟨t, w, rest, -, hpop, hes, -⟩
    · refine ⟨es ++ new, by rw [hes, hlog, append_assoc], ?_⟩
      rw [filterMap_append, hnone, nil_append, hsame]
      exact hwaiters
    · exact absurd henter (hC _ _ ha)
    · refine ⟨.signalled t c (some w) :: new, by rw [hes, hlog, cons_append], ?_⟩
      rw [filterMap_cons_some (SynchEvent.takenFrom_self t c w), reverse_cons,
        append_assoc, singleton_append, ← hpop]
      exact hwaiters

/-- **A condition variable signals the waiters in order of priority**, in every state reached by
steps in which waiting threads keep their priorities and threads enter the waiters of a
condition only when none of them has a lower priority: no waiter has a higher priority than the
thread that a `cond_signal` releases; and the threads that are released from then on, until
another thread enters, are released in order of non-increasing priority. -/
theorem condSignal_highest {value : SemaId → ℕ} (h : SynchReachable value Synch.InOrder s)
    (c : CondId) :
    (∀ t w s', s.step (.run t) = ok s' → s'.log = .signalled t c (some w) :: s.log →
      (∃ rest, s'.threads t = ⟨.semaUp (.waiter w) :: rest, false⟩) ∧
      ∀ u ∈ s.condWaiters c, s.priority u ≤ s.priority w) ∧
    ∀ as s', Run Synch.step (fun s a => s.KeepsPriorities a ∧ Synch.NoneEnters c s a) s as s' →
      ∃ new, s'.log = new ++ s.log ∧
        ((new.filterMap (SynchEvent.takenFrom c)).reverse).Pairwise
          fun a b => s.priority b ≤ s.priority a := by
  have hord := h.condOrdered c
  refine ⟨fun t w s' hstep hlog => ?_, fun as s' hrun => ?_⟩
  · rcases (Synch.step_cases hstep).waiters_cases c with ⟨-, es, hes, hnone⟩ |
      ⟨t', -, -, -, hes⟩ | ⟨t', w', rest, ht', hpop, hes, htodo⟩
    · -- the event is the one that was recorded
      have hsplit : es = [.signalled t c (some w)] :=
        append_cancel_right (hes.symm.trans hlog)
      rw [hsplit, filterMap_cons_some (SynchEvent.takenFrom_self t c w)] at hnone
      cases hnone
    · rw [hlog] at hes
      cases (cons.inj hes).1
    · rw [hlog] at hes
      cases (cons.inj hes).1
      refine ⟨⟨rest, htodo⟩, fun u hu => ?_⟩
      rw [hpop] at hord hu
      rcases mem_cons.mp hu with rfl | hu
      · exact le_refl _
      · exact (pairwise_cons.mp hord).1 u hu
  · obtain ⟨new, hlog, hwaiters⟩ := taken_from_front hrun fun s a ha => ha.2
    refine ⟨new, hlog, ?_⟩
    rw [hwaiters] at hord
    exact (pairwise_append.mp hord).1

/-- Threads 1 and 2 wait for a condition, one after the other, and thread 3 is about to signal
it. -/
def signalAfterTwo : List SynchAction :=
  [.call 1 (.lockAcquire 0), .run 1, .run 1, .run 1, .call 1 (.condWait 0 0), .run 1, .run 1,
    .run 1, .run 1, .run 1, .run 1, .run 1,
    .call 2 (.lockAcquire 0), .run 2, .run 2, .run 2, .call 2 (.condWait 0 0), .run 2, .run 2,
    .run 2, .run 2, .run 2, .run 2, .run 2,
    .call 3 (.lockAcquire 0), .run 3, .run 3, .run 3, .call 3 (.condSignal 0 0), .run 3]

/-- The machine with these priorities, before anybody waits. -/
def withPriorities (p : Tid → ℤ) : Synch :=
  { synchInit (fun _ => 0) (fun _ => 0) with priority := p }

/-- Thread 1 has a higher priority than thread 2, and is signalled. -/
theorem condSignal_highest_two :
    ∃ s s', SynchReachable (fun _ => 0) Synch.InOrder s ∧ s.step (.run 3) = ok s' ∧
      s.condWaiters 0 = [1, 2] ∧ s'.log = .signalled 3 0 (some 1) :: s.log ∧
      ∀ u ∈ s.condWaiters 0, s.priority u ≤ s.priority 1 := by
  have key : ∃ s s', Run Synch.step (fun s a => a.setsPriority = false ∧ s.EntersLast a)
      (withPriorities fun t => 3 - t) signalAfterTwo s ∧ s.step (.run 3) = ok s' ∧
      s.condWaiters 0 = [1, 2] ∧ s'.log = .signalled 3 0 (some 1) :: s.log :=
    ⟨_, _, Run.of_guarded rfl, rfl, rfl, rfl⟩
  obtain ⟨s, s', hrun, hstep, hwaiters, hlog⟩ := key
  have hset : Run Synch.step Synch.InOrder (synchInit (fun _ => 0) fun _ => 0)
      [.setPriority fun t => 3 - t] (withPriorities fun t => 3 - t) :=
    .snoc .nil ⟨fun _ _ ht => absurd ht not_mem_nil, trivial⟩ rfl
  have hreach : SynchReachable (fun _ => 0) Synch.InOrder s :=
    ⟨_, _, hset.trans (hrun.mono fun s a ha => ⟨Synch.keepsPriorities_of_not ha.1, ha.2⟩)⟩
  exact ⟨s, s', hreach, hstep, hwaiters, hlog,
    ((condSignal_highest hreach 0).1 3 1 s' hstep hlog).2⟩

/-- **The other way round**: thread 1 has a lower priority than thread 2, and is signalled. -/
theorem condSignal_lower :
    ¬∀ (s s' : Synch) (c : CondId) (t w : Tid),
      SynchReachable (fun _ => 0) Synch.KeepsPriorities s → s.step (.run t) = ok s' →
      s'.log = .signalled t c (some w) :: s.log →
      ∀ u ∈ s.condWaiters c, s.priority u ≤ s.priority w := by
  intro h
  have hset : Run Synch.step Synch.KeepsPriorities (synchInit (fun _ => 0) fun _ => 0)
      [.setPriority fun t => t] (withPriorities fun t => t) :=
    .snoc .nil (fun _ _ ht => absurd ht not_mem_nil) rfl
  have hrun : Run Synch.step (fun _ a => a.setsPriority = false) (withPriorities fun t => t)
      signalAfterTwo _ := Run.of_guarded rfl
  have hreach : SynchReachable (fun _ => 0) Synch.KeepsPriorities _ :=
    ⟨_, _, hset.trans (hrun.mono fun s a ha => Synch.keepsPriorities_of_not ha)⟩
  have hle := h _ _ 0 3 1 hreach rfl rfl 2 (by decide)
  revert hle
  decide

end Pintos
