import Pintos.SynchCond

/-!
# Broadcasts

While a thread is in `cond_broadcast` it holds the lock, so that nobody else changes the
waiters of the condition, and each of its rounds takes one of them out. What it has
signalled so far and the waiters that are left are together those that were waiting when it
was called (`InBroadcast`), and the number of statements it has still to execute goes down
with each of its steps (`rank`).

## Main results

* `InBroadcast.step`: every step of a run brings a `cond_broadcast` closer to its end, if it
  is a step of its thread, or leaves it where it is.
* `Broadcasts.step`: whoever has a `cond_broadcast` to finish is in one.
-/

namespace Pintos

open Verif Verif.Outcome Function Outcome

/-- The latest `cond_broadcast` of a thread: its condition, the threads that were waiting,
and those that it has signalled since. -/
def broadcastOf : List SynchEvent → Tid → Option (CondId × List Tid × List Tid)
  | [], _ => none
  | .broadcasting u c ws :: log, t => if t = u then some (c, ws, []) else broadcastOf log t
  | .signalled u _ (some w) :: log, t =>
    if t = u then (broadcastOf log t).map fun b => (b.1, b.2.1, b.2.2 ++ [w])
    else broadcastOf log t
  | _ :: log, t => broadcastOf log t

/-! ### Broadcasts -/

/-- The statements left of a `cond_broadcast`. -/
inductive Broadcasting (c : CondId) (l : LockId) : List Stmt → Prop
  | test : Broadcasting c l [.broadcast c l]
  | check : Broadcasting c l [.assertHeld l, .signal c, .broadcast c l]
  | signal : Broadcasting c l [.signal c, .broadcast c l]
  | raise (w : Tid) : Broadcasting c l [.semaUp (.waiter w), .broadcast c l]

/-- How many statements a `cond_broadcast` has still to execute, with `n` waiters left. -/
def broadcastRank (n : ℕ) : List Stmt → ℕ
  | [.broadcast _ _] => 4 * n + 1
  | .assertHeld _ :: _ => 4 * n
  | .signal _ :: _ => 4 * n - 1
  | .semaUp _ :: _ => 4 * n + 2
  | _ => 0

/-- The action is a step of the thread. -/
def SynchAction.isRun (u : Tid) : SynchAction → Bool
  | .run t => t = u
  | _ => false

namespace Synch

/-- The thread is in `cond_broadcast`: what it has signalled and the waiters that are left
are those that were waiting when it was called. -/
structure InBroadcast (s : Synch) (u : Tid) (c : CondId) (l : LockId) : Prop where
  shape : Broadcasting c l (s.threads u).todo
  waiters : ∀ rest, (s.threads u).todo = .assertHeld l :: rest ∨
    (s.threads u).todo = .signal c :: rest → s.condWaiters c ≠ []
  account : ∃ ws released, broadcastOf s.log u = some (c, ws, released) ∧
    released ++ s.condWaiters c = ws

/-- How many statements the thread has still to execute of its `cond_broadcast`. -/
def rank (s : Synch) (u : Tid) (c : CondId) : ℕ :=
  broadcastRank (s.condWaiters c).length (s.threads u).todo

variable {s s' : Synch} {a : SynchAction} {lockOf : CondId → LockId} {t u : Tid} {c k : CondId}
  {l : LockId} {stmt : Stmt} {rest : List Stmt}

/-- A thread in `cond_broadcast` holds the lock. -/
theorem InBroadcast.inside (h : s.InBroadcast u c l) (hg : s.Guarded lockOf) :
    l = lockOf c ∧ s.owns u l = .inside := by
  have hfits := hg.fits u
  have hshape := h.shape
  generalize (s.threads u).todo = todo at hfits hshape
  cases hshape with
  | test => exact ⟨hfits.1, hfits.2.1⟩
  | check => exact ⟨hfits.2.2.1, hfits.1⟩
  | signal | raise w => exact ⟨hfits.2.1, hfits.2.2.1⟩

/-- Nobody else holds the lock meanwhile. -/
theorem InBroadcast.exclusive (h : s.InBroadcast u c l) (hg : s.Guarded lockOf)
    (ht : s.owns t (lockOf c) = .inside) : t = u := by
  obtain ⟨rfl, hu⟩ := h.inside hg
  by_contra hne
  have hout := ((hg.locks (lockOf c)).eq_owned (t := u) (by rw [hu]; simp)).2.2 t hne
  rw [ht] at hout
  cases hout

/-- A step that the `cond_broadcast` does not notice. -/
theorem InBroadcast.keep (h : s.InBroadcast u c l)
    (htodo : (s'.threads u).todo = (s.threads u).todo)
    (hcond : s'.condWaiters c = s.condWaiters c)
    (hlog : broadcastOf s'.log u = broadcastOf s.log u) :
    s'.InBroadcast u c l ∧ s'.rank u c = s.rank u c := by
  refine ⟨⟨?_, fun rest hrest => ?_, ?_⟩, ?_⟩
  · rw [htodo]
    exact h.shape
  · rw [hcond]
    rw [htodo] at hrest
    exact h.waiters rest hrest
  · rw [hcond, hlog]
    exact h.account
  · rw [rank, rank, htodo, hcond]

end Synch

open Synch

/-- The thread whose `cond_broadcast` an event is part of, if any. -/
def SynchEvent.author : SynchEvent → Option Tid
  | .broadcasting u _ _ | .signalled u _ (some _) => some u
  | _ => none

theorem broadcastOf_cons_of_ne {log : List SynchEvent} {e : SynchEvent} {u : Tid}
    (he : e.author ≠ some u) : broadcastOf (e :: log) u = broadcastOf log u := by
  cases e with
  | broadcasting v c ws =>
    have huv : u ≠ v := fun h => he (congrArg some h.symm)
    rw [broadcastOf, if_neg huv]
  | signalled v c w =>
    cases w with
    | none => rfl
    | some w =>
      have huv : u ≠ v := fun h => he (congrArg some h.symm)
      rw [broadcastOf, if_neg huv]
  | _ => rfl

/-- The thread that does something. -/
def SynchAction.actor : SynchAction → Option Tid
  | .call t _ | .run t => some t
  | .setPriority _ => none

section

variable {s s' : Synch} {a : SynchAction} {lockOf : CondId → LockId} {u : Tid} {c : CondId}
  {l : LockId}

/-- What the threads do that `u` does not take part in. -/
theorem SynchStep.frame (hst : SynchStep s a s') (hu : a.actor ≠ some u) :
    (s'.threads u).todo = (s.threads u).todo ∧ broadcastOf s'.log u = broadcastOf s.log u := by
  have other : ∀ {t : Tid} {b : Control}, some t ≠ some u →
      (update s.threads t b u).todo = (s.threads u).todo := by
    intro t b ht
    have hut : u ≠ t := fun h => ht (congrArg some h.symm)
    rw [update_of_ne hut]
  cases hst with
  | setPriority p => exact ⟨rfl, rfl⟩
  | call t k htodo =>
    refine ⟨?_, ?_⟩
    · rw [threads_goto, (waiters_recordCall s t k).2]
      exact other hu
    · cases k with
      | condBroadcast k l => exact broadcastOf_cons_of_ne hu
      | _ => rfl
  | @wake t w n rest ws ht hw hb =>
    have hut : u ≠ t := fun h => hu (congrArg some h.symm)
    exact ⟨(Goes.wake s t w n ws rest).others u hut, rfl⟩
  | signal ht hw => exact ⟨other hu, broadcastOf_cons_of_ne hu⟩
  | assertNotHeld ht _ | assertHeld ht _ | semaInit ht | block ht _ _ | down ht _ _
  | tryDown ht _ | tryFail ht _ | up ht _ | setHolder ht | clearHolder ht | pushBack ht
  | signalNone ht _ | broadcastDone ht _ | broadcast ht _ | returnWait ht => exact ⟨other hu, rfl⟩

/-- Only a thread that holds the lock changes the waiters of a condition. -/
theorem SynchStep.condWaiters (hst : SynchStep s a s') (hg : s.Guarded lockOf) (c : CondId) :
    s'.condWaiters c = s.condWaiters c ∨
      ∃ t, a.actor = some t ∧ s.owns t (lockOf c) = .inside := by
  cases hst with
  | call t k htodo =>
    refine .inl ?_
    show (s.recordCall t k).condWaiters c = _
    rw [(condWaiters_recordCall s t k).1]
  | @pushBack t k rest ht | @signal t w k rest ws ht hw =>
    have hfits := hg.fits_of ht
    rcases eq_or_ne c k with rfl | hck
    · exact .inr ⟨t, rfl, hfits.1⟩
    · exact .inl (update_of_ne hck _ _)
  | _ => exact .inl rfl

/-- What the other threads do leaves a `cond_broadcast` where it is. -/
theorem SynchStep.inBroadcast_other (hst : SynchStep s a s') (hg : s.Guarded lockOf)
    (h : s.InBroadcast u c l) (hu : a.actor ≠ some u) :
    s'.InBroadcast u c l ∧ s'.rank u c = s.rank u c := by
  obtain ⟨htodo, hlog⟩ := hst.frame hu
  refine h.keep htodo ?_ hlog
  rcases hst.condWaiters hg c with hcond | ⟨t, ht, hin⟩
  · exact hcond
  · exact absurd (ht.trans (congrArg some (h.exclusive hg hin))) hu

/-- The thread executes the statement it has reached. -/
theorem Synch.execute_of_step {stmt : Stmt} {rest : List Stmt}
    (hstep : s.step (.run u) = ok s') (htodo : (s.threads u).todo = stmt :: rest) :
    s.execute u rest stmt = ok s' := by
  rw [step, htodo] at hstep
  dsimp only at hstep
  rw [require_bind_eq_ok] at hstep
  exact hstep.2

/-- What `sema_up` leaves alone, but for the thread that it wakes. -/
theorem Synch.semaUp_effect {n : SemaName} {rest : List Stmt} (h : s.semaUp u n rest = ok s') :
    (s'.threads u).todo = rest ∧ s'.condWaiters = s.condWaiters ∧
    s'.log = .up u n :: s.log := by
  rw [semaUp] at h
  split at h
  · obtain rfl := ok.inj h
    exact ⟨by rw [threads_increment, update_self], rfl, rfl⟩
  · obtain ⟨s₁, h₁, h₂⟩ := bind_eq_ok.mp h
    obtain rfl := ok.inj h₂
    rw [threadUnblock, ensure_bind_eq_ok] at h₁
    obtain rfl := ok.inj h₁.2
    exact ⟨by rw [threads_increment, update_self], rfl, rfl⟩

/-- **What a thread does in `cond_broadcast`**: it comes closer to the end, and at the end
it has signalled those that were waiting when it began. -/
theorem Synch.InBroadcast.own (h : s.InBroadcast u c l) (hstep : s.step (.run u) = ok s') :
    (s'.log = .broadcasted u c :: s.log ∧ (s'.threads u).todo = []) ∨
    (s'.InBroadcast u c l ∧ s'.rank u c + 1 = s.rank u c) := by
  obtain ⟨ws, released, hof, hws⟩ := h.account
  have hwaiters := h.waiters
  have hshape := h.shape
  rw [rank, rank]
  generalize htodo : (s.threads u).todo = todo at hshape hwaiters
  cases hshape with
  | test =>
    have hexec := execute_of_step hstep htodo
    rw [execute] at hexec
    split at hexec
    · obtain rfl := ok.inj hexec
      exact .inl ⟨rfl, by simp⟩
    · rename_i w ws' hcond
      obtain rfl := ok.inj hexec
      have htodo' : ((s.goto u (condSignal c l ++ [.broadcast c l])).threads u).todo =
          [.assertHeld l, .signal c, .broadcast c l] := by
        rw [threads_goto, update_self]
        rfl
      refine .inr ⟨⟨?_, fun rest _ => ?_, ws, released, hof, hws⟩, ?_⟩
      · rw [htodo']
        exact .check
      · show s.condWaiters c ≠ []
        rw [hcond]
        exact List.cons_ne_nil w ws'
      · rw [htodo']
        rfl
  | check =>
    have hexec := execute_of_step hstep htodo
    rw [execute, ensure_bind_eq_ok] at hexec
    obtain rfl := ok.inj hexec.2
    have htodo' : ((s.goto u [.signal c, .broadcast c l]).threads u).todo =
        [.signal c, .broadcast c l] := by
      rw [threads_goto, update_self]
    have hne := hwaiters _ (.inl rfl)
    have hpos : 0 < (s.condWaiters c).length := List.length_pos_iff.mpr hne
    refine .inr ⟨⟨?_, fun rest _ => hne, ws, released, hof, hws⟩, ?_⟩
    · rw [htodo']
      exact .signal
    · rw [htodo']
      show 4 * (s.condWaiters c).length - 1 + 1 = 4 * (s.condWaiters c).length
      omega
  | signal =>
    have hexec := execute_of_step hstep htodo
    have hne := hwaiters _ (.inr rfl)
    rw [execute] at hexec
    split at hexec
    · exact absurd ‹_› hne
    · rename_i w ws' hcond
      obtain rfl := ok.inj hexec
      set s' := ((s.setCondWaiters c ws').goto u [.semaUp (.waiter w), .broadcast c l]).emit
        (.signalled u c (some w)) with hs'
      have htodo' : (s'.threads u).todo = [.semaUp (.waiter w), .broadcast c l] := by simp [hs']
      have hcond' : s'.condWaiters c = ws' := update_self _ _ _
      have hof' : broadcastOf s'.log u = some (c, ws, released ++ [w]) := by
        show broadcastOf (.signalled u c (some w) :: s.log) u = _
        rw [broadcastOf, if_pos rfl, hof]
        rfl
      refine .inr ⟨⟨?_, fun rest hrest => ?_, ws, released ++ [w], hof', ?_⟩, ?_⟩
      · rw [htodo']
        exact .raise w
      · rw [htodo'] at hrest
        rcases hrest with hrest | hrest <;> cases hrest
      · rw [hcond', List.append_assoc, List.singleton_append, ← hcond, hws]
      · rw [htodo', hcond', hcond, List.length_cons]
        show 4 * ws'.length + 2 + 1 = 4 * (ws'.length + 1) - 1
        omega
  | raise w =>
    have hexec := execute_of_step hstep htodo
    obtain ⟨htodo', hcond, hlog⟩ := semaUp_effect hexec
    refine .inr ⟨⟨?_, fun rest hrest => ?_, ws, released, ?_, ?_⟩, ?_⟩
    · rw [htodo']
      exact .test
    · rw [htodo'] at hrest
      rcases hrest with hrest | hrest <;> cases hrest
    · rw [hlog]
      exact hof
    · rw [hcond, hws]
    · rw [htodo', hcond]
      rfl

/-- A thread in `cond_broadcast` has not returned. -/
theorem Synch.InBroadcast.todo_ne_nil (h : s.InBroadcast u c l) : (s.threads u).todo ≠ [] := by
  intro hnil
  have hshape := h.shape
  rw [hnil] at hshape
  cases hshape

/-- **Every step of a run brings a `cond_broadcast` closer to its end**, if it is a step of
its thread, or leaves it where it is. -/
theorem Synch.InBroadcast.step (h : s.InBroadcast u c l) (hg : s.Guarded lockOf)
    (hstep : s.step a = ok s') :
    (s'.log = .broadcasted u c :: s.log ∧ (s'.threads u).todo = []) ∨
    (s'.InBroadcast u c l ∧ s'.rank u c + (if a.isRun u then 1 else 0) = s.rank u c) := by
  have hst := step_cases hstep
  by_cases hu : a.actor = some u
  · cases a with
    | setPriority p => cases hu
    | call t k =>
      obtain rfl : t = u := Option.some.inj hu
      cases hst with
      | call t k htodo => exact absurd htodo h.todo_ne_nil
    | run t =>
      obtain rfl : t = u := Option.some.inj hu
      have hrun : SynchAction.isRun t (.run t) = true := decide_eq_true rfl
      rw [if_pos hrun]
      exact h.own hstep
  · have hrun : a.isRun u = false := by
      cases a with
      | run t => exact decide_eq_false fun htu => hu (congrArg some htu)
      | _ => rfl
    rw [hrun]
    exact .inr (hst.inBroadcast_other hg h hu)

/-- A `cond_broadcast` that was not going on has been called. -/
theorem SynchStep.mem_broadcast (hst : SynchStep s a s')
    (hmem : .broadcast c l ∈ (s'.threads u).todo) :
    .broadcast c l ∈ (s.threads u).todo ∨ a = .call u (.condBroadcast c l) := by
  by_cases hu : a.actor = some u
  · have next : ∀ {t : Tid} {stmt : Stmt} {rest rest' : List Stmt} {b : Bool},
        (SynchAction.run t).actor = some u → s.threads t = ⟨stmt :: rest, false⟩ →
        (.broadcast c l ∈ rest' → .broadcast c l ∈ stmt :: rest) →
        .broadcast c l ∈ (update s.threads t ⟨rest', b⟩ u).todo →
        .broadcast c l ∈ (s.threads u).todo := by
      intro t stmt rest rest' b hu ht hrest hmem
      obtain rfl : t = u := Option.some.inj hu
      rw [update_self] at hmem
      rw [ht]
      exact hrest hmem
    have tail : ∀ {stmt : Stmt} {rest : List Stmt},
        .broadcast c l ∈ rest → .broadcast c l ∈ stmt :: rest := List.mem_cons_of_mem _
    cases hst with
    | setPriority p => cases hu
    | call t k htodo =>
      obtain rfl : t = u := Option.some.inj hu
      rw [threads_goto, update_self] at hmem
      cases k <;>
        simp [Call.body, lockAcquire, lockTryAcquire, lockRelease, condWait, condSignal,
          condBroadcast] at hmem ⊢
      exact .inr ⟨hmem.1.symm, hmem.2.symm⟩
    | @block t n stmt rest ht hstmt hv | @signal t w k rest ws ht hw =>
      refine .inl (next hu ht (fun hmem => ?_) hmem)
      rcases List.mem_cons.mp hmem with heq | hmem
      · cases heq
      · exact tail hmem
    | @tryDown t n rest ht hv =>
      refine .inl (next hu ht (fun hmem => ?_) hmem)
      rcases List.mem_append.mp hmem with hmem | hmem
      · cases n <;> simp [SemaName.onSuccess] at hmem
      · exact tail hmem
    | @wake t w n rest ws ht hw hb =>
      obtain rfl : t = u := Option.some.inj hu
      rw [threads_increment, update_self] at hmem
      rw [ht]
      exact .inl (tail hmem)
    | @broadcast t k l' rest ht hw =>
      refine .inl (next hu ht (fun hmem => ?_) hmem)
      simpa [condSignal] using hmem
    | assertNotHeld ht _ | assertHeld ht _ | semaInit ht | down ht _ _ | tryFail ht _ | up ht _
    | setHolder ht | clearHolder ht | pushBack ht | signalNone ht _ | broadcastDone ht _
    | returnWait ht => exact .inl (next hu ht tail hmem)
  · rw [(hst.frame hu).1] at hmem
    exact .inl hmem

/-- Whoever has a `cond_broadcast` to finish is in one. -/
def Synch.Broadcasts (s : Synch) : Prop :=
  ∀ u c l, .broadcast c l ∈ (s.threads u).todo → s.InBroadcast u c l

/-- Every step keeps the broadcasts accounted for. -/
theorem Synch.Broadcasts.step (h : s.Broadcasts) (hg : s.Guarded lockOf)
    (hstep : s.step a = ok s') : s'.Broadcasts := by
  intro u c l hmem
  rcases (step_cases hstep).mem_broadcast hmem with hold | rfl
  · rcases (h u c l hold).step hg hstep with ⟨-, hdone⟩ | ⟨hin, -⟩
    · rw [hdone] at hmem
      cases hmem
    · exact hin
  · cases step_cases hstep with
    | call t k htodo =>
      have htodo' : (((s.recordCall u (.condBroadcast c l)).goto u
          ((Call.condBroadcast c l).body u)).threads u).todo = [.broadcast c l] := by
        rw [threads_goto, update_self]
        rfl
      refine ⟨?_, fun rest hrest => ?_, s.condWaiters c, [], ?_, rfl⟩
      · rw [htodo']
        exact .test
      · rw [htodo'] at hrest
        rcases hrest with hrest | hrest <;> cases hrest
      · show broadcastOf (.broadcasting u c (s.condWaiters c) :: s.log) u = _
        rw [broadcastOf, if_pos rfl]

end

end Pintos
