import Pintos.SchedulerPartition

/-!
# What Wakeups and Switches Leave Alone

`thread_unblock`, `thread_block` and `thread_yield` change the run queue and who is running,
and of a thread its status and its place in its code; a thread that exits is freed on top of
that. `Rescheduled P s s'` says so once, for all that is read of a state: the priorities, the
clocks, the sleepers. The threads that `P` holds of keep their place in their code, up to the
return of the call they blocked in.

## Main results

* `schedule_frame`: what `schedule` does.
* `threadUnblock_rescheduled`, `threadBlock_rescheduled`, `threadYield_rescheduled`.
-/

namespace Pintos

open Verif Verif.Outcome Function

theorem Pc.resume_resume (pc : Pc) : pc.resume.resume = pc.resume := by
  cases pc <;> rfl

/-- A thread without its status and its place in its code. -/
def Thread.bare (th : Thread) : Thread := { th with status := .ready, pc := .code }

/-- What is read of a thread is the same if it is the same of what is left of it by `g`. -/
theorem elim_eq_of_map {α : Type} {o o' : Option Thread} {g : Thread → Thread}
    (h : o'.map g = o.map g) (a : α) (f : Thread → α) (hf : ∀ th, f (g th) = f th) :
    o'.elim a f = o.elim a f := by
  have hread : ∀ o : Option Thread, o.elim a f = (o.map g).elim a f := by
    intro o
    cases o with
    | none => rfl
    | some th => exact (hf th).symm
  rw [hread, h, ← hread]

namespace Sched

variable {s s' : Sched} {P : Tid → Prop} {t n : Tid} {th th' cur : Thread} {pc : Pc}
  {ready : List Tid}

theorem threadCurrent_spec : s.threadCurrent.Post fun cur =>
    s.threads s.current = some cur ∧ cur.status = .running := by
  unfold threadCurrent
  split
  · trivial
  · rename_i cur hcur
    exact Spec.ensure_of trivial fun hst => ⟨hcur, hst⟩

/-! ### The initial thread after its exit -/

/-- The initial thread has exited: its page stays, but it will never run again. -/
structure Retired (s : Sched) : Prop where
  dying : s.HasStatus initialThread .dying
  notReady : initialThread ∉ s.readyList
  notIdle : s.idleThread ≠ some initialThread

namespace Retired

/-- A thread that has not exited is not the retired one. -/
theorem ne (h : s.Retired) (hth : s.threads t = some th) (hst : th.status ≠ .dying) :
    t ≠ initialThread := by
  rintro rfl
  obtain ⟨th', hth', hst'⟩ := h.dying
  rw [hth] at hth'
  cases hth'
  exact hst hst'

/-- Another thread changes. -/
theorem setThread (h : s.Retired) (ht : t ≠ initialThread) (th : Thread) :
    (s.setThread t th).Retired := by
  obtain ⟨th₀, hth₀, hst₀⟩ := h.dying
  exact ⟨⟨th₀, (update_of_ne ht.symm _ _).trans hth₀, hst₀⟩, h.notReady, h.notIdle⟩

/-- Another thread enters the run queue. -/
theorem not_mem_insert (h : s.Retired) (ht : t ≠ initialThread) (less : Tid → Tid → Bool) :
    initialThread ∉ listInsertOrdered less t s.readyList := by
  rw [mem_listInsertOrdered]
  rintro (heq | hmem)
  · exact ht heq.symm
  · exact h.notReady hmem

end Retired

/-! ### Threads without their status and place -/

/-- `s'` is `s` after wakeups and switches, in which no thread exits. -/
structure Rescheduled (P : Tid → Prop) (s s' : Sched) : Prop where
  same : s' = { s with threads := s'.threads, readyList := s'.readyList, current := s'.current,
                       threadTicks := s'.threadTicks }
  bare : ∀ t, (s'.threads t).map Thread.bare = (s.threads t).map Thread.bare
  place : ∀ t th th', P t → s.threads t = some th → s'.threads t = some th' →
    th'.pc = th.pc ∨ th'.pc = th.pc.resume
  retired : s.Retired → s'.Retired

namespace Rescheduled

theorem trans {s'' : Sched} (h : Rescheduled P s s') (h' : Rescheduled P s' s'') :
    Rescheduled P s s'' where
  same := by rw [h'.same, h.same]
  bare t := (h'.bare t).trans (h.bare t)
  place t th th'' ht hth hth'' := by
    obtain ⟨th', hth', -⟩ : ∃ th', s'.threads t = some th' ∧ th'.bare = th.bare := by
      have hbare := h.bare t
      rw [hth] at hbare
      exact Option.map_eq_some_iff.mp hbare
    have h₁ := h.place t th th' ht hth hth'
    rcases h'.place t th' th'' ht hth' hth'' with hpc | hpc
    · rw [hpc]
      exact h₁
    · rw [hpc]
      rcases h₁ with h₁ | h₁
      · exact .inr (by rw [h₁])
      · exact .inr (by rw [h₁, Pc.resume_resume])
  retired := h'.retired ∘ h.retired

/-- A member other than the status and the place reads the same in both states. -/
theorem elim_eq {α : Type} (h : Rescheduled P s s') (t : Tid) (a : α) (f : Thread → α)
    (hf : ∀ th, f th.bare = f th) : (s'.threads t).elim a f = (s.threads t).elim a f :=
  elim_eq_of_map (h.bare t) a f hf

theorem priority (h : Rescheduled P s s') : s'.priority = s.priority :=
  funext fun t => h.elim_eq t _ _ fun _ => rfl

end Rescheduled

/-- The run queue changes. -/
theorem rescheduled_readyList (hret : s.Retired → initialThread ∉ ready) :
    Rescheduled P s { s with readyList := ready } :=
  ⟨rfl, fun _ => rfl, fun _ th th' _ h h' => .inl (by cases h.symm.trans h'; rfl),
    fun hr => ⟨hr.dying, hret hr, hr.notIdle⟩⟩

/-- A thread changes its status, or its place in its code. -/
theorem rescheduled_setThread (h : s.threads t = some th) (hret : s.Retired → t ≠ initialThread)
    (hbare : th'.bare = th.bare) (hpc : P t → th'.pc = th.pc ∨ th'.pc = th.pc.resume) :
    Rescheduled P s (s.setThread t th') := by
  refine ⟨rfl, fun x => ?_, fun x y y' hx hy hy' => ?_, fun hr => hr.setThread (hret hr) th'⟩
  · rcases eq_or_ne x t with rfl | hne
    · simp [setThread, h, hbare]
    · simp [setThread, hne]
  · rcases eq_or_ne x t with rfl | hne
    · obtain rfl : th = y := Option.mem_unique h hy
      have hself : (s.setThread x th').threads x = some th' := update_self _ _ _
      obtain rfl : th' = y' := Option.mem_unique hself hy'
      exact hpc hx
    · rw [show (s.setThread t th').threads x = s.threads x from update_of_ne hne _ _,
        hy] at hy'
      exact .inl (by cases hy'; rfl)

theorem threadUnblock_rescheduled :
    (s.threadUnblock t).Post (Rescheduled P s) := by
  unfold threadUnblock
  split
  · trivial
  · rename_i th hth
    refine Spec.ensure_of trivial fun hst => ?_
    have halive : th.status ≠ .dying := by
      rw [hst]
      decide
    exact (rescheduled_readyList fun hr => hr.not_mem_insert (hr.ne hth halive) _).trans
      (rescheduled_setThread (s := { s with readyList := _ }) hth (fun hr => hr.ne hth halive) rfl
        fun _ => .inl rfl)

/-! ### Switching -/

/-- `next_thread_to_run` finds `n`, and leaves `ready` in the run queue. -/
def Next (s : Sched) (n : Tid) (ready : List Tid) : Prop :=
  s.readyList = n :: ready ∨ (s.readyList = [] ∧ ready = [] ∧ s.idleThread = some n)

theorem Next.mem (h : s.Next n ready) : n ∈ s.readyList ∨ s.idleThread = some n := by
  rcases h with h | ⟨-, -, h⟩
  · rw [h]
    exact .inl List.mem_cons_self
  · exact .inr h

theorem Next.sublist (h : s.Next n ready) : ready.Sublist s.readyList := by
  rcases h with h | ⟨-, rfl, -⟩
  · rw [h]
    exact List.sublist_cons_self n ready
  · exact List.nil_sublist _

/-- `schedule` takes the next thread and switches to it. -/
theorem schedule_cases :
    s.schedule.Post fun s' => ∃ ready n th, s.Next n ready ∧
      s.threads n = some th ∧ s' = { s with readyList := ready }.threadScheduleTail
        (if s.current ≠ n then some s.current else none) n th := by
  unfold schedule
  split
  · trivial
  cases hr : s.readyList with
  | nil =>
    simp only [nextThreadToRun, hr]
    refine Spec.ensure_of trivial fun _ => ?_
    split
    · trivial
    · split
      · trivial
      · rename_i hidle _ th hth
        exact ⟨[], _, th, .inr ⟨hr, rfl, hidle⟩, hth, by rw [← hr]⟩
  | cons n rest =>
    simp only [nextThreadToRun, hr]
    refine Spec.ensure_of trivial fun _ => ?_
    split
    · trivial
    · rename_i th hth
      exact ⟨rest, n, th, .inl hr, hth, rfl⟩

/-- **What `schedule` does**: it takes the next thread from the run queue and runs it, and
frees the thread switched from if that is dying and not the initial thread. -/
theorem schedule_frame (hcur : s.threads s.current = some cur) :
    s.schedule.Post fun s' => ∃ s₁, Rescheduled P s s₁ ∧
      s.Next s₁.current s₁.readyList ∧
      s' = if s.current ≠ s₁.current ∧ cur.status = .dying ∧ s.current ≠ initialThread
        then { s₁ with threads := update s₁.threads s.current none } else s₁ := by
  refine schedule_cases.mono fun s' _ ⟨ready, n, th, hnext, hth, hs'⟩ => ?_
  have hret : s.Retired → n ≠ initialThread := by
    rintro hr rfl
    exact hnext.mem.elim hr.notReady hr.notIdle
  have hrun : Rescheduled P s (s.setThread n { th with status := .running, pc := th.pc.resume }) :=
    rescheduled_setThread hth hret rfl fun _ => .inr rfl
  set s₁ : Sched := { s with readyList := ready, current := n, threadTicks := 0 }.setThread n
    { th with status := .running, pc := th.pc.resume } with hs₁
  refine ⟨s₁, ⟨rfl, hrun.bare, hrun.place, fun hr => ⟨(hrun.retired hr).dying,
    fun hmem => hr.notReady (hnext.sublist.subset hmem), hr.notIdle⟩⟩, hnext, ?_⟩
  rw [hs']
  unfold threadScheduleTail
  simp only [← hs₁]
  by_cases hne : s.current = n
  · rw [if_neg (not_not.mpr hne), if_neg fun h => h.1 hne]
  · have hsame : s₁.threads s.current = some cur := (update_of_ne hne _ _).trans hcur
    have hcurrent : s.current ≠ s₁.current := hne
    rw [if_pos hne]
    simp only [hsame, Option.elim_some, Bool.and_eq_true, decide_eq_true_eq, bne_iff_ne, hcurrent,
      ne_eq, not_false_eq_true, true_and]

/-- A thread that does not exit calls `schedule`. -/
theorem schedule_rescheduled (hcur : s.threads s.current = some cur) (hst : cur.status ≠ .dying) :
    s.schedule.Post (Rescheduled P s) := by
  refine (schedule_frame (P := P) hcur).mono fun s' _ ⟨s₁, h₁, _, hs'⟩ => ?_
  rw [hs', if_neg fun h => hst h.2.1]
  exact h₁

/-- The running thread stops, for the time being. -/
theorem Rescheduled.stop {t : Sched} {st : ThreadStatus} (h : Rescheduled P s t)
    (hcur : t.threads t.current = some cur) (hrun : cur.status = .running) (hst : st ≠ .dying)
    (hpc : P t.current → pc = cur.pc) :
    (t.setThread t.current { cur with status := st, pc := pc }).schedule.Post
      (Rescheduled P s) := by
  have halive : cur.status ≠ .dying := by
    rw [hrun]
    decide
  have hstop : Rescheduled P t (t.setThread t.current { cur with status := st, pc := pc }) :=
    rescheduled_setThread hcur (fun hr => hr.ne hcur halive) rfl fun hP => .inl (hpc hP)
  exact (schedule_rescheduled (update_self _ _ _) hst).mono fun s' _ h' =>
    (h.trans hstop).trans h'

theorem Rescheduled.refl (s : Sched) : Rescheduled P s s :=
  rescheduled_readyList fun hr => hr.notReady

theorem threadBlock_rescheduled (hP : ¬P s.current) :
    (s.threadBlock pc).Post (Rescheduled P s) :=
  threadCurrent_spec.bind fun _ _ hcur =>
    (Rescheduled.refl s).stop hcur.1 hcur.2 (by decide) fun h => absurd h hP

/-- A thread that yields may stay where it is in its code. -/
theorem threadYield_rescheduled
    (hpc : ∀ cur, s.threads s.current = some cur → P s.current → pc = cur.pc) :
    (s.threadYield pc).Post (Rescheduled P s) := by
  refine threadCurrent_spec.bind fun cur _ hcur => ?_
  have halive : cur.status ≠ .dying := by
    rw [hcur.2]
    decide
  split
  · exact (Rescheduled.refl s).stop hcur.1 hcur.2 (by decide) (hpc cur hcur.1)
  · refine Rescheduled.stop (t := { s with readyList := _ }) ?_ hcur.1 hcur.2 (by decide)
      (hpc cur hcur.1)
    exact rescheduled_readyList fun hr => hr.not_mem_insert (hr.ne hcur.1 halive) _

end Sched

end Pintos
