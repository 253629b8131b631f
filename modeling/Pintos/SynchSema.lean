import Mathlib.Data.List.Nodup
import Pintos.Homes
import Pintos.Synch

/-!
# Semaphores

What any number of threads can do to a semaphore, in any order. The waiters of a semaphore
are exactly the threads that are blocked in `sema_down` on it (`Parked`). A thread that
`sema_up` wakes does not own the unit it was woken for: another may take it first, and the
thread then waits again. Nevertheless no wakeup is lost: while threads are waiting, there
are at least as many woken threads that have still to test the loop condition as there are
units (`Covered`).

## Main results

* `SynchStep.parked`, `SynchStep.covered`: what every step keeps.
* `semaphore_with_barging`: the value accounts for all ups and downs, and no wakeup is
  lost, as long as no `sema_up` takes the value past the range of an `unsigned`.
* `semaUp_wraps`: an up that does.
-/

namespace Pintos

open Verif Verif.Outcome Function List

/-- The semaphore a thread is asleep on. -/
def Control.home : Control → Option SemaName
  | ⟨.semaLoop n :: _, true⟩ => some n
  | _ => none

/-- The semaphore of a `semaphore_elem` is initialised and decremented by its thread. -/
def Stmt.PrivateTo (t : Tid) : Stmt → Prop
  | .semaInit u => u = t
  | .semaDown n | .semaLoop n | .semaTryDown n => ∀ u, n = .waiter u → u = t
  | _ => True

namespace Synch

/-- `t` was woken from the semaphore and has not yet tested the loop condition again. -/
def Woken (s : Synch) (n : SemaName) (t : Tid) : Prop :=
  ∃ rest, s.threads t = ⟨.semaLoop n :: rest, false⟩

/-- The waiters of the semaphores are the threads that are blocked in `sema_down`. -/
structure Parked (s : Synch) : Prop where
  housed : Housed (fun n => (s.semas n).waiters) fun t => (s.threads t).home
  inLoop : ∀ t, (s.threads t).blocked = true → (s.threads t).home ≠ none
  own : ∀ t, ∀ stmt ∈ (s.threads t).todo, stmt.PrivateTo t

/-- **No lost wakeup**: if threads are waiting, there are as many woken threads as units. -/
def Covered (s : Synch) (n : SemaName) : Prop :=
  (s.semas n).waiters = [] ∨
    ∃ W : List Tid, W.Nodup ∧ (∀ t ∈ W, s.Woken n t) ∧ (s.semas n).value ≤ W.length

variable {s s' : Synch} {a : SynchAction} {t u w : Tid} {n m : SemaName} {stmt : Stmt}
  {rest : List Stmt}

/-! ### Reading the state -/

@[simp] theorem threads_setControl (s : Synch) (t : Tid) (c : Control) :
    (s.setControl t c).threads = update s.threads t c := rfl

@[simp] theorem threads_goto (s : Synch) (t : Tid) (rest : List Stmt) :
    (s.goto t rest).threads = update s.threads t ⟨rest, false⟩ := rfl

@[simp] theorem threads_emit (s : Synch) (e : SynchEvent) : (s.emit e).threads = s.threads := rfl

@[simp] theorem semas_setControl (s : Synch) (t : Tid) (c : Control) :
    (s.setControl t c).semas = s.semas := rfl

@[simp] theorem semas_goto (s : Synch) (t : Tid) (rest : List Stmt) :
    (s.goto t rest).semas = s.semas := rfl

@[simp] theorem semas_emit (s : Synch) (e : SynchEvent) : (s.emit e).semas = s.semas := rfl

@[simp] theorem semas_setSema (s : Synch) (n : SemaName) (sema : Sema) :
    (s.setSema n sema).semas = update s.semas n sema := rfl

@[simp] theorem threads_setSema (s : Synch) (n : SemaName) (sema : Sema) :
    (s.setSema n sema).threads = s.threads := rfl

@[simp] theorem threads_increment (s : Synch) (t : Tid) (n : SemaName) (rest : List Stmt) :
    (s.increment t n rest).threads = update s.threads t ⟨rest, false⟩ := rfl

@[simp] theorem semas_increment (s : Synch) (t : Tid) (n : SemaName) (rest : List Stmt) :
    (s.increment t n rest).semas = update s.semas n
      { s.semas n with value := ((s.semas n).value + 1) % 2 ^ 32 } := rfl

theorem waiters_recordCall (s : Synch) (t : Tid) (c : Call) :
    (s.recordCall t c).semas = s.semas ∧ (s.recordCall t c).threads = s.threads := by
  cases c <;> exact ⟨rfl, rfl⟩

/-- The waiters after the value of a semaphore was changed. -/
theorem waiters_setValue (s : Synch) (n m : SemaName) (v : ℕ) :
    (update s.semas n { s.semas n with value := v } m).waiters = (s.semas m).waiters := by
  rcases eq_or_ne m n with rfl | hm
  · rw [update_self]
  · rw [update_of_ne hm]

theorem value_setWaiters (s : Synch) (n m : SemaName) (ws : List Tid) :
    (update s.semas n { s.semas n with waiters := ws } m).value = (s.semas m).value := by
  rcases eq_or_ne m n with rfl | hm
  · rw [update_self]
  · rw [update_of_ne hm]

/-- The values after `sema_up`, whether it wakes a thread or not. -/
theorem value_increment (s : Synch) (t : Tid) (n : SemaName) (rest : List Stmt) (m : SemaName) :
    ((s.increment t n rest).semas m).value =
      if m = n then ((s.semas n).value + 1) % 2 ^ 32 else (s.semas m).value := by
  rw [semas_increment, update_apply]
  split <;> rfl

theorem value_wake (s : Synch) (t w : Tid) (n : SemaName) (ws : List Tid) (rest : List Stmt)
    (m : SemaName) :
    ((((s.setSema n { s.semas n with waiters := ws }).setControl w
      { s.threads w with blocked := false }).increment t n rest).semas m).value =
      if m = n then ((s.semas n).value + 1) % 2 ^ 32 else (s.semas m).value := by
  rw [value_increment, semas_setControl, semas_setSema, value_setWaiters, value_setWaiters]

/-- **`t` goes on to `todo`**, and what the others have to do stays as it is. -/
structure Goes (s s' : Synch) (t : Tid) (todo : List Stmt) : Prop where
  self : (s'.threads t).todo = todo
  others : ∀ u, u ≠ t → (s'.threads u).todo = (s.threads u).todo

theorem Goes.goto {b : Bool} (h : s'.threads = update s.threads t ⟨rest, b⟩) :
    Goes s s' t rest := by
  refine ⟨?_, fun u hu => ?_⟩
  · rw [h, update_self]
  · rw [h, update_of_ne hu]

theorem Goes.call (s : Synch) (t : Tid) (c : Call) :
    Goes s ((s.recordCall t c).goto t (c.body t)) t (c.body t) := by
  refine .goto (b := false) ?_
  rw [threads_goto, (waiters_recordCall s t c).2]

theorem Goes.wake (s : Synch) (t w : Tid) (n : SemaName) (ws : List Tid) (rest : List Stmt) :
    Goes s (((s.setSema n { s.semas n with waiters := ws }).setControl w
      { s.threads w with blocked := false }).increment t n rest) t rest := by
  refine ⟨?_, fun u hu => ?_⟩
  · rw [threads_increment, update_self]
  · rw [threads_increment, update_of_ne hu, threads_setControl]
    rcases eq_or_ne u w with rfl | huw
    · rw [update_self]
    · rw [update_of_ne huw]
      rfl

/-! ### The waiters are the sleeping threads -/

/-- A thread that is not blocked is asleep on no semaphore. -/
theorem Control.home_of_running {c : Control} (h : c.blocked = false) : c.home = none := by
  obtain ⟨todo, b⟩ := c
  obtain rfl : b = false := h
  cases todo with
  | nil => rfl
  | cons stmt rest => cases stmt <;> rfl

theorem Control.home_eq_some {c : Control} (h : c.home = some n) :
    ∃ rest, c = ⟨.semaLoop n :: rest, true⟩ := by
  obtain ⟨todo, b⟩ := c
  cases todo with
  | nil => cases b <;> cases h
  | cons stmt rest =>
    cases b with
    | false => cases stmt <;> cases h
    | true =>
      cases stmt <;> try cases h
      exact ⟨rest, rfl⟩

/-- A waiter of a semaphore is blocked in the loop of `sema_down`. -/
theorem Parked.of_mem (h : Parked s) (hu : u ∈ (s.semas n).waiters) :
    ∃ rest, s.threads u = ⟨.semaLoop n :: rest, true⟩ :=
  Control.home_eq_some ((h.housed.mem_iff n u).mp hu)

/-- A thread that is not blocked goes on, and nobody's waiters change. -/
theorem Parked.advance (h : Parked s) (ht : (s.threads t).blocked = false)
    (hthreads : s'.threads = update s.threads t ⟨rest, false⟩)
    (hwaiters : ∀ n, (s'.semas n).waiters = (s.semas n).waiters)
    (hrest : ∀ stmt ∈ rest, stmt.PrivateTo t) : Parked s' := by
  have hhome : ∀ u, (s'.threads u).home = (s.threads u).home := by
    intro u
    rw [hthreads]
    rcases eq_or_ne u t with rfl | hu
    · rw [update_self, Control.home_of_running ht, Control.home_of_running rfl]
    · rw [update_of_ne hu]
  refine ⟨⟨fun n => ?_, fun n u => ?_⟩, fun u hu => ?_, fun u stmt hstmt => ?_⟩
  · rw [hwaiters]
    exact h.housed.nodup n
  · rw [hwaiters, hhome]
    exact h.housed.mem_iff n u
  · rw [hhome]
    rw [hthreads] at hu
    rcases eq_or_ne u t with rfl | hne
    · rw [update_self] at hu
      cases hu
    · rw [update_of_ne hne] at hu
      exact h.inLoop u hu
  · rw [hthreads] at hstmt
    rcases eq_or_ne u t with rfl | hne
    · rw [update_self] at hstmt
      exact hrest stmt hstmt
    · rw [update_of_ne hne] at hstmt
      exact h.own u stmt hstmt

/-- What is left of a thread's call is its own. -/
theorem Parked.tail (h : Parked s) (ht : s.threads t = ⟨stmt :: rest, false⟩) :
    ∀ stmt' ∈ rest, stmt'.PrivateTo t := by
  intro stmt' hmem
  refine h.own t stmt' ?_
  rw [ht]
  exact mem_cons_of_mem _ hmem

theorem Parked.head (h : Parked s) (ht : s.threads t = ⟨stmt :: rest, false⟩) :
    stmt.PrivateTo t := by
  refine h.own t stmt ?_
  rw [ht]
  exact mem_cons_self

/-- The statement at the head is done, and nobody's waiters change. -/
theorem Parked.next (h : Parked s) (ht : s.threads t = ⟨stmt :: rest, false⟩)
    (hthreads : s'.threads = update s.threads t ⟨rest, false⟩)
    (hwaiters : ∀ n, (s'.semas n).waiters = (s.semas n).waiters) : Parked s' :=
  h.advance (by rw [ht]) hthreads hwaiters (h.tail ht)

/-- `t` goes to sleep on a semaphore. -/
theorem Parked.block (h : Parked s) (ht : s.threads t = ⟨stmt :: rest, false⟩)
    (hstmt : stmt = .semaDown n ∨ stmt = .semaLoop n) :
    Parked ((s.setSema n { s.semas n with
      waiters := listInsertOrdered s.comparePriority t (s.semas n).waiters }).setControl t
        ⟨.semaLoop n :: rest, true⟩) := by
  have hhome : (s.threads t).home = none := Control.home_of_running (by rw [ht])
  have hprivate : (Stmt.semaLoop n).PrivateTo t := by
    have hhead := h.head ht
    rcases hstmt with rfl | rfl <;> exact hhead
  refine ⟨h.housed.move t (fun x hx => ?_) fun m => ?_, fun u hu => ?_, fun u stmt' hmem => ?_⟩
  · simp [hx]
  · -- only the waiters of `n` change, by the insertion of `t`
    simp only [threads_setControl, update_self]
    rcases eq_or_ne m n with rfl | hm
    · have hdest : Control.home ⟨.semaLoop m :: rest, true⟩ = some m := rfl
      rw [hdest, h.housed.moved_enter (by rw [hhome]; simp)]
      simp only [semas_setControl, semas_setSema, update_self]
      exact listInsertOrdered_perm _ _ _
    · have hdest : Control.home ⟨.semaLoop n :: rest, true⟩ ≠ some m :=
        fun h => hm (Option.some.inj h).symm
      rw [h.housed.moved_none (by rw [hhome]; simp) hdest]
      simp [hm]
  · rcases eq_or_ne u t with rfl | hne
    · simp [Control.home]
    · simp only [threads_setControl, update_of_ne hne] at hu ⊢
      exact h.inLoop u hu
  · rcases eq_or_ne u t with rfl | hne
    · simp only [threads_setControl, update_self, mem_cons] at hmem
      rcases hmem with rfl | hmem
      · exact hprivate
      · exact h.tail ht stmt' hmem
    · simp only [threads_setControl, update_of_ne hne] at hmem
      exact h.own u stmt' hmem

/-- The first waiter is woken. -/
theorem Parked.unblock {ws : List Tid} (h : Parked s) (hw : (s.semas n).waiters = w :: ws) :
    Parked ((s.setSema n { s.semas n with waiters := ws }).setControl w
      { s.threads w with blocked := false }) := by
  have hmem : w ∈ (s.semas n).waiters := hw ▸ mem_cons_self
  have hhome := (h.housed.mem_iff n w).mp hmem
  refine ⟨h.housed.move w (fun x hx => ?_) fun m => ?_, fun u hu => ?_, fun u stmt' hstmt => ?_⟩
  · simp [hx]
  · simp only [threads_setControl, update_self]
    rw [Control.home_of_running rfl]
    rcases eq_or_ne m n with rfl | hm
    · rw [Housed.moved_leave (Option.some_ne_none m).symm, hw]
      simp
    · have hleave : (s.threads w).home ≠ some m :=
        fun hm' => hm (Option.mem_unique hm' hhome)
      rw [h.housed.moved_none hleave (Option.some_ne_none m).symm]
      simp [hm]
  · rcases eq_or_ne u w with rfl | hne
    · simp at hu
    · simp only [threads_setControl, update_of_ne hne] at hu ⊢
      exact h.inLoop u hu
  · rcases eq_or_ne u w with rfl | hne
    · simp only [threads_setControl, update_self] at hstmt
      exact h.own u stmt' hstmt
    · simp only [threads_setControl, update_of_ne hne] at hstmt
      exact h.own u stmt' hstmt

/-- Only its own thread can be asleep on the semaphore of a `semaphore_elem`. -/
theorem Parked.waiters_eq_nil (h : Parked s) (ht : (s.threads t).blocked = false) :
    (s.semas (.waiter t)).waiters = [] := by
  rw [eq_nil_iff_forall_not_mem]
  intro u hu
  obtain ⟨rest, hu⟩ := h.of_mem hu
  have hprivate := h.own u (.semaLoop (.waiter t)) (by rw [hu]; exact mem_cons_self)
  obtain rfl := hprivate t rfl
  rw [hu] at ht
  cases ht

/-- A thread that is between calls is not blocked. -/
theorem Parked.running (h : Parked s) (ht : (s.threads t).todo = []) :
    (s.threads t).blocked = false := by
  rw [← Bool.not_eq_true]
  intro hb
  obtain ⟨n, hn⟩ := Option.ne_none_iff_exists'.mp (h.inLoop t hb)
  obtain ⟨rest, hrest⟩ := Control.home_eq_some hn
  rw [hrest] at ht
  cases ht

/-- The body of every function keeps to its own `semaphore_elem`. -/
theorem Call.privateTo_body (t : Tid) (c : Call) : ∀ stmt ∈ c.body t, stmt.PrivateTo t := by
  cases c <;>
    simp [Call.body, lockAcquire, lockTryAcquire, lockRelease, condWait, condSignal,
      condBroadcast, Stmt.PrivateTo]

theorem onSuccess_privateTo (t : Tid) (n : SemaName) :
    ∀ stmt ∈ n.onSuccess, stmt.PrivateTo t := by
  cases n <;> simp [SemaName.onSuccess, Stmt.PrivateTo]

end Synch

open Synch

/-- **Every step keeps the waiters and the blocked threads in agreement.** -/
theorem SynchStep.parked {s s' : Synch} {a : SynchAction} (hst : SynchStep s a s')
    (h : s.Parked) : s'.Parked := by
  cases hst with
  | setPriority p => exact ⟨h.housed, h.inLoop, h.own⟩
  | call t c htodo =>
    obtain ⟨hsemas, hthreads⟩ := waiters_recordCall s t c
    refine h.advance (h.running htodo) ?_ (fun n => ?_) (Call.privateTo_body t c)
    · rw [threads_goto, hthreads]
    · rw [semas_goto, hsemas]
  | assertNotHeld ht _ | assertHeld ht _ | tryFail ht _ | setHolder ht | clearHolder ht
  | pushBack ht | signalNone ht _ | broadcastDone ht _ | returnWait ht =>
    exact h.next ht rfl fun _ => rfl
  | @semaInit t u rest ht =>
    obtain rfl : u = t := h.head ht
    refine h.next ht rfl fun n => ?_
    rcases eq_or_ne n (.waiter u) with rfl | hn
    · rw [h.waiters_eq_nil (by rw [ht])]
      simp
    · simp [hn]
  | block ht hstmt _ => exact h.block ht hstmt
  | down ht _ _ | up ht _ => exact h.next ht rfl fun m => waiters_setValue s _ m _
  | @tryDown t n rest ht _ =>
    refine h.advance (by rw [ht]) rfl (fun m => waiters_setValue s n m _) ?_
    intro stmt hmem
    rcases mem_append.mp hmem with hmem | hmem
    · exact onSuccess_privateTo t n stmt hmem
    · exact h.tail ht stmt hmem
  | @wake t w n rest ws ht hw hb =>
    have hne : t ≠ w := by
      rintro rfl
      rw [ht] at hb
      cases hb
    have ht' : ((s.setSema n { s.semas n with waiters := ws }).setControl w
        { s.threads w with blocked := false }).threads t = ⟨.semaUp n :: rest, false⟩ := by
      simp [hne, ht]
    exact (h.unblock hw).next ht' rfl fun m =>
      waiters_setValue ((s.setSema n _).setControl w _) n m _
  | @signal t w c rest ws ht hw =>
    refine h.advance (by rw [ht]) rfl (fun _ => rfl) ?_
    intro stmt hmem
    rcases mem_cons.mp hmem with rfl | hmem
    · exact trivial
    · exact h.tail ht stmt hmem
  | @broadcast t c l rest ht hw =>
    refine h.advance (by rw [ht]) rfl (fun _ => rfl) ?_
    intro stmt hmem
    simp only [condSignal, cons_append, nil_append, mem_cons] at hmem
    rcases hmem with rfl | rfl | rfl | hmem
    · exact trivial
    · exact trivial
    · exact trivial
    · exact h.tail ht stmt hmem

/-! ### No lost wakeup -/

namespace Synch

variable {s s' : Synch} {t u w : Tid} {n m : SemaName} {stmt : Stmt} {rest : List Stmt}

/-- Nobody starts to wait, no unit is added, and the woken threads stay as they are. -/
theorem Covered.mono (h : s.Covered n)
    (hwaiters : (s'.semas n).waiters = (s.semas n).waiters)
    (hvalue : (s'.semas n).value ≤ (s.semas n).value)
    (hwoken : ∀ u, s.Woken n u → s'.Woken n u) : s'.Covered n := by
  rcases h with hnil | ⟨W, hnodup, hW, hle⟩
  · exact .inl (hwaiters.trans hnil)
  · exact .inr ⟨W, hnodup, fun u hu => hwoken u (hW u hu), hvalue.trans hle⟩

/-- A thread that is not in the loop of `sema_down` goes on; the others stay as they are. -/
theorem Woken.keep (ht : s.threads t = ⟨stmt :: rest, false⟩) (hstmt : stmt ≠ .semaLoop n)
    (hthreads : ∀ u, u ≠ t → s'.threads u = s.threads u) (h : s.Woken n u) : s'.Woken n u := by
  obtain ⟨rest', hu⟩ := h
  refine ⟨rest', (hthreads u ?_).trans hu⟩
  rintro rfl
  rw [ht, Control.mk.injEq, cons.injEq] at hu
  exact hstmt hu.1.1

/-- The statement at the head is done, and it is not about the semaphore `n`. -/
theorem Covered.next (h : s.Covered n) (ht : s.threads t = ⟨stmt :: rest, false⟩)
    (hstmt : stmt ≠ .semaLoop n) (hsema : s'.semas n = s.semas n)
    (hthreads : ∀ u, u ≠ t → s'.threads u = s.threads u) : s'.Covered n :=
  h.mono (by rw [hsema]) (by rw [hsema]) fun _ hu => hu.keep ht hstmt hthreads

/-- A woken thread takes a unit, or a thread that has not slept does. -/
theorem Covered.down (h : s.Covered n) :
    (((s.setSema n { s.semas n with value := (s.semas n).value - 1 }).goto t rest).emit
      (.down t n)).Covered n := by
  rcases h with hnil | ⟨W, hnodup, hW, hle⟩
  · refine .inl ?_
    simpa using hnil
  · refine .inr ⟨W.erase t, hnodup.erase t, fun u hu => ?_, ?_⟩
    · obtain ⟨hne, hu⟩ := (hnodup.mem_erase_iff).mp hu
      obtain ⟨rest', hu⟩ := hW u hu
      exact ⟨rest', (update_of_ne hne _ _).trans hu⟩
    · have hlen : W.length ≤ (W.erase t).length + 1 := by
        rw [length_erase]
        split <;> omega
      simp only [semas_emit, semas_goto, semas_setSema, update_self]
      omega

/-- `sema_up` adds a unit and wakes a thread for it. -/
theorem Covered.wake {ws : List Tid} (h : s.Covered n) (hp : s.Parked)
    (ht : s.threads t = ⟨.semaUp n :: rest, false⟩) (hw : (s.semas n).waiters = w :: ws) :
    (((s.setSema n { s.semas n with waiters := ws }).setControl w
      { s.threads w with blocked := false }).increment t n rest).Covered n := by
  obtain ⟨restw, hcontrol⟩ := hp.of_mem (hw ▸ mem_cons_self : w ∈ (s.semas n).waiters)
  have htw : w ≠ t := by
    rintro rfl
    rw [ht] at hcontrol
    cases hcontrol
  rcases h with hnil | ⟨W, hnodup, hW, hle⟩
  · rw [hnil] at hw
    cases hw
  · -- the thread that is woken joins those that were
    have hnew : w ∉ W := by
      intro hmem
      obtain ⟨rest', hrest'⟩ := hW w hmem
      rw [hcontrol] at hrest'
      cases hrest'
    refine .inr ⟨w :: W, nodup_cons.mpr ⟨hnew, hnodup⟩, fun u hu => ?_, ?_⟩
    · rcases mem_cons.mp hu with rfl | hu
      · exact ⟨restw, by simp [htw, hcontrol]⟩
      · obtain ⟨rest', hu'⟩ := hW u hu
        have hut : u ≠ t := by
          rintro rfl
          rw [ht] at hu'
          cases hu'
        have huw : u ≠ w := fun h => hnew (h ▸ hu)
        exact ⟨rest', by simp [hut, huw, hu']⟩
    · have hmod := Nat.mod_le ((s.semas n).value + 1) (2 ^ 32)
      simp only [semas_increment, semas_setControl, semas_setSema, update_self,
        length_cons]
      omega

end Synch

/-- **Every step keeps every wakeup.** -/
theorem SynchStep.covered {s s' : Synch} {a : SynchAction} {n : SemaName}
    (hst : SynchStep s a s') (hp : s.Parked) (h : s.Covered n) : s'.Covered n := by
  have other : ∀ {t : Tid} {c : Control} (u : Tid), u ≠ t →
      update s.threads t c u = s.threads u := fun u hu => update_of_ne hu _ _
  cases hst with
  | setPriority p => exact h.mono rfl le_rfl fun _ hu => hu
  | call t c htodo =>
    obtain ⟨hsemas, hthreads⟩ := waiters_recordCall s t c
    refine h.mono (by rw [semas_goto, hsemas]) (by rw [semas_goto, hsemas]) ?_
    rintro u ⟨rest, hu⟩
    have hne : u ≠ t := by
      rintro rfl
      rw [hu] at htodo
      cases htodo
    exact ⟨rest, by rw [threads_goto, hthreads, update_of_ne hne, hu]⟩
  | assertNotHeld ht _ | assertHeld ht _ | tryFail ht _ | setHolder ht | clearHolder ht
  | pushBack ht | signalNone ht _ | signal ht _ | broadcastDone ht _ | broadcast ht _
  | returnWait ht => exact h.next ht (by simp) rfl other
  | @semaInit t u rest ht =>
    obtain rfl : u = t := hp.head ht
    rcases eq_or_ne n (.waiter u) with rfl | hn
    · exact .inl (by simp)
    · exact h.next ht (by simp) (by simp [hn]) other
  | @block t m stmt rest ht hstmt hv =>
    rcases eq_or_ne n m with rfl | hn
    · exact .inr ⟨[], nodup_nil, by simp, by simp [hv]⟩
    · refine h.next ht ?_ (by simp [hn]) other
      rcases hstmt with rfl | rfl
      · simp
      · exact fun heq => hn (Stmt.semaLoop.inj heq).symm
  | @down t m stmt rest ht hstmt hv =>
    rcases eq_or_ne n m with rfl | hn
    · exact h.down
    · refine h.next ht ?_ (by simp [hn]) other
      rcases hstmt with rfl | rfl
      · simp
      · exact fun heq => hn (Stmt.semaLoop.inj heq).symm
  | @tryDown t m rest ht hv =>
    refine h.mono (waiters_setValue s m n _) ?_ fun _ hu => hu.keep ht (by simp) other
    rcases eq_or_ne n m with rfl | hn
    · simp
    · simp [hn]
  | @up t m rest ht hw =>
    rcases eq_or_ne n m with rfl | hn
    · exact .inl (by simpa using hw)
    · exact h.next ht (by simp) (by simp [hn]) other
  | @wake t w m rest ws ht hw hb =>
    rcases eq_or_ne n m with rfl | hn
    · exact h.wake hp ht hw
    · -- the thread that is woken was asleep on another semaphore
      obtain ⟨restw, hcontrol⟩ := hp.of_mem (hw ▸ mem_cons_self : w ∈ (s.semas m).waiters)
      refine h.mono (by simp [hn]) (by simp [hn]) ?_
      rintro u ⟨rest', hu⟩
      have hut : u ≠ t := by
        rintro rfl
        rw [ht] at hu
        cases hu
      have huw : u ≠ w := by
        rintro rfl
        rw [hu] at hb
        cases hb
      exact ⟨rest', by simp [hut, huw, hu]⟩

/-! ### The value accounts for all ups and downs -/

/-- The event is a completed decrement of the semaphore. -/
def SynchEvent.isDown (n : SemaName) : SynchEvent → Bool
  | .down _ m => m = n
  | _ => false

/-- The event is an increment of the semaphore. -/
def SynchEvent.isUp (n : SemaName) : SynchEvent → Bool
  | .up _ m => m = n
  | _ => false

namespace Synch

/-- How often the semaphore was decremented. -/
def downs (s : Synch) (n : SemaName) : ℕ := s.log.countP (·.isDown n)

/-- How often the semaphore was incremented. -/
def ups (s : Synch) (n : SemaName) : ℕ := s.log.countP (·.isUp n)

/-- The value of a semaphore that was initialised to `v`. -/
def Accounted (s : Synch) (n : SemaName) (v : ℕ) : Prop :=
  (s.semas n).value + s.downs n = v + s.ups n

/-- No `sema_up` of the semaphore finds the greatest value of an `unsigned`. -/
def NoWrap (i : SemaId) (s : Synch) : SynchAction → Prop
  | .run t => (s.threads t).todo.head? = some (.semaUp (.plain i)) →
      (s.semas (.plain i)).value + 1 < 2 ^ 32
  | _ => True

instance (i : SemaId) (s : Synch) : (a : SynchAction) → Decidable (s.NoWrap i a)
  | .run t => inferInstanceAs (Decidable ((s.threads t).todo.head? = some (.semaUp (.plain i)) →
      (s.semas (.plain i)).value + 1 < 2 ^ 32))
  | .call _ _ => .isTrue trivial
  | .setPriority _ => .isTrue trivial

variable {s s' : Synch} {n m : SemaName} {v : ℕ} {e : SynchEvent}

/-- The value stays, and nothing is recorded about the semaphore. -/
theorem Accounted.keep (h : s.Accounted n v) (hvalue : (s'.semas n).value = (s.semas n).value)
    (hlog : s'.log = s.log ∨ s'.log = e :: s.log ∧ e.isDown n = false ∧ e.isUp n = false) :
    s'.Accounted n v := by
  have hcount : s'.downs n = s.downs n ∧ s'.ups n = s.ups n := by
    rcases hlog with hlog | ⟨hlog, hdown, hup⟩
    · rw [downs, ups, hlog]
      exact ⟨rfl, rfl⟩
    · rw [downs, ups, hlog, countP_cons_of_neg (by simp [hdown]),
        countP_cons_of_neg (by simp [hup])]
      exact ⟨rfl, rfl⟩
  rw [Accounted, hvalue, hcount.1, hcount.2]
  exact h

/-- A unit is taken. -/
theorem Accounted.down {t : Tid} (h : s.Accounted n v) (hv : (s.semas m).value ≠ 0)
    (hvalue : (s'.semas n).value =
      if n = m then (s.semas m).value - 1 else (s.semas n).value)
    (hlog : s'.log = .down t m :: s.log) : s'.Accounted n v := by
  rcases eq_or_ne n m with rfl | hn
  · rw [Accounted] at h ⊢
    rw [hvalue, if_pos rfl, downs, ups, hlog, countP_cons_of_pos (by simp [SynchEvent.isDown]),
      countP_cons_of_neg (by simp [SynchEvent.isUp])]
    rw [downs, ups] at h
    omega
  · rw [if_neg hn] at hvalue
    refine h.keep hvalue (.inr ⟨hlog, ?_, rfl⟩)
    simp [SynchEvent.isDown, hn.symm]

/-- A unit is added, within the range. -/
theorem Accounted.up {t : Tid} (h : s.Accounted n v)
    (hwrap : n = m → (s.semas m).value + 1 < 2 ^ 32)
    (hvalue : (s'.semas n).value =
      if n = m then ((s.semas m).value + 1) % 2 ^ 32 else (s.semas n).value)
    (hlog : s'.log = .up t m :: s.log) : s'.Accounted n v := by
  rcases eq_or_ne n m with rfl | hn
  · rw [Accounted] at h ⊢
    rw [hvalue, if_pos rfl, Nat.mod_eq_of_lt (hwrap rfl), downs, ups, hlog,
      countP_cons_of_neg (by simp [SynchEvent.isDown]),
      countP_cons_of_pos (by simp [SynchEvent.isUp])]
    rw [downs, ups] at h
    omega
  · rw [if_neg hn] at hvalue
    refine h.keep hvalue (.inr ⟨hlog, rfl, ?_⟩)
    simp [SynchEvent.isUp, hn.symm]

end Synch

/-- A call records nothing about semaphores. -/
theorem Synch.log_recordCall (s : Synch) (t : Tid) (c : Call) (n : SemaName) :
    (s.recordCall t c).log = s.log ∨ ∃ e, (s.recordCall t c).log = e :: s.log ∧
      e.isDown n = false ∧ e.isUp n = false := by
  cases c with
  | condBroadcast c l => exact .inr ⟨_, rfl, rfl, rfl⟩
  | _ => exact .inl rfl

/-- **Every step keeps the account** of a semaphore, as long as no up wraps around. -/
theorem SynchStep.accounted {s s' : Synch} {a : SynchAction} {i : SemaId} {v : ℕ}
    (hst : SynchStep s a s') (hc : s.NoWrap i a) (h : s.Accounted (.plain i) v) :
    s'.Accounted (.plain i) v := by
  have quiet : ∀ {e : SynchEvent} {s' : Synch}, s'.semas = s.semas →
      (s'.log = s.log ∨ s'.log = e :: s.log ∧ e.isDown (.plain i) = false ∧
        e.isUp (.plain i) = false) → s'.Accounted (.plain i) v :=
    fun hsemas hlog => h.keep (by rw [hsemas]) hlog
  cases hst with
  | setPriority p | assertNotHeld ht _ | assertHeld ht _ | tryFail ht hv | broadcast ht _ =>
    exact quiet (e := .inited 0) rfl (.inl rfl)
  | call t c htodo =>
    obtain ⟨hsemas, -⟩ := waiters_recordCall s t c
    rcases log_recordCall s t c (.plain i) with hlog | ⟨e, hlog⟩
    · exact quiet (e := .inited 0) hsemas (.inl hlog)
    · exact quiet hsemas (.inr hlog)
  | semaInit ht => exact h.keep (by simp) (.inr ⟨rfl, rfl, rfl⟩)
  | block ht hstmt hv =>
    exact h.keep (e := .inited 0) (value_setWaiters s _ _ _) (.inl rfl)
  | down ht hstmt hv | tryDown ht hv =>
    refine h.down hv ?_ rfl
    simp only [semas_emit, semas_goto, semas_setSema, update_apply]
    split <;> rfl
  | @up t m rest ht hw =>
    refine h.up (m := m) (fun heq => ?_) (value_increment s t m rest _) rfl
    exact heq ▸ hc (by rw [ht, ← heq]; rfl)
  | @wake t w m rest ws ht hw hb =>
    refine h.up (m := m) (fun heq => ?_) (value_wake s t w m ws rest _) rfl
    exact heq ▸ hc (by rw [ht, ← heq]; rfl)
  | setHolder ht | clearHolder ht | pushBack ht | signalNone ht _ | signal ht _
  | broadcastDone ht _ | returnWait ht => exact quiet rfl (.inr ⟨rfl, rfl, rfl⟩)

/-! ### Runs -/

theorem synchInit_parked (value : SemaId → ℕ) (junk : Tid → ℕ) :
    (synchInit value junk).Parked := by
  refine ⟨⟨fun n => ?_, fun n t => ?_⟩, fun t ht => ?_, fun t stmt hstmt => ?_⟩
  · cases n <;> exact nodup_nil
  · cases n <;> exact iff_of_false not_mem_nil (Option.some_ne_none _).symm
  · cases ht
  · cases hstmt

/-- The waiters are the sleeping threads, in every state that can be reached. -/
theorem SynchReachable.parked {value : SemaId → ℕ} {C : Synch → SynchAction → Prop} {s : Synch}
    (h : SynchReachable value C s) : s.Parked := by
  obtain ⟨junk, hreach⟩ := h
  exact hreach.invariant (synchInit_parked value junk) fun s a s' hp _ hstep =>
    (step_cases hstep).parked hp

/-- **Semaphores with barging.** In every run, of any number of threads, in which no
`sema_up` of the semaphore finds the greatest value of an `unsigned`, its value is the one
it was initialised to plus the ups minus the downs, and whenever threads are waiting it
is at most the number of threads that were woken and have not tested the loop condition
since. -/
theorem semaphore_with_barging {value : SemaId → ℕ} {i : SemaId} {s : Synch}
    (h : SynchReachable value (Synch.NoWrap i) s) :
    (s.semas (.plain i)).value + s.downs (.plain i) = value i + s.ups (.plain i) ∧
    ((s.semas (.plain i)).waiters ≠ [] → ∃ W : List Tid, W.Nodup ∧
      (∀ t ∈ W, s.Woken (.plain i) t) ∧ (s.semas (.plain i)).value ≤ W.length) := by
  obtain ⟨junk, hreach⟩ := h
  have hinv : s.Parked ∧ s.Covered (.plain i) ∧ s.Accounted (.plain i) (value i) := by
    refine hreach.invariant
      (I := fun s => s.Parked ∧ s.Covered (.plain i) ∧ s.Accounted (.plain i) (value i))
      ⟨synchInit_parked value junk, .inl rfl, rfl⟩ ?_
    rintro s a s' ⟨hp, hcov, hacc⟩ hc hstep
    have hst := step_cases hstep
    exact ⟨hst.parked hp, hst.covered hp hcov, hst.accounted hc hacc⟩
  exact ⟨hinv.2.2, fun hne => hinv.2.1.resolve_left hne⟩

/-- Thread 1 sleeps on a semaphore, thread 3 behind it; thread 2 ups the semaphore, and
thread 1 has not run since. -/
def upWithTwoWaiters : List SynchAction :=
  [.call 1 (.semaDown 0), .run 1, .call 3 (.semaDown 0), .run 3, .call 2 (.semaUp 0), .run 2]

theorem semaphore_with_barging_up :
    ∃ s, SynchReachable (fun _ => 0) (Synch.NoWrap 0) s ∧ (s.semas (.plain 0)).value = 1 ∧
      (s.semas (.plain 0)).waiters = [3] ∧
      ∃ W : List Tid, W.Nodup ∧ (∀ t ∈ W, s.Woken (.plain 0) t) ∧
        (s.semas (.plain 0)).value ≤ W.length := by
  have hreach : SynchReachable (fun _ => 0) (Synch.NoWrap 0) _ :=
    ⟨fun _ => 0, upWithTwoWaiters, Run.of_guarded rfl⟩
  exact ⟨_, hreach, rfl, rfl, (semaphore_with_barging hreach).2 (by simp)⟩

/-- **An up that wraps around**: one `sema_up` of a semaphore initialised to the greatest
`unsigned` leaves it at zero. -/
theorem semaUp_wraps :
    ¬∀ (value : SemaId → ℕ) (i : SemaId) (s : Synch), value i < 2 ^ 32 →
      SynchReachable value (fun _ _ => True) s → s.ups (.plain i) < 2 ^ 32 →
      (s.semas (.plain i)).value + s.downs (.plain i) = value i + s.ups (.plain i) := by
  intro h
  have hreach : SynchReachable (fun _ => 4294967295) (fun _ _ => True) _ :=
    ⟨fun _ => 0, [.call 1 (.semaUp 0), .run 1], Run.of_exec rfl⟩
  have hvalue := h _ 0 _ (by decide) hreach (by decide)
  revert hvalue
  decide

end Pintos
