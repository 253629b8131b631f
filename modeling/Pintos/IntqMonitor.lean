import Pintos.Intq

/-!
# The Monitor of an Interrupt Queue

What holds between the steps of the threads that share an interrupt queue: its lock is a mutex, held
by the thread that is in `wait`; the waiters are the threads that are blocked there, and they wait
for something that is not the case.

The emptiness that `intq_getc` has tested before `lock_acquire` is asserted in `wait` after it, and
if the thread has slept for the lock in between, the queue may have a byte again. This is the only
way in which an assertion fails.

## Main results

* `IntqState.Inv.finish`, `IntqState.Inv.semaDown`, `IntqState.Inv.lockRelease`: what the parts of a
  step keep.
* `IntqState.Inv.step`: what a step keeps, if the lock is got in time.
* `intq_safe`: this in every run, up to the first step in which a thread gets the lock too late.
-/

namespace Pintos

open Verif Function Outcome

namespace IntqState

variable {s s' : IntqState} {t u : ℕ} {c d : IntqCall} {w : IntqCond}

/-- A thread holds the lock from `lock_acquire` to `lock_release`. -/
def Inside (s : IntqState) (t : ℕ) : Prop := ∃ c, s.pc t = .waiting c ∨ s.pc t = .woken c

/-- **What holds between the steps.** -/
structure Inv (s : IntqState) : Prop where
  /-- The lock is a mutex. -/
  value : s.value = if s.holder = none then 1 else 0
  /-- It is held by the thread that is in `wait`. -/
  holder : ∀ t, s.holder = some t ↔ s.Inside t
  /-- Those that wait for the lock are in its list. -/
  queue : ∀ t, t ∈ s.waiters ↔ ∃ c, s.pc t = .onLock c
  nodup : s.waiters.Nodup
  /-- `not_empty` and `not_full` are the threads that are blocked in `wait`. -/
  waiter : ∀ w t, s.waiter w = some t ↔ ∃ c, s.pc t = .waiting c ∧ c.awaits = w
  /-- Those wait for something that is not the case. -/
  lacks : ∀ t c, s.pc t = .waiting c → s.lacks c.awaits = true

/-- A thread that is neither in a list nor inside. -/
def Free (s : IntqState) (t : ℕ) : Prop := ¬s.Inside t ∧ ∀ c, s.pc t ≠ .onLock c

theorem setPc_pc (s : IntqState) (t : ℕ) (pc : IntqPc) (u : ℕ) :
    (s.setPc t pc).pc u = if u = t then pc else s.pc u := by
  rw [setPc]
  dsimp only
  by_cases hu : u = t
  · rw [hu, update_self, if_pos rfl]
  · rw [update_of_ne hu, if_neg hu]

theorem free_of_pc (hwaiting : ∀ c, s.pc t ≠ .waiting c) (hwoken : ∀ c, s.pc t ≠ .woken c)
    (honLock : ∀ c, s.pc t ≠ .onLock c) : s.Free t :=
  ⟨fun ⟨c, h⟩ => h.elim (hwaiting c) (hwoken c), honLock⟩

theorem inside_setPc {pc : IntqPc} (hne : u ≠ t) : (s.setPc t pc).Inside u ↔ s.Inside u := by
  rw [Inside, Inside, setPc_pc, if_neg hne]

/-- A thread moves outside the lock, and with it the list of those that wait for the lock. -/
theorem Inv.move (h : s.Inv) {pc : IntqPc} {waiters : List ℕ} (hout : ¬s.Inside t)
    (hout' : ¬(s.setPc t pc).Inside t)
    (hqueue : ∀ u, u ∈ waiters ↔ ∃ c, (s.setPc t pc).pc u = .onLock c) (hnodup : waiters.Nodup) :
    ((s.setWaiters waiters).setPc t pc).Inv := by
  have hinside : ∀ u, (s.setPc t pc).Inside u ↔ s.Inside u := by
    intro u
    by_cases hu : u = t
    · rw [hu]
      exact iff_of_false hout' hout
    · exact inside_setPc hu
  have hwaiting : ∀ u c, (s.setPc t pc).pc u = .waiting c ↔ s.pc u = .waiting c := by
    intro u c
    by_cases hu : u = t
    · rw [hu]
      exact iff_of_false (fun heq => hout' ⟨c, .inl heq⟩) fun heq => hout ⟨c, .inl heq⟩
    · rw [setPc_pc, if_neg hu]
  refine ⟨h.value, fun u => (h.holder u).trans (hinside u).symm, hqueue, hnodup, fun w u => ?_,
    fun u c hu => h.lacks u c ((hwaiting u c).mp hu)⟩
  refine (h.waiter w u).trans (exists_congr fun c => and_congr_left' ?_)
  exact (hwaiting u c).symm

/-- A thread that is free stays so. -/
theorem Inv.setPc (h : s.Inv) (hfree : s.Free t) {pc : IntqPc} (hpc : (s.setPc t pc).Free t) :
    (s.setPc t pc).Inv := by
  refine h.move hfree.1 hpc.1 (fun u => (h.queue u).trans ?_) h.nodup
  by_cases hu : u = t
  · rw [hu]
    exact iff_of_false (fun ⟨c, hc⟩ => hfree.2 c hc) fun ⟨c, hc⟩ => hpc.2 c hc
  · rw [setPc_pc, if_neg hu]

/-- After a byte has gone in or out, there is what the call signals. -/
theorem lacks_transfer (h : s.lacks c.awaits = false) :
    (s.transfer c).lacks c.signals = false := by
  cases c with
  | getc =>
    have hne : s.head ≠ s.tail := of_decide_eq_false h
    refine decide_eq_false fun heq => hne ?_
    have heq' : s.head + 1 = s.tail + 1 := heq
    rw [Fin.ext_iff, Fin.val_add, Fin.val_add] at heq'
    rw [Fin.ext_iff]
    omega
  | putc byte => exact h

/-- A byte goes in or out while nobody is blocked in `wait`. -/
theorem Inv.transfer (h : s.Inv) (hnone : ∀ t d, s.pc t ≠ .waiting d) : (s.transfer c).Inv := by
  cases c with
  | getc | putc byte =>
    exact ⟨h.value, h.holder, h.queue, h.nodup, h.waiter, fun t d ht => absurd ht (hnone t d)⟩

/-- Only one thread holds the lock. -/
theorem Inv.inside_unique (h : s.Inv) (ht : s.Inside t) (hu : s.Inside u) : t = u :=
  Option.some.inj (((h.holder t).mpr ht).symm.trans ((h.holder u).mpr hu))

/-- The thread that is blocked in `wait` is unblocked, and then nobody is. -/
theorem Inv.wake (h : s.Inv) (hu : s.pc u = .waiting d) :
    ((s.setPc u (.woken d)).setWaiter d.awaits none).Inv ∧
      ∀ t e, (s.setPc u (.woken d)).pc t ≠ .waiting e := by
  have honly : ∀ t e, s.pc t = .waiting e → t = u := fun t e ht =>
    h.inside_unique ⟨e, .inl ht⟩ ⟨d, .inl hu⟩
  have hnone : ∀ t e, (s.setPc u (.woken d)).pc t ≠ .waiting e := by
    intro t e ht
    rw [setPc_pc] at ht
    split at ht
    · cases ht
    · rename_i hne
      exact hne (honly t e ht)
  refine ⟨⟨h.value, fun t => (h.holder t).trans ?_, fun t => (h.queue t).trans ?_, h.nodup,
    fun w t => iff_of_false (fun hw => ?_) fun ⟨e, ht, _⟩ => hnone t e ht,
    fun t e ht => absurd ht (hnone t e)⟩, hnone⟩
  · by_cases ht : t = u
    · rw [ht]
      exact iff_of_true ⟨d, .inl hu⟩ ⟨d, .inr (by rw [setWaiter, setPc_pc, if_pos rfl])⟩
    · exact (inside_setPc ht).symm
  · rw [setWaiter, setPc_pc]
    by_cases ht : t = u
    · rw [if_pos ht, ht, hu]
      simp
    · rw [if_neg ht]
  · have hw' : update s.waiter d.awaits none w = some t := hw
    by_cases hwd : w = d.awaits
    · rw [hwd, update_self] at hw'
      cases hw'
    · rw [update_of_ne hwd] at hw'
      obtain ⟨e, ht, he⟩ := (h.waiter w t).mp hw'
      obtain rfl := honly t e ht
      rw [hu, IntqPc.waiting.injEq] at ht
      exact hwd (he.symm.trans (congrArg _ ht.symm))

/-- **The end of a call**, in a thread or in an interrupt handler: the thread that is blocked in
`wait` is unblocked. -/
theorem Inv.finish (h : s.Inv) (hlacks : s.lacks c.awaits = false) :
    ∃ s', s.finish c = .ok s' ∧ s'.Inv ∧ ∀ t, ¬s.Inside t → s'.pc t = s.pc t := by
  have hpc : (s.transfer c).pc = s.pc := by cases c <;> rfl
  have hwaiter : (s.transfer c).waiter = s.waiter := by cases c <;> rfl
  rw [IntqState.finish, signal, ensure_of_true (lacks_transfer hlacks), ok_bind, hwaiter]
  cases hw : s.waiter c.signals with
  | none =>
    refine ⟨_, rfl, h.transfer fun t d ht => ?_, fun t _ => by rw [hpc]⟩
    -- whoever waits, waits for what is signalled
    rcases IntqCall.awaits_or_signals c d.awaits with heq | heq
    · have htrue := h.lacks t d ht
      rw [heq, hlacks] at htrue
      cases htrue
    · have hsome := (h.waiter c.signals t).mpr ⟨d, ht, heq⟩
      rw [hw] at hsome
      cases hsome
  | some u =>
    obtain ⟨d, hu, hd⟩ := (h.waiter c.signals u).mp hw
    obtain ⟨hinv, hnone⟩ := h.wake hu
    have hcomm : ((s.transfer c).setPc u (.woken d)).setWaiter c.signals none =
        ((s.setPc u (.woken d)).setWaiter d.awaits none).transfer c := by
      rw [hd]
      cases c <;> rfl
    dsimp only
    rw [hpc, hu]
    refine ⟨_, rfl, hcomm ▸ hinv.transfer hnone, fun t ht => ?_⟩
    rw [setWaiter, setPc_pc, if_neg, hpc]
    rintro rfl
    exact ht ⟨d, .inl hu⟩

theorem Inv.notMem_waiters (h : s.Inv) (hfree : s.Free t) : t ∉ s.waiters := fun hmem => by
  obtain ⟨d, hd⟩ := (h.queue t).mp hmem
  exact hfree.2 d hd

/-- A thread gets the lock and is blocked in `wait`. -/
theorem Inv.enter (h : s.Inv) (hfree : s.Free t) (hvalue : s.value ≠ 0)
    (hlacks : s.lacks c.awaits = true) :
    (((s.setLock (s.value - 1) (some t)).setWaiter c.awaits (some t)).setPc t
      (.waiting c)).Inv := by
  have hholder : s.holder = none := by
    by_contra hsome
    rw [h.value, if_neg hsome] at hvalue
    exact hvalue rfl
  have hnobody : ∀ u, ¬s.Inside u := fun u hu => by
    rw [← h.holder u, hholder] at hu
    cases hu
  set s₁ := ((s.setLock (s.value - 1) (some t)).setWaiter c.awaits (some t)).setPc t (.waiting c)
  have hpc : ∀ u, s₁.pc u = if u = t then .waiting c else s.pc u := fun u => setPc_pc _ _ _ u
  have hwaiting : ∀ u d, s₁.pc u = .waiting d ↔ u = t ∧ d = c := by
    intro u d
    rw [hpc]
    by_cases hu : u = t
    · rw [if_pos hu, IntqPc.waiting.injEq]
      exact ⟨fun heq => ⟨hu, heq.symm⟩, fun heq => heq.2.symm⟩
    · rw [if_neg hu]
      exact ⟨fun heq => absurd ⟨d, .inl heq⟩ (hnobody u), fun heq => absurd heq.1 hu⟩
  refine ⟨?_, fun u => ?_, fun u => ?_, h.nodup, fun w u => ?_, fun u d hu => ?_⟩
  · show s.value - 1 = if some t = none then 1 else 0
    rw [h.value, if_pos hholder, if_neg (by simp)]
  · show some t = some u ↔ _
    constructor
    · intro heq
      obtain rfl := Option.some.inj heq
      exact ⟨c, .inl ((hwaiting t c).mpr ⟨rfl, rfl⟩)⟩
    · rintro ⟨d, hd | hd⟩
      · rw [((hwaiting u d).mp hd).1]
      · rw [hpc] at hd
        split at hd
        · cases hd
        · exact absurd ⟨d, .inr hd⟩ (hnobody u)
  · rw [hpc]
    by_cases hu : u = t
    · rw [if_pos hu, hu]
      exact iff_of_false (h.notMem_waiters hfree) nofun
    · rw [if_neg hu]
      exact h.queue u
  · show update s.waiter c.awaits (some t) w = some u ↔ _
    simp only [hwaiting]
    by_cases hw : w = c.awaits
    · rw [hw, update_self, Option.some.injEq]
      exact ⟨fun heq => ⟨c, ⟨heq.symm, rfl⟩, rfl⟩, fun ⟨d, heq, _⟩ => heq.1.symm⟩
    · rw [update_of_ne hw]
      constructor
      · intro hsome
        obtain ⟨d, hd, -⟩ := (h.waiter w u).mp hsome
        exact absurd ⟨d, .inl hd⟩ (hnobody u)
      · rintro ⟨d, ⟨-, rfl⟩, heq⟩
        exact absurd heq.symm hw
  · obtain ⟨-, rfl⟩ := (hwaiting u d).mp hu
    exact hlacks

/-- **Acquiring the lock**: the thread waits for it, or goes on to `wait`. -/
theorem Inv.semaDown (h : s.Inv) (hfree : s.Free t)
    (hlacks : s.value ≠ 0 → s.lacks c.awaits = true) :
    ∃ s', s.semaDown t c = .ok s' ∧ s'.Inv := by
  rw [IntqState.semaDown]
  by_cases hvalue : s.value = 0
  · rw [if_pos hvalue]
    refine ⟨_, rfl, h.move hfree.1 ?_ (fun u => ?_) ?_⟩
    · rw [Inside, setPc_pc, if_pos rfl]
      simp
    · rw [mem_listInsertOrdered, setPc_pc]
      by_cases hu : u = t
      · rw [if_pos hu]
        exact iff_of_true (.inl hu) ⟨c, rfl⟩
      · rw [if_neg hu, ← h.queue u]
        exact or_iff_right hu
    · refine (listInsertOrdered_perm s.comparePriority t s.waiters).nodup_iff.mpr ?_
      exact List.nodup_cons.mpr ⟨h.notMem_waiters hfree, h.nodup⟩
  · have hlacks' : (s.setLock (s.value - 1) (some t)).lacks c.awaits = true := hlacks hvalue
    rw [if_neg hvalue, IntqState.wait, ensure_of_true hlacks', ok_bind]
    exact ⟨_, rfl, h.enter hfree hvalue (hlacks hvalue)⟩

/-- **The loop** of a call, in a thread that is free. -/
theorem Inv.loop (h : s.Inv) (hfree : s.Free t) :
    ∃ s', s.loop t c = .ok s' ∧ s'.Inv := by
  rw [IntqState.loop]
  by_cases hlacks : s.lacks c.awaits = true
  · have hheld : s.holder ≠ some t := fun heq => hfree.1 ((h.holder t).mp heq)
    rw [if_pos hlacks, ensure_of_true hheld, ok_bind]
    exact h.semaDown hfree fun _ => hlacks
  · rw [if_neg hlacks]
    rw [Bool.not_eq_true] at hlacks
    obtain ⟨s₁, hrun, hinv, hpc⟩ := h.finish hlacks
    have hsame := hpc t hfree.1
    have hfree₁ : s₁.Free t := by
      rw [Free, Inside, hsame]
      exact hfree
    have hidle : (s₁.setPc t .idle).Free t := by
      rw [Free, Inside, setPc_pc, if_pos rfl]
      simp
    rw [hrun, ok_bind]
    refine ⟨_, rfl, ?_⟩
    have hleft := hinv.setPc hfree₁ hidle
    cases c with
    | getc => exact ⟨hleft.value, hleft.holder, hleft.queue, hleft.nodup, hleft.waiter, hleft.lacks⟩
    | putc byte => exact hleft

/-- The thread that holds the lock gives it up, and goes on outside. -/
theorem Inv.unlock (h : s.Inv) (ht : s.pc t = .woken c) :
    ((s.setLock (s.value + 1) none).setPc t (.released c)).Inv := by
  have hheld : s.holder = some t := (h.holder t).mpr ⟨c, .inr ht⟩
  set s₁ := (s.setLock (s.value + 1) none).setPc t (.released c)
  have hpc : ∀ u, s₁.pc u = if u = t then .released c else s.pc u := fun u => setPc_pc _ _ _ u
  have hnobody : ∀ u, ¬s₁.Inside u := fun u hu => by
    rw [Inside, hpc] at hu
    split at hu
    · obtain ⟨d, hd | hd⟩ := hu <;> cases hd
    · rename_i hne
      exact hne (h.inside_unique hu ⟨c, .inr ht⟩)
  refine ⟨?_, fun u => iff_of_false nofun (hnobody u), fun u => (h.queue u).trans ?_, h.nodup,
    fun w u => iff_of_false (fun hw => ?_) fun ⟨d, hd, _⟩ => hnobody u ⟨d, .inl hd⟩,
    fun u d hd => absurd ⟨d, .inl hd⟩ (hnobody u)⟩
  · show s.value + 1 = 1
    rw [h.value, hheld]
    rfl
  · rw [hpc]
    split_ifs with hu
    · rw [hu, ht]
      simp
    · exact Iff.rfl
  · obtain ⟨d, hd, -⟩ := (h.waiter w u).mp hw
    obtain rfl := h.inside_unique ⟨d, .inl hd⟩ ⟨c, .inr ht⟩
    rw [ht] at hd
    cases hd

/-- **Releasing the lock**: a thread that waits for it may try again. -/
theorem Inv.lockRelease (h : s.Inv) (ht : s.pc t = .woken c) :
    ∃ s', s.lockRelease t = .ok s' ∧ (s'.setPc t (.released c)).Inv := by
  have hheld : s.holder = some t := (h.holder t).mpr ⟨c, .inr ht⟩
  have hunlocked := h.unlock ht
  rw [IntqState.lockRelease, ensure_of_true hheld, ok_bind, unblockFirst]
  have hrest : (s.setLock s.value none).waiters = s.waiters := rfl
  rw [hrest]
  cases hwaiters : s.waiters with
  | nil => exact ⟨_, rfl, hunlocked⟩
  | cons v rest =>
    obtain ⟨d, hd⟩ := (h.queue v).mp (hwaiters ▸ List.mem_cons_self)
    have hne : v ≠ t := by
      rintro rfl
      rw [ht] at hd
      cases hd
    have hnodup := h.nodup
    rw [hwaiters, List.nodup_cons] at hnodup
    have hpcv : (s.setLock s.value none).pc v = .onLock d := hd
    dsimp only
    rw [hpcv]
    refine ⟨_, rfl, ?_⟩
    -- the two threads move in either order
    set s₁ := (s.setLock (s.value + 1) none).setPc t (.released c) with hs₁
    have hcomm : (((s.setWaiters rest).setPc v (.lockReady d)).setLock (s.value + 1) none).setPc t
        (.released c) = (s₁.setWaiters rest).setPc v (.lockReady d) := by
      simp only [hs₁, IntqState.setPc, setWaiters, setLock, update_comm hne]
    have hv : s₁.pc v = .onLock d := by rw [hs₁, setPc_pc, if_neg hne]; exact hd
    refine hcomm ▸ hunlocked.move ?_ ?_ (fun u => ?_) hnodup.2
    · rw [Inside, hv]
      simp
    · rw [Inside, setPc_pc, if_pos rfl]
      simp
    · have hmem := hunlocked.queue u
      rw [show s₁.waiters = v :: rest from hwaiters, List.mem_cons] at hmem
      rw [setPc_pc]
      by_cases hu : u = v
      · rw [if_pos hu, hu]
        exact iff_of_false hnodup.1 nofun
      · rw [if_neg hu, ← hmem]
        exact (or_iff_right hu).symm

/-- **A thread gets the lock in time**: if it has slept for the lock, the queue is still empty, or
still full, when it gets it. -/
def InTime (s : IntqState) : IntqAction → Prop
  | .run t => ∀ c, s.pc t = .lockReady c → s.value ≠ 0 → s.lacks c.awaits = true
  | _ => True

/-- **One step** keeps the monitor, and fails no assertion, if the lock is got in time. -/
theorem Inv.step (h : s.Inv) (yields : Bool) {a : IntqAction} (hintime : s.InTime a) :
    (s.step yields a).Spec (fun _ => False) Inv := by
  have hspec : ∀ {x : IntqM IntqState}, (∃ s', x = .ok s' ∧ s'.Inv) →
      x.Spec (fun _ => False) Inv := by
    rintro x ⟨s', rfl, hs'⟩
    exact hs'
  cases a with
  | call t c =>
    refine Outcome.Spec.require fun hidle => ?_
    refine hspec (h.loop (free_of_pc ?_ ?_ ?_)) <;> simp [hidle]
  | run t =>
    rw [IntqState.step]
    cases hpc : s.pc t with
    | idle | onLock c | waiting c => trivial
    | lockReady c =>
      refine hspec (h.semaDown (free_of_pc ?_ ?_ ?_) (hintime c hpc)) <;> simp [hpc]
    | released c => refine hspec (h.loop (free_of_pc ?_ ?_ ?_)) <;> simp [hpc]
    | woken c =>
      obtain ⟨s₁, hrun, hinv⟩ := h.lockRelease hpc
      dsimp only
      rw [hrun, ok_bind]
      split
      · exact hinv
      · refine hspec (hinv.loop (free_of_pc ?_ ?_ ?_)) <;> simp [setPc_pc]
  | interrupt c =>
    refine Outcome.Spec.require fun hlacks => ?_
    obtain ⟨s₁, hrun, hinv, -⟩ := h.finish hlacks
    exact hspec ⟨s₁, hrun, hinv⟩
  | setPriority p => exact ⟨h.value, h.holder, h.queue, h.nodup, h.waiter, h.lacks⟩

/-- If the lock is got too late, the assertion of `wait` fails. -/
theorem step_of_not_inTime (yields : Bool) {a : IntqAction} (hlate : ¬s.InTime a) :
    s.step yields a = .panic .wait := by
  cases a with
  | call t c | interrupt c | setPriority p => exact absurd trivial hlate
  | run t =>
    rw [InTime] at hlate
    simp only [not_forall] at hlate
    obtain ⟨c, hpc, hvalue, hlacks⟩ := hlate
    have hlacks' : ¬(s.setLock (s.value - 1) (some t)).lacks c.awaits = true := hlacks
    rw [IntqState.step, hpc]
    dsimp only
    rw [semaDown, if_neg hvalue, wait, ensure, if_neg hlacks']
    rfl

theorem inv_init : init.Inv where
  value := rfl
  holder t := ⟨nofun, by rintro ⟨c, h | h⟩ <;> cases h⟩
  queue t := ⟨nofun, by rintro ⟨c, h⟩; cases h⟩
  nodup := List.nodup_nil
  waiter w t := ⟨nofun, by rintro ⟨c, h, -⟩; cases h⟩
  lacks t c h := by cases h

end IntqState

/-- **The monitor of an interrupt queue.** In every run in which the threads that have slept for
the lock get it in time, the waiters are the threads that are blocked in `wait`, whoever is
blocked there waits for something that is not the case, and an assertion fails in the next step
if and only if a thread gets the lock too late in it. -/
theorem intq_safe (yields : Bool) {as : List IntqAction} {s : IntqState}
    (hrun : Run (IntqState.step yields) IntqState.InTime IntqState.init as s) :
    (∀ w t, s.waiter w = some t ↔ ∃ c, s.pc t = .waiting c ∧ c.awaits = w) ∧
      (∀ t c, s.pc t = .waiting c → s.lacks c.awaits = true) ∧
      ∀ a, (∃ e, s.step yields a = .panic e) ↔ ¬s.InTime a := by
  have hinv : s.Inv := hrun.invariant IntqState.inv_init fun s a s' h hintime hstep =>
    (h.step yields hintime).of_eq_ok hstep
  refine ⟨hinv.waiter, hinv.lacks, fun a => ⟨?_, fun hlate => ?_⟩⟩
  · rintro ⟨e, he⟩ hintime
    exact (hinv.step yields hintime).of_eq_panic he
  · exact ⟨_, IntqState.step_of_not_inTime yields hlate⟩

/-- Two threads wait for a byte, the second one for the lock. A byte arrives, the first thread takes
it and releases the lock, and the second thread gets the lock before another byte arrives. -/
def twoGetters : List IntqAction :=
  [.call 0 .getc, .call 1 .getc, .interrupt (.putc 7), .run 0, .run 1, .interrupt (.putc 8), .run 1]

theorem intq_safe_twoGetters : ∃ s,
    Run (IntqState.step false) IntqState.InTime IntqState.init twoGetters s ∧
      s.got 0 = some 7 ∧ s.got 1 = some 8 ∧
      ∀ a, (∃ e, s.step false a = .panic e) ↔ ¬s.InTime a := by
  have hrun : ∃ s, Run (IntqState.step false) IntqState.InTime IntqState.init twoGetters s ∧
      s.got 0 = some 7 ∧ s.got 1 = some 8 := by
    refine ⟨_, Run.snoc (Run.snoc (Run.snoc (Run.snoc (Run.snoc (Run.snoc (Run.snoc .nil
      trivial rfl) trivial rfl) trivial rfl) (fun c hc => ?_) rfl) (fun c hc _ => ?_) rfl)
      trivial rfl) (fun c hc => ?_) rfl, rfl, rfl⟩
    · cases hc
    · cases hc
      rfl
    · cases hc
  obtain ⟨s, hrun, h₀, h₁⟩ := hrun
  exact ⟨s, hrun, h₀, h₁, (intq_safe false hrun).2.2⟩

/-- Two threads wait for a byte, the second one for the lock. One byte arrives; the first thread
takes it and releases the lock. Another one arrives before the second thread runs. -/
def lateGetter : List IntqAction :=
  [.call 0 .getc, .call 1 .getc, .interrupt (.putc 7), .run 0, .interrupt (.putc 8)]

/-- Then the second thread gets the lock, and the queue is not empty: the assertion fails. -/
theorem intq_wait_fails : ∃ s,
    Run (IntqState.step false) (fun _ _ => True) IntqState.init lateGetter s ∧
      s.step false (.run 1) = .panic .wait := ⟨_, Run.of_exec rfl, rfl⟩

end Pintos
