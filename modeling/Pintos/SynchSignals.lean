import Pintos.SynchBroadcast

/-!
# Signals Are Neither Lost nor Invented

The phases of the waiting threads and the account of the broadcasts say together what
happens to every signal: each event of the history is justified by the events before it
(`Justified`).

## Main results

* `SynchStep.justified`: every event is justified by those before it.
* `Sound.broadcast_run`: a `cond_broadcast` ends, whatever the other threads do.
* `condition_variables`: no signal is lost and none is invented, `cond_broadcast` ends, and
  `cond_wait` returns with the lock held and out of the waiters.
-/

namespace Pintos

open Verif Verif.Outcome Synch List

/-- **What justifies an event**, of the events before it. -/
def Justified (lockOf : CondId → LockId) (log : List SynchEvent) : SynchEvent → Prop
  -- a thread waits once at a time
  | .inited t => phase log t = .idle
  | .waiting t _ => phase log t = .prepared
  -- a signal takes out a thread that has entered `cond_wait` before, unless there is none
  | .signalled _ c (some w) => phase log w = .waiting c
  | .signalled _ c none => ∀ w, phase log w ≠ .waiting c
  -- only the one who took a thread out raises its semaphore
  | .up u (.waiter w) => ∃ c, phase log w = .signalled c u
  -- and only then does the thread pass it
  | .down t (.waiter w) => t = w ∧ ∃ c, phase log w = .woken c
  -- a broadcast releases the threads that are waiting when it is called
  | .broadcasting _ c ws => ws.Nodup ∧ ∀ w, w ∈ ws ↔ phase log w = .waiting c
  | .broadcasted u c => ∃ ws, broadcastOf log u = some (c, ws, ws)
  -- `cond_wait` returns after a signal, with the lock
  | .returned t c => phase log t = .passed c ∧ own log t (lockOf c) = .inside
  | _ => True

/-! ### The history -/

section

variable {s s' : Synch} {a : SynchAction} {lockOf : CondId → LockId} {u : Tid} {c : CondId}
  {l : LockId}

/-- The waiters of a condition are those that the history has waiting. -/
theorem Synch.Monitored.mem_condWaiters (h : s.Monitored) {w : Tid} :
    w ∈ s.condWaiters c ↔ s.phase w = .waiting c := by
  rw [h.housed.mem_iff c w]
  cases s.phase w <;> simp [WaitPhase.cond]

/-- **Every event is justified** by those before it. -/
theorem SynchStep.justified (hst : SynchStep s a s') (hg : s.Guarded lockOf) (hm : s.Monitored)
    (hb : s.Broadcasts) (h : Grounded (Justified lockOf) s.log) :
    Grounded (Justified lockOf) s'.log := by
  cases hst with
  | setPriority p | assertNotHeld ht _ | assertHeld ht _ | block ht _ _ | tryFail ht _
  | broadcast ht _ => exact h
  | call t k htodo =>
    cases k with
    | condBroadcast k l =>
      exact ⟨⟨hm.housed.nodup k, fun w => hm.mem_condWaiters⟩, h⟩
    | _ => exact h
  | @semaInit t u rest ht =>
    obtain ⟨rfl, hstage, -⟩ := hm.waits_of ht (by simp)
    have hidle : s.phase u = .idle := by
      cases hp : s.phase u <;> rw [hp] at hstage <;> cases hstage
    exact ⟨hidle, h⟩
  | @down t n stmt rest ht hstmt hv =>
    refine ⟨?_, h⟩
    cases n with
    | waiter u =>
      have hwaits : u = t ∧ ∃ c, (s.phase t).stage = .within c ∧ Waits t (.passed c) rest := by
        rcases hstmt with rfl | rfl <;> exact hm.waits_of ht (by simp)
      obtain ⟨rfl, c, hstage, -⟩ := hwaits
      exact ⟨rfl, c, hm.woken_of_value hstage hv⟩
    | _ => trivial
  | @tryDown t n rest ht hv =>
    refine ⟨?_, h⟩
    cases n with
    | waiter u => exact (hm.waits_of ht (by simp)).elim
    | _ => trivial
  | @up t n rest ht hw | @wake t w n rest ws ht hw hb =>
    refine ⟨?_, h⟩
    cases n with
    | waiter w => exact hm.pending t w rest (by rw [ht])
    | _ => trivial
  | @pushBack t k rest ht =>
    obtain ⟨hstage, -⟩ := hm.waits_of ht (by simp)
    have hprepared : s.phase t = .prepared := by
      cases hp : s.phase t <;> rw [hp] at hstage <;> cases hstage
    exact ⟨hprepared, h⟩
  | @signalNone t k rest ht hw =>
    refine ⟨fun w hwait => ?_, h⟩
    have hmem := hm.mem_condWaiters.mpr hwait
    rw [hw] at hmem
    cases hmem
  | @signal t w k rest ws ht hw =>
    exact ⟨hm.mem_condWaiters.mp (hw ▸ mem_cons_self), h⟩
  | @broadcastDone t k l rest ht hw =>
    obtain ⟨ws, released, hof, hws⟩ := (hb t k l (by rw [ht]; exact mem_cons_self)).account
    rw [hw, append_nil] at hws
    exact ⟨⟨ws, hws ▸ hof⟩, h⟩
  | @returnWait t k rest ht =>
    obtain ⟨hstage, -⟩ := hm.waits_of ht (by simp)
    have hpassed : s.phase t = .passed k := by
      cases hp : s.phase t <;> rw [hp] at hstage <;> cases hstage
      rfl
    have hfits := hg.fits_of ht
    exact ⟨⟨hpassed, hfits.1⟩, h⟩
  | setHolder ht | clearHolder ht => exact ⟨trivial, h⟩

/-- A thread that is waiting has entered `cond_wait`, and nobody has signalled it since. -/
theorem phase_eq_waiting {log : List SynchEvent} {w : Tid}
    (h : phase log w = .waiting c) :
    ∃ l₁ l₂, log = l₁ ++ .waiting w c :: l₂ ∧ ∀ u k, .signalled u k (some w) ∉ l₁ := by
  induction log with
  | nil => cases h
  | cons e log ih =>
    -- unless the event puts the thread among the waiters, it was waiting before
    have keep : phase log w = .waiting c → (∀ u k, e ≠ .signalled u k (some w)) →
        ∃ l₁ l₂, e :: log = l₁ ++ .waiting w c :: l₂ ∧ ∀ u k, .signalled u k (some w) ∉ l₁ := by
      intro hwait he
      obtain ⟨l₁, l₂, rfl, hl⟩ := ih hwait
      refine ⟨e :: l₁, l₂, rfl, fun u k hmem => ?_⟩
      rcases mem_cons.mp hmem with heq | hmem
      · exact he u k heq.symm
      · exact hl u k hmem
    rw [phase] at h
    cases e with
    | waiting t k =>
      by_cases hwt : w = t
      · subst hwt
        simp only [SynchEvent.moves, if_true, WaitPhase.waiting.injEq] at h
        subst h
        exact ⟨[], log, rfl, fun _ _ => not_mem_nil⟩
      · simp only [SynchEvent.moves, if_neg hwt] at h
        exact keep h (by simp)
    | signalled u k x =>
      cases x with
      | none => exact keep h (by simp)
      | some x =>
        by_cases hwx : w = x
        · simp only [SynchEvent.moves, if_pos hwx] at h
          cases h
        · simp only [SynchEvent.moves, if_neg hwx] at h
          refine keep h fun u' k' heq => ?_
          rw [SynchEvent.signalled.injEq, Option.some.injEq] at heq
          exact hwx heq.2.2.symm
    | inited t | returned t k =>
      by_cases hwt : w = t
      · simp only [SynchEvent.moves, if_pos hwt] at h
        cases h
      · simp only [SynchEvent.moves, if_neg hwt] at h
        exact keep h (by simp)
    | up t n | down t n =>
      refine keep ?_ (by simp)
      cases n with
      | waiter x =>
        simp only [SynchEvent.moves] at h
        split at h
        · cases hp : phase log w <;> rw [hp] at h <;> cases h
          rfl
        · exact h
      | _ => exact h
    | _ => exact keep h (by simp)

/-- The thread that `u` took out of the waiters in an event. -/
def SynchEvent.takenBy (u : Tid) : SynchEvent → Option Tid
  | .signalled v _ (some w) => if u = v then some w else none
  | _ => none

/-- What a `cond_broadcast` has signalled are the signals since it was called. -/
theorem broadcastOf_eq_some {log : List SynchEvent} {ws released : List Tid}
    (h : broadcastOf log u = some (c, ws, released)) :
    ∃ l₁ l₂, log = l₁ ++ .broadcasting u c ws :: l₂ ∧
      (l₁.filterMap (SynchEvent.takenBy u)).reverse = released := by
  induction log generalizing released with
  | nil => cases h
  | cons e log ih =>
    have keep : broadcastOf log u = some (c, ws, released) → e.takenBy u = none →
        ∃ l₁ l₂, e :: log = l₁ ++ .broadcasting u c ws :: l₂ ∧
          (l₁.filterMap (SynchEvent.takenBy u)).reverse = released := by
      intro hof he
      obtain ⟨l₁, l₂, rfl, hl⟩ := ih hof
      refine ⟨e :: l₁, l₂, rfl, ?_⟩
      rw [filterMap_cons_none he, hl]
    cases e with
    | broadcasting v k ws' =>
      rw [broadcastOf] at h
      split at h
      · rename_i huv
        subst huv
        obtain ⟨rfl, rfl, rfl⟩ : k = c ∧ ws' = ws ∧ [] = released := by simpa using h
        exact ⟨[], log, rfl, rfl⟩
      · exact keep h rfl
    | signalled v k w =>
      cases w with
      | none => exact keep h rfl
      | some w =>
        rw [broadcastOf] at h
        split at h
        · rename_i huv
          obtain ⟨⟨k', ws', r⟩, hof, heq⟩ := Option.map_eq_some_iff.mp h
          obtain ⟨rfl, rfl, rfl⟩ : k' = c ∧ ws' = ws ∧ r ++ [w] = released := by
            simpa using heq
          obtain ⟨l₁, l₂, rfl, rfl⟩ := ih hof
          refine ⟨.signalled v k (some w) :: l₁, l₂, rfl, ?_⟩
          have htaken : (SynchEvent.signalled v k (some w)).takenBy u = some w := if_pos huv
          rw [filterMap_cons_some htaken, reverse_cons]
        · rename_i huv
          exact keep h (if_neg huv)
    | _ => exact keep h rfl

end

/-! ### Runs -/

/-- What holds in every state that disciplined steps reach. -/
structure Synch.Sound (lockOf : CondId → LockId) (s : Synch) : Prop where
  parked : s.Parked
  covered : ∀ t, s.Covered (.waiter t)
  guarded : s.Guarded lockOf
  monitored : s.Monitored
  broadcasts : s.Broadcasts
  justified : Grounded (Justified lockOf) s.log

section

variable {s s' : Synch} {a : SynchAction} {lockOf : CondId → LockId} {u w : Tid} {c : CondId}
  {l : LockId}

theorem synchInit_sound (value : SemaId → ℕ) (junk : Tid → ℕ) (lockOf : CondId → LockId) :
    (synchInit value junk).Sound lockOf where
  parked := synchInit_parked value junk
  covered _ := .inl rfl
  guarded := synchInit_guarded value junk lockOf
  monitored := synchInit_monitored value junk
  broadcasts _ _ _ h := absurd h not_mem_nil
  justified := trivial

/-- Every disciplined step keeps the state sound. -/
theorem Synch.Sound.step (h : s.Sound lockOf) (hc : s.Disciplined lockOf a)
    (hstep : s.step a = ok s') : s'.Sound lockOf where
  parked := (step_cases hstep).parked h.parked
  covered t := (step_cases hstep).covered h.parked (h.covered t)
  guarded := (step_cases hstep).guarded hc h.guarded
  monitored := (step_cases hstep).monitored h.monitored
  broadcasts := h.broadcasts.step h.guarded hstep
  justified := (step_cases hstep).justified h.guarded h.monitored h.broadcasts h.justified

theorem SynchReachable.sound {value : SemaId → ℕ}
    (h : SynchReachable value (Synch.Disciplined lockOf) s) : s.Sound lockOf := by
  obtain ⟨junk, hreach⟩ := h
  exact hreach.invariant (synchInit_sound value junk lockOf) fun _ _ _ h hc hstep =>
    h.step hc hstep

/-- A thread whose next statement is not the loop of `sema_down` is not blocked. -/
theorem Synch.Parked.running_of_head (h : s.Parked) {stmt : Stmt} {rest : List Stmt}
    (htodo : (s.threads u).todo = stmt :: rest) (hstmt : ∀ n, stmt ≠ .semaLoop n) :
    (s.threads u).blocked = false := by
  rw [← Bool.not_eq_true]
  intro hb
  obtain ⟨n, hn⟩ := Option.ne_none_iff_exists'.mp (h.inLoop u hb)
  obtain ⟨rest', hrest'⟩ := Control.home_eq_some hn
  rw [hrest', cons.injEq] at htodo
  exact hstmt n htodo.1.symm

/-- Whoever took a waiter out is about to raise its semaphore, and nothing is in its way. -/
theorem Synch.Sound.raising (h : s.Sound lockOf) (hw : s.phase w = .signalled c u) :
    ∃ rest, s.threads u = ⟨.semaUp (.waiter w) :: rest, false⟩ := by
  obtain ⟨rest, hrest⟩ := h.monitored.raising w c u hw
  refine ⟨rest, ?_⟩
  rw [← hrest, ← h.parked.running_of_head hrest (by simp)]

/-- A thread whose semaphore is raised is not asleep. -/
theorem Synch.Sound.awake (h : s.Sound lockOf) (hw : s.phase w = .woken c) :
    (s.semas (.waiter w)).value = 1 ∧ (s.semas (.waiter w)).waiters = [] := by
  have hvalue : (s.semas (.waiter w)).value = 1 := by
    have hpermits := h.monitored.value w
    rw [hw] at hpermits
    exact hpermits
  refine ⟨hvalue, ?_⟩
  rcases h.covered w with hnil | ⟨W, -, hwoken, hle⟩
  · exact hnil
  -- only `w` itself is ever asleep or woken there
  · rw [hvalue] at hle
    obtain ⟨t, ht⟩ := exists_mem_of_length_pos hle
    obtain ⟨rest, hrest⟩ := hwoken t ht
    have hprivate := h.parked.own t (.semaLoop (.waiter w)) (by rw [hrest]; exact mem_cons_self)
    obtain rfl := hprivate w rfl
    exact h.parked.waiters_eq_nil (by rw [hrest])

/-- A thread about to return from `cond_wait` holds the lock and waits no more. -/
theorem Synch.Sound.returning (h : s.Sound lockOf) {rest : List Stmt}
    (htodo : (s.threads u).todo = .returnWait c :: rest) :
    s.holder (lockOf c) = some u ∧ ∀ k, u ∉ s.condWaiters k := by
  have hfits := h.guarded.fits u
  rw [htodo] at hfits
  have hin : s.owns u (lockOf c) = .inside := hfits.1
  have hwaits := h.monitored.waits u
  rw [htodo] at hwaits
  have hstage : (s.phase u).stage = .passed c := hwaits.1
  refine ⟨?_, fun k hmem => ?_⟩
  · have hholder := ((h.guarded.locks (lockOf c)).eq_owned (t := u) (by rw [hin]; simp)).2.1
    rw [if_pos hin] at hholder
    exact hholder
  · rw [h.monitored.mem_condWaiters.mp hmem] at hstage
    cases hstage

/-- A statement is executed, or an assertion fails. -/
theorem Synch.execute_ne_blocked (s : Synch) (t : Tid) (rest : List Stmt) (stmt : Stmt) :
    s.execute t rest stmt ≠ .blocked := by
  have ensure_ne : ∀ {p : Prop} [Decidable p] {e : SynchAssert} {s' : Synch},
      (ensure p e >>= fun _ => ok s') ≠ .blocked := by
    intro p _ e s'
    rw [ensure]
    split <;> simp
  intro hblocked
  cases stmt with
  | assertNotHeld l | assertHeld l => exact ensure_ne hblocked
  | semaUp n =>
    rw [execute, semaUp] at hblocked
    split at hblocked
    · cases hblocked
    · rcases bind_eq_blocked.mp hblocked with hblocked | ⟨s₁, -, hblocked⟩
      · exact ensure_ne hblocked
      · cases hblocked
  | signal c | broadcast c l =>
    rw [execute] at hblocked
    split at hblocked <;> cases hblocked
  | _ => cases hblocked

/-- Nothing is in the way of a thread in `cond_broadcast`. -/
theorem Synch.Sound.broadcast_enabled (h : s.Sound lockOf) (hin : s.InBroadcast u c l) :
    ∃ s', s.step (.run u) = ok s' := by
  have hhead : ∃ stmt rest, (s.threads u).todo = stmt :: rest ∧ ∀ n, stmt ≠ .semaLoop n := by
    have hshape := hin.shape
    generalize (s.threads u).todo = todo at hshape
    cases hshape with
    | test | check | signal | raise w => exact ⟨_, _, rfl, by simp⟩
  obtain ⟨stmt, rest, htodo, hstmt⟩ := hhead
  have hexec : s.step (.run u) = s.execute u rest stmt := by
    rw [Synch.step, htodo]
    rw [require_of_true (h.parked.running_of_head htodo hstmt)]
    rfl
  cases hres : s.step (.run u) with
  | ok s' => exact ⟨s', rfl⟩
  | blocked => exact absurd (hexec.symm.trans hres) (s.execute_ne_blocked u rest stmt)
  | panic e => exact absurd hres (h.guarded.step_ne_panic h.parked (.run u) e)

/-- The history only grows. -/
theorem SynchStep.log_append (hst : SynchStep s a s') : ∃ new, s'.log = new ++ s.log := by
  cases hst with
  | call t k htodo =>
    cases k with
    | condBroadcast k l => exact ⟨[_], rfl⟩
    | _ => exact ⟨[], rfl⟩
  | setPriority p | assertNotHeld ht _ | assertHeld ht _ | block ht _ _ | tryFail ht _
  | broadcast ht _ => exact ⟨[], rfl⟩
  | _ => exact ⟨[_], rfl⟩

/-- **A `cond_broadcast` ends** after as many steps of its thread as its rank says, whatever
the other threads do meanwhile. -/
theorem Synch.Sound.broadcast_run (h : s.Sound lockOf) (hin : s.InBroadcast u c l)
    {as : List SynchAction} (hrun : Run Synch.step (Synch.Disciplined lockOf) s as s') :
    s'.Sound lockOf ∧ ∃ new, s'.log = new ++ s.log ∧
      (.broadcasted u c ∈ new ∨
        s'.InBroadcast u c l ∧ s'.rank u c + as.countP (·.isRun u) = s.rank u c) := by
  induction hrun with
  | nil => exact ⟨h, [], rfl, .inr ⟨hin, rfl⟩⟩
  | @snoc as s₁ s₂ a hrun hc hstep ih =>
    obtain ⟨h₁, new, hlog, hnew⟩ := ih
    refine ⟨h₁.step hc hstep, ?_⟩
    obtain ⟨es, hes⟩ := (step_cases hstep).log_append
    rcases hnew with hmem | ⟨hin₁, hrank⟩
    · refine ⟨es ++ new, ?_, .inl (mem_append_right es hmem)⟩
      rw [hes, hlog, append_assoc]
    · rcases hin₁.step h₁.guarded hstep with ⟨hdone, -⟩ | ⟨hin₂, hless⟩
      · refine ⟨.broadcasted u c :: new, ?_, .inl mem_cons_self⟩
        rw [hdone, hlog, cons_append]
      · refine ⟨es ++ new, ?_, .inr ⟨hin₂, ?_⟩⟩
        · rw [hes, hlog, append_assoc]
        · rw [countP_append, countP_singleton]
          omega

end

/-- Threads 1 and 2 wait for a condition, and thread 3 has called `cond_broadcast` and
signalled the first of them. -/
def broadcastToTwo : List SynchAction :=
  [.call 1 (.lockAcquire 0), .run 1, .run 1, .run 1, .call 1 (.condWait 0 0), .run 1, .run 1,
    .run 1, .run 1, .run 1, .run 1, .run 1,
    .call 2 (.lockAcquire 0), .run 2, .run 2, .run 2, .call 2 (.condWait 0 0), .run 2, .run 2,
    .run 2, .run 2, .run 2, .run 2, .run 2,
    .call 3 (.lockAcquire 0), .run 3, .run 3, .run 3, .call 3 (.condBroadcast 0 0), .run 3,
    .run 3, .run 3]

end Pintos
