import Pintos.SynchLock

/-!
# Waiting for a Condition

A thread in `cond_wait` goes through phases: its semaphore is initialised, it enters the
waiters of the condition, a signal takes it out, the signaller raises its semaphore, and
it passes the semaphore. The history tells the phase of every thread (`phase`). The
statements of `cond_wait` that a thread has still to execute fit its phase (`Waits`), the
waiters of a condition are the threads in the waiting phase, and whoever took a thread out
has raising its semaphore as its next statement (`Monitored`).

## Main results

* `SynchStep.monitored`: every step keeps the phases, the waiters and the semaphores of the
  waiting threads in agreement.
-/

namespace Pintos

open Verif Verif.Outcome Function

/-- How far a thread is in `cond_wait`. -/
inductive WaitPhase where
  | idle
  /-- Its semaphore is initialised. -/
  | prepared
  /-- It is in the waiters of the condition. -/
  | waiting (c : CondId)
  /-- `u` has taken it out of the waiters. -/
  | signalled (c : CondId) (u : Tid)
  /-- Its semaphore is raised. -/
  | woken (c : CondId)
  /-- It has passed its semaphore. -/
  | passed (c : CondId)
  deriving DecidableEq, Repr

namespace WaitPhase

/-- The semaphore of a signalled thread is raised. -/
def wake : WaitPhase → WaitPhase
  | signalled c _ => woken c
  | p => p

/-- A woken thread passes its semaphore. -/
def pass : WaitPhase → WaitPhase
  | woken c => passed c
  | p => p

/-- The condition in whose waiters the thread is. -/
def cond : WaitPhase → Option CondId
  | waiting c => some c
  | _ => none

/-- The value of the thread's semaphore. -/
def Permits : WaitPhase → ℕ → Prop
  | prepared, v | waiting _, v | signalled _ _, v => v = 0
  | woken _, v => v = 1
  | idle, _ | passed _, _ => True

end WaitPhase

/-- What an event makes of the phase of a thread. -/
def SynchEvent.moves : SynchEvent → Option (Tid × (WaitPhase → WaitPhase))
  | .inited t => some (t, fun _ => .prepared)
  | .waiting t c => some (t, fun _ => .waiting c)
  | .signalled u c (some w) => some (w, fun _ => .signalled c u)
  | .up _ (.waiter w) => some (w, .wake)
  | .down _ (.waiter w) => some (w, .pass)
  | .returned t _ => some (t, fun _ => .idle)
  | _ => none

/-- The phase of a thread, by the history. -/
def phase : List SynchEvent → Tid → WaitPhase
  | [], _ => .idle
  | e :: log, t =>
    match e.moves with
    | some (w, f) => if t = w then f (phase log t) else phase log t
    | none => phase log t

/-! ### The statements of `cond_wait` -/

/-- How far a thread is by its own doing. -/
inductive Stage where
  | out
  | prepared
  | within (c : CondId)
  | passed (c : CondId)
  deriving DecidableEq, Repr

/-- The stage of a thread in a given phase. -/
def WaitPhase.stage : WaitPhase → Stage
  | idle => .out
  | prepared => .prepared
  | waiting c | signalled c _ | woken c => .within c
  | passed c => .passed c

/-- The statements left of a call fit the stage that the thread is in. -/
def Waits (t : Tid) : Stage → List Stmt → Prop
  | σ, [] => σ = .out
  | σ, .semaInit u :: rest => u = t ∧ σ = .out ∧ Waits t .prepared rest
  | σ, .pushBack c :: rest => σ = .prepared ∧ Waits t (.within c) rest
  | σ, .semaDown (.waiter u) :: rest => u = t ∧ ∃ c, σ = .within c ∧ Waits t (.passed c) rest
  | σ, .semaLoop (.waiter u) :: rest => u = t ∧ ∃ c, σ = .within c ∧ Waits t (.passed c) rest
  | _, .semaTryDown (.waiter _) :: _ => False
  | _, .semaUp (.waiter _) :: _ => False
  | σ, .signal _ :: rest => σ = .out ∧ Waits t σ rest
  | σ, .broadcast _ _ :: rest => σ = .out ∧ Waits t σ rest
  | σ, .returnWait c :: rest => σ = .passed c ∧ Waits t .out rest
  | σ, _ :: rest => Waits t σ rest

/-- The statements after the semaphore of a signalled thread is raised. -/
def afterRaise : List Stmt → List Stmt
  | .semaUp (.waiter _) :: rest => rest
  | todo => todo

/-- What fits a stage does not begin with the raise of a signalled thread's semaphore. -/
theorem Waits.ne_raise {t : Tid} {σ : Stage} {todo : List Stmt} (h : Waits t σ todo) (w : Tid)
    (rest : List Stmt) : todo ≠ .semaUp (.waiter w) :: rest := by
  rintro rfl
  exact h

theorem afterRaise_eq {todo : List Stmt} (h : ∀ w rest, todo ≠ .semaUp (.waiter w) :: rest) :
    afterRaise todo = todo := by
  unfold afterRaise
  split
  · exact absurd rfl (h _ _)
  · rfl

namespace Synch

/-- The phase of `t`. -/
def phase (s : Synch) (t : Tid) : WaitPhase := Pintos.phase s.log t

/-- The waiting threads, the conditions and the private semaphores are in agreement. -/
structure Monitored (s : Synch) : Prop where
  waits : ∀ t, Waits t (s.phase t).stage (afterRaise (s.threads t).todo)
  housed : Housed s.condWaiters fun t => (s.phase t).cond
  pending : ∀ u w rest, (s.threads u).todo = .semaUp (.waiter w) :: rest →
    ∃ c, s.phase w = .signalled c u
  raising : ∀ w c u, s.phase w = .signalled c u →
    ∃ rest, (s.threads u).todo = .semaUp (.waiter w) :: rest
  value : ∀ t, (s.phase t).Permits (s.semas (.waiter t)).value

variable {s s' : Synch} {t u w : Tid} {c : CondId} {n : SemaName} {σ : Stage} {stmt : Stmt}
  {rest todo : List Stmt} {e : SynchEvent} {f : WaitPhase → WaitPhase}

/-! ### Reading the history -/

theorem phase_of_log (hlog : s'.log = e :: s.log) (he : e.moves = some (w, f)) (u : Tid) :
    s'.phase u = if u = w then f (s.phase u) else s.phase u := by
  rw [phase, hlog, Pintos.phase, he]
  rfl

theorem phase_of_log_self (hlog : s'.log = e :: s.log) (he : e.moves = some (w, f)) :
    s'.phase w = f (s.phase w) := by
  rw [phase_of_log hlog he, if_pos rfl]

theorem phase_of_log_other (hlog : s'.log = e :: s.log) (he : e.moves = some (w, f))
    (hu : u ≠ w) : s'.phase u = s.phase u := by
  rw [phase_of_log hlog he, if_neg hu]

theorem phase_of_log_none (hlog : s'.log = e :: s.log) (he : e.moves = none) :
    s'.phase = s.phase := by
  funext u
  rw [phase, hlog, Pintos.phase, he]
  rfl

/-- A thread that is not about to raise a signalled thread's semaphore. -/
theorem Monitored.waits_of (h : Monitored s) {b : Bool} (ht : s.threads t = ⟨todo, b⟩)
    (hne : ∀ w rest, todo ≠ .semaUp (.waiter w) :: rest) :
    Waits t (s.phase t).stage todo := by
  have hwaits := h.waits t
  rw [ht] at hwaits
  rw [afterRaise_eq hne] at hwaits
  exact hwaits

/-- **The rule for a step of `t`** other than a signal and a raise: at most the phase of `t`
changes. -/
theorem Monitored.advance (h : Monitored s)
    (hne : ∀ w rest, (s.threads t).todo ≠ .semaUp (.waiter w) :: rest)
    (hgoes : Goes s s' t todo) (hphase : ∀ u, u ≠ t → s'.phase u = s.phase u)
    (hwaits : Waits t (s'.phase t).stage todo)
    (hsignalled : ∀ c u, s'.phase t = .signalled c u ↔ s.phase t = .signalled c u)
    (hhoused : Housed s'.condWaiters fun t => (s'.phase t).cond)
    (hvalue : ∀ u, u ≠ t → (s'.semas (.waiter u)).value = (s.semas (.waiter u)).value)
    (hpermits : (s'.phase t).Permits (s'.semas (.waiter t)).value) : Monitored s' := by
  refine ⟨fun u => ?_, hhoused, fun u w rest hu => ?_, fun w c u hw => ?_, fun u => ?_⟩
  · rcases eq_or_ne u t with rfl | hut
    · rw [hgoes.self, afterRaise_eq hwaits.ne_raise]
      exact hwaits
    · rw [hgoes.others u hut, hphase u hut]
      exact h.waits u
  · have hut : u ≠ t := by
      rintro rfl
      rw [hgoes.self] at hu
      exact hwaits.ne_raise w rest hu
    rw [hgoes.others u hut] at hu
    obtain ⟨c, hw⟩ := h.pending u w rest hu
    refine ⟨c, ?_⟩
    rcases eq_or_ne w t with rfl | hwt
    · exact (hsignalled c u).mpr hw
    · rw [hphase w hwt]
      exact hw
  · have hw' : s.phase w = .signalled c u := by
      rcases eq_or_ne w t with rfl | hwt
      · exact (hsignalled c u).mp hw
      · rw [← hphase w hwt]
        exact hw
    obtain ⟨rest, hrest⟩ := h.raising w c u hw'
    have hut : u ≠ t := by
      rintro rfl
      exact hne w rest hrest
    exact ⟨rest, (hgoes.others u hut).trans hrest⟩
  · rcases eq_or_ne u t with rfl | hut
    · exact hpermits
    · rw [hphase u hut, hvalue u hut]
      exact h.value u

/-- A step that is about no waiting thread. -/
theorem Monitored.quiet (h : Monitored s)
    (hne : ∀ w rest, (s.threads t).todo ≠ .semaUp (.waiter w) :: rest)
    (hgoes : Goes s s' t todo) (hphase : s'.phase = s.phase)
    (hcond : s'.condWaiters = s.condWaiters)
    (hvalue : ∀ u, (s'.semas (.waiter u)).value = (s.semas (.waiter u)).value)
    (hwaits : Waits t (s.phase t).stage todo) : Monitored s' := by
  refine h.advance hne hgoes (fun u _ => by rw [hphase]) ?_ (fun c u => by rw [hphase]) ?_
    (fun u _ => hvalue u) ?_
  · rw [hphase]
    exact hwaits
  · rw [hphase, hcond]
    exact h.housed
  · rw [hphase, hvalue]
    exact h.value t

/-- The waiters of the conditions do not change, nor does who is one of them. -/
theorem Monitored.housed_keep (h : Monitored s) (hcond : s'.condWaiters = s.condWaiters)
    (hphase : ∀ u, (s'.phase u).cond = (s.phase u).cond) :
    Housed s'.condWaiters fun t => (s'.phase t).cond := by
  rw [hcond, show (fun t => (s'.phase t).cond) = fun t => (s.phase t).cond from funext hphase]
  exact h.housed

/-- `cond_signal` takes the first waiter out. -/
theorem Monitored.signal {ws : List Tid} (h : Monitored s)
    (ht : s.threads t = ⟨.signal c :: rest, false⟩) (hw : s.condWaiters c = w :: ws) :
    Monitored (((s.setCondWaiters c ws).goto t (.semaUp (.waiter w) :: rest)).emit
      (.signalled t c (some w))) := by
  set s' := ((s.setCondWaiters c ws).goto t (.semaUp (.waiter w) :: rest)).emit
    (.signalled t c (some w)) with hs'
  obtain ⟨hout, hrest⟩ := h.waits_of ht (by simp)
  have hmem : w ∈ s.condWaiters c := hw ▸ List.mem_cons_self
  have hcond : (s.phase w).cond = some c := (h.housed.mem_iff c w).mp hmem
  have hwaiting : s.phase w = .waiting c := by
    cases hp : s.phase w <;> rw [hp] at hcond <;> cases hcond
    rfl
  have hwt : w ≠ t := by
    rintro rfl
    rw [hwaiting] at hout
    cases hout
  have hself : s'.phase w = .signalled c t :=
    phase_of_log_self (s := s) (f := fun _ => .signalled c t) rfl rfl
  have hother : ∀ u, u ≠ w → s'.phase u = s.phase u :=
    fun u hu => phase_of_log_other (s := s) rfl rfl hu
  have htodo : (s'.threads t).todo = .semaUp (.waiter w) :: rest := by simp [hs', setCondWaiters]
  have hothers : ∀ u, u ≠ t → s'.threads u = s.threads u := by
    intro u hu
    simp [hs', hu, setCondWaiters]
  refine ⟨fun u => ?_, h.housed.move w (fun u hu => by rw [hother u hu]) fun k => ?_,
    fun u x rest' hu => ?_, fun x c' u hx => ?_, fun u => ?_⟩
  · rcases eq_or_ne u t with rfl | hut
    · rw [htodo, hother u hwt.symm]
      exact hrest
    · rw [hothers u hut]
      rcases eq_or_ne u w with rfl | huw
      · -- the stage does not tell a waiting thread from a signalled one
        have hstage : (s'.phase u).stage = (s.phase u).stage := by rw [hself, hwaiting]; rfl
        rw [hstage]
        exact h.waits u
      · rw [hother u huw]
        exact h.waits u
  · have hdest : (s'.phase w).cond ≠ some k := by
      rw [hself]
      exact (Option.some_ne_none k).symm
    rw [Housed.moved_leave hdest]
    rcases eq_or_ne k c with rfl | hk
    · simp [hs', setCondWaiters, goto, setControl, emit, hw]
    · have hleave : (s.phase w).cond ≠ some k := by
        rw [hcond]
        exact fun heq => hk (Option.some.inj heq).symm
      rw [h.housed.erase_eq hleave]
      simp [hs', setCondWaiters, goto, setControl, emit, hk]
  · rcases eq_or_ne u t with rfl | hut
    · rw [htodo, List.cons.injEq, Stmt.semaUp.injEq, SemaName.waiter.injEq] at hu
      exact ⟨c, hu.1 ▸ hself⟩
    · rw [hothers u hut] at hu
      obtain ⟨c', hx⟩ := h.pending u x rest' hu
      have hxw : x ≠ w := by
        rintro rfl
        rw [hwaiting] at hx
        cases hx
      exact ⟨c', (hother x hxw).trans hx⟩
  · rcases eq_or_ne x w with rfl | hxw
    · rw [hself, WaitPhase.signalled.injEq] at hx
      exact ⟨rest, hx.2 ▸ htodo⟩
    · rw [hother x hxw] at hx
      obtain ⟨rest', hu⟩ := h.raising x c' u hx
      have hut : u ≠ t := by
        rintro rfl
        rw [ht] at hu
        cases hu
      exact ⟨rest', (congrArg Control.todo (hothers u hut)).trans hu⟩
  · have hvalue := h.value u
    rcases eq_or_ne u w with rfl | huw
    · rw [hself]
      rw [hwaiting] at hvalue
      exact hvalue
    · rw [hother u huw]
      exact hvalue

/-- The semaphore of a signalled thread is raised. -/
theorem Monitored.raise (h : Monitored s) (ht : s.threads t = ⟨.semaUp (.waiter w) :: rest, false⟩)
    (hgoes : Goes s s' t rest) (hlog : s'.log = .up t (.waiter w) :: s.log)
    (hcond : s'.condWaiters = s.condWaiters)
    (hvalue : ∀ m, (s'.semas m).value =
      if m = .waiter w then ((s.semas (.waiter w)).value + 1) % 2 ^ 32 else (s.semas m).value) :
    Monitored s' := by
  have htodo : (s.threads t).todo = .semaUp (.waiter w) :: rest := by rw [ht]
  obtain ⟨c, hsig⟩ := h.pending t w rest htodo
  have hwoken : s'.phase w = .woken c := by
    rw [phase_of_log_self hlog rfl, hsig]
    rfl
  have hother : ∀ u, u ≠ w → s'.phase u = s.phase u := fun u hu => phase_of_log_other hlog rfl hu
  have hrest : Waits t (s.phase t).stage rest := by
    have hwaits := h.waits t
    rw [htodo] at hwaits
    exact hwaits
  have hstage : ∀ u, (s'.phase u).stage = (s.phase u).stage := by
    intro u
    rcases eq_or_ne u w with rfl | hu
    · rw [hwoken, hsig]
      rfl
    · rw [hother u hu]
  refine ⟨fun u => ?_, h.housed_keep hcond fun u => ?_, fun u x rest' hu => ?_,
    fun x c' u hx => ?_, fun u => ?_⟩
  · rw [hstage]
    rcases eq_or_ne u t with rfl | hut
    · rw [hgoes.self, afterRaise_eq hrest.ne_raise]
      exact hrest
    · rw [hgoes.others u hut]
      exact h.waits u
  · rcases eq_or_ne u w with rfl | hu
    · rw [hwoken, hsig]
      rfl
    · rw [hother u hu]
  · have hut : u ≠ t := by
      rintro rfl
      rw [hgoes.self] at hu
      exact hrest.ne_raise x rest' hu
    rw [hgoes.others u hut] at hu
    obtain ⟨c', hx⟩ := h.pending u x rest' hu
    have hxw : x ≠ w := by
      rintro rfl
      rw [hsig, WaitPhase.signalled.injEq] at hx
      exact hut hx.2.symm
    exact ⟨c', (hother x hxw).trans hx⟩
  · have hxw : x ≠ w := by
      rintro rfl
      rw [hwoken] at hx
      cases hx
    rw [hother x hxw] at hx
    obtain ⟨rest', hu⟩ := h.raising x c' u hx
    have hut : u ≠ t := by
      rintro rfl
      rw [htodo, List.cons.injEq, Stmt.semaUp.injEq, SemaName.waiter.injEq] at hu
      exact hxw hu.1.symm
    exact ⟨rest', (hgoes.others u hut).trans hu⟩
  · rcases eq_or_ne u w with rfl | hu
    · have hzero := h.value u
      rw [hsig] at hzero
      have hzero : (s.semas (.waiter u)).value = 0 := hzero
      rw [hwoken, hvalue, if_pos rfl, hzero]
      rfl
    · rw [hother u hu, hvalue, if_neg fun heq => hu (SemaName.waiter.inj heq)]
      exact h.value u

/-- `t` enters the waiters of a condition. -/
theorem Monitored.pushBack (h : Monitored s) (ht : s.threads t = ⟨.pushBack c :: rest, false⟩) :
    Monitored (((s.setCondWaiters c (s.condWaiters c ++ [t])).goto t rest).emit
      (.waiting t c)) := by
  set s' := ((s.setCondWaiters c (s.condWaiters c ++ [t])).goto t rest).emit
    (.waiting t c) with hs'
  obtain ⟨hstage, hrest⟩ := h.waits_of ht (by simp)
  have hprepared : s.phase t = .prepared := by
    cases hp : s.phase t <;> rw [hp] at hstage <;> cases hstage
  have hself : s'.phase t = .waiting c :=
    phase_of_log_self (s := s) (f := fun _ => .waiting c) rfl rfl
  have hother : ∀ u, u ≠ t → s'.phase u = s.phase u :=
    fun u hu => phase_of_log_other (s := s) rfl rfl hu
  have hzero := h.value t
  rw [hprepared] at hzero
  have hwaits : Waits t (s'.phase t).stage rest := by
    rw [hself]
    exact hrest
  refine h.advance (by rw [ht]; simp) (.goto rfl) hother hwaits (fun k u => ?_)
    (h.housed.move t (fun u hu => by rw [hother u hu]) fun k => ?_) (fun u _ => rfl) ?_
  · rw [hself, hprepared]
    exact iff_of_false (by simp) (by simp)
  · have hleave : ∀ k, (s.phase t).cond ≠ some k := by
      intro k
      rw [hprepared]
      exact (Option.some_ne_none k).symm
    have hdest : (s'.phase t).cond = some c := by
      rw [hself]
      rfl
    rcases eq_or_ne k c with rfl | hk
    · rw [hdest, h.housed.moved_enter (hleave k)]
      simp [hs', setCondWaiters, goto, setControl, emit, List.perm_append_singleton]
    · rw [h.housed.moved_none (hleave k) (hdest ▸ fun heq => hk (Option.some.inj heq).symm)]
      simp [hs', setCondWaiters, goto, setControl, emit, hk]
  · rw [hself]
    exact hzero

/-- Of the phases within `cond_wait`, only a woken thread finds a unit. -/
theorem Monitored.woken_of_value (h : Monitored s) (hstage : (s.phase t).stage = .within c)
    (hv : (s.semas (.waiter t)).value ≠ 0) : s.phase t = .woken c := by
  have hpermits := h.value t
  cases hp : s.phase t <;> rw [hp] at hstage hpermits <;> cases hstage
  · exact absurd hpermits hv
  · exact absurd hpermits hv
  · rfl

/-- `t` passes its own semaphore. -/
theorem Monitored.pass (h : Monitored s) (ht : s.threads t = ⟨stmt :: rest, false⟩)
    (hstmt : stmt = .semaDown (.waiter t) ∨ stmt = .semaLoop (.waiter t))
    (hv : (s.semas (.waiter t)).value ≠ 0) :
    Monitored (((s.setSema (.waiter t) { s.semas (.waiter t) with
      value := (s.semas (.waiter t)).value - 1 }).goto t rest).emit (.down t (.waiter t))) := by
  set s' := ((s.setSema (.waiter t) { s.semas (.waiter t) with
    value := (s.semas (.waiter t)).value - 1 }).goto t rest).emit (.down t (.waiter t)) with hs'
  have hwaits : ∃ c, (s.phase t).stage = .within c ∧ Waits t (.passed c) rest := by
    rcases hstmt with rfl | rfl
    · exact (h.waits_of ht (by simp)).2
    · exact (h.waits_of ht (by simp)).2
  obtain ⟨c, hstage, hrest⟩ := hwaits
  have hwoken := h.woken_of_value hstage hv
  have hself : s'.phase t = .passed c := by
    rw [phase_of_log_self (s := s) (f := .pass) rfl rfl, hwoken]
    rfl
  have hother : ∀ u, u ≠ t → s'.phase u = s.phase u :=
    fun u hu => phase_of_log_other (s := s) rfl rfl hu
  have hwaits : Waits t (s'.phase t).stage rest := by
    rw [hself]
    exact hrest
  refine h.advance ?_ (.goto rfl) hother hwaits (fun k u => ?_)
    (h.housed_keep rfl fun u => ?_) (fun u hu => ?_) ?_
  · rw [ht]
    rcases hstmt with rfl | rfl <;> simp
  · rw [hself, hwoken]
    exact iff_of_false (by simp) (by simp)
  · rcases eq_or_ne u t with rfl | hu
    · rw [hself, hwoken]
      rfl
    · rw [hother u hu]
  · simp [hs', hu]
  · rw [hself]
    trivial

end Synch

open Synch

/-- A call of a thread that is not in `cond_wait`. -/
theorem waits_body (t : Tid) (c : Call) : Waits t .out (c.body t) := by
  cases c with
  | condWait c l => exact ⟨rfl, rfl, rfl, rfl, c, rfl, rfl, rfl⟩
  | condSignal c l | condBroadcast c l => exact ⟨rfl, rfl⟩
  | _ => exact rfl

theorem Synch.condWaiters_recordCall (s : Synch) (t : Tid) (c : Call) :
    (s.recordCall t c).condWaiters = s.condWaiters ∧ (s.recordCall t c).phase = s.phase := by
  cases c with
  | condBroadcast c l => exact ⟨rfl, phase_of_log_none (s := s) rfl rfl⟩
  | _ => exact ⟨rfl, rfl⟩

/-- **Every step keeps the waiting threads monitored.** -/
theorem SynchStep.monitored {s s' : Synch} {a : SynchAction} (hst : SynchStep s a s')
    (h : s.Monitored) : s'.Monitored := by
  have ne : ∀ {t : Tid} {stmt : Stmt} {rest : List Stmt}, s.threads t = ⟨stmt :: rest, false⟩ →
      (∀ w, stmt ≠ .semaUp (.waiter w)) →
      ∀ w rest, (s.threads t).todo ≠ .semaUp (.waiter w) :: rest := by
    intro t stmt rest ht hstmt w rest' heq
    rw [ht, List.cons.injEq] at heq
    exact hstmt w heq.1
  cases hst with
  | setPriority p => exact ⟨h.waits, h.housed, h.pending, h.raising, h.value⟩
  | call t c htodo =>
    obtain ⟨hsemas, -⟩ := waiters_recordCall s t c
    obtain ⟨hcond, hphase⟩ := condWaiters_recordCall s t c
    have hout : (s.phase t).stage = .out := by
      have hwaits := h.waits t
      rw [htodo] at hwaits
      exact hwaits
    refine h.quiet (by rw [htodo]; simp) (.call s t c) hphase hcond (fun u => ?_) ?_
    · rw [semas_goto, hsemas]
    · rw [hout]
      exact waits_body t c
  | assertNotHeld ht _ | assertHeld ht _ =>
    have hwaits := h.waits_of ht (by simp)
    exact h.quiet (ne ht (by simp)) (.goto rfl) rfl rfl (fun _ => rfl) hwaits
  | @semaInit t u rest ht =>
    obtain ⟨rfl, hstage, hrest⟩ := h.waits_of ht (by simp)
    have hidle : s.phase u = .idle := by
      cases hp : s.phase u <;> rw [hp] at hstage <;> cases hstage
    have hself : (((s.setSema (.waiter u) ⟨0, []⟩).goto u rest).emit (.inited u)).phase u =
        .prepared := phase_of_log_self (s := s) (f := fun _ => .prepared) rfl rfl
    refine h.advance (ne ht (by simp)) (.goto rfl)
      (fun x hx => phase_of_log_other (s := s) rfl rfl hx) (by rw [hself]; exact hrest)
      (fun k x => ?_)
      (h.housed_keep rfl fun x => ?_) (fun x hx => ?_) ?_
    · rw [hself, hidle]
      exact iff_of_false (by simp) (by simp)
    · rcases eq_or_ne x u with rfl | hx
      · rw [hself, hidle]
        rfl
      · rw [phase_of_log_other (s := s) rfl rfl hx]
    · simp [hx]
    · rw [hself]
      simp [WaitPhase.Permits]
  | @block t n stmt rest ht hstmt hv =>
    have hwaits : Waits t (s.phase t).stage (.semaLoop n :: rest) := by
      rcases hstmt with rfl | rfl
      · have hwaits := h.waits_of ht (by simp)
        cases n <;> exact hwaits
      · exact h.waits_of ht (by simp)
    refine h.quiet (ne ht ?_) (.goto rfl) rfl rfl (fun u => value_setWaiters s _ _ _) hwaits
    rcases hstmt with rfl | rfl <;> simp
  | @down t n stmt rest ht hstmt hv =>
    have hne : ∀ w, stmt ≠ .semaUp (.waiter w) := by rcases hstmt with rfl | rfl <;> simp
    cases n with
    | waiter u =>
      have hut : u = t := by
        rcases hstmt with rfl | rfl
        · exact (h.waits_of ht (by simp)).1
        · exact (h.waits_of ht (by simp)).1
      subst hut
      exact h.pass ht hstmt hv
    | plain i | lock l =>
      have hwaits : Waits t (s.phase t).stage rest := by
        rcases hstmt with rfl | rfl
        · have hwaits := h.waits_of ht (by simp)
          exact hwaits
        · have hwaits := h.waits_of ht (by simp)
          exact hwaits
      exact h.quiet (ne ht hne) (.goto rfl) (phase_of_log_none rfl rfl) rfl
        (fun u => by simp) hwaits
  | @tryDown t n rest ht hv =>
    cases n with
    | waiter u => exact (h.waits_of ht (by simp)).elim
    | plain i | lock l =>
      have hwaits := h.waits_of ht (by simp)
      exact h.quiet (ne ht (by simp)) (.goto rfl) (phase_of_log_none rfl rfl) rfl
        (fun u => by simp) hwaits
  | @tryFail t n rest ht hv =>
    have hwaits := h.waits_of ht (by simp)
    cases n with
    | waiter u => exact hwaits.elim
    | plain i | lock l => exact h.quiet (ne ht (by simp)) (.goto rfl) rfl rfl (fun _ => rfl) hwaits
  | @up t n rest ht hw =>
    cases n with
    | waiter w =>
      exact h.raise ht (.goto rfl) rfl rfl (value_increment s t _ rest)
    | plain i | lock l =>
      have hwaits := h.waits_of ht (by simp)
      exact h.quiet (ne ht (by simp)) (.goto rfl) (phase_of_log_none rfl rfl) rfl
        (fun u => by simp) hwaits
  | @wake t w n rest ws ht hw hb =>
    cases n with
    | waiter x =>
      exact h.raise ht (.wake s t w _ ws rest) rfl rfl (value_wake s t w _ ws rest)
    | plain i | lock l =>
      have hwaits := h.waits_of ht (by simp)
      exact h.quiet (ne ht (by simp)) (.wake s t w _ ws rest) (phase_of_log_none rfl rfl) rfl
        (fun u => by simp) hwaits
  | setHolder ht | clearHolder ht =>
    have hwaits := h.waits_of ht (by simp)
    exact h.quiet (ne ht (by simp)) (.goto rfl) (phase_of_log_none rfl rfl) rfl (fun _ => rfl)
      hwaits
  | pushBack ht => exact h.pushBack ht
  | signalNone ht _ | broadcastDone ht _ =>
    have hwaits := h.waits_of ht (by simp)
    exact h.quiet (ne ht (by simp)) (.goto rfl) (phase_of_log_none rfl rfl) rfl (fun _ => rfl)
      hwaits.2
  | signal ht hw => exact h.signal ht hw
  | broadcast ht _ =>
    have hwaits := h.waits_of ht (by simp)
    exact h.quiet (ne ht (by simp)) (.goto rfl) rfl rfl (fun _ => rfl) ⟨hwaits.1, hwaits⟩
  | @returnWait t c rest ht =>
    obtain ⟨hstage, hrest⟩ := h.waits_of ht (by simp)
    have hpassed : s.phase t = .passed c := by
      cases hp : s.phase t <;> rw [hp] at hstage <;> cases hstage
      rfl
    have hself : ((s.goto t rest).emit (.returned t c)).phase t = .idle :=
      phase_of_log_self (s := s) (f := fun _ => .idle) rfl rfl
    refine h.advance (ne ht (by simp)) (.goto rfl)
      (fun x hx => phase_of_log_other (s := s) rfl rfl hx) (by rw [hself]; exact hrest)
      (fun k x => ?_)
      (h.housed_keep rfl fun x => ?_) (fun x hx => rfl) ?_
    · rw [hself, hpassed]
      exact iff_of_false (by simp) (by simp)
    · rcases eq_or_ne x t with rfl | hx
      · rw [hself, hpassed]
        rfl
      · rw [phase_of_log_other (s := s) rfl rfl hx]
    · rw [hself]
      trivial

theorem synchInit_monitored (value : SemaId → ℕ) (junk : Tid → ℕ) :
    (synchInit value junk).Monitored := by
  refine ⟨fun _ => rfl, ⟨fun _ => List.nodup_nil, fun _ _ => ?_⟩, fun u w rest hu => ?_,
    fun w c u hw => ?_, fun _ => trivial⟩
  · exact iff_of_false List.not_mem_nil (Option.some_ne_none _).symm
  · cases hu
  · cases hw

end Pintos
