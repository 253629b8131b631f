import Mathlib.Data.List.Rotate
import Pintos.SchedulerClocks

/-!
# Round Robin Among Equals

`thread_yield` puts the running thread into the run queue behind every thread of its own
priority and gives the processor to the front of the queue. So long as nobody is created,
woken or given another priority, the threads of maximal priority take turns: what a yield
does to the list of them, in the order of the run queue, is to rotate it by one
(`maximal_insert`), and the thread that gets the processor is the front of that list.

## Main results

* `threadYield_effect`: whom a yield switches to, and the queue that it leaves.
* `Turns.rotates`: after `n` turns the threads of maximal priority are rotated by `n`.
* `round_robin`: they run in a fixed cyclic order, and nobody else runs.
-/

namespace Pintos

open Verif Verif.Outcome List

/-! ### The maximal elements of a queue -/

section

variable {α : Type} {prio : α → ℤ} {q rest : List α} {t : α}

/-- The elements of maximal priority, in the order of the queue. -/
def maximal (prio : α → ℤ) (q : List α) : List α :=
  q.filter fun t => q.all fun t' => prio t' ≤ prio t

theorem mem_maximal : t ∈ maximal prio q ↔ t ∈ q ∧ ∀ t' ∈ q, prio t' ≤ prio t := by
  simp [maximal]

/-- The maximal elements of a queue in order: the front one and those that follow it with
the same priority. -/
theorem maximal_cons (h : (t :: rest).Pairwise fun a b => prio b ≤ prio a) :
    maximal prio (t :: rest) = t :: rest.takeWhile fun x => !decide (prio x < prio t) := by
  obtain ⟨hle, hrest⟩ := pairwise_cons.mp h
  have hmax : ∀ x ∈ rest, ((t :: rest).all fun t' => decide (prio t' ≤ prio x)) =
      !decide (prio x < prio t) := by
    intro x hx
    by_cases hlt : prio x < prio t
    · simp only [all_cons, hlt, decide_true, Bool.not_true, Bool.and_eq_false_iff]
      exact .inl (decide_eq_false (by omega))
    · simp only [hlt, decide_false, Bool.not_false, all_eq_true, decide_eq_true_eq]
      intro y hy
      rcases mem_cons.mp hy with rfl | hy
      · omega
      · have := hle y hy
        omega
  rw [maximal, filter_cons_of_pos]
  · rw [filter_congr hmax]
    congr 1
    clear hmax h hle
    induction rest with
    | nil => rfl
    | cons x rest ih =>
      obtain ⟨hx, hrest⟩ := pairwise_cons.mp hrest
      by_cases hlt : prio x < prio t
      · -- everything behind a smaller element is smaller too
        rw [filter_cons_of_neg (by simp [hlt]), takeWhile_cons_of_neg (by simp [hlt]),
          filter_eq_nil_iff]
        intro y hy
        have := hx y hy
        simp only [Bool.not_eq_true, Bool.not_eq_false', decide_eq_true_eq]
        omega
      · rw [filter_cons_of_pos (by simp [hlt]), takeWhile_cons_of_pos (by simp [hlt]),
          ih hrest]
  · simp only [all_cons, le_refl, decide_true, Bool.true_and, all_eq_true,
      decide_eq_true_eq]
    exact hle

/-- Insertion looks at the comparisons of the new element only. -/
theorem listInsertOrdered_congr {less less' : α → α → Bool}
    (h : ∀ x ∈ q, less t x = less' t x) :
    listInsertOrdered less t q = listInsertOrdered less' t q := by
  induction q with
  | nil => rfl
  | cons x q ih =>
    have hx := h x mem_cons_self
    have hq := ih fun y hy => h y (mem_cons_of_mem x hy)
    rw [listInsertOrdered, listInsertOrdered] at hq ⊢
    rw [orderedInsert_cons, orderedInsert_cons, hx, hq]

/-- **Putting the front element back rotates the maximal elements.** -/
theorem maximal_insert {less : α → α → Bool} (hless : ∀ a b, less a b = decide (prio b < prio a))
    (h : (t :: rest).Pairwise fun a b => prio b ≤ prio a) :
    maximal prio (listInsertOrdered less t rest) = (maximal prio (t :: rest)).rotate 1 := by
  obtain ⟨hle, hrest⟩ := pairwise_cons.mp h
  rw [maximal_cons h, rotate_cons_succ, rotate_zero]
  have hall : ∀ x, ((listInsertOrdered less t rest).all fun t' => decide (prio t' ≤ prio x)) =
      (t :: rest).all fun t' => decide (prio t' ≤ prio x) := by
    intro x
    rw [Bool.eq_iff_iff, all_eq_true, all_eq_true]
    simp only [(listInsertOrdered_perm less t rest).mem_iff]
  have hfilter : maximal prio (listInsertOrdered less t rest) =
      (listInsertOrdered less t rest).filter fun x =>
        (t :: rest).all fun t' => decide (prio t' ≤ prio x) := by
    rw [maximal]
    exact filter_congr fun x _ => hall x
  have hsplit : listInsertOrdered less t rest =
      rest.takeWhile (fun x => !decide (prio x < prio t)) ++
        t :: rest.dropWhile fun x => !decide (prio x < prio t) := by
    rw [listInsertOrdered, orderedInsert_eq_take_drop]
    simp only [hless, decide_eq_true_eq, decide_not]
  have hfront : ∀ x, (t :: rest).all (fun t' => decide (prio t' ≤ prio x)) = true ↔
      prio t ≤ prio x := by
    intro x
    simp only [all_cons, Bool.and_eq_true, decide_eq_true_eq, all_eq_true]
    exact ⟨And.left, fun hx => ⟨hx, fun y hy => (hle y hy).trans hx⟩⟩
  have hself := (hfront t).mpr (le_refl _)
  rw [hfilter, hsplit, filter_append, filter_cons, if_pos hself]
  have htake : (rest.takeWhile fun x => !decide (prio x < prio t)).filter
      (fun x => (t :: rest).all fun t' => decide (prio t' ≤ prio x)) =
      rest.takeWhile fun x => !decide (prio x < prio t) := by
    rw [filter_eq_self]
    intro x hx
    have hnot := all_eq_true.mp all_takeWhile x hx
    rw [Bool.not_eq_true', decide_eq_false_iff_not] at hnot
    exact (hfront x).mpr (by omega)
  have hdrop : (rest.dropWhile fun x => !decide (prio x < prio t)).filter
      (fun x => (t :: rest).all fun t' => decide (prio t' ≤ prio x)) = [] := by
    rw [filter_eq_nil_iff]
    intro x hx hmax
    rw [hfront] at hmax
    clear hall hfilter hsplit hself hfront htake h hle
    induction rest with
    | nil => cases hx
    | cons y rest ih =>
      obtain ⟨hy, hrest⟩ := pairwise_cons.mp hrest
      by_cases hlt : prio y < prio t
      · rw [dropWhile_cons_of_neg (by simp [hlt])] at hx
        rcases mem_cons.mp hx with rfl | hx
        · omega
        · have := hy x hx
          omega
      · rw [dropWhile_cons_of_pos (by simp [hlt])] at hx
        exact ih hrest hx
  rw [htake, hdrop]

end

namespace Sched

variable {s s' : Sched}

/-! ### A yield -/

/-- The run queue that a yield makes: the running thread enters it, unless it is the idle
thread. -/
def runQueue (s : Sched) : List Tid :=
  if s.idleThread = some s.current then s.readyList
  else listInsertOrdered s.comparePriority s.current s.readyList

/-- The threads of maximal priority among the runnable ones, in the order of the queue. -/
def top (s : Sched) : List Tid := maximal s.priority s.runQueue

/-- `t` is running or ready, and not the idle thread. -/
def Runnable (s : Sched) (t : Tid) : Prop :=
  (t = s.current ∧ s.idleThread ≠ some t) ∨ t ∈ s.readyList

theorem mem_runQueue {t : Tid} : t ∈ s.runQueue ↔ s.Runnable t := by
  rw [runQueue, Runnable]
  split_ifs with hidle
  · constructor
    · exact .inr
    · rintro (⟨rfl, hne⟩ | ht)
      · exact absurd hidle hne
      · exact ht
  · rw [mem_listInsertOrdered]
    constructor
    · rintro (rfl | ht)
      · exact .inl ⟨rfl, hidle⟩
      · exact .inr ht
    · rintro (⟨rfl, -⟩ | ht)
      · exact .inl rfl
      · exact .inr ht

theorem Partition.nodup_runQueue (hp : Partition s) : s.runQueue.Nodup := by
  rw [runQueue]
  split
  · exact hp.housed.nodup .ready
  · rw [(listInsertOrdered_perm _ _ _).nodup_iff, nodup_cons]
    exact ⟨hp.housed.not_mem hp.current_home .ready, hp.housed.nodup .ready⟩

theorem Ordered.runQueue (h : Ordered s) :
    s.runQueue.Pairwise fun a b => s.priority b ≤ s.priority a := by
  rw [Sched.runQueue]
  split
  · exact h
  · rw [← inOrder_comparePriority]
    exact inOrder_listInsertOrdered s.comparePriority_strictWeakOrder _
      (inOrder_comparePriority.mpr h)

/-- `schedule` switches to the front of the run queue. -/
theorem schedule_front {cur : Thread} {t : Tid} {rest : List Tid}
    (hcur : s.threads s.current = some cur) (hr : s.readyList = t :: rest) :
    s.schedule.Post fun s' =>
      s'.current = t ∧ s'.readyList = rest ∧ s'.idleThread = s.idleThread := by
  refine (schedule_frame (P := fun _ => False) hcur).mono fun s' _ ⟨s₁, h₁, hnext, hs'⟩ => ?_
  have hidle : s₁.idleThread = s.idleThread := by rw [h₁.same]
  rcases hnext with hnext | ⟨hnil, -⟩
  · rw [hr, cons.injEq] at hnext
    rw [hs']
    split <;> exact ⟨hnext.1.symm, hnext.2.symm, hidle⟩
  · rw [hr] at hnil
    cases hnil

/-- A thread's priority is part of its clock. -/
theorem SameClocks.priority (h : SameClocks s s') : s'.priority = s.priority := by
  have hread : ∀ (x : Sched) t, x.priority t = (x.clocks t).elim 0 Clock.priority := by
    intro x t
    rw [Sched.priority, Sched.clocks]
    cases x.threads t <;> rfl
  funext t
  rw [hread, hread, h.clocks]

/-- **What a yield does**: the front of the run queue gets the processor, and the rest stays. -/
theorem threadYield_effect {pc : Pc} {t : Tid} {rest : List Tid} (hq : s.runQueue = t :: rest) :
    (s.threadYield pc).Post fun s' =>
      s'.current = t ∧ s'.readyList = rest ∧ s'.idleThread = s.idleThread ∧
        s'.priority = s.priority := by
  have hswitch : (s.threadYield pc).Post fun s' =>
      s'.current = t ∧ s'.readyList = rest ∧ s'.idleThread = s.idleThread := by
    refine threadCurrent_spec.bind fun cur _ _ => ?_
    rw [runQueue] at hq
    split at hq
    · rw [if_pos ‹_›]
      exact schedule_front (Function.update_self _ _ _) hq
    · rw [if_neg ‹_›]
      exact schedule_front (Function.update_self _ _ _) hq
  cases hs : s.threadYield pc with
  | ok s' =>
    have hclocks := threadYield_sameClocks.of_eq_ok hs
    obtain ⟨hcur, hready, hidle⟩ := hswitch.of_eq_ok hs
    exact ⟨hcur, hready, hidle, hclocks.priority⟩
  | blocked | panic e => trivial

/-- After a yield the threads of maximal priority are rotated by one, and the first of them
runs. -/
theorem threadYield_top {pc : Pc} (hp : Partition s) (ho : Ordered s) (htop : s.top ≠ [])
    (hs : s.threadYield pc = .ok s') : s.top[0]? = some s'.current ∧ s'.top = s.top.rotate 1 := by
  cases hq : s.runQueue with
  | nil =>
    rw [top, hq] at htop
    exact absurd rfl htop
  | cons t rest =>
    obtain ⟨hcur, hready, hidle, hprio⟩ := (threadYield_effect hq).of_eq_ok hs
    have hord : (t :: rest).Pairwise fun a b => s.priority b ≤ s.priority a := hq ▸ ho.runQueue
    have hne : s.idleThread ≠ some t := by
      have hmem : s.Runnable t := mem_runQueue.mp (hq ▸ mem_cons_self)
      rcases hmem with ⟨-, hne⟩ | hmem
      · exact hne
      · exact (home_eq_ready ((hp.housed.mem_iff .ready t).mp hmem)).1
    have hqueue : s'.runQueue = listInsertOrdered s'.comparePriority t rest := by
      rw [runQueue, hidle, hcur, if_neg hne, hready]
    refine ⟨?_, ?_⟩
    · rw [top, hq, maximal_cons hord, hcur]
      rfl
    · have hless : ∀ a b, s'.comparePriority a b = decide (s.priority b < s.priority a) := by
        intro a b
        rw [comparePriority, hprio]
      rw [top, top, hq, hqueue, hprio, maximal_insert hless hord]

/-- A yield completes. -/
theorem threadYield_completes {cur : Thread} {pc : Pc} (hp : Partition s)
    (hcur : s.threads s.current = some cur) (hst : cur.status = .running)
    (hpc : pc.isIdle = cur.pc.isIdle) (hboot : cur.pc = .idleInit → pc = .idleInit) :
    ∃ s', s.threadYield pc = .ok s' := by
  have hnever : ∀ s : Sched, s.schedule ≠ .blocked := by
    intro s
    unfold schedule
    split
    · simp
    · intro hb
      rcases bind_eq_blocked.mp hb with hb | ⟨_, -, hb⟩
      · rw [ensure] at hb
        split at hb <;> cases hb
      · split at hb
        · cases hb
        · split at hb <;> cases hb
  have hspec := threadYield_spec hp hcur hst hpc hboot
  cases hs : s.threadYield pc with
  | ok s' => exact ⟨s', rfl⟩
  | panic e => exact (hspec.of_eq_panic hs).elim
  | blocked =>
    rw [threadYield, threadCurrent_of hcur hst, ok_bind] at hs
    exact absurd hs (hnever _)

/-! ### Turns -/

/-- The step switches to nobody, wakes and creates nobody, and changes no priority of a
runnable thread. -/
structure Undisturbed (s s' : Sched) : Prop where
  current : s'.current = s.current
  readyList : s'.readyList = s.readyList
  idleThread : s'.idleThread = s.idleThread
  priority : ∀ t ∈ s.runQueue, s'.priority t = s.priority t

/-- The threads that got the processor, in this order, while the running thread only called
`thread_yield`, was made to by a timer interrupt that woke nobody, or did something that
disturbs nobody. -/
inductive Turns (cfg : Config) (s₀ : Sched) : List Tid → Sched → Prop
  | nil : Turns cfg s₀ [] s₀
  | quiet {ts s s'} (a : Action) (h : Turns cfg s₀ ts s) (hstep : s.step cfg a = .ok s')
      (hsame : Undisturbed s s') : Turns cfg s₀ ts s'
  | yield {ts s s'} (h : Turns cfg s₀ ts s) (hstep : s.step cfg .threadYield = .ok s') :
      Turns cfg s₀ (ts ++ [s'.current]) s'
  | slice {ts s s'} (h : Turns cfg s₀ ts s) (hstep : s.step cfg .timerInterrupt = .ok s')
      (hdue : s.due = []) (hslice : timeSlice ≤ s.threadTicks + 1) :
      Turns cfg s₀ (ts ++ [s'.current]) s'

theorem Undisturbed.top (h : Undisturbed s s') : s'.top = s.top := by
  have hqueue : s'.runQueue = s.runQueue := by
    rw [runQueue, runQueue, h.idleThread, h.current, h.readyList]
    split_ifs with hidle
    · rfl
    · -- insertion compares the running thread with the threads of the queue only
      have hmem : ∀ t, t = s.current ∨ t ∈ s.readyList → s'.priority t = s.priority t := by
        intro t ht
        refine h.priority t (mem_runQueue.mpr ?_)
        rcases ht with rfl | ht
        · exact .inl ⟨rfl, hidle⟩
        · exact .inr ht
      refine listInsertOrdered_congr fun t ht => ?_
      rw [comparePriority, comparePriority, hmem t (.inr ht), hmem _ (.inl rfl)]
  rw [Sched.top, Sched.top, maximal, maximal, hqueue]
  refine filter_congr fun t ht => ?_
  rw [Bool.eq_iff_iff, all_eq_true, all_eq_true]
  simp only [decide_eq_true_eq]
  constructor
  · intro hall x hx
    have hle := hall x hx
    rwa [h.priority x hx, h.priority t ht] at hle
  · intro hall x hx
    rw [h.priority x hx, h.priority t ht]
    exact hall x hx

/-- `block_check` does nothing when no sleeper is due. -/
theorem blockCheckLoop_of_none {rest : List Tid} (h : ∀ t ∈ rest, ¬s.wakeTick t ≤ s.ticks) :
    (s.blockCheckLoop rest).Post (· = s) := by
  induction rest with
  | nil => rfl
  | cons t rest ih =>
    rw [blockCheckLoop]
    split
    · trivial
    · rename_i th hth
      have hwake : s.wakeTick t = th.ticks := by rw [wakeTick, hth, Option.elim_some]
      rw [if_neg (hwake ▸ h t mem_cons_self)]
      exact ih fun x hx => h x (mem_cons_of_mem t hx)

/-- The end of a time slice in which nobody wakes is a yield. -/
theorem timerInterrupt_slice {cfg : Config} (hcfg : cfg.recalculates = false) (hdue : s.due = [])
    (hslice : timeSlice ≤ s.threadTicks + 1) (hs : s.timerInterrupt cfg = .ok s') :
    ∃ pc, ({ s with ticks := s.ticks + 1, threadTicks := s.threadTicks + 1 } : Sched).threadYield
      pc = .ok s' := by
  obtain ⟨cur, -, hs⟩ := bind_eq_ok.mp hs
  obtain ⟨⟨s₂, yield⟩, htick, hs⟩ := bind_eq_ok.mp hs
  obtain ⟨s₁, hcheck, htick⟩ := bind_eq_ok.mp htick
  have hnone : ∀ t ∈ s.blockedList, ¬s.wakeTick t ≤ s.ticks + 1 := by
    intro t ht hle
    have hmem : t ∈ s.due := mem_filter.mpr ⟨ht, decide_eq_true hle⟩
    rw [hdue] at hmem
    cases hmem
  obtain rfl := (blockCheckLoop_of_none (s := { s with
    ticks := s.ticks + 1, threadTicks := s.threadTicks + 1 }) hnone).of_eq_ok hcheck
  have hplain : (!cfg.userprog && (cfg.aging || cfg.mlfqs)) = false := hcfg
  rw [mlfqsTick, hplain, if_neg Bool.false_ne_true, pure_eq, ok_bind] at htick
  dsimp only at htick
  rw [pure_eq, Outcome.ok.injEq, Prod.mk.injEq] at htick
  obtain ⟨rfl, rfl⟩ := htick
  dsimp only at hs
  rw [if_pos (by rw [decide_eq_true hslice, Bool.true_or])] at hs
  exact ⟨cur.pc, hs⟩

variable {cfg : Config} {s₀ s : Sched} {ts : List Tid}

/-- The partition and the order of the queue hold in every state on the way. -/
theorem Turns.ordered (h : Turns cfg s₀ ts s) (hp : Partition s₀) (ho : Ordered s₀) :
    Partition s ∧ Ordered s := by
  have hnext : ∀ {s s' : Sched} {a : Action}, Partition s ∧ Ordered s →
      s.step cfg a = .ok s' → Partition s' ∧ Ordered s' := fun hs hstep =>
    ⟨(step_spec hs.1).of_eq_ok hstep, ((step_ordered hs.1 hs.2).of_eq_ok hstep).1⟩
  induction h with
  | nil => exact ⟨hp, ho⟩
  | quiet a _ hstep _ ih | yield _ hstep ih | slice _ hstep _ _ ih => exact hnext ih hstep

/-- As many turns as there are calls of `thread_yield`. -/
theorem Turns.exec_yields (h : Turns cfg s₀ ts s) {n : ℕ}
    (hs : exec (step cfg) s (replicate n .threadYield) = .ok s') :
    ∃ ts', ts'.length = ts.length + n ∧ Turns cfg s₀ ts' s' := by
  induction n generalizing ts s with
  | zero =>
    cases hs
    exact ⟨ts, rfl, h⟩
  | succ n ih =>
    obtain ⟨s₁, hstep, hs⟩ := bind_eq_ok.mp hs
    obtain ⟨ts', hlength, hturns⟩ := ih (h.yield hstep) hs
    refine ⟨ts', ?_, hturns⟩
    rw [hlength, length_append, length_singleton]
    omega

/-- **Turns rotate the threads of maximal priority**, and each turn is that of the first. -/
theorem Turns.rotates (h : Turns cfg s₀ ts s) (hcfg : cfg.recalculates = false)
    (hp : Partition s₀) (ho : Ordered s₀) (htop : s₀.top ≠ []) :
    s.top = s₀.top.rotate ts.length ∧
      ∀ i < ts.length, ts[i]? = s₀.top[i % s₀.top.length]? := by
  have hturn : ∀ {ts : List Tid} {s s' s₁ : Sched} {pc : Pc}, Partition s₁ → Ordered s₁ →
      s₁.top = s.top → s₁.threadYield pc = .ok s' →
      (s.top = s₀.top.rotate ts.length ∧
        ∀ i < ts.length, ts[i]? = s₀.top[i % s₀.top.length]?) →
      s'.top = s₀.top.rotate (ts ++ [s'.current]).length ∧
        ∀ i < (ts ++ [s'.current]).length,
          (ts ++ [s'.current])[i]? = s₀.top[i % s₀.top.length]? := by
    rintro ts s s' s₁ pc hp₁ ho₁ hsame hyield ⟨hrot, hget⟩
    have hne : s₁.top ≠ [] := by
      rw [hsame, hrot, Ne, rotate_eq_nil_iff]
      exact htop
    obtain ⟨hfirst, hnext⟩ := threadYield_top hp₁ ho₁ hne hyield
    refine ⟨?_, fun i hi => ?_⟩
    · rw [hnext, hsame, hrot, rotate_rotate, length_append, length_singleton]
    · rw [length_append, length_singleton] at hi
      rcases Nat.lt_succ_iff_lt_or_eq.mp hi with hlt | rfl
      · rw [getElem?_append_left hlt, hget i hlt]
      · rw [getElem?_append_right (le_refl _), Nat.sub_self, getElem?_cons_zero,
          ← hfirst, hsame, hrot, getElem?_rotate (length_pos_iff.mpr htop),
          Nat.zero_add]
  induction h with
  | nil => exact ⟨(rotate_zero _).symm, fun i hi => absurd hi (Nat.not_lt_zero i)⟩
  | quiet a _ _ hsame ih => exact ⟨hsame.top.trans ih.1, ih.2⟩
  | yield h hstep ih =>
    obtain ⟨hp', ho'⟩ := h.ordered hp ho
    obtain ⟨cur, -, hstep⟩ := bind_eq_ok.mp hstep
    exact hturn hp' ho' rfl (require_bind_eq_ok.mp hstep).2 ih
  | @slice ts s s' h hstep hdue hslice ih =>
    obtain ⟨hp', ho'⟩ := h.ordered hp ho
    obtain ⟨cur, -, hstep⟩ := bind_eq_ok.mp hstep
    obtain ⟨pc, hyield⟩ := timerInterrupt_slice hcfg hdue hslice (require_bind_eq_ok.mp hstep).2
    set s₁ : Sched := { s with ticks := s.ticks + 1, threadTicks := s.threadTicks + 1 }
    have hp₁ : Partition s₁ :=
      hp'.congr rfl (fun q => by cases q <;> exact List.Perm.refl _) rfl ⟨rfl, rfl, rfl, rfl⟩
    exact hturn hp₁ (ho'.congr rfl fun _ _ => rfl) rfl hyield ih

end Sched

/-- **Round robin among equals.** In plain priority mode, from any reachable state in which
some thread other than the idle thread is runnable, the runnable threads of maximal priority
take turns in the order in which they stand in the run queue: the `i`-th turn is that of the
`i`-th of them, counted around, any `k` turns in a row are a rotation of the list of the `k`
of them, and a thread in its own code can always take the next turn. -/
theorem round_robin {cfg : Config} {s₀ s : Sched} {ts : List Tid}
    (h : SchedReachable cfg (fun _ _ => True) s₀) (hcfg : cfg.recalculates = false)
    (hturns : Sched.Turns cfg s₀ ts s) (htop : ∃ t, s₀.Runnable t) :
    (∀ t, t ∈ s₀.top ↔
      s₀.Runnable t ∧ ∀ t', s₀.Runnable t' → s₀.priority t' ≤ s₀.priority t) ∧
    s₀.top.Nodup ∧
    (∀ i < ts.length, ts[i]? = s₀.top[i % s₀.top.length]?) ∧
    (∀ i, i + s₀.top.length ≤ ts.length → (ts.drop i).take s₀.top.length = s₀.top.rotate i) ∧
    (∀ t ∈ ts, t ∈ s₀.top) ∧
    ∀ cur, s.threads s.current = some cur → cur.pc = .code →
      ∃ s', s.step cfg .threadYield = ok s' := by
  have hp := h.partition
  obtain ⟨-, ho⟩ := h.ordered
  have hmem : ∀ t, t ∈ s₀.top ↔
      s₀.Runnable t ∧ ∀ t', s₀.Runnable t' → s₀.priority t' ≤ s₀.priority t := by
    intro t
    rw [Sched.top, mem_maximal, Sched.mem_runQueue]
    simp only [Sched.mem_runQueue]
  have hne : s₀.top ≠ [] := by
    obtain ⟨t, ht⟩ := htop
    cases hq : s₀.runQueue with
    | nil =>
      rw [← Sched.mem_runQueue, hq] at ht
      cases ht
    | cons x rest =>
      rw [Sched.top, hq, maximal_cons (hq ▸ ho.runQueue)]
      exact cons_ne_nil _ _
  obtain ⟨-, hget⟩ := hturns.rotates hcfg hp ho hne
  refine ⟨hmem, hp.nodup_runQueue.filter _, hget, fun i hi => ?_, fun t ht => ?_, ?_⟩
  · refine ext_getElem? fun j => ?_
    rw [getElem?_take]
    split_ifs with hj
    · rw [getElem?_drop, hget _ (by omega), getElem?_rotate hj, Nat.add_comm]
    · rw [getElem?_eq_none (by rw [length_rotate]; omega)]
  · obtain ⟨i, hi, rfl⟩ := mem_iff_getElem.mp ht
    have heq := hget i hi
    rw [getElem?_eq_getElem hi, eq_comm, getElem?_eq_some_iff] at heq
    obtain ⟨hlt, heq⟩ := heq
    exact heq ▸ getElem_mem hlt
  · intro cur hcur hpc
    have hp' := (hturns.ordered hp ho).1
    obtain ⟨cur', hcur', hst, heq⟩ := hp'.threadCurrent
    obtain rfl : cur' = cur := Option.mem_unique hcur' hcur
    have hyield : ∃ s', s.threadYield .code = .ok s' :=
      Sched.threadYield_completes hp' hcur hst (by rw [hpc]) fun hi => by rw [hpc] at hi; cases hi
    obtain ⟨s', hs'⟩ := hyield
    refine ⟨s', ?_⟩
    rw [Sched.step, heq, ok_bind]
    exact require_bind_eq_ok.mpr ⟨.inl hpc, hs'⟩

/-- The initial thread creates a thread of its own priority, and the two take turns. -/
theorem round_robin_two :
    ∃ s₀ ts s, SchedReachable ⟨false, false, false⟩ (fun _ _ => True) s₀ ∧ s₀.top = [2, 0] ∧
      ts.length = 5 ∧ Sched.Turns ⟨false, false, false⟩ s₀ ts s ∧
      ∀ i < ts.length, ts[i]? = s₀.top[i % s₀.top.length]? := by
  have hboot : (threadStart (threadInit (fun _ => 0) 0) 0 >>= fun s =>
      exec (Sched.step ⟨false, false, false⟩) s
        [.initThread 31 0, .startThread 2, .createCheck]).test
        (fun s => s.top == [2, 0] && s.idleThread == none &&
          (exec (Sched.step ⟨false, false, false⟩) s (replicate 5 .threadYield)).test
            fun _ => true) = true := by decide +kernel
  obtain ⟨s₀, hs₀, htest⟩ := Outcome.of_test hboot
  obtain ⟨s₁, h₁, hrun⟩ := bind_eq_ok.mp hs₀
  simp only [Bool.and_eq_true, beq_iff_eq] at htest
  obtain ⟨⟨htop, hidle⟩, hyields⟩ := htest
  obtain ⟨s, hs, -⟩ := Outcome.of_test hyields
  have hreach : SchedReachable ⟨false, false, false⟩ (fun _ _ => True) s₀ :=
    ⟨fun _ => 0, 0, 0, s₁, h₁, _, Run.of_exec hrun⟩
  have hnil : Sched.Turns ⟨false, false, false⟩ s₀ [] s₀ := .nil
  obtain ⟨ts, hlength, hturns⟩ := hnil.exec_yields (n := 5) hs
  exact ⟨s₀, ts, s, hreach, htop, hlength, hturns,
    (round_robin hreach rfl hturns ⟨s₀.current, .inl ⟨rfl, by rw [hidle]; simp⟩⟩).2.2.1⟩

end Pintos
