import Pintos.ProcessProtocol

/-!
# Threads in `sema_down`, and How They Get Out

A thread that is blocked in one of the protocol's `sema_down`s stays where it is until
somebody ups its semaphore. From every reachable state in which no `thread_create` has
failed, a thread that waits for a child to load or to exit can still be woken, and a
running thread can still get back to its user program: the recursion follows the children
waited for, whose `tid`s grow.

## Main results

* `Later.upped_or_blocked`: a blocked thread stays blocked until its semaphore is upped.
* `Inv.collect`: a parent that waits for an exited child wakes it.
* `Inv.backToUser`: a running thread can get back to its user program.
-/

namespace Pintos

open Verif Verif.Outcome

/-- The value of the semaphore a thread is in `sema_down` on. -/
def Procs.semaValue (s : Procs) (x : Proc) : Option ℕ :=
  match x.pc with
  | .execWait _ => some x.createSema
  | .waitDown c => (s.procs c).map Proc.parentSema
  | .exitDown => some x.parentSema2
  | _ => none

/-- The thread that has to up the semaphore a thread is in `sema_down` on. -/
def Proc.upper (x : Proc) : Option Pid :=
  match x.pc with
  | .execWait c => c
  | .waitDown c => some c
  | .exitDown => some x.parent
  | _ => none

namespace Procs

variable {c p : Pid} {s s' : Procs}

/-- The states some continuation leads to. -/
def Later (s s' : Procs) : Prop :=
  Reachable Procs.step (fun _ _ => True) s s'

theorem Later.refl (s : Procs) : Later s s :=
  ⟨[], .nil⟩

theorem Later.trans {s'' : Procs} (h : Later s s') (h' : Later s' s'') : Later s s'' := by
  obtain ⟨as, hrun⟩ := h
  obtain ⟨bs, hrun'⟩ := h'
  exact ⟨as ++ bs, hrun.trans hrun'⟩

/-- A step can be taken first. -/
theorem Step.later {a : ProcAction} (hstep : Step s a s') (h : Inv s) : Later s s' :=
  ⟨[a], .snoc .nil trivial (hstep.step_eq h)⟩

theorem Later.inv (h : Later s s') (hinv : Inv s) : Inv s' :=
  h.invariant hinv fun _ a _ hi _ hstep => ((step_spec hi a).of_eq_ok hstep).inv hi

/-! ### Blocked threads -/

/-- A blocked thread takes no step. -/
theorem Step.actor_ne {a : ProcAction} {t : Pid} {x : Proc} (hstep : Step s a s')
    (hx : s.procs t = some x) (hv : s.semaValue x = some 0) : t ≠ a.actor := by
  rintro rfl
  cases hstep with
  | exec hx' hpc | execFail hx' hpc | createFail hx' hpc | load _ hx' hpc | wait _ hx' hpc
  | exit _ hx' hpc | execRet hx' hpc | waitMiss hx' hpc | waitFound hx' hpc
  | waitRemove hx' hpc | waitRead hx' hpc | exitUp hx' hpc | exitDead hx' hpc
  | create hx' hpc | startReport hx' hpc | startFail hx' hpc | startUser hx' hpc
  | waitUp hx' hpc | free hx' hpc =>
    obtain rfl := Option.mem_unique hx' hx
    simp [semaValue, hpc] at hv
  | execDown hx' hpc hsema | exitDown hx' hpc hsema =>
    obtain rfl := Option.mem_unique hx' hx
    simp only [semaValue, hpc, Option.some.injEq] at hv
    omega
  | waitDown hx' hpc hy _ hsema =>
    obtain rfl := Option.mem_unique hx' hx
    simp only [semaValue, hpc, hy, Option.map_some, Option.some.injEq] at hv
    omega

/-- The semaphore a thread is in `sema_down` on exists. -/
theorem Inv.exists_semaValue {t : Pid} {x x' : Proc} (h : Inv s) (hx : s.procs t = some x)
    (hpc : x.pc = x'.pc) {s₀ : Procs} {v : ℕ} (hv : s₀.semaValue x' = some v) :
    ∃ v', s.semaValue x = some v' := by
  unfold semaValue at hv ⊢
  rw [← hpc] at hv
  split at hv
  · exact ⟨_, rfl⟩
  · rename_i c hc
    obtain ⟨y, hy, -⟩ := h.callee hx (c := c) (by rw [hc, (role_self c).2.1]; decide)
    exact ⟨y.parentSema, by rw [hy, Option.map_some]⟩
  · exact ⟨_, rfl⟩
  · cases hv

/-- The thread `t` is at `pc` and its semaphore has been upped. -/
def Upped (s : Procs) (t : Pid) (pc : ProcPc) : Prop :=
  ∃ x v, s.procs t = some x ∧ x.pc = pc ∧ s.semaValue x = some (v + 1)

/-- **A blocked thread stays blocked until its semaphore is upped.** -/
theorem Later.upped_or_blocked {t : Pid} {x : Proc} (hlater : Later s s') (h : Inv s)
    (hx : s.procs t = some x) (hv : s.semaValue x = some 0) :
    (∃ s'', Later s s'' ∧ Upped s'' t x.pc) ∨
      ∃ x', s'.procs t = some x' ∧ SameProc x x' ∧ s'.semaValue x' = some 0 := by
  obtain ⟨as, hrun⟩ := hlater
  induction hrun with
  | nil => exact .inr ⟨x, hx, .refl x, hv⟩
  | @snoc as s₁ s₂ a hrun _ hstep ih =>
    rcases ih with hup | ⟨x₁, hx₁, hsame, hv₁⟩
    · exact .inl hup
    · have hinv₁ : Inv s₁ := Later.inv ⟨as, hrun⟩ h
      have hs := (step_spec hinv₁ a).of_eq_ok hstep
      obtain ⟨x₂, hx₂, hsame₂⟩ := hs.other hinv₁ hx₁ (hs.actor_ne hx₁ hv₁)
      obtain ⟨v, hv₂⟩ := (hs.inv hinv₁).exists_semaValue hx₂ hsame₂.1 hv₁
      cases v with
      | zero =>
        exact .inr ⟨x₂, hx₂, ⟨hsame₂.1.trans hsame.1, hsame₂.2.1.trans hsame.2.1,
          hsame₂.2.2.1.trans hsame.2.2.1, hsame₂.2.2.2.trans hsame.2.2.2⟩, hv₂⟩
      | succ v =>
        exact .inl ⟨s₂, ⟨_, hrun.snoc trivial hstep⟩, x₂, v, hx₂, hsame₂.1.trans hsame.1, hv₂⟩

/-! ### A parent that waits for an exited child -/

/-- The parent goes on and ups `parent_sema2`. -/
theorem Inv.collect_up {n : ℤ} (h : Inv s) (hp : At s p (.waitUp c n)) :
    ∃ s', Later s s' ∧ At s' p .user ∧ Upped s' c .exitDown ∧
      ∃ n, .waited p c (some n) ∈ s'.log := by
  obtain ⟨x, hx, hpc⟩ := hp
  obtain ⟨y, hy, hparent⟩ := h.callee hx (c := c) (by simp [hpc, role_self])
  obtain ⟨hphase, -⟩ := h.collected_of_waitUp hx hpc hy hparent
  obtain ⟨hypc, -, -⟩ := phase_eq_collected hphase
  have hne := h.ne_of_waitUp hx hpc hy hparent
  have hstep := Step.waitUp hx hpc hy hparent
  refine ⟨_, hstep.later h, ⟨_, procs_modify_self ((procs_modify_of_ne hne.symm).trans hx), rfl⟩,
    ⟨{ y with parentSema2 := y.parentSema2 + 1 }, y.parentSema2, ?_, hypc, ?_⟩, n,
    List.mem_cons_self⟩
  · exact (procs_modify_of_ne hne).trans (procs_modify_self hy)
  · simp [semaValue, hypc]

/-- The parent reads the exit number. -/
theorem Inv.collect_read (h : Inv s) (hp : At s p (.waitRead c)) :
    ∃ s', Later s s' ∧ At s' p .user ∧ Upped s' c .exitDown ∧
      ∃ n, .waited p c (some n) ∈ s'.log := by
  obtain ⟨x, hx, hpc⟩ := hp
  obtain ⟨y, hy, -⟩ := h.callee hx (c := c) (by simp [hpc, role_self])
  have hstep := Step.waitRead hx hpc hy
  obtain ⟨s', hlater, hend⟩ :=
    (hstep.inv h).collect_up (c := c) (n := y.exitNumber) ⟨_, procs_modify_self hx, rfl⟩
  exact ⟨s', (hstep.later h).trans hlater, hend⟩

/-- The parent removes the child from its list. -/
theorem Inv.collect_remove (h : Inv s) (hp : At s p (.waitRemove c)) :
    ∃ s', Later s s' ∧ At s' p .user ∧ Upped s' c .exitDown ∧
      ∃ n, .waited p c (some n) ∈ s'.log := by
  obtain ⟨x, hx, hpc⟩ := hp
  have hstep := Step.waitRemove hx hpc
  obtain ⟨s', hlater, hend⟩ := (hstep.inv h).collect_read (c := c) ⟨_, procs_modify_self hx, rfl⟩
  exact ⟨s', (hstep.later h).trans hlater, hend⟩

/-- The parent gets through its `sema_down`. -/
theorem Inv.collect_down (h : Inv s) (hp : Upped s p (.waitDown c)) :
    ∃ s', Later s s' ∧ At s' p .user ∧ Upped s' c .exitDown ∧
      ∃ n, .waited p c (some n) ∈ s'.log := by
  obtain ⟨x, v, hx, hpc, hv⟩ := hp
  obtain ⟨y, hy, hparent⟩ := h.callee hx (c := c) (by simp [hpc, role_self])
  have hsema : 0 < y.parentSema := by
    simp only [semaValue, hpc, hy, Option.map_some, Option.some.injEq] at hv
    omega
  have hne := h.ne_of_waitDown hx hpc hy hsema
  have hstep := Step.waitDown hx hpc hy hparent hsema
  obtain ⟨s', hlater, hend⟩ := (hstep.inv h).collect_remove (c := c)
    ⟨_, procs_modify_self ((procs_modify_of_ne hne.symm).trans hx), rfl⟩
  exact ⟨s', (hstep.later h).trans hlater, hend⟩

/-! ### A parent that waits for a child to load -/

theorem phase_eq_starting {y : Proc} (h : y.phase = .starting) :
    y.pc = .startLoad ∨ (∃ b, y.pc = .startReport b) ∨ ∃ b, y.pc = .startUp b := by
  unfold Proc.phase at h
  split at h <;> (try split at h) <;> (try split at h) <;> simp_all

/-- The child ups the parent's `create_sema`. -/
theorem Inv.load_up {b : Bool} (h : Inv s) (hp : At s p (.execWait (some c)))
    (hc : At s c (.startUp b)) : ∃ s', Later s s' ∧ Upped s' p (.execWait (some c)) := by
  obtain ⟨x, hx, hpc⟩ := hp
  obtain ⟨y, hy, hypc⟩ := hc
  obtain ⟨y', hy', hparent⟩ := h.callee hx (c := c) (by simp [hpc, role_self])
  obtain rfl := Option.mem_unique hy hy'
  subst hparent
  obtain ⟨x', -, -, -, -, hne⟩ := h.parent_of_starting hy (by rw [Proc.phase, hypc])
  have hup : ∀ k : Proc → Proc, Upped ((s.modify y.parent fun x =>
      { x with createSema := x.createSema + 1 }).modify c k) y.parent (.execWait (some c)) := by
    intro k
    refine ⟨{ x with createSema := x.createSema + 1 }, x.createSema, ?_, hpc, ?_⟩
    · exact (procs_modify_of_ne hne.symm).trans (procs_modify_self hx)
    · simp [semaValue, hpc]
  cases b with
  | false => exact ⟨_, (Step.startFail hy hypc hx).later h, hup _⟩
  | true => exact ⟨_, (Step.startUser hy hypc hx).later h, hup _⟩

/-- The child reports its load. -/
theorem Inv.load_report {b : Bool} (h : Inv s) (hp : At s p (.execWait (some c)))
    (hc : At s c (.startReport b)) : ∃ s', Later s s' ∧ Upped s' p (.execWait (some c)) := by
  obtain ⟨x, hx, hpc⟩ := hp
  obtain ⟨y, hy, hypc⟩ := hc
  obtain ⟨x', hx', -, -, -, hne⟩ := h.parent_of_starting hy (by rw [Proc.phase, hypc])
  have hstep := Step.startReport hy hypc hx'
  have hpne : p ≠ c := ne_of_pc hx hy (by simp [hpc, hypc])
  obtain ⟨x₁, hx₁, hsame, -⟩ := hstep.other h hx hpne
  obtain ⟨s', hlater, hup⟩ := (hstep.inv h).load_up (c := c) (b := b) ⟨x₁, hx₁, hsame.trans hpc⟩
    ⟨_, procs_modify_self ((procs_modify_of_ne hne).trans hy), rfl⟩
  exact ⟨s', (hstep.later h).trans hlater, hup⟩

/-- A child that is being loaded can still up its parent's `create_sema`. -/
theorem Inv.load_wakes (h : Inv s) (hp : At s p (.execWait (some c))) :
    ∃ s', Later s s' ∧ Upped s' p (.execWait (some c)) := by
  obtain ⟨x, hx, hpc⟩ := hp
  rcases h.create p x hx with hzero | ⟨hone, -⟩
  · obtain ⟨y, hy, hparent⟩ := h.callee hx (c := c) (by simp [hpc, role_self])
    have hj := h.joint c y x hy (hparent ▸ hx)
    have hphase : y.phase = .starting := by
      unfold JointOk at hj
      rw [hpc, (role_self c).1] at hj
      cases hph : y.phase <;> simp_all
    rcases phase_eq_starting hphase with hypc | ⟨b, hypc⟩ | ⟨b, hypc⟩
    · have hstep := Step.load true hy hypc
      have hpne : p ≠ c := ne_of_pc hx hy (by simp [hpc, hypc])
      obtain ⟨x₁, hx₁, hsame, -⟩ := hstep.other h hx hpne
      obtain ⟨s', hlater, hup⟩ := (hstep.inv h).load_report (c := c) (b := true)
        ⟨x₁, hx₁, hsame.trans hpc⟩ ⟨_, procs_modify_self hy, rfl⟩
      exact ⟨s', (hstep.later h).trans hlater, hup⟩
    · exact h.load_report ⟨x, hx, hpc⟩ ⟨y, hy, hypc⟩
    · exact h.load_up ⟨x, hx, hpc⟩ ⟨y, hy, hypc⟩
  · exact ⟨s, .refl s, x, 0, hx, hpc, by simp [semaValue, hpc, hone]⟩

/-- A thread other than the initial one gets from its `sema_down` back to its program. -/
theorem Inv.exec_returns {c : Option Pid} (h : Inv s) (hp : p ≠ mainTid)
    (hup : Upped s p (.execWait c)) : ∃ s', Later s s' ∧ At s' p .user := by
  obtain ⟨x, v, hx, hpc, hv⟩ := hup
  have hsema : 0 < x.createSema := by
    simp only [semaValue, hpc, Option.some.injEq] at hv
    omega
  have hdown := Step.execDown hx hpc hsema
  have hret : Step (s.modify p fun x =>
      { x with createSema := x.createSema - 1, pc := .execRet c }) (.run p) _ :=
    .execRet (procs_modify_self hx) rfl
  refine ⟨_, (hdown.later h).trans (hret.later (hdown.inv h)), _,
    procs_modify_self (procs_modify_self hx), ?_⟩
  rw [if_neg hp]

end Procs

/-! ### The tree of threads -/

/-- The child a call of a thread at `pc` is about, from its creation or its search on. -/
def ProcPc.aimsAt (pc : ProcPc) (c : Pid) : Prop :=
  match pc with
  | .execWait (some d) | .execRet (some d) | .waitDown d | .waitRemove d | .waitRead d
  | .waitUp d _ => d = c
  | .waitScan tid => tid = c
  | _ => False

/-- Children have greater `tid`s than their parents, except for the initial thread; idle and
starting threads have none; the initial thread waits for no thread made at boot. -/
structure Proc.InTree (t : Pid) (x : Proc) : Prop where
  parent_lt : t ≠ mainTid → x.parent < t
  main : t = mainTid → x.parent = mainTid ∧ ∀ c : Pid, x.pc.aimsAt c → 2 < c
  idle : x.pc = .idle → t = 2 ∧ x.parent = mainTid ∧ x.childList = []
  starting : x.phase = .starting → x.childList = []

/-- Every thread has its place in the tree. -/
def Procs.Tree (s : Procs) : Prop :=
  2 < s.nextTid ∧ ∀ t x, s.procs t = some x → x.InTree t

theorem Proc.phase_starting_iff {x x' : Proc} (h : x'.pc = x.pc) :
    x'.phase = .starting ↔ x.phase = .starting := by
  unfold Proc.phase
  rw [h]
  split <;> (try split) <;> (try split) <;> (try split) <;> (try split) <;> simp_all

/-- Steps of others keep a thread's place. -/
theorem Proc.InTree.same {t : Pid} {x x' : Proc} (h : x.InTree t) (hs : Procs.SameProc x x') :
    x'.InTree t := by
  obtain ⟨hpc, hparent, hlist, -⟩ := hs
  refine ⟨?_, ?_, ?_, ?_⟩
  · rw [hparent]
    exact h.parent_lt
  · rw [hparent, hpc]
    exact h.main
  · rw [hparent, hpc, hlist]
    exact h.idle
  · rw [Proc.phase_starting_iff hpc, hlist]
    exact h.starting

/-- A thread keeps its place when it goes on. -/
theorem Proc.InTree.goOn {t : Pid} {x x' : Proc} (h : x.InTree t) (hparent : x'.parent = x.parent)
    (hidle : x'.pc ≠ .idle)
    (hstart : x'.phase = .starting → x.phase = .starting ∧ x'.childList = x.childList)
    (haim : t = mainTid → ∀ c, x'.pc.aimsAt c → x.pc.aimsAt c ∨ 2 < c) : x'.InTree t := by
  refine ⟨?_, fun ht => ⟨?_, fun c hc => ?_⟩, fun hpc => absurd hpc hidle, fun hp => ?_⟩
  · rw [hparent]
    exact h.parent_lt
  · rw [hparent]
    exact (h.main ht).1
  · exact (haim ht c hc).elim ((h.main ht).2 c) id
  · obtain ⟨hp', hlist⟩ := hstart hp
    rw [hlist]
    exact h.starting hp'

namespace Procs

variable {c p : Pid} {x : Proc} {a : ProcAction} {s : Procs}

/-- The initial thread waits for the child it has created. -/
theorem aimsAt_execReturn {d : Pid} {b : Bool} {child : Option Pid}
    (h : (if p = mainTid then ProcPc.waitScan
      (if !b then -1 else child.elim (-1) fun c => c) else .user).aimsAt d) : child = some d := by
  split at h
  · simp only [ProcPc.aimsAt] at h
    split at h
    · omega
    · cases child with
      | none =>
        simp only [Option.elim_none] at h
        omega
      | some c => rw [Int.ofNat_inj.mp h]
  · exact h.elim

/-- What a thread aims at it has aimed at before, or it has just made it. -/
theorem Edge.aimsAt {t : Pid} {pc : ProcPc} (h : Edge s t x a pc) (hc : pc.aimsAt c) :
    x.pc.aimsAt c ∨ c = s.nextTid ∨ t ≠ mainTid := by
  cases h with
  | execFail hpc =>
    split at hc
    · simp only [ProcPc.aimsAt] at hc
      omega
    · exact hc.elim
  | create hpc => exact .inr (.inl (show s.nextTid = c from hc).symm)
  | wait tid hpc ht => exact .inr (.inr ht)
  | execDown c' hpc =>
    cases c' with
    | none => exact hc.elim
    | some d => exact .inl (hpc ▸ hc)
  | execRet c' hpc =>
    obtain rfl := aimsAt_execReturn hc
    exact .inl (hpc ▸ rfl)
  | waitFound d hpc => exact .inl (hpc ▸ congrArg Nat.cast hc)
  | waitDown d hpc | waitRemove d hpc | waitRead d n hpc => exact .inl (hpc ▸ hc)
  | _ => exact hc.elim

theorem Edge.ne_idle {t : Pid} {pc : ProcPc} (h : Edge s t x a pc) : pc ≠ .idle := by
  cases h <;> first | (split <;> simp) | simp

theorem Edge.starting {t : Pid} {y : Proc} (h : Edge s t x a y.pc) (hy : y.phase = .starting) :
    x.phase = .starting := by
  have hcases := phase_eq_starting hy
  generalize y.pc = pc at h hcases
  cases h with
  | load b hpc | startReport b hpc => rw [Proc.phase, hpc]
  | execFail hpc | execRet c hpc => split at hcases <;> simp at hcases
  | _ => simp at hcases

/-- **Every step keeps the tree of threads.** -/
theorem Step.tree {s' : Procs} (h : Inv s) (htree : Tree s) (hstep : Step s a s') : Tree s' := by
  obtain ⟨hnext, hin⟩ := htree
  refine ⟨?_, fun t y hy => ?_⟩
  · exact Nat.lt_of_lt_of_le hnext hstep.nextTid_le
  rcases hstep.origin h hy with ⟨rfl, x, hx⟩ | ⟨-, x, hx, hsame⟩ | ⟨rfl, rfl, x, hx, hpc⟩
  · obtain ⟨hedge, hparent, hlist⟩ := hstep.goesOn h hx hy
    refine (hin _ x hx).goOn hparent hedge.ne_idle (fun hp => ⟨hedge.starting hp, hlist hp⟩) ?_
    intro ht c hc
    rcases hedge.aimsAt hc with hc | rfl | hne
    · exact .inl hc
    · exact .inr hnext
    · exact absurd ht hne
  · exact (hin t x hx).same hsame
  · refine ⟨fun _ => (h.fresh _ x hx).1, fun ht => ?_, by simp [Proc.ofParent], fun _ => rfl⟩
    rw [ht] at hnext
    exact absurd hnext (by decide)

/-! ### Back to the user program -/

/-- A child in `process_exit` wakes the parent that waits for it. -/
theorem Inv.exit_wakes (h : Inv s) (hp : At s p (.waitDown c)) (hc : At s c .exitUp) :
    ∃ s', Later s s' ∧ Upped s' p (.waitDown c) := by
  obtain ⟨x, hx, hpc⟩ := hp
  obtain ⟨y, hy, hypc⟩ := hc
  have hstep := Step.exitUp hy hypc
  have hne : p ≠ c := ne_of_pc hx hy (by simp [hpc, hypc])
  have hx' := (procs_modify_of_ne (g := fun x : Proc =>
    { x with parentSema := x.parentSema + 1, pc := .exitDown }) hne).trans hx
  refine ⟨_, hstep.later h, x, y.parentSema, hx', hpc, ?_⟩
  simp [semaValue, hpc, procs_modify_self hy]

/-- So does a child that is back in its program. -/
theorem Inv.user_wakes (h : Inv s) (hp : At s p (.waitDown c)) (hc : At s c .user) :
    ∃ s', Later s s' ∧ Upped s' p (.waitDown c) := by
  obtain ⟨x, hx, hpc⟩ := hp
  obtain ⟨y, hy, hypc⟩ := hc
  have hstep := Step.exit none hy hypc
  have hne : p ≠ c := ne_of_pc hx hy (by simp [hpc, hypc])
  obtain ⟨x', hx', hsame, -⟩ := hstep.other h hx hne
  obtain ⟨s', hlater, hup⟩ := (hstep.inv h).exit_wakes (c := c) ⟨x', hx', hsame.trans hpc⟩
    ⟨_, procs_modify_self hy, rfl⟩
  exact ⟨s', (hstep.later h).trans hlater, hup⟩

/-- A child waited for is running or has exited. -/
theorem Inv.awaited (h : Inv s) (hx : s.procs p = some x) (hpc : x.pc = .waitDown c) :
    ∃ y, s.procs c = some y ∧ y.parent = p ∧
      (y.phase = .running ∧ y.parentSema = 0 ∨ y.phase = .exited ∧ y.parentSema = 1) := by
  obtain ⟨y, hy, hparent⟩ := h.callee hx (c := c) (by simp [hpc, role_self])
  have hj := h.joint c y x hy (hparent ▸ hx)
  unfold JointOk at hj
  rw [hpc, (role_self c).2.1] at hj
  refine ⟨y, hy, hparent, ?_⟩
  cases hph : y.phase with
  | running => exact .inl ⟨rfl, ((Proc.semasOk_of_running hph).mp (h.semas c y hy)).1⟩
  | exited =>
    refine .inr ⟨rfl, ?_⟩
    unfold Proc.phase at hph
    split at hph <;> (try split at hph) <;> (try split at hph) <;> simp_all
  | starting | collected | released => simp [hph] at hj

/-- A thread that waits for a child can be woken if the child can get back to its program. -/
theorem Inv.wait_wakes (h : Inv s) (hx : s.procs p = some x)
    (hpc : x.pc = .waitDown c)
    (hback : ∀ y, s.procs c = some y → y.parent = p → y.phase = .running → y.pc ≠ .exitUp →
      ∃ s', Later s s' ∧ At s' c .user) :
    ∃ s', Later s s' ∧ Upped s' p (.waitDown c) := by
  obtain ⟨y, hy, hparent, ⟨hphase, hsema⟩ | ⟨hphase, hsema⟩⟩ := h.awaited hx hpc
  · by_cases hypc : y.pc = .exitUp
    · exact h.exit_wakes ⟨x, hx, hpc⟩ ⟨y, hy, hypc⟩
    · obtain ⟨s₁, hlater, hc⟩ := hback y hy hparent hphase hypc
      have hv : s.semaValue x = some 0 := by simp [semaValue, hpc, hy, hsema]
      rcases hlater.upped_or_blocked h hx hv with hup | ⟨x₁, hx₁, hsame, -⟩
      · rw [hpc] at hup
        exact hup
      · obtain ⟨s₂, hlater₂, hup⟩ :=
          (hlater.inv h).user_wakes ⟨x₁, hx₁, hsame.1.trans hpc⟩ hc
        exact ⟨s₂, hlater.trans hlater₂, hup⟩
  · exact ⟨s, .refl s, x, 0, hx, hpc, by simp [semaValue, hpc, hy, hsema]⟩

/-- **A running thread can get back to its user program**: the children it waits for can,
and they have greater `tid`s. -/
theorem Inv.backToUser {n : ℕ} (h : Inv s) (htree : Tree s) (hnone : NoneChildless s)
    (hx : s.procs p = some x) (hn : s.nextTid ≤ p + n) (hp : p ≠ mainTid)
    (hphase : x.phase = .running) (hexit : x.pc ≠ .exitUp) (hidle : x.pc ≠ .idle) :
    ∃ s', Later s s' ∧ At s' p .user := by
  induction n generalizing s p x with
  | zero => exact absurd (h.fresh p x hx).1 (Nat.not_lt.mpr hn)
  | succ n ih =>
    have hchild : ∀ {s : Procs} {x : Proc} {c : Pid}, Inv s → Tree s → NoneChildless s →
        s.procs p = some x → s.nextTid ≤ p + (n + 1) → x.pc = .waitDown c →
        ∃ s', Later s s' ∧ At s' p .user := by
      intro s x c h htree hnone hx hn hpc
      obtain ⟨s₁, hlater, hup⟩ := h.wait_wakes hx hpc fun y hy hparent hph hne => by
        have htc := htree.2 c y hy
        have hc : c ≠ mainTid := fun hc => hp (hparent ▸ (htc.main hc).1)
        have hbound : s.nextTid ≤ c + n := calc
          s.nextTid ≤ p + 1 + n := by rw [Nat.add_right_comm]; exact hn
          _ ≤ c + n := Nat.add_le_add_right (hparent ▸ htc.parent_lt hc) n
        refine ih h htree hnone hy hbound hc hph hne fun hi => ?_
        exact hp (hparent ▸ (htc.idle hi).2.1)
      obtain ⟨s₂, hlater₂, huser, -⟩ := (hlater.inv h).collect_down hup
      exact ⟨s₂, hlater.trans hlater₂, huser⟩
    cases hpc : x.pc with
    | user => exact ⟨s, .refl s, x, hx, hpc⟩
    | execCreate =>
      have hstep := Step.create hx hpc
      have hx' := procs_initThread_parent (l := x.childList) hx
        (Nat.ne_of_lt (h.fresh p x hx).1)
      obtain ⟨s₁, hl₁, hup⟩ := (hstep.inv h).load_wakes (c := s.nextTid) ⟨_, hx', rfl⟩
      have hl := (hstep.later h).trans hl₁
      obtain ⟨s₂, hl₂, huser⟩ := (hl.inv h).exec_returns hp hup
      exact ⟨s₂, hl.trans hl₂, huser⟩
    | execWait c =>
      cases c with
      | none => exact absurd (hnone p x hx) (by rw [hpc]; decide)
      | some c =>
        obtain ⟨s₁, hl₁, hup⟩ := h.load_wakes ⟨x, hx, hpc⟩
        obtain ⟨s₂, hl₂, huser⟩ := (hl₁.inv h).exec_returns hp hup
        exact ⟨s₂, hl₁.trans hl₂, huser⟩
    | execRet c =>
      refine ⟨_, (Step.execRet hx hpc).later h, _, procs_modify_self hx, ?_⟩
      rw [if_neg hp]
    | waitScan tid =>
      by_cases hfound : ∃ c ∈ x.childList, (c : ℤ) = tid
      · obtain ⟨c, hc, rfl⟩ := hfound
        have hstep := Step.waitFound hx hpc hc
        obtain ⟨s', hl, huser⟩ := hchild (hstep.inv h) (hstep.tree h htree)
          (hstep.noneChildless h hnone (by simp)) (procs_modify_self hx) hn rfl
        exact ⟨s', (hstep.later h).trans hl, huser⟩
      · have hmiss : ∀ c ∈ x.childList, (c : ℤ) ≠ tid :=
          fun c hc heq => hfound ⟨c, hc, heq⟩
        exact ⟨_, (Step.waitMiss hx hpc hmiss).later h, _, procs_modify_self hx, rfl⟩
    | waitDown c => exact hchild h htree hnone hx hn hpc
    | waitRemove c =>
      obtain ⟨s', hl, huser, -⟩ := h.collect_remove ⟨x, hx, hpc⟩
      exact ⟨s', hl, huser⟩
    | waitRead c =>
      obtain ⟨s', hl, huser, -⟩ := h.collect_read ⟨x, hx, hpc⟩
      exact ⟨s', hl, huser⟩
    | waitUp c m =>
      obtain ⟨s', hl, huser, -⟩ := h.collect_up ⟨x, hx, hpc⟩
      exact ⟨s', hl, huser⟩
    | exitUp => exact absurd hpc hexit
    | idle => exact absurd hpc hidle
    | startLoad | startReport b | startUp b | exitFree | dead => simp [Proc.phase, hpc] at hphase
    | exitDown =>
      rw [Proc.phase, hpc] at hphase
      dsimp only at hphase
      split at hphase <;> (try split at hphase) <;> cases hphase

end Procs

end Pintos
