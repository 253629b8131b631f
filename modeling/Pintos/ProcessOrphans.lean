import Pintos.ProcessWaiters

/-!
# Orphaned Waiters

A thread blocked in the protocol should have a live thread that can still up its
semaphore. It has none when `thread_create` fails, when a parent is gone or in
`process_exit` when its child exits, and when a child of the initial thread fails to load,
which the initial thread never waits for. In runs without these it always has one.

## Main results

* `noOrphanedWaiter`: the runs in which every blocked thread can still be woken.
* `orphaned_waiter`: a child outlives its parent and stays in `process_exit`.
-/

namespace Pintos

open Verif Verif.Outcome

namespace Procs

variable {c p t : Pid} {x y : Proc} {a : ProcAction} {pc : ProcPc} {s s' : Procs}

/-- A thread that is live and not in `process_exit`. -/
def outside (s : Procs) (t : Pid) : Bool :=
  (s.procs t).any fun x => !x.pc.inExit

/-- A live thread in `process_exit`. -/
def exiting (s : Procs) (t : Pid) : Bool :=
  (s.procs t).any fun x => x.pc.inExit

/-- Every blocked thread has a live thread that has to up its semaphore, and some
continuation in which that happens. -/
def NoOrphanedWaiter (s : Procs) : Prop :=
  ∀ t x, s.procs t = some x → s.semaValue x = some 0 →
    ∃ u y, x.upper = some u ∧ s.procs u = some y ∧ y.pc ≠ .dead ∧
      ∃ s', Later s s' ∧ Upped s' t x.pc

/-- Steps that leave no orphan: `thread_create` succeeds, so does the load of a child of the
initial thread, and a thread exits before its parent and after the children that have
exited were waited for. -/
def KeepsWaiters (s : Procs) : ProcAction → Prop
  | .create _ page => page = true
  | .load p success => success = true ∨ ∀ x ∈ s.procs p, x.parent ≠ mainTid
  | .exit p _ => ∀ x ∈ s.procs p, x.parent ≠ p ∧ s.outside x.parent = true ∧
      ∀ c ∈ x.childList, s.exiting c = false
  | _ => True

instance (s : Procs) (a : ProcAction) : Decidable (s.KeepsWaiters a) :=
  match a with
  | .create _ page => inferInstanceAs (Decidable (page = true))
  | .load p success =>
    inferInstanceAs (Decidable (success = true ∨ ∀ x ∈ s.procs p, x.parent ≠ mainTid))
  | .exit p _ =>
    inferInstanceAs (Decidable (∀ x ∈ s.procs p, x.parent ≠ p ∧ s.outside x.parent = true ∧
      ∀ c ∈ x.childList, s.exiting c = false))
  | .exec .. | .wait .. | .run .. => inferInstanceAs (Decidable True)

theorem outside_iff : s.outside t = true ↔ ∃ x, s.procs t = some x ∧ x.pc.inExit = false := by
  unfold outside
  cases s.procs t <;> simp

/-! ### The invariant of these runs -/

/-- What holds in runs without orphans. -/
structure Kept (s : Procs) : Prop where
  childless : NoneChildless s
  exiting : ∀ t x, s.procs t = some x → x.pc.inExit = true → x.phase ≠ .released →
    t ≠ mainTid ∧ s.outside x.parent = true
  aimed : ∀ c y, s.procs c = some y → y.parent = mainTid → c ≠ mainTid → y.pc ≠ .idle →
    y.phase ≠ .released → ∃ x, s.procs mainTid = some x ∧ x.pc.aimsAt c
  loads : ∀ c, .created mainTid c ∈ s.log → .loaded c false ∉ s.log

theorem phase_eq_released (h : x.phase = .released) :
    x.pc = .exitDown ∧ x.parentSema ≠ 1 ∧ x.parentSema2 ≠ 0 ∨ x.pc = .exitFree ∨ x.pc = .dead := by
  unfold Proc.phase at h
  split at h <;> (try split at h) <;> (try split at h) <;> simp_all

theorem phase_of_released_pc (h : x.pc = .exitFree ∨ x.pc = .dead) : x.phase = .released := by
  rcases h with h | h <;> rw [Proc.phase, h]

/-- The only step a state allows for an action. -/
theorem Step.unique {s₁ s₂ : Procs} (h : Inv s) (h₁ : Step s a s₁) (h₂ : Step s a s₂) : s₁ = s₂ :=
  Outcome.ok.inj ((h₁.step_eq h).symm.trans (h₂.step_eq h))

theorem Edge.released (h : Edge s t x a y.pc) (hph : x.phase = .released) :
    y.phase = .released := by
  have hpc := phase_eq_released hph
  generalize hpc' : y.pc = pc at h
  cases h with
  | exitDown _ => exact phase_of_released_pc (.inl hpc')
  | exitDead _ => exact phase_of_released_pc (.inr hpc')
  | _ => simp_all

/-- A released thread is only freed. -/
theorem Step.released (h : Inv s) (hstep : Step s a s') (hx : s.procs t = some x)
    (hph : x.phase = .released) (hy : s'.procs t = some y) : y.phase = .released := by
  by_cases ht : t = a.actor
  · obtain ⟨hedge, -⟩ := hstep.goesOn h (ht ▸ hx) (ht ▸ hy)
    exact hedge.released hph
  have hpc := phase_eq_released hph
  -- nobody stores into its semaphores
  have hkeep : ∀ {q r g k}, ((s.modify q g).modify r k).procs t = some y → t ≠ r → t ≠ q →
      y.phase = .released := by
    intro q r g k hy hr hq
    rw [procs_modify_of_ne hr, procs_modify_of_ne hq, hx] at hy
    cases hy
    exact hph
  cases hstep with
  | create _ _ =>
    have hne : t ≠ s.nextTid := Nat.ne_of_lt (h.fresh t x hx).1
    obtain rfl := Option.mem_unique hx ((procs_initThread_of_ne ht hne).symm.trans hy)
    exact hph
  | @startReport c z b w hz hzpc _ | @startFail c z w hz hzpc _ | @startUser c z w hz hzpc _ =>
    refine hkeep hy ht ?_
    rintro rfl
    obtain ⟨x', hx', hpc', -⟩ := h.parent_of_starting hz (by rw [Proc.phase, hzpc])
    obtain rfl := Option.mem_unique hx hx'
    simp [hpc'] at hpc
  | @waitDown p w c z hw hwpc hz hparent hsema =>
    refine hkeep hy ht ?_
    rintro rfl
    obtain rfl := Option.mem_unique hx hz
    obtain ⟨hpc', hps, -⟩ := exited_of_parentSema (h.semas t x hx) hsema
    simp [hpc', hps] at hpc
  | @waitUp p w c n z hw hwpc hz hparent =>
    refine hkeep hy ht ?_
    rintro rfl
    obtain rfl := Option.mem_unique hx hz
    obtain ⟨hcol, -⟩ := h.collected_of_waitUp hw hwpc hz hparent
    rw [hph] at hcol
    cases hcol
  | free _ _ _ =>
    obtain rfl := Option.mem_unique hx ((Function.update_of_ne ht ..).symm.trans hy)
    exact hph
  | _ =>
    obtain rfl := Option.mem_unique hx ((procs_modify_of_ne ht).symm.trans hy)
    exact hph

/-- A thread that takes a step and is not freed is still there. -/
theorem Step.actor_live (h : Inv s) (hstep : Step s a s') (ht : t = a.actor)
    (hx : s.procs t = some x) (hpc : x.pc.inExit = false) :
    ∃ y, s'.procs t = some y ∧ GoesOn s a t x y := by
  have hlive : ∃ y, s'.procs t = some y := by
    subst ht
    cases hstep with
    | create _ _ =>
      exact ⟨_, procs_initThread_parent hx (Nat.ne_of_lt (h.fresh _ x hx).1)⟩
    | startReport | startFail | startUser | waitDown | waitUp =>
      exact exists_procs_modify (exists_procs_modify ⟨x, hx⟩)
    | free hx' hpc' _ =>
      obtain rfl := Option.mem_unique hx hx'
      rw [hpc'] at hpc
      cases hpc
    | _ =>
      exact ⟨_, procs_modify_self hx⟩
  obtain ⟨y, hy⟩ := hlive
  exact ⟨y, hy, ht ▸ hstep.goesOn h (ht ▸ hx) (ht ▸ hy)⟩

/-- How a thread gets into `process_exit`. -/
theorem Edge.inExit (h : Edge s t x a pc) (hpc : pc.inExit = true) :
    x.pc.inExit = true ∨ (∃ n, a = .exit t n ∧ x.pc = .user) ∨ x.pc = .startUp false := by
  cases h with
  | exit n hx => exact .inr (.inl ⟨n, rfl, hx⟩)
  | startFail hx => exact .inr (.inr hx)
  | exitUp hx | exitDown hx | exitDead hx => exact .inl (hx ▸ rfl)
  | execFail _ | execRet _ _ => split at hpc <;> cases hpc
  | _ => cases hpc

/-! ### Every step keeps it -/

theorem Step.outside_other (h : Inv s) (hstep : Step s a s') (ht : t ≠ a.actor)
    (hout : s.outside t = true) : s'.outside t = true := by
  obtain ⟨x, hx, hpc⟩ := outside_iff.mp hout
  obtain ⟨x', hx', hsame, -⟩ := hstep.other h hx ht
  exact outside_iff.mpr ⟨x', hx', hsame ▸ hpc⟩

/-- The unreleased children of a parent with no call in progress are in its list. -/
theorem Inv.mem_childList (h : Inv s) (hx : s.procs p = some x) (hy : s.procs c = some y)
    (hparent : y.parent = p) (hrole : x.pc.role c = .none) (hph : y.phase ≠ .released) :
    c ∈ x.childList := by
  have hj := h.joint c y x hy (hparent ▸ hx)
  unfold JointOk at hj
  rw [hrole] at hj
  cases hp : y.phase with
  | running | exited => rw [hp] at hj; exact hj.1
  | starting | collected => simp [hp] at hj
  | released => exact absurd hp hph

/-- A parent leaves no child behind in `process_exit`. -/
theorem Step.parent_outside (h : Inv s) (htree : Tree s) (hC : s.KeepsWaiters a)
    (hstep : Step s a s') (hx : s.procs t = some x) (hexit : x.pc.inExit = true)
    (hph : x.phase ≠ .released) (hout : s.outside x.parent = true) :
    s'.outside x.parent = true := by
  by_cases hp : x.parent = a.actor
  · obtain ⟨z, hz, hzpc⟩ := outside_iff.mp hout
    obtain ⟨z', hz', hedge, -⟩ := hstep.actor_live h hp hz hzpc
    refine outside_iff.mpr ⟨z', hz', ?_⟩
    by_contra hin
    rcases hedge.inExit (Bool.of_not_eq_false hin) with hin | ⟨n, rfl, hpc⟩ | hpc
    · rw [hzpc] at hin
      cases hin
    · have hmem := h.mem_childList hz hx rfl (by rw [hpc]; rfl) hph
      have hnot := (hC z hz).2.2 t hmem
      rw [exiting, hx] at hnot
      simp [hexit] at hnot
    · have hmem := h.mem_childList hz hx rfl (by rw [hpc]; rfl) hph
      rw [(htree.2 _ z hz).starting (by rw [Proc.phase, hpc])] at hmem
      cases hmem
  · exact hstep.outside_other h hp hout

theorem Step.keeps_exiting (h : Inv s) (htree : Tree s) (hk : Kept s) (hC : s.KeepsWaiters a)
    (hstep : Step s a s') :
    ∀ t y, s'.procs t = some y → y.pc.inExit = true → y.phase ≠ .released →
      t ≠ mainTid ∧ s'.outside y.parent = true := by
  intro t y hy hexit hph
  -- a thread that was in `process_exit` before
  have hold : ∀ x, s.procs t = some x → x.pc.inExit = true → y.parent = x.parent →
      t ≠ mainTid ∧ s'.outside y.parent = true := by
    intro x hx hin hparent
    have hph' : x.phase ≠ .released := fun hrel => hph (hstep.released h hx hrel hy)
    obtain ⟨hmain, hout⟩ := hk.exiting t x hx hin hph'
    rw [hparent]
    exact ⟨hmain, hstep.parent_outside h htree hC hx hin hph' hout⟩
  rcases hstep.origin h hy with ⟨ht, x, hx⟩ | ⟨-, x, hx, hsame⟩ | ⟨-, rfl, -⟩
  · obtain ⟨hedge, hparent, -⟩ : GoesOn s a t x y := ht ▸ hstep.goesOn h (ht ▸ hx) (ht ▸ hy)
    have hxt := htree.2 t x hx
    -- its parent is another thread, which stays where it is
    have hnew : x.parent ≠ t → s.outside x.parent = true →
        t ≠ mainTid ∧ s'.outside y.parent = true := by
      intro hne hout
      refine ⟨fun hmain => hne ((hxt.main hmain).1.trans hmain.symm), ?_⟩
      rw [hparent]
      exact hstep.outside_other h (ht ▸ hne) hout
    rcases hedge.inExit hexit with hin | ⟨n, rfl, -⟩ | hpc
    · exact hold x hx hin hparent
    · exact hnew (hC x hx).1 (hC x hx).2.1
    · obtain ⟨z, hz, hzpc, -, -, hne⟩ := h.parent_of_starting hx (by rw [Proc.phase, hpc])
      exact hnew hne.symm (outside_iff.mpr ⟨z, hz, hzpc ▸ rfl⟩)
  · exact hold x hx (hsame.1 ▸ hexit) hsame.2.1
  · cases hexit

/-- The initial thread goes on towards the child its call is about. -/
theorem Edge.aimed (h : Inv s) (hh : History s) (hk : Kept s) (hC : s.KeepsWaiters a)
    (hx : s.procs mainTid = some x) (hy : s.procs c = some y) (hparent : y.parent = mainTid)
    (hph : y.phase ≠ .released) (haim : x.pc.aimsAt c) (hedge : Edge s mainTid x a pc) :
    pc.aimsAt c ∨ a = .run mainTid ∧ ∃ n, x.pc = .waitUp c n := by
  cases hedge with
  | execDown d hpc =>
    rw [hpc] at haim
    cases d with
    | none => exact haim.elim
    | some d => exact .inl haim
  | execRet d hpc =>
    rw [hpc] at haim
    cases d with
    | none => exact haim.elim
    | some d =>
      obtain rfl : d = c := haim
      obtain ⟨hcreated, hloaded⟩ := (hh.linked _ x hx).answered d (.inl hpc)
      have hsuccess : x.createSuccess = true := by
        by_contra hfalse
        rw [Bool.of_not_eq_true hfalse] at hloaded
        exact hk.loads d hcreated hloaded
      rw [if_pos rfl, hsuccess]
      exact .inl rfl
  | waitMiss tid hpc hmiss =>
    rw [hpc] at haim
    have hmem := h.mem_childList hx hy hparent (by rw [hpc]; rfl) hph
    exact absurd haim.symm (hmiss c hmem)
  | waitFound d hpc =>
    rw [hpc] at haim
    exact .inl (Int.ofNat_inj.mp haim)
  | waitDown d hpc | waitRemove d hpc | waitRead d n hpc =>
    rw [hpc] at haim
    exact .inl haim
  | waitUp d n hpc =>
    rw [hpc] at haim
    obtain rfl : d = c := haim
    exact .inr ⟨rfl, n, hpc⟩
  | createFail hpc => cases hC
  | exec hpc | execFail hpc | create hpc | load _ hpc | wait _ hpc _ | exit _ hpc
  | startReport _ hpc | startFail hpc | startUser hpc | exitUp hpc | exitDown hpc
  | exitDead hpc =>
    rw [hpc] at haim
    exact haim.elim

/-- It is about the child it has just made. -/
theorem Edge.aimed_new (hC : s.KeepsWaiters a) (hpc : x.pc = .execCreate) (hedge : Edge s t x a pc)
    :
    pc.aimsAt s.nextTid := by
  cases hedge with
  | create _ => rfl
  | createFail _ => cases hC
  | _ => simp_all

theorem Edge.idle_ne (h : Edge s t x a pc) : x.pc ≠ .idle := by
  cases h <;> simp [*]

/-- `process_wait` releases the child. -/
theorem Step.waitUp_released {n : ℤ} {y' : Proc} (h : Inv s) (hstep : Step s (.run p) s')
    (hx : s.procs p = some x) (hpc : x.pc = .waitUp c n) (hy : s.procs c = some y)
    (hparent : y.parent = p) (hy' : s'.procs c = some y') : y'.phase = .released := by
  obtain rfl := hstep.unique h (.waitUp hx hpc hy hparent)
  obtain ⟨hcol, -⟩ := h.collected_of_waitUp hx hpc hy hparent
  obtain ⟨hypc, hps, -⟩ := phase_eq_collected hcol
  have hne := h.ne_of_waitUp hx hpc hy hparent
  obtain rfl := eq_of_procs_modify hy ((procs_modify_of_ne hne).symm.trans hy')
  simp [Proc.phase, hypc, hps]

theorem aimsAt_not_inExit (h : pc.aimsAt c) : pc.inExit = false := by
  cases pc <;> first | rfl | exact h.elim

theorem Step.keeps_aimed (h : Inv s) (hh : History s) (hk : Kept s) (hC : s.KeepsWaiters a)
    (hstep : Step s a s') :
    ∀ c y, s'.procs c = some y → y.parent = mainTid → c ≠ mainTid → y.pc ≠ .idle →
      y.phase ≠ .released → ∃ x, s'.procs mainTid = some x ∧ x.pc.aimsAt c := by
  intro c y' hy' hparent' hc hidle' hph'
  have hold : ∀ y, s.procs c = some y → y.parent = mainTid → y.pc ≠ .idle →
      ∃ x, s'.procs mainTid = some x ∧ x.pc.aimsAt c := by
    intro y hy hparent hidle
    have hph : y.phase ≠ .released := fun hrel => hph' (hstep.released h hy hrel hy')
    obtain ⟨x, hx, haim⟩ := hk.aimed c y hy hparent hc hidle hph
    by_cases hm : mainTid = a.actor
    · obtain ⟨x', hx', hedge, -⟩ := hstep.actor_live h hm hx (aimsAt_not_inExit haim)
      rcases hedge.aimed h hh hk hC hx hy hparent hph haim with haim' | ⟨rfl, n, hpc⟩
      · exact ⟨x', hx', haim'⟩
      · exact absurd (hstep.waitUp_released h hx hpc hy hparent hy') hph'
    · obtain ⟨x', hx', hsame, -⟩ := hstep.other h hx hm
      exact ⟨x', hx', hsame ▸ haim⟩
  rcases hstep.origin h hy' with ⟨ht, y, hy⟩ | ⟨-, y, hy, hsame⟩ | ⟨rfl, rfl, x, hx, hpc⟩
  · obtain ⟨hedge, hpar, -⟩ : GoesOn s a c y y' := ht ▸ hstep.goesOn h (ht ▸ hy) (ht ▸ hy')
    exact hold y hy (hpar ▸ hparent') hedge.idle_ne
  · exact hold y hy (hsame.2.1 ▸ hparent') (hsame.1 ▸ hidle')
  · have hm : mainTid = a.actor := hparent'.symm
    rw [← hm] at hx
    obtain ⟨x', hx', hedge, -⟩ := hstep.actor_live h hm hx (by rw [hpc]; rfl)
    exact ⟨x', hx', hedge.aimed_new hC hpc⟩

theorem Step.keeps_loads (hh : History s) (hk : Kept s) (hC : s.KeepsWaiters a)
    (hstep : Step s a s') : ∀ c, .created mainTid c ∈ s'.log → .loaded c false ∉ s'.log := by
  intro c hc hl
  have hold : ∀ e : Event, (∀ p d, e ≠ .created p d) → (∀ d b, e ≠ .loaded d b) →
      .created mainTid c ∈ e :: s.log → .loaded c false ∉ e :: s.log := by
    intro e h₁ h₂ hc hl
    exact hk.loads c (List.mem_of_ne_of_mem (h₁ _ _).symm hc)
      (List.mem_of_ne_of_mem (h₂ _ _).symm hl)
  cases hstep with
  | create hx hpc =>
    have hl' := List.mem_of_ne_of_mem (by simp) hl
    rcases List.mem_cons.mp hc with heq | hc
    · cases heq
      exact Nat.lt_irrefl _ (hh.known _ hl' _ rfl)
    · exact hk.loads c hc hl'
  | @load p x b hx hpc =>
    have hc' := List.mem_of_ne_of_mem (by simp) hc
    rcases List.mem_cons.mp hl with heq | hl
    · cases heq
      have hborn := (hh.linked _ x hx).born
      rcases hC with hfalse | hparent
      · cases hfalse
      · exact hparent x hx (hh.created_unique hborn hc')
    · exact hk.loads c hc' hl
  | execFail | exit | execRet | startFail | waitMiss | waitUp | free =>
    exact hold _ (by simp) (by simp) hc hl
  | _ => exact hk.loads c hc hl

/-- **Every step that meets the condition keeps the invariant.** -/
theorem Step.kept (h : Inv s) (hh : History s) (htree : Tree s) (hk : Kept s)
    (hC : s.KeepsWaiters a) (hstep : Step s a s') : Kept s' := by
  refine ⟨hstep.noneChildless h hk.childless ?_, hstep.keeps_exiting h htree hk hC,
    hstep.keeps_aimed h hh hk hC, hstep.keeps_loads hh hk hC⟩
  rintro p rfl
  cases hC

/-! ### Blocked threads can be woken -/

/-- A parent that searches for an exited child collects it. -/
theorem Inv.scan_collects (h : Inv s) (hx : s.procs p = some x) (hpc : x.pc = .waitScan t)
    (hmem : t ∈ x.childList) (hy : s.procs t = some y) (hsema : 0 < y.parentSema) :
    ∃ s', Later s s' ∧ Upped s' t .exitDown := by
  have hstep := Step.waitFound hx hpc hmem
  obtain ⟨hpc', -⟩ := exited_of_parentSema (h.semas t y hy) hsema
  have hne : t ≠ p := ne_of_pc hy hx (by simp [hpc, hpc'])
  have hy' := (procs_modify_of_ne (g := fun x : Proc => { x with pc := .waitDown t }) hne).trans hy
  have hup : Upped (s.goto p (.waitDown t)) p (.waitDown t) := by
    obtain ⟨v, hv⟩ := Nat.exists_eq_succ_of_ne_zero (Nat.pos_iff_ne_zero.mp hsema)
    refine ⟨_, v, procs_modify_self hx, rfl, ?_⟩
    rw [semaValue]
    dsimp only
    rw [goto, hy', Option.map_some, hv]
  obtain ⟨s', hlater, -, hup', -⟩ := (hstep.inv h).collect_down hup
  exact ⟨s', (hstep.later h).trans hlater, hup'⟩

/-- The initial thread collects the exited child its call is about. -/
theorem Inv.main_collects (h : Inv s) (hh : History s) (hk : Kept s) (hx : s.procs mainTid = some x)
    (haim : x.pc.aimsAt t) (hmem : t ∈ x.childList) (hne : t ≠ mainTid) (hy : s.procs t = some y)
    (hsema : 0 < y.parentSema) (hcreate : x.pc = .execWait (some t) → x.createSema = 1) :
    ∃ s', Later s s' ∧ Upped s' t .exitDown := by
  -- from `process_execute` it goes on to the search for the child
  have hret : ∀ {s₁ : Procs} {x₁ : Proc}, Inv s₁ → s₁.procs mainTid = some x₁ →
      x₁.pc = .execRet (some t) → x₁.createSuccess = true → x₁.childList = x.childList →
      s₁.procs t = some y → ∃ s', Later s₁ s' ∧ Upped s' t .exitDown := by
    intro s₁ x₁ h₁ hx₁ hpc₁ hsuccess hlist hy₁
    have hstep := Step.execRet hx₁ hpc₁
    obtain ⟨s', hlater, hup⟩ := (hstep.inv h₁).scan_collects (t := t) (procs_modify_self hx₁)
      (by simp [hsuccess]) (hlist ▸ hmem) ((procs_modify_of_ne hne).trans hy₁) hsema
    exact ⟨s', (hstep.later h₁).trans hlater, hup⟩
  have hsuccess : (x.pc = .execRet (some t) ∨ x.pc = .execWait (some t) ∧ x.createSema = 1) →
      x.createSuccess = true := by
    intro hpc
    obtain ⟨hcreated, hloaded⟩ := (hh.linked _ x hx).answered t hpc
    by_contra hfalse
    rw [Bool.of_not_eq_true hfalse] at hloaded
    exact hk.loads t hcreated hloaded
  cases hpc : x.pc with
  | execWait d =>
    rw [hpc] at haim
    cases d with
    | none => exact haim.elim
    | some d =>
      obtain rfl : d = t := haim
      have hone := hcreate hpc
      have hstep := Step.execDown hx hpc (by omega)
      obtain ⟨s', hlater, hup⟩ := hret (hstep.inv h) (procs_modify_self hx) rfl
        (hsuccess (.inr ⟨hpc, hone⟩)) rfl ((procs_modify_of_ne hne).trans hy)
      exact ⟨s', (hstep.later h).trans hlater, hup⟩
  | execRet d =>
    rw [hpc] at haim
    cases d with
    | none => exact haim.elim
    | some d =>
      obtain rfl : d = t := haim
      exact hret h hx hpc (hsuccess (.inl hpc)) rfl hy
  | waitScan tid =>
    rw [hpc] at haim
    obtain rfl : tid = t := haim
    exact h.scan_collects hx hpc hmem hy hsema
  | waitDown d =>
    rw [hpc] at haim
    obtain rfl : d = t := haim
    obtain ⟨v, hv⟩ := Nat.exists_eq_succ_of_ne_zero (Nat.pos_iff_ne_zero.mp hsema)
    obtain ⟨s', hlater, -, hup, -⟩ := h.collect_down
      ⟨x, v, hx, hpc, by simp [semaValue, hpc, hy, hv]⟩
    exact ⟨s', hlater, hup⟩
  | waitRemove d =>
    rw [hpc] at haim
    obtain rfl : d = t := haim
    obtain ⟨s', hlater, -, hup, -⟩ := h.collect_remove ⟨x, hx, hpc⟩
    exact ⟨s', hlater, hup⟩
  | waitRead d =>
    rw [hpc] at haim
    obtain rfl : d = t := haim
    obtain ⟨s', hlater, -, hup, -⟩ := h.collect_read ⟨x, hx, hpc⟩
    exact ⟨s', hlater, hup⟩
  | waitUp d n =>
    rw [hpc] at haim
    obtain rfl : d = t := haim
    obtain ⟨s', hlater, -, hup, -⟩ := h.collect_up ⟨x, hx, hpc⟩
    exact ⟨s', hlater, hup⟩
  | _ =>
    rw [hpc] at haim
    exact haim.elim

/-- The child a call is about is not dead. -/
theorem Inv.callee_alive (h : Inv s) (hx : s.procs p = some x) (hrole : x.pc.role c ≠ .none) :
    ∃ y, s.procs c = some y ∧ y.pc ≠ .dead := by
  obtain ⟨y, hy, hparent⟩ := h.callee hx hrole
  refine ⟨y, hy, fun hdead => hrole ?_⟩
  have hj := h.joint c y x hy (hparent ▸ hx)
  rw [JointOk, show y.phase = .released by rw [Proc.phase, hdead]] at hj
  exact hj.1

theorem phase_eq_running (h : x.pc.inExit = false) (hs : x.phase ≠ .starting) :
    x.phase = .running := by
  cases hpc : x.pc <;> simp_all [Proc.phase, ProcPc.inExit]

theorem phase_of_exitDown (hpc : x.pc = .exitDown) (hsema2 : x.parentSema2 = 0) :
    x.phase = if x.parentSema = 1 then .exited else .collected := by
  simp [Proc.phase, hpc, hsema2]

/-- A thread that has exited is woken once its parent is back in its program. -/
theorem Inv.user_collects {z : Proc} (h : Inv s) (hp : p ≠ mainTid) (hz : s.procs p = some z)
    (hzpc : z.pc = .user) (hx : s.procs t = some x) (hparent : x.parent = p)
    (hpc : x.pc = .exitDown) (hsema2 : x.parentSema2 = 0) :
    ∃ s', Later s s' ∧ Upped s' t .exitDown := by
  have hrole : z.pc.role t = .none := by rw [hzpc]; rfl
  have hphase := phase_of_exitDown hpc hsema2
  have hsema : x.parentSema = 1 := by
    by_contra hne
    have hj := h.joint t x z hx (hparent ▸ hz)
    rw [JointOk, hphase, if_neg hne, hrole] at hj
    simp at hj
  have hmem := h.mem_childList hz hx hparent hrole (by simp [hphase, hsema])
  have hne : t ≠ p := ne_of_pc hx hz (by simp [hpc, hzpc])
  have hstep := Step.wait t hz hzpc hp
  obtain ⟨s', hlater, hup⟩ := (hstep.inv h).scan_collects (t := t) (procs_modify_self hz) rfl hmem
    ((procs_modify_of_ne hne).trans hx) (by omega)
  exact ⟨s', (hstep.later h).trans hlater, hup⟩

/-- A thread in `process_exit` whose parent is outside can be woken. -/
theorem Inv.exit_woken {z : Proc} (h : Inv s) (hh : History s) (htree : Tree s) (hk : Kept s)
    (hx : s.procs t = some x) (hpc : x.pc = .exitDown) (hsema2 : x.parentSema2 = 0)
    (ht : t ≠ mainTid) (hz : s.procs x.parent = some z) (hzpc : z.pc.inExit = false) :
    ∃ s', Later s s' ∧ Upped s' t .exitDown := by
  have hj := h.joint t x z hx hz
  have hphase := phase_of_exitDown hpc hsema2
  have hrolepc := pc_of_role z.pc t
  unfold JointOk at hj
  by_cases hsema : x.parentSema = 1
  · -- it has exited: the parent is still to wait for it
    rw [if_pos hsema] at hphase
    rw [hphase] at hj
    obtain ⟨hmem, hrole⟩ := hj
    by_cases hp : x.parent = mainTid
    · obtain ⟨z', hz', haim⟩ := hk.aimed t x hx hp ht (by simp [hpc]) (by simp [hphase])
      rw [hp] at hz
      obtain rfl := Option.mem_unique hz hz'
      refine h.main_collects hh hk hz haim hmem ht hx (by omega) fun hwait => ?_
      rw [hwait, (role_self t).1] at hrole
      simpa using hrole
    · have hzt := htree.2 _ z hz
      have hne : z.childList ≠ [] := List.ne_nil_of_mem hmem
      have hrun := phase_eq_running hzpc fun hs => hne (hzt.starting hs)
      obtain ⟨s₁, hlater, z₁, hz₁, hz₁pc⟩ := h.backToUser htree hk.childless hz
        (Nat.le_add_left s.nextTid x.parent) hp hrun
        (by rintro heq; simp [heq, ProcPc.inExit] at hzpc) fun hi => hne (hzt.idle hi).2.2
      have hv : s.semaValue x = some 0 := by simp [semaValue, hpc, hsema2]
      rcases hlater.upped_or_blocked h hx hv with hup | ⟨x₁, hx₁, hsame, hv₁⟩
      · rw [hpc] at hup
        exact hup
      · have hpc₁ := hsame.1.trans hpc
        have hsema₁ : x₁.parentSema2 = 0 := by simpa [semaValue, hpc₁] using hv₁
        obtain ⟨s₂, hlater₂, hup⟩ := (hlater.inv h).user_collects hp hz₁ hz₁pc hx₁ hsame.2.1 hpc₁
          hsema₁
        exact ⟨s₂, hlater.trans hlater₂, hup⟩
  · -- it has been collected: the parent is about to up its semaphore
    rw [if_neg hsema] at hphase
    rw [hphase] at hj
    rcases hj with ⟨hrole, -⟩ | ⟨-, hrole | hrole⟩
    · rw [hrole] at hrolepc
      obtain ⟨s', hlater, -, hup, -⟩ := h.collect_remove ⟨z, hz, hrolepc⟩
      exact ⟨s', hlater, hup⟩
    · rw [hrole] at hrolepc
      obtain ⟨s', hlater, -, hup, -⟩ := h.collect_read ⟨z, hz, hrolepc⟩
      exact ⟨s', hlater, hup⟩
    · rw [hrole] at hrolepc
      obtain ⟨s', hlater, -, hup, -⟩ := h.collect_up ⟨z, hz, hrolepc⟩
      exact ⟨s', hlater, hup⟩

/-- In these states every blocked thread can still be woken. -/
theorem Kept.all_wakeable (h : Inv s) (hh : History s) (htree : Tree s) (hk : Kept s) :
    NoOrphanedWaiter s := by
  intro t x hx hv
  cases hpc : x.pc with
  | execWait c =>
    cases c with
    | none => exact absurd (hk.childless t x hx) (by rw [hpc]; decide)
    | some c =>
      obtain ⟨y, hy, hdead⟩ := h.callee_alive hx (c := c) (by simp [hpc, role_self])
      exact ⟨c, y, by simp [Proc.upper, hpc], hy, hdead, h.load_wakes ⟨x, hx, hpc⟩⟩
  | waitDown c =>
    obtain ⟨y, hy, hdead⟩ := h.callee_alive hx (c := c) (by simp [hpc, role_self])
    refine ⟨c, y, by simp [Proc.upper, hpc], hy, hdead, h.wait_wakes hx hpc ?_⟩
    intro y' hy' hparent hrun hexit
    have hct := htree.2 c y' hy'
    -- neither the initial thread nor the idle thread is waited for
    have hc : c ≠ mainTid ∧ y'.pc ≠ .idle := by
      by_cases ht : t = mainTid
      · have hlt := ((htree.2 t x hx).main ht).2 c (by rw [hpc]; rfl)
        refine ⟨fun hc => ?_, fun hi => ?_⟩
        · rw [hc] at hlt
          exact absurd hlt (by decide)
        · rw [(hct.idle hi).1] at hlt
          exact absurd hlt (by decide)
      · exact ⟨fun hc => ht (hparent ▸ (hct.main hc).1),
          fun hi => ht (hparent ▸ (hct.idle hi).2.1)⟩
    exact h.backToUser htree hk.childless hy' (Nat.le_add_left s.nextTid c) hc.1 hrun hexit hc.2
  | exitDown =>
    have hsema2 : x.parentSema2 = 0 := by simpa [semaValue, hpc] using hv
    have hph : x.phase ≠ .released := by
      rw [phase_of_exitDown hpc hsema2]
      split <;> simp
    obtain ⟨ht, hout⟩ := hk.exiting t x hx (by rw [hpc]; rfl) hph
    obtain ⟨z, hz, hzpc⟩ := outside_iff.mp hout
    refine ⟨x.parent, z, by simp [Proc.upper, hpc], hz, ?_,
      h.exit_woken hh htree hk hx hpc hsema2 ht hz hzpc⟩
    rintro hdead
    rw [hdead] at hzpc
    cases hzpc
  | _ => simp [semaValue, hpc] at hv

end Procs

/-! ### Runs -/

theorem procsInit_tree : procsInit.Tree := by
  refine ⟨by decide, procsInit_cases (motive := fun t x => x.InTree t) ?_ ?_⟩
  · exact ⟨fun h => absurd rfl h, fun _ => ⟨rfl, fun _ hc => hc.elim⟩, by simp,
      by simp [Proc.phase]⟩
  · exact ⟨fun _ => by decide, fun h => absurd h (by decide), fun _ => ⟨rfl, rfl, rfl⟩,
      fun _ => rfl⟩

theorem procsInit_kept : procsInit.Kept := by
  refine ⟨.start, ?_, ?_, by simp [procsInit]⟩
  · exact procsInit_cases (motive := fun t x => x.pc.inExit = true → x.phase ≠ .released →
      t ≠ mainTid ∧ procsInit.outside x.parent = true) (by simp [ProcPc.inExit])
      (by simp [ProcPc.inExit])
  · exact procsInit_cases (motive := fun c y => y.parent = mainTid → c ≠ mainTid → y.pc ≠ .idle →
      y.phase ≠ .released → ∃ x, procsInit.procs mainTid = some x ∧ x.pc.aimsAt c) (by simp)
      (by simp)

/-- **No orphaned waiter**, in every state reached by steps that leave no orphan. -/
theorem noOrphanedWaiter {s : Procs} (h : ProcReachable Procs.KeepsWaiters s) :
    s.NoOrphanedWaiter := by
  have hI := h.invariant (I := fun s => s.Inv ∧ s.History ∧ s.Tree ∧ s.Kept)
    ⟨procsInit_inv, procsInit_history, procsInit_tree, procsInit_kept⟩ ?_
  · obtain ⟨hinv, hh, htree, hk⟩ := hI
    exact hk.all_wakeable hinv hh htree
  · rintro s a s' ⟨hinv, hh, htree, hk⟩ hC hstep
    have hs := (Procs.step_spec hinv a).of_eq_ok hstep
    exact ⟨hs.inv hinv, hs.history hinv hh, hs.tree hinv htree, hs.kept hinv hh htree hk hC⟩

/-- The initial thread waits for thread 3, whose child 4 sits in `process_exit`. -/
theorem noOrphanedWaiter_run :
    ∃ s, ProcReachable Procs.KeepsWaiters s ∧ s.At 1 (.waitDown 3) ∧ s.At 4 .exitDown ∧
      s.NoOrphanedWaiter := by
  have key : ∃ s, ProcReachable Procs.KeepsWaiters s ∧ s.At 1 (.waitDown 3) ∧
      s.At 4 .exitDown :=
    ⟨_, ⟨[.exec 1 true, .create 1 true, .load 3 true, .run 3, .run 3, .run 1, .run 1, .run 1,
      .exec 3 true, .create 3 true, .load 4 true, .run 4, .run 4, .run 3, .run 3,
      .exit 4 (some 5), .run 4], Run.of_guarded rfl⟩, ⟨_, rfl, rfl⟩, ⟨_, rfl, rfl⟩⟩
  obtain ⟨s, hreach, hmain, hchild⟩ := key
  exact ⟨s, hreach, hmain, hchild, noOrphanedWaiter hreach⟩

/-- **Orphaned waiters.** Thread 3 exits without having waited for its child 4 and is freed;
when thread 4 exits, it waits for a parent that is gone. And after a failed `thread_create`
the initial thread waits in `process_execute` for a child that does not exist. -/
theorem orphaned_waiter :
    (∃ s, ProcReachable (fun _ _ => True) s ∧ s.At 4 .exitDown ∧ s.procs 3 = none ∧
      ¬s.NoOrphanedWaiter) ∧
    ∃ s, ProcReachable (fun _ _ => True) s ∧ s.At 1 (.execWait none) ∧ ¬s.NoOrphanedWaiter := by
  have horphan : ∀ {s : Procs} {t : Pid} {x : Proc}, s.procs t = some x →
      s.semaValue x = some 0 → (∀ u, x.upper = some u → s.procs u = none) →
      ¬s.NoOrphanedWaiter := by
    intro s t x hx hv hup hno
    obtain ⟨u, y, hu, hy, -⟩ := hno t x hx hv
    rw [hup u hu] at hy
    cases hy
  constructor
  · exact ⟨_, ⟨[.exec 1 true, .create 1 true, .load 3 true, .run 3, .run 3, .run 1, .run 1,
      .run 1, .exec 3 true, .create 3 true, .load 4 true, .run 4, .run 4, .run 3, .run 3,
      .exit 3 (some 0), .run 3, .run 1, .run 1, .run 1, .run 1, .run 3, .run 3,
      .exit 4 (some 0), .run 4], Run.of_exec rfl⟩, ⟨_, rfl, rfl⟩, rfl,
      horphan (t := 4) rfl rfl fun u hu => by cases hu; rfl⟩
  · exact ⟨_, ⟨[.exec 1 true, .create 1 false], Run.of_exec rfl⟩, ⟨_, rfl, rfl⟩,
      horphan (t := 1) rfl rfl fun u hu => by cases hu⟩

end Pintos
