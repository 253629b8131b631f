import Pintos.ProcessOrphans

/-!
# The Status a Wait Returns

`exit` stores its argument in `exit_number` before `thread_exit`, while `kill` calls
`thread_exit` at once, so the status of a killed process is the 0 of `init_thread`'s
`memset`. A parent's first `process_wait` for a child finds it, whenever the child ends,
and returns the number the child entered `process_exit` with.

## Main results

* `Procs.Recorded.run`: every run remembers its children and how they ended.
* `Procs.Recorded.found`: the first wait for a child finds it.
* `first_wait`: what the first wait for a child returns, and that it returns.
* `killed_status`: a killed process is waited for and the wait returns 0.
-/

namespace Pintos

open Verif Verif.Outcome List Function

/-- The status the documentation asks for: the argument of `exit`, and -1 for a process that
the kernel terminated. -/
def documentedStatus (how : Option ℤ) : ℤ :=
  how.getD (-1)

/-- What `process_wait` returns: the number it read, or -1 if it found no child. -/
def waitResult (result : Option ℤ) : ℤ :=
  result.getD (-1)

/-- A thread in a call of `process_wait (c)`. -/
def ProcPc.waitsFor (pc : ProcPc) (c : Pid) : Prop :=
  match pc with
  | .waitScan tid => tid = c
  | .waitDown d | .waitRemove d | .waitRead d | .waitUp d _ => d = c
  | _ => False

namespace Procs

variable {c p q : Pid} {g : Proc → Proc} {a : ProcAction} {s s' : Procs}

/-! ### Children are not forgotten -/

/-- `c` is a child of `p` that has not been collected. -/
def Unreleased (s : Procs) (p c : Pid) : Prop :=
  ∃ y, s.procs c = some y ∧ y.parent = p ∧ y.phase ≠ .released

/-- What a search that finds no child needs to have happened. -/
def Warranted (log : List Event) : Event → Prop
  | .waited p tid none => ∀ c : Pid, tid = c → .created p c ∈ log →
      ∃ n, .waited p c (some n) ∈ log
  | _ => True

/-- A created child has been collected or is there, and searches miss collected children
only. -/
structure Remembered (s : Procs) : Prop where
  children : ∀ p c, .created p c ∈ s.log →
    (∃ n, .waited p c (some n) ∈ s.log) ∨ Unreleased s p c
  missed : Grounded Warranted s.log

theorem Unreleased.modify (h : Unreleased s p c)
    (hg : ∀ y, s.procs q = some y → (g y).parent = y.parent ∧
      (y.phase ≠ .released → (g y).phase ≠ .released)) : Unreleased (s.modify q g) p c := by
  obtain ⟨y, hy, hparent, hph⟩ := h
  rcases eq_or_ne c q with rfl | hne
  · exact ⟨g y, procs_modify_self hy, (hg y hy).1.trans hparent, (hg y hy).2 hph⟩
  · exact ⟨y, (procs_modify_of_ne hne).trans hy, hparent, hph⟩

/-- A thread goes on outside `process_exit`. -/
theorem Unreleased.goesOn (h : Unreleased s p c) (hparent : ∀ y, (g y).parent = y.parent)
    (hpc : ∀ y, (g y).pc.inExit = false) : Unreleased (s.modify q g) p c :=
  h.modify fun y _ => ⟨hparent y, fun _ => Proc.phase_ne_released (hpc y)⟩

/-- A store that the phase does not depend on. -/
theorem Unreleased.store (h : Unreleased s p c) (hparent : ∀ y, (g y).parent = y.parent)
    (hphase : ∀ y, (g y).phase = y.phase) : Unreleased (s.modify q g) p c :=
  h.modify fun y _ => ⟨hparent y, fun hph => hphase y ▸ hph⟩

/-- A thread past its `sema_down` on `parent_sema2` was collected. -/
theorem phase_of_parentSema2 {x : Proc} (h : x.SemasOk) (hpc : x.pc = .exitDown)
    (hsema : 0 < x.parentSema2) : x.phase = .released := by
  unfold Proc.SemasOk at h
  rw [hpc] at h
  have hps : x.parentSema ≠ 1 := by
    rcases h with ⟨-, h⟩ | ⟨h, -⟩ <;> omega
  rw [Proc.phase, hpc]
  rw [if_neg hps, if_neg (by omega)]

/-- **A child stays until it is collected.** -/
theorem Step.keeps_unreleased (h : Inv s) (hstep : Step s a s') (hu : Unreleased s p c) :
    Unreleased s' p c ∨ ∃ n, .waited p c (some n) ∈ s'.log := by
  cases hstep with
  | execFail | execRet =>
    refine .inl (hu.goesOn (fun _ => rfl) fun _ => ?_)
    split <;> rfl
  | @create q x hx hpc =>
    obtain ⟨y, hy, hrest⟩ := hu
    have hne : c ≠ s.nextTid := Nat.ne_of_lt (h.fresh c y hy).1
    rcases eq_or_ne c q with rfl | hq
    · obtain rfl := Option.mem_unique hx hy
      exact .inl ⟨_, procs_initThread_parent hx hne, hrest.1, Proc.phase_ne_released rfl⟩
    · exact .inl ⟨y, (procs_initThread_of_ne hq hne).trans hy, hrest⟩
  | exit n hx hpc => exact .inl (hu.modify fun _ _ => ⟨rfl, fun _ => by simp [Proc.phase]⟩)
  | startReport hy hpc hx | startUser hy hpc hx =>
    refine .inl (Unreleased.goesOn ?_ (fun _ => rfl) fun _ => rfl)
    exact hu.store (fun _ => rfl) fun _ => rfl
  | startFail hy hpc hx =>
    refine .inl (Unreleased.modify (hu.store (fun _ => rfl) fun _ => rfl) fun _ _ => ⟨rfl, ?_⟩)
    simp [Proc.phase]
  | @waitDown q x d y hx hpc hy hparent hsema =>
    refine .inl (Unreleased.goesOn ?_ (fun _ => rfl) fun _ => rfl)
    refine hu.modify fun z hz => ⟨rfl, fun _ => ?_⟩
    obtain rfl := Option.mem_unique hy hz
    obtain ⟨hypc, hps, hps2⟩ := exited_of_parentSema (h.semas d y hy) hsema
    simp [Proc.phase, hypc, hps, hps2]
  | @waitUp q x d n y hx hpc hy hparent =>
    rcases eq_or_ne c d with rfl | hne
    · obtain ⟨z, hz, hzp, -⟩ := hu
      obtain rfl := Option.mem_unique hy hz
      exact .inr ⟨n, by rw [← hzp, hparent]; exact mem_cons_self⟩
    · refine .inl (Unreleased.goesOn ?_ (fun _ => rfl) fun _ => rfl)
      obtain ⟨z, hz, hrest⟩ := hu
      exact ⟨z, (procs_modify_of_ne hne).trans hz, hrest⟩
  | @exitUp q x hx hpc =>
    refine .inl (hu.modify fun z hz => ⟨rfl, fun _ => ?_⟩)
    obtain rfl := Option.mem_unique hx hz
    have hsemas := h.semas q x hx
    rw [Proc.SemasOk, hpc] at hsemas
    simp [Proc.phase, hsemas.1]
  | @exitDown q x hx hpc hsema =>
    refine .inl (hu.modify fun z hz => ⟨rfl, fun hph => absurd ?_ hph⟩)
    obtain rfl := Option.mem_unique hx hz
    exact phase_of_parentSema2 (h.semas q x hx) hpc hsema
  | exitDead hx hpc hp =>
    refine .inl (hu.modify fun z hz => ⟨rfl, fun hph => absurd ?_ hph⟩)
    obtain rfl := Option.mem_unique hx hz
    exact phase_of_released_pc (.inl hpc)
  | @free q x hx hpc hp =>
    obtain ⟨y, hy, hparent, hph⟩ := hu
    have hne : c ≠ q := by
      rintro rfl
      obtain rfl := Option.mem_unique hx hy
      exact hph (phase_of_released_pc (.inl hpc))
    exact .inl ⟨y, (update_of_ne hne ..).trans hy, hparent, hph⟩
  | _ =>
    exact .inl (hu.goesOn (fun _ => rfl) fun _ => rfl)

/-- Nothing is taken from the log. -/
theorem Step.log_mono {e : Event} (hstep : Step s a s') (he : e ∈ s.log) : e ∈ s'.log := by
  cases hstep with
  | execFail | create | load | exit | execRet | startFail | waitMiss | waitUp | free =>
    exact mem_cons_of_mem _ he
  | _ => exact he

/-- A child recorded as created was there before or has just been made. -/
theorem Step.created (hstep : Step s a s') (he : .created p c ∈ s'.log) :
    .created p c ∈ s.log ∨ Unreleased s' p c := by
  cases hstep with
  | create hx hpc =>
    rcases mem_cons.mp he with heq | hmem
    · obtain ⟨rfl, rfl⟩ := Event.created.inj heq
      exact .inr ⟨_, procs_initThread_child _ _ _, rfl, Proc.phase_ne_released rfl⟩
    · exact .inl hmem
  | execFail | load | exit | execRet | startFail | waitMiss | waitUp | free =>
    exact .inl (mem_of_ne_of_mem (by simp) he)
  | _ => exact .inl he

/-- A search that finds no child looks for none or for one that was collected. -/
theorem Step.warranted (h : Inv s) (hr : Remembered s) (hstep : Step s a s') :
    Grounded Warranted s'.log := by
  cases hstep with
  | execFail | create | load | exit | execRet | startFail | waitUp | free =>
    exact ⟨trivial, hr.missed⟩
  | @waitMiss p x tid hx hpc hmiss =>
    refine ⟨fun c htid hcreated => ?_, hr.missed⟩
    rcases hr.children p c hcreated with hcollected | ⟨y, hy, hparent, hph⟩
    · exact hcollected
    · have hrole : x.pc.role c = .none := by rw [hpc]; rfl
      exact absurd htid.symm (hmiss c (h.mem_childList hx hy hparent hrole hph))
  | _ => exact hr.missed

theorem Step.remembered (h : Inv s) (hr : Remembered s) (hstep : Step s a s') : Remembered s' := by
  refine ⟨fun p c hc => ?_, hstep.warranted h hr⟩
  rcases hstep.created hc with hold | hnew
  · rcases hr.children p c hold with ⟨n, hn⟩ | hu
    · exact .inl ⟨n, hstep.log_mono hn⟩
    · exact (hstep.keeps_unreleased h hu).symm
  · exact .inr hnew

theorem procsInit_remembered : Remembered procsInit := by
  refine ⟨fun p c hc => .inr ?_, trivial, trivial, trivial⟩
  simp only [procsInit, mem_cons, Event.created.injEq, not_mem_nil, or_false] at hc
  rcases hc with ⟨rfl, rfl⟩ | ⟨rfl, rfl⟩
  · exact ⟨_, rfl, rfl, Proc.phase_ne_released rfl⟩
  · exact ⟨_, rfl, rfl, Proc.phase_ne_released rfl⟩

/-! ### The exit number -/

/-- `init_thread` clears `exit_number`, and only `exit` stores into it. -/
def Unset (s : Procs) : Prop :=
  ∀ t x, s.procs t = some x → x.pc.inExit = false → x.exitNumber = 0

theorem Unset.modify (h : Unset s)
    (hg : ∀ y, s.procs q = some y → (g y).pc.inExit = false →
      y.pc.inExit = false ∧ (g y).exitNumber = y.exitNumber) : Unset (s.modify q g) := by
  intro t x hx hpc
  rcases eq_or_ne t q with rfl | hne
  · rw [procs_modify, if_pos rfl] at hx
    obtain ⟨y, hy, rfl⟩ := Option.map_eq_some_iff.mp hx
    obtain ⟨hpc', hnumber⟩ := hg y hy hpc
    exact hnumber.trans (h t y hy hpc')
  · exact h t x ((procs_modify_of_ne hne).symm.trans hx) hpc

/-- A thread outside `process_exit` goes on. -/
theorem Unset.goesOn {x : Proc} (h : Unset s) (hx : s.procs q = some x) (hpc : x.pc.inExit = false)
    (hg : (g x).exitNumber = x.exitNumber) : Unset (s.modify q g) := by
  refine h.modify fun y hy _ => ?_
  obtain rfl := Option.mem_unique hx hy
  exact ⟨hpc, hg⟩

/-- A thread enters `process_exit` or goes on there. -/
theorem Unset.exits (h : Unset s) (hpc : ∀ y, (g y).pc.inExit = true) : Unset (s.modify q g) :=
  h.modify fun y _ hout => absurd ((hpc y).symm.trans hout) (by decide)

theorem Unset.store (h : Unset s) (hg : ∀ y, SameProc y (g y)) : Unset (s.modify q g) :=
  h.modify fun y _ hout => ⟨(hg y).1 ▸ hout, (hg y).2.2.2⟩

theorem Step.unset (h : Inv s) (hu : Unset s) (hstep : Step s a s') : Unset s' := by
  cases hstep with
  | exec hx hpc | execFail hx hpc | createFail hx hpc | load b hx hpc | wait tid hx hpc _
  | execDown hx hpc _ | execRet hx hpc | waitMiss hx hpc _ | waitFound hx hpc _
  | waitRemove hx hpc | waitRead hx hpc _ => exact hu.goesOn hx (by rw [hpc]; rfl) rfl
  | @create p x hx hpc =>
    intro t y hy hout
    rcases eq_or_ne t s.nextTid with rfl | hnext
    · obtain rfl := Option.mem_unique (procs_initThread_child s p _) hy
      rfl
    · rcases eq_or_ne t p with rfl | hne
      · obtain rfl := Option.mem_unique (procs_initThread_parent hx hnext) hy
        exact hu t x hx (by rw [hpc]; rfl)
      · exact hu t y ((procs_initThread_of_ne hne hnext).symm.trans hy) hout
  | startFail hy hpc hx =>
    exact Unset.exits (hu.store fun _ => ⟨rfl, rfl, rfl, rfl⟩) fun _ => rfl
  | startReport hy hpc hx | startUser hy hpc hx =>
    obtain ⟨-, -, -, -, -, hne⟩ := h.parent_of_starting hy (by rw [Proc.phase, hpc])
    exact Unset.goesOn (hu.store fun _ => ⟨rfl, rfl, rfl, rfl⟩)
      ((procs_modify_of_ne hne).trans hy) (by rw [hpc]; rfl) rfl
  | waitDown hx hpc hy hparent hsema =>
    have hne := h.ne_of_waitDown hx hpc hy hsema
    exact Unset.goesOn (hu.store fun _ => ⟨rfl, rfl, rfl, rfl⟩)
      ((procs_modify_of_ne hne.symm).trans hx) (by rw [hpc]; rfl) rfl
  | waitUp hx hpc hy hparent =>
    have hne := h.ne_of_waitUp hx hpc hy hparent
    exact Unset.goesOn (hu.store fun _ => ⟨rfl, rfl, rfl, rfl⟩)
      ((procs_modify_of_ne hne.symm).trans hx) (by rw [hpc]; rfl) rfl
  | @free p x hx hpc hp =>
    intro t y hy hout
    change update _ _ _ _ = _ at hy
    rw [update_apply] at hy
    split at hy
    · cases hy
    · exact hu t y hy hout
  | _ => exact hu.exits fun _ => rfl

theorem procsInit_unset : Unset procsInit :=
  procsInit_cases (motive := fun _ x => x.pc.inExit = false → x.exitNumber = 0)
    (fun _ => rfl) fun _ => rfl

/-- `exit` and `kill` enter `process_exit`, `kill` with the number that is there. -/
theorem Step.entered {how : Option ℤ} (hu : Unset s) (hstep : Step s (.exit c how) s') :
    .entered c (how.getD 0) ∈ s'.log := by
  cases hstep with
  | exit _ hx hpc =>
    rw [← hu c _ hx (by rw [hpc]; rfl)]
    exact mem_cons_self

end Procs

/-! ### Runs -/

/-- The invariants of this module. -/
structure Procs.Recorded (as : List ProcAction) (s : Procs) : Prop where
  inv : s.Inv
  history : s.History
  remembered : s.Remembered
  unset : s.Unset
  entered : ∀ c how, .exit c how ∈ as → .entered c (how.getD 0) ∈ s.log

theorem procsInit_recorded : procsInit.Recorded [] :=
  ⟨procsInit_inv, procsInit_history, Procs.procsInit_remembered, Procs.procsInit_unset,
    fun _ _ hm => absurd hm not_mem_nil⟩

namespace Procs.Recorded

variable {as : List ProcAction} {how : Option ℤ} {c p : Pid} {s : Procs}

theorem step {s' : Procs} {a : ProcAction} (h : s.Recorded as) (hstep : Step s a s') :
    s'.Recorded (as ++ [a]) := by
  refine ⟨hstep.inv h.inv, hstep.history h.inv h.history, hstep.remembered h.inv h.remembered,
    hstep.unset h.inv h.unset, fun c how hm => ?_⟩
  rcases mem_append.mp hm with hold | hnew
  · exact hstep.log_mono (h.entered c how hold)
  · obtain rfl := mem_singleton.mp hnew
    exact hstep.entered h.unset

/-- **Every run records how its processes ended.** -/
theorem run {C : Procs → ProcAction → Prop} {bs : List ProcAction} {s' : Procs} (h : s.Recorded as)
    (hrun : Run Procs.step C s bs s') : s'.Recorded (as ++ bs) := by
  induction hrun with
  | nil => simpa using h
  | @snoc bs s₁ s₂ a hrun hC hs ih =>
    rw [← append_assoc]
    exact ih.step ((Procs.step_spec ih.inv a).of_eq_ok hs)

/-- A child that ended is collected with the number it ended with. -/
theorem status (h : s.Recorded as) {n : ℤ} (hend : .exit c how ∈ as)
    (hwait : .waited p c (some n) ∈ s.log) : n = how.getD 0 := by
  obtain ⟨l₁, l₂, hlog, d, hcd, -, hentered, -⟩ := h.history.grounded.of_mem hwait
  obtain rfl := Int.ofNat_inj.mp hcd
  refine h.history.entered_unique ?_ (h.entered c how hend)
  rw [hlog]
  exact mem_append_right _ (mem_cons_of_mem _ hentered)

/-- **The first wait for a child finds it.** -/
theorem found (h : s.Recorded as) {r : Option ℤ} {later between earlier : List Event}
    (hlog : s.log = later ++ .waited p c r :: (between ++ .created p c :: earlier))
    (hfirst : ∀ r', .waited p c r' ∉ between) : ∃ n, r = some n := by
  cases r with
  | some n => exact ⟨n, rfl⟩
  | none =>
    have hmissed := h.remembered.missed
    have hgrounded := h.history.grounded
    rw [hlog] at hmissed hgrounded
    have hcreated : .created p c ∈ between ++ .created p c :: earlier :=
      mem_append_right _ mem_cons_self
    obtain ⟨n, hn⟩ := hmissed.justified c rfl hcreated
    rcases mem_append.mp hn with hmid | hold
    · exact absurd hmid (hfirst _)
    · -- it cannot have been collected before it was created
      have hnew : Grounded Event.Justified (.created p c :: earlier) :=
        hgrounded.of_append.2.of_append
      have hmem : .waited p c (some n) ∈ earlier := mem_of_ne_of_mem (by simp) hold
      obtain ⟨l₁, l₂, heq, d, hcd, hcreated', -⟩ := hnew.2.of_mem hmem
      obtain rfl := Int.ofNat_inj.mp hcd
      refine absurd ?_ (hnew.1 p)
      rw [heq]
      exact mem_append_right _ (mem_cons_of_mem _ hcreated')

/-- A process that ended and was not collected is in `process_exit`. -/
theorem ended (h : s.Recorded as) {y : Proc} (hend : .exit c how ∈ as) (hy : s.procs c = some y) :
    y.pc.inExit = true := by
  cases hpc : y.pc.inExit with
  | true => rfl
  | false => exact absurd (h.entered c how hend) ((h.history.linked c y hy).unentered hpc _)

/-- A parent that waits for a process that ended gets through its `sema_down`. -/
theorem returns_of_waitDown (h : s.Recorded as) {x : Proc} (hend : .exit c how ∈ as)
    (hx : s.procs p = some x) (hpc : x.pc = .waitDown c) :
    ∃ s', Later s s' ∧ ∃ n, .waited p c (some n) ∈ s'.log := by
  obtain ⟨s₁, hl₁, hup⟩ := h.inv.wait_wakes hx hpc fun y hy _ hph hne => by
    -- a running process in `process_exit` is about to up its semaphore
    have hexit := h.ended hend hy
    cases hypc : y.pc <;> simp_all [ProcPc.inExit, Proc.phase]
    split at hph
    · cases hph
    · split at hph <;> cases hph
  obtain ⟨s₂, hl₂, -, -, hwaited⟩ := (hl₁.inv h.inv).collect_down hup
  exact ⟨s₂, hl₁.trans hl₂, hwaited⟩

/-- **A wait for a process that ended returns.** -/
theorem returns (h : s.Recorded as) {x : Proc} (hend : .exit c how ∈ as)
    (hcreated : .created p c ∈ s.log) (hfirst : ∀ n, .waited p c (some n) ∉ s.log)
    (hx : s.procs p = some x) (hwaits : x.pc.waitsFor c) :
    ∃ s', Later s s' ∧ ∃ n, .waited p c (some n) ∈ s'.log := by
  cases hpc : x.pc with
  | waitScan tid =>
    rw [hpc] at hwaits
    obtain rfl : tid = c := hwaits
    rcases h.remembered.children p c hcreated with ⟨n, hn⟩ | ⟨y, hy, hparent, hph⟩
    · exact absurd hn (hfirst n)
    · have hmem := h.inv.mem_childList hx hy hparent (by rw [hpc]; rfl) hph
      have hstep := Step.waitFound hx hpc hmem
      obtain ⟨s', hl, hwaited⟩ := (h.step hstep).returns_of_waitDown
        (mem_append_left _ hend) (procs_modify_self hx) rfl
      exact ⟨s', (hstep.later h.inv).trans hl, hwaited⟩
  | waitDown d =>
    rw [hpc] at hwaits
    obtain rfl : d = c := hwaits
    exact h.returns_of_waitDown hend hx hpc
  | waitRemove d =>
    rw [hpc] at hwaits
    obtain rfl : d = c := hwaits
    obtain ⟨s', hl, -, -, hwaited⟩ := h.inv.collect_remove ⟨x, hx, hpc⟩
    exact ⟨s', hl, hwaited⟩
  | waitRead d =>
    rw [hpc] at hwaits
    obtain rfl : d = c := hwaits
    obtain ⟨s', hl, -, -, hwaited⟩ := h.inv.collect_read ⟨x, hx, hpc⟩
    exact ⟨s', hl, hwaited⟩
  | waitUp d n =>
    rw [hpc] at hwaits
    obtain rfl : d = c := hwaits
    obtain ⟨s', hl, -, -, hwaited⟩ := h.inv.collect_up ⟨x, hx, hpc⟩
    exact ⟨s', hl, hwaited⟩
  | _ => simp [hpc, ProcPc.waitsFor] at hwaits

end Procs.Recorded

/-- **The status of a process that ended.** In every run, for every process `c` that called
`exit` or was killed and its parent `p`: the first `process_wait` of `p` for `c` returns the
argument of `exit`, and 0 for a killed process, so it returns the documented status exactly
if the process was not killed; and a first wait that is under way can return. -/
theorem first_wait {as : List ProcAction} {s : Procs}
    (h : Run Procs.step (fun _ _ => True) procsInit as s) {p c : Pid} {how : Option ℤ}
    (hend : .exit c how ∈ as) :
    (∀ (r : Option ℤ) (later between earlier : List Event),
      s.log = later ++ .waited p c r :: (between ++ .created p c :: earlier) →
      (∀ r', .waited p c r' ∉ between) →
      waitResult r = how.getD 0 ∧ (waitResult r = documentedStatus how ↔ how ≠ none)) ∧
    (∀ x, s.procs p = some x → x.pc.waitsFor c → .created p c ∈ s.log →
      (∀ n, .waited p c (some n) ∉ s.log) →
      ∃ s', Procs.Later s s' ∧ .waited p c (some (how.getD 0)) ∈ s'.log) := by
  have hrec := procsInit_recorded.run h
  rw [List.nil_append] at hrec
  constructor
  · intro r later between earlier hlog hfirst
    obtain ⟨n, rfl⟩ := hrec.found hlog hfirst
    have hmem : .waited p c (some n) ∈ s.log := by
      rw [hlog]
      exact List.mem_append_right _ List.mem_cons_self
    have hn : waitResult (some n) = how.getD 0 := hrec.status hend hmem
    refine ⟨hn, ?_⟩
    rw [hn]
    cases how <;> simp [documentedStatus]
  · intro x hx hwaits hcreated hfirst
    obtain ⟨s', hlater, n, hn⟩ := hrec.returns hend hcreated hfirst hx hwaits
    obtain ⟨bs, hrun⟩ := id hlater
    have hlast := (hrec.run hrun).status (List.mem_append_left bs hend) hn
    exact ⟨s', hlater, hlast ▸ hn⟩

/-- The run of the initial thread that executes thread 3 and waits for it, and in which thread
3 ends as `how` says. -/
def taskRun (how : Option ℤ) : List ProcAction :=
  [.exec 1 true, .create 1 true, .load 3 true, .run 3, .run 3, .run 1, .run 1, .run 1,
    .exit 3 how, .run 3, .run 1, .run 1, .run 1, .run 1]

/-- Thread 3 exits with 7 while the initial thread waits for it, and the wait returns 7. -/
theorem first_wait_exit :
    ∃ s, Run Procs.step (fun _ _ => True) procsInit (taskRun (some 7)) s ∧
      (∃ earlier, s.log = .waited 1 3 (some 7) :: earlier) ∧
      waitResult (some 7) = documentedStatus (some 7) := by
  have key : ∃ s, Run Procs.step (fun _ _ => True) procsInit (taskRun (some 7)) s ∧
      s.log = .waited 1 3 (some 7) :: ([.entered 3 7, .executed 1 (some 3) 3, .loaded 3 true] ++
        .created 1 3 :: [.created 1 2, .created 1 1]) :=
    ⟨_, Run.of_exec rfl, rfl⟩
  obtain ⟨s, hrun, hlog⟩ := key
  have hend : .exit 3 (some 7) ∈ taskRun (some 7) := by decide
  have hwait := (first_wait hrun (p := 1) hend).1 (some 7) [] _ _ hlog (by simp)
  exact ⟨s, hrun, ⟨_, hlog⟩, hwait.2.mpr (by simp)⟩

/-- The kernel kills thread 3, and the first wait for it returns 0. -/
theorem killed_status :
    ∃ s, Run Procs.step (fun _ _ => True) procsInit (taskRun none) s ∧
      (∃ between earlier, s.log = .waited 1 3 (some 0) :: (between ++ .created 1 3 :: earlier) ∧
        ∀ r, .waited 1 3 r ∉ between) ∧
      .exit 3 none ∈ taskRun none ∧ waitResult (some 0) ≠ documentedStatus none :=
  ⟨_, Run.of_exec rfl, ⟨[.entered 3 0, .executed 1 (some 3) 3, .loaded 3 true],
    [.created 1 2, .created 1 1], rfl, by simp⟩, by decide, by decide⟩

end Pintos
