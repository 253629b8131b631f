import Pintos.ProcessInvariant

/-!
# The Steps of the Protocol

`Step s a s'` says what each action does and when, with the structures it accesses. In a
state that keeps the invariant the model's `step` does exactly that: no access fails, since
the children in a `child_list` are live, the child a call is about is live, and the
parent of a starting child is live.

## Main results

* `step_spec`: no step accesses a freed structure, and every step is a `Step`.
* `Step.step_eq`: every `Step` can be taken.
-/

namespace Pintos

open Verif Verif.Outcome List

namespace Procs

/-! ### Accesses -/

theorem deref_of {s : Procs} {p : Pid} {x : Proc} (h : s.procs p = some x) :
    s.deref p = ok x := by
  simp [deref, h]

theorem self_spec {s : Procs} {p : Pid} :
    (s.self p).Spec (fun _ => False) fun x => s.procs p = some x := by
  unfold self
  split
  · trivial
  · assumption

theorem derefAll_of {s : Procs} {l : List Pid} (h : ∀ c ∈ l, ∃ x, s.procs c = some x) :
    s.derefAll l = ok () := by
  induction l with
  | nil => rfl
  | cons c rest ih =>
    obtain ⟨x, hx⟩ := h c mem_cons_self
    rw [derefAll, deref_of hx, ok_bind]
    exact ih fun d hd => h d (mem_cons_of_mem c hd)

/-- The elements `list_remove` writes are elements of the list. -/
theorem mem_of_mem_neighbours {l : List Pid} {c d : Pid} (h : d ∈ neighbours l c) : d ∈ l := by
  rcases mem_append.mp h with h | h
  · exact ( takeWhile_prefix _).subset (mem_of_getLast? (Option.mem_toList.mp h))
  · have htail := mem_of_head? (Option.mem_toList.mp h)
    exact (dropWhile_suffix _).subset (mem_of_mem_tail htail)

/-- The search of `process_wait` finds the child with the given `tid`. -/
theorem waitLoop_eq {s : Procs} {tid : ℤ} {l : List Pid}
    (h : ∀ c ∈ l, ∃ x, s.procs c = some x) :
    s.waitLoop tid l = ok (l.find? fun c : Pid => (c : ℤ) = tid) := by
  induction l with
  | nil => rfl
  | cons c rest ih =>
    obtain ⟨x, hx⟩ := h c mem_cons_self
    rw [waitLoop, deref_of hx, ok_bind, find?_cons]
    by_cases hc : (c : ℤ) = tid
    · simp [hc]
    · simpa [hc] using ih fun d hd => h d (mem_cons_of_mem c hd)

theorem find_tid {l : List Pid} {c : Pid} (h : c ∈ l) :
    (l.find? fun d : Pid => (d : ℤ) = c) = some c := by
  cases hfind : l.find? fun d : Pid => (d : ℤ) = c with
  | none => exact absurd (find?_eq_none.mp hfind c h) (by simp)
  | some d =>
    have hd : (d : ℤ) = c := by simpa using find?_some hfind
    rw [Int.ofNat_inj.mp hd]

theorem Inv.childrenLive {s : Procs} (h : Inv s) {p : Pid} {x : Proc}
    (hx : s.procs p = some x) : ∀ c ∈ x.childList, ∃ child, s.procs c = some child := by
  intro c hc
  obtain ⟨child, hchild, -⟩ := h.childLive p x c hx hc
  exact ⟨child, hchild⟩

/-- `list_remove` of a live child writes live structures. -/
theorem derefAll_neighbours {s : Procs} (h : Inv s) {p c : Pid} {x y : Proc}
    (hx : s.procs p = some x) (hy : s.procs c = some y) :
    s.derefAll (c :: neighbours x.childList c) = ok () := by
  refine derefAll_of fun d hd => ?_
  rcases mem_cons.mp hd with rfl | hd
  · exact ⟨y, hy⟩
  · exact h.childrenLive hx d (mem_of_mem_neighbours hd)

/-- So does `list_push_back`. -/
theorem derefAll_getLast {s : Procs} (h : Inv s) {p : Pid} {x : Proc}
    (hx : s.procs p = some x) : s.derefAll x.childList.getLast?.toList = ok () := by
  refine derefAll_of fun c hc => h.childrenLive hx c ?_
  exact mem_of_getLast? (Option.mem_toList.mp hc)

theorem role_self (c : Pid) :
    (ProcPc.execWait (some c)).role c = .loading ∧ (ProcPc.waitDown c).role c = .awaiting ∧
    (ProcPc.waitRemove c).role c = .removing ∧ (ProcPc.waitRead c).role c = .reading ∧
    ∀ n, (ProcPc.waitUp c n).role c = .upping n := by
  simp [ProcPc.role]

/-- Calls are about one child only. -/
theorem role_other {c d : Pid} (h : c ≠ d) :
    (ProcPc.execWait (some c)).role d = .none ∧ (ProcPc.waitDown c).role d = .none ∧
    (ProcPc.waitRemove c).role d = .none ∧ (ProcPc.waitRead c).role d = .none ∧
    ∀ n, (ProcPc.waitUp c n).role d = .none := by
  simp [ProcPc.role, h]

/-- The program point a role is played at. -/
theorem pc_of_role (pc : ProcPc) (c : Pid) :
    match pc.role c with
    | .none => True
    | .loading => pc = .execWait (some c)
    | .awaiting => pc = .waitDown c
    | .removing => pc = .waitRemove c
    | .reading => pc = .waitRead c
    | .upping n => pc = .waitUp c n := by
  cases pc with
  | execWait d =>
    cases d with
    | none => trivial
    | some d => by_cases h : d = c <;> simp [ProcPc.role, h]
  | waitDown d | waitRemove d | waitRead d | waitUp d n =>
    by_cases h : d = c <;> simp [ProcPc.role, h]
  | _ => trivial

/-- A starting child has a parent that waits for it. -/
theorem Inv.parent_of_starting {s : Procs} {c : Pid} {y : Proc} (h : Inv s)
    (hy : s.procs c = some y) (hphase : y.phase = .starting) :
    ∃ x, s.procs y.parent = some x ∧ x.pc = .execWait (some c) ∧ c ∈ x.childList ∧
      x.createSema = 0 ∧ c ≠ y.parent := by
  cases hx : s.procs y.parent with
  | none => exact absurd hphase (h.orphan c y hy hx).1
  | some x =>
    have hj := h.joint c y x hy hx
    rw [JointOk, hphase] at hj
    obtain ⟨hrole, hmem, hsema⟩ := hj
    have hpc := pc_of_role x.pc c
    rw [hrole] at hpc
    refine ⟨x, rfl, hpc, hmem, hsema, ?_⟩
    intro heq
    rw [← heq, hy] at hx
    cases hx
    rw [Proc.phase, hpc] at hphase
    cases hphase

/-! ### The step relation -/

/-- The steps: the thread that takes it, where it is, what it needs and what it leads to. -/
inductive Step (s : Procs) : ProcAction → Procs → Prop
  | exec {p x} (hx : s.procs p = some x) (hpc : x.pc = .user) :
      Step s (.exec p true) (s.goto p .execCreate)
  | execFail {p x} (hx : s.procs p = some x) (hpc : x.pc = .user) :
      Step s (.exec p false) (s.execReturn p none (-1))
  | create {p x} (hx : s.procs p = some x) (hpc : x.pc = .execCreate) :
      Step s (.create p true) (s.initThread p x.childList)
  | createFail {p x} (hx : s.procs p = some x) (hpc : x.pc = .execCreate) :
      Step s (.create p false) (s.goto p (.execWait none))
  | load {p x} (success : Bool) (hx : s.procs p = some x) (hpc : x.pc = .startLoad) :
      Step s (.load p success) ((s.goto p (.startReport success)).emit (.loaded p success))
  | wait {p x} (tid : ℤ) (hx : s.procs p = some x) (hpc : x.pc = .user) (hp : p ≠ mainTid) :
      Step s (.wait p tid) (s.goto p (.waitScan tid))
  | exit {p x} (n : Option ℤ) (hx : s.procs p = some x) (hpc : x.pc = .user) :
      Step s (.exit p n) (s.enterExit p (n.getD x.exitNumber))
  | execDown {p x c} (hx : s.procs p = some x) (hpc : x.pc = .execWait c)
      (hsema : 0 < x.createSema) :
      Step s (.run p) (s.modify p fun x =>
        { x with createSema := x.createSema - 1, pc := .execRet c })
  | execRet {p x c} (hx : s.procs p = some x) (hpc : x.pc = .execRet c) :
      Step s (.run p) (s.execReturn p c
        (if !x.createSuccess then -1 else c.elim (-1) fun c => c))
  | startReport {c y b x} (hy : s.procs c = some y) (hpc : y.pc = .startReport b)
      (hx : s.procs y.parent = some x) :
      Step s (.run c) ((s.modify y.parent fun x => { x with createSuccess := b }).goto c
        (.startUp b))
  | startFail {c y x} (hy : s.procs c = some y) (hpc : y.pc = .startUp false)
      (hx : s.procs y.parent = some x) :
      Step s (.run c) ((s.modify y.parent fun x =>
        { x with createSema := x.createSema + 1 }).enterExit c y.exitNumber)
  | startUser {c y x} (hy : s.procs c = some y) (hpc : y.pc = .startUp true)
      (hx : s.procs y.parent = some x) :
      Step s (.run c) ((s.modify y.parent fun x =>
        { x with createSema := x.createSema + 1 }).goto c .user)
  | waitMiss {p x tid} (hx : s.procs p = some x) (hpc : x.pc = .waitScan tid)
      (hmiss : ∀ c ∈ x.childList, (c : ℤ) ≠ tid) :
      Step s (.run p) ((s.goto p .user).emit (.waited p tid none))
  | waitFound {p x} {c : Pid} (hx : s.procs p = some x) (hpc : x.pc = .waitScan c)
      (hc : c ∈ x.childList) :
      Step s (.run p) (s.goto p (.waitDown c))
  | waitDown {p x c y} (hx : s.procs p = some x) (hpc : x.pc = .waitDown c)
      (hy : s.procs c = some y) (hparent : y.parent = p) (hsema : 0 < y.parentSema) :
      Step s (.run p) ((s.modify c fun y => { y with parentSema := y.parentSema - 1 }).goto p
        (.waitRemove c))
  | waitRemove {p x c} (hx : s.procs p = some x) (hpc : x.pc = .waitRemove c) :
      Step s (.run p) (s.modify p fun x =>
        { x with childList := x.childList.erase c, pc := .waitRead c })
  | waitRead {p x c y} (hx : s.procs p = some x) (hpc : x.pc = .waitRead c)
      (hy : s.procs c = some y) :
      Step s (.run p) (s.goto p (.waitUp c y.exitNumber))
  | waitUp {p x c n y} (hx : s.procs p = some x) (hpc : x.pc = .waitUp c n)
      (hy : s.procs c = some y) (hparent : y.parent = p) :
      Step s (.run p) (((s.modify c fun y => { y with parentSema2 := y.parentSema2 + 1 }).goto p
        .user).emit (.waited p c (some n)))
  | exitUp {p x} (hx : s.procs p = some x) (hpc : x.pc = .exitUp) :
      Step s (.run p) (s.modify p fun x =>
        { x with parentSema := x.parentSema + 1, pc := .exitDown })
  | exitDown {p x} (hx : s.procs p = some x) (hpc : x.pc = .exitDown)
      (hsema : 0 < x.parentSema2) :
      Step s (.run p) (s.modify p fun x =>
        { x with parentSema2 := x.parentSema2 - 1, pc := .exitFree })
  | exitDead {p x} (hx : s.procs p = some x) (hpc : x.pc = .exitFree) (hp : p = mainTid) :
      Step s (.run p) (s.goto p .dead)
  | free {p x} (hx : s.procs p = some x) (hpc : x.pc = .exitFree) (hp : p ≠ mainTid) :
      Step s (.run p) ({ s with procs := Function.update s.procs p none }.emit (.freed p))

/-- The child a call is about is live. -/
theorem Inv.callee {s : Procs} {p c : Pid} {x : Proc} (h : Inv s) (hx : s.procs p = some x)
    (hrole : x.pc.role c ≠ .none) : ∃ y, s.procs c = some y ∧ y.parent = p :=
  h.roleLive p x c hx hrole

/-- What the next step of a thread inside one of the functions does. -/
theorem runStep_spec {s : Procs} {p : Pid} {x : Proc} (h : Inv s) (hx : s.procs p = some x) :
    (s.runStep p x).Spec (fun _ => False) (Step s (.run p)) := by
  unfold runStep
  split
  case h_1 c hpc => exact Spec.require fun hsema => .execDown hx hpc hsema
  case h_2 c hpc => exact .execRet hx hpc
  case h_3 b hpc =>
      obtain ⟨parent, hparent, -⟩ := h.parent_of_starting hx (by rw [Proc.phase, hpc])
      rw [deref_of hparent, ok_bind]
      exact .startReport hx hpc hparent
  case h_4 b hpc =>
      obtain ⟨parent, hparent, -⟩ := h.parent_of_starting hx (by rw [Proc.phase, hpc])
      rw [deref_of hparent, ok_bind]
      cases b with
      | false => exact .startFail hx hpc hparent
      | true => exact .startUser hx hpc hparent
  case h_5 tid hpc =>
      rw [waitLoop_eq (h.childrenLive hx), ok_bind]
      cases hfind : x.childList.find? fun c : Pid => (c : ℤ) = tid with
      | none => exact .waitMiss hx hpc (by simpa using hfind)
      | some c =>
        have hc := mem_of_find?_eq_some hfind
        have htid : (c : ℤ) = tid := by simpa using find?_some hfind
        exact .waitFound hx (htid ▸ hpc) hc
  case h_6 c hpc =>
      obtain ⟨y, hy, hparent⟩ := h.callee hx (c := c) (by simp [hpc, role_self])
      rw [deref_of hy, ok_bind]
      exact Spec.require fun hsema => .waitDown hx hpc hy hparent hsema
  case h_7 c hpc =>
      obtain ⟨y, hy, -⟩ := h.callee hx (c := c) (by simp [hpc, role_self])
      rw [derefAll_neighbours h hx hy, ok_bind]
      exact .waitRemove hx hpc
  case h_8 c hpc =>
      obtain ⟨y, hy, -⟩ := h.callee hx (c := c) (by simp [hpc, role_self])
      rw [deref_of hy, ok_bind]
      exact .waitRead hx hpc hy
  case h_9 c n hpc =>
      obtain ⟨y, hy, hparent⟩ := h.callee hx (c := c) (by simp [hpc, role_self])
      rw [deref_of hy, ok_bind]
      exact .waitUp hx hpc hy hparent
  case h_10 hpc => exact .exitUp hx hpc
  case h_11 hpc => exact Spec.require fun hsema => .exitDown hx hpc hsema
  case h_12 hpc =>
      split
      · exact .exitDead hx hpc ‹_›
      · exact .free hx hpc ‹_›
  case h_13 => exact Spec.of_blocked

/-- **Every action is a step**: it accesses no freed structure, and it does what `Step`
says. -/
theorem step_spec {s : Procs} (h : Inv s) (a : ProcAction) :
    (s.step a).Spec (fun _ => False) (Step s a) := by
  unfold step
  cases a with
  | exec p fnCopy =>
    refine self_spec.bind fun x _ hx => Spec.require fun hpc => ?_
    cases fnCopy with
    | false => exact .execFail hx hpc
    | true => exact .exec hx hpc
  | create p page =>
    refine self_spec.bind fun x _ hx => Spec.require fun hpc => ?_
    cases page with
    | false => exact .createFail hx hpc
    | true =>
      rw [if_pos rfl, threadCreate, derefAll_getLast h hx, ok_bind]
      exact .create hx hpc
  | load p success =>
    exact self_spec.bind fun x _ hx => Spec.require fun hpc => .load success hx hpc
  | wait p tid =>
    exact self_spec.bind fun x _ hx => Spec.require fun hpc => .wait tid hx hpc.1 hpc.2
  | exit p n =>
    exact self_spec.bind fun x _ hx => Spec.require fun hpc => .exit n hx hpc
  | run p => exact self_spec.bind fun x _ hx => runStep_spec h hx

/-! ### Taking a step -/

theorem self_of {s : Procs} {p : Pid} {x : Proc} (h : s.procs p = some x) :
    s.self p = ok x := by
  simp [self, h]

theorem step_run_of {s : Procs} {p : Pid} {x : Proc} (h : s.procs p = some x) :
    s.step (.run p) = s.runStep p x := by
  rw [step, self_of h, ok_bind]

/-- **Every step can be taken.** -/
theorem Step.step_eq {s s' : Procs} {a : ProcAction} (h : Inv s) (hstep : Step s a s') :
    s.step a = ok s' := by
  cases hstep with
  | exec hx hpc | execFail hx hpc | createFail hx hpc | load b hx hpc | exit n hx hpc =>
    simp [step, self_of hx, hpc]
  | create hx hpc => simp [step, self_of hx, hpc, threadCreate, derefAll_getLast h hx]
  | wait tid hx hpc hp => simp [step, self_of hx, hpc, hp]
  | execDown hx hpc hsema | exitDown hx hpc hsema => simp [step_run_of hx, runStep, hpc, hsema]
  | execRet hx hpc | exitUp hx hpc => simp [step_run_of hx, runStep, hpc]
  | startReport hy hpc hx | startFail hy hpc hx | startUser hy hpc hx =>
    simp [step_run_of hy, runStep, hpc, deref_of hx]
  | @waitMiss p x tid hx hpc hmiss =>
    have hfind : (x.childList.find? fun c : Pid => (c : ℤ) = tid) = none := by
      simpa using hmiss
    rw [step_run_of hx, runStep, hpc]
    dsimp only
    rw [waitLoop_eq (h.childrenLive hx), ok_bind, hfind]
    rfl
  | @waitFound p x c hx hpc hc =>
    rw [step_run_of hx, runStep, hpc]
    dsimp only
    rw [waitLoop_eq (h.childrenLive hx), ok_bind, find_tid hc]
    rfl
  | waitDown hx hpc hy hparent hsema => simp [step_run_of hx, runStep, hpc, deref_of hy, hsema]
  | waitRemove hx hpc =>
    obtain ⟨y, hy, -⟩ := h.callee hx (by rw [hpc, (role_self _).2.2.1]; decide)
    simp [step_run_of hx, runStep, hpc, derefAll_neighbours h hx hy]
  | waitRead hx hpc hy | waitUp hx hpc hy hparent =>
    simp [step_run_of hx, runStep, hpc, deref_of hy]
  | exitDead hx hpc hp =>
    subst hp
    simp [step_run_of hx, runStep, hpc]
  | free hx hpc hp => simp [step_run_of hx, runStep, hpc, hp]

end Procs

end Pintos
