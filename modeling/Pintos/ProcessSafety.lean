import Pintos.ProcessSteps

/-!
# Every Step of the Protocol Keeps the Invariant

One lemma for each step that changes what a parent and a child know of each other, and
one, `Inv.quiet`, for all the others.

## Main results

* `Step.inv`: every step keeps the invariant.
* `ProcReachable.inv`: the invariant in every reachable state.
-/

namespace Pintos

open Verif Verif.Outcome Function List

/-- The program points with no role towards a child, in the running phase. -/
def ProcPc.isPlain : ProcPc → Bool
  | .user | .execCreate | .execWait none | .execRet _ | .waitScan _ | .exitUp | .idle => true
  | _ => false

theorem ProcPc.role_of_isPlain {pc : ProcPc} (h : pc.isPlain = true) (c : Pid) :
    pc.role c = .none := by
  unfold isPlain at h
  split at h <;> first | rfl | cases h

theorem Proc.phase_of_isPlain {x : Proc} (h : x.pc.isPlain = true) : x.phase = .running := by
  unfold phase
  unfold ProcPc.isPlain at h
  split at h <;> simp_all

/-- A change of a thread that leaves its family and its semaphores alone. -/
def Proc.Keeps (g : Proc → Proc) : Prop :=
  ∀ y, (g y).parent = y.parent ∧ (g y).childList = y.childList ∧
    (g y).createSema = y.createSema ∧ (g y).parentSema = y.parentSema ∧
    (g y).parentSema2 = y.parentSema2

theorem Proc.keeps_goto (pc : ProcPc) : Proc.Keeps fun y => { y with pc := pc } :=
  fun _ => ⟨rfl, rfl, rfl, rfl, rfl⟩

theorem Proc.keeps_enterExit (n : ℤ) :
    Proc.Keeps fun y => { y with exitNumber := n, pc := .exitUp } :=
  fun _ => ⟨rfl, rfl, rfl, rfl, rfl⟩

/-- The semaphores of a running thread are down. -/
theorem Proc.semasOk_of_running {x : Proc} (h : x.phase = .running) :
    x.SemasOk ↔ x.parentSema = 0 ∧ x.parentSema2 = 0 := by
  unfold SemasOk
  unfold phase at h
  split
  · rename_i hpc
    rw [hpc] at h
    dsimp only at h
    split at h
    · cases h
    · split at h <;> cases h
  · exact Iff.rfl

namespace Procs

variable {c p : Pid} {x y : Proc} {s s' : Procs}

/-! ### Steps that change no role and no phase -/

theorem procs_emit_modify (s : Procs) (t : Pid) (g : Proc → Proc) (e : Event) (p : Pid) :
    ((s.modify t g).emit e).procs p = (s.procs p).map (if p = t then g else id) :=
  procs_modify s t g p

/-- Two threads change. -/
theorem procs_modify_modify (s : Procs) (h : c ≠ p) (g k : Proc → Proc) (q : Pid) :
    ((s.modify p g).modify c k).procs q =
      (s.procs q).map (if q = p then g else if q = c then k else id) := by
  rw [procs_modify, procs_modify]
  rcases eq_or_ne q c with rfl | hq
  · simp [h]
  · simp [hq]

theorem procs_modify_modify' (s : Procs) (h : c ≠ p) (g k : Proc → Proc) (q : Pid) :
    ((s.modify c k).modify p g).procs q =
      (s.procs q).map (if q = p then g else if q = c then k else id) := by
  rw [procs_modify, procs_modify]
  rcases eq_or_ne q p with rfl | hq
  · simp [h.symm]
  · simp [hq]

/-- A thread goes on in the same role towards its children and in the same phase. -/
theorem Inv.quiet {t : Pid} {g : Proc → Proc} (h : Inv s) (hx : s.procs t = some x)
    (hprocs : ∀ p, s'.procs p = (s.procs p).map (if p = t then g else id))
    (hnext : s'.nextTid = s.nextTid) (hparent : ∀ y, (g y).parent = y.parent)
    (hrole : ∀ c, (g x).pc.role c = x.pc.role c) (hphase : (g x).phase = x.phase)
    (hnumber : x.phase = .collected → (g x).exitNumber = x.exitNumber)
    (hlist : (g x).childList = x.childList) (hsema : (g x).createSema = x.createSema)
    (hsemas : (g x).SemasOk) (hcreate : (g x).CreateOk) : Inv s' := by
  refine h.modify hx hprocs hnext hparent hsemas ?_ ?_ ?_ ?_ ?_ hcreate
  · exact fun parent hj => hj.congr_child hphase hnumber
  · exact fun c child _ hj => hj.congr_parent (hrole c) (by rw [hlist]) hsema
  · intro h₁ h₂
    rw [hphase]
    exact ⟨h₁, h₂⟩
  · rw [hlist]
  · intro c hc
    rw [hrole] at hc
    exact .inl hc

/-- A thread goes on between two program points without a role towards a child. -/
theorem Inv.plain {t : Pid} {g : Proc → Proc} (h : Inv s) (hx : s.procs t = some x)
    (hpc : x.pc.isPlain = true)
    (hprocs : ∀ p, s'.procs p = (s.procs p).map (if p = t then g else id))
    (hnext : s'.nextTid = s.nextTid) (hg : Proc.Keeps g) (hpc' : (g x).pc.isPlain = true) :
    Inv s' := by
  obtain ⟨-, hlist, hsema, hps, hps2⟩ := hg x
  refine h.quiet hx hprocs hnext (fun y => (hg y).1) (fun c => ?_) ?_ ?_ hlist hsema ?_ ?_
  · rw [ProcPc.role_of_isPlain hpc, ProcPc.role_of_isPlain hpc']
  · rw [Proc.phase_of_isPlain hpc, Proc.phase_of_isPlain hpc']
  · intro hp
    rw [Proc.phase_of_isPlain hpc] at hp
    cases hp
  · rw [Proc.semasOk_of_running (Proc.phase_of_isPlain hpc'), hps, hps2]
    exact (Proc.semasOk_of_running (Proc.phase_of_isPlain hpc)).mp (h.semas t x hx)
  · left
    rw [hsema]
    refine (h.create t x hx).resolve_right ?_
    rintro ⟨-, c, hc⟩
    rw [hc] at hpc
    cases hpc

/-! ### Steps of a parent by itself -/

/-- A running thread changes what it has to do with its children. -/
theorem Inv.modifyRunning {t : Pid} {g : Proc → Proc} (h : Inv s)
    (hx : s.procs t = some x)
    (hprocs : ∀ p, s'.procs p = (s.procs p).map (if p = t then g else id))
    (hnext : s'.nextTid = s.nextTid)
    (hg : ∀ y, (g y).parent = y.parent ∧ (g y).parentSema = y.parentSema ∧
      (g y).parentSema2 = y.parentSema2)
    (hphase : x.phase = .running) (hphase' : (g x).phase = .running)
    (hdown : ∀ c child, s.procs c = some child → JointOk x c child → JointOk (g x) c child)
    (hlist : (g x).childList.Sublist x.childList)
    (hrole : ∀ c, (g x).pc.role c ≠ .none → x.pc.role c ≠ .none ∨ c ∈ x.childList)
    (hcreate : (g x).CreateOk) : Inv s' := by
  obtain ⟨-, hps, hps2⟩ := hg x
  refine h.modify hx hprocs hnext (fun y => (hg y).1) ?_ (fun parent hj => ?_) hdown
    (fun _ _ => by simp [hphase']) hlist hrole hcreate
  · rw [Proc.semasOk_of_running hphase', hps, hps2]
    exact (Proc.semasOk_of_running hphase).mp (h.semas t x hx)
  · refine hj.congr_child (hphase'.trans hphase.symm) fun hc => ?_
    rw [hphase] at hc
    cases hc

/-- The `create_sema` of a thread that does not wait for a child to load is down. -/
theorem Inv.createSema_eq (h : Inv s) (hx : s.procs p = some x)
    (hpc : ∀ c, x.pc ≠ .execWait (some c)) : x.createSema = 0 := by
  refine (h.create p x hx).resolve_right ?_
  rintro ⟨-, c, hc⟩
  exact hpc c hc

/-- `process_execute` gets through its `sema_down`. -/
theorem Inv.execDown (h : Inv s) (hx : s.procs p = some x) (hpc : x.pc = .execWait (some c))
    (hsema : 0 < x.createSema) :
    Inv (s.modify p fun x =>
      { x with createSema := x.createSema - 1, pc := .execRet (some c) }) := by
  have hone : x.createSema = 1 := by
    rcases h.create p x hx with h0 | ⟨h1, -⟩
    · omega
    · exact h1
  refine h.modifyRunning hx (procs_modify _ _ _) rfl (fun _ => ⟨rfl, rfl, rfl⟩)
    (by rw [Proc.phase, hpc]) rfl ?_ (List.Sublist.refl _) (fun d hd => absurd rfl hd)
    (.inl (by simp [hone]))
  · intro d child _ hj
    -- the child it waited for has reported, so its role can end
    have hrole : x.pc.role d = .loading ∨ x.pc.role d = .none := by
      rw [hpc]
      rcases eq_or_ne c d with rfl | hne
      · exact .inl (role_self c).1
      · exact .inr (role_other hne).1
    unfold JointOk at hj ⊢
    cases hp : child.phase with
    | starting => simp [hp, hone] at hj
    | running | exited => rw [hp] at hj; exact ⟨hj.1, .inl rfl⟩
    | collected => rcases hrole with hr | hr <;> simp [hp, hr] at hj
    | released => rw [hp] at hj; exact ⟨rfl, hj.2⟩

/-- `process_wait` finds the child. -/
theorem Inv.waitFound {tid : ℤ} (h : Inv s) (hx : s.procs p = some x) (hpc : x.pc = .waitScan tid)
    (hc : c ∈ x.childList) : Inv (s.goto p (.waitDown c)) := by
  have hnone : ∀ d, x.pc.role d = .none := by rw [hpc]; exact fun _ => rfl
  have hsema : x.createSema = 0 := h.createSema_eq hx (by simp [hpc])
  refine h.modifyRunning hx (procs_modify _ _ _) rfl (fun _ => ⟨rfl, rfl, rfl⟩)
    (by rw [Proc.phase, hpc]) rfl ?_ (List.Sublist.refl _) ?_ (.inl hsema)
  · intro d child _ hj
    rcases eq_or_ne c d with rfl | hne
    · unfold JointOk at hj ⊢
      rw [hnone] at hj
      cases hp : child.phase with
      | starting | collected => simp [hp] at hj
      | running | exited => exact ⟨hc, .inr (.inl (role_self c).2.1)⟩
      | released => simp [hp, hc] at hj
    · exact hj.congr_parent ((role_other hne).2.1.trans (hnone d).symm) Iff.rfl rfl
  · intro d hd
    rcases eq_or_ne c d with rfl | hne
    · exact .inr hc
    · exact absurd (role_other hne).2.1 hd

/-- `process_wait` removes the child from the list. -/
theorem Inv.waitRemove (h : Inv s) (hx : s.procs p = some x) (hpc : x.pc = .waitRemove c) :
    Inv (s.modify p fun x => { x with childList := x.childList.erase c, pc := .waitRead c }) := by
  have hsema : x.createSema = 0 := h.createSema_eq hx (by simp [hpc])
  refine h.modifyRunning hx (procs_modify _ _ _) rfl (fun _ => ⟨rfl, rfl, rfl⟩)
    (by rw [Proc.phase, hpc]) rfl ?_ erase_sublist ?_ (.inl hsema)
  · intro d child _ hj
    rcases eq_or_ne c d with rfl | hne
    · have hrole : x.pc.role c = .removing := by rw [hpc]; exact (role_self c).2.2.1
      unfold JointOk at hj ⊢
      rw [hrole] at hj
      cases hp : child.phase with
      | collected => exact .inr ⟨(h.nodup p x hx).not_mem_erase, .inl (role_self c).2.2.2.1⟩
      | _ => simp [hp] at hj
    · refine hj.congr_parent ?_ (mem_erase_of_ne hne.symm) rfl
      rw [hpc]
      exact (role_other hne).2.2.2.1.trans (role_other hne).2.2.1.symm
  · intro d hd
    left
    rw [hpc]
    rcases eq_or_ne c d with rfl | hne
    · rw [(role_self c).2.2.1]
      decide
    · exact absurd (role_other hne).2.2.2.1 hd

/-- `process_wait` reads the exit number. -/
theorem Inv.waitRead (h : Inv s) (hx : s.procs p = some x) (hpc : x.pc = .waitRead c)
    (hy : s.procs c = some y) : Inv (s.goto p (.waitUp c y.exitNumber)) := by
  have hsema : x.createSema = 0 := h.createSema_eq hx (by simp [hpc])
  refine h.modifyRunning hx (procs_modify _ _ _) rfl (fun _ => ⟨rfl, rfl, rfl⟩)
    (by rw [Proc.phase, hpc]) rfl ?_ (List.Sublist.refl _) ?_ (.inl hsema)
  · intro d child hd hj
    rcases eq_or_ne c d with rfl | hne
    · obtain rfl := Option.mem_unique hd hy
      have hrole : x.pc.role c = .reading := by rw [hpc]; exact (role_self c).2.2.2.1
      unfold JointOk at hj ⊢
      rw [hrole] at hj
      cases hp : child.phase with
      | collected =>
        simp only [hp, reduceCtorEq, false_and, true_or, and_true, false_or] at hj
        exact .inr ⟨hj, .inr ((role_self c).2.2.2.2 _)⟩
      | _ => simp [hp] at hj
    · refine hj.congr_parent ?_ Iff.rfl rfl
      rw [hpc]
      exact ((role_other hne).2.2.2.2 _).trans (role_other hne).2.2.2.1.symm
  · intro d hd
    left
    rw [hpc]
    rcases eq_or_ne c d with rfl | hne
    · rw [(role_self c).2.2.2.1]
      decide
    · exact absurd ((role_other hne).2.2.2.2 _) hd

/-! ### Steps of a parent and a child -/

/-- `start_process` stores the result of the load in the parent. -/
theorem Inv.startReport {success : Bool} (h : Inv s) (hy : s.procs c = some y)
    (hpc : y.pc = .startReport success) :
    Inv ((s.modify y.parent fun x => { x with createSuccess := success }).goto c
      (.startUp success)) := by
  have hphase : y.phase = .starting := by rw [Proc.phase, hpc]
  obtain ⟨x, hx, hxpc, hmem, hsema, hne⟩ := h.parent_of_starting hy hphase
  have hysema : y.createSema = 0 := h.createSema_eq hy (by simp [hpc])
  refine h.modify₂ (g := fun x => { x with createSuccess := success })
    (k := fun y => { y with pc := .startUp success }) hne hx hy rfl
    (procs_modify_modify s hne _ _) rfl (fun _ => ⟨rfl, rfl⟩) ⟨h.semas _ x hx, ?_⟩ ?_ ?_ ?_ ?_
    (fun h₁ h₂ => ⟨h₁, h₂⟩) ⟨rfl, rfl⟩ (fun _ => id) (fun d hd => absurd rfl hd)
    ⟨h.create _ x hx, .inl hysema⟩
  · have := h.semas c y hy
    rwa [Proc.SemasOk, hpc] at this
  · rw [JointOk, show Proc.phase { y with pc := .startUp success } = .starting from rfl]
    exact ⟨by rw [hxpc]; exact (role_self c).1, hmem, hsema⟩
  · exact fun parent hj => hj
  · exact fun d child _ hj => hj
  · refine fun d child hj => hj.congr_parent ?_ Iff.rfl rfl
    rw [hpc]
    rfl

/-- `start_process` ups the parent's `create_sema` and goes on to the user program or to
`process_exit`. -/
theorem Inv.startUp {success : Bool} {k : Proc → Proc}
    (h : Inv s) (hy : s.procs c = some y) (hpc : y.pc = .startUp success) (hk : Proc.Keeps k)
    (hpc' : (k y).pc.isPlain = true)
    (hprocs : ∀ q, s'.procs q = (s.procs q).map (if q = y.parent
      then fun x => { x with createSema := x.createSema + 1 } else if q = c then k else id))
    (hnext : s'.nextTid = s.nextTid) : Inv s' := by
  have hphase : y.phase = .starting := by rw [Proc.phase, hpc]
  obtain ⟨x, hx, hxpc, hmem, hsema, hne⟩ := h.parent_of_starting hy hphase
  have hysema : y.createSema = 0 := h.createSema_eq hy (by simp [hpc])
  have hphase' : (k y).phase = .running := Proc.phase_of_isPlain hpc'
  obtain ⟨-, hlist, hkc, hps, hps2⟩ := hk y
  refine h.modify₂ hne hx hy rfl hprocs hnext (fun z => ⟨rfl, (hk z).1⟩) ⟨h.semas _ x hx, ?_⟩ ?_ ?_
    ?_ ?_ (fun h₁ h₂ => ⟨h₁, h₂⟩) ⟨rfl, hlist⟩ (fun _ => id)
    (fun d hd => absurd (ProcPc.role_of_isPlain hpc' d) hd)
    ⟨.inr ⟨by simp [hsema], c, hxpc⟩, .inl (hkc.trans hysema)⟩
  · rw [Proc.semasOk_of_running hphase', hps, hps2]
    have := h.semas c y hy
    rwa [Proc.SemasOk, hpc] at this
  · rw [JointOk, hphase']
    exact ⟨hmem, .inr (.inr ⟨by rw [hxpc]; exact (role_self c).1, by simp [hsema]⟩)⟩
  · exact fun parent hj => hj
  · -- the others are not the one the parent waits for
    intro d child hd hj
    have hrole : x.pc.role d = .none := by rw [hxpc]; exact (role_other hd.symm).1
    unfold JointOk at hj ⊢
    simp only [hrole, reduceCtorEq, false_and, or_false] at hj ⊢
    exact hj
  · refine fun d child hj => hj.congr_parent ?_ (by rw [hlist]) hkc
    rw [hpc]
    exact ProcPc.role_of_isPlain hpc' d

/-- A thread whose `parent_sema` is up has exited. -/
theorem exited_of_parentSema (h : y.SemasOk) (hsema : 0 < y.parentSema) :
    y.pc = .exitDown ∧ y.parentSema = 1 ∧ y.parentSema2 = 0 := by
  unfold Proc.SemasOk at h
  split at h
  · rename_i hpc
    refine ⟨hpc, ?_⟩
    omega
  · omega

/-- Threads at different places are different. -/
theorem ne_of_pc (hx : s.procs p = some x) (hy : s.procs c = some y) (hpc : x.pc ≠ y.pc) :
    p ≠ c := by
  rintro rfl
  exact hpc (congrArg Proc.pc (Option.mem_unique hx hy))

/-- A thread does not wait for itself. -/
theorem Inv.ne_of_waitDown (h : Inv s) (hx : s.procs p = some x) (hpc : x.pc = .waitDown c)
    (hy : s.procs c = some y) (hsema : 0 < y.parentSema) : c ≠ p := by
  obtain ⟨hypc, -⟩ := exited_of_parentSema (h.semas c y hy) hsema
  exact ne_of_pc hy hx (by simp [hpc, hypc])

/-- `process_wait` gets through its `sema_down`. -/
theorem Inv.waitDown (h : Inv s) (hx : s.procs p = some x) (hpc : x.pc = .waitDown c)
    (hy : s.procs c = some y) (hparent : y.parent = p) (hsema : 0 < y.parentSema) :
    Inv ((s.modify c fun y => { y with parentSema := y.parentSema - 1 }).goto p
      (.waitRemove c)) := by
  obtain ⟨hypc, hps, hps2⟩ := exited_of_parentSema (h.semas c y hy) hsema
  have hne := h.ne_of_waitDown hx hpc hy hsema
  have hj := h.joint c y x hy (hparent ▸ hx)
  rw [JointOk, show y.phase = .exited by simp [Proc.phase, hypc, hps]] at hj
  have hxsema : x.createSema = 0 := h.createSema_eq hx (by simp [hpc])
  refine h.modify₂ (g := fun x => { x with pc := .waitRemove c })
    (k := fun y => { y with parentSema := y.parentSema - 1 }) hne hx hy hparent
    (procs_modify_modify' s hne _ _) rfl
    (fun _ => ⟨rfl, rfl⟩) ⟨?_, ?_⟩ ?_ ?_ ?_ ?_ ?_ ⟨rfl, rfl⟩ ?_ (fun _ => id)
    ⟨.inl hxsema, h.create c y hy⟩
  · have := h.semas p x hx
    rwa [Proc.SemasOk, hpc] at this
  · simp [Proc.SemasOk, hypc, hps, hps2]
  · rw [JointOk, show Proc.phase { y with parentSema := y.parentSema - 1 } = .collected by
      simp [Proc.phase, hypc, hps, hps2]]
    exact .inl ⟨(role_self c).2.2.1, hj.1⟩
  · refine fun parent hj => hj.congr_child ?_ fun _ => rfl
    rw [Proc.phase, Proc.phase, hpc]
  · intro d child hd hj
    refine hj.congr_parent ?_ Iff.rfl rfl
    rw [hpc]
    exact (role_other hd.symm).2.2.1.trans (role_other hd.symm).2.1.symm
  · exact fun d child hj => hj
  · intro _ _
    exact ⟨by simp [Proc.phase], by simp [Proc.phase]⟩
  · intro d hd
    rw [hpc]
    rcases eq_or_ne c d with rfl | hcd
    · rw [(role_self c).2.1]
      decide
    · exact absurd (role_other hcd).2.2.1 hd

theorem phase_eq_collected (h : y.phase = .collected) :
    y.pc = .exitDown ∧ y.parentSema ≠ 1 ∧ y.parentSema2 = 0 := by
  unfold Proc.phase at h
  split at h <;> (try split at h) <;> (try split at h) <;> simp_all

/-- A child whose `parent_sema2` is about to be upped has been collected. -/
theorem Inv.collected_of_waitUp {n : ℤ} (h : Inv s) (hx : s.procs p = some x)
    (hpc : x.pc = .waitUp c n) (hy : s.procs c = some y) (hparent : y.parent = p) :
    y.phase = .collected ∧ c ∉ x.childList ∧ y.exitNumber = n := by
  have hj := h.joint c y x hy (hparent ▸ hx)
  have hrole : x.pc.role c = .upping n := by rw [hpc]; exact (role_self c).2.2.2.2 n
  unfold JointOk at hj
  rw [hrole] at hj
  cases hp : y.phase with
  | collected =>
    simp only [hp, reduceCtorEq, false_and, false_or, Role.upping.injEq] at hj
    exact ⟨rfl, hj.1, hj.2.symm⟩
  | _ => simp [hp] at hj

theorem Inv.ne_of_waitUp {n : ℤ} (h : Inv s) (hx : s.procs p = some x) (hpc : x.pc = .waitUp c n)
    (hy : s.procs c = some y) (hparent : y.parent = p) : c ≠ p := by
  obtain ⟨hphase, -⟩ := h.collected_of_waitUp hx hpc hy hparent
  obtain ⟨hypc, -⟩ := phase_eq_collected hphase
  exact ne_of_pc hy hx (by simp [hpc, hypc])

/-- `process_wait` ups the child's `parent_sema2` and returns. -/
theorem Inv.waitUp {n : ℤ} {e : Event} (h : Inv s) (hx : s.procs p = some x)
    (hpc : x.pc = .waitUp c n) (hy : s.procs c = some y) (hparent : y.parent = p) :
    Inv (((s.modify c fun y => { y with parentSema2 := y.parentSema2 + 1 }).goto p
      .user).emit e) := by
  obtain ⟨hphase, hnot, -⟩ := h.collected_of_waitUp hx hpc hy hparent
  have hypc := phase_eq_collected hphase
  have hps : y.parentSema = 0 := by
    have := h.semas c y hy
    rw [Proc.SemasOk, hypc.1] at this
    omega
  have hne := h.ne_of_waitUp hx hpc hy hparent
  have hxsema : x.createSema = 0 := h.createSema_eq hx (by simp [hpc])
  refine h.modify₂ (g := fun x => { x with pc := .user })
    (k := fun y => { y with parentSema2 := y.parentSema2 + 1 }) hne hx hy hparent
    (procs_modify_modify' s hne _ _) rfl
    (fun _ => ⟨rfl, rfl⟩) ⟨?_, ?_⟩ ?_ ?_ ?_ ?_ ?_ ⟨rfl, rfl⟩ (fun d hd => absurd rfl hd)
    (fun _ => id) ⟨.inl hxsema, h.create c y hy⟩
  · have := h.semas p x hx
    rwa [Proc.SemasOk, hpc] at this
  · simp [Proc.SemasOk, hypc, hps]
  · rw [JointOk, show Proc.phase { y with parentSema2 := y.parentSema2 + 1 } = .released by
      simp [Proc.phase, hypc, hps]]
    exact ⟨rfl, hnot⟩
  · refine fun parent hj => hj.congr_child ?_ fun _ => rfl
    rw [Proc.phase, Proc.phase, hpc]
  · intro d child hd hj
    refine hj.congr_parent ?_ Iff.rfl rfl
    rw [hpc]
    exact ((role_other hd.symm).2.2.2.2 n).symm
  · exact fun d child hj => hj
  · intro _ _
    exact ⟨by simp [Proc.phase], by simp [Proc.phase]⟩

/-- `load` returns. -/
theorem Inv.loaded {b : Bool} {e : Event} (h : Inv s) (hx : s.procs p = some x)
    (hpc : x.pc = .startLoad) : Inv ((s.goto p (.startReport b)).emit e) := by
  refine h.quiet hx (procs_emit_modify _ _ _ _) rfl (fun _ => rfl) (fun c => by rw [hpc]; rfl)
    (by rw [Proc.phase, Proc.phase, hpc]) (fun _ => rfl) rfl rfl ?_
    (h.create p x hx |>.imp_right ?_)
  · have := h.semas p x hx
    rwa [Proc.SemasOk, hpc] at this
  · rintro ⟨-, c, hc⟩
    rw [hpc] at hc
    cases hc

/-! ### Steps of `process_exit` -/

/-- `process_exit` ups `parent_sema`. -/
theorem Inv.exitUp (h : Inv s) (hx : s.procs p = some x) (hpc : x.pc = .exitUp) :
    Inv (s.modify p fun x => { x with parentSema := x.parentSema + 1, pc := .exitDown }) := by
  have hphase : x.phase = .running := by rw [Proc.phase, hpc]
  obtain ⟨hps, hps2⟩ := (Proc.semasOk_of_running hphase).mp (h.semas p x hx)
  have hphase' : Proc.phase { x with parentSema := x.parentSema + 1, pc := .exitDown } =
      .exited := by simp [Proc.phase, hps]
  have hsema : x.createSema = 0 := h.createSema_eq hx (by simp [hpc])
  refine h.modify hx (procs_modify _ _ _) rfl (fun _ => rfl) (.inl ⟨by simp [hps], hps2⟩) ?_ ?_
    (fun _ _ => by simp [hphase']) (List.Sublist.refl _) (fun c hc => absurd rfl hc) (.inl hsema)
  · intro parent hj
    unfold JointOk at hj ⊢
    rw [hphase] at hj
    rw [hphase']
    exact hj
  · refine fun c child _ hj => hj.congr_parent ?_ Iff.rfl rfl
    rw [hpc]
    rfl

/-- `process_exit` gets through its `sema_down`. -/
theorem Inv.exitDown (h : Inv s) (hx : s.procs p = some x) (hpc : x.pc = .exitDown)
    (hsema : 0 < x.parentSema2) :
    Inv (s.modify p fun x => { x with parentSema2 := x.parentSema2 - 1, pc := .exitFree }) := by
  have hsemas : x.parentSema = 0 ∧ x.parentSema2 = 1 := by
    have := h.semas p x hx
    rw [Proc.SemasOk, hpc] at this
    dsimp only at this
    omega
  have hphase : x.phase = .released := by simp [Proc.phase, hpc, hsemas]
  refine h.quiet hx (procs_modify _ _ _) rfl (fun _ => rfl) (fun c => ?_) hphase.symm ?_ rfl rfl
    ⟨hsemas.1, by simp [hsemas.2]⟩ (.inl (h.createSema_eq hx (by simp [hpc]) :))
  · rw [hpc]
    rfl
  · simp [hphase]

/-- The initial thread is not freed. -/
theorem Inv.dead (h : Inv s) (hx : s.procs p = some x) (hpc : x.pc = .exitFree) :
    Inv (s.goto p .dead) := by
  have hsema : x.createSema = 0 := h.createSema_eq hx (by simp [hpc])
  refine h.quiet hx (procs_modify _ _ _) rfl (fun _ => rfl) (fun c => by rw [hpc]; rfl)
    (by rw [Proc.phase, Proc.phase, hpc]) (fun _ => rfl) rfl rfl ?_ (.inl hsema)
  have := h.semas p x hx
  rwa [Proc.SemasOk, hpc] at this

/-- The page of a thread that has exited is freed. -/
theorem Inv.free (h : Inv s) (hx : s.procs p = some x) (hpc : x.pc = .exitFree)
    (hprocs : s'.procs = update s.procs p none) (hnext : s'.nextTid = s.nextTid) :
    Inv s' := by
  have hphase : x.phase = .released := by rw [Proc.phase, hpc]
  have hold : ∀ {q y}, s'.procs q = some y → q ≠ p ∧ s.procs q = some y := by
    intro q y hy
    rw [hprocs, update_apply] at hy
    split at hy
    · cases hy
    · exact ⟨‹_›, hy⟩
  have hkeep : ∀ {q}, q ≠ p → s'.procs q = s.procs q := by
    intro q hq
    rw [hprocs, update_of_ne hq]
  -- no parent has anything to do with the freed thread any more
  have hforgotten : ∀ q parent, s.procs q = some parent → x.parent = q →
      parent.pc.role p = .none ∧ p ∉ parent.childList := by
    rintro q parent hq rfl
    have hj := h.joint p x parent hx hq
    rwa [JointOk, hphase] at hj
  have hlive : ∀ q parent c, s.procs q = some parent →
      (∃ child, s.procs c = some child ∧ child.parent = q) →
      (c = p → parent.pc.role p = .none → p ∉ parent.childList → False) →
      ∃ child, s'.procs c = some child ∧ child.parent = q := by
    rintro q parent c hq ⟨child, hc, hpar⟩ hne
    refine ⟨child, ?_, hpar⟩
    rw [hkeep ?_, hc]
    rintro rfl
    obtain rfl := Option.mem_unique hc hx
    obtain ⟨h₁, h₂⟩ := hforgotten q parent hq hpar
    exact hne rfl h₁ h₂
  refine ⟨?_, ?_, ?_, ?_, ?_, ?_, ?_, ?_⟩
  · exact fun c child hc => h.semas c child (hold hc).2
  · exact fun c child parent hc hpar => h.joint c child parent (hold hc).2 (hold hpar).2
  · intro c child hc hnone
    rcases eq_or_ne child.parent p with hpar | hpar
    · -- the children of the freed thread become orphans
      have hj := h.joint c child x (hold hc).2 (by rw [hpar]; exact hx)
      rw [JointOk, hpc] at hj
      constructor
      · intro hp
        simp [hp, ProcPc.role] at hj
      · intro hp
        simp [hp, ProcPc.role] at hj
    · rw [hkeep hpar] at hnone
      exact h.orphan c child (hold hc).2 hnone
  · intro q parent c hq hc
    refine hlive q parent c (hold hq).2 (h.childLive q parent c (hold hq).2 hc) ?_
    rintro rfl - hnot
    exact hnot hc
  · intro q parent c hq hc
    refine hlive q parent c (hold hq).2 (h.roleLive q parent c (hold hq).2 hc) ?_
    rintro rfl hnone -
    exact hc hnone
  · exact fun q parent hq => h.create q parent (hold hq).2
  · exact fun q parent hq => h.nodup q parent (hold hq).2
  · intro c child hc
    rw [hnext]
    exact h.fresh c child (hold hc).2

/-! ### The creation of a child -/

theorem procs_initThread_parent {l : List Pid} (hx : s.procs p = some x) (hp : p ≠ s.nextTid) :
    (s.initThread p l).procs p =
      some { x with childList := l ++ [s.nextTid], pc := .execWait (some s.nextTid) } := by
  change update _ _ _ _ = _
  rw [update_of_ne hp, procs_modify, hx, if_pos rfl, Option.map_some]

theorem procs_initThread_child (s : Procs) (p : Pid) (l : List Pid) :
    (s.initThread p l).procs s.nextTid = some (.ofParent p) :=
  update_self ..

theorem procs_initThread_of_ne {q : Pid} {l : List Pid} (hp : q ≠ p) (hc : q ≠ s.nextTid) :
    (s.initThread p l).procs q = s.procs q := by
  change update _ _ _ _ = _
  rw [update_of_ne hc, procs_modify, if_neg hp, Option.map_id_fun, id]

/-- `thread_create` makes a starting child of a parent that waits for it. -/
theorem Inv.created (h : Inv s) (hx : s.procs p = some x) (hpc : x.pc = .execCreate) :
    Inv (s.initThread p x.childList) := by
  have hne : p ≠ s.nextTid := Nat.ne_of_lt (h.fresh p x hx).1
  have hp' := procs_initThread_parent (l := x.childList) hx hne
  have hnew := procs_initThread_child s p x.childList
  have hkeep : ∀ q, q ≠ p → q ≠ s.nextTid → (s.initThread p x.childList).procs q = s.procs q :=
    fun q => procs_initThread_of_ne
  have hnext : (s.initThread p x.childList).nextTid = s.nextTid + 1 := rfl
  generalize s.initThread p x.childList = s' at hp' hnew hkeep hnext ⊢
  set c := s.nextTid with hc
  set x' : Proc := { x with childList := x.childList ++ [c], pc := .execWait (some c) } with hx'
  have hfresh : s.procs c = none := by
    cases hnone : s.procs c with
    | none => rfl
    | some y => exact absurd (h.fresh c y hnone).1 (Nat.lt_irrefl _)
  have hsema : x.createSema = 0 := h.createSema_eq hx (by simp [hpc])
  have hcNot : c ∉ x.childList := by
    intro hmem
    obtain ⟨y, hy, -⟩ := h.childLive p x c hx hmem
    rw [hfresh] at hy
    cases hy
  -- a thread is the child, the parent or one of the others
  have hcases : ∀ {motive : Pid → Proc → Prop}, motive c (.ofParent p) → motive p x' →
      (∀ q y, q ≠ p → q ≠ c → s.procs q = some y → motive q y) →
      ∀ q y, s'.procs q = some y → motive q y := by
    intro motive h₁ h₂ h₃ q y hy
    rcases eq_or_ne q c with rfl | hqc
    · obtain rfl := Option.mem_unique hy hnew
      exact h₁
    · rcases eq_or_ne q p with rfl | hqp
      · obtain rfl := Option.mem_unique hy hp'
        exact h₂
      · rw [hkeep q hqp hqc] at hy
        exact h₃ q y hqp hqc hy
  have hlive : ∀ {q d}, (∃ y, s.procs d = some y ∧ y.parent = q) →
      ∃ y, s'.procs d = some y ∧ y.parent = q := by
    rintro q d ⟨y, hy, hpar⟩
    have hdc : d ≠ c := by
      rintro rfl
      rw [hfresh] at hy
      cases hy
    rcases eq_or_ne d p with rfl | hdp
    · obtain rfl := Option.mem_unique hy hx
      exact ⟨x', hp', hpar⟩
    · exact ⟨y, (hkeep d hdp hdc).trans hy, hpar⟩
  have hdown : ∀ d y, d ≠ c → JointOk x d y → JointOk x' d y := by
    intro d y hd hj
    refine hj.congr_parent ?_ (by simp [hx', hd]) rfl
    rw [hpc]
    exact (role_other hd.symm).1
  have hup : ∀ parent, JointOk parent p x → JointOk parent p x' := by
    refine fun parent hj => hj.congr_child ?_ fun _ => rfl
    rw [Proc.phase, Proc.phase, hpc]
  -- a pair of threads that were there before
  have hpair : ∀ d y, s.procs d = some y → d ≠ c → ∀ parent, s'.procs y.parent = some parent →
      JointOk parent d y := by
    intro d y hy hdc
    have hne : y.parent ≠ c := Nat.ne_of_lt (h.fresh d y hy).2
    have hj := h.joint d y
    intro parent hpar
    rcases eq_or_ne y.parent p with heq | hyp
    · rw [heq, hp'] at hpar
      cases hpar
      exact hdown d y hdc (hj x hy (by rw [heq]; exact hx))
    · rw [hkeep _ hyp hne] at hpar
      exact hj parent hy hpar
  refine ⟨?_, ?_, ?_, ?_, ?_, ?_, ?_, ?_⟩
  · refine hcases (motive := fun _ y => y.SemasOk) ⟨rfl, rfl⟩ ?_ fun q y _ _ hy => h.semas q y hy
    have := h.semas p x hx
    rwa [Proc.SemasOk, hpc] at this
  · intro d y parent hd
    refine hcases (motive := fun d y => s'.procs y.parent = some parent → JointOk parent d y)
      ?_ ?_ ?_ d y hd
    · intro hpar
      rw [Proc.ofParent, hp'] at hpar
      cases hpar
      exact ⟨(role_self c).1, mem_append_right _ mem_cons_self, hsema⟩
    · exact fun hpar => hup parent (hpair p x hx hne parent hpar)
    · exact fun q z _ hqc hz hpar => hpair q z hz hqc parent hpar
  · intro d y hd
    refine hcases (motive := fun _ y => s'.procs y.parent = none →
      y.phase ≠ .starting ∧ y.phase ≠ .collected) ?_ ?_ ?_ d y hd
    · intro hnone
      rw [Proc.ofParent, hp'] at hnone
      cases hnone
    · exact fun _ => ⟨by simp [Proc.phase, hx'], by simp [Proc.phase, hx']⟩
    · intro q z _ _ hz hnone
      have hne : z.parent ≠ c := Nat.ne_of_lt (h.fresh q z hz).2
      have hne' : z.parent ≠ p := by
        intro heq
        rw [heq, hp'] at hnone
        cases hnone
      rw [hkeep _ hne' hne] at hnone
      exact h.orphan q z hz hnone
  · intro q y d hq
    refine hcases (motive := fun q y => d ∈ y.childList →
      ∃ child, s'.procs d = some child ∧ child.parent = q) ?_ ?_ ?_ q y hq
    · exact fun hd => absurd hd not_mem_nil
    · intro hd
      rcases mem_append.mp hd with hd | hd
      · exact hlive (h.childLive p x d hx hd)
      · rw [mem_singleton.mp hd]
        exact ⟨_, hnew, rfl⟩
    · exact fun q z _ _ hz hd => hlive (h.childLive q z d hz hd)
  · intro q y d hq
    refine hcases (motive := fun q y => y.pc.role d ≠ .none →
      ∃ child, s'.procs d = some child ∧ child.parent = q) ?_ ?_ ?_ q y hq
    · exact fun hd => absurd rfl hd
    · intro hd
      rcases eq_or_ne c d with rfl | hcd
      · exact ⟨_, hnew, rfl⟩
      · exact absurd (role_other hcd).1 hd
    · exact fun q z _ _ hz hd => hlive (h.roleLive q z d hz hd)
  · exact hcases (motive := fun _ y => y.CreateOk) (.inl rfl) (.inl hsema)
      fun q y _ _ hy => h.create q y hy
  · refine hcases (motive := fun _ y => y.childList.Nodup) nodup_nil ?_
      fun q y _ _ hy => h.nodup q y hy
    exact nodup_append'.mpr ⟨h.nodup p x hx, nodup_singleton c,
      disjoint_singleton.mpr hcNot⟩
  · have hle : ∀ q y, s.procs q = some y → q < c + 1 ∧ y.parent < c + 1 := by
      intro q y hy
      obtain ⟨h₁, h₂⟩ := h.fresh q y hy
      exact ⟨Nat.lt_succ_of_lt h₁, Nat.lt_succ_of_lt h₂⟩
    rw [hnext]
    exact hcases (motive := fun q y => q < c + 1 ∧ y.parent < c + 1)
      ⟨Nat.lt_succ_self c, (hle p x hx).1⟩ (hle p x hx) fun q y _ _ hy => hle q y hy

/-! ### Whole runs -/

/-- **Every step keeps the invariant.** -/
theorem Step.inv {a : ProcAction} (h : Inv s) (hstep : Step s a s') : Inv s' := by
  cases hstep with
  | exec hx hpc | createFail hx hpc | wait tid hx hpc _ =>
    exact h.plain hx (by rw [hpc]; rfl) (procs_modify _ _ _) rfl (Proc.keeps_goto _) rfl
  | execFail hx hpc | execRet hx hpc =>
    refine h.plain hx (by rw [hpc]; rfl) (procs_emit_modify _ _ _ _) rfl (Proc.keeps_goto _) ?_
    split <;> rfl
  | create hx hpc => exact h.created hx hpc
  | load b hx hpc => exact h.loaded hx hpc
  | exit n hx hpc =>
    exact h.plain hx (by rw [hpc]; rfl) (procs_emit_modify _ _ _ _) rfl
      (Proc.keeps_enterExit _) rfl
  | @execDown p x c hx hpc hsema =>
    cases c with
    | some c => exact h.execDown hx hpc hsema
    | none =>
      -- nobody ups the semaphore of a parent without a child
      have := h.createSema_eq hx (by simp [hpc])
      omega
  | startReport hy hpc hx => exact h.startReport hy hpc
  | @startFail c y x hy hpc hx =>
    obtain ⟨-, -, -, -, -, hne⟩ := h.parent_of_starting hy (by rw [Proc.phase, hpc])
    exact h.startUp hy hpc (Proc.keeps_enterExit y.exitNumber) rfl
      (procs_modify_modify s hne _ _) rfl
  | @startUser c y x hy hpc hx =>
    obtain ⟨-, -, -, -, -, hne⟩ := h.parent_of_starting hy (by rw [Proc.phase, hpc])
    exact h.startUp hy hpc (Proc.keeps_goto .user) rfl (procs_modify_modify s hne _ _) rfl
  | waitMiss hx hpc hmiss =>
    exact h.plain hx (by rw [hpc]; rfl) (procs_emit_modify _ _ _ _) rfl (Proc.keeps_goto _) rfl
  | waitFound hx hpc hc => exact h.waitFound hx hpc hc
  | waitDown hx hpc hy hparent hsema => exact h.waitDown hx hpc hy hparent hsema
  | waitRemove hx hpc => exact h.waitRemove hx hpc
  | waitRead hx hpc hy => exact h.waitRead hx hpc hy
  | waitUp hx hpc hy hparent => exact h.waitUp hx hpc hy hparent
  | exitUp hx hpc => exact h.exitUp hx hpc
  | exitDown hx hpc hsema => exact h.exitDown hx hpc hsema
  | exitDead hx hpc _ => exact h.dead hx hpc
  | free hx hpc _ => exact h.free hx hpc rfl rfl

end Procs

/-- A statement about every thread of the initial state is one about the two threads. -/
theorem procsInit_cases {motive : Pid → Proc → Prop}
    (hmain : motive mainTid { Proc.ofParent mainTid with childList := [mainTid, 2], pc := .user })
    (hidle : motive 2 { Proc.ofParent mainTid with pc := .idle }) :
    ∀ p x, procsInit.procs p = some x → motive p x := by
  intro p x hx
  simp only [procsInit] at hx
  split at hx
  · cases hx
    subst p
    exact hmain
  · split at hx
    · cases hx
      subst p
      exact hidle
    · cases hx

/-- The invariant after `thread_start`. -/
theorem procsInit_inv : procsInit.Inv := by
  have hchild : ∀ c ∈ [mainTid, 2], ∃ y, procsInit.procs c = some y ∧ y.parent = mainTid := by
    simp [procsInit, mainTid]
  refine ⟨?_, ?_, ?_, ?_, ?_, ?_, ?_, ?_⟩
  · exact procsInit_cases (motive := fun _ x => x.SemasOk) ⟨rfl, rfl⟩ ⟨rfl, rfl⟩
  · intro c y x hy
    refine procsInit_cases (motive := fun c y => procsInit.procs y.parent = some x →
      JointOk x c y) ?_ ?_ c y hy
    · intro hx
      cases hx
      exact ⟨mem_cons_self, .inl rfl⟩
    · intro hx
      cases hx
      exact ⟨mem_cons_of_mem _ mem_cons_self, .inl rfl⟩
  · refine procsInit_cases (motive := fun _ y => procsInit.procs y.parent = none →
      y.phase ≠ .starting ∧ y.phase ≠ .collected) ?_ ?_ <;> exact fun hnone => nomatch hnone
  · intro p x c hx
    exact procsInit_cases (motive := fun p x => c ∈ x.childList →
      ∃ y, procsInit.procs c = some y ∧ y.parent = p) (hchild c) (fun hc => nomatch hc) p x hx
  · intro p x c hx
    exact procsInit_cases (motive := fun p x => x.pc.role c ≠ .none →
      ∃ y, procsInit.procs c = some y ∧ y.parent = p) (absurd rfl) (absurd rfl) p x hx
  · exact procsInit_cases (motive := fun _ x => x.CreateOk) (.inl rfl) (.inl rfl)
  · exact procsInit_cases (motive := fun _ x => x.childList.Nodup) (by decide) (by decide)
  · exact procsInit_cases (motive := fun c x => c < procsInit.nextTid ∧
      x.parent < procsInit.nextTid) (by decide) (by decide)

/-- **The invariant in every reachable state.** -/
theorem ProcReachable.inv {C : Procs → ProcAction → Prop} {s : Procs} (h : ProcReachable C s) :
    s.Inv :=
  h.invariant procsInit_inv fun _ a _ hi _ hstep => ((Procs.step_spec hi a).of_eq_ok hstep).inv hi

end Pintos
