import Pintos.ProcessSafety

/-!
# How One Thread Moves

The thread that takes a step follows an edge of its own control flow, and the others stay
where they are: what another thread's step can do to a thread is to store into its
semaphores and its `create_success`. An invariant about where threads are is a case
analysis over the edges.

## Main results

* `Step.other`: only its own steps move a thread.
* `Step.origin`: where a thread of the next state comes from.
* `Step.goesOn`: the thread that takes a step follows an `Edge`.
-/

namespace Pintos

open Verif Verif.Outcome Function

/-- The thread that takes the step. -/
def ProcAction.actor : ProcAction → Pid
  | .exec p _ | .create p _ | .load p _ | .wait p _ | .exit p _ | .run p => p

namespace Procs

variable {q t : Pid} {x x' y : Proc} {g : Proc → Proc} {a : ProcAction} {s s' : Procs}

/-- The thread `t` is at `pc`. -/
def At (s : Procs) (t : Pid) (pc : ProcPc) : Prop :=
  ∃ x, s.procs t = some x ∧ x.pc = pc

/-! ### What a step leaves alone -/

theorem procs_modify_self (h : s.procs t = some x) : (s.modify t g).procs t = some (g x) := by
  rw [procs_modify, h, if_pos rfl, Option.map_some]

theorem eq_of_procs_modify (h : s.procs t = some x) (hy : (s.modify t g).procs t = some y) :
    y = g x :=
  Option.mem_unique hy (procs_modify_self h)

theorem procs_modify_of_ne (h : q ≠ t) : (s.modify t g).procs q = s.procs q := by
  rw [procs_modify, if_neg h, Option.map_id_fun, id]

theorem procs_modify_none (t : Pid) (g : Proc → Proc) (h : s.procs q = none) :
    (s.modify t g).procs q = none := by
  rw [procs_modify, h, Option.map_none]

theorem exists_procs_modify (h : ∃ x, s.procs q = some x) :
    ∃ x, (s.modify t g).procs q = some x := by
  obtain ⟨x, hx⟩ := h
  rw [procs_modify, hx]
  exact ⟨_, rfl⟩

/-- The parts of a thread that only its own steps change. -/
def SameProc (x x' : Proc) : Prop :=
  x'.pc = x.pc ∧ x'.parent = x.parent ∧ x'.childList = x.childList ∧
    x'.exitNumber = x.exitNumber

theorem SameProc.refl (x : Proc) : SameProc x x :=
  ⟨rfl, rfl, rfl, rfl⟩

/-- A store into semaphores. -/
theorem exists_sameProc_modify (t : Pid) (g : Proc → Proc) (hx : s.procs q = some x)
    (hg : ∀ y, SameProc y (g y)) : ∃ x', (s.modify t g).procs q = some x' ∧ SameProc x x' := by
  rcases eq_or_ne q t with rfl | hq
  · exact ⟨g x, procs_modify_self hx, hg x⟩
  · exact ⟨x, (procs_modify_of_ne hq).trans hx, .refl x⟩

/-- A thread stores into another thread's semaphores and goes on. -/
theorem exists_sameProc_modify_modify {r : Pid} {k : Proc → Proc} (hx : s.procs q = some x)
    (hr : q ≠ r) (hg : ∀ y, SameProc y (g y)) :
    ∃ x', ((s.modify t g).modify r k).procs q = some x' ∧ SameProc x x' := by
  rw [procs_modify_of_ne hr]
  exact exists_sameProc_modify t g hx hg

/-- **Only its own steps move a thread.** -/
theorem Step.other (h : Inv s) (hstep : Step s a s') (hx : s.procs t = some x) (ht : t ≠ a.actor) :
    ∃ x', s'.procs t = some x' ∧ SameProc x x' := by
  cases hstep with
  | create _ _ =>
    have hne : t ≠ s.nextTid := Nat.ne_of_lt (h.fresh t x hx).1
    exact ⟨x, (procs_initThread_of_ne ht hne).trans hx, .refl x⟩
  | startReport | startFail | startUser | waitDown | waitUp =>
    exact exists_sameProc_modify_modify hx ht fun y => ⟨rfl, rfl, rfl, rfl⟩
  | free _ _ _ => exact ⟨x, (update_of_ne ht ..).trans hx, .refl x⟩
  | _ =>
    exact ⟨x, (procs_modify_of_ne ht).trans hx, .refl x⟩

/-! ### Control flow -/

/-- Where a thread comes from: it took the step, another did, or it is the new one. -/
theorem Step.origin (h : Inv s) (hstep : Step s a s') (hy : s'.procs t = some y) :
    (t = a.actor ∧ ∃ x, s.procs t = some x) ∨
    (t ≠ a.actor ∧ ∃ x, s.procs t = some x ∧ SameProc x y) ∨
    (t = s.nextTid ∧ y = .ofParent a.actor ∧ At s a.actor .execCreate) := by
  cases hx : s.procs t with
  | some x =>
    by_cases ht : t = a.actor
    · exact .inl ⟨ht, x, rfl⟩
    · obtain ⟨y', hy', hsame⟩ := hstep.other h hx ht
      obtain rfl := Option.mem_unique hy hy'
      exact .inr (.inl ⟨ht, x, rfl, hsame⟩)
  | none =>
    -- only `init_thread` makes a thread
    cases hstep with
    | @create p x hp hpc =>
      have hpt : t ≠ p := by
        rintro rfl
        rw [hp] at hx
        cases hx
      by_cases ht : t = s.nextTid
      · subst ht
        rw [procs_initThread_child] at hy
        exact .inr (.inr ⟨rfl, (Option.some.inj hy).symm, x, hp, hpc⟩)
      · rw [procs_initThread_of_ne hpt ht, hx] at hy
        cases hy
    | free _ _ _ =>
      change update _ _ _ _ = _ at hy
      rw [update_apply, hx, ite_self] at hy
      cases hy
    | startReport | startFail | startUser | waitDown | waitUp =>
      have hnone := hy.symm.trans (procs_modify_none _ _ (procs_modify_none _ _ hx))
      exact absurd hnone (Option.some_ne_none y)
    | _ =>
      exact absurd (hy.symm.trans (procs_modify_none _ _ hx)) (Option.some_ne_none y)

/-- The edges of a thread's control flow: what it is at, and where an action takes it. -/
inductive Edge (s : Procs) (t : Pid) (x : Proc) : ProcAction → ProcPc → Prop
  | exec (hpc : x.pc = .user) : Edge s t x (.exec t true) .execCreate
  | execFail (hpc : x.pc = .user) :
      Edge s t x (.exec t false) (if t = mainTid then .waitScan (-1) else .user)
  | create (hpc : x.pc = .execCreate) :
      Edge s t x (.create t true) (.execWait (some s.nextTid))
  | createFail (hpc : x.pc = .execCreate) : Edge s t x (.create t false) (.execWait none)
  | load (b : Bool) (hpc : x.pc = .startLoad) : Edge s t x (.load t b) (.startReport b)
  | wait (tid : ℤ) (hpc : x.pc = .user) (ht : t ≠ mainTid) :
      Edge s t x (.wait t tid) (.waitScan tid)
  | exit (n : Option ℤ) (hpc : x.pc = .user) : Edge s t x (.exit t n) .exitUp
  | execDown (c : Option Pid) (hpc : x.pc = .execWait c) : Edge s t x (.run t) (.execRet c)
  | execRet (c : Option Pid) (hpc : x.pc = .execRet c) :
      Edge s t x (.run t) (if t = mainTid
        then .waitScan (if !x.createSuccess then -1 else c.elim (-1) fun c => c) else .user)
  | startReport (b : Bool) (hpc : x.pc = .startReport b) : Edge s t x (.run t) (.startUp b)
  | startFail (hpc : x.pc = .startUp false) : Edge s t x (.run t) .exitUp
  | startUser (hpc : x.pc = .startUp true) : Edge s t x (.run t) .user
  | waitMiss (tid : ℤ) (hpc : x.pc = .waitScan tid)
      (hmiss : ∀ c ∈ x.childList, (c : ℤ) ≠ tid) : Edge s t x (.run t) .user
  | waitFound (c : Pid) (hpc : x.pc = .waitScan c) : Edge s t x (.run t) (.waitDown c)
  | waitDown (c : Pid) (hpc : x.pc = .waitDown c) : Edge s t x (.run t) (.waitRemove c)
  | waitRemove (c : Pid) (hpc : x.pc = .waitRemove c) : Edge s t x (.run t) (.waitRead c)
  | waitRead (c : Pid) (n : ℤ) (hpc : x.pc = .waitRead c) : Edge s t x (.run t) (.waitUp c n)
  | waitUp (c : Pid) (n : ℤ) (hpc : x.pc = .waitUp c n) : Edge s t x (.run t) .user
  | exitUp (hpc : x.pc = .exitUp) : Edge s t x (.run t) .exitDown
  | exitDown (hpc : x.pc = .exitDown) : Edge s t x (.run t) .exitFree
  | exitDead (hpc : x.pc = .exitFree) : Edge s t x (.run t) .dead

theorem Step.nextTid_le (hstep : Step s a s') : s.nextTid ≤ s'.nextTid := by
  cases hstep with
  | create _ _ => exact Nat.le_succ _
  | _ => exact Nat.le_refl _

/-- What a thread keeps when it takes a step by itself. -/
def GoesOn (s : Procs) (a : ProcAction) (t : Pid) (x y : Proc) : Prop :=
  Edge s t x a y.pc ∧ y.parent = x.parent ∧ (y.phase = .starting → y.childList = x.childList)

theorem goesOn_modify (hx : s.procs t = some x) (hx' : s.procs t = some x')
    (hy : (s'.modify t g).procs t = some y) (hkept : s'.procs t = s.procs t)
    (hedge : Edge s t x' a (g x').pc) (hparent : (g x').parent = x'.parent)
    (hlist : (g x').phase = .starting → (g x').childList = x'.childList) : GoesOn s a t x y := by
  obtain rfl := Option.mem_unique hx' hx
  obtain rfl := eq_of_procs_modify (hkept.trans hx) hy
  exact ⟨hedge, hparent, hlist⟩

/-- **The thread that takes a step follows an edge of its control flow.** -/
theorem Step.goesOn (h : Inv s) (hstep : Step s a s') (hx : s.procs a.actor = some x)
    (hy : s'.procs a.actor = some y) : GoesOn s a a.actor x y := by
  cases hstep with
  | exec hx' hpc =>
    exact goesOn_modify hx hx' hy rfl (.exec hpc) rfl fun _ => rfl
  | execFail hx' hpc =>
    exact goesOn_modify hx hx' hy rfl (.execFail hpc) rfl fun _ => rfl
  | @create p x' hx' hpc =>
    obtain rfl := Option.mem_unique hx' hx
    have hp : p ≠ s.nextTid := Nat.ne_of_lt (h.fresh p x' hx').1
    obtain rfl := Option.mem_unique (procs_initThread_parent hx' hp) hy
    exact ⟨.create hpc, rfl, by simp [Proc.phase]⟩
  | createFail hx' hpc =>
    exact goesOn_modify hx hx' hy rfl (.createFail hpc) rfl fun _ => rfl
  | load b hx' hpc =>
    exact goesOn_modify hx hx' hy rfl (.load b hpc) rfl fun _ => rfl
  | wait tid hx' hpc hp =>
    exact goesOn_modify hx hx' hy rfl (.wait tid hpc hp) rfl fun _ => rfl
  | exit n hx' hpc =>
    exact goesOn_modify hx hx' hy rfl (.exit n hpc) rfl fun _ => rfl
  | execDown hx' hpc _ =>
    exact goesOn_modify hx hx' hy rfl (.execDown _ hpc) rfl fun _ => rfl
  | execRet hx' hpc =>
    exact goesOn_modify hx hx' hy rfl (.execRet _ hpc) rfl fun _ => rfl
  | startReport hx' hpc _ =>
    obtain ⟨-, -, -, -, -, hne⟩ := h.parent_of_starting hx' (by rw [Proc.phase, hpc])
    exact goesOn_modify hx hx' hy (procs_modify_of_ne hne) (.startReport _ hpc) rfl fun _ => rfl
  | startFail hx' hpc _ =>
    obtain ⟨-, -, -, -, -, hne⟩ := h.parent_of_starting hx' (by rw [Proc.phase, hpc])
    exact goesOn_modify hx hx' hy (procs_modify_of_ne hne) (.startFail hpc) rfl fun _ => rfl
  | startUser hx' hpc _ =>
    obtain ⟨-, -, -, -, -, hne⟩ := h.parent_of_starting hx' (by rw [Proc.phase, hpc])
    exact goesOn_modify hx hx' hy (procs_modify_of_ne hne) (.startUser hpc) rfl fun _ => rfl
  | waitMiss hx' hpc hmiss =>
    exact goesOn_modify hx hx' hy rfl (.waitMiss _ hpc hmiss) rfl fun _ => rfl
  | waitFound hx' hpc _ =>
    exact goesOn_modify hx hx' hy rfl (.waitFound _ hpc) rfl fun _ => rfl
  | waitDown hx' hpc hc _ hsema =>
    have hne := h.ne_of_waitDown hx' hpc hc hsema
    exact goesOn_modify hx hx' hy (procs_modify_of_ne hne.symm) (.waitDown _ hpc) rfl fun _ => rfl
  | waitRemove hx' hpc =>
    exact goesOn_modify hx hx' hy rfl (.waitRemove _ hpc) rfl (by simp [Proc.phase])
  | waitRead hx' hpc _ =>
    exact goesOn_modify hx hx' hy rfl (.waitRead _ _ hpc) rfl fun _ => rfl
  | waitUp hx' hpc hc hparent =>
    have hne := h.ne_of_waitUp hx' hpc hc hparent
    exact goesOn_modify hx hx' hy (procs_modify_of_ne hne.symm) (.waitUp _ _ hpc) rfl fun _ => rfl
  | exitUp hx' hpc =>
    exact goesOn_modify hx hx' hy rfl (.exitUp hpc) rfl fun _ => rfl
  | exitDown hx' hpc _ =>
    exact goesOn_modify hx hx' hy rfl (.exitDown hpc) rfl fun _ => rfl
  | exitDead hx' hpc _ =>
    exact goesOn_modify hx hx' hy rfl (.exitDead hpc) rfl fun _ => rfl
  | free _ _ _ =>
    change update _ _ _ _ = _ at hy
    rw [ProcAction.actor, update_self] at hy
    cases hy

end Procs

end Pintos
