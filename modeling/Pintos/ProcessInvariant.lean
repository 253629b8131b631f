import Mathlib.Data.List.Nodup
import Mathlib.Tactic.Common
import Pintos.Process

/-!
# What Parent and Child Know of Each Other

A child goes through five phases: it is starting until it has reported its load, running
until it has upped `parent_sema`, exited until its parent has downed that, collected
until the parent ups `parent_sema2`, and released from then on. The parent plays a role
towards the one child its present call is about. `JointOk` lists the roles and the
memberships in `child_list` that each phase allows, and `Inv` says that every parent and
child are in such a pair of states; a child whose parent is gone is neither starting nor
collected.

## Main results

* `Inv.map`: a step that changes structures pointwise keeps the invariant if it keeps
  `JointOk` for every parent and child.
* `Inv.modify`, `Inv.modify₂`: one thread changes, a parent and a child change together.
-/

namespace Pintos

open Verif Verif.Outcome

/-- What a parent's present call has to do with a child. -/
inductive Role where
  | none
  | loading
  | awaiting
  | removing
  | reading
  | upping (exitNumber : ℤ)
  deriving DecidableEq, Repr

/-- The role of a thread at `pc` towards the child `c`. -/
def ProcPc.role (pc : ProcPc) (c : Pid) : Role :=
  match pc with
  | .execWait (some d) => if d = c then .loading else .none
  | .waitDown d => if d = c then .awaiting else .none
  | .waitRemove d => if d = c then .removing else .none
  | .waitRead d => if d = c then .reading else .none
  | .waitUp d n => if d = c then .upping n else .none
  | _ => .none

/-- The phases of a child. -/
inductive Phase where
  | starting
  | running
  | exited
  | collected
  | released
  deriving DecidableEq, Repr

/-- The phase of a thread. -/
def Proc.phase (child : Proc) : Phase :=
  match child.pc with
  | .startLoad | .startReport _ | .startUp _ => .starting
  | .exitDown =>
    if child.parentSema = 1 then .exited
    else if child.parentSema2 = 0 then .collected else .released
  | .exitFree | .dead => .released
  | _ => .running

/-- The values of a thread's own semaphores. -/
def Proc.SemasOk (child : Proc) : Prop :=
  match child.pc with
  | .exitDown => (child.parentSema = 1 ∧ child.parentSema2 = 0) ∨
      (child.parentSema = 0 ∧ (child.parentSema2 = 0 ∨ child.parentSema2 = 1))
  | _ => child.parentSema = 0 ∧ child.parentSema2 = 0

/-- The states a live parent can be in, given the phase of its child `c`. -/
def JointOk (parent : Proc) (c : Pid) (child : Proc) : Prop :=
  match child.phase with
  | .starting => parent.pc.role c = .loading ∧ c ∈ parent.childList ∧ parent.createSema = 0
  | .running | .exited => c ∈ parent.childList ∧
      (parent.pc.role c = .none ∨ parent.pc.role c = .awaiting ∨
        (parent.pc.role c = .loading ∧ parent.createSema = 1))
  | .collected => (parent.pc.role c = .removing ∧ c ∈ parent.childList) ∨
      (c ∉ parent.childList ∧
        (parent.pc.role c = .reading ∨ parent.pc.role c = .upping child.exitNumber))
  | .released => parent.pc.role c = .none ∧ c ∉ parent.childList

/-- What `JointOk` reads of a parent. -/
theorem JointOk.congr_parent {parent parent' child : Proc} {c : Pid}
    (h : JointOk parent c child) (hrole : parent'.pc.role c = parent.pc.role c)
    (hlist : c ∈ parent'.childList ↔ c ∈ parent.childList)
    (hsema : parent'.createSema = parent.createSema) : JointOk parent' c child := by
  unfold JointOk at h ⊢
  rw [hrole, hlist, hsema]
  exact h

/-- What `JointOk` reads of a child. -/
theorem JointOk.congr_child {parent child child' : Proc} {c : Pid}
    (h : JointOk parent c child) (hphase : child'.phase = child.phase)
    (hnumber : child.phase = .collected → child'.exitNumber = child.exitNumber) :
    JointOk parent c child' := by
  unfold JointOk at h ⊢
  rw [hphase]
  cases hp : child.phase with
  | collected =>
    rw [hp] at h
    rw [hnumber hp]
    exact h
  | _ => rw [hp] at h; exact h

/-- A parent's `create_sema` is up only while it waits for the child that upped it. -/
def Proc.CreateOk (parent : Proc) : Prop :=
  parent.createSema = 0 ∨ (parent.createSema = 1 ∧ ∃ c, parent.pc = .execWait (some c))

/-- The invariant of the protocol. -/
structure Procs.Inv (s : Procs) : Prop where
  semas : ∀ c child, s.procs c = some child → child.SemasOk
  joint : ∀ c child parent, s.procs c = some child → s.procs child.parent = some parent →
    JointOk parent c child
  orphan : ∀ c child, s.procs c = some child → s.procs child.parent = none →
    child.phase ≠ .starting ∧ child.phase ≠ .collected
  childLive : ∀ p parent c, s.procs p = some parent → c ∈ parent.childList →
    ∃ child, s.procs c = some child ∧ child.parent = p
  roleLive : ∀ p parent c, s.procs p = some parent → parent.pc.role c ≠ .none →
    ∃ child, s.procs c = some child ∧ child.parent = p
  create : ∀ p parent, s.procs p = some parent → parent.CreateOk
  nodup : ∀ p parent, s.procs p = some parent → parent.childList.Nodup
  fresh : ∀ c child, s.procs c = some child → c < s.nextTid ∧ child.parent < s.nextTid

namespace Procs

/-! ### Pointwise changes -/

/-- **A pointwise change of the threads**: it keeps the invariant if it keeps every pair
of parent and child in order. -/
theorem Inv.map {s s' : Procs} (h : Inv s) (f : Pid → Proc → Proc)
    (hprocs : ∀ p, s'.procs p = (s.procs p).map (f p)) (hnext : s'.nextTid = s.nextTid)
    (hparent : ∀ p x, (f p x).parent = x.parent)
    (hsemas : ∀ c child, s.procs c = some child → (f c child).SemasOk)
    (hjoint : ∀ c child parent, s.procs c = some child → s.procs child.parent = some parent →
      JointOk parent c child → JointOk (f child.parent parent) c (f c child))
    (horphan : ∀ c child, s.procs c = some child → s.procs child.parent = none →
      child.phase ≠ .starting → child.phase ≠ .collected →
      (f c child).phase ≠ .starting ∧ (f c child).phase ≠ .collected)
    (hlist : ∀ p x, s.procs p = some x → (f p x).childList.Sublist x.childList)
    (hrole : ∀ p x c, s.procs p = some x → (f p x).pc.role c ≠ .none →
      x.pc.role c ≠ .none ∨ c ∈ x.childList)
    (hcreate : ∀ p x, s.procs p = some x → x.CreateOk → (f p x).CreateOk) : Inv s' := by
  have hold : ∀ p y, s'.procs p = some y → ∃ x, s.procs p = some x ∧ f p x = y := by
    intro p y hy
    rw [hprocs] at hy
    exact Option.map_eq_some_iff.mp hy
  have hnew : ∀ p x, s.procs p = some x → s'.procs p = some (f p x) := by
    intro p x hx
    rw [hprocs, hx, Option.map_some]
  have hlive : ∀ p c, (∃ child, s.procs c = some child ∧ child.parent = p) →
      ∃ child, s'.procs c = some child ∧ child.parent = p := by
    rintro p c ⟨child, hc, hp⟩
    exact ⟨f c child, hnew c child hc, (hparent c child).trans hp⟩
  refine ⟨?_, ?_, ?_, ?_, ?_, ?_, ?_, ?_⟩
  · intro c y hy
    obtain ⟨x, hx, rfl⟩ := hold c y hy
    exact hsemas c x hx
  · intro c y q hy hq
    obtain ⟨x, hx, rfl⟩ := hold c y hy
    rw [hparent] at hq
    obtain ⟨z, hz, rfl⟩ := hold _ q hq
    exact hjoint c x z hx hz (h.joint c x z hx hz)
  · intro c y hy hq
    obtain ⟨x, hx, rfl⟩ := hold c y hy
    rw [hparent, hprocs, Option.map_eq_none_iff] at hq
    obtain ⟨h₁, h₂⟩ := h.orphan c x hx hq
    exact horphan c x hx hq h₁ h₂
  · intro p y c hy hc
    obtain ⟨x, hx, rfl⟩ := hold p y hy
    exact hlive p c (h.childLive p x c hx ((hlist p x hx).subset hc))
  · intro p y c hy hc
    obtain ⟨x, hx, rfl⟩ := hold p y hy
    refine hlive p c ?_
    rcases hrole p x c hx hc with hr | hm
    · exact h.roleLive p x c hx hr
    · exact h.childLive p x c hx hm
  · intro p y hy
    obtain ⟨x, hx, rfl⟩ := hold p y hy
    exact hcreate p x hx (h.create p x hx)
  · intro p y hy
    obtain ⟨x, hx, rfl⟩ := hold p y hy
    exact (h.nodup p x hx).sublist (hlist p x hx)
  · intro c y hy
    obtain ⟨x, hx, rfl⟩ := hold c y hy
    rw [hnext, hparent]
    exact h.fresh c x hx

theorem procs_modify (s : Procs) (t : Pid) (g : Proc → Proc) (p : Pid) :
    (s.modify t g).procs p = (s.procs p).map (if p = t then g else id) := by
  rcases eq_or_ne p t with rfl | hp
  · simp [modify]
  · simp [modify, hp]

/-- One thread changes. -/
theorem Inv.modify {s s' : Procs} {t : Pid} {x : Proc} {g : Proc → Proc} (h : Inv s)
    (hx : s.procs t = some x)
    (hprocs : ∀ p, s'.procs p = (s.procs p).map (if p = t then g else id))
    (hnext : s'.nextTid = s.nextTid) (hparent : ∀ y, (g y).parent = y.parent)
    (hsemas : (g x).SemasOk)
    (hup : ∀ parent, JointOk parent t x → JointOk parent t (g x))
    (hdown : ∀ c child, s.procs c = some child → JointOk x c child → JointOk (g x) c child)
    (horphan : x.phase ≠ .starting → x.phase ≠ .collected →
      (g x).phase ≠ .starting ∧ (g x).phase ≠ .collected)
    (hlist : (g x).childList.Sublist x.childList)
    (hrole : ∀ c, (g x).pc.role c ≠ .none → x.pc.role c ≠ .none ∨ c ∈ x.childList)
    (hcreate : (g x).CreateOk) : Inv s' := by
  -- every statement about a thread before and after is one about `t` or about another
  have hcases : ∀ {motive : Pid → Proc → Proc → Prop}, motive t x (g x) →
      (∀ q z, s.procs q = some z → motive q z z) →
      ∀ q z, s.procs q = some z → motive q z ((if q = t then g else id) z) := by
    intro motive h₁ h₂ q z hz
    rcases eq_or_ne q t with rfl | hq
    · obtain rfl := Option.mem_unique hz hx
      rw [if_pos rfl]
      exact h₁
    · rw [if_neg hq]
      exact h₂ q z hz
  refine h.map (fun p => if p = t then g else id) hprocs hnext ?_ ?_ ?_ ?_ ?_ ?_ ?_
  · intro p y
    split
    · exact hparent y
    · rfl
  · exact hcases (motive := fun _ _ z' => z'.SemasOk) hsemas h.semas
  · intro c child parent hc hp hj
    have hj' := hcases (motive := fun _ z z' => JointOk z c child → JointOk z' c child)
      (hdown c child hc) (fun _ _ _ => id) child.parent parent hp hj
    exact hcases (motive := fun q z z' => ∀ par, JointOk par q z → JointOk par q z') hup
      (fun _ _ _ _ => id) c child hc _ hj'
  · intro c child hc _
    exact hcases (motive := fun _ z z' => z.phase ≠ .starting → z.phase ≠ .collected →
      z'.phase ≠ .starting ∧ z'.phase ≠ .collected) horphan
      (fun _ _ _ h₁ h₂ => ⟨h₁, h₂⟩) c child hc
  · exact hcases (motive := fun _ z z' => z'.childList.Sublist z.childList) hlist
      fun _ _ _ => List.Sublist.refl _
  · intro p y c hy
    exact hcases (motive := fun _ z z' => z'.pc.role c ≠ .none →
      z.pc.role c ≠ .none ∨ c ∈ z.childList) (hrole c) (fun _ _ _ => .inl) p y hy
  · exact hcases (motive := fun _ z z' => z.CreateOk → z'.CreateOk) (fun _ => hcreate)
      fun _ _ _ => id

/-- A parent and one of its children change together. -/
theorem Inv.modify₂ {s s' : Procs} {p c : Pid} {x y : Proc} {g k : Proc → Proc} (h : Inv s)
    (hne : c ≠ p) (hx : s.procs p = some x) (hy : s.procs c = some y) (hpc : y.parent = p)
    (hprocs : ∀ q, s'.procs q = (s.procs q).map (if q = p then g else if q = c then k else id))
    (hnext : s'.nextTid = s.nextTid)
    (hparent : ∀ z, (g z).parent = z.parent ∧ (k z).parent = z.parent)
    (hsemas : (g x).SemasOk ∧ (k y).SemasOk) (hpair : JointOk (g x) c (k y))
    (hup : ∀ parent, JointOk parent p x → JointOk parent p (g x))
    (hdown : ∀ d child, d ≠ c → JointOk x d child → JointOk (g x) d child)
    (hdown' : ∀ d child, JointOk y d child → JointOk (k y) d child)
    (horphan : x.phase ≠ .starting → x.phase ≠ .collected →
      (g x).phase ≠ .starting ∧ (g x).phase ≠ .collected)
    (hlist : (g x).childList = x.childList ∧ (k y).childList = y.childList)
    (hrole : ∀ d, (g x).pc.role d ≠ .none → x.pc.role d ≠ .none)
    (hrole' : ∀ d, (k y).pc.role d ≠ .none → y.pc.role d ≠ .none)
    (hcreate : (g x).CreateOk ∧ (k y).CreateOk) : Inv s' := by
  set f : Pid → Proc → Proc := fun q => if q = p then g else if q = c then k else id with hf
  have hfp : f p = g := by simp [hf]
  have hfc : f c = k := by simp [hf, hne]
  have hfo : ∀ q, q ≠ p → q ≠ c → f q = id := fun q h₁ h₂ => by simp [hf, h₁, h₂]
  -- every statement about a thread before and after is one about `p`, `c` or another
  have hcases : ∀ {motive : Pid → Proc → Proc → Prop}, motive p x (g x) → motive c y (k y) →
      (∀ q z, q ≠ p → q ≠ c → s.procs q = some z → motive q z z) →
      ∀ q z, s.procs q = some z → motive q z (f q z) := by
    intro motive h₁ h₂ h₃ q z hz
    rcases eq_or_ne q p with rfl | hqp
    · obtain rfl := Option.mem_unique hz hx
      rw [hfp]
      exact h₁
    · rcases eq_or_ne q c with rfl | hqc
      · obtain rfl := Option.mem_unique hz hy
        rw [hfc]
        exact h₂
      · rw [hfo q hqp hqc]
        exact h₃ q z hqp hqc hz
  refine h.map f hprocs hnext ?_ ?_ ?_ ?_ ?_ ?_ ?_
  · intro q z
    simp only [hf]
    split
    · exact (hparent z).1
    · split
      · exact (hparent z).2
      · rfl
  · exact hcases (motive := fun _ _ z' => z'.SemasOk) hsemas.1 hsemas.2
      fun q z _ _ hz => h.semas q z hz
  · intro d child parent hd hpar hj
    rcases eq_or_ne d c with rfl | hdc
    · obtain rfl := Option.mem_unique hd hy
      rw [hpc] at hpar ⊢
      obtain rfl := Option.mem_unique hpar hx
      rw [hfp, hfc]
      exact hpair
    · -- first the change of the parent, then that of the child
      have hj' := hcases (motive := fun _ z z' => JointOk z d child → JointOk z' d child)
        (hdown d child hdc) (hdown' d child) (fun _ _ _ _ _ => id) child.parent parent hpar hj
      exact hcases (motive := fun q z z' => q ≠ c → ∀ par, JointOk par q z → JointOk par q z')
        (fun _ => hup) (fun hcc => absurd rfl hcc) (fun _ _ _ _ _ _ _ => id) d child hd hdc _ hj'
  · intro d child hd hnone
    refine hcases (motive := fun q z z' => q ≠ c → z.phase ≠ .starting → z.phase ≠ .collected →
      z'.phase ≠ .starting ∧ z'.phase ≠ .collected) (fun _ => horphan)
      (fun hcc => absurd rfl hcc) (fun _ _ _ _ _ _ h₁ h₂ => ⟨h₁, h₂⟩) d child hd ?_
    -- the child's parent is live
    rintro rfl
    obtain rfl := Option.mem_unique hd hy
    rw [hpc, hx] at hnone
    cases hnone
  · refine hcases (motive := fun _ z z' => z'.childList.Sublist z.childList) ?_ ?_
      fun _ _ _ _ _ => List.Sublist.refl _
    · rw [hlist.1]
    · rw [hlist.2]
  · intro q z d hz
    exact hcases (motive := fun _ z z' => z'.pc.role d ≠ .none →
      z.pc.role d ≠ .none ∨ d ∈ z.childList) (fun hd => .inl (hrole d hd))
      (fun hd => .inl (hrole' d hd)) (fun _ _ _ _ _ => .inl) q z hz
  · exact hcases (motive := fun _ z z' => z.CreateOk → z'.CreateOk) (fun _ => hcreate.1)
      (fun _ => hcreate.2) fun _ _ _ _ _ => id

end Procs

end Pintos
