import Pintos.ProcessHistory

/-!
# Safety of the Exec/Wait/Exit Protocol

For every tree of processes and every interleaving in which the pages for new threads are
available: what `process_execute` and `process_wait` return, that a child is collected at
most once, and that no step accesses a freed structure.

## Main results

* `exec_wait_exit_protocol`: the four statements together, in every reachable state.
-/

namespace Pintos

open Verif Verif.Outcome

/-! ### Thread creation that succeeds -/

/-- The pages `process_execute` and `thread_create` ask for are available. -/
def CreationSucceeds (_ : Procs) : ProcAction → Prop
  | .exec _ fnCopy => fnCopy = true
  | .create _ page => page = true
  | _ => True

instance (s : Procs) (a : ProcAction) : Decidable (CreationSucceeds s a) :=
  match a with
  | .exec _ fnCopy => inferInstanceAs (Decidable (fnCopy = true))
  | .create _ page => inferInstanceAs (Decidable (page = true))
  | .load .. | .wait .. | .exit .. | .run .. => inferInstanceAs (Decidable True)

/-- Program points of a `process_execute` whose `thread_create` failed. -/
def ProcPc.childless : ProcPc → Bool
  | .execWait none | .execRet none => true
  | _ => false

/-- No thread is in a `process_execute` that has made no child. -/
def Procs.NoneChildless (s : Procs) : Prop :=
  ∀ t x, s.procs t = some x → x.pc.childless = false

namespace Procs

/-- A failed `thread_create` is the only way into a `process_execute` without a child. -/
theorem Edge.childless {s : Procs} {a : ProcAction} {t : Pid} {x : Proc} {pc : ProcPc}
    (h : Edge s t x a pc) (hpc : pc.childless = true) :
    x.pc.childless = true ∨ a = .create t false := by
  cases h with
  | createFail _ => exact .inr rfl
  | execDown c hx =>
    cases c with
    | none => exact .inl (hx ▸ rfl)
    | some c => cases hpc
  | execFail _ | execRet _ _ => split at hpc <;> cases hpc
  | _ => cases hpc

theorem Step.noneChildless {s s' : Procs} {a : ProcAction} (hinv : Inv s) (h : NoneChildless s)
    (ha : ∀ p, a ≠ .create p false) (hstep : Step s a s') : NoneChildless s' := by
  intro t y hy
  rcases hstep.origin hinv hy with ⟨rfl, x, hx⟩ | ⟨-, x, hx, hsame⟩ | ⟨-, rfl, -⟩
  · obtain ⟨hedge, -⟩ := hstep.goesOn hinv hx hy
    by_contra hpc
    rcases hedge.childless (Bool.of_not_eq_false hpc) with hx' | ha'
    · rw [h _ x hx] at hx'
      cases hx'
    · exact ha _ ha'
  · rw [hsame.1]
    exact h t x hx
  · rfl

theorem NoneChildless.start : NoneChildless procsInit :=
  procsInit_cases (motive := fun _ x => x.pc.childless = false) rfl rfl

/-- Only a failed creation makes a `process_execute` return without a child. -/
theorem Step.executed_none {s s' : Procs} {a : ProcAction} {p : Pid} {r : ℤ}
    (h : NoneChildless s) (ha : CreationSucceeds s a) (hstep : Step s a s')
    (hlog : .executed p none r ∈ s'.log) : .executed p none r ∈ s.log := by
  cases hstep with
  | execFail hx hpc => cases ha
  | @execRet p x c hx hpc =>
    have hc := h p x hx
    rw [hpc] at hc
    refine List.mem_of_ne_of_mem ?_ hlog
    rintro heq
    cases heq
    cases hc
  | create hx hpc | load b hx hpc | exit n hx hpc | startFail hy hpc hx | waitMiss hx hpc hmiss
  | waitUp hx hpc hy hparent | free hx hpc _ => exact List.mem_of_ne_of_mem (by simp) hlog
  | _ => exact hlog

end Procs

/-- With successful creation every `process_execute` returns with a child. -/
theorem ProcReachable.executed_some {s : Procs} (h : ProcReachable CreationSucceeds s) {p : Pid}
    {child : Option Pid} {r : ℤ} (he : .executed p child r ∈ s.log) : ∃ c, child = some c := by
  have hI := h.invariant (I := fun s => s.Inv ∧ s.NoneChildless ∧
    ∀ p r, .executed p none r ∉ s.log) ⟨procsInit_inv, .start, by simp [procsInit]⟩ ?_
  · cases child with
    | none => exact absurd he (hI.2.2 p r)
    | some c => exact ⟨c, rfl⟩
  · rintro s a s' ⟨hinv, hnone, hlog⟩ hC hstep
    have hs := (Procs.step_spec hinv a).of_eq_ok hstep
    refine ⟨hs.inv hinv, hs.noneChildless hinv hnone ?_, ?_⟩
    · rintro q rfl
      cases hC
    · exact fun q m hm => hlog q m (hs.executed_none hnone hC hm)

/-! ### What exec and wait return -/

/-- The wait that collects the child `c`. -/
def Event.collects (c : Pid) : Event → Bool
  | .waited _ tid (some _) => tid = c
  | _ => false

/-- A load ends once. -/
theorem Procs.History.loaded_unique {s : Procs} (h : s.History) {c : Pid} {b b' : Bool}
    (hb : .loaded c b ∈ s.log) (hb' : .loaded c b' ∈ s.log) : b = b' :=
  (Event.loaded.inj (h.grounded.unique (f := Event.loaded c) (fun _ _ hJ => hJ) hb hb')).2

/-- A thread enters `process_exit` once. -/
theorem Procs.History.entered_unique {s : Procs} (h : s.History) {c : Pid} {n n' : ℤ}
    (hn : .entered c n ∈ s.log) (hn' : .entered c n' ∈ s.log) : n = n' :=
  (Event.entered.inj (h.grounded.unique (f := Event.entered c) (fun _ _ hJ => hJ) hn hn')).2

/-- A thread is created once. -/
theorem Procs.History.created_unique {s : Procs} (h : s.History) {c p p' : Pid}
    (hp : .created p c ∈ s.log) (hp' : .created p' c ∈ s.log) : p = p' :=
  (Event.created.inj
    (h.grounded.unique (f := fun p => Event.created p c) (fun _ _ hJ => hJ) hp hp')).1

/-- A child is collected at most once. -/
theorem Procs.History.collected_once {s : Procs} (h : s.History) (c : Pid) :
    (s.log.filter (Event.collects c)).length ≤ 1 := by
  refine h.grounded.at_most_once fun l e hJ he e' he' => ?_
  match e, hJ, he with
  | .waited p tid (some n), hJ, he =>
    obtain ⟨d, rfl, -, -, hnone⟩ := hJ
    have hdc : d = c := Int.ofNat_inj.mp (by simpa [Event.collects] using he)
    match e', he' with
    | .waited q tid' (some m), he' =>
      refine decide_eq_false ?_
      rintro rfl
      exact hnone q m (hdc ▸ he')
    | .waited _ _ none, _ | .created _ _, _ | .loaded _ _, _ | .executed _ _ _, _
    | .entered _ _, _ | .freed _, _ => rfl

/-- **The exec/wait/exit protocol is safe.** In every state reached by steps in which thread
creation succeeds:
`process_execute` has returned -1 exactly when the load of the child it created failed, and
otherwise the child's `tid`; a `process_wait` that found a child has returned the number with
which that child, created by the caller and not collected before, entered `process_exit`; no
child has been collected twice; and no step accesses a freed structure. -/
theorem exec_wait_exit_protocol {s : Procs} (h : ProcReachable CreationSucceeds s) :
    (∀ (p : Pid) (child : Option Pid) (r : ℤ), .executed p child r ∈ s.log →
      ∃ c : Pid, child = some c ∧ .created p c ∈ s.log ∧
      (r = -1 ↔ .loaded c false ∈ s.log) ∧ (r ≠ -1 → r = c)) ∧
    (∀ (p : Pid) (tid n : ℤ) (later earlier : List Event),
      s.log = later ++ .waited p tid (some n) :: earlier →
        ∃ c : Pid, tid = c ∧ .created p c ∈ earlier ∧
        (∀ q m, .waited q c (some m) ∉ earlier) ∧ .entered c n ∈ earlier ∧
        ∀ m, .entered c m ∈ s.log → m = n) ∧
    (∀ c, (s.log.filter (Event.collects c)).length ≤ 1) ∧
    ∀ a e, s.step a ≠ .panic e := by
  have hh := h.history
  refine ⟨?_, ?_, hh.collected_once, ?_⟩
  · intro p child r he
    obtain ⟨c, rfl⟩ := h.executed_some he
    obtain ⟨l₁, l₂, hlog, hcreated, b, hb, hr⟩ := hh.grounded.of_mem he
    have hmem : ∀ {e}, e ∈ l₂ → e ∈ s.log := fun he => by
      rw [hlog]
      exact List.mem_append_right _ (List.mem_cons_of_mem _ he)
    refine ⟨c, rfl, hmem hcreated, ⟨fun hr' => ?_, fun hfalse => ?_⟩, fun hr' => ?_⟩
    · cases b with
      | false => exact hmem hb
      | true =>
        rw [hr', if_pos rfl] at hr
        omega
    · rw [hh.loaded_unique (hmem hb) hfalse] at hr
      exact hr
    · cases b with
      | false => exact absurd hr hr'
      | true => exact hr
  · intro p tid n later earlier hlog
    have hgrounded := hh.grounded
    rw [hlog] at hgrounded
    obtain ⟨c, htid, hcreated, hentered, hnone⟩ := hgrounded.justified
    refine ⟨c, htid, hcreated, hnone, hentered, fun m hm => hh.entered_unique hm ?_⟩
    rw [hlog]
    exact List.mem_append_right _ (List.mem_cons_of_mem _ hentered)
  · exact fun a e hpanic => (Procs.step_spec h.inv a).of_eq_panic hpanic

/-- The initial thread runs thread 3, whose child 4 fails to load and is collected; then
thread 3 exits with 7. -/
theorem exec_wait_exit_protocol_run :
    ∃ s, ProcReachable CreationSucceeds s ∧ .executed 3 (some 4) (-1) ∈ s.log ∧
      .waited 1 3 (some 7) ∈ s.log ∧ .loaded 4 false ∈ s.log ∧
      (s.log.filter (Event.collects 3)).length ≤ 1 ∧ ∀ a e, s.step a ≠ .panic e := by
  have key : ∃ s, ProcReachable CreationSucceeds s ∧ .executed 3 (some 4) (-1) ∈ s.log ∧
      .waited 1 3 (some 7) ∈ s.log :=
    ⟨_, ⟨[.exec 1 true, .create 1 true, .load 3 true, .run 3, .run 3, .run 1, .run 1, .run 1,
      .exec 3 true, .create 3 true, .load 4 false, .run 4, .run 4, .run 4, .run 3, .run 3,
      .wait 3 4, .run 3, .run 3, .run 3, .run 3, .run 3, .exit 3 (some 7), .run 3,
      .run 1, .run 1, .run 1, .run 1, .run 3, .run 3, .run 4, .run 4], Run.of_guarded rfl⟩,
      by decide, by decide⟩
  obtain ⟨s, hreach, hexec, hwait⟩ := key
  obtain ⟨h₁, -, h₃, h₄⟩ := exec_wait_exit_protocol hreach
  obtain ⟨c, hc, -, hiff, -⟩ := h₁ 3 (some 4) (-1) hexec
  cases hc
  exact ⟨s, hreach, hexec, hwait, hiff.mp rfl, h₃ 3, h₄⟩

end Pintos
