import Pintos.ProcessMoves

/-!
# What Exec and Wait Return

The log of a run is justified step by step: `process_execute` returns what the load of the
child it created decided, and `process_wait` collects a child that its caller created, that
has entered `process_exit` with the returned number and that nobody has collected before.
`Linked` ties the log to where each thread is.

## Main results

* `Step.history`: every step extends a justified log by justified events.
* `ProcReachable.history`: the log is justified in every reachable state.
-/

namespace Pintos

open Verif Verif.Outcome List Function

variable {log : List Event} {x : Proc}

/-- The thread a once-in-a-lifetime event is about. -/
def Event.about (e : Event) (t : Pid) : Prop :=
  match e with
  | .created _ c => c = t
  | .loaded c _ => c = t
  | .entered c _ => c = t
  | .waited _ tid (some _) => tid = t
  | _ => False

/-- What must have happened before an event. -/
def Event.Justified (log : List Event) : Event → Prop
  | .created _ c => ∀ p, .created p c ∉ log
  | .loaded c _ => ∀ b, .loaded c b ∉ log
  | .executed p (some c) r =>
    .created p c ∈ log ∧ ∃ b, .loaded c b ∈ log ∧ r = if b then (c : ℤ) else -1
  | .executed _ none r => r = -1
  | .entered p _ => ∀ n, .entered p n ∉ log
  | .waited p tid (some n) => ∃ c : Pid, tid = c ∧ .created p c ∈ log ∧
      .entered c n ∈ log ∧ ∀ q m, .waited q c (some m) ∉ log
  | .waited _ _ none => True
  | .freed _ => True

/-- The program points in `process_exit` and after. -/
def ProcPc.inExit : ProcPc → Bool
  | .exitUp | .exitDown | .exitFree | .dead => true
  | _ => false

/-- What the log says of a thread. -/
structure Proc.Linked (log : List Event) (t : Pid) (x : Proc) : Prop where
  born : .created x.parent t ∈ log
  unloaded : x.pc = .startLoad → ∀ b, .loaded t b ∉ log
  reported : ∀ b, x.pc = .startReport b ∨ x.pc = .startUp b → .loaded t b ∈ log
  answered : ∀ c, x.pc = .execRet (some c) ∨ (x.pc = .execWait (some c) ∧ x.createSema = 1) →
    .created t c ∈ log ∧ .loaded c x.createSuccess ∈ log
  unentered : x.pc.inExit = false → ∀ n, .entered t n ∉ log
  entered : x.pc.inExit = true → .entered t x.exitNumber ∈ log
  uncollected : x.phase ≠ .released → ∀ p n, .waited p t (some n) ∉ log

/-- The log and the threads agree. -/
structure Procs.History (s : Procs) : Prop where
  grounded : Grounded Event.Justified s.log
  known : ∀ e ∈ s.log, ∀ t, e.about t → t < s.nextTid
  linked : ∀ t x, s.procs t = some x → x.Linked s.log t
  report : ∀ t x b y, s.procs t = some x → x.pc = .startUp b → s.procs x.parent = some y →
    y.createSuccess = b

theorem Proc.phase_ne_released (h : x.pc.inExit = false) : x.phase ≠ .released := by
  cases hpc : x.pc <;> simp_all [phase, ProcPc.inExit]

/-! ### Threads and a growing log -/

/-- Events about others say nothing of a thread. -/
theorem Proc.Linked.append {t : Pid} (h : x.Linked log t) (new : List Event)
    (hnew : ∀ e ∈ new, ¬ e.about t) : x.Linked (new ++ log) t := by
  have hold : ∀ {e : Event}, e.about t → e ∉ log → e ∉ new ++ log := by
    intro e he hlog hmem
    rcases mem_append.mp hmem with hm | hm
    · exact hnew e hm he
    · exact hlog hm
  have hkeep : ∀ {e : Event}, e ∈ log → e ∈ new ++ log := fun he => mem_append_right _ he
  refine ⟨hkeep h.born, ?_, ?_, ?_, ?_, ?_, ?_⟩
  · exact fun hpc b => hold rfl (h.unloaded hpc b)
  · exact fun b hpc => hkeep (h.reported b hpc)
  · exact fun c hpc => ⟨hkeep (h.answered c hpc).1, hkeep (h.answered c hpc).2⟩
  · exact fun hpc n => hold rfl (h.unentered hpc n)
  · exact fun hpc => hkeep (h.entered hpc)
  · exact fun hpc p n => hold rfl (h.uncollected hpc p n)

/-- The program points the log says nothing special of. -/
def ProcPc.isOrdinary : ProcPc → Bool
  | .user | .execCreate | .execWait none | .execRet none | .waitScan _ | .waitDown _
  | .waitRemove _ | .waitRead _ | .waitUp _ _ | .idle => true
  | _ => false

theorem ProcPc.inExit_of_isOrdinary {pc : ProcPc} (h : pc.isOrdinary = true) :
    pc.inExit = false := by
  cases pc <;> first | rfl | cases h

/-- A thread outside `process_exit` goes on at an ordinary program point. -/
theorem Proc.Linked.ordinary {t : Pid} {x' : Proc} (h : x.Linked log t) (hpc : x.pc.inExit = false)
    (hphase : x.phase ≠ .released) (hparent : x'.parent = x.parent) (hpc' : x'.pc.isOrdinary = true)
    :
    x'.Linked log t := by
  have hexit := ProcPc.inExit_of_isOrdinary hpc'
  refine ⟨hparent ▸ h.born, ?_, ?_, ?_, fun _ => h.unentered hpc, ?_, fun _ => h.uncollected hphase⟩
  · intro heq
    rw [heq] at hpc'
    cases hpc'
  · rintro b (heq | heq) <;> (rw [heq] at hpc'; cases hpc')
  · rintro c (heq | ⟨heq, -⟩) <;> (rw [heq] at hpc'; cases hpc')
  · intro heq
    rw [hexit] at heq
    cases heq

/-- A thread enters `process_exit`. -/
theorem Proc.Linked.enterExit {t : Pid} {n : ℤ} (h : x.Linked log t) (hpc : x.pc.inExit = false) :
    Proc.Linked (.entered t n :: log) t { x with exitNumber := n, pc := .exitUp } := by
  refine ⟨mem_cons_of_mem _ h.born, by simp, by simp, by simp, by simp [ProcPc.inExit],
    fun _ => mem_cons_self, fun _ p m hm => ?_⟩
  rcases mem_cons.mp hm with hm | hm
  · cases hm
  · exact h.uncollected (Proc.phase_ne_released hpc) p m hm

/-- What `process_execute` returns is decided by the load of its child. -/
theorem Proc.Linked.executed {p : Pid} {c : Option Pid} (h : x.Linked log p)
    (hpc : x.pc = .execRet c) : Event.Justified log
      (.executed p c (if !x.createSuccess then -1 else c.elim (-1) fun c => c)) := by
  cases c with
  | none => cases hcs : x.createSuccess <;> rfl
  | some c =>
    obtain ⟨hcreated, hloaded⟩ := h.answered c (.inl hpc)
    refine ⟨hcreated, x.createSuccess, hloaded, ?_⟩
    cases hcs : x.createSuccess <;> rfl

namespace Procs

variable {c p t : Pid} {x y : Proc} {g : Proc → Proc} {s s' : Procs}

/-- A step that records the events `new`, which are justified. -/
structure Records (s : Procs) (new : List Event) (s' : Procs) : Prop where
  nextTid : s'.nextTid = s.nextTid
  log : s'.log = new ++ s.log
  grounded : Grounded Event.Justified (new ++ s.log)

theorem Records.known {new : List Event} (hr : Records s new s') (h : History s)
    (ht : t < s.nextTid) (habout : ∀ e ∈ new, ∀ c, e.about c → c = t) :
    ∀ e ∈ s'.log, ∀ c, e.about c → c < s'.nextTid := by
  rw [hr.log, hr.nextTid]
  intro e he c hc
  rcases mem_append.mp he with hm | hm
  · rw [habout e hm c hc]
    exact ht
  · exact h.known e hm c hc

/-! ### Steps of one thread -/

/-- One thread changes and records events about itself. -/
theorem History.modify (h : History s) (new : List Event) (hinv : Inv s) (hx : s.procs t = some x)
    (hprocs : ∀ p, s'.procs p = (s.procs p).map (if p = t then g else id))
    (hr : Records s new s')
    (habout : ∀ e ∈ new, ∀ c, e.about c → c = t)
    (hg : ∀ y, (g y).parent = y.parent ∧ (g y).createSuccess = y.createSuccess)
    (hpc : ∀ b, (g x).pc ≠ .startUp b) (hlinked : (g x).Linked (new ++ s.log) t) : History s' := by
  have hold : ∀ {q y}, s'.procs q = some y →
      ∃ z, s.procs q = some z ∧ y = (if q = t then g else id) z := by
    intro q y hy
    rw [hprocs] at hy
    obtain ⟨z, hz, rfl⟩ := Option.map_eq_some_iff.mp hy
    exact ⟨z, hz, rfl⟩
  refine ⟨hr.log ▸ hr.grounded, hr.known h (hinv.fresh t x hx).1 habout, ?_, ?_⟩
  · intro q y hy
    obtain ⟨z, hz, rfl⟩ := hold hy
    rw [hr.log]
    rcases eq_or_ne q t with rfl | hq
    · obtain rfl := Option.mem_unique hz hx
      rw [if_pos rfl]
      exact hlinked
    · rw [if_neg hq]
      exact (h.linked q z hz).append _ fun e he hc => hq (habout e he q hc)
  · intro q y b w hy hb hw
    obtain ⟨z, hz, rfl⟩ := hold hy
    have hne : q ≠ t := by
      rintro rfl
      obtain rfl := Option.mem_unique hz hx
      rw [if_pos rfl] at hb
      exact hpc b hb
    rw [if_neg hne] at hb hw
    obtain ⟨v, hv, rfl⟩ := hold hw
    have hcs := h.report q z b v hz hb hv
    split
    · rw [(hg v).2]
      exact hcs
    · exact hcs

/-- A thread outside `process_exit` goes on at an ordinary program point. -/
theorem History.ordinary (h : History s) (new : List Event) (hinv : Inv s) (hx : s.procs t = some x)
    (hprocs : ∀ p, s'.procs p = (s.procs p).map (if p = t then g else id))
    (hr : Records s new s') (habout : ∀ e ∈ new, ∀ c, ¬ e.about c)
    (hg : ∀ y, (g y).parent = y.parent ∧ (g y).createSuccess = y.createSuccess)
    (hpc : x.pc.inExit = false) (hpc' : (g x).pc.isOrdinary = true) : History s' := by
  refine h.modify new hinv hx hprocs hr
    (fun e he c hc => absurd hc (habout e he c)) hg ?_ ?_
  · intro b hb
    rw [hb] at hpc'
    cases hpc'
  · have hlinked := h.linked t x hx
    exact (hlinked.ordinary hpc (Proc.phase_ne_released hpc) (hg x).1 hpc').append new
      fun e he => habout e he t

/-- The thread goes on without recording an event. -/
theorem History.quiet (h : History s) (hinv : Inv s) (hx : s.procs t = some x)
    (hg : ∀ y, (g y).parent = y.parent ∧ (g y).createSuccess = y.createSuccess)
    (hpc : x.pc.inExit = false) (hpc' : (g x).pc.isOrdinary = true) : History (s.modify t g) :=
  h.ordinary [] hinv hx (procs_modify s t g) ⟨rfl, rfl, h.grounded⟩ (by simp) hg hpc hpc'

/-- `process_execute` returns. -/
theorem History.execReturn {c : Option Pid} {r : ℤ} (h : History s) (hinv : Inv s)
    (hx : s.procs p = some x) (hpc : x.pc.inExit = false)
    (hjust : Event.Justified s.log (.executed p c r)) : History (s.execReturn p c r) := by
  refine h.ordinary [.executed p c r] hinv hx (procs_emit_modify _ _ _ _) ⟨rfl, rfl,
    hjust, h.grounded⟩ (by simp [Event.about]) (fun _ => ⟨rfl, rfl⟩) hpc ?_
  split <;> rfl

theorem about_entered (t : Pid) (n : ℤ) :
    ∀ e ∈ [Event.entered t n], ∀ c, e.about c → c = t := by
  intro e he c hc
  rw [mem_singleton.mp he] at hc
  exact hc.symm

/-! ### Steps of a parent and a child -/

/-- A parent and its child change together. -/
theorem History.modify₂ {k : Proc → Proc}
    (h : History s) (new : List Event) (hinv : Inv s) (hne : c ≠ p) (hx : s.procs p = some x)
    (hy : s.procs c = some y) (hparent : y.parent = p)
    (hprocs : ∀ q, s'.procs q = (s.procs q).map (if q = p then g else if q = c then k else id))
    (hr : Records s new s')
    (habout : ∀ e ∈ new, ∀ d, e.about d → d = c)
    (hg : ∀ z, (g z).parent = z.parent ∧ (k z).parent = z.parent ∧
      (k z).createSuccess = z.createSuccess)
    (hpc : ∀ b, (g x).pc ≠ .startUp b)
    (hreport : ∀ d z b, s.procs d = some z → z.parent = p →
      ((if d = c then k else id) z).pc = .startUp b → (g x).createSuccess = b)
    (hlinked : (g x).Linked (new ++ s.log) p) (hlinked' : (k y).Linked (new ++ s.log) c) :
    History s' := by
  set f : Pid → Proc → Proc := fun q => if q = p then g else if q = c then k else id with hf
  have hold : ∀ {q z}, s'.procs q = some z → ∃ w, s.procs q = some w ∧ z = f q w := by
    intro q z hz
    rw [hprocs] at hz
    obtain ⟨w, hw, rfl⟩ := Option.map_eq_some_iff.mp hz
    exact ⟨w, hw, rfl⟩
  have hfp : f p = g := by simp [hf]
  have hfne : ∀ {q}, q ≠ p → f q = if q = c then k else id := fun hq => by simp [hf, hq]
  have hfparent : ∀ q z, (f q z).parent = z.parent := by
    intro q z
    simp only [hf]
    split
    · exact (hg z).1
    · split
      · exact (hg z).2.1
      · rfl
  refine ⟨hr.log ▸ hr.grounded, hr.known h (hinv.fresh c y hy).1 habout, ?_, ?_⟩
  · intro q z hz
    obtain ⟨w, hw, rfl⟩ := hold hz
    rw [hr.log]
    rcases eq_or_ne q p with rfl | hqp
    · obtain rfl := Option.mem_unique hw hx
      rw [hfp]
      exact hlinked
    · rw [hfne hqp]
      rcases eq_or_ne q c with rfl | hqc
      · obtain rfl := Option.mem_unique hw hy
        rw [if_pos rfl]
        exact hlinked'
      · rw [if_neg hqc]
        exact (h.linked q w hw).append _ fun e he hd => hqc (habout e he q hd)
  · intro q z b v hz hb hv
    obtain ⟨w, hw, rfl⟩ := hold hz
    rw [hfparent] at hv
    obtain ⟨u, hu, rfl⟩ := hold hv
    have hqp : q ≠ p := by
      rintro rfl
      obtain rfl := Option.mem_unique hw hx
      rw [hfp] at hb
      exact hpc b hb
    rw [hfne hqp] at hb
    rcases eq_or_ne w.parent p with hwp | hwp
    · rw [hwp] at hu ⊢
      obtain rfl := Option.mem_unique hu hx
      rw [hfp]
      exact hreport q w b hw hwp hb
    · have hqc : q ≠ c := by
        rintro rfl
        obtain rfl := Option.mem_unique hw hy
        exact hwp hparent
      rw [if_neg hqc] at hb
      have hcs := h.report q w b u hw hb hu
      rw [hfne hwp]
      split
      · rw [(hg u).2.2]
        exact hcs
      · exact hcs

/-- The starting child of a parent is the one the parent waits for. -/
theorem Inv.starting_unique {d : Pid} {z : Proc} (h : Inv s) (hy : s.procs c = some y)
    (hz : s.procs d = some z) (hparent : z.parent = y.parent) (hcy : y.phase = .starting)
    (hdz : z.phase = .starting) : d = c := by
  obtain ⟨x, hx, hxpc, -⟩ := h.parent_of_starting hy hcy
  obtain ⟨x', hx', hxpc', -⟩ := h.parent_of_starting hz hdz
  rw [hparent] at hx'
  obtain rfl := Option.mem_unique hx hx'
  rw [hxpc] at hxpc'
  cases hxpc'
  rfl

/-- `start_process` stores the result of the load in the parent. -/
theorem History.startReport {b : Bool} (h : History s) (hinv : Inv s) (hy : s.procs c = some y)
    (hpc : y.pc = .startReport b) :
    History ((s.modify y.parent fun x => { x with createSuccess := b }).goto c (.startUp b)) := by
  have hphase : y.phase = .starting := by rw [Proc.phase, hpc]
  obtain ⟨x, hx, hxpc, -, hsema, hne⟩ := hinv.parent_of_starting hy hphase
  have hlx := h.linked y.parent x hx
  have hly := h.linked c y hy
  refine h.modify₂ [] hinv hne hx hy rfl (procs_modify_modify s hne _ _) ⟨rfl, rfl, h.grounded⟩
    (by simp) (fun _ => ⟨rfl, rfl, rfl⟩) (by simp [hxpc]) ?_ ?_ ?_
  · intro d z b' hz hparent hb'
    rcases eq_or_ne d c with rfl | hdc
    · simp at hb'
      exact hb'
    · rw [if_neg hdc, id] at hb'
      exact absurd (hinv.starting_unique hy hz hparent hphase (by rw [Proc.phase, hb'])) hdc
  · exact ⟨hlx.born, hlx.unloaded, hlx.reported, by simp [hxpc, hsema], hlx.unentered, hlx.entered,
      hlx.uncollected⟩
  · refine ⟨hly.born, by simp, ?_, by simp, fun _ => hly.unentered (by rw [hpc]; rfl),
      by simp [ProcPc.inExit], fun _ => hly.uncollected (by simp [hphase])⟩
    rintro b' (hb' | hb')
    · cases hb'
    · cases hb'
      exact hly.reported b (.inl hpc)

/-- `start_process` ups the parent's `create_sema`: the parent's `create_success` is the result
of the load. -/
theorem History.startUp {b : Bool} {k : Proc → Proc}
    (h : History s) (new : List Event) (hinv : Inv s) (hy : s.procs c = some y)
    (hpc : y.pc = .startUp b)
    (hprocs : ∀ q, s'.procs q = (s.procs q).map (if q = y.parent
      then fun x => { x with createSema := x.createSema + 1 } else if q = c then k else id))
    (hr : Records s new s')
    (habout : ∀ e ∈ new, ∀ d, e.about d → d = c)
    (hk : ∀ z, (k z).parent = z.parent ∧ (k z).createSuccess = z.createSuccess)
    (hpc' : ∀ b, (k y).pc ≠ .startUp b) (hlinked' : (k y).Linked (new ++ s.log) c) :
    History s' := by
  have hphase : y.phase = .starting := by rw [Proc.phase, hpc]
  obtain ⟨x, hx, hxpc, -, hsema, hne⟩ := hinv.parent_of_starting hy hphase
  have hlx := h.linked y.parent x hx
  have hly := h.linked c y hy
  have hlinked : Proc.Linked s.log y.parent { x with createSema := x.createSema + 1 } := by
    refine ⟨hlx.born, hlx.unloaded, hlx.reported, ?_, hlx.unentered, hlx.entered, hlx.uncollected⟩
    rintro d (hd | ⟨hd, -⟩)
    · rw [hxpc] at hd
      cases hd
    · rw [hxpc] at hd
      cases hd
      refine ⟨hly.born, ?_⟩
      rw [h.report c y b x hy hpc hx]
      exact hly.reported b (.inr hpc)
  refine h.modify₂ new hinv hne hx hy rfl hprocs hr habout
    (fun z => ⟨rfl, (hk z).1, (hk z).2⟩) (by simp [hxpc]) ?_
    (hlinked.append new fun e he hd => hne (habout e he _ hd).symm) hlinked'
  intro d z b' hz hparent hb'
  rcases eq_or_ne d c with rfl | hdc
  · obtain rfl := Option.mem_unique hz hy
    rw [if_pos rfl] at hb'
    exact absurd hb' (hpc' b')
  · rw [if_neg hdc, id] at hb'
    exact absurd (hinv.starting_unique hy hz hparent hphase (by rw [Proc.phase, hb'])) hdc

/-- A parent in `process_wait` goes on, and its child stays in `process_exit`. -/
theorem History.collect {k : Proc → Proc} (h : History s) (new : List Event) (hinv : Inv s)
    (hne : c ≠ p) (hx : s.procs p = some x) (hy : s.procs c = some y) (hparent : y.parent = p)
    (hprocs : ∀ q, s'.procs q = (s.procs q).map (if q = p then g else if q = c then k else id))
    (hr : Records s new s')
    (habout : ∀ e ∈ new, ∀ d, e.about d → d = c)
    (hg : ∀ z, (g z).parent = z.parent ∧ (g z).createSuccess = z.createSuccess)
    (hk : ∀ z, (k z).parent = z.parent ∧ (k z).createSuccess = z.createSuccess)
    (hpc : x.pc.inExit = false) (hpc' : (g x).pc.isOrdinary = true)
    (hlinked' : (k y).Linked (new ++ s.log) c) (hkpc : (k y).pc = y.pc) : History s' := by
  have hlx := h.linked p x hx
  refine h.modify₂ new hinv hne hx hy hparent hprocs hr habout
    (fun z => ⟨(hg z).1, (hk z).1, (hk z).2⟩) ?_ ?_
    ((hlx.ordinary hpc (Proc.phase_ne_released hpc) (hg x).1 hpc').append new
      fun e he hd => hne (habout e he p hd).symm) hlinked'
  · intro b hb
    rw [hb] at hpc'
    cases hpc'
  · intro d z b hz hzp hb
    have hzb : z.pc = .startUp b := by
      rcases eq_or_ne d c with rfl | hdc
      · obtain rfl := Option.mem_unique hz hy
        rw [if_pos rfl, hkpc] at hb
        exact hb
      · rw [if_neg hdc] at hb
        exact hb
    rw [(hg x).2]
    exact h.report d z b x hz hzb (hzp ▸ hx)

/-- `process_wait` gets through its `sema_down`. -/
theorem History.waitDown (h : History s) (hinv : Inv s) (hx : s.procs p = some x)
    (hpc : x.pc = .waitDown c) (hy : s.procs c = some y) (hparent : y.parent = p)
    (hsema : 0 < y.parentSema) :
    History ((s.modify c fun y => { y with parentSema := y.parentSema - 1 }).goto p
      (.waitRemove c)) := by
  obtain ⟨hypc, hps, hps2⟩ := exited_of_parentSema (hinv.semas c y hy) hsema
  have hne := hinv.ne_of_waitDown hx hpc hy hsema
  have hly := h.linked c y hy
  refine h.collect [] hinv hne hx hy hparent (procs_modify_modify' s hne _ _)
    ⟨rfl, rfl, h.grounded⟩ (by simp) (fun _ => ⟨rfl, rfl⟩) (fun _ => ⟨rfl, rfl⟩)
    (by rw [hpc]; rfl) rfl ?_ rfl
  exact ⟨hly.born, hly.unloaded, hly.reported, hly.answered, hly.unentered, hly.entered,
    fun _ => hly.uncollected (by simp [Proc.phase, hypc, hps])⟩

/-- `process_wait` returns the number the child entered `process_exit` with. -/
theorem History.waitUp {n : ℤ} (h : History s) (hinv : Inv s) (hx : s.procs p = some x)
    (hpc : x.pc = .waitUp c n) (hy : s.procs c = some y) (hparent : y.parent = p) :
    History (((s.modify c fun y => { y with parentSema2 := y.parentSema2 + 1 }).goto p
      .user).emit (.waited p c (some n))) := by
  obtain ⟨hphase, -, hn⟩ := hinv.collected_of_waitUp hx hpc hy hparent
  obtain ⟨hypc, hps, hps2⟩ := phase_eq_collected hphase
  have hne := hinv.ne_of_waitUp hx hpc hy hparent
  have hly := h.linked c y hy
  have hexit : y.pc.inExit = true := by rw [hypc]; rfl
  have hjust : Event.Justified s.log (.waited p c (some n)) := by
    refine ⟨c, rfl, hparent ▸ hly.born, hn ▸ hly.entered hexit, ?_⟩
    exact hly.uncollected (by simp [hphase])
  refine h.collect [.waited p c (some n)] hinv hne hx hy hparent
    (procs_modify_modify' s hne _ _) ⟨rfl, rfl, hjust, h.grounded⟩ ?_ (fun _ => ⟨rfl, rfl⟩)
    (fun _ => ⟨rfl, rfl⟩) (by rw [hpc]; rfl) rfl ?_ rfl
  · intro e he d hd
    rw [mem_singleton.mp he] at hd
    exact (Int.ofNat_inj.mp hd).symm
  · refine ⟨mem_cons_of_mem _ hly.born, by simp [hypc], by simp [hypc], by simp [hypc],
      by simp [hexit], fun _ => mem_cons_of_mem _ (hly.entered hexit), fun hrel => ?_⟩
    exact absurd (by simp [Proc.phase, hypc, hps]) hrel

/-! ### Steps in `process_exit`, and the creation of a thread -/

/-- A thread goes on in `process_exit`. -/
theorem History.exiting (h : History s)
    (hinv : Inv s) (hx : s.procs t = some x)
    (hg : ∀ y, (g y).parent = y.parent ∧ (g y).createSuccess = y.createSuccess ∧
      (g y).exitNumber = y.exitNumber)
    (hpc : x.pc.inExit = true) (hpc' : (g x).pc.inExit = true)
    (hphase : x.phase = .released → (g x).phase = .released) : History (s.modify t g) := by
  have hlx := h.linked t x hx
  have hne : ∀ pc, pc.inExit = false → (g x).pc ≠ pc := by
    rintro pc hpc'' heq
    rw [heq, hpc''] at hpc'
    cases hpc'
  refine h.modify [] hinv hx (procs_modify s t g) ⟨rfl, rfl, h.grounded⟩ (by simp)
    (fun y => ⟨(hg y).1, (hg y).2.1⟩) (fun b => hne _ rfl) ?_
  refine ⟨(hg x).1 ▸ hlx.born, fun hb => absurd hb (hne _ rfl), ?_, ?_, ?_, ?_, ?_⟩
  · rintro b (hb | hb)
    · exact absurd hb (hne _ rfl)
    · exact absurd hb (hne _ rfl)
  · rintro c (hc | ⟨hc, -⟩)
    · exact absurd hc (hne _ rfl)
    · exact absurd hc (hne _ rfl)
  · intro hfalse
    rw [hpc'] at hfalse
    cases hfalse
  · intro _
    rw [(hg x).2.2]
    exact hlx.entered hpc
  · exact fun hrel => hlx.uncollected (mt hphase hrel)

/-- `thread_create` makes a child the log knows nothing of. -/
theorem History.created (h : History s) (hinv : Inv s) (hx : s.procs p = some x)
    (hpc : x.pc = .execCreate) : History (s.initThread p x.childList) := by
  set c := s.nextTid with hc
  have hne : p ≠ c := Nat.ne_of_lt (hinv.fresh p x hx).1
  have hsema : x.createSema = 0 := hinv.createSema_eq hx (by simp [hpc])
  have hunknown : ∀ e : Event, e.about c → e ∉ s.log :=
    fun e he hmem => Nat.lt_irrefl c (h.known e hmem c he)
  have hother : ∀ d, d ≠ c → ∀ e ∈ [Event.created p c], ¬ e.about d := by
    intro d hd e he habout
    rw [mem_singleton.mp he] at habout
    exact hd habout.symm
  have hcases : ∀ q y, (s.initThread p x.childList).procs q = some y →
      (q = c ∧ y = .ofParent p) ∨
      (q = p ∧ y = { x with childList := x.childList ++ [c], pc := .execWait (some c) }) ∨
      (q ≠ c ∧ q ≠ p ∧ s.procs q = some y) := by
    intro q y hy
    rcases eq_or_ne q c with rfl | hqc
    · rw [procs_initThread_child] at hy
      exact .inl ⟨rfl, (Option.some.inj hy).symm⟩
    · rcases eq_or_ne q p with rfl | hqp
      · rw [procs_initThread_parent hx hne] at hy
        exact .inr (.inl ⟨rfl, (Option.some.inj hy).symm⟩)
      · rw [procs_initThread_of_ne hqp hqc] at hy
        exact .inr (.inr ⟨hqc, hqp, hy⟩)
  refine ⟨⟨fun q => hunknown _ rfl, h.grounded⟩, ?_, ?_, ?_⟩
  · intro e he d hd
    rcases mem_cons.mp he with rfl | he
    · rw [← hd]
      exact Nat.lt_succ_self c
    · exact Nat.lt_succ_of_lt (h.known e he d hd)
  · intro q y hy
    rcases hcases q y hy with ⟨rfl, rfl⟩ | ⟨rfl, rfl⟩ | ⟨hqc, -, hy⟩
    · have hnot : ∀ e : Event, e.about c → e ≠ .created p c → e ∉ Event.created p c :: s.log :=
        fun e he hne hmem => (mem_cons.mp hmem).elim hne (hunknown e he)
      exact ⟨mem_cons_self, fun _ b => hnot _ rfl (by simp), by simp [Proc.ofParent],
        by simp [Proc.ofParent], fun _ n => hnot _ rfl (by simp),
        by simp [Proc.ofParent, ProcPc.inExit], fun _ q n => hnot _ rfl (by simp)⟩
    · have hlx := h.linked q x hx
      have hold : x.pc.inExit = false := by rw [hpc]; rfl
      have hlinked : Proc.Linked s.log q
          { x with childList := x.childList ++ [c], pc := .execWait (some c) } :=
        ⟨hlx.born, by simp, by simp, by simp [hsema], fun _ => hlx.unentered hold,
          by simp [ProcPc.inExit], fun _ => hlx.uncollected (Proc.phase_ne_released hold)⟩
      exact hlinked.append [.created q c] (hother q hne)
    · exact (h.linked q y hy).append [.created p c] (hother q hqc)
  · intro q y b w hy hb hw
    rcases hcases q y hy with ⟨rfl, rfl⟩ | ⟨rfl, rfl⟩ | ⟨hqc, -, hy⟩
    · cases hb
    · cases hb
    · rcases hcases _ w hw with ⟨hq, -⟩ | ⟨hq, rfl⟩ | ⟨-, -, hw⟩
      · exact absurd hq (Nat.ne_of_lt (hinv.fresh q y hy).2)
      · exact h.report q y b x hy hb (hq ▸ hx)
      · exact h.report q y b w hy hb hw

/-- A thread is freed. -/
theorem History.free (h : History s) (p : Pid) :
    History ({ s with procs := update s.procs p none }.emit (.freed p)) := by
  have hold : ∀ {q y}, update s.procs p none q = some y → s.procs q = some y := by
    intro q y hy
    rw [update_apply] at hy
    split at hy
    · cases hy
    · exact hy
  refine ⟨⟨trivial, h.grounded⟩, ?_, ?_, ?_⟩
  · intro e he d hd
    rcases mem_cons.mp he with rfl | he
    · exact hd.elim
    · exact h.known e he d hd
  · intro q y hy
    exact (h.linked q y (hold hy)).append [.freed p] (by simp [Event.about])
  · exact fun q y b w hy hb hw => h.report q y b w (hold hy) hb (hold hw)

/-! ### Whole runs -/

/-- The child's `load` returns. -/
theorem History.loaded (b : Bool) (h : History s) (hinv : Inv s) (hx : s.procs t = some x)
    (hpc : x.pc = .startLoad) : History ((s.goto t (.startReport b)).emit (.loaded t b)) := by
  have hlx := h.linked t x hx
  have hexit : x.pc.inExit = false := by rw [hpc]; rfl
  refine h.modify [.loaded t b] hinv hx (procs_emit_modify _ _ _ _) ⟨rfl, rfl,
    hlx.unloaded hpc, h.grounded⟩ ?_ (fun _ => ⟨rfl, rfl⟩) (by simp) ?_
  · intro e he c hc
    rw [mem_singleton.mp he] at hc
    exact hc.symm
  · refine ⟨mem_cons_of_mem _ hlx.born, by simp, ?_, by simp, fun _ n hn => ?_,
      by simp [ProcPc.inExit], fun _ p n hn => ?_⟩
    · rintro b' (hb' | hb')
      · cases hb'
        exact mem_cons_self
      · cases hb'
    · exact hlx.unentered hexit n (mem_of_ne_of_mem (by simp) hn)
    · exact hlx.uncollected (Proc.phase_ne_released hexit) p n (mem_of_ne_of_mem (by simp) hn)

/-- `process_execute` gets through its `sema_down`. -/
theorem History.execDown (h : History s) (hinv : Inv s) (hx : s.procs p = some x)
    (hpc : x.pc = .execWait (some c)) (hsema : 0 < x.createSema) :
    History (s.modify p fun x =>
      { x with createSema := x.createSema - 1, pc := .execRet (some c) }) := by
  have hlx := h.linked p x hx
  have hexit : x.pc.inExit = false := by rw [hpc]; rfl
  have hone : x.createSema = 1 := by
    rcases hinv.create p x hx with h0 | ⟨h1, -⟩
    · omega
    · exact h1
  refine h.modify [] hinv hx (procs_modify _ _ _) ⟨rfl, rfl, h.grounded⟩ (by simp)
    (fun _ => ⟨rfl, rfl⟩) (by simp) ⟨hlx.born, by simp, by simp, ?_, fun _ => hlx.unentered hexit,
      by simp [ProcPc.inExit], fun _ => hlx.uncollected (Proc.phase_ne_released hexit)⟩
  rintro d (hd | ⟨hd, -⟩)
  · cases hd
    exact hlx.answered c (.inr ⟨hpc, hone⟩)
  · cases hd

/-- **Every step extends a justified log by justified events.** -/
theorem Step.history {a : ProcAction} (hinv : Inv s) (h : History s) (hstep : Step s a s') :
    History s' := by
  cases hstep with
  | exec hx hpc | createFail hx hpc | wait tid hx hpc _ | waitFound hx hpc hc
  | waitRemove hx hpc | waitRead hx hpc hy =>
    exact h.quiet hinv hx (fun _ => ⟨rfl, rfl⟩) (by rw [hpc]; rfl) rfl
  | execFail hx hpc => exact h.execReturn hinv hx (by rw [hpc]; rfl) rfl
  | create hx hpc => exact h.created hinv hx hpc
  | load b hx hpc => exact h.loaded b hinv hx hpc
  | @exit p x n hx hpc =>
    have hlx := h.linked p x hx
    have hexit : x.pc.inExit = false := by rw [hpc]; rfl
    exact h.modify [.entered p _] hinv hx (procs_emit_modify _ _ _ _) ⟨rfl, rfl,
      hlx.unentered hexit, h.grounded⟩ (about_entered p _) (fun _ => ⟨rfl, rfl⟩) (by simp)
      (hlx.enterExit hexit)
  | @execDown p x c hx hpc hsema =>
    cases c with
    | some c => exact h.execDown hinv hx hpc hsema
    | none => exact h.quiet hinv hx (fun _ => ⟨rfl, rfl⟩) (by rw [hpc]; rfl) rfl
  | @execRet p x c hx hpc =>
    exact h.execReturn hinv hx (by rw [hpc]; rfl) ((h.linked p x hx).executed hpc)
  | startReport hy hpc hx => exact h.startReport hinv hy hpc
  | @startFail c y x hy hpc hx =>
    obtain ⟨-, -, -, -, -, hne⟩ := hinv.parent_of_starting hy (by rw [Proc.phase, hpc])
    have hly := h.linked c y hy
    have hexit : y.pc.inExit = false := by rw [hpc]; rfl
    exact h.startUp [.entered c y.exitNumber] hinv hy hpc
      (procs_modify_modify s hne _ _) ⟨rfl, rfl, hly.unentered hexit, h.grounded⟩
      (about_entered c _) (fun _ => ⟨rfl, rfl⟩) (by simp) (hly.enterExit hexit)
  | @startUser c y x hy hpc hx =>
    obtain ⟨-, -, -, -, -, hne⟩ := hinv.parent_of_starting hy (by rw [Proc.phase, hpc])
    have hexit : y.pc.inExit = false := by rw [hpc]; rfl
    exact h.startUp [] hinv hy hpc (procs_modify_modify s hne _ _) ⟨rfl, rfl, h.grounded⟩
      (by simp) (fun _ => ⟨rfl, rfl⟩) (by simp)
      ((h.linked c y hy).ordinary hexit (Proc.phase_ne_released hexit) rfl rfl)
  | waitMiss hx hpc hmiss =>
    exact h.ordinary [.waited _ _ none] hinv hx (procs_emit_modify _ _ _ _) ⟨rfl, rfl,
      trivial, h.grounded⟩ (by simp [Event.about]) (fun _ => ⟨rfl, rfl⟩) (by rw [hpc]; rfl) rfl
  | waitDown hx hpc hy hparent hsema => exact h.waitDown hinv hx hpc hy hparent hsema
  | waitUp hx hpc hy hparent => exact h.waitUp hinv hx hpc hy hparent
  | exitUp hx hpc =>
    refine h.exiting hinv hx (fun _ => ⟨rfl, rfl, rfl⟩) (by rw [hpc]; rfl) rfl fun hrel => ?_
    rw [Proc.phase, hpc] at hrel
    cases hrel
  | exitDown hx hpc hsema | exitDead hx hpc _ =>
    exact h.exiting hinv hx (fun _ => ⟨rfl, rfl, rfl⟩) (by rw [hpc]; rfl) rfl fun _ => rfl
  | free hx hpc _ => exact h.free _

end Procs

/-- The log after `thread_start`. -/
theorem procsInit_history : procsInit.History := by
  refine ⟨⟨by simp [Event.Justified, mainTid], by simp [Event.Justified], trivial⟩,
    by simp [procsInit, Event.about, mainTid], ?_, ?_⟩
  · refine procsInit_cases (motive := fun t x => x.Linked procsInit.log t) ?_ ?_
    · refine ⟨by simp [procsInit, Proc.ofParent], ?_, ?_, ?_, ?_, ?_, ?_⟩ <;>
        simp [procsInit, ProcPc.inExit]
    · refine ⟨by simp [procsInit, Proc.ofParent], ?_, ?_, ?_, ?_, ?_, ?_⟩ <;>
        simp [procsInit, ProcPc.inExit]
  · intro t x b y hx hb hy
    exact absurd hb
      (procsInit_cases (motive := fun _ x => x.pc ≠ .startUp b) (by simp) (by simp) t x hx)

theorem ProcReachable.history {C : Procs → ProcAction → Prop} {s : Procs}
    (h : ProcReachable C s) : s.History := by
  refine (h.invariant (I := fun s => s.Inv ∧ s.History) ⟨procsInit_inv, procsInit_history⟩ ?_).2
  rintro s a s' ⟨hinv, hh⟩ - hstep
  have hs := (Procs.step_spec hinv a).of_eq_ok hstep
  exact ⟨hs.inv hinv, hs.history hinv hh⟩

end Pintos
