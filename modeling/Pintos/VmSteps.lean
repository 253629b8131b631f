import Pintos.Vm

/-!
# The Steps of Demand Paging

`VmStep m s a s'` says what the action `a` can do in the state `s`: one constructor for
each way a statement can go, with the conditions under which it goes that way. Every
fact about runs is proved by cases on it, so that the step function is taken apart once.

## Main results

* `step_spec`: a step of the step function is one of these.
* `loadSegment_induct`: what every `supt_install_filesys` keeps, `load_segment` keeps.
-/

open Verif Verif.Outcome

namespace Pintos

/-- The steps of the system. -/
inductive VmStep (m : Machine) (s : Vm) : VmAction → Vm → Prop
  | start : VmStep m s .start s.started
  | loadSegment {p file ofs u rb zb w env s'} (hpc : s.pc p = some .loading)
      (h : s.loadSegment p file ofs u rb zb w env.junk = .ok s') :
      VmStep m s (.loadSegment p file ofs u rb zb w env) s'
  | setupStack {p} (hpc : s.pc p = some .loading) :
      VmStep m s (.setupStack p) (s.goto p (.alloc .stack .lock))
  | read {p addr e} (hpc : s.pc p = some .user) (haddr : addr < physBase)
      (he : s.lookupPage p (addr / pgSize) = some e) :
      VmStep m s (.read p addr) (s.emit (.read p addr (s.pages e.kpage (pgOfs addr))))
  | write {p addr b e} (hpc : s.pc p = some .user) (haddr : addr < physBase)
      (he : s.lookupPage p (addr / pgSize) = some e) (hw : e.writable = true) :
      VmStep m s (.write p addr b) ((s.storeByte e.kpage addr b).emit (.wrote p addr b))
  | faultGrow {p addr esp fEsp env} (hpc : s.pc p = some .user)
      (hpte : s.lookupPage p (addr / pgSize) = none)
      (he : s.suptLookup p (addr / pgSize) = none) :
      VmStep m s (.fault p addr esp fEsp env)
        ((s.suptInstallZeropage p (addr / pgSize) env.junk).goto p
          (.alloc (.page (addr / pgSize)) .lock))
  | faultFail {p addr esp fEsp env} (hpc : s.pc p = some .user)
      (he : s.suptLookup p (addr / pgSize) = none) :
      VmStep m s (.fault p addr esp fEsp env) (s.goto p .failed)
  | faultAgain {p addr esp fEsp env} (hpc : s.pc p = some .user) :
      VmStep m s (.fault p addr esp fEsp env) s
  | faultLoad {p addr esp fEsp env e} (hpc : s.pc p = some .user)
      (hpte : s.lookupPage p (addr / pgSize) = none)
      (he : s.suptLookup p (addr / pgSize) = some e) (hstatus : e.status ≠ .onFrame) :
      VmStep m s (.fault p addr esp fEsp env) (s.goto p (.alloc (.page (addr / pgSize)) .lock))
  | violation {p} (hpc : s.pc p = some .user) : VmStep m s (.violation p) (s.goto p .failed)
  | lock {p env w} (hpc : s.pc p = some (.alloc w .lock)) (hlock : s.lock = none) :
      VmStep m s (.run p env) ((s.setLock (some p)).goto p (.alloc w .getPage))
  | getPage {p env w a k} (hpc : s.pc p = some (.alloc w a)) (ha : a = .getPage ∨ a = .again)
      (hk : s.used k = false) :
      VmStep m s (.run p env) ((s.takePage k (w = .stack)).goto p (.alloc w (.insert k)))
  | pick {p env w f} (hpc : s.pc p = some (.alloc w .getPage)) (hf : s.evictable f = true) :
      VmStep m s (.run p env) (s.goto p (.alloc w (.clear f)))
  | clear {p env w f fr} (hpc : s.pc p = some (.alloc w (.clear f)))
      (hfr : s.frames f = some fr) :
      VmStep m s (.run p env) ((s.clearPte fr.t fr.upage).goto p (.alloc w (.swapOut f)))
  | swapOut {p env w f fr n} (hpc : s.pc p = some (.alloc w (.swapOut f)))
      (hfr : s.frames f = some fr) (hn : s.swap.available n = true) :
      VmStep m s (.run p env)
        ((s.setSwapArea ⟨Function.update s.swap.available n false,
          swapWrite s.swap.disk n (s.pages fr.kpage)⟩).goto p (.alloc w (.setSwap f n)))
  | setSwap {p env w f n fr e} (hpc : s.pc p = some (.alloc w (.setSwap f n)))
      (hfr : s.frames f = some fr) (he : s.suptLookup fr.t fr.upage = some e) :
      VmStep m s (.run p env)
        ((s.setSpte fr.t fr.upage
          { e with status := .onSwap, kpage := none, swapIndex := some n }).goto p
            (.alloc w (.setDirty f)))
  | setSwapMissing {p env w f n fr} (hpc : s.pc p = some (.alloc w (.setSwap f n)))
      (hfr : s.frames f = some fr) (he : s.suptLookup fr.t fr.upage = none) :
      VmStep m s (.run p env) (s.goto p (.alloc w (.setDirty f)))
  | setDirty {p env w f fr e d} (hpc : s.pc p = some (.alloc w (.setDirty f)))
      (hfr : s.frames f = some fr) (he : s.suptLookup fr.t fr.upage = some e) :
      VmStep m s (.run p env)
        ((s.setSpte fr.t fr.upage { e with dirty := d }).goto p (.alloc w (.free f)))
  | free {p env w f fr g} (hpc : s.pc p = some (.alloc w (.free f)))
      (hfr : s.frames f = some fr) (hg : s.frameMap fr.kpage = some g) :
      VmStep m s (.run p env)
        (((s.frameRemove g fr.kpage).releasePage fr.kpage).goto p (.alloc w .again))
  | insertPage {p env u k} (hpc : s.pc p = some (.alloc (.page u) (.insert k)))
      (henv : env.granted = true) :
      VmStep m s (.run p env) (((s.frameInsert p u k).setLock none).goto p (.fill u k))
  | insertStack {p env k} (hpc : s.pc p = some (.alloc .stack (.insert k)))
      (henv : env.granted = true) :
      VmStep m s (.run p env)
        (((s.frameInsert p stackPage k).setLock none).goto p (.stackMap k))
  | insertFail {p env w k} (hpc : s.pc p = some (.alloc w (.insert k)))
      (henv : env.granted = false) :
      VmStep m s (.run p env) ((s.setLock none).goto p .failed)
  | fillZero {p env u k e} (hpc : s.pc p = some (.fill u k))
      (he : s.suptLookup p u = some e) (hstatus : e.status = .allZero) :
      VmStep m s (.run p env) ((s.fillPage k zeroPage).goto p (.map u k true))
  | fillFrame {p env u k e} (hpc : s.pc p = some (.fill u k))
      (he : s.suptLookup p u = some e) (hstatus : e.status = .onFrame) :
      VmStep m s (.run p env) (s.goto p (.map u k true))
  | fillSwap {p env u k e n} (hpc : s.pc p = some (.fill u k))
      (he : s.suptLookup p u = some e) (hstatus : e.status = .onSwap)
      (hn : e.swapIndex = some n) :
      VmStep m s (.run p env)
        (((s.fillPage k (swapRead s.swap.disk n)).setSwapArea
          { s.swap with available := Function.update s.swap.available n true }).goto p
            (.map u k true))
  | fillFile {p env u k e} (hpc : s.pc p = some (.fill u k))
      (he : s.suptLookup p u = some e) (hstatus : e.status = .fromFilesys)
      (hlen : (m.fileRead e.file e.fileOffset e.readBytes).length = e.readBytes) :
      VmStep m s (.run p env)
        ((s.fillPage k fun i => (m.fileRead e.file e.fileOffset e.readBytes).getD i 0).goto p
          (.map u k e.writable))
  | fillShort {p env u k e page} (hpc : s.pc p = some (.fill u k))
      (he : s.suptLookup p u = some e) (hstatus : e.status = .fromFilesys) :
      VmStep m s (.run p env) ((s.fillPage k page).goto p (.drop k))
  | map {p env u k w} (hpc : s.pc p = some (.map u k w)) (henv : env.granted = true) :
      VmStep m s (.run p env) ((s.setPte p u ⟨k, w⟩).goto p (.setFrame u k))
  | mapFail {p env u k w} (hpc : s.pc p = some (.map u k w)) (henv : env.granted = false) :
      VmStep m s (.run p env) (s.goto p (.drop k))
  | setFrame {p env u k e} (hpc : s.pc p = some (.setFrame u k))
      (he : s.suptLookup p u = some e) :
      VmStep m s (.run p env)
        ((s.setSpte p u { e with kpage := some k, status := .onFrame }).goto p (.unpin k))
  | stackMap {p env k} (hpc : s.pc p = some (.stackMap k)) :
      VmStep m s (.run p env) ((s.setPte p stackPage ⟨k, true⟩).goto p (.stackInstall k))
  | stackMapFail {p env k} (hpc : s.pc p = some (.stackMap k)) :
      VmStep m s (.run p env) (s.goto p (.drop k))
  | stackInstall {p env k} (hpc : s.pc p = some (.stackInstall k))
      (he : s.suptLookup p stackPage = none) :
      VmStep m s (.run p env) ((s.suptInstallFrame p stackPage k env.junk).goto p (.unpin k))
  | stackDuplicate {p env k} (hpc : s.pc p = some (.stackInstall k))
      (he : (s.suptLookup p stackPage).isSome = true) :
      VmStep m s (.run p env) (s.goto p (.drop k))
  | unpin {p env k g} (hpc : s.pc p = some (.unpin k)) (hlock : s.lock = none)
      (hg : s.frameMap k = some g) :
      VmStep m s (.run p env) ((s.unpinEntry g).goto p .user)
  | drop {p env k g} (hpc : s.pc p = some (.drop k)) (hlock : s.lock = none)
      (hg : s.frameMap k = some g) :
      VmStep m s (.run p env) (((s.frameRemove g k).releasePage k).goto p .failed)
  | exit {p s'} (hpc : s.pc p = some .loading ∨ s.pc p = some .user ∨ s.pc p = some .failed)
      (h : s.pagedirDestroy ((s.pagedir p).entries.map (·.2.kpage)) = .ok s') :
      VmStep m s (.exit p) (s'.gone p)

namespace Vm

variable {m : Machine} {s : Vm} {p : Pid} {env : Env}

/-- The page that `palloc_get_page` returns was free. -/
theorem pallocGetPage_eq_some {zero : Bool} {k : ℕ} {s' : Vm}
    (h : s.pallocGetPage m zero = some (k, s')) : s.used k = false ∧ s' = s.takePage k zero := by
  simp only [pallocGetPage, Option.map_eq_some_iff, Prod.mk.injEq] at h
  obtain ⟨k', hscan, rfl, rfl⟩ := h
  exact ⟨(Bitmap.scan_one_eq_some hscan).1, rfl⟩

/-- What `frame_do_free` does. -/
theorem frameDoFree_spec (k : ℕ) :
    (s.frameDoFree k).Post fun s' =>
      ∃ g, s.frameMap k = some g ∧ s' = (s.frameRemove g k).releasePage k := by
  rw [frameDoFree]
  split
  · trivial
  · rename_i g hg
    exact Spec.ensure_of trivial fun _ => ⟨g, hg, rfl⟩

/-- A page that is taken out of the pool. -/
theorem getPage_spec {w : Want} {a : AllocPc} {k : ℕ} {s' : Vm}
    (hpc : s.pc p = some (.alloc w a)) (ha : a = .getPage ∨ a = .again)
    (h : s.pallocGetPage m (w = .stack) = some (k, s')) :
    VmStep m s (.run p env) (s'.goto p (.alloc w (.insert k))) := by
  obtain ⟨hk, rfl⟩ := pallocGetPage_eq_some h
  exact .getPage hpc ha hk

/-- The statements of `frame_allocate`. -/
theorem allocStep_spec {w : Want} {a : AllocPc} (hpc : s.pc p = some (.alloc w a)) :
    (s.allocStep m p env w a).Post (VmStep m s (.run p env)) := by
  cases a with
  | lock => exact Spec.require fun hlock => .lock hpc hlock
  | getPage =>
    rw [allocStep]
    split
    · exact getPage_spec hpc (.inl rfl) ‹_›
    · rw [pickFrameToEvict]
      exact Spec.bind (P := fun f => s.evictable f = true)
        (Spec.ensure_of trivial fun _ => Spec.require fun hf => hf) fun f _ hf => .pick hpc hf
  | clear f =>
    rw [allocStep]
    split
    · trivial
    · exact Spec.ensure_of trivial fun _ => .clear hpc ‹_›
  | swapOut f =>
    rw [allocStep]
    split
    · trivial
    · split
      · obtain ⟨hn, -, rfl⟩ := SwapArea.swapOut_eq_ok ‹_›
        exact .swapOut hpc ‹_› hn
      · trivial
      · trivial
  | setSwap f n =>
    rw [allocStep]
    split
    · trivial
    · split
      · exact .setSwapMissing hpc ‹_› ‹_›
      · exact .setSwap hpc ‹_› ‹_›
  | setDirty f =>
    rw [allocStep]
    split
    · trivial
    · split
      · trivial
      · exact .setDirty hpc ‹_› ‹_›
  | free f =>
    rw [allocStep]
    split
    · trivial
    · refine Spec.bind (frameDoFree_spec _) ?_
      rintro _ - ⟨g, hg, rfl⟩
      exact .free hpc ‹_› hg
  | again =>
    rw [allocStep]
    split
    · exact getPage_spec hpc (.inr rfl) ‹_›
    · trivial
  | insert k =>
    rw [allocStep]
    cases henv : env.granted with
    | false => exact .insertFail hpc henv
    | true =>
      cases w with
      | page u => exact .insertPage hpc henv
      | stack => exact .insertStack hpc henv

/-- The `switch` of `load_page`. -/
theorem fillFrame_spec {u k : ℕ} {e : Spte} (hpc : s.pc p = some (.fill u k))
    (he : s.suptLookup p u = some e) :
    (s.fillFrame m p u k e).Post (VmStep m s (.run p env)) := by
  rw [fillFrame]
  split
  · exact .fillZero hpc he ‹_›
  · exact .fillFrame hpc he ‹_›
  · split
    · trivial
    · split
      · obtain ⟨-, -, rfl, rfl⟩ := SwapArea.swapIn_eq_ok ‹_›
        exact .fillSwap hpc he ‹_› ‹_›
      · trivial
      · trivial
  · dsimp only
    split
    · exact Spec.ensure_of trivial fun _ => .fillFile hpc he ‹_› ‹_›
    · exact .fillShort hpc he ‹_›

/-- The next statement of a process. -/
theorem runStep_spec {c : VmPc} (hpc : s.pc p = some c) :
    (s.runStep m p env c).Post (VmStep m s (.run p env)) := by
  cases c with
  | loading | user | failed => trivial
  | alloc w a => exact allocStep_spec hpc
  | fill u k =>
    rw [runStep]
    split
    · trivial
    · exact fillFrame_spec hpc ‹_›
  | map u k w =>
    rw [runStep]
    cases henv : env.granted with
    | false => exact .mapFail hpc henv
    | true => exact Spec.ensure_of trivial fun _ => .map hpc henv
  | setFrame u k =>
    rw [runStep]
    split
    · trivial
    · exact .setFrame hpc ‹_›
  | stackMap k =>
    rw [runStep]
    split
    · exact .stackMap hpc
    · exact .stackMapFail hpc
  | stackInstall k =>
    rw [runStep]
    cases he : s.suptLookup p stackPage with
    | none => exact .stackInstall hpc he
    | some e => exact .stackDuplicate hpc (by rw [he, Option.isSome_some])
  | unpin k =>
    refine Spec.require fun hlock => Spec.bind
      (P := fun s' => ∃ g, s.frameMap k = some g ∧ s' = s.unpinEntry g) ?_ ?_
    · rw [frameUnpin]
      split
      · trivial
      · exact ⟨_, ‹_›, rfl⟩
    · rintro _ - ⟨g, hg, rfl⟩
      exact .unpin hpc hlock hg
  | drop k =>
    refine Spec.require fun hlock => Spec.bind (frameDoFree_spec _) ?_
    rintro _ - ⟨g, hg, rfl⟩
    exact .drop hpc hlock hg

/-- `page_fault`, for a page that is not present. -/
theorem pageFault_spec {addr esp fEsp : ℕ} (hpc : s.pc p = some .user)
    (hpte : s.lookupPage p (addr / pgSize) = none) :
    VmStep m s (.fault p addr esp fEsp env) (s.pageFault p addr esp fEsp env.junk) := by
  cases he : s.suptLookup p (addr / pgSize) with
  | none =>
    rw [pageFault]
    cases hgrow : growsStack addr esp fEsp with
    | false =>
      have heq : (s.loadPage p (addr / pgSize)) = s.goto p .failed := by rw [loadPage, he]
      simpa [he, heq] using VmStep.faultFail hpc he
    | true =>
      have hnew : (s.suptInstallZeropage p (addr / pgSize) env.junk).suptLookup p
          (addr / pgSize) =
          some { env.junk with kpage := none, status := .allZero, dirty := false } := by
        simp [suptInstallZeropage, suptLookup, setSpte, emit]
      simpa [he, loadPage, hnew] using VmStep.faultGrow hpc hpte he
  | some e =>
    have heq : s.pageFault p addr esp fEsp env.junk = s.loadPage p (addr / pgSize) := by
      simp [pageFault, he]
    rw [heq, loadPage, he]
    dsimp only
    split
    · exact .faultAgain hpc
    · exact .faultLoad hpc hpte he ‹_›

/-- **A step of the step function is one of the steps of the system.** -/
theorem step_spec (m : Machine) (s : Vm) (a : VmAction) :
    (s.step m a).Post (VmStep m s a) := by
  cases a with
  | start => exact .start
  | loadSegment p file ofs u rb zb w env =>
    refine Spec.require fun hpc => ?_
    cases h : s.loadSegment p file ofs u rb zb w env.junk with
    | ok s' => exact .loadSegment hpc h
    | blocked | panic e => trivial
  | setupStack p => exact Spec.require fun hpc => .setupStack hpc
  | read p addr =>
    refine Spec.require fun hpc => ?_
    split
    · trivial
    · exact .read hpc.1 hpc.2 ‹_›
  | write p addr b =>
    refine Spec.require fun hpc => ?_
    split
    · trivial
    · exact Spec.require fun hw => .write hpc.1 hpc.2 ‹_› hw
  | fault p addr esp fEsp env =>
    exact Spec.require fun hpc => pageFault_spec hpc.1 hpc.2
  | violation p => exact Spec.require fun hpc => .violation hpc
  | run p env =>
    rw [step]
    split
    · trivial
    · exact runStep_spec ‹_›
  | exit p =>
    refine Spec.require fun hpc => ?_
    cases h : s.pagedirDestroy ((s.pagedir p).entries.map (·.2.kpage)) with
    | ok s' => exact .exit hpc h
    | blocked | panic e => trivial

/-- **The loop of `load_segment`.** What one `supt_install_filesys` on a fresh page keeps,
the whole segment keeps. -/
theorem loadSegment_induct {I : Vm → Prop} {file ofs u rb zb : ℕ} {w : Bool} {junk : Spte} {s' : Vm}
    (hI : I s) (h : s.loadSegment p file ofs u rb zb w junk = .ok s')
    (hstep : ∀ (s : Vm) (u ofs rb zb : ℕ), I s → s.suptLookup p u = none →
      s.lookupPage p u = none →
      I ((s.setSpte p u ⟨none, .fromFilesys, false, junk.swapIndex, file, ofs, rb, zb, w⟩).emit
        (.installed p u (.filesys file ofs rb w)))) : I s' := by
  obtain ⟨-, hloop⟩ := ensure_bind_eq_ok.mp h
  clear h
  generalize (rb + zb) / pgSize = n at hloop
  induction n generalizing s ofs u rb zb with
  | zero =>
    cases hloop
    exact hI
  | succ n ih =>
    rw [loadSegmentLoop] at hloop
    obtain ⟨hpte, hloop⟩ := ensure_bind_eq_ok.mp hloop
    obtain ⟨s₁, hinstall, hloop⟩ := bind_eq_ok.mp hloop
    obtain ⟨hnone, hs₁⟩ := ensure_bind_eq_ok.mp hinstall
    cases hs₁
    exact ih (hstep s u ofs _ _ hI hnone hpte) hloop

end Vm

end Pintos
