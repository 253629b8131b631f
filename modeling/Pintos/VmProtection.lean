import Pintos.VmRules

/-!
# Page Protection

Every page is installed read-only or writable: a page of a segment as `load_segment` was
told, a page of the stack writable. Whether the page directory agrees whenever the page
is present depends on `load_page`, which uses the recorded protection for a page it
reads from the file and makes every other page writable. So protection is stable as
long as no page that was installed read-only is read back from swap
(`page_protection_stable`), and a read-only page that is evicted and reloaded is
writable (`reloaded_page_writable`).

## Main results

* `page_protection_stable`: in every run in which no read-only page is read back from
  swap, the page directories agree with the protection the pages were installed with.
* `reloaded_page_writable`: a run after which a page of a read-only segment is writable.
-/

open Verif Verif.Outcome

namespace Pintos

/-- Whether a page was installed writable: what `load_segment` was told, and always for
the stack. -/
def Origin.writable : Origin → Bool
  | .filesys _ _ _ w => w
  | .zeropage | .frame => true

/-- How a page was installed, by the latest installation recorded. -/
def originOf : List VmEvent → Pid → ℕ → Option Origin
  | [], _, _ => none
  | .installed q v o :: log, p, u => if q = p ∧ v = u then some o else originOf log p u
  | .read .. :: log, p, u => originOf log p u
  | .wrote .. :: log, p, u => originOf log p u

/-- In `install_page`, between the page directory and the supplemental page table. -/
def VmPc.inInstallPage : VmPc → Bool
  | .stackInstall _ => true
  | _ => false

namespace Vm

/-- Whether a page was installed writable; the stack page that `install_page` has just
mapped is. -/
def installedWritable (s : Vm) (p : Pid) (u : ℕ) : Option Bool :=
  if (s.pc p).any (·.inInstallPage) = true ∧ u = stackPage then some true
  else (originOf s.log p u).map (·.writable)

/-- **Page protection**: a present page is writable exactly if it was installed writable. -/
def Protected (s : Vm) : Prop :=
  ∀ p u e, s.lookupPage p u = some e → s.installedWritable p u = some e.writable

/-- A page that `load_page` fills from elsewhere than its file was installed writable,
and `install_page` finds no entry for the stack page. -/
def keepsProtection (s : Vm) (p : Pid) : Option VmPc → Bool
  | some (.fill u _) =>
    (s.suptLookup p u).all (fun e => e.status == .fromFilesys) ||
      (originOf s.log p u).all (·.writable)
  | some (.stackInstall _) => (s.suptLookup p stackPage).isNone
  | _ => true

/-- **No page that was installed read-only is read back from swap**, and no segment covers
the stack page. -/
def NoReadOnlyReload (s : Vm) : VmAction → Prop
  | .run p _ => s.keepsProtection p (s.pc p) = true
  | _ => True

instance (s : Vm) : (a : VmAction) → Decidable (s.NoReadOnlyReload a)
  | .run p _ => inferInstanceAs (Decidable (s.keepsProtection p (s.pc p) = true))
  | .exit _ => .isTrue trivial
  | .start => .isTrue trivial
  | .loadSegment .. => .isTrue trivial
  | .setupStack _ => .isTrue trivial
  | .read .. => .isTrue trivial
  | .write .. => .isTrue trivial
  | .fault .. => .isTrue trivial
  | .violation _ => .isTrue trivial

/-- An entry knows its page's protection as long as `load_page` relies on it. -/
def EntryOk (o : Option Origin) (e : Spte) : Prop :=
  ∃ o', o = some o' ∧ (e.status = .fromFilesys → o'.writable = e.writable) ∧
    (e.status = .allZero → o'.writable = true)

/-- What keeps the pages protected. -/
structure Shielded (s : Vm) : Prop where
  present : s.Protected
  entries : ∀ p u e, s.suptLookup p u = some e → EntryOk (originOf s.log p u) e
  filled : ∀ p u k w, s.pc p = some (.map u k w) → (originOf s.log p u).map (·.writable) = some w

variable {s t : Vm} {p q : Pid} {c c' : VmPc} {u v k : ℕ} {w : Bool} {e : Spte}

theorem installedWritable_of_pc (hc : s.pc p = some c) (hi : c.inInstallPage = false) (u : ℕ) :
    s.installedWritable p u = (originOf s.log p u).map (·.writable) := by
  rw [installedWritable, hc, Option.any_some, hi, if_neg fun h => Bool.false_ne_true h.1]

/-- The protection of the pages after a step that records no installation. -/
theorem installedWritable_goto (hc : s.pc p = some c) (hpc : t.pc = s.pc)
    (hlog : t.log = s.log) (hi : c.inInstallPage = c'.inInstallPage) (q : Pid) (v : ℕ) :
    (t.goto p c').installedWritable q v = s.installedWritable q v := by
  have hlog' : (t.goto p c').log = s.log := hlog
  rw [installedWritable, installedWritable, hlog', pc_goto, hpc]
  split
  · rename_i hq
    rw [hq, hc, Option.any_some, Option.any_some, hi]
  · rfl

/-- **The rule for a step** that records no installation, with the entries of the page
directories and of the supplemental page tables it may change. -/
theorem Shielded.goto (h : s.Shielded) (hc : s.pc p = some c) (hpc : t.pc = s.pc)
    (hlog : t.log = s.log) (hi : c.inInstallPage = c'.inInstallPage)
    (hpte : ∀ q v e, t.lookupPage q v = some e →
      s.lookupPage q v = some e ∨ s.installedWritable q v = some e.writable)
    (hspte : ∀ q v e, t.suptLookup q v = some e →
      s.suptLookup q v = some e ∨ EntryOk (originOf s.log q v) e)
    (hfill : ∀ u k w, c' = .map u k w → (originOf s.log p u).map (·.writable) = some w) :
    (t.goto p c').Shielded where
  present q v e he := by
    rw [installedWritable_goto hc hpc hlog hi]
    rcases hpte q v e he with he | hw
    · exact h.present q v e he
    · exact hw
  entries q v e he := by
    have hlog' : (t.goto p c').log = s.log := hlog
    rw [hlog']
    rcases hspte q v e he with he | hok
    · exact h.entries q v e he
    · exact hok
  filled q v k w hq := by
    have hlog' : (t.goto p c').log = s.log := hlog
    rw [hlog']
    rw [pc_goto, hpc] at hq
    split at hq
    · rename_i hqp
      rw [hqp]
      exact hfill v k w (Option.some.inj hq)
    · exact h.filled q v k w hq

/-- A step that changes no page directory and no supplemental page table. -/
theorem Shielded.quiet (h : s.Shielded) (hc : s.pc p = some c) (hpc : t.pc = s.pc)
    (hlog : t.log = s.log) (hdir : t.pagedir = s.pagedir) (hsupt : t.supt = s.supt)
    (hi : c.inInstallPage = c'.inInstallPage)
    (hfill : ∀ u k w, c' = .map u k w → (originOf s.log p u).map (·.writable) = some w) :
    (t.goto p c').Shielded := by
  refine h.goto hc hpc hlog hi (fun q v e he => .inl ?_) (fun q v e he => .inl ?_) hfill
  · rw [lookupPage, ← hdir]
    exact he
  · rw [suptLookup, ← hsupt]
    exact he

/-- A new entry is recorded, for a page that is not present. -/
theorem Shielded.install {o : Origin} (h : s.Shielded) (hc : s.pc p = some c)
    (hmap : ∀ u k w, c ≠ .map u k w) (hpte : s.lookupPage p u = none)
    (he : EntryOk (some o) e) : ((s.setSpte p u e).emit (.installed p u o)).Shielded := by
  have horigin : ∀ q v, originOf ((s.setSpte p u e).emit (.installed p u o)).log q v =
      if p = q ∧ u = v then some o else originOf s.log q v := fun q v => rfl
  refine ⟨fun q v e' he' => ?_, fun q v e' he' => ?_, fun q v k w hq => ?_⟩
  · have he'' : s.lookupPage q v = some e' := he'
    have hne : ¬(p = q ∧ u = v) := by
      rintro ⟨rfl, rfl⟩
      rw [hpte] at he''
      cases he''
    have hold := h.present q v e' he''
    rw [installedWritable] at hold ⊢
    rw [horigin, if_neg hne]
    exact hold
  · have he'' : (s.setSpte p u e).suptLookup q v = some e' := he'
    rw [horigin]
    rw [suptLookup_setSpte] at he''
    by_cases hqv : q = p ∧ v = u
    · rw [if_pos hqv, Option.some.injEq] at he''
      rw [if_pos ⟨hqv.1.symm, hqv.2.symm⟩, ← he'']
      exact he
    · rw [if_neg hqv] at he''
      rw [if_neg fun h' => hqv ⟨h'.1.symm, h'.2.symm⟩]
      exact h.entries q v e' he''
  · have hq' : s.pc q = some (.map v k w) := hq
    have hne : ¬(p = q ∧ u = v) := by
      rintro ⟨rfl, -⟩
      rw [hc, Option.some.injEq] at hq'
      exact hmap v k w hq'
    rw [horigin, if_neg hne]
    exact h.filled q v k w hq'

/-- A page of the stack is recorded. -/
theorem Shielded.installZeropage (h : s.Shielded) (hc : s.pc p = some .user)
    (hpte : s.lookupPage p u = none) (junk : Spte) : (s.suptInstallZeropage p u junk).Shielded :=
  h.install hc (by simp) hpte ⟨.zeropage, rfl, by simp, fun _ => rfl⟩

/-- A process is started. -/
theorem Shielded.start (h : s.Shielded) : s.started.Shielded := by
  refine ⟨fun q v e he => ?_, fun q v e he => ?_, fun q v k w hq => ?_⟩
  · rw [lookupPage_started] at he
    split at he
    · cases he
    · rename_i hq
      have hold := h.present q v e he
      rw [installedWritable] at hold ⊢
      rw [pc_started, if_neg hq]
      exact hold
  · rw [suptLookup_started] at he
    split at he
    · cases he
    · exact h.entries q v e he
  · rw [pc_started] at hq
    split at hq
    · cases hq
    · exact h.filled q v k w hq

/-- Freeing the pages of a page directory does not touch the tables. -/
theorem pagedirDestroy_same {ks : List ℕ} (h : s.pagedirDestroy ks = .ok t) :
    t.pc = s.pc ∧ t.supt = s.supt ∧ t.pagedir = s.pagedir ∧ t.log = s.log := by
  induction ks generalizing s with
  | nil =>
    cases h
    exact ⟨rfl, rfl, rfl, rfl⟩
  | cons k ks ih =>
    obtain ⟨s₁, hfree, hrest⟩ := bind_eq_ok.mp h
    obtain ⟨-, hs₁⟩ := ensure_bind_eq_ok.mp hfree
    cases hs₁
    have hsame := ih hrest
    exact hsame

/-- A process exits. -/
theorem Shielded.exit {ks : List ℕ} (h : s.Shielded) (ht : s.pagedirDestroy ks = .ok t) :
    (t.gone p).Shielded := by
  obtain ⟨hpc, hsupt, hdir, hlog⟩ := pagedirDestroy_same ht
  have hlog' : (t.gone p).log = s.log := hlog
  refine ⟨fun q v e he => ?_, fun q v e he => ?_, fun q v k w hq => ?_⟩
  · rw [lookupPage_gone] at he
    split at he
    · cases he
    · rename_i hq
      rw [lookupPage, hdir] at he
      have hold := h.present q v e he
      rw [installedWritable] at hold ⊢
      rw [pc_gone, if_neg hq, hlog', hpc]
      exact hold
  · rw [suptLookup_gone] at he
    split at he
    · cases he
    · rw [suptLookup, hsupt] at he
      rw [hlog']
      exact h.entries q v e he
  · rw [pc_gone] at hq
    split at hq
    · cases hq
    · rw [hpc] at hq
      rw [hlog']
      exact h.filled q v k w hq

/-- An access is recorded, and the content of a frame may change. -/
theorem Shielded.access (h : s.Shielded) (pages : ℕ → Page) {ev : VmEvent}
    (hev : ∀ p u o, ev ≠ .installed p u o) :
    ({ s with pages := pages, log := ev :: s.log } : Vm).Shielded := by
  have horigin : ∀ q v, originOf (ev :: s.log) q v = originOf s.log q v := by
    intro q v
    cases ev with
    | installed p u o => exact absurd rfl (hev p u o)
    | read p a b | wrote p a b => rfl
  refine ⟨fun q v e he => ?_, fun q v e he => ?_, fun q v k w hq => ?_⟩
  · rw [installedWritable, horigin]
    exact h.present q v e he
  · rw [horigin]
    exact h.entries q v e he
  · rw [horigin]
    exact h.filled q v k w hq

/-- An entry that the eviction of its page changes. -/
theorem EntryOk.of_status {o : Option Origin} {e' : Spte} (h : EntryOk o e)
    (hfile : e'.status = .fromFilesys → e.status = .fromFilesys ∧ e'.writable = e.writable)
    (hzero : e'.status = .allZero → e.status = .allZero) : EntryOk o e' := by
  obtain ⟨o', ho, hf, hz⟩ := h
  refine ⟨o', ho, fun hs => ?_, fun hs => hz (hzero hs)⟩
  rw [(hfile hs).2]
  exact hf (hfile hs).1

/-- A step that changes an entry without forgetting the protection. -/
theorem Shielded.setSpte {o : Pid} {e' : Spte} (h : s.Shielded) (hc : s.pc p = some c)
    (he : s.suptLookup o u = some e)
    (hfile : e'.status = .fromFilesys → e.status = .fromFilesys ∧ e'.writable = e.writable)
    (hzero : e'.status = .allZero → e.status = .allZero)
    (hi : c.inInstallPage = c'.inInstallPage) (hmap : ∀ u k w, c' ≠ .map u k w) :
    ((s.setSpte o u e').goto p c').Shielded := by
  refine h.goto hc rfl rfl hi (fun q v e he => .inl he) (fun q v e₁ he₁ => ?_)
    fun u k w hc' => absurd hc' (hmap u k w)
  rw [suptLookup_setSpte] at he₁
  split at he₁
  · rename_i hqv
    cases he₁
    rw [hqv.1, hqv.2]
    exact .inr ((h.entries o u e he).of_status hfile hzero)
  · exact .inl he₁

/-- The stack page is mapped writable. -/
theorem Shielded.stackMap (h : s.Shielded) (hc : s.pc p = some (.stackMap k)) :
    ((s.setPte p stackPage ⟨k, true⟩).goto p (.stackInstall k)).Shielded := by
  have hlog : ((s.setPte p stackPage ⟨k, true⟩).goto p (.stackInstall k)).log = s.log := rfl
  refine ⟨fun q v e he => ?_, h.entries, fun q v k' w hq => ?_⟩
  · have he' : (s.setPte p stackPage ⟨k, true⟩).lookupPage q v = some e := he
    rw [lookupPage_setPte] at he'
    rw [installedWritable, pc_goto]
    split at he'
    · rename_i hqv
      cases he'
      rw [if_pos hqv.1, if_pos ⟨rfl, hqv.2⟩]
    · rename_i hqv
      have hold := h.present q v e he'
      by_cases hq : q = p
      · rw [if_pos hq, if_neg fun h' => hqv ⟨hq, h'.2⟩, hlog]
        rw [hq, installedWritable_of_pc hc rfl] at hold
        rw [hq]
        exact hold
      · rw [if_neg hq]
        exact hold
  · rw [pc_goto] at hq
    split at hq
    · cases hq
    · exact h.filled q v k' w hq

/-- The stack page is recorded. -/
theorem Shielded.stackInstall (h : s.Shielded) (hc : s.pc p = some (.stackInstall k))
    (junk : Spte) : ((s.suptInstallFrame p stackPage k junk).goto p (.unpin k)).Shielded := by
  have horigin : ∀ q v,
      originOf ((s.suptInstallFrame p stackPage k junk).goto p (.unpin k)).log q v =
        if p = q ∧ stackPage = v then some .frame else originOf s.log q v := fun q v => rfl
  refine ⟨fun q v e he => ?_, fun q v e he => ?_, fun q v k' w hq => ?_⟩
  · have hold := h.present q v e he
    rw [installedWritable, pc_goto, horigin]
    rw [installedWritable] at hold
    by_cases hq : q = p
    · rw [if_pos hq, if_neg fun h' => Bool.false_ne_true h'.1]
      rw [hq, hc] at hold
      by_cases hv : v = stackPage
      · rw [if_pos ⟨rfl, hv⟩] at hold
        rw [if_pos ⟨hq.symm, hv.symm⟩, ← hold]
        rfl
      · rw [if_neg fun h' => hv h'.2] at hold
        rw [if_neg fun h' => hv h'.2.symm, hq]
        exact hold
    · rw [if_neg hq, if_neg (fun h' : p = q ∧ stackPage = v => hq h'.1.symm)]
      exact hold
  · have he' : (s.setSpte p stackPage _).suptLookup q v = some e := he
    rw [suptLookup_setSpte] at he'
    rw [horigin]
    split at he'
    · rename_i hqv
      cases he'
      rw [if_pos ⟨hqv.1.symm, hqv.2.symm⟩]
      exact ⟨.frame, rfl, by simp, fun _ => rfl⟩
    · rename_i hqv
      rw [if_neg fun h' => hqv ⟨h'.1.symm, h'.2.symm⟩]
      exact h.entries q v e he'
  · rw [pc_goto] at hq
    split at hq
    · cases hq
    · rename_i hqp
      rw [horigin, if_neg fun h' => hqp h'.1.symm]
      exact h.filled q v k' w hq

/-- What the condition says about a page that is not read from its file. -/
theorem Shielded.writable_of_keeps (h : s.Shielded) (hc : s.pc p = some (.fill u k))
    (he : s.suptLookup p u = some e) (hstatus : e.status ≠ .fromFilesys)
    (ha : s.keepsProtection p (s.pc p) = true) :
    (originOf s.log p u).map (·.writable) = some true := by
  obtain ⟨o, ho, -, -⟩ := h.entries p u e he
  rw [hc, keepsProtection, he, ho, Option.all_some, Option.all_some,
    beq_eq_false_iff_ne.mpr hstatus, Bool.false_or] at ha
  rw [ho, Option.map_some, ha]

end Vm

/-- **A step in which no read-only page is read back from swap keeps the pages
protected.** -/
theorem VmStep.shielded {m : Machine} {s s' : Vm} {a : VmAction} (hst : VmStep m s a s')
    (h : s.Shielded) (ha : s.NoReadOnlyReload a) : s'.Shielded := by
  cases hst with
  | start => exact h.start
  | @loadSegment p file ofs u rb zb w env s' hpc hload =>
    have hboth : s'.Shielded ∧ s'.pc p = some .loading := by
      refine Vm.loadSegment_induct (I := fun s => s.Shielded ∧ s.pc p = some .loading)
        ⟨h, hpc⟩ hload fun s₁ u ofs rb zb h₁ _ hpte => ⟨?_, h₁.2⟩
      exact h₁.1.install h₁.2 (by simp) hpte ⟨_, rfl, fun _ => rfl, by simp⟩
    exact hboth.1
  | setupStack hpc | faultFail hpc he | faultLoad hpc hpte he hstatus | violation hpc
  | lock hpc hlock | getPage hpc ha' hk | pick hpc hf | swapOut hpc hfr hn
  | setSwapMissing hpc hfr he | free hpc hfr hg | insertPage hpc henv | insertStack hpc henv
  | insertFail hpc henv | fillShort hpc he hstatus | mapFail hpc henv | stackMapFail hpc
  | unpin hpc hlock hg | drop hpc hlock hg => exact h.quiet hpc rfl rfl rfl rfl rfl (by simp)
  | read hpc haddr he => exact h.access s.pages (by simp)
  | write hpc haddr he hw => exact h.access _ (by simp)
  | faultGrow hpc hpte he =>
    exact (h.installZeropage hpc hpte _).quiet hpc rfl rfl rfl rfl rfl (by simp)
  | faultAgain hpc => exact h
  | clear hpc hfr =>
    exact h.goto hpc rfl rfl rfl (fun q v e he => .inl (Vm.lookupPage_of_clearPte he))
      (fun q v e he => .inl he) (by simp)
  | setSwap hpc hfr he | setFrame hpc he =>
    exact h.setSpte hpc he (by simp) (by simp) rfl (by simp)
  | setDirty hpc hfr he => exact h.setSpte hpc he (fun h' => ⟨h', rfl⟩) id rfl (by simp)
  | fillZero hpc he hstatus | fillFrame hpc he hstatus | fillSwap hpc he hstatus hn =>
    refine h.quiet hpc rfl rfl rfl rfl rfl ?_
    rintro u k w ⟨⟩
    exact h.writable_of_keeps hpc he (by rw [hstatus]; simp) ha
  | fillFile hpc he hstatus hlen =>
    refine h.quiet hpc rfl rfl rfl rfl rfl ?_
    rintro u k w ⟨⟩
    obtain ⟨o, ho, hfile, -⟩ := h.entries _ _ _ he
    rw [ho, Option.map_some, hfile hstatus]
  | map hpc henv =>
    refine h.goto hpc rfl rfl rfl (fun q v e he => ?_) (fun q v e he => .inl he) (by simp)
    rw [Vm.lookupPage_setPte] at he
    split at he
    · rename_i hqv
      cases he
      rw [hqv.1, hqv.2, Vm.installedWritable_of_pc hpc rfl]
      exact .inr (h.filled _ _ _ _ hpc)
    · exact .inl he
  | stackMap hpc => exact h.stackMap hpc
  | stackInstall hpc he => exact h.stackInstall hpc _
  | stackDuplicate hpc he =>
    rw [Vm.NoReadOnlyReload, hpc, Vm.keepsProtection, Option.isNone_iff_eq_none] at ha
    rw [ha] at he
    cases he
  | exit hpc ht => exact h.exit ht

/-- **Page protection is stable.** In every run in which no page that was installed
read-only is read back from swap, a present page is writable exactly if it was installed
writable. -/
theorem page_protection_stable {m : Machine} {s : Vm} (h : VmReachable m Vm.NoReadOnlyReload s) :
    s.Protected := by
  have hinit : (vmInit m).Shielded := by
    refine ⟨fun p u e he => ?_, fun p u e he => ?_, fun p u k w hpc => ?_⟩
    · cases he
    · cases he
    · cases hpc
  have hshielded : s.Shielded :=
    h.invariant hinit
      fun s a _ hs ha hstep => ((Vm.step_spec m s a).of_eq_ok hstep).shielded hs ha
  exact hshielded.present

/-- A machine with one page in its user pool and two slots. -/
def swappingMachine : Machine where
  files _ := [1, 2, 3]
  poolPages := 1
  swapSize := 2

/-- A process is started with a read-only segment of one page, at the page 8, and a stack. -/
def startReadOnly : List VmAction :=
  [.start, .loadSegment 0 0 0 8 3 4093 false {}, .setupStack 0] ++ List.replicate 6 (.run 0 {})

/-- A fault that evicts the frame of the entry `f`. -/
def faultEvicting (addr f : ℕ) : List VmAction :=
  .fault 0 addr 0 0 {} :: List.replicate 13 (.run 0 { victim := f })

theorem page_protection_stable_startReadOnly :
    ∃ s, exec (Vm.step swappingMachine) (vmInit swappingMachine)
        (startReadOnly ++ faultEvicting 32768 0) = .ok s ∧
      s.lookupPage 0 8 = some ⟨0, false⟩ ∧ s.Protected :=
  ⟨_, rfl, rfl, page_protection_stable (m := swappingMachine)
    ⟨startReadOnly ++ faultEvicting 32768 0, Run.of_guarded rfl⟩⟩

/-- **A page that is read back from swap is writable.** The page of the read-only segment
is loaded, evicted for the stack page, and loaded again. -/
theorem reloaded_page_writable :
    ∃ s, VmReachable swappingMachine (fun _ _ => True) s ∧ s.lookupPage 0 8 = some ⟨0, true⟩ ∧
      s.installedWritable 0 8 = some false ∧ ¬s.Protected := by
  refine ⟨_, ⟨startReadOnly ++ faultEvicting 32768 0 ++ faultEvicting (physBase - 4) 1 ++
    faultEvicting 32768 2, Run.of_exec rfl⟩, rfl, rfl, fun h => ?_⟩
  exact absurd (h 0 8 ⟨0, true⟩ rfl) (by decide)

end Pintos
