import Pintos.VmMoves

/-!
# The Invariant Holds in Every Run

The invariant survives the steps that are `Orderly`. These leave out what the code does
not clean up after: the exit of a process that has pages in memory or in swap, a
failed allocation of a frame table entry, a failed allocation of a page table for a page
that has just left its swap slot, and a stack page that a segment covers.

## Main results

* `VmStep.inv`: an orderly step keeps the invariant.
* `VmReachable.inv`: the invariant holds in every state reached by orderly steps.
-/

open Verif Verif.Outcome

namespace Pintos

namespace Vm

variable {s t : Vm} {p : Pid} {u : ℕ}

/-! ### Processes come and go -/

/-- A process is started. -/
theorem InvAt.start (h : s.Inv) : s.started.Inv := by
  have hnew : s.pc s.nextPid = none := h.newer s.nextPid (Nat.le_refl _)
  have hhome : s.started.home = s.home := by
    funext q v
    rw [home, home, pc_started, suptLookup_started]
    split_ifs with hq
    · rw [hq, hnew]
      rfl
    · rfl
  have hplace : s.started.place s.home = s.place s.home := by
    funext o
    cases o with
    | page q v => rfl
    | hand q =>
      rw [place, place, hand, hand, pc_started]
      split_ifs with hq
      · rw [hq, hnew]
        rfl
      · rfl
  rw [Inv, hhome]
  refine ⟨h.table, ?_, h.homes, h.tabled, ?_, ?_, ?_⟩
  · rw [hplace]
    exact h.custody
  · intro q v e he
    rw [lookupPage_started] at he
    split at he
    · cases he
    · rw [pc_started, if_neg ‹_›]
      exact h.mapped q v e he
  · intro q d hq
    rw [pc_started] at hq
    split at hq
    · rename_i hqn
      cases hq
      rw [hqn]
      change s.home s.nextPid stackPage = none
      rw [home, hnew]
      rfl
    · rename_i hqn
      refine (h.pcs q d hq).mono (fun v hl => ?_) (fun _ _ hp => hp) id
        fun hl => ⟨hl, rfl, rfl, fun f fr _ hh => ⟨hh, fun hnone => ?_⟩⟩
      · rw [Loads, lookupPage_started, suptLookup_started, if_neg hqn, if_neg hqn]
        exact hl
      · rw [lookupPage_started, hnone, ite_self]
  · intro q hq
    have hlt : s.nextPid < q := hq
    rw [pc_started, if_neg (Nat.ne_of_gt hlt)]
    exact h.newer q (Nat.le_of_lt hlt)

/-- A process that has nothing in memory or in swap has no home for any of its pages. -/
theorem home_of_empty (hpc : s.pc p = some .loading ∨ s.pc p = some .user ∨ s.pc p = some .failed)
    (hempty : ∀ x ∈ (s.supt p).entries, x.2.status ≠ .onFrame ∧ x.2.status ≠ .onSwap) (v : ℕ) :
    s.home p v = none := by
  have hloc : (s.suptLookup p v).bind Spte.loc = none := by
    cases he : s.suptLookup p v with
    | none => rfl
    | some e =>
      obtain ⟨h₁, h₂⟩ := hempty ⟨v, e⟩ (AList.mem_lookup_iff.mp he)
      rw [Option.bind_some, Spte.loc]
      split
      · exact absurd ‹_› h₁
      · exact absurd ‹_› h₂
      · rfl
      · rfl
  rcases hpc with hpc | hpc | hpc <;> rw [home_of_pc hpc, homeOf_of_filled rfl, hloc]

/-- The exit of a process that has nothing in memory or in swap. -/
theorem InvAt.exit (h : s.Inv)
    (hpc : s.pc p = some .loading ∨ s.pc p = some .user ∨ s.pc p = some .failed)
    (hempty : ∀ x ∈ (s.supt p).entries, x.2.status ≠ .onFrame ∧ x.2.status ≠ .onSwap)
    (ht : s.pagedirDestroy ((s.pagedir p).entries.map (·.2.kpage)) = .ok t) : (t.gone p).Inv := by
  have hnone := home_of_empty hpc hempty
  have hdir : (s.pagedir p).entries = [] := by
    rw [List.eq_nil_iff_forall_not_mem]
    rintro ⟨v, e⟩ hmem
    rcases h.mapped p v e (AList.mem_lookup_iff.mpr hmem) with hl | ⟨hr, -⟩
    · rw [hnone v] at hl
      cases hl
    · rcases hpc with hpc | hpc | hpc <;> rw [hpc] at hr <;> cases hr
  rw [hdir] at ht
  cases ht
  have hhome : (s.gone p).home = s.home := by
    funext q v
    by_cases hq : q = p
    · rw [hq, hnone, home, pc_gone, if_pos rfl]
      rfl
    · rw [home, home, pc_gone, if_neg hq, suptLookup_gone, if_neg hq]
  have hplace : (s.gone p).place s.home = s.place s.home := by
    funext o
    cases o with
    | page q v => rfl
    | hand q =>
      rw [place, place, hand, hand, pc_gone]
      split_ifs with hq
      · rw [hq]
        rcases hpc with hpc | hpc | hpc <;> rw [hpc] <;> rfl
      · rfl
  rw [Inv, hhome]
  refine ⟨h.table, ?_, h.homes, h.tabled, ?_, ?_, ?_⟩
  · rw [hplace]
    exact h.custody
  · intro q v e he
    rw [lookupPage_gone] at he
    split at he
    · cases he
    · rw [pc_gone, if_neg ‹_›]
      exact h.mapped q v e he
  · intro q d hq
    rw [pc_gone] at hq
    split at hq
    · cases hq
    · rename_i hqp
      refine (h.pcs q d hq).mono (fun v hl => ?_) (fun _ _ hp => hp) id
        fun hl => ⟨hl, rfl, rfl, fun f fr _ hh => ⟨hh, fun hn => ?_⟩⟩
      · rw [Loads, lookupPage_gone, suptLookup_gone, if_neg hqp, if_neg hqp]
        exact hl
      · rw [lookupPage_gone, hn, ite_self]
  · intro q hq
    rw [pc_gone, h.newer q hq, ite_self]

/-! ### Runs -/

/-- What the next statement of a process needs to be cleaned up after: the frame table
entry can be allocated, and so can the page table for a page that was in swap, and the
stack page has no entry yet. -/
def orderlyRun (s : Vm) (p : Pid) (env : Env) : Option VmPc → Bool
  | some (.alloc _ (.insert _)) => env.granted
  | some (.map u _ _) => env.granted || (s.suptLookup p u).map (·.status) != some .onSwap
  | some (.stackInstall _) => (s.suptLookup p stackPage).isNone
  | _ => true

/-- **The orderly steps**: besides, a process exits only with nothing in memory or in swap. -/
def Orderly (s : Vm) : VmAction → Prop
  | .exit p => ∀ x ∈ (s.supt p).entries, x.2.status ≠ .onFrame ∧ x.2.status ≠ .onSwap
  | .run p env => s.orderlyRun p env (s.pc p) = true
  | _ => True

instance (s : Vm) : (a : VmAction) → Decidable (s.Orderly a)
  | .exit p => inferInstanceAs
      (Decidable (∀ x ∈ (s.supt p).entries, x.2.status ≠ .onFrame ∧ x.2.status ≠ .onSwap))
  | .run p env => inferInstanceAs (Decidable (s.orderlyRun p env (s.pc p) = true))
  | .start => .isTrue trivial
  | .loadSegment .. => .isTrue trivial
  | .setupStack _ => .isTrue trivial
  | .read .. => .isTrue trivial
  | .write .. => .isTrue trivial
  | .fault .. => .isTrue trivial
  | .violation _ => .isTrue trivial

/-- The stack grows by a page, which is then loaded. -/
theorem InvAt.faultGrow (h : s.Inv) (hc : s.pc p = some .user) (hpte : s.lookupPage p u = none)
    (hnone : s.suptLookup p u = none) (junk : Spte) :
    ((s.suptInstallZeropage p u junk).goto p (.alloc (.page u) .lock)).Inv := by
  have hinstall : (s.suptInstallZeropage p u junk).Inv := h.install hnone rfl _
  refine hinstall.advance hc (fun _ => rfl) rfl (by simp) ⟨⟨hpte, ?_⟩, trivial⟩
  refine ⟨{ junk with kpage := none, status := .allZero, dirty := false }, ?_, by simp⟩
  exact (suptLookup_setSpte s p u _ p u).trans (if_pos ⟨rfl, rfl⟩)

end Vm

/-- A page that is not in memory and was not in swap has no place. -/
theorem Spte.loc_eq_none {e : Spte} (hframe : e.status ≠ .onFrame) (hswap : e.status ≠ .onSwap) :
    e.loc = none := by
  rw [Spte.loc]
  split
  · exact absurd ‹_› hframe
  · exact absurd ‹_› hswap
  · rfl
  · rfl

/-- **An orderly step keeps the invariant.** -/
theorem VmStep.inv {m : Machine} {s s' : Vm} {a : VmAction} (hst : VmStep m s a s') (h : s.Inv)
    (ho : s.Orderly a) : s'.Inv := by
  cases hst with
  | start => exact h.start
  | loadSegment hpc hload =>
    exact Vm.loadSegment_induct h hload fun s₁ u ofs rb zb h₁ hnone _ => h₁.install hnone rfl _
  | setupStack hpc =>
    exact h.advance hpc (fun _ => rfl) rfl (by simp) ⟨h.pcs _ _ hpc, trivial⟩
  | read hpc haddr he => exact h.contents s.pages s.swap.disk _
  | write hpc haddr he hw => exact h.contents _ s.swap.disk _
  | faultGrow hpc hpte he => exact h.faultGrow hpc hpte he _
  | faultFail hpc he | violation hpc => exact h.advance hpc (fun _ => rfl) rfl (by simp) trivial
  | faultAgain hpc => exact h
  | faultLoad hpc hpte he hstatus =>
    exact h.advance hpc (fun _ => rfl) rfl (by simp) ⟨⟨hpte, _, he, hstatus⟩, trivial⟩
  | lock hpc hlock => exact h.lock hpc hlock
  | getPage hpc ha hk => exact h.getPage hpc ha hk
  | pick hpc hf => exact h.pick hpc hf
  | clear hpc hfr => exact h.clear hpc hfr
  | swapOut hpc hfr hn => exact h.swapOut hpc hn
  | setSwap hpc hfr he => exact h.setSwap hpc hfr
  | setSwapMissing hpc hfr he =>
    obtain ⟨-, -, fr', hlisted, hvictim, -⟩ := h.pcs _ _ hpc
    cases hlisted.1.symm.trans hfr
    exact absurd he (h.suptLookup_victim hlisted hvictim)
  | setDirty hpc hfr he => exact h.setDirty hpc he
  | free hpc hfr hg => exact h.free hpc hfr hg
  | insertPage hpc henv | insertStack hpc henv =>
    obtain ⟨hwant, -⟩ := h.pcs _ _ hpc
    exact h.insert hpc (fun _ => rfl) (fun _ => rfl) fun hpin => ⟨hwant, hpin⟩
  | insertFail hpc henv =>
    rw [Vm.Orderly, hpc, Vm.orderlyRun, henv] at ho
    cases ho
  | fillZero hpc he hstatus | fillFile hpc he hstatus hlen =>
    exact h.fill_fresh hpc he (Spte.loc_eq_none (by rw [hstatus]; simp) (by rw [hstatus]; simp))
  | fillFrame hpc he hstatus =>
    obtain ⟨⟨-, e', he', hne⟩, -⟩ := h.pcs _ _ hpc
    rw [he, Option.some.injEq] at he'
    exact absurd (he' ▸ hstatus) hne
  | fillSwap hpc he hstatus hn =>
    exact h.fill_slot hpc he (by rw [Spte.loc, hstatus, hn]; rfl)
  | fillShort hpc he hstatus =>
    exact (h.fillPage _ _).advance hpc (fun _ => rfl) rfl (by simp) ⟨_, (h.pcs _ _ hpc).2⟩
  | map hpc henv => exact h.map hpc
  | mapFail hpc henv =>
    obtain ⟨⟨-, e, he, hne⟩, -⟩ := h.pcs _ _ hpc
    rw [Vm.Orderly, hpc, Vm.orderlyRun, henv, Bool.false_or, bne_iff_ne, he, Option.map_some] at ho
    refine h.mapFail hpc ?_
    rw [he, Option.bind_some, Spte.loc_eq_none hne fun hswap => ho (congrArg some hswap)]
  | setFrame hpc he => exact h.setFrame hpc
  | stackMap hpc => exact h.stackMap hpc
  | stackMapFail hpc =>
    exact h.advance hpc (fun _ => rfl) rfl (by simp) ⟨_, (h.pcs _ _ hpc).2⟩
  | stackInstall hpc he => exact h.stackInstall hpc he _
  | stackDuplicate hpc he =>
    rw [Vm.Orderly, hpc, Vm.orderlyRun, Option.isNone_iff_eq_none] at ho
    rw [ho] at he
    cases he
  | unpin hpc hlock hg => exact h.unpin hpc hlock hg
  | drop hpc hlock hg => exact h.drop hpc hlock hg
  | exit hpc ht => exact h.exit hpc ho ht

/-- The invariant holds after booting. -/
theorem vmInit_inv (m : Machine) : (vmInit m).Inv where
  table :=
    { entry := fun _ _ h => nomatch h
      listed := fun _ => ⟨fun h => absurd h List.not_mem_nil, fun ⟨_, h⟩ => nomatch h⟩
      nodup := List.nodup_nil
      fresh := fun _ _ h => nomatch h }
  custody := by
    have halloc : (vmInit m).allocated = fun _ => false := by
      funext l
      cases l <;> rfl
    have hplace : (vmInit m).place (vmInit m).home = fun _ => none := by
      funext o
      cases o <;> rfl
    rw [halloc, hplace]
    exact Custody.empty
  homes _ _ _ h := nomatch h
  tabled _ _ h := nomatch h
  mapped _ _ _ h := nomatch h
  pcs _ _ h := nomatch h
  newer _ _ := rfl

/-- **The invariant holds in every state reached by orderly steps.** -/
theorem VmReachable.inv {m : Machine} {C : Vm → VmAction → Prop} {s : Vm}
    (h : VmReachable m C s) (hC : ∀ s a, C s a → s.Orderly a) : s.Inv :=
  h.invariant (vmInit_inv m) fun s a _ hs ha hstep =>
    ((Vm.step_spec m s a).of_eq_ok hstep).inv hs (hC s a ha)

end Pintos
