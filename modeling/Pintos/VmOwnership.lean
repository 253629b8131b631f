import Pintos.VmSafety

/-!
# Who Owns the Frames and the Slots

Between operations, the frame table lists exactly the pages that the user pool has given
out, each for a live process whose supplemental page table agrees, and the slots in use
are exactly those that entries of live processes refer to. This holds in every run of
orderly steps (`frame_swap_ownership`), and it does not hold in all runs: `process_exit`
frees the pages of the page directory and leaves their entries in the frame table
(`exit_leaves_frames`).

## Main results

* `Vm.Ownership`: who owns what, between operations.
* `frame_swap_ownership`: it holds in every run of orderly steps.
* `exit_leaves_frames`: it fails after the first exit of a process that has a stack.
* `frames_isolated`, `evicted_unmapped`: where a frame is mapped.
-/

open Verif Verif.Outcome

namespace Pintos

/-- An entry that places its page in a frame. -/
theorem Spte.loc_eq_frame {e : Spte} {k : ℕ} (h : e.loc = some (.frame k)) :
    e.status = .onFrame ∧ e.kpage = some k := by
  rw [Spte.loc] at h
  split at h
  · obtain ⟨k', hk, hk'⟩ := Option.map_eq_some_iff.mp h
    cases hk'
    exact ⟨‹_›, hk⟩
  · obtain ⟨_, -, hn⟩ := Option.map_eq_some_iff.mp h
    cases hn
  · cases h
  · cases h

/-- An entry that places its page in a slot. -/
theorem Spte.loc_eq_slot {e : Spte} {n : ℕ} :
    e.loc = some (.slot n) ↔ e.status = .onSwap ∧ e.swapIndex = some n := by
  rw [Spte.loc]
  split <;> rename_i hs <;> simp [hs]

namespace Vm

/-- No process is inside an operation. -/
def Quiescent (s : Vm) : Prop :=
  ∀ p c, s.pc p = some c → c = .loading ∨ c = .user ∨ c = .failed

/-- **Frame and swap ownership.** -/
structure Ownership (s : Vm) : Prop where
  /-- `frame_map` and `frame_list` contain the same entries. -/
  entries : ∀ f, f ∈ s.frameList ↔ ∃ fr, s.frames f = some fr ∧ s.frameMap fr.kpage = some f
  /-- No entry is listed twice, and no two entries have the same page. -/
  distinct : s.frameList.Nodup ∧ ∀ f f' fr fr', f ∈ s.frameList → f' ∈ s.frameList →
    s.frames f = some fr → s.frames f' = some fr' → fr.kpage = fr'.kpage → f = f'
  /-- The pages in the table are exactly the allocated pages of the user pool. -/
  pool : ∀ k, (∃ f ∈ s.frameList, ∃ fr, s.frames f = some fr ∧ fr.kpage = k) ↔ s.used k = true
  /-- The owner of an entry is live, and its supplemental page table agrees. -/
  owners : ∀ f ∈ s.frameList, ∀ fr, s.frames f = some fr → (s.pc fr.t).isSome = true ∧
    ∃ e, s.suptLookup fr.t fr.upage = some e ∧ e.status = .onFrame ∧ e.kpage = some fr.kpage
  /-- The slots in use are exactly those that entries of live processes refer to. -/
  slots : ∀ n, s.swap.available n = false ↔ ∃ p u e, (s.pc p).isSome = true ∧
    s.suptLookup p u = some e ∧ e.status = .onSwap ∧ e.swapIndex = some n
  /-- No two entries refer to the same slot. -/
  once : ∀ n p u e p' u' e', (s.pc p).isSome = true → (s.pc p').isSome = true →
    s.suptLookup p u = some e → e.status = .onSwap → e.swapIndex = some n →
    s.suptLookup p' u' = some e' → e'.status = .onSwap → e'.swapIndex = some n →
    p = p' ∧ u = u'

variable {s : Vm} {p : Pid} {u k n : ℕ} {e : Spte}

/-- Between operations a page is where its entry says. -/
theorem Quiescent.home (hq : s.Quiescent) (hp : (s.pc p).isSome = true) (u : ℕ) :
    s.home p u = (s.suptLookup p u).bind Spte.loc := by
  obtain ⟨c, hc⟩ := Option.isSome_iff_exists.mp hp
  rw [home_of_pc hc]
  rcases hq p c hc with rfl | rfl | rfl <;> exact homeOf_of_filled rfl

/-- Between operations no process has anything in its hand. -/
theorem Quiescent.hand (hq : s.Quiescent) (p : Pid) : s.hand p = none := by
  rw [Vm.hand]
  cases hc : s.pc p with
  | none => rfl
  | some c => rcases hq p c hc with rfl | rfl | rfl <;> rfl

/-- A page that has a home belongs to a live process. -/
theorem isSome_of_home {l : Loc} (h : s.home p u = some l) : (s.pc p).isSome = true := by
  obtain ⟨c, hc, -⟩ := Option.bind_eq_some_iff.mp h
  rw [hc, Option.isSome_some]

/-- Between operations, whatever is allocated is the home of a page. -/
theorem Quiescent.exists_home (hq : s.Quiescent) (h : s.Inv) {l : Loc} (hl : s.allocated l = true) :
    ∃ p u, s.home p u = some l := by
  obtain ⟨o, ho⟩ := (h.custody.alloc_iff l).mp hl
  cases o with
  | page p u => exact ⟨p, u, ho⟩
  | hand p =>
    have hnone : s.hand p = some l := ho
    rw [hq.hand p] at hnone
    cases hnone

/-- An entry of a live process that refers to a slot makes it the home of the page. -/
theorem Quiescent.home_slot (hq : s.Quiescent) (hp : (s.pc p).isSome = true)
    (he : s.suptLookup p u = some e) (hs : e.status = .onSwap) (hn : e.swapIndex = some n) :
    s.home p u = some (.slot n) := by
  rw [hq.home hp, he, Option.bind_some]
  exact Spte.loc_eq_slot.mpr ⟨hs, hn⟩

/-- Between operations, the invariant says who owns what. -/
theorem InvAt.ownership (h : s.Inv) (hq : s.Quiescent) : s.Ownership where
  entries f := by
    refine ⟨fun hf => h.table.of_mem hf, ?_⟩
    rintro ⟨fr, -, hmap⟩
    exact (h.table.listed f).mpr ⟨_, hmap⟩
  distinct := by
    refine ⟨h.table.nodup, fun f f' fr fr' hf hf' hfr hfr' hk => ?_⟩
    obtain ⟨fr₁, h₁, hmap₁⟩ := h.table.of_mem hf
    obtain ⟨fr₂, h₂, hmap₂⟩ := h.table.of_mem hf'
    cases h₁.symm.trans hfr
    cases h₂.symm.trans hfr'
    rw [hk, hmap₂, Option.some.injEq] at hmap₁
    exact hmap₁.symm
  pool k := by
    constructor
    · rintro ⟨f, hf, fr, hfr, rfl⟩
      obtain ⟨fr', hfr', hmap⟩ := h.table.of_mem hf
      cases hfr'.symm.trans hfr
      exact h.tabled _ f hmap
    · intro hk
      obtain ⟨p, u, hhome⟩ := hq.exists_home h (l := .frame k) hk
      obtain ⟨fr, hfr, -, -⟩ := h.homes p u k hhome
      obtain ⟨f, hf, hfr⟩ := Option.bind_eq_some_iff.mp hfr
      obtain ⟨fr', hfr', hk'⟩ := h.table.entry k f hf
      exact ⟨f, (h.table.listed f).mpr ⟨k, hf⟩, fr', hfr', hk'⟩
  owners f hf fr hfr := by
    obtain ⟨fr', hfr', hmap⟩ := h.table.of_mem hf
    cases hfr'.symm.trans hfr
    -- the page that is at home in the frame is the one of the entry
    obtain ⟨p, u, hhome⟩ := hq.exists_home h (l := .frame fr.kpage) (h.tabled _ f hmap)
    obtain ⟨fr', hfr', rfl, rfl⟩ := h.homes p u _ hhome
    have hlive := isSome_of_home hhome
    rw [frameAt, hmap, Option.bind_some, hfr, Option.some.injEq] at hfr'
    subst hfr'
    rw [hq.home hlive] at hhome
    obtain ⟨e, he, hloc⟩ := Option.bind_eq_some_iff.mp hhome
    exact ⟨hlive, e, he, Spte.loc_eq_frame hloc⟩
  slots n := by
    constructor
    · intro hn
      obtain ⟨p, u, hhome⟩ := hq.exists_home h (l := .slot n) (by rw [allocated, hn]; rfl)
      have hlive := isSome_of_home hhome
      rw [hq.home hlive] at hhome
      obtain ⟨e, he, hloc⟩ := Option.bind_eq_some_iff.mp hhome
      exact ⟨p, u, e, hlive, he, Spte.loc_eq_slot.mp hloc⟩
    · rintro ⟨p, u, e, hlive, he, hs, hn⟩
      have hplace : s.place s.home (.page p u) = some (.slot n) := hq.home_slot hlive he hs hn
      have halloc := h.custody.allocated hplace
      rw [allocated, Bool.not_eq_true'] at halloc
      exact halloc
  once n p u e p' u' e' hlive hlive' he hs hn he' hs' hn' := by
    have hplace : s.place s.home (.page p u) = some (.slot n) := hq.home_slot hlive he hs hn
    have hplace' : s.place s.home (.page p' u') = some (.slot n) := hq.home_slot hlive' he' hs' hn'
    have heq := h.custody.unique hplace hplace'
    rw [Holder.page.injEq] at heq
    exact heq

end Vm

/-- **Frame and swap ownership.** In every run of orderly steps, by any number of
processes, ownership holds in every state between operations. -/
theorem frame_swap_ownership {m : Machine} {s : Vm} (h : VmReachable m Vm.Orderly s)
    (hq : s.Quiescent) : s.Ownership :=
  (h.inv fun _ _ ha => ha).ownership hq

/-- A machine with one page in its user pool and one slot. -/
def tinyMachine : Machine where
  files _ := [1, 2, 3]
  poolPages := 1
  swapSize := 1

/-- A machine with two pages in its user pool and one slot. -/
def smallMachine : Machine := { tinyMachine with poolPages := 2 }

/-- A process is started and its stack is set up, without a segment. -/
def startWithStack (p : Pid) : List VmAction :=
  .start :: .setupStack p :: List.replicate 6 (.run p {})

/-- Two processes are started. The stack of the first one grows, and its first page is evicted. -/
def twoProcesses : List VmAction :=
  startWithStack 0 ++ startWithStack 1 ++
    .fault 0 (physBase - 5000) 0 0 {} :: List.replicate 13 (.run 0 {})

/-- With two processes there is an operation under way only if one of them is in one. -/
theorem quiescent_of_two {s : Vm} (h₀ : ∀ c ∈ s.pc 0, c = .user) (h₁ : ∀ c ∈ s.pc 1, c = .user)
    (h : ∀ n, s.pc (n + 2) = none) : s.Quiescent := by
  intro p c hc
  match p with
  | 0 => exact .inr (.inl (h₀ c hc))
  | 1 => exact .inr (.inl (h₁ c hc))
  | n + 2 =>
    rw [h n] at hc
    cases hc

theorem frame_swap_ownership_twoProcesses :
    ∃ s, exec (Vm.step smallMachine) (vmInit smallMachine) twoProcesses = .ok s ∧
      s.frameList = [1, 2] ∧ (s.suptLookup 0 stackPage).map (·.swapIndex) = some (some 0) ∧
      s.Ownership :=
  ⟨_, rfl, rfl, rfl, frame_swap_ownership (m := smallMachine) ⟨twoProcesses, Run.of_guarded rfl⟩
    (quiescent_of_two (by decide) (by decide) fun _ => rfl)⟩

/-- **An exit leaves the frame table behind.** After the process has exited, the page of its
stack is free, and the entry of the page is still in the table. -/
theorem exit_leaves_frames :
    ∃ s, VmReachable tinyMachine (fun _ _ => True) s ∧ s.Quiescent ∧ ¬s.Ownership := by
  refine ⟨_, ⟨startWithStack 0 ++ [.exit 0], Run.of_exec rfl⟩,
    quiescent_of_two (by decide) (by decide) fun _ => rfl, fun h => ?_⟩
  have hused := (h.pool 0).mp ⟨0, List.mem_singleton_self 0, ⟨0, stackPage, 0, false⟩, rfl, rfl⟩
  exact absurd hused Bool.false_ne_true

/-! ### Mappings -/

namespace Vm

variable {s : Vm} {p q : Pid} {u v k : ℕ} {e : Pte}

/-- Who holds the frame of a present page: the page, or a process about to record it. -/
theorem InvAt.exists_holder (h : s.Inv) (he : s.lookupPage p u = some e) :
    ∃ o, s.place s.home o = some (.frame e.kpage) ∧
      (o = .page p u ∨ o = .hand p ∧ u = stackPage ∧ s.pc p = some (.stackInstall e.kpage)) := by
  rcases h.mapped p u e he with hl | ⟨hpc, hu⟩
  · exact ⟨.page p u, hl, .inl rfl⟩
  · exact ⟨.hand p, hand_of_pc hpc, .inr ⟨rfl, hu, hpc⟩⟩

/-- A frame is mapped nowhere if what holds it is not a present page. -/
theorem InvAt.kpage_ne (h : s.Inv) {o : Holder} (ho : s.place s.home o = some (.frame k))
    (hpage : ∀ p u, o = .page p u → s.lookupPage p u = none)
    (hhand : ∀ p, o = .hand p → s.pc p ≠ some (.stackInstall k))
    (he : s.lookupPage q v = some e) : e.kpage ≠ k := by
  rintro rfl
  obtain ⟨o', ho', hcase⟩ := h.exists_holder he
  obtain rfl := h.custody.unique ho ho'
  rcases hcase with rfl | ⟨rfl, -, hpc⟩
  · rw [hpage q v rfl] at he
    cases he
  · exact hhand q rfl hpc

end Vm

/-- **Isolation.** In every run of orderly steps a frame that is mapped is allocated, and mapped
once: no two processes, and no two pages of one, share a frame. -/
theorem frames_isolated {m : Machine} {s : Vm} (h : VmReachable m Vm.Orderly s) {p : Pid} {u : ℕ}
    {e : Pte} (he : s.lookupPage p u = some e) : s.used e.kpage = true ∧
      ∀ q v e', s.lookupPage q v = some e' → e'.kpage = e.kpage → q = p ∧ v = u := by
  have hinv := h.inv fun _ _ ha => ha
  obtain ⟨o, ho, hcase⟩ := hinv.exists_holder he
  refine ⟨hinv.custody.allocated ho, fun q v e' he' heq => ?_⟩
  obtain ⟨o', ho', hcase'⟩ := hinv.exists_holder he'
  rw [heq] at ho'
  obtain rfl := hinv.custody.unique ho ho'
  rcases hcase with rfl | ⟨rfl, rfl, -⟩
  · rcases hcase' with ho | ⟨ho, -⟩ <;> cases ho
    exact ⟨rfl, rfl⟩
  · rcases hcase' with ho | ⟨ho, rfl, -⟩ <;> cases ho
    exact ⟨rfl, rfl⟩

theorem frames_isolated_twoProcesses :
    ∃ s, exec (Vm.step smallMachine) (vmInit smallMachine) twoProcesses = .ok s ∧
      s.lookupPage 0 (stackPage - 1) = some ⟨0, true⟩ ∧
      s.lookupPage 1 stackPage = some ⟨1, true⟩ ∧
      ∀ q v e', s.lookupPage q v = some e' → e'.kpage = 0 → q = 0 ∧ v = stackPage - 1 :=
  ⟨_, rfl, rfl, rfl, (frames_isolated (m := smallMachine) ⟨twoProcesses, Run.of_guarded rfl⟩
    (p := 0) (u := stackPage - 1) (e := ⟨0, true⟩) rfl).2⟩

/-- The entry that is evicted, once its page is cleared. -/
def AllocPc.victim : AllocPc → Option ℕ
  | .swapOut f | .setSwap f _ | .setDirty f | .free f => some f
  | _ => none

/-- **Eviction.** In orderly runs, while a process writes a frame to swap and frees it, it holds the
lock, no page directory maps the frame and no process is filling it. -/
theorem evicted_unmapped {m : Machine} {s : Vm} (h : VmReachable m Vm.Orderly s) {p : Pid}
    {w : Want} {a : AllocPc} {f : ℕ} (hpc : s.pc p = some (.alloc w a)) (ha : a.victim = some f) :
    s.lock = some p ∧ ∃ fr, s.Listed f fr ∧ (∀ q u k, s.pc q = some (.fill u k) → fr.kpage ≠ k) ∧
      ∀ q v e, s.lookupPage q v = some e → e.kpage ≠ fr.kpage := by
  have hinv := h.inv fun _ _ ha => ha
  obtain ⟨-, hok⟩ := hinv.pcs p _ hpc
  cases a with
  | swapOut g | setSwap g n =>
    cases ha
    obtain ⟨hlock, fr, hfr, hhome, hpte⟩ := hok
    refine ⟨hlock, fr, hfr, fun q u k hq => hfr.kpage_ne (hinv.pcs q _ hq).2, fun q v e =>
      hinv.kpage_ne (o := .page fr.t fr.upage) hhome (fun _ _ ho => ?_) fun _ ho => ?_⟩ <;> cases ho
    exact hpte
  | setDirty g | free g =>
    cases ha
    obtain ⟨hlock, fr, hfr⟩ := hok
    have hhand : s.hand p = some (.frame fr.kpage) := by
      rw [Vm.hand_of_pc hpc, VmPc.inHand, hfr.1]
      rfl
    refine ⟨hlock, fr, hfr, fun q u k hq => hfr.kpage_ne (hinv.pcs q _ hq).2, fun q v e =>
      hinv.kpage_ne (o := .hand p) hhand (fun _ _ ho => ?_) fun _ ho => ?_⟩ <;> cases ho
    rw [hpc]
    simp
  | _ => cases ha

/-- The stack of a process grows, and its first page is evicted. -/
def startAndGrow : List VmAction :=
  startWithStack 0 ++ .fault 0 (physBase - 5000) 0 0 {} :: List.replicate 3 (.run 0 {})

theorem evicted_unmapped_grow :
    ∃ s w, exec (Vm.step tinyMachine) (vmInit tinyMachine) startAndGrow = .ok s ∧
      s.pc 0 = some (.alloc w (.swapOut 0)) ∧ s.lock = some 0 :=
  ⟨_, _, rfl, rfl, (evicted_unmapped (m := tinyMachine) ⟨startAndGrow, Run.of_guarded rfl⟩
    (p := 0) rfl rfl).1⟩

end Pintos
