import Pintos.ProcessSafety
import Pintos.SchedulerClocks

/-!
# Child Lists

`init_thread` appends the new thread's `child_elem` to the `child_list` of the running
thread, and only `process_wait` removes it. With user programs a thread stays in
`process_exit` until its parent has done so. Without them `thread_exit` goes straight on to
the scheduler, whose tail frees the page, and the parent's list keeps a link into it.

`Family` is the scheduler of the build without user programs together with the child lists.
`list_push_back` stores into the last element of the list, so `init_thread` accesses the
structure of the latest child.

## Main results

* `Family.Linked.step`: which exits keep the lists free of dangling links.
* `childList_live`: the links of live threads lead to threads that have not been freed.
* `dangling_child`: a child exits, and its parent's next `thread_create` accesses it.
-/

namespace Pintos

open Verif Verif.Outcome Function

/-- The scheduler with the `child_list` of every thread. -/
structure Family where
  sched : Sched
  childList : Tid → List Tid

/-- What can go wrong in a step. -/
inductive FamilyError where
  /-- An assertion of the scheduler fails. -/
  | assertion (e : SchedAssert)
  /-- An access to a `struct thread` whose page is not allocated. -/
  | useAfterFree (t : Tid)
  deriving DecidableEq, Repr

namespace Family

/-- The lists after `init_thread` has put the new thread into the running thread's. -/
def pushChild (f : Family) : Tid → List Tid :=
  update (update f.childList f.sched.nextTid []) f.sched.current
    (f.childList f.sched.current ++ [f.sched.nextTid])

/-- `list_push_back` in `init_thread`, which stores into the last child. -/
def initThread (f : Family) (s : Sched) : Outcome FamilyError Family :=
  match (f.childList f.sched.current).getLast? with
  | none => return { sched := s, childList := f.pushChild }
  | some c => do
    ensure (f.sched.threads c ≠ none) (.useAfterFree c)
    return { sched := s, childList := f.pushChild }

/-- One step of the scheduler, with what it does to the child lists. -/
def step (cfg : Config) (f : Family) (a : Action) : Outcome FamilyError Family :=
  match f.sched.step cfg a with
  | .blocked => .blocked
  | .panic e => .panic (.assertion e)
  | .ok s =>
    match a with
    | .initThread _ _ => f.initThread s
    | _ => return { f with sched := s }

/-- Steps in which a thread exits only when it is in no live thread's list: its parent is
gone. The page of the initial thread is never freed. -/
def ExitsAfterParent (f : Family) : Action → Prop
  | .threadExit => f.sched.current = Sched.initialThread ∨
      ∀ p ∈ f.sched.allList, f.sched.current ∉ f.childList p
  | _ => True

instance (f : Family) (a : Action) : Decidable (f.ExitsAfterParent a) :=
  match a with
  | .threadExit => inferInstanceAs (Decidable (f.sched.current = Sched.initialThread ∨
      ∀ p ∈ f.sched.allList, f.sched.current ∉ f.childList p))
  | .initThread .. | .startThread _ | .createCheck | .threadYield | .wait _ | .signal _
  | .semaDown _ | .semaUp _ | .timerSleep _ | .threadBlockWithTime | .threadSetPriority _
  | .threadSetNice _ | .runSet | .idle | .timerInterrupt | .intrSignal _ | .intrSemaUp _ =>
    inferInstanceAs (Decidable True)

/-- What a step of the family does: the scheduler's step, and the list of a new child. -/
theorem step_cases {cfg : Config} {f f' : Family} {a : Action} (h : f.step cfg a = ok f') :
    f.sched.step cfg a = ok f'.sched ∧
      ((∀ p tail, a ≠ .initThread p tail) ∧ f'.childList = f.childList ∨
        (∃ p tail, a = .initThread p tail) ∧ f'.childList = f.pushChild) := by
  unfold step at h
  split at h
  · cases h
  · cases h
  · rename_i s hs
    split at h
    · rename_i p tail
      unfold initThread at h
      split at h
      · obtain rfl := Outcome.ok.inj h
        exact ⟨hs, .inr ⟨⟨p, tail, rfl⟩, rfl⟩⟩
      · obtain ⟨-, h⟩ := ensure_bind_eq_ok.mp h
        obtain rfl := Outcome.ok.inj h
        exact ⟨hs, .inr ⟨⟨p, tail, rfl⟩, rfl⟩⟩
    · rename_i hnot
      obtain rfl := Outcome.ok.inj h
      exact ⟨hs, .inl ⟨hnot, rfl⟩⟩

end Family

namespace Sched

/-- **A thread is freed only by its own exit.** -/
theorem ClockStep.allocated {cfg : Config} {s s' : Sched} {a : Action} {t : Tid}
    (h : ClockStep cfg s a s') (ht : s.clocks t ≠ none) :
    s'.clocks t ≠ none ∨ a = .threadExit ∧ t = s.current ∧ s.current ≠ initialThread := by
  have update : ∀ {u c}, s'.clocks = update s.clocks u (some c) →
      s'.clocks t ≠ none := by
    intro u c hclocks
    rw [hclocks, update_apply]
    split
    · exact Option.some_ne_none c
    · exact ht
  cases a with
  | initThread p tail =>
    obtain ⟨c, -, hcr⟩ := h
    exact .inl (update hcr.clocks)
  | threadExit =>
    have hex : Exited s s' := h
    by_cases hinit : s.current = initialThread
    · rw [hex.clocks, if_pos hinit]
      exact .inl ht
    · rcases eq_or_ne t s.current with rfl | hne
      · exact .inr ⟨rfl, rfl, hinit⟩
      · rw [hex.clocks, if_neg hinit, update_of_ne hne]
        exact .inl ht
  | runSet =>
    obtain ⟨cur, th, -, -, hch⟩ := h
    exact .inl (update hch.clocks)
  | timerInterrupt =>
    have htick : Ticked cfg s s' := h
    rw [htick.clocks, Ne, Option.map_eq_none_iff]
    exact .inl ht
  | _ =>
    have hsame : SameClocks s s' := h
    rw [hsame.clocks]
    exact .inl ht

/-- `init_thread` makes the next thread. -/
theorem ClockStep.created {cfg : Config} {s s' : Sched} {p tail : ℤ}
    (h : ClockStep cfg s (.initThread p tail) s') : s'.clocks s.nextTid ≠ none := by
  obtain ⟨c, -, hcr⟩ := h
  rw [hcr.clocks, update_self]
  exact Option.some_ne_none _

/-- Where the threads of `all_list` come from. -/
theorem ClockStep.mem_allList {cfg : Config} {s s' : Sched} {a : Action} {t : Tid}
    (h : ClockStep cfg s a s') (ht : t ∈ s'.allList) :
    t ∈ s.allList ∨ (∃ p tail, a = .initThread p tail) ∧ t = s.nextTid := by
  cases a with
  | initThread p tail =>
    obtain ⟨c, -, hcr⟩ := h
    rw [hcr.allList, List.mem_append, List.mem_singleton] at ht
    exact ht.imp_right fun heq => ⟨⟨p, tail, rfl⟩, heq⟩
  | threadExit =>
    have hex : Exited s s' := h
    exact .inl (List.mem_of_mem_erase (hex.allList ▸ ht))
  | runSet =>
    obtain ⟨cur, th, -, -, hch⟩ := h
    exact .inl (hch.allList ▸ ht)
  | timerInterrupt =>
    have htick : Ticked cfg s s' := h
    exact .inl (htick.allList ▸ ht)
  | _ =>
    have hsame : SameClocks s s' := h
    exact .inl (hsame.allList ▸ ht)

theorem clocks_ne_none_iff {s : Sched} {t : Tid} : s.clocks t ≠ none ↔ s.threads t ≠ none := by
  rw [clocks, Ne, Option.map_eq_none_iff]

end Sched

namespace Family

/-! ### The invariant -/

/-- The links of the threads in `all_list` lead to allocated threads. -/
structure Linked (f : Family) : Prop where
  partition : f.sched.Partition
  listed : f.sched.Listed
  children : ∀ p ∈ f.sched.allList, ∀ c ∈ f.childList p, f.sched.clocks c ≠ none

/-- The elements of the lists after `init_thread`. -/
theorem mem_pushChild {f : Family} {p c : Tid} (h : c ∈ f.pushChild p) :
    (p = f.sched.current ∨ p ≠ f.sched.nextTid) ∧ c ∈ f.childList p ∨ c = f.sched.nextTid := by
  unfold pushChild at h
  rw [update_apply] at h
  split at h
  · subst p
    rcases List.mem_append.mp h with hold | hnew
    · exact .inl ⟨.inl rfl, hold⟩
    · exact .inr (List.mem_singleton.mp hnew)
  · rw [update_apply] at h
    split at h
    · cases h
    · exact .inl ⟨.inr ‹_›, h⟩

/-- **Exits after the parent's keep the links alive.** -/
theorem Linked.step {cfg : Config} {f f' : Family} {a : Action} (h : f.Linked)
    (hC : f.ExitsAfterParent a) (hstep : f.step cfg a = ok f') : f'.Linked := by
  obtain ⟨hsched, hlist⟩ := step_cases hstep
  have hclock := (Sched.step_clocks h.partition).of_eq_ok hsched
  refine ⟨(Sched.step_spec h.partition).of_eq_ok hsched, hclock.listed h.listed, ?_⟩
  -- a link of a live thread is not to the thread that exits
  have hkeep : ∀ p ∈ f.sched.allList, ∀ c ∈ f.childList p, f'.sched.clocks c ≠ none := by
    intro p hp c hc
    rcases hclock.allocated (h.children p hp c hc) with hlive | ⟨rfl, rfl, hinit⟩
    · exact hlive
    · exact absurd hc (hC.resolve_left hinit p hp)
  intro p hp c hc
  rcases hlist with ⟨hnot, hsame⟩ | ⟨⟨q, tail, rfl⟩, hpush⟩
  · rw [hsame] at hc
    rcases hclock.mem_allList hp with hold | ⟨⟨q, tail, ha⟩, -⟩
    · exact hkeep p hold c hc
    · exact absurd ha (hnot q tail)
  · rw [hpush] at hc
    rcases mem_pushChild hc with ⟨hne, hold⟩ | rfl
    · refine hkeep p ?_ c hold
      rcases hclock.mem_allList hp with hmem | ⟨-, hnew⟩
      · exact hmem
      · rw [hne.resolve_right fun hne => hne hnew]
        exact h.listed.current_mem h.partition
    · exact hclock.created

/-- Without dangling links, `list_push_back` accesses an allocated thread. -/
theorem Linked.no_useAfterFree {cfg : Config} {f : Family} (h : f.Linked) (a : Action) (t : Tid) :
    f.step cfg a ≠ .panic (.useAfterFree t) := by
  intro hpanic
  rw [Family.step] at hpanic
  split at hpanic
  · cases hpanic
  · cases hpanic
  · split at hpanic
    · rw [Family.initThread] at hpanic
      split at hpanic
      · cases hpanic
      · rename_i c hlast
        have hc : c ∈ f.childList f.sched.current := List.mem_of_getLast? hlast
        have hmem := h.listed.current_mem h.partition
        have hlive := Sched.clocks_ne_none_iff.mp (h.children _ hmem c hc)
        rw [ensure_of_true hlive, ok_bind] at hpanic
        cases hpanic
    · cases hpanic

end Family

/-- The state at the end of boot: the initial thread has put itself and the idle thread into
its list. -/
def familyStart (s₀ : Sched) : Family where
  sched := s₀
  childList t := if t = Sched.initialThread then [Sched.initialThread, idleTid] else []

/-- The states that the build without user programs reaches from boot by steps that all meet
the condition `C`. -/
def FamilyReachable (mlfqs aging : Bool) (C : Family → Action → Prop) (f : Family) : Prop :=
  ∃ value tail tail' s₀, threadStart (threadInit value tail) tail' = ok s₀ ∧
    Reachable (Family.step ⟨false, mlfqs, aging⟩) C (familyStart s₀) f

theorem familyStart_linked {value : SemaId → ℕ} {tail tail' : ℤ} {s₀ : Sched}
    (h : threadStart (threadInit value tail) tail' = ok s₀) : (familyStart s₀).Linked := by
  refine ⟨threadStart_partition h, threadStart_listed h, fun p _ c hc => ?_⟩
  change s₀.clocks c ≠ none
  rw [(threadStart_clocks h).1]
  dsimp only [familyStart] at hc
  split at hc
  · rcases List.mem_pair.mp hc with rfl | rfl
    · exact Option.some_ne_none _
    · exact Option.some_ne_none _
  · cases hc

theorem FamilyReachable.linked {mlfqs aging : Bool} {f : Family}
    (h : FamilyReachable mlfqs aging Family.ExitsAfterParent f) : f.Linked := by
  obtain ⟨value, tail, tail', s₀, h₀, hreach⟩ := h
  exact hreach.invariant (familyStart_linked h₀) fun f a f' hf hC hstep => hf.step hC hstep

/-- **Child lists hold allocated threads only.** In every reachable state of the build with user
programs, and in every state of the build without them that is reached by steps in which a
thread exits after its parent: every element of a live thread's `child_list` is in the
structure of a thread that has not been freed, and no step accesses a freed structure. -/
theorem childList_live (C : Procs → ProcAction → Prop) (mlfqs aging : Bool) :
    (∀ s : Procs, ProcReachable C s →
      (∀ p x c, s.procs p = some x → c ∈ x.childList → s.procs c ≠ none) ∧
      ∀ a e, s.step a ≠ .panic e) ∧
    (∀ f : Family, FamilyReachable mlfqs aging Family.ExitsAfterParent f →
      (∀ p th c, f.sched.threads p = some th → th.status ≠ .dying → c ∈ f.childList p →
        f.sched.threads c ≠ none) ∧
      ∀ a t, f.step ⟨false, mlfqs, aging⟩ a ≠ .panic (.useAfterFree t)) := by
  constructor
  · intro s h
    refine ⟨fun p x c hx hc => ?_, fun a e hpanic => (Procs.step_spec h.inv a).of_eq_panic hpanic⟩
    obtain ⟨child, hchild, -⟩ := h.inv.childLive p x c hx hc
    rw [hchild]
    exact Option.some_ne_none child
  · intro f h
    have hl := h.linked
    refine ⟨fun p th c hth hst hc => ?_, hl.no_useAfterFree⟩
    exact Sched.clocks_ne_none_iff.mp (hl.children p (hl.listed.mem_allList hth hst) c hc)

set_option maxRecDepth 4000 in
/-- The initial thread creates thread 2 and exits; thread 2 creates thread 3 and exits, which
runs on with an empty list. -/
theorem childList_live_orphan :
    ∃ f : Family, FamilyReachable false false Family.ExitsAfterParent f ∧ f.sched.current = 3 ∧
      f.sched.threads 2 = none ∧
      (∀ p th c, f.sched.threads p = some th → th.status ≠ .dying → c ∈ f.childList p →
        f.sched.threads c ≠ none) := by
  have key : ∃ f : Family, FamilyReachable false false Family.ExitsAfterParent f ∧
      f.sched.current = 3 ∧ f.sched.threads 2 = none :=
    ⟨_, ⟨fun _ => 0, 0, 0, _, rfl, [.initThread 31 0, .startThread 2, .createCheck, .threadExit,
      .initThread 31 0, .startThread 3, .createCheck, .threadExit], Run.of_guarded rfl⟩,
      rfl, rfl⟩
  obtain ⟨f, hreach, hcur, hfreed⟩ := key
  exact ⟨f, hreach, hcur, hfreed, ((childList_live (fun _ _ => True) false false).2 f hreach).1⟩

set_option maxRecDepth 4000 in
/-- **A dangling link.** Thread 2, of higher priority than the initial thread that created it,
exits at once; the initial thread's list still holds it, and its next `thread_create` stores
into the freed page. -/
theorem dangling_child :
    ∃ f : Family, FamilyReachable false false (fun _ _ => True) f ∧
      f.sched.current = Sched.initialThread ∧ 2 ∈ f.childList Sched.initialThread ∧
      f.sched.threads 2 = none ∧
      f.step ⟨false, false, false⟩ (.initThread 31 0) = .panic (.useAfterFree 2) :=
  ⟨_, ⟨fun _ => 0, 0, 0, _, rfl, [.initThread 40 0, .startThread 2, .createCheck, .threadYield,
    .threadExit], Run.of_exec rfl⟩, rfl, by decide, rfl, rfl⟩

end Pintos
