import Pintos.VmInvariant

/-!
# Rules for the Invariant of Demand Paging

A step of the system changes a few fields and sends one process on to its next
statement. The rules here say what is left to show about such a step: a step that moves
nothing (`InvAt.quiet`), a process that takes something into its hand or gives it up
(`place_update`), and a page that trades with a hand (`place_trade`). A step of one
process keeps what the others rely on (`PcOk.mono`): their frames are pinned, and only
the holder of `frame_lock` relies on a frame that is not.

## Main results

* `PcOk.mono`: what a process relies on stays true.
* `InvAt.goto`, `InvAt.quiet`: the invariant after a step of one process.
-/

open Verif Verif.Outcome Function

namespace Pintos

namespace Vm

variable {s t : Vm} {home home' : Pid → ℕ → Option Loc} {p q : Pid} {c c' : VmPc} {u v k : ℕ}

/-! ### Lookups -/

/-- A look-up after a change of one page in one process's table. -/
theorem lookup_update {β : Type} (tables : Pid → AList fun _ : ℕ => β)
    {table : AList fun _ : ℕ => β} {x : Option β} (hu : table.lookup u = x)
    (hne : ∀ v ≠ u, table.lookup v = (tables p).lookup v) :
    (update tables p table q).lookup v = if q = p ∧ v = u then x else (tables q).lookup v := by
  by_cases hq : q = p
  · subst hq
    by_cases hv : v = u
    · rw [update_self, hv, hu, if_pos ⟨rfl, rfl⟩]
    · rw [update_self, hne v hv, if_neg fun hqv => hv hqv.2]
  · rw [update_of_ne hq, if_neg fun hqv => hq hqv.1]

theorem suptLookup_setSpte (s : Vm) (p : Pid) (u : ℕ) (e : Spte) (q : Pid) (v : ℕ) :
    (s.setSpte p u e).suptLookup q v = if q = p ∧ v = u then some e else s.suptLookup q v :=
  lookup_update s.supt (AList.lookup_insert _) fun _ => AList.lookup_insert_ne

theorem lookupPage_setPte (s : Vm) (p : Pid) (u : ℕ) (e : Pte) (q : Pid) (v : ℕ) :
    (s.setPte p u e).lookupPage q v = if q = p ∧ v = u then some e else s.lookupPage q v :=
  lookup_update s.pagedir (AList.lookup_insert _) fun _ => AList.lookup_insert_ne

theorem lookupPage_clearPte (s : Vm) (p : Pid) (u : ℕ) (q : Pid) (v : ℕ) :
    (s.clearPte p u).lookupPage q v = if q = p ∧ v = u then none else s.lookupPage q v :=
  lookup_update s.pagedir (AList.lookup_erase _ _) fun _ => AList.lookup_erase_ne

theorem lookupPage_of_clearPte {e : Pte} (h : (s.clearPte p u).lookupPage q v = some e) :
    s.lookupPage q v = some e := by
  rw [lookupPage_clearPte] at h
  split at h
  · cases h
  · exact h

theorem suptLookup_started (s : Vm) (q : Pid) (v : ℕ) :
    s.started.suptLookup q v = if q = s.nextPid then none else s.suptLookup q v := by
  rw [suptLookup, started, suptLookup]
  by_cases hq : q = s.nextPid <;> simp [hq]

theorem lookupPage_started (s : Vm) (q : Pid) (v : ℕ) :
    s.started.lookupPage q v = if q = s.nextPid then none else s.lookupPage q v := by
  rw [lookupPage, started, lookupPage]
  by_cases hq : q = s.nextPid <;> simp [hq]

theorem suptLookup_gone (s : Vm) (p q : Pid) (v : ℕ) :
    (s.gone p).suptLookup q v = if q = p then none else s.suptLookup q v := by
  rw [suptLookup, gone, suptLookup]
  by_cases hq : q = p <;> simp [hq]

theorem lookupPage_gone (s : Vm) (p q : Pid) (v : ℕ) :
    (s.gone p).lookupPage q v = if q = p then none else s.lookupPage q v := by
  rw [lookupPage, gone, lookupPage]
  by_cases hq : q = p <;> simp [hq]

/-- The entry a page's frame has in the table. -/
theorem Listed.frameAt {f : ℕ} {fr : FrameEntry} (h : s.Listed f fr) :
    s.frameAt fr.kpage = some fr := by
  rw [Vm.frameAt, h.2.1, Option.bind_some, h.1]

/-- A pinned frame is not one that may be evicted. -/
theorem Listed.kpage_ne {f : ℕ} {fr : FrameEntry} (h : s.Listed f fr) (hpin : s.Pinned p u k) :
    fr.kpage ≠ k := by
  rintro rfl
  rw [Pinned, h.frameAt, Option.some.injEq] at hpin
  have hb := h.2.2
  rw [hpin] at hb
  cases hb

theorem pc_goto (s : Vm) (p : Pid) (c : VmPc) (q : Pid) :
    (s.goto p c).pc q = if q = p then some c else s.pc q :=
  update_apply s.pc p (some c) q

theorem pc_started (s : Vm) (q : Pid) :
    s.started.pc q = if q = s.nextPid then some .loading else s.pc q :=
  update_apply s.pc s.nextPid (some .loading) q

theorem pc_gone (s : Vm) (p q : Pid) : (s.gone p).pc q = if q = p then none else s.pc q :=
  update_apply s.pc p none q

/-! ### Homes -/

theorem home_goto (s : Vm) (p : Pid) (c : VmPc) (q : Pid) (v : ℕ) :
    (s.goto p c).home q v = if q = p then c.homeOf v (s.suptLookup p v) else s.home q v := by
  rw [home, goto]
  by_cases hq : q = p
  · subst hq
    simp [suptLookup]
  · simp [hq, home, suptLookup]

theorem home_of_pc (hc : s.pc p = some c) (v : ℕ) : s.home p v = c.homeOf v (s.suptLookup p v) := by
  rw [home, hc, Option.bind_some]

/-- A process that goes on to a statement with the same filled frame keeps the homes. -/
theorem home_goto_eq (c' : VmPc) (hc : s.pc p = some c) (hf : ∀ v, c'.filled v = c.filled v) :
    (s.goto p c').home = s.home := by
  funext q v
  rw [home_goto]
  split_ifs with hq
  · rw [hq, home_of_pc hc, VmPc.homeOf, VmPc.homeOf, hf]
  · rfl

/-- The homes after a step of `p` that moves one of its pages. -/
theorem home_goto_ite {l : Option Loc} (hpc : t.pc = s.pc) (hc : s.pc p = some c)
    (hlook : ∀ q v, ¬(q = p ∧ v = u) → t.suptLookup q v = s.suptLookup q v)
    (hfill : ∀ v ≠ u, c'.filled v = c.filled v) (hl : c'.homeOf u (t.suptLookup p u) = l)
    (q : Pid) (v : ℕ) :
    (t.goto p c').home q v = if q = p ∧ v = u then l else s.home q v := by
  rw [home_goto]
  by_cases hq : q = p
  · subst hq
    by_cases hv : v = u
    · rw [if_pos rfl, if_pos ⟨rfl, hv⟩, hv, hl]
    · have hne : ¬(q = q ∧ v = u) := fun hqv => hv hqv.2
      rw [if_pos rfl, if_neg hne, home_of_pc hc, hlook q v hne, VmPc.homeOf, VmPc.homeOf,
        hfill v hv]
  · have hne : ¬(q = p ∧ v = u) := fun hqv => hq hqv.1
    rw [if_neg hq, if_neg hne, home, home, hpc, hlook q v hne]

theorem home_setSpte (s : Vm) (p : Pid) (u : ℕ) (e : Spte) (q : Pid) (v : ℕ) :
    (s.setSpte p u e).home q v =
      if q = p ∧ v = u then (s.pc p).bind fun c => c.homeOf u (some e) else s.home q v := by
  have hpc : (s.setSpte p u e).pc = s.pc := rfl
  rw [home, hpc, suptLookup_setSpte]
  split_ifs with h
  · rw [h.1, h.2]
  · rfl

/-- Changing an entry without changing where it says the page is keeps the homes. -/
theorem home_setSpte_eq {e : Spte} (he : e.loc = (s.suptLookup p u).bind Spte.loc) :
    (s.setSpte p u e).home = s.home := by
  funext q v
  rw [home_setSpte]
  split_ifs with h
  · rw [home, h.1, h.2]
    simp only [VmPc.homeOf, Option.bind_some, he]
  · rfl

/-- A page of a process that fills no frame is where its entry says. -/
theorem homeOf_of_filled {e : Option Spte} (h : c.filled u = none) :
    c.homeOf u e = e.bind Spte.loc := by
  rw [VmPc.homeOf, h, Option.map_none, Option.none_or]

theorem filled_map (u k : ℕ) (b : Bool) : (VmPc.map u k b).filled u = some k := if_pos rfl

theorem filled_map_of_ne (k : ℕ) (b : Bool) (h : v ≠ u) : (VmPc.map u k b).filled v = none :=
  if_neg h

theorem filled_setFrame (u k : ℕ) : (VmPc.setFrame u k).filled u = some k := if_pos rfl

theorem filled_setFrame_of_ne (k : ℕ) (h : v ≠ u) : (VmPc.setFrame u k).filled v = none :=
  if_neg h

/-- The frame a process is filling is the home of the page. -/
theorem homeOf_filled {e : Option Spte} (h : c.filled u = some k) :
    c.homeOf u e = some (.frame k) := by
  rw [VmPc.homeOf, h, Option.map_some, Option.some_or]

/-! ### What the others rely on -/

/-- **What a process relies on** stays true if its pages stay out of memory, its pinned
entries stay, and, while it holds the lock, the table and the page it evicts stay. -/
theorem PcOk.mono (h : s.PcOk home q c)
    (hload : ∀ u, s.Loads q u → t.Loads q u)
    (hpin : ∀ u k, s.Pinned q u k → t.Pinned q u k)
    (hbare : home q stackPage = none → home' q stackPage = none)
    (hlock : s.lock = some q → t.lock = some q ∧ t.frames = s.frames ∧ t.frameMap = s.frameMap ∧
      ∀ f fr, s.Listed f fr → home fr.t fr.upage = some (.frame fr.kpage) →
        home' fr.t fr.upage = some (.frame fr.kpage) ∧
          (s.lookupPage fr.t fr.upage = none → t.lookupPage fr.t fr.upage = none)) :
    t.PcOk home' q c := by
  have hlisted : s.lock = some q → ∀ f fr, s.Listed f fr → t.Listed f fr := by
    intro hl f fr hfr
    obtain ⟨-, hframes, hmap, -⟩ := hlock hl
    rw [Listed, hframes, hmap]
    exact hfr
  cases c with
  | user | failed => trivial
  | loading => exact hbare h
  | fill u k => exact ⟨hload u h.1, hpin u k h.2⟩
  | map u k w => exact ⟨hload u h.1, hpin u k h.2⟩
  | setFrame u k => exact hpin u k h
  | stackMap k => exact ⟨hbare h.1, hpin _ k h.2⟩
  | stackInstall k => exact ⟨hbare h.1, hpin _ k h.2⟩
  | unpin k =>
    obtain ⟨u, hu⟩ := h
    exact ⟨u, hpin u k hu⟩
  | drop k =>
    obtain ⟨u, hu⟩ := h
    exact ⟨u, hpin u k hu⟩
  | alloc w a =>
    refine ⟨?_, ?_⟩
    · cases w with
      | page u => exact hload u h.1
      | stack => exact hbare h.1
    · have ha := h.2
      cases a with
      | lock => trivial
      | getPage | again => exact (hlock ha).1
      | clear f =>
        obtain ⟨hl, fr, hfr, hhome⟩ := ha
        exact ⟨(hlock hl).1, fr, hlisted hl f fr hfr, ((hlock hl).2.2.2 f fr hfr hhome).1⟩
      | swapOut f | setSwap f n =>
        obtain ⟨hl, fr, hfr, hhome, hpte⟩ := ha
        obtain ⟨hh, hp⟩ := (hlock hl).2.2.2 f fr hfr hhome
        exact ⟨(hlock hl).1, fr, hlisted hl f fr hfr, hh, hp hpte⟩
      | setDirty f | free f =>
        obtain ⟨hl, fr, hfr⟩ := ha
        exact ⟨(hlock hl).1, fr, hlisted hl f fr hfr⟩
      | insert k =>
        obtain ⟨hl, hk⟩ := ha
        exact ⟨(hlock hl).1, by rw [(hlock hl).2.2.1, hk]⟩

/-- What the others rely on, when the lock is not theirs. -/
theorem PcOk.of_lock_ne (h : s.PcOk home q c) (hlock : s.lock ≠ some q)
    (hload : ∀ u, s.Loads q u → t.Loads q u)
    (hpin : ∀ u k, s.Pinned q u k → t.Pinned q u k)
    (hbare : home q stackPage = none → home' q stackPage = none) : t.PcOk home' q c :=
  h.mono hload hpin hbare fun hl => absurd hl hlock

theorem lock_ne (hlock : s.lock = some p) (hq : q ≠ p) : s.lock ≠ some q := by
  rw [hlock, ne_eq, Option.some.injEq]
  exact hq.symm

theorem ne_of_unlocked (hlock : s.lock = none) : s.lock ≠ some q := by simp [hlock]

/-- Only the holder of the lock has an entry of the table in its hand. -/
theorem PcOk.inHand_congr (h : s.PcOk home q c) (hlock : s.lock ≠ some q)
    (frames : ℕ → Option FrameEntry) : c.inHand frames = c.inHand s.frames := by
  cases c with
  | alloc w a =>
    cases a with
    | setDirty f | free f => exact absurd h.2.1 hlock
    | _ => rfl
  | _ => rfl

/-! ### Assembling the invariant -/

theorem hand_goto (s : Vm) (p : Pid) (c : VmPc) (q : Pid) :
    (s.goto p c).hand q = if q = p then c.inHand s.frames else s.hand q := by
  rw [hand, goto]
  by_cases hq : q = p
  · subst hq
    simp
  · simp [hq, hand]

theorem hand_of_pc (hc : s.pc p = some c) : s.hand p = c.inHand s.frames := by
  rw [hand, hc, Option.bind_some]

/-- The hands of the others, if the table stays or they do not hold the lock. -/
theorem InvAt.hand_eq (h : s.InvAt home) (hpc : t.pc = s.pc)
    (hframes : t.frames = s.frames ∨ s.lock ≠ some q) : t.hand q = s.hand q := by
  rw [hand, hand, hpc]
  cases hq : s.pc q with
  | none => rfl
  | some d =>
    rcases hframes with hframes | hlock
    · rw [hframes]
    · exact (h.pcs q d hq).inHand_congr hlock t.frames

/-- A process takes something into its hand, or gives it up. -/
theorem place_update (hhand : ∀ q ≠ p, t.hand q = s.hand q) :
    (t.goto p c').place home =
      update (s.place home) (.hand p) (c'.inHand t.frames) := by
  funext o
  cases o with
  | page q v => rw [update_of_ne (by simp)]; rfl
  | hand q =>
    rw [place, hand_goto]
    by_cases hq : q = p
    · rw [if_pos hq, hq, update_self]
    · rw [if_neg hq, update_of_ne (by simpa using hq), place, hhand q hq]

/-- A page and the hand of a process trade what they hold. -/
theorem place_trade (home : Pid → ℕ → Option Loc) (c' : VmPc) (o : Pid) (v : ℕ)
    (hhand : ∀ q ≠ p, t.hand q = s.hand q)
    (hhome : ∀ q u, home' q u = if q = o ∧ u = v then s.hand p else home q u)
    (hc' : c'.inHand t.frames = home o v) :
    (t.goto p c').place home' = s.place home ∘ Equiv.swap (.page o v) (.hand p) := by
  funext x
  rw [comp_apply]
  cases x with
  | page q u =>
    rw [place, hhome]
    by_cases hq : q = o ∧ u = v
    · rw [if_pos hq, hq.1, hq.2, Equiv.swap_apply_left]
      rfl
    · rw [if_neg hq, Equiv.swap_apply_of_ne_of_ne (by simpa using hq) (by simp)]
      rfl
  | hand q =>
    rw [place, hand_goto]
    by_cases hq : q = p
    · rw [if_pos hq, hq, Equiv.swap_apply_right, hc']
      rfl
    · rw [if_neg hq, Equiv.swap_apply_of_ne_of_ne (by simp) (by simpa using hq), hhand q hq]
      rfl

/-- The invariant after a step of `p` that goes on to `c'`. -/
theorem InvAt.goto (h : s.InvAt home) (hpc : t.pc = s.pc) (hc : s.pc p = some c)
    (hpid : t.nextPid = s.nextPid)
    (htable : FrameTable t.frames t.frameMap t.frameList t.nextFrame)
    (hcustody : Custody t.allocated ((t.goto p c').place home'))
    (hhomes : ∀ q v k, home' q v = some (.frame k) →
      ∃ fr, t.frameAt k = some fr ∧ fr.t = q ∧ fr.upage = v)
    (htabled : ∀ k f, t.frameMap k = some f → t.used k = true)
    (hmapped : ∀ q v e, t.lookupPage q v = some e → home' q v = some (.frame e.kpage) ∨
      ((t.goto p c').pc q = some (.stackInstall e.kpage) ∧ v = stackPage))
    (hother : ∀ q d, q ≠ p → s.pc q = some d → s.PcOk home q d → t.PcOk home' q d)
    (hown : t.PcOk home' p c') : (t.goto p c').InvAt home' where
  table := htable
  custody := hcustody
  homes := hhomes
  tabled := htabled
  mapped := hmapped
  pcs q d hq := by
    rw [pc_goto, hpc] at hq
    split at hq
    · rename_i hqp
      rw [hqp, ← Option.some.inj hq]
      exact hown
    · exact hother q d ‹_› hq (h.pcs q d hq)
  newer q hq := by
    have hnone := h.newer q (hpid ▸ hq)
    have hne : q ≠ p := by
      rintro rfl
      rw [hc] at hnone
      cases hnone
    rw [pc_goto, if_neg hne, hpc, hnone]

/-- A present page of a process that is not in `install_page` is mapped to its home. -/
theorem InvAt.mapped_goto (h : s.InvAt home) (hc : s.pc p = some c)
    (hns : ∀ k, c ≠ .stackInstall k) (hpc : t.pc = s.pc) {e : Pte}
    (he : s.lookupPage q v = some e) :
    home q v = some (.frame e.kpage) ∨
      ((t.goto p c').pc q = some (.stackInstall e.kpage) ∧ v = stackPage) := by
  rcases h.mapped q v e he with hl | ⟨hq, hv⟩
  · exact .inl hl
  · have hne : q ≠ p := by
      rintro rfl
      rw [hc] at hq
      exact hns _ (Option.some.inj hq)
    exact .inr ⟨by rw [pc_goto, if_neg hne, hpc, hq], hv⟩

/-- The table, the pool and the slots in use are the same. -/
structure SameTables (s t : Vm) : Prop where
  pc : t.pc = s.pc
  frames : t.frames = s.frames
  frameMap : t.frameMap = s.frameMap
  frameList : t.frameList = s.frameList
  nextFrame : t.nextFrame = s.nextFrame
  used : t.used = s.used
  available : t.swap.available = s.swap.available
  nextPid : t.nextPid = s.nextPid

namespace SameTables

theorem refl (s : Vm) : SameTables s s := ⟨rfl, rfl, rfl, rfl, rfl, rfl, rfl, rfl⟩

theorem frameAt (h : SameTables s t) : t.frameAt = s.frameAt := by
  funext k
  rw [Vm.frameAt, Vm.frameAt, h.frames, h.frameMap]

theorem allocated (h : SameTables s t) : t.allocated = s.allocated := by
  funext l
  cases l with
  | frame k => exact congrFun h.used k
  | slot n => exact congrArg (!·) (congrFun h.available n)

end SameTables

/-- **Steps that move nothing** keep the invariant. -/
theorem InvAt.quiet (h : s.InvAt home) (hc : s.pc p = some c) (hst : SameTables s t)
    (hhand : c'.inHand s.frames = c.inHand s.frames)
    (hmapped : ∀ q v e, t.lookupPage q v = some e → home q v = some (.frame e.kpage) ∨
      ((t.goto p c').pc q = some (.stackInstall e.kpage) ∧ v = stackPage))
    (hother : ∀ q d, q ≠ p → s.pc q = some d → s.PcOk home q d → t.PcOk home q d)
    (hown : t.PcOk home p c') : (t.goto p c').InvAt home := by
  refine h.goto hst.pc hc hst.nextPid ?_ ?_ ?_ ?_ hmapped hother hown
  · rw [hst.frames, hst.frameMap, hst.frameList, hst.nextFrame]
    exact h.table
  · have hplace : (t.goto p c').place home = s.place home := by
      rw [place_update fun q _ => h.hand_eq hst.pc (.inl hst.frames), hst.frames, hhand]
      exact update_eq_self_iff.mpr (hand_of_pc hc).symm
    rw [hst.allocated, hplace]
    exact h.custody
  · rw [hst.frameAt]
    exact h.homes
  · rw [hst.frameMap, hst.used]
    exact h.tabled

/-- Steps that keep the homes and the page directories, and may change what is in the hand. -/
theorem InvAt.still (h : s.Inv) (hpc : t.pc = s.pc) (hsupt : t.supt = s.supt)
    (hpd : t.pagedir = s.pagedir) (hpid : t.nextPid = s.nextPid) (hc : s.pc p = some c)
    (hfill : ∀ v, c'.filled v = c.filled v) (hns : ∀ k, c ≠ .stackInstall k)
    (hframes : ∀ q ≠ p, t.frames = s.frames ∨ s.lock ≠ some q)
    (htable : FrameTable t.frames t.frameMap t.frameList t.nextFrame)
    (hcustody : Custody t.allocated (update (s.place s.home) (.hand p) (c'.inHand t.frames)))
    (hhomes : ∀ q v k, s.home q v = some (.frame k) →
      ∃ fr, t.frameAt k = some fr ∧ fr.t = q ∧ fr.upage = v)
    (htabled : ∀ k f, t.frameMap k = some f → t.used k = true)
    (hother : ∀ q d, q ≠ p → s.PcOk s.home q d → t.PcOk s.home q d)
    (hown : t.PcOk s.home p c') : (t.goto p c').Inv := by
  have hhome : t.home = s.home := by
    funext q v
    rw [home, home, suptLookup, suptLookup, hpc, hsupt]
  rw [Inv, home_goto_eq c' (by rw [hpc, hc]) hfill, hhome]
  refine h.goto hpc hc hpid htable ?_ hhomes htabled (fun q v e he => ?_)
    (fun q d hq _ hok => hother q d hq hok) hown
  · rw [place_update fun q hq => h.hand_eq hpc (hframes q hq)]
    exact hcustody
  · rw [lookupPage, hpd] at he
    exact h.mapped_goto hc hns hpc he

/-- A process goes on to a statement at which as much is known. -/
theorem InvAt.advance (h : s.Inv) (hc : s.pc p = some c) (hf : ∀ v, c'.filled v = c.filled v)
    (hhand : c'.inHand s.frames = c.inHand s.frames) (hns : ∀ k, c ≠ .stackInstall k)
    (hown : s.PcOk s.home p c') : (s.goto p c').Inv := by
  rw [Inv, home_goto_eq c' hc hf]
  exact h.quiet hc (.refl s) hhand (fun _ _ _ he => h.mapped_goto hc hns rfl he)
    (fun _ _ _ _ hok => hok) hown

/-- The content of the pages and of the swap device is not part of the invariant. -/
theorem InvAt.contents (h : s.InvAt home) (pages : ℕ → Page) (disk : ℕ → Sector)
    (log : List VmEvent) :
    ({ s with pages := pages, swap := ⟨s.swap.available, disk⟩, log := log } : Vm).InvAt home :=
  ⟨h.table, h.custody, h.homes, h.tabled, h.mapped, h.pcs, h.newer⟩

theorem allocated_frame {b : Bool} (hused : t.used = update s.used k b)
    (havail : t.swap.available = s.swap.available) :
    t.allocated = update s.allocated (.frame k) b := by
  funext l
  cases l with
  | frame k' => simp [allocated, hused, update_apply]
  | slot n => simp [allocated, havail]

theorem allocated_slot {n : ℕ} {b : Bool} (hused : t.used = s.used)
    (havail : t.swap.available = update s.swap.available n b) :
    t.allocated = update s.allocated (.slot n) (!b) := by
  funext l
  cases l with
  | frame k' => simp [allocated, hused]
  | slot n' =>
    simp only [allocated, havail, update_apply, Loc.slot.injEq]
    split <;> rfl

end Vm

end Pintos
