import Pintos.VmRules

/-!
# Steps That Move Nothing

The steps that leave every page where it is keep the invariant: those that only go on to
the next statement, the acquisition of `frame_lock`, the choice of a frame to evict, new
entries of the supplemental page table, and changes of a page directory.

## Main results

* `InvAt.home_of_listed`: the frame that the clock stops at is the home of its page.
* `InvAt.clear`, `InvAt.map`, `InvAt.setFrame`, `InvAt.stackMap`: the steps that change a
  page directory or an entry.
* `InvAt.install`: a new entry for a page that is not in memory.
-/

open Verif Verif.Outcome Function

namespace Pintos

namespace Vm

variable {s t : Vm} {p q : Pid} {c c' : VmPc} {w : Want} {u v k n f : ℕ} {e : Spte}
  {fr : FrameEntry}

/-- `frame_lock` is acquired. -/
theorem InvAt.lock (h : s.Inv) (hc : s.pc p = some (.alloc w .lock)) (hlock : s.lock = none) :
    ((s.setLock (some p)).goto p (.alloc w .getPage)).Inv := by
  refine h.still rfl rfl rfl rfl hc (fun _ => rfl) (by simp) (fun _ _ => .inl rfl) h.table ?_
    h.homes h.tabled (fun q d _ hok => ?_) ⟨(h.pcs p _ hc).1, rfl⟩
  · rw [update_eq_self_iff.mpr (hand_of_pc hc).symm]
    exact h.custody
  · exact hok.of_lock_ne (ne_of_unlocked hlock) (fun _ hl => hl) (fun _ _ hp => hp) id

/-- The entry where the clock stops is in the table. -/
theorem InvAt.listed_of_evictable (h : s.Inv) (hf : s.evictable f = true) :
    ∃ fr, s.Listed f fr := by
  rw [evictable, Bool.and_eq_true, decide_eq_true_eq, beq_iff_eq] at hf
  obtain ⟨fr, hfr, hmap⟩ := h.table.of_mem hf.1
  refine ⟨fr, hfr, hmap, ?_⟩
  have hpin := hf.2
  rw [hfr] at hpin
  exact Option.some.inj hpin

/-- What a process has in its hand besides a slot: a frame that is not in the table, one
it has pinned, or, under the lock, the frame it evicts. -/
theorem InvAt.of_hand (h : s.Inv) (hq : s.hand q = some (.frame k)) :
    s.frameMap k = none ∨ (∃ u, s.Pinned q u k) ∨
      (s.lock = some q ∧ ∃ w f, s.pc q = some (.alloc w (.setDirty f)) ∨
        s.pc q = some (.alloc w (.free f))) := by
  obtain ⟨d, hd, hin⟩ := Option.bind_eq_some_iff.mp hq
  have hok := h.pcs q d hd
  cases d with
  | fill u k' =>
    cases hin
    exact .inr (.inl ⟨u, hok.2⟩)
  | stackMap k' | stackInstall k' =>
    cases hin
    exact .inr (.inl ⟨_, hok.2⟩)
  | drop k' =>
    cases hin
    exact .inr (.inl hok)
  | alloc w a =>
    cases a with
    | setDirty f => exact .inr (.inr ⟨hok.2.1, w, f, .inl hd⟩)
    | free f => exact .inr (.inr ⟨hok.2.1, w, f, .inr hd⟩)
    | insert k' =>
      cases hin
      exact .inl hok.2.2
    | _ => cases hin
  | _ => cases hin

/-- A frame that may be evicted, and that no one is evicting, is the home of its page. -/
theorem InvAt.home_of_listed (h : s.Inv) (hc : s.pc p = some (.alloc w .getPage))
    (hfr : s.Listed f fr) : s.home fr.t fr.upage = some (.frame fr.kpage) := by
  have hlock : s.lock = some p := (h.pcs p _ hc).2
  obtain ⟨o, ho⟩ := (h.custody.alloc_iff (.frame fr.kpage)).mp (h.tabled _ _ hfr.2.1)
  cases o with
  | page q v =>
    obtain ⟨fr', hfr', rfl, rfl⟩ := h.homes q v _ ho
    rw [hfr.frameAt, Option.some.injEq] at hfr'
    rw [hfr']
    rw [hfr'] at ho
    exact ho
  | hand q =>
    rcases h.of_hand ho with hnone | ⟨u, hpin⟩ | ⟨hq, w', f', hpc⟩
    · rw [hfr.2.1] at hnone
      cases hnone
    · exact absurd rfl (hfr.kpage_ne hpin)
    · rw [hlock, Option.some.injEq] at hq
      rw [← hq, hc] at hpc
      rcases hpc with hpc | hpc <;> cases hpc

/-- The clock stops at an entry. -/
theorem InvAt.pick (h : s.Inv) (hc : s.pc p = some (.alloc w .getPage))
    (hf : s.evictable f = true) : (s.goto p (.alloc w (.clear f))).Inv := by
  obtain ⟨fr, hfr⟩ := h.listed_of_evictable hf
  exact h.advance hc (fun _ => rfl) rfl (by simp)
    ⟨(h.pcs p _ hc).1, (h.pcs p _ hc).2, fr, hfr, h.home_of_listed hc hfr⟩

/-- Clearing a page does not bring one into memory. -/
theorem Loads.clearPte (h : s.Loads q v) : (s.clearPte p u).Loads q v := by
  refine ⟨?_, h.2⟩
  rw [lookupPage_clearPte, h.1, ite_self]

/-- The victim's page is cleared in its owner's page directory. -/
theorem InvAt.clear (h : s.Inv) (hc : s.pc p = some (.alloc w (.clear f)))
    (hfr : s.frames f = some fr) :
    ((s.clearPte fr.t fr.upage).goto p (.alloc w (.swapOut f))).Inv := by
  obtain ⟨hwant, hlock, fr', hlisted, hhome'⟩ := h.pcs p _ hc
  obtain rfl : fr' = fr := Option.mem_unique hlisted.1 hfr
  have hhome : ((s.clearPte fr'.t fr'.upage).goto p (.alloc w (.swapOut f))).home = s.home :=
    home_goto_eq (s := s.clearPte fr'.t fr'.upage) _ hc fun _ => rfl
  rw [Inv, hhome]
  refine h.quiet hc ⟨rfl, rfl, rfl, rfl, rfl, rfl, rfl, rfl⟩ rfl ?_ ?_ ?_
  · intro q v e he
    exact h.mapped_goto hc (by simp) rfl (lookupPage_of_clearPte he)
  · intro q d hq _ hok
    exact hok.of_lock_ne (lock_ne hlock hq) (fun _ hl => hl.clearPte) (fun _ _ hp => hp) id
  · refine ⟨?_, hlock, fr', hlisted, hhome', ?_⟩
    · cases w with
      | page u => exact Loads.clearPte hwant
      | stack => exact hwant
    · rw [lookupPage_clearPte, if_pos ⟨rfl, rfl⟩]

/-- An entry that is changed and is still not in memory. -/
theorem Loads.setSpte (h : s.Loads q v) (he : e.status ≠ .onFrame) :
    (s.setSpte p u e).Loads q v := by
  refine ⟨h.1, ?_⟩
  rw [suptLookup_setSpte]
  split
  · exact ⟨e, rfl, he⟩
  · exact h.2

/-- A change of an entry that does not say whether the page is in memory. -/
theorem Loads.setSpte_same {e' : Spte} (h : s.Loads q v) (he : s.suptLookup p u = some e)
    (hstatus : e'.status = e.status) : (s.setSpte p u e').Loads q v := by
  refine ⟨h.1, ?_⟩
  rw [suptLookup_setSpte]
  split_ifs with hqv
  · obtain ⟨-, e₀, he₀, hne⟩ := h
    rw [hqv.1, hqv.2, he, Option.some.injEq] at he₀
    exact ⟨e', rfl, by rw [hstatus, he₀]; exact hne⟩
  · exact h.2

/-- The victim's entry is marked dirty. -/
theorem InvAt.setDirty {d : Bool} (h : s.Inv) (hc : s.pc p = some (.alloc w (.setDirty f)))
    (he : s.suptLookup fr.t fr.upage = some e) :
    ((s.setSpte fr.t fr.upage { e with dirty := d }).goto p (.alloc w (.free f))).Inv := by
  obtain ⟨hwant, hlock, fr', hlisted⟩ := h.pcs p _ hc
  have hhome : (s.setSpte fr.t fr.upage { e with dirty := d }).home = s.home :=
    home_setSpte_eq (by rw [he, Option.bind_some]; rfl)
  have hc' : (s.setSpte fr.t fr.upage { e with dirty := d }).pc p = some (.alloc w (.setDirty f)) :=
    hc
  rw [Inv, home_goto_eq (.alloc w (.free f)) hc' fun _ => rfl, hhome]
  refine h.quiet hc ⟨rfl, rfl, rfl, rfl, rfl, rfl, rfl, rfl⟩ rfl
    (fun _ _ _ he => h.mapped_goto hc (by simp) rfl he) ?_ ⟨?_, hlock, fr', hlisted⟩
  · intro q d hq _ hok
    exact hok.of_lock_ne (lock_ne hlock hq) (fun _ hl => hl.setSpte_same he rfl)
      (fun _ _ hp => hp) id
  · cases w with
    | page u => exact Loads.setSpte_same hwant he rfl
    | stack => exact hwant

/-- An entry for a page without one keeps the pages of the others out of memory. -/
theorem Loads.setSpte_new (h : s.Loads q v) (he : s.suptLookup p u = none) (e : Spte) :
    (s.setSpte p u e).Loads q v := by
  refine ⟨h.1, ?_⟩
  rw [suptLookup_setSpte, if_neg]
  · exact h.2
  · rintro ⟨rfl, rfl⟩
    obtain ⟨-, e₀, he₀, -⟩ := h
    rw [he] at he₀
    cases he₀

/-- A new entry for a page that is not in memory. -/
theorem InvAt.install (h : s.Inv) (hnone : s.suptLookup p u = none) (he : e.loc = none)
    (log : List VmEvent) : ({ s.setSpte p u e with log := log } : Vm).Inv := by
  have hhome : ({ s.setSpte p u e with log := log } : Vm).home = s.home :=
    home_setSpte_eq (s := s) (p := p) (u := u) (e := e) (by rw [he, hnone, Option.bind_none])
  rw [Inv, hhome]
  refine ⟨h.table, h.custody, h.homes, h.tabled, h.mapped, fun q d hq => ?_, h.newer⟩
  exact (h.pcs q d hq).mono (fun _ hl => hl.setSpte_new hnone e) (fun _ _ hp => hp) id
    fun hl => ⟨hl, rfl, rfl, fun _ _ _ hh => ⟨hh, id⟩⟩

/-- The frame a process is filling cannot be evicted. -/
theorem not_victim (hhome : s.home p u = some (.frame k))
    (hpin : s.Pinned p u k) (hfr : s.Listed f fr)
    (hvictim : s.home fr.t fr.upage = some (.frame fr.kpage)) : ¬(fr.t = p ∧ fr.upage = u) := by
  rintro ⟨rfl, rfl⟩
  rw [hvictim] at hhome
  cases hhome
  exact hfr.kpage_ne hpin rfl

/-- `pagedir_set_page` in `load_page`. -/
theorem InvAt.map {b : Bool} (h : s.Inv) (hc : s.pc p = some (.map u k b)) :
    ((s.setPte p u ⟨k, b⟩).goto p (.setFrame u k)).Inv := by
  obtain ⟨-, hpin⟩ := h.pcs p _ hc
  have hown : s.home p u = some (.frame k) := by
    rw [home_of_pc hc, homeOf_filled (filled_map u k b)]
  have hhome : ((s.setPte p u ⟨k, b⟩).goto p (.setFrame u k)).home = s.home :=
    home_goto_eq (s := s.setPte p u ⟨k, b⟩) _ hc fun _ => rfl
  rw [Inv, hhome]
  refine h.quiet hc ⟨rfl, rfl, rfl, rfl, rfl, rfl, rfl, rfl⟩ rfl ?_ ?_ hpin
  · intro q v e he
    rw [lookupPage_setPte] at he
    split at he
    · rename_i hqv
      cases he
      exact .inl (by rw [hqv.1, hqv.2, hown])
    · exact h.mapped_goto hc (by simp) rfl he
  · intro q d hq _ hok
    refine hok.mono (fun v hl => ⟨?_, hl.2⟩) (fun _ _ hp => hp) id
      fun hl => ⟨hl, rfl, rfl, fun f fr hfr hvictim => ⟨hvictim, fun hnone => ?_⟩⟩
    · rw [lookupPage_setPte, if_neg fun hqv => hq hqv.1, hl.1]
    · rw [lookupPage_setPte, if_neg (not_victim hown hpin hfr hvictim), hnone]

/-- `load_page` records the frame in the entry. -/
theorem InvAt.setFrame (h : s.Inv) (hc : s.pc p = some (.setFrame u k)) :
    ((s.setSpte p u { e with kpage := some k, status := .onFrame }).goto p (.unpin k)).Inv := by
  have hhome : ((s.setSpte p u { e with kpage := some k, status := .onFrame }).goto p
      (.unpin k)).home = s.home := by
    funext q v
    rw [home_goto, home_setSpte]
    split
    · rename_i hq
      rw [hq, homeOf_of_filled rfl, suptLookup_setSpte, home_of_pc hc]
      split_ifs with hv
      · rw [hv.2, homeOf_filled (filled_setFrame u k)]
        rfl
      · rw [homeOf_of_filled (filled_setFrame_of_ne k fun huv => hv ⟨rfl, huv⟩)]
    · rename_i hq
      rw [if_neg fun hqv => hq hqv.1]
  rw [Inv, hhome]
  refine h.quiet hc ⟨rfl, rfl, rfl, rfl, rfl, rfl, rfl, rfl⟩ rfl
    (fun _ _ _ he => h.mapped_goto hc (by simp) rfl he) ?_ ⟨u, h.pcs p _ hc⟩
  intro q d hq _ hok
  refine hok.mono (fun v hl => ⟨hl.1, ?_⟩) (fun _ _ hp => hp) id
    fun hl => ⟨hl, rfl, rfl, fun _ _ _ hh => ⟨hh, id⟩⟩
  rw [suptLookup_setSpte, if_neg fun hqv => hq hqv.1]
  exact hl.2

/-- `install_page` maps the stack page. -/
theorem InvAt.stackMap (h : s.Inv) (hc : s.pc p = some (.stackMap k)) :
    ((s.setPte p stackPage ⟨k, true⟩).goto p (.stackInstall k)).Inv := by
  obtain ⟨hbare, hpin⟩ := h.pcs p _ hc
  have hhome : ((s.setPte p stackPage ⟨k, true⟩).goto p (.stackInstall k)).home = s.home :=
    home_goto_eq (s := s.setPte p stackPage ⟨k, true⟩) _ hc fun _ => rfl
  rw [Inv, hhome]
  refine h.quiet hc ⟨rfl, rfl, rfl, rfl, rfl, rfl, rfl, rfl⟩ rfl ?_ ?_ ⟨hbare, hpin⟩
  · intro q v e he
    rw [lookupPage_setPte] at he
    split at he
    · rename_i hqv
      cases he
      exact .inr ⟨by rw [pc_goto, if_pos hqv.1], hqv.2⟩
    · exact h.mapped_goto hc (by simp) rfl he
  · intro q d hq _ hok
    refine hok.mono (fun v hl => ⟨?_, hl.2⟩) (fun _ _ hp => hp) id
      fun hl => ⟨hl, rfl, rfl, fun f fr hfr hvictim => ⟨hvictim, fun hnone => ?_⟩⟩
    · rw [lookupPage_setPte, if_neg fun hqv => hq hqv.1, hl.1]
    · rw [lookupPage_setPte, if_neg, hnone]
      rintro ⟨ht, hu⟩
      rw [ht, hu, hbare] at hvictim
      cases hvictim

end Vm

end Pintos
