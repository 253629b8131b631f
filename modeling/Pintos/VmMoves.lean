import Pintos.VmQuiet

/-!
# Steps That Move a Page

The steps that take or return a frame or a slot, or move a page from one place to
another, keep the invariant: the statements of `frame_allocate` under the lock, the
filling of a frame in `load_page`, and the ends of `load_page` and `install_page`.

## Main results

* `InvAt.setSwap`: the page of the evicted frame trades places with the slot.
* `InvAt.remove`, `InvAt.insert`: a frame leaves and enters the table.
* `InvAt.fill`: a frame becomes the home of the page that was read into it.
* `InvAt.stackInstall`, `InvAt.unpin`: the ends of `install_page` and `load_page`.
-/

open Verif Verif.Outcome Function

namespace Pintos

namespace Vm

variable {s t : Vm} {home home' : Pid → ℕ → Option Loc} {p q : Pid} {c c' : VmPc} {w : Want}
  {u v k n f : ℕ} {e : Spte} {fr : FrameEntry}

/-- What a process has in its hand is not the home of a page. -/
theorem InvAt.home_ne_of_hand (h : s.InvAt home) {l : Loc} (hp : s.hand p = some l) :
    home q v ≠ some l := by
  intro hq
  have hhand : s.place home (.hand p) = some l := hp
  have hpage : s.place home (.page q v) = some l := hq
  exact Holder.noConfusion (h.custody.unique hpage hhand)

/-- The owner of a pinned frame. -/
theorem Pinned.owner (h : s.Pinned p u k) (hq : s.Pinned q v k) : p = q := by
  rw [Pinned, h, Option.some.injEq, FrameEntry.mk.injEq] at hq
  exact hq.2.2.1

/-! ### `frame_allocate` -/

/-- A page of the pool is taken. -/
theorem InvAt.getPage {a : AllocPc} {b : Bool} (h : s.Inv) (hc : s.pc p = some (.alloc w a))
    (ha : a = .getPage ∨ a = .again) (hk : s.used k = false) :
    ((s.takePage k b).goto p (.alloc w (.insert k))).Inv := by
  have hlock : s.lock = some p := by
    have hok := (h.pcs p _ hc).2
    rcases ha with rfl | rfl <;> exact hok
  have hnone : s.hand p = none := by
    rw [hand_of_pc hc]
    rcases ha with rfl | rfl <;> rfl
  have hmap : s.frameMap k = none := by
    cases hf : s.frameMap k with
    | none => rfl
    | some f =>
      rw [h.tabled k f hf] at hk
      cases hk
  refine h.still rfl rfl rfl rfl hc (fun _ => rfl) (by simp) (fun _ _ => .inl rfl) h.table ?_
    h.homes ?_ (fun q d hq hok => hok.of_lock_ne (lock_ne hlock hq) (fun _ hl => hl)
      (fun _ _ hp => hp) id) ⟨(h.pcs p _ hc).1, hlock, hmap⟩
  · rw [allocated_frame (s := s) (t := s.takePage k b) rfl rfl]
    exact h.custody.take hnone hk
  · intro k' f hf
    change update s.used k true k' = true
    rw [update_apply]
    split
    · rfl
    · exact h.tabled k' f hf

/-- The victim is written to a slot. -/
theorem InvAt.swapOut {disk : ℕ → Sector} (h : s.Inv) (hc : s.pc p = some (.alloc w (.swapOut f)))
    (hn : s.swap.available n = true) :
    ((s.setSwapArea ⟨update s.swap.available n false, disk⟩).goto p
      (.alloc w (.setSwap f n))).Inv := by
  obtain ⟨hwant, hlock, hvictim⟩ := h.pcs p _ hc
  have hnone : s.hand p = none := hand_of_pc hc
  refine h.still rfl rfl rfl rfl hc (fun _ => rfl) (by simp) (fun _ _ => .inl rfl) h.table ?_
    h.homes h.tabled (fun q d hq hok => hok.of_lock_ne (lock_ne hlock hq) (fun _ hl => hl)
      (fun _ _ hp => hp) id) ⟨hwant, hlock, hvictim⟩
  rw [allocated_slot (s := s) (t := s.setSwapArea ⟨update s.swap.available n false, disk⟩) rfl rfl]
  exact h.custody.take hnone (by rw [allocated, hn]; rfl)

/-- The frame that a process is filling is pinned. -/
theorem PcOk.pinned_of_filled (h : s.PcOk home p c) (hf : c.filled u = some k) :
    s.Pinned p u k := by
  cases c with
  | map u' k' b =>
    rw [VmPc.filled] at hf
    split at hf
    · cases hf
      subst u'
      exact h.2
    · cases hf
  | setFrame u' k' =>
    rw [VmPc.filled] at hf
    split at hf
    · cases hf
      subst u'
      exact h
    · cases hf
  | _ => cases hf

/-- The owner of a frame that may be evicted is not filling it. -/
theorem InvAt.filled_victim (h : s.Inv) (hfr : s.Listed f fr)
    (hvictim : s.home fr.t fr.upage = some (.frame fr.kpage)) (hc : s.pc fr.t = some c) :
    c.filled fr.upage = none := by
  cases hfill : c.filled fr.upage with
  | none => rfl
  | some k =>
    have hk : s.home fr.t fr.upage = some (.frame k) := by
      rw [home_of_pc hc, homeOf_filled hfill]
    exact absurd ⟨rfl, rfl⟩
      (not_victim hk ((h.pcs _ _ hc).pinned_of_filled hfill) hfr hvictim)

/-- The page of a frame that may be evicted has an entry. -/
theorem InvAt.suptLookup_victim (h : s.Inv) (hfr : s.Listed f fr)
    (hvictim : s.home fr.t fr.upage = some (.frame fr.kpage)) :
    s.suptLookup fr.t fr.upage ≠ none := by
  intro hnone
  obtain ⟨d, hd, hhome⟩ := Option.bind_eq_some_iff.mp hvictim
  rw [homeOf_of_filled (h.filled_victim hfr hvictim hd), hnone] at hhome
  cases hhome

/-- The homes after `supt_set_swap`: the victim's page is in the slot. -/
theorem InvAt.home_setSwap (h : s.Inv) (hc : s.pc p = some (.alloc w (.setSwap f n)))
    (hfr : s.Listed f fr) (hvictim : s.home fr.t fr.upage = some (.frame fr.kpage)) (q : Pid)
    (v : ℕ) :
    ((s.setSpte fr.t fr.upage { e with status := .onSwap, kpage := none, swapIndex := some n }).goto
        p (.alloc w (.setDirty f))).home q v =
      if q = fr.t ∧ v = fr.upage then some (.slot n) else s.home q v := by
  rw [home_goto_eq (s := s.setSpte _ _ _) (.alloc w (.setDirty f)) hc fun _ => rfl, home_setSpte]
  split_ifs with hqv
  · obtain ⟨d, hd, -⟩ := Option.bind_eq_some_iff.mp hvictim
    rw [hd, Option.bind_some, homeOf_of_filled (h.filled_victim hfr hvictim hd)]
    rfl
  · rfl

/-- The victim's entry refers to the slot. -/
theorem InvAt.setSwap (h : s.Inv) (hc : s.pc p = some (.alloc w (.setSwap f n)))
    (hfr : s.frames f = some fr) :
    ((s.setSpte fr.t fr.upage { e with status := .onSwap, kpage := none, swapIndex := some n }).goto
      p (.alloc w (.setDirty f))).Inv := by
  obtain ⟨hwant, hlock, fr', hlisted, hvictim, hpte⟩ := h.pcs p _ hc
  obtain rfl : fr' = fr := Option.mem_unique hlisted.1 hfr
  have hhome := h.home_setSwap (e := e) hc hlisted hvictim
  have hbare : ∀ q, s.home q stackPage = none →
      ((s.setSpte fr'.t fr'.upage
        { e with status := .onSwap, kpage := none, swapIndex := some n }).goto p
          (.alloc w (.setDirty f))).home q stackPage = none := by
    intro q hq
    rw [hhome, if_neg, hq]
    rintro ⟨rfl, hv⟩
    rw [← hv, hq] at hvictim
    cases hvictim
  have hload : ∀ q u, s.Loads q u → (s.setSpte fr'.t fr'.upage
      { e with status := .onSwap, kpage := none, swapIndex := some n }).Loads q u :=
    fun q u hl => hl.setSpte (by simp)
  refine h.goto rfl hc rfl h.table ?_ ?_ h.tabled ?_
    (fun q d hq _ hok => hok.of_lock_ne (lock_ne hlock hq) (hload q) (fun _ _ hp => hp) (hbare q))
    ⟨?_, hlock, fr', hlisted⟩
  · have hhand : s.hand p = some (.slot n) := hand_of_pc hc
    have hin : VmPc.inHand s.frames (.alloc w (.setDirty f)) = some (.frame fr'.kpage) := by
      rw [VmPc.inHand, hfr]
      rfl
    rw [place_trade (s := s) (t := s.setSpte _ _ _) s.home _ fr'.t fr'.upage
      (fun q _ => h.hand_eq rfl (.inl rfl)) (by rw [hhand]; exact hhome) (hin.trans hvictim.symm)]
    exact h.custody.trade _
  · intro q v k hk
    rw [hhome] at hk
    split at hk
    · cases hk
    · exact h.homes q v k hk
  · intro q v e' he'
    have hne : ¬(q = fr'.t ∧ v = fr'.upage) := by
      rintro ⟨rfl, rfl⟩
      have hnone : s.lookupPage fr'.t fr'.upage = some e' := he'
      rw [hpte] at hnone
      cases hnone
    rw [hhome, if_neg hne]
    exact h.mapped_goto hc (by simp) rfl he'
  · cases w with
    | page u => exact hload p u hwant
    | stack => exact hbare p hwant

theorem bind_update {x : Option ℕ} {frames : ℕ → Option FrameEntry} {y : Option FrameEntry}
    (h : ∀ f', x = some f' → f' ≠ f) : x.bind (update frames f y) = x.bind frames := by
  cases x with
  | none => rfl
  | some f' => rw [Option.bind_some, Option.bind_some, update_of_ne (h f' rfl)]

/-- The other entries, after one has left the table. -/
theorem frameAt_remove (h : s.Inv) (hmap : s.frameMap k = some f) (hv : v ≠ k) :
    ((s.frameRemove f k).releasePage k).frameAt v = s.frameAt v := by
  change (update s.frameMap k none v).bind (update s.frames f none) = _
  rw [update_of_ne hv]
  exact bind_update fun f' hf heq => hv (h.table.injective (heq ▸ hf) hmap)

/-- **`frame_do_free`** on the frame that the process has in its hand. -/
theorem InvAt.remove (h : s.Inv) (hc : s.pc p = some c) (hmap : s.frameMap k = some f)
    (hhand : s.hand p = some (.frame k)) (hlock : ∀ q, s.lock = some q → q = p)
    (hfill : ∀ v, c'.filled v = c.filled v) (hin : ∀ frames, c'.inHand frames = none)
    (hns : ∀ k, c ≠ .stackInstall k) (hpinned : ∀ q u, q ≠ p → ¬s.Pinned q u k)
    (hown : ((s.frameRemove f k).releasePage k).PcOk s.home p c') :
    (((s.frameRemove f k).releasePage k).goto p c').Inv := by
  refine h.still rfl rfl rfl rfl hc hfill hns (fun q hq => .inr fun hl => hq (hlock q hl))
    (h.table.remove hmap) ?_ ?_ ?_ ?_ hown
  · rw [allocated_frame (s := s) (t := (s.frameRemove f k).releasePage k) rfl rfl, hin]
    exact h.custody.drop hhand
  · intro q v k' hk'
    have hne : k' ≠ k := by
      rintro rfl
      exact h.home_ne_of_hand hhand hk'
    rw [frameAt_remove h hmap hne]
    exact h.homes q v k' hk'
  · intro k' f' hf'
    change update s.frameMap k none k' = some f' at hf'
    change update s.used k false k' = true
    rw [update_apply] at hf' ⊢
    split at hf'
    · cases hf'
    · rw [if_neg ‹_›]
      exact h.tabled k' f' hf'
  · intro q d hq hok
    refine hok.of_lock_ne (fun hl => hq (hlock q hl)) (fun _ hl => hl) (fun u k' hp => ?_) id
    have hne : k' ≠ k := fun heq => hpinned q u hq (heq ▸ hp)
    rw [Pinned, frameAt_remove h hmap hne]
    exact hp

/-- The victim's frame is freed. -/
theorem InvAt.free {g : ℕ} (h : s.Inv) (hc : s.pc p = some (.alloc w (.free f)))
    (hfr : s.frames f = some fr) (hg : s.frameMap fr.kpage = some g) :
    (((s.frameRemove g fr.kpage).releasePage fr.kpage).goto p (.alloc w .again)).Inv := by
  obtain ⟨hwant, hlock, fr', hlisted⟩ := h.pcs p _ hc
  obtain rfl : fr' = fr := Option.mem_unique hlisted.1 hfr
  refine h.remove hc hg ?_ ?_ (fun _ => rfl) (fun _ => rfl) (by simp)
    (fun q u _ hp => hlisted.kpage_ne hp rfl) ⟨hwant, hlock⟩
  · rw [hand_of_pc hc, VmPc.inHand, hfr]
    rfl
  · exact fun q hq => not_imp_comm.mp (lock_ne hlock) (not_not_intro hq)

/-- The frame of a failed call is freed. -/
theorem InvAt.drop {g : ℕ} (h : s.Inv) (hc : s.pc p = some (.drop k)) (hlock : s.lock = none)
    (hg : s.frameMap k = some g) :
    (((s.frameRemove g k).releasePage k).goto p .failed).Inv := by
  obtain ⟨u, hpin⟩ := h.pcs p _ hc
  refine h.remove hc hg (hand_of_pc hc) ?_ (fun _ => rfl) (fun _ => rfl) (by simp)
    (fun q v hq hp => hq (hpin.owner hp).symm) trivial
  intro q hq
  rw [hlock] at hq
  cases hq

/-- The entries after a new one. -/
theorem frameAt_insert (h : s.Inv) (hk : s.frameMap k = none) (v : ℕ) :
    ((s.frameInsert p u k).setLock none).frameAt v =
      if v = k then some ⟨k, u, p, true⟩ else s.frameAt v := by
  change ((if (s.frameMap k).isSome then s.frameMap
    else update s.frameMap k (some s.nextFrame)) v).bind
      (update s.frames s.nextFrame (some ⟨k, u, p, true⟩)) = _
  rw [hk, Option.isSome_none, if_neg Bool.false_ne_true, update_apply]
  split
  · rw [Option.bind_some, update_self]
  · exact bind_update fun f hf => Nat.ne_of_lt (h.table.fresh v f hf)

/-- The new frame is put into the table, and the lock is released. -/
theorem InvAt.insert (h : s.Inv) (hc : s.pc p = some (.alloc w (.insert k)))
    (hfill : ∀ v, c'.filled v = none) (hin : ∀ frames, c'.inHand frames = some (.frame k))
    (hown : ((s.frameInsert p u k).setLock none).Pinned p u k →
      ((s.frameInsert p u k).setLock none).PcOk s.home p c') :
    (((s.frameInsert p u k).setLock none).goto p c').Inv := by
  obtain ⟨-, hlock, hk⟩ := h.pcs p _ hc
  have hhand : s.hand p = some (.frame k) := hand_of_pc hc
  have hmap : (s.frameInsert p u k).frameMap = update s.frameMap k (some s.nextFrame) := by
    rw [frameInsert, hk]
    rfl
  have hpin : ((s.frameInsert p u k).setLock none).Pinned p u k := by
    rw [Pinned, frameAt_insert h hk, if_pos rfl]
  refine h.still rfl rfl rfl rfl hc hfill (by simp) (fun _ hq => .inr (lock_ne hlock hq))
    ?_ ?_ ?_ ?_ ?_ (hown hpin)
  · change FrameTable _ (s.frameInsert p u k).frameMap _ _
    rw [hmap]
    exact h.table.insert ⟨k, u, p, true⟩ rfl hk
  · rw [hin, update_eq_self_iff.mpr hhand.symm]
    exact h.custody
  · intro q v k' hk'
    have hne : k' ≠ k := by
      rintro rfl
      exact h.home_ne_of_hand hhand hk'
    rw [frameAt_insert h hk, if_neg hne]
    exact h.homes q v k' hk'
  · intro k' f hf
    change (s.frameInsert p u k).frameMap k' = some f at hf
    rw [hmap, update_apply] at hf
    split at hf
    · rename_i hkk
      have hplace : s.place s.home (.hand p) = some (.frame k) := hhand
      rw [hkk]
      exact h.custody.allocated hplace
    · exact h.tabled k' f hf
  · intro q d hq hok
    refine hok.of_lock_ne (lock_ne hlock hq) (fun _ hl => hl) (fun v k' hp => ?_) id
    have hne : k' ≠ k := by
      rintro rfl
      rw [Pinned, frameAt, hk] at hp
      cases hp
    rw [Pinned, frameAt_insert h hk, if_neg hne]
    exact hp

/-! ### `load_page` and `install_page` -/

/-- A page gives up what it holds. -/
theorem place_drop (s : Vm) (home : Pid → ℕ → Option Loc) (p : Pid) (u : ℕ) :
    s.place (fun q v => if q = p ∧ v = u then none else home q v) =
      update (s.place home) (.page p u) none := by
  funext o
  cases o with
  | page q v =>
    rw [place]
    split_ifs with hqv
    · rw [hqv.1, hqv.2, update_self]
    · rw [update_of_ne (by simpa using hqv)]
      rfl
  | hand q =>
    rw [update_of_ne (by simp)]
    rfl

/-- What is in a frame is not part of the invariant. -/
theorem InvAt.fillPage (h : s.Inv) (k : ℕ) (page : Page) : (s.fillPage k page).Inv :=
  h.contents (update s.pages k page) s.swap.disk s.log

/-- **The frame is filled** and becomes the home of the page, which leaves the slot it may
have been in. -/
theorem InvAt.fill {b : Bool} {page : Page} (area : SwapArea) (h : s.Inv)
    (hc : s.pc p = some (.fill u k)) (hframe : ∀ k', s.home p u ≠ some (.frame k'))
    (hcustody : Custody ((s.fillPage k page).setSwapArea area).allocated
      (s.place fun q v => if q = p ∧ v = u then none else s.home q v)) :
    (((s.fillPage k page).setSwapArea area).goto p (.map u k b)).Inv := by
  obtain ⟨hload, hpin⟩ := h.pcs p _ hc
  have hhome : ∀ q v, (((s.fillPage k page).setSwapArea area).goto p (.map u k b)).home q v =
      if q = p ∧ v = u then some (.frame k) else s.home q v :=
    home_goto_ite rfl hc (fun _ _ _ => rfl) (fun _ hv => filled_map_of_ne k b hv)
      (homeOf_filled (filled_map u k b))
  have hhand : s.hand p = some (.frame k) := hand_of_pc hc
  refine h.goto rfl hc rfl h.table ?_ ?_ h.tabled ?_ ?_ ⟨hload, hpin⟩
  · rw [place_trade (s := s) (t := (s.fillPage k page).setSwapArea area)
      (fun q v => if q = p ∧ v = u then none else s.home q v) (.map u k b) p u
      (fun q _ => h.hand_eq rfl (.inl rfl)) ?_ (if_pos ⟨rfl, rfl⟩).symm]
    · exact hcustody.trade _
    · intro q v
      rw [hhome, hhand]
      split <;> rfl
  · intro q v k' hk'
    rw [hhome] at hk'
    split at hk'
    · rename_i hqv
      cases hk'
      exact ⟨_, hpin, hqv.1.symm, hqv.2.symm⟩
    · exact h.homes q v k' hk'
  · intro q v e he
    have hne : ¬(q = p ∧ v = u) := by
      rintro ⟨rfl, rfl⟩
      have hsome : s.lookupPage q v = some e := he
      rw [hload.1] at hsome
      cases hsome
    rw [hhome, if_neg hne]
    exact h.mapped_goto hc (by simp) rfl he
  · intro q d hq _ hok
    refine hok.mono (fun _ hl => hl) (fun _ _ hp => hp) (fun hbare => ?_)
      fun hl => ⟨hl, rfl, rfl, fun f fr hfr hvictim => ⟨?_, id⟩⟩
    · rw [hhome, if_neg fun hqv => hq hqv.1, hbare]
    · rw [hhome, if_neg, hvictim]
      rintro ⟨ht, hu⟩
      rw [ht, hu] at hvictim
      exact hframe _ hvictim

/-- A page that is in no slot is filled. -/
theorem InvAt.fill_fresh {b : Bool} {page : Page} (h : s.Inv) (hc : s.pc p = some (.fill u k))
    (he : s.suptLookup p u = some e) (hloc : e.loc = none) :
    ((s.fillPage k page).goto p (.map u k b)).Inv := by
  have hnone : s.home p u = none := by
    rw [home_of_pc hc, homeOf_of_filled rfl, he, Option.bind_some, hloc]
  refine h.fill s.swap hc (fun k' => by rw [hnone]; simp) ?_
  have heq : (fun q v => if q = p ∧ v = u then none else s.home q v) = s.home := by
    funext q v
    split_ifs with hqv
    · rw [hqv.1, hqv.2, hnone]
    · rfl
  rw [heq]
  exact h.custody

/-- A page is filled from its slot. -/
theorem InvAt.fill_slot {b : Bool} {page : Page} (h : s.Inv) (hc : s.pc p = some (.fill u k))
    (he : s.suptLookup p u = some e) (hloc : e.loc = some (.slot n)) :
    (((s.fillPage k page).setSwapArea
      { s.swap with available := update s.swap.available n true }).goto p
        (.map u k b)).Inv := by
  have hslot : s.home p u = some (.slot n) := by
    rw [home_of_pc hc, homeOf_of_filled rfl, he, Option.bind_some, hloc]
  have hplace : s.place s.home (.page p u) = some (.slot n) := hslot
  refine h.fill _ hc (fun k' => by rw [hslot]; simp) ?_
  rw [place_drop, allocated_slot (s := s) (t := (s.fillPage k page).setSwapArea
    { s.swap with available := update s.swap.available n true }) rfl rfl]
  exact h.custody.drop hplace

/-- The page table cannot be allocated, and the frame is back in the hand. -/
theorem InvAt.mapFail {b : Bool} (h : s.Inv) (hc : s.pc p = some (.map u k b))
    (hloc : (s.suptLookup p u).bind Spte.loc = none) : (s.goto p (.drop k)).Inv := by
  obtain ⟨hload, hpin⟩ := h.pcs p _ hc
  have hold : s.home p u = some (.frame k) := by
    rw [home_of_pc hc, homeOf_filled (filled_map u k b)]
  have hhand : s.hand p = none := hand_of_pc hc
  have hhome : ∀ q v, (s.goto p (.drop k)).home q v =
      if q = p ∧ v = u then none else s.home q v :=
    home_goto_ite rfl hc (fun _ _ _ => rfl) (fun _ hv => (filled_map_of_ne k b hv).symm)
      ((homeOf_of_filled rfl).trans hloc)
  refine h.goto rfl hc rfl h.table ?_ ?_ h.tabled ?_ ?_ ⟨u, hpin⟩
  · rw [place_trade (s := s) (t := s) s.home (.drop k) p u (fun _ _ => rfl)
      (by rw [hhand]; exact hhome) hold.symm]
    exact h.custody.trade _
  · intro q v k' hk'
    rw [hhome] at hk'
    split at hk'
    · cases hk'
    · exact h.homes q v k' hk'
  · intro q v e he
    have hne : ¬(q = p ∧ v = u) := by
      rintro ⟨rfl, rfl⟩
      rw [hload.1] at he
      cases he
    rw [hhome, if_neg hne]
    exact h.mapped_goto hc (by simp) rfl he
  · intro q d hq _ hok
    refine hok.mono (fun _ hl => hl) (fun _ _ hp => hp) (fun hbare => ?_)
      fun hl => ⟨hl, rfl, rfl, fun f fr hfr hvictim => ⟨?_, id⟩⟩
    · rw [hhome, if_neg fun hqv => hq hqv.1, hbare]
    · rw [hhome, if_neg (not_victim hold hpin hfr hvictim), hvictim]

/-- `install_page` records the stack page. -/
theorem InvAt.stackInstall (h : s.Inv) (hc : s.pc p = some (.stackInstall k))
    (hnone : s.suptLookup p stackPage = none) (junk : Spte) :
    ((s.suptInstallFrame p stackPage k junk).goto p (.unpin k)).Inv := by
  obtain ⟨hbare, hpin⟩ := h.pcs p _ hc
  have hhand : s.hand p = some (.frame k) := hand_of_pc hc
  have hlookup : ∀ q v, (s.suptInstallFrame p stackPage k junk).suptLookup q v =
      if q = p ∧ v = stackPage then
        some { junk with kpage := some k, status := .onFrame, dirty := false, swapIndex := none }
      else s.suptLookup q v :=
    fun q v => suptLookup_setSpte s p stackPage _ q v
  have hhome : ∀ q v, ((s.suptInstallFrame p stackPage k junk).goto p (.unpin k)).home q v =
      if q = p ∧ v = stackPage then some (.frame k) else s.home q v :=
    home_goto_ite rfl hc (fun q v hne => by rw [hlookup, if_neg hne]) (fun _ _ => rfl)
      (by rw [hlookup, if_pos ⟨rfl, rfl⟩]; rfl)
  refine h.goto rfl hc rfl h.table ?_ ?_ h.tabled ?_ ?_ ⟨_, hpin⟩
  · rw [place_trade (s := s) (t := s.suptInstallFrame p stackPage k junk) s.home (.unpin k) p
      stackPage (fun q _ => h.hand_eq rfl (.inl rfl)) (by rw [hhand]; exact hhome) hbare.symm]
    exact h.custody.trade _
  · intro q v k' hk'
    rw [hhome] at hk'
    split at hk'
    · rename_i hqv
      cases hk'
      exact ⟨_, hpin, hqv.1.symm, hqv.2.symm⟩
    · exact h.homes q v k' hk'
  · intro q v e he
    rw [hhome]
    rcases h.mapped q v e he with hl | ⟨hpc, hv⟩
    · refine .inl ?_
      rw [if_neg, hl]
      rintro ⟨rfl, rfl⟩
      rw [hbare] at hl
      cases hl
    · by_cases hq : q = p
      · rw [hq, hc] at hpc
        cases hpc
        exact .inl (if_pos ⟨hq, hv⟩)
      · exact .inr ⟨by rw [pc_goto, if_neg hq]; exact hpc, hv⟩
  · intro q d hq _ hok
    refine hok.mono (fun v hl => ⟨hl.1, ?_⟩) (fun _ _ hp => hp) (fun hb => ?_)
      fun hl => ⟨hl, rfl, rfl, fun f fr hfr hvictim => ⟨?_, id⟩⟩
    · rw [hlookup, if_neg fun hqv => hq hqv.1]
      exact hl.2
    · rw [hhome, if_neg fun hqv => hq hqv.1, hb]
    · rw [hhome, if_neg, hvictim]
      rintro ⟨ht, hu⟩
      rw [ht, hu, hbare] at hvictim
      cases hvictim

/-- The entries after one is unpinned. -/
theorem frameAt_unpin (h : s.Inv) (hpin : s.Pinned p u k) (hmap : s.frameMap k = some f) (v : ℕ) :
    (s.unpinEntry f).frameAt v = if v = k then some ⟨k, u, p, false⟩ else s.frameAt v := by
  have hfr : s.frames f = some ⟨k, u, p, true⟩ := by
    rw [Pinned, frameAt, hmap] at hpin
    exact hpin
  change (s.frameMap v).bind (update s.frames f
    ((s.frames f).map fun e => { e with pinned := false })) = _
  by_cases hv : v = k
  · rw [if_pos hv, hv, hmap, Option.bind_some, update_self, hfr]
    rfl
  · rw [if_neg hv]
    exact bind_update fun f' hf heq => hv (h.table.injective (heq ▸ hf) hmap)

/-- `frame_unpin`. -/
theorem InvAt.unpin (h : s.Inv) (hc : s.pc p = some (.unpin k)) (hlock : s.lock = none)
    (hmap : s.frameMap k = some f) : ((s.unpinEntry f).goto p .user).Inv := by
  obtain ⟨u, hpin⟩ := h.pcs p _ hc
  have hfr : s.frames f = some ⟨k, u, p, true⟩ := by
    rw [Pinned, frameAt, hmap] at hpin
    exact hpin
  refine h.still rfl rfl rfl rfl hc (fun _ => rfl) (by simp)
    (fun _ _ => .inr (ne_of_unlocked hlock)) ?_ ?_ ?_ h.tabled ?_ trivial
  · have htable := h.table.modify _ hfr false
    rw [unpinEntry, hfr]
    exact htable
  · rw [update_eq_self_iff.mpr (hand_of_pc hc).symm]
    exact h.custody
  · intro q v k' hk'
    rw [frameAt_unpin h hpin hmap]
    obtain ⟨fr, hfr', ht, hu⟩ := h.homes q v k' hk'
    split_ifs with hkk
    · rw [hkk, hpin, Option.some.injEq] at hfr'
      subst hfr'
      exact ⟨_, rfl, ht, hu⟩
    · exact ⟨fr, hfr', ht, hu⟩
  · intro q d hq hok
    refine hok.of_lock_ne (ne_of_unlocked hlock) (fun _ hl => hl) (fun v k' hp => ?_) id
    rw [Pinned, frameAt_unpin h hpin hmap, if_neg]
    · exact hp
    · rintro rfl
      exact hq (hpin.owner hp).symm

end Vm

end Pintos
