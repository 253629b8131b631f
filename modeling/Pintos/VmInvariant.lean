import Pintos.Custody
import Pintos.VmSteps

/-!
# The Invariant of Demand Paging

At any moment the content of a user page is in one place: in a frame, in a swap slot, or
nowhere but in the file (or in no need of storage, being zero). `Vm.home` says where,
reading the supplemental page table except while `load_page` has filled a frame and not
yet recorded it. Besides, a process inside an operation may hold one frame or slot in
its hand that is nobody's home (`VmPc.inHand`): the frame it is about to enter in the
table, the slot it has just written, the frame it is about to free.

The invariant `Vm.Inv` says that the frames and slots in use are exactly these, each
held once, that the frame table describes them, and, for every process, what is known at
the statement it has reached (`Vm.PcOk`).

## Main definitions

* `Vm.home`, `VmPc.inHand`, `Vm.place`: who holds what.
* `FrameTable`: `frame_map`, `frame_list` and the entries agree.
* `Vm.Inv`: the invariant.
-/

open Verif Verif.Outcome Function

namespace Pintos

/-- Where the content of a page can be kept. -/
inductive Loc where
  | frame (k : ℕ)
  | slot (n : ℕ)
  deriving DecidableEq, Repr

/-- Who keeps something: a user page, or a process for the time of an operation. -/
inductive Holder where
  | page (p : Pid) (u : ℕ)
  | hand (p : Pid)
  deriving DecidableEq, Repr

/-- Where an entry says that its page is. -/
def Spte.loc (e : Spte) : Option Loc :=
  match e.status with
  | .onFrame => e.kpage.map .frame
  | .onSwap => e.swapIndex.map .slot
  | .allZero | .fromFilesys => none

/-- The frame that `load_page` has filled for the page `u` and not yet recorded. -/
def VmPc.filled (u : ℕ) : VmPc → Option ℕ
  | .map u' k _ => if u = u' then some k else none
  | .setFrame u' k => if u = u' then some k else none
  | _ => none

/-- The home of a page of a process at `c`, given the page's entry. -/
def VmPc.homeOf (c : VmPc) (u : ℕ) (e : Option Spte) : Option Loc :=
  ((c.filled u).map .frame).or (e.bind Spte.loc)

/-- What a process holds that is nobody's home. -/
def VmPc.inHand (frames : ℕ → Option FrameEntry) : VmPc → Option Loc
  | .alloc _ (.setSwap _ n) => some (.slot n)
  | .alloc _ (.setDirty f) => (frames f).map fun fr => .frame fr.kpage
  | .alloc _ (.free f) => (frames f).map fun fr => .frame fr.kpage
  | .alloc _ (.insert k) => some (.frame k)
  | .fill _ k => some (.frame k)
  | .stackMap k => some (.frame k)
  | .stackInstall k => some (.frame k)
  | .drop k => some (.frame k)
  | _ => none

/-- `frame_map`, `frame_list` and the entries agree. -/
structure FrameTable (frames : ℕ → Option FrameEntry) (frameMap : ℕ → Option ℕ)
    (frameList : List ℕ) (nextFrame : ℕ) : Prop where
  entry : ∀ k f, frameMap k = some f → ∃ fr, frames f = some fr ∧ fr.kpage = k
  listed : ∀ f, f ∈ frameList ↔ ∃ k, frameMap k = some f
  nodup : frameList.Nodup
  fresh : ∀ k f, frameMap k = some f → f < nextFrame

namespace FrameTable

variable {frames : ℕ → Option FrameEntry} {frameMap : ℕ → Option ℕ} {frameList : List ℕ}
  {nextFrame : ℕ}

/-- No entry stands for two pages. -/
theorem injective (h : FrameTable frames frameMap frameList nextFrame) {k k' f : ℕ}
    (hk : frameMap k = some f) (hk' : frameMap k' = some f) : k = k' := by
  obtain ⟨fr, hfr, rfl⟩ := h.entry k f hk
  obtain ⟨fr', hfr', rfl⟩ := h.entry k' f hk'
  rw [hfr] at hfr'
  rw [Option.some.inj hfr']

/-- A listed entry is the one `frame_map` holds for its page. -/
theorem of_mem (h : FrameTable frames frameMap frameList nextFrame) {f : ℕ}
    (hf : f ∈ frameList) : ∃ fr, frames f = some fr ∧ frameMap fr.kpage = some f := by
  obtain ⟨k, hk⟩ := (h.listed f).mp hf
  obtain ⟨fr, hfr, rfl⟩ := h.entry k f hk
  exact ⟨fr, hfr, hk⟩

/-- A new entry for a page that has none. -/
theorem insert (h : FrameTable frames frameMap frameList nextFrame) {k : ℕ} (fr : FrameEntry)
    (hfr : fr.kpage = k) (hk : frameMap k = none) :
    FrameTable (update frames nextFrame (some fr))
      (update frameMap k (some nextFrame)) (frameList ++ [nextFrame])
      (nextFrame + 1) where
  entry k' f hf := by
    rw [update_apply] at hf
    split at hf
    · rename_i hkk
      cases hf
      exact ⟨fr, update_self _ _ _, hfr.trans hkk.symm⟩
    · rw [update_of_ne (Nat.ne_of_lt (h.fresh k' f hf))]
      exact h.entry k' f hf
  listed f := by
    rw [List.mem_append, List.mem_singleton, h.listed]
    constructor
    · rintro (⟨k', hk'⟩ | rfl)
      · have hne : k' ≠ k := by
          rintro rfl
          rw [hk] at hk'
          cases hk'
        exact ⟨k', by rw [update_of_ne hne, hk']⟩
      · exact ⟨k, update_self _ _ _⟩
    · rintro ⟨k', hk'⟩
      rw [update_apply] at hk'
      split at hk'
      · exact .inr (Option.some.inj hk').symm
      · exact .inl ⟨k', hk'⟩
  nodup := by
    rw [List.nodup_append]
    refine ⟨h.nodup, List.nodup_singleton _, ?_⟩
    rintro f hf _ hf' rfl
    obtain ⟨k', hk'⟩ := (h.listed f).mp hf
    rw [List.mem_singleton] at hf'
    exact absurd (h.fresh k' f hk') (by omega)
  fresh k' f hf := by
    rw [update_apply] at hf
    split at hf
    · cases hf
      exact Nat.lt_succ_self _
    · exact Nat.lt_succ_of_lt (h.fresh k' f hf)

/-- The entry of a page leaves the table. -/
theorem remove (h : FrameTable frames frameMap frameList nextFrame) {k f : ℕ}
    (hk : frameMap k = some f) :
    FrameTable (update frames f none) (update frameMap k none)
      (frameList.erase f) nextFrame where
  entry k' f' hf' := by
    rw [update_apply] at hf'
    split at hf'
    · cases hf'
    · rename_i hkk
      have hne : f' ≠ f := fun he => hkk (h.injective (he ▸ hf') hk)
      rw [update_of_ne hne]
      exact h.entry k' f' hf'
  listed f' := by
    rw [h.nodup.mem_erase_iff, h.listed]
    constructor
    · rintro ⟨hne, k', hk'⟩
      have hkk : k' ≠ k := by
        rintro rfl
        rw [hk] at hk'
        exact hne (Option.some.inj hk').symm
      exact ⟨k', by rw [update_of_ne hkk, hk']⟩
    · rintro ⟨k', hk'⟩
      rw [update_apply] at hk'
      split at hk'
      · cases hk'
      · rename_i hkk
        exact ⟨fun he => hkk (h.injective (he ▸ hk') hk), k', hk'⟩
  nodup := h.nodup.erase f
  fresh k' f' hf' := by
    rw [update_apply] at hf'
    split at hf'
    · cases hf'
    · exact h.fresh k' f' hf'

/-- Changing an entry in place, but for its page. -/
theorem modify (h : FrameTable frames frameMap frameList nextFrame) {f : ℕ} (fr : FrameEntry)
    (hfr : frames f = some fr) (b : Bool) :
    FrameTable (update frames f (some { fr with pinned := b })) frameMap frameList
      nextFrame where
  entry k f' hf' := by
    obtain ⟨fr', hfr', rfl⟩ := h.entry k f' hf'
    by_cases hff : f' = f
    · subst hff
      rw [hfr] at hfr'
      cases hfr'
      exact ⟨_, update_self _ _ _, rfl⟩
    · exact ⟨fr', by rw [update_of_ne hff, hfr'], rfl⟩
  listed := h.listed
  nodup := h.nodup
  fresh := h.fresh

end FrameTable

namespace Vm

/-! ### Who holds what -/

/-- Where the content of a page is, if anywhere but in the file. -/
def home (s : Vm) (p : Pid) (u : ℕ) : Option Loc :=
  (s.pc p).bind fun c => c.homeOf u (s.suptLookup p u)

/-- What a process holds that is nobody's home. -/
def hand (s : Vm) (p : Pid) : Option Loc := (s.pc p).bind (VmPc.inHand s.frames)

/-- What a holder holds. -/
def place (s : Vm) (home : Pid → ℕ → Option Loc) : Holder → Option Loc
  | .page p u => home p u
  | .hand p => s.hand p

/-- The frames and slots in use. -/
def allocated (s : Vm) : Loc → Bool
  | .frame k => s.used k
  | .slot n => !s.swap.available n

/-! ### What is known at a statement -/

/-- The entry of the frame `k` is `p`'s for the page `u`, and it is pinned. -/
def Pinned (s : Vm) (p : Pid) (u k : ℕ) : Prop := s.frameAt k = some ⟨k, u, p, true⟩

/-- The page `u` of `p` is not in memory. -/
def Loads (s : Vm) (p : Pid) (u : ℕ) : Prop :=
  s.lookupPage p u = none ∧ ∃ e, s.suptLookup p u = some e ∧ e.status ≠ .onFrame

/-- The entry `f` is in the table, and it is not pinned. -/
def Listed (s : Vm) (f : ℕ) (fr : FrameEntry) : Prop :=
  s.frames f = some fr ∧ s.frameMap fr.kpage = some f ∧ fr.pinned = false

/-- What is known at a statement of `frame_allocate`. -/
def AllocOk (s : Vm) (home : Pid → ℕ → Option Loc) (p : Pid) : AllocPc → Prop
  | .lock => True
  | .getPage | .again => s.lock = some p
  | .clear f => s.lock = some p ∧
      ∃ fr, s.Listed f fr ∧ home fr.t fr.upage = some (.frame fr.kpage)
  | .swapOut f | .setSwap f _ => s.lock = some p ∧
      ∃ fr, s.Listed f fr ∧ home fr.t fr.upage = some (.frame fr.kpage) ∧
        s.lookupPage fr.t fr.upage = none
  | .setDirty f | .free f => s.lock = some p ∧ ∃ fr, s.Listed f fr
  | .insert k => s.lock = some p ∧ s.frameMap k = none

/-- What is known of the page that `frame_allocate` was called for. -/
def WantOk (s : Vm) (home : Pid → ℕ → Option Loc) (p : Pid) : Want → Prop
  | .page u => s.Loads p u
  | .stack => home p stackPage = none

/-- What is known at a statement. -/
def PcOk (s : Vm) (home : Pid → ℕ → Option Loc) (p : Pid) : VmPc → Prop
  | .user | .failed => True
  | .loading => home p stackPage = none
  | .alloc w a => s.WantOk home p w ∧ s.AllocOk home p a
  | .fill u k => s.Loads p u ∧ s.Pinned p u k
  | .map u k _ => s.Loads p u ∧ s.Pinned p u k
  | .setFrame u k => s.Pinned p u k
  | .stackMap k | .stackInstall k => home p stackPage = none ∧ s.Pinned p stackPage k
  | .unpin k | .drop k => ∃ u, s.Pinned p u k

/-- **The invariant of demand paging**, with `home` for the homes of the pages. -/
structure InvAt (s : Vm) (home : Pid → ℕ → Option Loc) : Prop where
  table : FrameTable s.frames s.frameMap s.frameList s.nextFrame
  /-- The frames and slots in use are those somebody holds, each held once. -/
  custody : Custody s.allocated (s.place home)
  /-- The frame that is a page's home has the page's entry. -/
  homes : ∀ p u k, home p u = some (.frame k) →
    ∃ fr, s.frameAt k = some fr ∧ fr.t = p ∧ fr.upage = u
  /-- The frames in the table are in use. -/
  tabled : ∀ k f, s.frameMap k = some f → s.used k = true
  /-- A present page is mapped to its home, or to the frame about to become it. -/
  mapped : ∀ p u e, s.lookupPage p u = some e →
    home p u = some (.frame e.kpage) ∨ (s.pc p = some (.stackInstall e.kpage) ∧ u = stackPage)
  pcs : ∀ p c, s.pc p = some c → s.PcOk home p c
  newer : ∀ p, s.nextPid ≤ p → s.pc p = none

/-- The invariant of demand paging. -/
abbrev Inv (s : Vm) : Prop := s.InvAt s.home

end Vm

end Pintos
