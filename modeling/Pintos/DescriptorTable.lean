import Pintos.Descriptors
import Pintos.FilesysSafety

/-!
# The Descriptor Table

The list and the bitmap of a process say the same, as long as `open` finds a descriptor that
is free: the descriptors in the list are distinct, lie in 2..63, and are those that are set
in the bitmap. So an operation on a descriptor is carried out on the file that the latest
`open` to return it has opened, if it was not closed since.

When all descriptors are taken, `open` goes on with the descriptor `-1`: the file is opened
and put into the list all the same.

## Main results

* `descriptor_table`: the invariant, what `open` returns, and which file a call works on.
* `full_table_opens`: the process that opens one file too many.
-/

namespace Pintos

open Verif Function Outcome List Descriptors Option

/-! ### The abstract table -/

/-- The file that a descriptor stands for: the one of the latest `open` that returned the
descriptor, if it was not closed since. -/
def currentFile : List FdEvent → ℤ → Option FilePtr
  | [], _ => none
  | .opened fd f :: log, k => if fd = k then some f else currentFile log k
  | .closed fd _ :: log, k => if fd = k then none else currentFile log k
  | .exited :: _, _ => none
  | .openFailed :: log, k | .acted _ _ :: log, k | .missed _ :: log, k | .console :: log, k =>
    currentFile log k

/-- What an event says about the events before it. -/
def FdEvent.Justified (log : List FdEvent) : FdEvent → Prop
  | opened fd _ => 2 ≤ fd ∧ fd ≤ 63 ∧ currentFile log fd = none
  | acted fd f | closed fd f => currentFile log fd = some f
  | missed fd => currentFile log fd = none
  | openFailed | console | exited => True

namespace Descriptors

variable {d d' : Descriptors} {fd : ℤ} {f : FilePtr} {i : ℕ}

/-- The descriptor is set in the bitmap. -/
def Taken (d : Descriptors) (i : ℕ) : Prop := ∃ b, d.fileBitmap = some b ∧ b i = true

/-- Some descriptor is free. -/
def HasFree (d : Descriptors) : Prop := ∃ i, 2 ≤ i ∧ i < fileBits ∧ ¬d.Taken i

/-- The list and the bitmap agree. -/
structure Agrees (d : Descriptors) : Prop where
  fds : (d.fileList.map (·.fd)).Nodup
  files : (d.fileList.map (·.f)).Nodup
  range : ∀ item ∈ d.fileList, 2 ≤ item.fd ∧ item.fd ≤ 63
  bits : ∀ i : ℕ, 2 ≤ i → i < fileBits → (d.Taken i ↔ ∃ item ∈ d.fileList, item.fd = i)

/-- How a call changes the list. -/
def Effect (d d' : Descriptors) : FdEvent → Prop
  | .opened fd f => 2 ≤ fd ∧ fd ≤ 63 ∧ d.item fd = none ∧ d'.fileList = d.fileList ++ [⟨fd, f⟩]
  | .openFailed | .console => d' = d
  | .acted fd f => d.item fd = some ⟨fd, f⟩ ∧ d' = d
  | .missed fd => d.item fd = none ∧ d'.fileList = d.fileList
  | .closed fd f => d.item fd = some ⟨fd, f⟩ ∧ d'.fileList = d.fileList.eraseP (·.fd = fd)
  | .exited => d'.fileList = []

theorem item_eq_none : d.item fd = none ↔ ∀ item ∈ d.fileList, item.fd ≠ fd := by
  rw [item, find?_eq_none]
  simp

theorem of_item {it : ListItem} (h : d.item fd = some it) : it ∈ d.fileList ∧ it.fd = fd :=
  of_find?_key h

end Descriptors

/-! ### The history -/

/-- The history says what the list says. -/
def FdState.Tracks (s : FdState) : Prop :=
  ∀ fd, (s.desc.item fd).map (·.f) = currentFile s.log fd

/-- **A call is justified by the history**, and the history goes on saying what the list
says. -/
theorem FdState.Tracks.step {s s' : FdState} (h : s.Tracks) (hd : s.desc.Agrees) {e : FdEvent}
    (heffect : s.desc.Effect s'.desc e) (hlog : s'.log = e :: s.log) :
    s'.Tracks ∧ e.Justified s.log := by
  -- the calls that leave the list as it is
  have hsame : s'.desc.fileList = s.desc.fileList →
      (∀ k, currentFile s'.log k = currentFile s.log k) → s'.Tracks := fun hlist hcurrent k => by
    rw [hcurrent, ← h k, item, item, hlist]
  cases e with
  | opened fd f =>
    obtain ⟨h₂, h₆₃, hnone, hlist⟩ := heffect
    refine ⟨fun k => ?_, h₂, h₆₃, ?_⟩
    · rw [hlog, currentFile]
      by_cases hk : fd = k
      · subst hk
        rw [item] at hnone
        rw [if_pos rfl, item, hlist, find?_append, hnone]
        simp
      · rw [if_neg hk, ← h k, item, item, hlist, find?_append]
        simp [hk]
    · rw [← h fd, hnone]
      rfl
  | openFailed | console =>
    exact ⟨hsame (congrArg _ heffect) fun k => by rw [hlog, currentFile], trivial⟩
  | acted fd f =>
    obtain ⟨hitem, hdesc⟩ := heffect
    refine ⟨hsame (congrArg _ hdesc) fun k => by rw [hlog, currentFile], ?_⟩
    show currentFile s.log fd = some f
    rw [← h fd, hitem]
    rfl
  | missed fd =>
    obtain ⟨hnone, hlist⟩ := heffect
    refine ⟨hsame hlist fun k => by rw [hlog, currentFile], ?_⟩
    show currentFile s.log fd = none
    rw [← h fd, hnone]
    rfl
  | closed fd f =>
    obtain ⟨hitem, hlist⟩ := heffect
    rw [eraseP_key hd.fds] at hlist
    refine ⟨fun k => ?_, ?_⟩
    · rw [hlog, currentFile]
      by_cases hk : fd = k
      · subst hk
        rw [if_pos rfl, map_eq_none_iff, item_eq_none, hlist]
        exact fun item hitem => of_decide_eq_true (mem_filter.mp hitem).2
      · rw [if_neg hk, ← h k, item, item, hlist, find?_filter_key hk]
    · show currentFile s.log fd = some f
      rw [← h fd, hitem]
      rfl
  | exited =>
    refine ⟨fun k => ?_, trivial⟩
    rw [hlog, currentFile, item, show s'.desc.fileList = [] from heffect]
    rfl

/-! ### The calls -/

/-- The files of the process are open, and the list and the bitmap agree. -/
structure Owns (s : Fs) (d : Descriptors) : Prop where
  inv : s.Inv []
  agrees : d.Agrees
  isOpen : ∀ item ∈ d.fileList, s.IsOpen item.f

/-- A call may fail any assertion. -/
abbrev anySysPanic : SysPanic → Prop := fun _ => True

/-- What a call does from a state in order. -/
def FdDone (s : Fs) (d : Descriptors) (v : FdResult) : Prop :=
  Owns v.1 v.2.1 ∧ d.Effect v.2.1 v.2.2 ∧ (v.2.2 = .openFailed → v.1.files = s.files)

variable {s s' : Fs} {d d' : Descriptors} {fd : ℤ} {r : Bool}

theorem bitmapSet_spec {E : SysPanic → Prop} {b : ℕ → Bool} {idx : ℕ} {value : Bool}
    (h : idx < fileBits) :
    (bitmapSet b idx value).Spec r E fun b' => b' = update b idx value :=
  .assert h (.pure rfl)

/-- The descriptors that the bitmap has. -/
theorem fileBitmap_spec (d : Descriptors) :
    (fileBitmap d.fileBitmap).Spec r anySysPanic fun b =>
      ∀ i, 2 ≤ i → (b i = true ↔ d.Taken i) := by
  cases hbitmap : d.fileBitmap with
  | some b =>
    refine .pure fun i _ => ⟨fun hi => ⟨b, hbitmap, hi⟩, ?_⟩
    rintro ⟨b', hb', hi⟩
    rw [hbitmap] at hb'
    obtain rfl := some.inj hb'
    exact hi
  | none =>
    refine OracleM.Spec.draw.bind fun _ _ => .assert_of (fun _ => trivial) fun _ => ?_
    refine OracleM.Spec.draw.bind fun _ _ => .assert_of (fun _ => trivial) fun _ => ?_
    refine (bitmapSet_spec (by decide)).bind fun b hb => ?_
    subst hb
    refine (bitmapSet_spec (by decide)).mono fun b hb i hi => ?_
    subst hb
    rw [update_of_ne (by omega), update_of_ne (by omega)]
    refine iff_of_false Bool.false_ne_true ?_
    rintro ⟨b, hb, -⟩
    rw [hbitmap] at hb
    cases hb

/-- The loop of `open` finds a descriptor that is free, if there is one. -/
theorem takeFd_spec {b : ℕ → Bool} (h : ∃ i, 2 ≤ i ∧ i < fileBits ∧ b i = false) :
    ∃ i : ℕ, 2 ≤ i ∧ i < fileBits ∧ b i = false ∧ takeFd b = ((i : ℤ), update b i true) := by
  rw [takeFd]
  cases hfind : (range' 2 62).find? fun i => b i = false with
  | some i =>
    have hmem := mem_range'_1.mp (mem_of_find?_eq_some hfind)
    have hfree := find?_some hfind
    exact ⟨i, hmem.1, hmem.2, by simpa using hfree, rfl⟩
  | none =>
    obtain ⟨i, h₂, h₆₄, hfree⟩ := h
    have hnone := find?_eq_none.mp hfind i (mem_range'_1.mpr ⟨h₂, h₆₄⟩)
    exact absurd hfree (by simpa using hnone)

/-- A file is opened at a descriptor that was free. -/
theorem Descriptors.Agrees.opened (h : d.Agrees) {i : ℕ} (h₂ : 2 ≤ i) (h₆₄ : i < fileBits)
    {b : ℕ → Bool} (hb : ∀ i, 2 ≤ i → (b i = true ↔ d.Taken i)) (hfree : b i = false)
    {f : FilePtr} (hf : ∀ item ∈ d.fileList, item.f ≠ f) :
    d.item i = none ∧
      Descriptors.Agrees ⟨d.fileList ++ [⟨i, f⟩], some (update b i true)⟩ := by
  have hnone : ∀ item ∈ d.fileList, item.fd ≠ i := fun item hitem heq => by
    have htaken := (hb i h₂).mpr ((h.bits i h₂ h₆₄).mpr ⟨item, hitem, heq⟩)
    rw [hfree] at htaken
    cases htaken
  refine ⟨item_eq_none.mpr hnone, ?_, ?_, ?_, fun k h₂' h₆₄' => ?_⟩
  · rw [map_append, map_singleton, nodup_append_comm, singleton_append,
      nodup_cons]
    refine ⟨fun hmem => ?_, h.fds⟩
    obtain ⟨item, hitem, heq⟩ := mem_map.mp hmem
    exact hnone item hitem heq
  · rw [map_append, map_singleton, nodup_append_comm, singleton_append,
      nodup_cons]
    refine ⟨fun hmem => ?_, h.files⟩
    obtain ⟨item, hitem, heq⟩ := mem_map.mp hmem
    exact hf item hitem heq
  · intro item hitem
    rcases mem_append.mp hitem with hitem | hitem
    · exact h.range item hitem
    · rw [mem_singleton] at hitem
      subst hitem
      rw [fileBits] at h₆₄
      dsimp only
      omega
  · have hbit : Descriptors.Taken ⟨d.fileList ++ [⟨i, f⟩], some (update b i true)⟩ k ↔
        k = i ∨ d.Taken k := by
      rw [← hb k h₂']
      refine ⟨?_, fun hk => ⟨_, rfl, ?_⟩⟩
      · rintro ⟨b', hb', hk⟩
        obtain rfl := some.inj hb'
        by_cases hki : k = i
        · exact .inl hki
        · rw [update_of_ne hki] at hk
          exact .inr hk
      · by_cases hki : k = i
        · rw [hki, update_self]
        · rw [update_of_ne hki]
          exact hk.resolve_left hki
    rw [hbit, h.bits k h₂' h₆₄']
    constructor
    · rintro (rfl | ⟨item, hitem, heq⟩)
      · exact ⟨_, mem_append_right _ (mem_singleton.mpr rfl), rfl⟩
      · exact ⟨item, mem_append_left _ hitem, heq⟩
    · rintro ⟨item, hitem, heq⟩
      rcases mem_append.mp hitem with hitem | hitem
      · exact .inr ⟨item, hitem, heq⟩
      · rw [mem_singleton] at hitem
        subst hitem
        exact .inl (Int.ofNat.inj heq).symm

/-- A descriptor is closed. -/
theorem Descriptors.Agrees.closed (h : d.Agrees) {item : ListItem} (hitem : item ∈ d.fileList)
    {b : ℕ → Bool} (hb : ∀ i, 2 ≤ i → (b i = true ↔ d.Taken i)) :
    sizeT item.fd < fileBits ∧ Descriptors.Agrees
      ⟨d.fileList.eraseP (·.fd = item.fd), some (update b (sizeT item.fd) false)⟩ := by
  obtain ⟨h₂, h₆₃⟩ := h.range item hitem
  have hfd : (sizeT item.fd : ℤ) = item.fd := by
    rw [sizeT]
    omega
  refine ⟨by rw [fileBits]; omega, ?_⟩
  rw [eraseP_key h.fds]
  refine ⟨h.fds.sublist (filter_sublist.map _), h.files.sublist (filter_sublist.map _),
    fun it hit => h.range it (mem_filter.mp hit).1, fun k h₂' h₆₄' => ?_⟩
  constructor
  · rintro ⟨b', hb', hk⟩
    obtain rfl := some.inj hb'
    rcases eq_or_ne k (sizeT item.fd) with rfl | hne
    · rw [update_self] at hk
      cases hk
    · rw [update_of_ne hne, hb k h₂', h.bits k h₂' h₆₄'] at hk
      obtain ⟨it, hit, heq⟩ := hk
      refine ⟨it, mem_filter.mpr ⟨hit, decide_eq_true fun hsame => hne ?_⟩, heq⟩
      omega
  · rintro ⟨it, hit, heq⟩
    obtain ⟨hit, hne⟩ := mem_filter.mp hit
    refine ⟨_, rfl, ?_⟩
    rw [update_of_ne, hb k h₂', h.bits k h₂' h₆₄']
    · exact ⟨it, hit, heq⟩
    · intro hk
      refine of_decide_eq_true hne ?_
      omega

/-- The bits of 0 and 1 do not matter. -/
theorem Descriptors.Agrees.setBitmap (h : d.Agrees) {b : ℕ → Bool}
    (hb : ∀ i, 2 ≤ i → (b i = true ↔ d.Taken i)) :
    Descriptors.Agrees ⟨d.fileList, some b⟩ := by
  refine ⟨h.fds, h.files, h.range, fun k h₂ h₆₄ => ?_⟩
  rw [← h.bits k h₂ h₆₄, ← hb k h₂]
  exact ⟨fun ⟨b', hb', hk⟩ => (some.inj hb') ▸ hk, fun hk => ⟨b, rfl, hk⟩⟩

namespace Owns

/-- The file system changes, and the files of the process stay open. -/
theorem keeps (h : Owns s d) (hs : s'.Inv []) {closed : Option FilePtr}
    (hkeeps : s.Keeps closed s') (hne : ∀ item ∈ d.fileList, closed ≠ some item.f) : Owns s' d :=
  ⟨hs, h.agrees, fun item hitem => hkeeps.isOpen (h.isOpen item hitem) (hne item hitem)⟩

theorem same (h : Owns s d) (hs : s'.Inv []) (hkeeps : s.Keeps none s') : Owns s' d :=
  h.keeps hs hkeeps fun _ _ => by simp

/-- A file that was just opened is a new one. -/
theorem fresh (h : Owns s d) (hs : s'.Inv []) {p : FilePtr} (hopens : s.Opens (some p) s') :
    s'.IsOpen p ∧ ∀ item ∈ d.fileList, item.f ≠ p := by
  obtain ⟨f, rfl, -, hfiles, hmap⟩ := hopens
  have hptrs := hs.table.ptrs
  rw [hfiles, map_cons, nodup_cons] at hptrs
  have hne : ∀ g ∈ s.files, g.ptr ≠ f.ptr := fun g hg heq =>
    hptrs.1 (heq ▸ mem_map_of_mem hg)
  refine ⟨⟨⟨f, hfiles ▸ mem_cons_self, rfl⟩, ?_⟩, fun item hitem heq => ?_⟩
  · obtain ⟨g, hg, hgptr, -⟩ := h.inv.table.map
    rw [hmap, hgptr]
    exact fun heq => hne g hg (some.inj heq)
  · obtain ⟨g, hg, hgptr⟩ := (h.isOpen item hitem).1
    exact hne g hg (hgptr.trans heq)

/-- `open`, while some descriptor is free. -/
theorem sysOpen (h : Owns s d) {file : Option CString} {named : Bool}
    (hfree : d.HasFree ∨ ∀ name ∈ file, ¬s.Present name) :
    (sysOpen s d file named).Spec r anySysPanic fun v => FdDone s d v ∧
      (v.2.2 = .openFailed ∨ ∃ fd f, v.2.2 = .opened fd f) := by
  cases file with
  | none => exact .pure ⟨⟨h, rfl, fun _ => rfl⟩, .inl rfl⟩
  | some name =>
    refine h.inv.filesysOpen.liftPanic.bind fun v hv => ?_
    obtain ⟨f, s₁⟩ := v
    obtain ⟨h₁, -, hopens, hpresent⟩ := hv
    have howns := h.same h₁ hopens.keeps
    cases f with
    | none => exact .pure ⟨⟨howns, rfl, fun _ => hopens.files⟩, .inl rfl⟩
    | some p =>
      obtain ⟨hopen, hne⟩ := h.fresh h₁ hopens
      have hfree := hfree.resolve_right fun habsent =>
        habsent name rfl (hpresent (some_ne_none p))
      refine (fileBitmap_spec d).bind fun b hb => ?_
      obtain ⟨i, h₂, h₆₄, hbit, htake⟩ := takeFd_spec (b := b) (by
        obtain ⟨i, h₂, h₆₄, hi⟩ := hfree
        exact ⟨i, h₂, h₆₄, Bool.eq_false_iff.mpr fun htrue => hi ((hb i h₂).mp htrue)⟩)
      obtain ⟨hnone, hagrees⟩ := h.agrees.opened h₂ h₆₄ hb hbit hne
      rw [htake]
      refine OracleM.Spec.draw.bind fun _ _ => .assert_of (fun _ => trivial) fun _ => ?_
      have hdeny : (denyNamed s₁ named p).Spec r anySysPanic fun s₂ =>
          s₂.Inv [] ∧ s₁.Keeps none s₂ := by
        rw [denyNamed]
        split
        · refine (h₁.fileDenyWrite hopen).liftPanic.mono fun s₂ hs₂ => ⟨hs₂.1, ?_⟩
          exact Fs.keeps_withFile hs₂.2.2.1 hs₂.2.2.2 fun _ => rfl
        · exact .pure ⟨h₁, (Fs.SameFiles.refl s₁).keeps⟩
      refine hdeny.bind fun s₂ hs₂ => .pure
        ⟨⟨⟨hs₂.1, hagrees, fun item hitem => ?_⟩, ?_, ?_⟩, .inr ⟨i, p, rfl⟩⟩
      · rcases mem_append.mp hitem with hitem | hitem
        · exact (howns.same hs₂.1 hs₂.2).isOpen item hitem
        · rw [mem_singleton] at hitem
          subst hitem
          exact hs₂.2.isOpen hopen (by simp)
      · rw [fileBits] at h₆₄
        exact ⟨by omega, by omega, hnone, rfl⟩
      · intro he
        cases he

/-- An operation on the file of a descriptor. -/
theorem onItem (h : Owns s d) {act : FilePtr → FsM Fs}
    (hact : ∀ p, s.IsOpen p → (act p).Spec r (fun _ => True) fun s' =>
      s'.Inv [] ∧ s.Keeps none s') :
    (onItem s d fd act).Spec r anySysPanic (FdDone s d) := by
  rw [Pintos.onItem]
  split
  · rename_i hnone
    exact .pure ⟨h, ⟨hnone, rfl⟩, fun he => by cases he⟩
  · rename_i item hitem
    obtain ⟨hmem, rfl⟩ := of_item hitem
    refine (hact _ (h.isOpen item hmem)).liftPanic.bind fun s' hs' => .pure ?_
    exact ⟨h.same hs'.1 hs'.2, ⟨hitem, rfl⟩, fun he => by cases he⟩

/-- An operation that looks at the bitmap first. -/
theorem onTaken (h : Owns s d) {act : FilePtr → FsM Fs}
    (hact : ∀ p, s.IsOpen p → (act p).Spec r (fun _ => True) fun s' =>
      s'.Inv [] ∧ s.Keeps none s') :
    (onTaken s d fd act).Spec r anySysPanic (FdDone s d) := by
  have hcount : (bitmapCount d.fileBitmap (sizeT fd)).Spec r anySysPanic fun count =>
      count = 1 → d.item fd = none := by
    cases hbitmap : d.fileBitmap with
    | none => exact .fail trivial
    | some b =>
      refine .assert_of (fun _ => trivial) fun _ => .assert_of (fun _ => trivial) fun hlt =>
        .pure fun hone => ?_
      have hclear : b (sizeT fd) = false := by
        by_contra hset
        rw [if_neg hset] at hone
        cases hone
      rw [item_eq_none]
      rintro item hitem rfl
      -- the descriptors in the list are set
      obtain ⟨h₂, h₆₃⟩ := h.agrees.range item hitem
      have hfd : (sizeT item.fd : ℤ) = item.fd := by
        rw [sizeT]
        omega
      obtain ⟨b', hb', hset⟩ := (h.agrees.bits (sizeT item.fd) (by omega) hlt).mpr
        ⟨item, hitem, hfd.symm⟩
      rw [hbitmap] at hb'
      obtain rfl := some.inj hb'
      rw [hclear] at hset
      cases hset
  rw [Pintos.onTaken]
  refine hcount.bind fun count hnone => ?_
  split
  · exact .pure ⟨h, ⟨hnone ‹_›, rfl⟩, fun he => by cases he⟩
  · exact h.onItem hact

/-- The files of the process are closed one after the other. -/
theorem closeAll {items : List ListItem} (hs : s.Inv []) (hfiles : (items.map (·.f)).Nodup)
    (hopen : ∀ item ∈ items, s.IsOpen item.f) :
    (closeAll s items).Spec r anySysPanic fun s' => s'.Inv [] := by
  induction items generalizing s with
  | nil => exact .pure hs
  | cons item items ih =>
    rw [map_cons, nodup_cons] at hfiles
    refine (hs.fileClose (hopen item mem_cons_self)).liftPanic.bind fun s₁ hs₁ => ?_
    obtain ⟨h₁, -, hmap, hlist⟩ := hs₁
    refine ih h₁ hfiles.2 fun it hit => ?_
    obtain ⟨⟨f, hf, hptr⟩, hne⟩ := hopen it (mem_cons_of_mem _ hit)
    refine ⟨⟨f, ?_, hptr⟩, hmap ▸ hne⟩
    rw [hlist, mem_filter, decide_eq_true_eq, hptr]
    exact ⟨hf, fun heq => hfiles.1 (heq ▸ mem_map_of_mem hit)⟩

/-- `exit`. -/
theorem sysExit (h : Owns s d) : (sysExit s d).Spec r anySysPanic (FdDone s d) := by
  refine (closeAll h.inv h.agrees.files h.isOpen).bind fun s' hs' => .pure ?_
  refine ⟨⟨hs', ⟨nodup_nil, nodup_nil, ?_, fun i _ _ => ?_⟩, ?_⟩, rfl, fun he => by cases he⟩
  · exact fun _ hitem => absurd hitem not_mem_nil
  · refine iff_of_false ?_ ?_
    · rintro ⟨b, hb, -⟩
      cases hb
    · rintro ⟨item, hitem, -⟩
      exact absurd hitem not_mem_nil
  · exact fun _ hitem => absurd hitem not_mem_nil

/-- `close`. -/
theorem sysClose (h : Owns s d) : (sysClose s d fd).Spec r anySysPanic (FdDone s d) := by
  rw [Pintos.sysClose]
  refine (fileBitmap_spec d).bind fun b hb => ?_
  have hbits : (clearConsole b fd).Spec r anySysPanic fun b =>
      ∀ i, 2 ≤ i → (b i = true ↔ d.Taken i) := by
    rw [clearConsole]
    split_ifs with hfd
    · refine .assert_of (fun _ => trivial) fun _ => .pure fun i hi => ?_
      rw [update_of_ne, hb i hi]
      rw [sizeT]
      omega
    · exact .pure hb
  refine hbits.bind fun b hb => ?_
  split
  · rename_i hnone
    exact .pure ⟨⟨h.inv, h.agrees.setBitmap hb, h.isOpen⟩, ⟨hnone, rfl⟩, fun he => by cases he⟩
  · rename_i item hitem
    obtain ⟨hmem, rfl⟩ := of_item hitem
    obtain ⟨hlt, hagrees⟩ := h.agrees.closed hmem hb
    refine (h.inv.fileClose (h.isOpen item hmem)).liftPanic.bind fun s' hs' => ?_
    obtain ⟨h', -, hmap, hfiles⟩ := hs'
    refine (bitmapSet_spec hlt).bind fun b' hb' => .pure ?_
    subst hb'
    refine ⟨⟨h', hagrees, fun it hit => ?_⟩, ⟨hitem, rfl⟩, fun he => by cases he⟩
    dsimp only at hit
    rw [eraseP_key h.agrees.fds, mem_filter, decide_eq_true_eq] at hit
    obtain ⟨⟨f, hf, hptr⟩, hne⟩ := h.isOpen it hit.1
    refine ⟨⟨f, ?_, hptr⟩, hmap ▸ hne⟩
    rw [hfiles, mem_filter, decide_eq_true_eq, hptr]
    refine ⟨hf, fun heq => hit.2 ?_⟩
    rw [eq_of_key h.agrees.files hit.1 hmem heq]

/-- **Every system call**, as long as `open` finds a descriptor. -/
theorem perform (h : Owns s d) {op : FdOp} (hop : ∀ file named, op = .openFile file named →
      d.HasFree ∨ ∀ name ∈ file, ¬s.Present name) :
    (op.perform s d).Spec r anySysPanic (FdDone s d) := by
  have hquiet : ∀ op : FsOp, op.closes = none → (∀ p ∈ op.file, s.IsOpen p) →
      (s.perform op).Spec r (fun _ => True) fun s' => s'.Inv [] ∧ s.Keeps none s' := by
    intro op hnone hopen
    rw [← hnone]
    exact ((h.inv.perform hopen).weaken fun _ _ => trivial).mono fun s' hs' => ⟨hs'.1, hs'.2.1⟩
  have hfile : ∀ {p}, s.IsOpen p → ∀ q ∈ some p, s.IsOpen q := by
    rintro p hp q hq
    exact some.inj hq ▸ hp
  have hsame : s.Inv [] ∧ s.Keeps none s := ⟨h.inv, (Fs.SameFiles.refl s).keeps⟩
  cases op with
  | openFile file named => exact (h.sysOpen (hop file named rfl)).mono fun _ hv => hv.1
  | close fd => exact h.sysClose
  | read fd buffer size =>
    rw [FdOp.perform, sysRead]
    split
    · exact h.sysExit
    split
    · exact .pure ⟨h, rfl, fun he => by cases he⟩
    · exact h.onItem fun p hp => hquiet (.read p size) rfl (hfile hp)
  | write fd buffer data size =>
    rw [FdOp.perform, sysWrite]
    split
    · exact h.sysExit
    split
    · exact .pure ⟨h, rfl, fun he => by cases he⟩
    · exact h.onItem fun p hp => hquiet (.write p data size) rfl (hfile hp)
  | seek fd position => exact h.onTaken fun p hp => hquiet (.seek p position) rfl (hfile hp)
  | tell fd =>
    refine h.onTaken fun p hp => ?_
    obtain ⟨f, -, hf, rfl, -⟩ := h.inv.of_isOpen hp
    exact (Fs.file_spec (h.inv.table.find_file hf)).bind fun _ _ => .pure hsame
  | filesize fd =>
    refine h.onTaken fun p hp => ?_
    obtain ⟨f, i, hf, rfl, hi, href, -⟩ := h.inv.of_isOpen hp
    refine (Fs.file_spec (h.inv.table.find_file hf)).bind fun g hg => ?_
    subst hg
    rw [← href]
    exact (Fs.inode_spec (h.inv.table.find_inode hi)).bind fun _ _ => .pure hsame

end Owns

/-! ### Runs -/

namespace FdState

/-- A file that exists is opened only while some descriptor is free. -/
def HasRoom (s : FdState) : FdAction → Prop
  | .call (.openFile file _) _ => s.desc.HasFree ∨ ∀ name ∈ file, ¬s.fs.Present name
  | .call _ _ | .other _ => True

/-- The invariant of a process. -/
structure InOrder (s : FdState) : Prop where
  owns : Owns s.fs s.desc
  tracks : s.Tracks
  justified : Grounded FdEvent.Justified s.log

variable {s s' : FdState}

/-- What a system call does. -/
theorem InOrder.call (h : s.InOrder) {op : FdOp} {answers : List Bool}
    (hroom : s.HasRoom (.call op answers)) (hstep : s.step (.call op answers) = .ok s') :
    ∃ e, s'.log = e :: s.log ∧ FdDone s.fs s.desc (s'.fs, s'.desc, e) := by
  rw [step, require_bind_eq_ok] at hstep
  obtain ⟨-, hstep⟩ := hstep
  obtain ⟨⟨v, rest⟩, hv, hs'⟩ := bind_eq_ok.mp hstep
  obtain rfl := ok.inj hs'
  have hperform : (op.perform s.fs s.desc).Spec true anySysPanic (FdDone s.fs s.desc) :=
    h.owns.perform fun file named hop => by
      subst hop
      exact hroom
  exact ⟨v.2.2, rfl, hperform.of_eq_ok hv⟩

/-- **Every step keeps the invariant.** -/
theorem InOrder.step (h : s.InOrder) {a : FdAction} (hroom : s.HasRoom a)
    (hstep : s.step a = .ok s') : s'.InOrder := by
  cases a with
  | call op answers =>
    obtain ⟨e, hlog, howns, heffect, -⟩ := h.call hroom hstep
    obtain ⟨htracks, hjustified⟩ := h.tracks.step h.owns.agrees heffect hlog
    refine ⟨howns, htracks, ?_⟩
    rw [hlog]
    exact ⟨hjustified, h.justified⟩
  | other c =>
    rw [FdState.step, require_bind_eq_ok] at hstep
    obtain ⟨hopen, hstep⟩ := hstep
    obtain ⟨⟨fs, rest⟩, hfs, hs'⟩ := bind_eq_ok.mp hstep
    obtain rfl := ok.inj hs'
    have hperform : (fsCall (s.fs.perform c.op)).Spec true anySysPanic _ :=
      ((h.owns.inv.perform fun p hp => (hopen p hp).1).weaken fun _ _ => trivial).liftPanic
    obtain ⟨hinv, hkeeps, -⟩ := hperform.of_eq_ok hfs
    refine ⟨h.owns.keeps hinv hkeeps fun item hitem hclosed => ?_, h.tracks, h.justified⟩
    exact (hopen item.f (FsOp.file_of_closes hclosed)).2 item hitem rfl

/-- In the beginning nothing is open. -/
theorem InOrder.initial (h : FdInitial s) : s.InOrder := by
  obtain ⟨hfs, hdesc, hlog⟩ := h
  refine ⟨⟨hfs.inv, ?_, ?_⟩, ?_, ?_⟩
  · rw [hdesc]
    refine ⟨nodup_nil, nodup_nil, fun _ hitem => absurd hitem not_mem_nil,
      fun i _ _ => iff_of_false ?_ ?_⟩
    · rintro ⟨b, hb, -⟩
      cases hb
    · rintro ⟨item, hitem, -⟩
      exact absurd hitem not_mem_nil
  · rw [hdesc]
    exact fun _ hitem => absurd hitem not_mem_nil
  · intro fd
    rw [hdesc, hlog]
    rfl
  · rw [hlog]
    trivial

/-- What a call of `open` does, and what it returns. -/
theorem InOrder.openFile (h : s.InOrder) {file : Option CString} {named : Bool}
    {answers : List Bool} (hroom : s.HasRoom (.call (.openFile file named) answers))
    (hstep : s.step (.call (.openFile file named) answers) = .ok s') :
    (s'.log = .openFailed :: s.log ∧ s'.desc = s.desc ∧ s'.fs.files = s.fs.files) ∨
      ∃ fd f, s'.log = .opened fd f :: s.log ∧ (∀ item ∈ s.desc.fileList, item.fd ≠ fd) ∧
        s'.desc.fileList = s.desc.fileList ++ [⟨fd, f⟩] := by
  rw [FdState.step, require_bind_eq_ok] at hstep
  obtain ⟨-, hstep⟩ := hstep
  obtain ⟨⟨⟨fs, desc, e⟩, rest⟩, hv, hs'⟩ := bind_eq_ok.mp hstep
  obtain rfl := ok.inj hs'
  have hopen : (sysOpen s.fs s.desc file named).Spec true anySysPanic _ := h.owns.sysOpen hroom
  obtain ⟨⟨-, heffect, hfailed⟩, hkind⟩ := hopen.of_eq_ok hv
  rcases hkind with rfl | ⟨fd, f, rfl⟩
  · exact .inl ⟨rfl, heffect, hfailed rfl⟩
  · exact .inr ⟨fd, f, rfl, item_eq_none.mp heffect.2.2.1, heffect.2.2.2⟩

end FdState

/-- **The descriptor table.** In every state that a process reaches while it opens files that
exist only when some descriptor is free: the descriptors in the list are distinct and lie in
2..63; they are those that are set in the bitmap; `open` leaves everything as it was or
returns a descriptor that was not in use; and an operation on a descriptor was carried out on
the file of the latest `open` that returned it, if it was not closed since, and on no file
otherwise. -/
theorem descriptor_table {s₀ s : FdState} (h₀ : FdInitial s₀)
    (h : Reachable FdState.step FdState.HasRoom s₀ s) :
    ((s.desc.fileList.map (·.fd)).Nodup ∧ ∀ item ∈ s.desc.fileList, 2 ≤ item.fd ∧ item.fd ≤ 63) ∧
    (∀ i : ℕ, 2 ≤ i → i < fileBits →
      (s.desc.Taken i ↔ ∃ item ∈ s.desc.fileList, item.fd = i)) ∧
    (∀ file named answers s', s.HasRoom (.call (.openFile file named) answers) →
      s.step (.call (.openFile file named) answers) = .ok s' →
        (s'.log = .openFailed :: s.log ∧ s'.desc = s.desc ∧ s'.fs.files = s.fs.files) ∨
        ∃ fd f, s'.log = .opened fd f :: s.log ∧ (∀ item ∈ s.desc.fileList, item.fd ≠ fd) ∧
          s'.desc.fileList = s.desc.fileList ++ [⟨fd, f⟩]) ∧
    (∀ later earlier fd f, s.log = later ++ .acted fd f :: earlier ∨
      s.log = later ++ .closed fd f :: earlier → currentFile earlier fd = some f) ∧
    ∀ later earlier fd, s.log = later ++ .missed fd :: earlier → currentFile earlier fd = none := by
  have hinv : s.InOrder := h.invariant (.initial h₀) fun _ _ _ hs hroom hstep => hs.step hroom hstep
  have hagrees := hinv.owns.agrees
  refine ⟨⟨hagrees.fds, hagrees.range⟩, hagrees.bits, fun _ _ _ _ hroom hstep =>
    hinv.openFile hroom hstep, fun later earlier fd f hlog => ?_, fun later earlier fd hlog => ?_⟩
  · rcases hlog with hlog | hlog
    · exact (hlog ▸ hinv.justified).justified
    · exact (hlog ▸ hinv.justified).justified
  · exact (hlog ▸ hinv.justified).justified

/-- A process on a small device that has the file `a`. -/
theorem sampleProcess_initial {fs : Fs}
    (h : sampleRun [.create (sampleName 97 (by decide)) 0 (fun _ => 0)] = .ok fs) :
    FdInitial ⟨fs, ⟨[], none⟩, []⟩ :=
  ⟨sampleRun_reachable h, rfl, rfl⟩

/-- A process opens the file `a` twice, closes the first descriptor, opens the file again and
reads from it. -/
def reuseDescriptor : List FdAction :=
  [.call (.openFile (some (sampleName 97 (by decide))) false) [],
    .call (.openFile (some (sampleName 97 (by decide))) false) [], .call (.close 2) [],
    .call (.openFile (some (sampleName 97 (by decide))) false) [], .call (.read 2 0 10) []]

/-- The descriptor 2 is used again, and the read is carried out on the file of the last `open`. -/
theorem descriptor_table_reuse : ∃ s₀ s f f' earlier, FdInitial s₀ ∧
    Reachable FdState.step FdState.HasRoom s₀ s ∧ s.desc.fileList.map (·.fd) = [3, 2] ∧
    s.desc.Taken 2 ∧ s.log = .acted 2 f' :: earlier ∧ .closed 2 f ∈ earlier ∧ f' ≠ f ∧
    currentFile earlier 2 = some f' := by
  have htest : (sampleRun [.create (sampleName 97 (by decide)) 0 (fun _ => 0)]).test (fun fs =>
      -- the descriptor 63 stays free
      (exec (guarded (fun s _ => s.desc.fileBitmap.all (! · 63)) FdState.step)
        ⟨fs, ⟨[], none⟩, []⟩ reuseDescriptor).test fun s =>
          decide (s.desc.fileList.map (·.fd) = [3, 2] ∧ s.log = [.acted 2 11, .opened 2 11,
            .closed 2 7, .opened 3 9, .opened 2 7])) = true := by
    decide +kernel
  obtain ⟨fs, hfs, hs⟩ := Outcome.of_test htest
  obtain ⟨s, hexec, hs⟩ := Outcome.of_test hs
  obtain ⟨hfds, hlog⟩ := of_decide_eq_true hs
  have hinitial := sampleProcess_initial hfs
  have hreach : Reachable FdState.step FdState.HasRoom ⟨fs, ⟨[], none⟩, []⟩ s := by
    refine ⟨_, (Run.of_guarded hexec).mono fun s a hfree => ?_⟩
    have hroom : s.desc.HasFree := by
      refine ⟨63, by decide, by decide, ?_⟩
      rintro ⟨b, hb, htaken⟩
      rw [hb] at hfree
      simp [htaken] at hfree
    cases a with
    | call op answers =>
      cases op with
      | openFile file named => exact .inl hroom
      | _ => trivial
    | other c => trivial
  obtain ⟨-, hbits, -, hacted, -⟩ := descriptor_table hinitial hreach
  refine ⟨_, s, 7, 11, _, hinitial, hreach, hfds, (hbits 2 le_rfl (by decide)).mpr ?_, hlog,
    by decide, by decide, hacted [] _ 2 11 (.inl hlog)⟩
  have hmem : (2 : ℤ) ∈ s.desc.fileList.map (·.fd) := by
    rw [hfds]
    decide
  exact List.mem_map.mp hmem

/-- **A process that opens one file too many**: the 63rd call of `open` returns -1, but the
file is open and in the list. -/
theorem full_table_opens : ∃ s₀ s, FdInitial s₀ ∧
    Reachable FdState.step (fun _ _ => True) s₀ s ∧ (∃ item ∈ s.desc.fileList, item.fd = -1) ∧
    s.desc.fileList.length = 63 ∧ s.fs.files.length = 64 := by
  have htest : (sampleRun [.create (sampleName 97 (by decide)) 0 (fun _ => 0)]).test (fun fs =>
      (exec FdState.step ⟨fs, ⟨[], none⟩, []⟩ (List.replicate 63
        (.call (.openFile (some (sampleName 97 (by decide))) false) []))).test fun s =>
          decide ((∃ item ∈ s.desc.fileList, item.fd = -1) ∧ s.desc.fileList.length = 63 ∧
            s.fs.files.length = 64)) = true := by
    decide +kernel
  obtain ⟨fs, hfs, hs⟩ := Outcome.of_test htest
  obtain ⟨s, hexec, hs⟩ := Outcome.of_test hs
  exact ⟨_, s, sampleProcess_initial hfs, ⟨_, .of_exec hexec⟩, of_decide_eq_true hs⟩

end Pintos
