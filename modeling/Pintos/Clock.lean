import Mathlib.Data.List.Nodup
import Mathlib.Data.Nat.ModEq
import Pintos.Outcome
import Pintos.SecondChance

/-!
# The Clock

The frame table of `vm/frame.c` as a list with a hand, and `pick_frame_to_evict`, which moves the
hand until it finds a frame to evict. The hand is a pointer to an element of the list, and three
things about it are not as they should be:

* `list_next` of the last element is the tail of the list, which is not in a record; what is read
  there as a record is whatever memory is behind the tail.
* `frame_do_free` does not move the hand. After an eviction it points into the record that was
  freed, which `free` has filled with 0xcc, unless `malloc` returns the same record again.
* The loop makes `2 * n + 1` steps, though a turn has `n + 1` of them.

So the hand goes round a ring of the frames and the tail, and the first position that is accepted
is the result, be it a frame or not.

## Conventions

* A record is named by its address, a frame and a user page by a number. `frame_map` has the
  records of `frame_list`: no two have the same `kpage`.
* The accessed bits are those of the page directory of the running thread.
* `Beyond` is what is read behind the tail in each step.

## Main results

* `ClockTable.clockFrameNext_spec`: the hand goes round the ring.
* `clock_finds_iff`: when `pick_frame_to_evict` finds a frame to evict.
* `finds_iff_of_pinned`: the same, if what is behind the tail reads as pinned.
-/

namespace Pintos

open Verif Outcome List Function

/-- `struct frame_table_entry`. -/
structure FrameRecord where
  kpage : ℕ
  upage : ℕ
  t : ℕ
  pinned : Bool
  deriving DecidableEq, Repr

/-- `clock_ptr`. -/
inductive Hand where
  | null
  /-- `list_end (&frame_list)`. -/
  | tail
  /-- The element in a record. -/
  | elem (f : ℕ)
  deriving DecidableEq, Repr

/-- What the fields of a record around the tail of `frame_list` would be. -/
structure Beyond where
  pinned : Bool
  upage : ℕ
  deriving DecidableEq, Repr

/-- The panics of the functions. -/
inductive ClockPanic where
  /-- "Frame table is empty, can't happen". -/
  | empty
  /-- "Can't evict any frame". -/
  | cantEvict
  /-- `list_next` of an element in memory that was freed. -/
  | freed
  /-- The fields of a record around the tail are used to evict a frame. -/
  | notARecord
  /-- "The page to be freed is not stored in the table". -/
  | notInTable
  deriving DecidableEq, Repr

/-- Computations of `frame.c`. -/
abbrev ClockM := Outcome ClockPanic

/-- The frame table. No two records have the same page. -/
structure ClockTable where
  frameList : List ℕ
  frames : ℕ → FrameRecord
  clockPtr : Hand
  nodup : (frameList.map fun f => (frames f).kpage).Nodup

namespace ClockTable

/-- Moves the hand. -/
def setHand (s : ClockTable) (hand : Hand) : ClockTable := { s with clockPtr := hand }

/-- `list_next`. -/
def listNext (s : ClockTable) (f : ℕ) : ClockM Hand :=
  if f ∈ s.frameList then
    match s.frameList[s.frameList.idxOf f + 1]? with
    | some g => return .elem g
    | none => return .tail
  else
    .panic .freed

/-- Where `clock_frame_next` moves the hand. -/
def nextHand (s : ClockTable) : ClockM Hand :=
  match s.frameList with
  | [] => .panic .empty
  | f :: _ =>
    match s.clockPtr with
    | .null => return .elem f
    | .tail => return .elem f
    | .elem g => s.listNext g

/-- `clock_frame_next`: the record that the hand is moved to, or `none` if that is the tail. -/
def clockFrameNext (s : ClockTable) : ClockM (Option ℕ × ClockTable) := do
  let hand ← s.nextHand
  match hand with
  | .elem f => return (some f, s.setHand hand)
  | _ => return (none, s.setHand hand)

/-- `e->pinned`. -/
def pinnedAt (s : ClockTable) (b : Beyond) : Option ℕ → Bool
  | some f => (s.frames f).pinned
  | none => b.pinned

/-- `e->upage`. -/
def upageAt (s : ClockTable) (b : Beyond) : Option ℕ → ℕ
  | some f => (s.frames f).upage
  | none => b.upage

/-- The loop of `pick_frame_to_evict`: the result, the accessed bits, and the table. -/
def pickLoop (beyond : ℕ → Beyond) : (fuel it : ℕ) → (s : ClockTable) → (accessed : ℕ → Bool) →
    ClockM (Option ℕ × (ℕ → Bool) × ClockTable)
  | 0, _, _, _ => .panic .cantEvict
  | fuel + 1, it, s, accessed => do
    let (e, s) ← s.clockFrameNext
    if s.pinnedAt (beyond it) e then
      pickLoop beyond fuel (it + 1) s accessed
    else if accessed (s.upageAt (beyond it) e) then
      pickLoop beyond fuel (it + 1) s
        (update accessed (s.upageAt (beyond it) e) false)
    else
      return (e, accessed, s)

/-- `pick_frame_to_evict`. -/
def pickFrameToEvict (s : ClockTable) (accessed : ℕ → Bool) (beyond : ℕ → Beyond) :
    ClockM (Option ℕ × (ℕ → Bool) × ClockTable) := do
  Outcome.ensure (s.frameList.length ≠ 0) .empty
  pickLoop beyond (s.frameList.length + s.frameList.length + 1) 0 s accessed

theorem nodup_frameList (s : ClockTable) : s.frameList.Nodup := s.nodup.of_map _

/-! ### The table -/

/-- The end of `frame_allocate`, with the record that `malloc` returns. -/
def insert (s : ClockTable) (f kpage upage t : ℕ) (hf : f ∉ s.frameList)
    (hkpage : ∀ g ∈ s.frameList, (s.frames g).kpage ≠ kpage) : ClockTable where
  frameList := s.frameList ++ [f]
  frames := update s.frames f ⟨kpage, upage, t, true⟩
  clockPtr := s.clockPtr
  nodup := by
    have hsame : s.frameList.map (fun g =>
        (update s.frames f ⟨kpage, upage, t, true⟩ g).kpage) =
          s.frameList.map fun g => (s.frames g).kpage :=
      map_congr_left fun g hg => by
        rw [update_of_ne]
        rintro rfl
        exact hf hg
    rw [map_append, hsame, map_singleton, update_self]
    refine List.Nodup.append s.nodup (nodup_singleton _) (disjoint_singleton.mpr ?_)
    rw [mem_map]
    rintro ⟨g, hg, heq⟩
    exact hkpage g hg heq

/-- The record `f` leaves the table. The hand stays where it is. -/
def remove (s : ClockTable) (f : ℕ) : ClockTable where
  frameList := s.frameList.erase f
  frames := s.frames
  clockPtr := s.clockPtr
  nodup := s.nodup.sublist ((erase_sublist).map _)

/-- `frame_do_free`, for `frame_free` and `frame_remove_entry`. -/
def frameDoFree (s : ClockTable) (kpage : ℕ) : ClockM ClockTable :=
  match s.frameList.find? fun f => (s.frames f).kpage = kpage with
  | none => .panic .notInTable
  | some f => return s.remove f

/-- `frame_set_pinned`, on a record. -/
def setPinned (s : ClockTable) (f : ℕ) (newValue : Bool) : ClockTable where
  frameList := s.frameList
  frames := update s.frames f { s.frames f with pinned := newValue }
  clockPtr := s.clockPtr
  nodup := by
    have hsame : (fun g =>
        (update s.frames f { s.frames f with pinned := newValue } g).kpage) =
          fun g => (s.frames g).kpage := by
      funext g
      by_cases hg : g = f
      · rw [hg, update_self]
      · rw [update_of_ne hg]
    rw [hsame]
    exact s.nodup

/-- `frame_pin` and `frame_unpin`. -/
def frameSetPinned (s : ClockTable) (kpage : ℕ) (newValue : Bool) : ClockM ClockTable :=
  match s.frameList.find? fun f => (s.frames f).kpage = kpage with
  | none => .panic .notInTable
  | some f => return s.setPinned f newValue

/-- `frame_allocate` once it has a page, with what `malloc` returns. -/
def insertRecord (s : ClockTable) (f kpage upage t : ℕ) : ClockM ClockTable :=
  if h : f ∉ s.frameList ∧ ∀ g ∈ s.frameList, (s.frames g).kpage ≠ kpage then
    return s.insert f kpage upage t h.1 h.2
  else
    .blocked

end ClockTable

/-- The calls that change the frame table. `f` is what `malloc` returns, and `page` what
`palloc_get_page` does; without one, a frame is evicted and its page is taken. -/
inductive FrameOp where
  | allocate (page : Option ℕ) (upage t f : ℕ) (accessed : ℕ → Bool) (beyond : ℕ → Beyond)
  | free (kpage : ℕ)
  | setPinned (kpage : ℕ) (newValue : Bool)

namespace ClockTable

/-- One call. -/
def step (s : ClockTable) : FrameOp → ClockM ClockTable
  | .allocate (some kpage) upage t f _ _ => s.insertRecord f kpage upage t
  | .allocate none upage t f accessed beyond => do
    let (e, _, s) ← s.pickFrameToEvict accessed beyond
    match e with
    | none => .panic .notARecord
    | some g => do
      let kpage := (s.frames g).kpage
      let s ← s.frameDoFree kpage
      s.insertRecord f kpage upage t
  | .free kpage => s.frameDoFree kpage
  | .setPinned kpage newValue => s.frameSetPinned kpage newValue

/-- The frame table after `frame_init`. -/
def init : ClockTable := ⟨[], fun _ => ⟨0, 0, 0, false⟩, .null, nodup_nil⟩

/-! ### The ring -/

variable {s : ClockTable} {i k : ℕ} {hand : Hand} {accessed : ℕ → Bool} {beyond : ℕ → Beyond}

/-- Where the hand is in the ring of the frames and the tail, if it is anywhere. -/
def handIndex (s : ClockTable) : Option ℕ :=
  match s.clockPtr with
  | .null => some s.frameList.length
  | .tail => some s.frameList.length
  | .elem f => if f ∈ s.frameList then some (s.frameList.idxOf f) else none

/-- The position in the ring that is `k` steps after the one ahead of index `i`. -/
def ahead (s : ClockTable) (i k : ℕ) : Option ℕ :=
  s.frameList[(i + 1 + k) % (s.frameList.length + 1)]?

/-- The hand at a position. -/
def toHand : Option ℕ → Hand
  | some f => .elem f
  | none => .tail

theorem handIndex_le (h : s.handIndex = some i) : i ≤ s.frameList.length := by
  rw [handIndex] at h
  split at h
  · cases h
    exact le_rfl
  · cases h
    exact le_rfl
  · split at h
    · cases h
      exact idxOf_le_length
    · cases h

/-- A hand at a position of the ring is there. -/
theorem handIndex_setHand_toHand (s : ClockTable) {j : ℕ} (hj : j ≤ s.frameList.length) :
    (s.setHand (toHand s.frameList[j]?)).handIndex = some j := by
  rcases Nat.lt_or_eq_of_le hj with hlt | rfl
  · rw [getElem?_eq_getElem hlt, toHand, setHand, handIndex]
    dsimp only
    rw [if_pos (getElem_mem hlt), s.nodup_frameList.idxOf_getElem]
  · rw [getElem?_eq_none le_rfl, toHand, setHand, handIndex]

theorem nextHand_eq (hne : s.frameList ≠ []) (h : s.handIndex = some i) :
    s.nextHand = .ok (toHand (s.ahead i 0)) := by
  obtain ⟨f, rest, hlist⟩ := exists_cons_of_ne_nil hne
  have hstart : i = s.frameList.length → toHand (s.ahead i 0) = .elem f := by
    rintro rfl
    rw [ahead, Nat.add_zero, Nat.mod_self, hlist]
    rfl
  rw [nextHand, hlist]
  rw [handIndex] at h
  split at h
  · rw [hstart (Option.some.inj h).symm]
    rfl
  · rw [hstart (Option.some.inj h).symm]
    rfl
  · rename_i g helem
    split at h
    · rename_i hg
      have hlt := idxOf_lt_length_of_mem hg
      obtain rfl := Option.some.inj h
      rw [listNext, if_pos hg, ahead, Nat.add_zero, Nat.mod_eq_of_lt (by omega)]
      cases s.frameList[s.frameList.idxOf g + 1]? with
      | none | some g' => rfl
    · cases h

/-- **The hand goes round the ring.** -/
theorem clockFrameNext_spec (hne : s.frameList ≠ []) (h : s.handIndex = some i) :
    s.clockFrameNext = .ok (s.ahead i 0, s.setHand (toHand (s.ahead i 0))) := by
  rw [clockFrameNext, nextHand_eq hne h, ok_bind]
  cases s.ahead i 0 with
  | none | some f => rfl

theorem clockFrameNext_freed (hne : s.frameList ≠ []) (h : s.handIndex = none) :
    s.clockFrameNext = .panic .freed := by
  obtain ⟨f, rest, hlist⟩ := exists_cons_of_ne_nil hne
  rw [handIndex] at h
  split at h
  · cases h
  · cases h
  · rename_i g helem
    split at h
    · cases h
    · rename_i hg
      rw [clockFrameNext, nextHand, hlist]
      rw [helem]
      dsimp only
      rw [listNext, if_neg hg]
      rfl

/-- Whether the position that is read in a step is pinned. -/
def pinnedAhead (s : ClockTable) (beyond : ℕ → Beyond) (i k : ℕ) : Bool :=
  s.pinnedAt (beyond k) (s.ahead i k)

/-- The user page that is read in a step. -/
def upageAhead (s : ClockTable) (beyond : ℕ → Beyond) (i k : ℕ) : ℕ :=
  s.upageAt (beyond k) (s.ahead i k)

/-- **The loop** is a scan of the ring with second chances. -/
theorem pickLoop_eq (hne : s.frameList ≠ []) {fuel it : ℕ}
    (h : (s.setHand hand).handIndex = some ((i + it) % (s.frameList.length + 1))) :
    pickLoop beyond fuel it (s.setHand hand) accessed =
      match secondChance (s.pinnedAhead beyond i) (s.upageAhead beyond i) fuel it accessed with
      | (none, _) => .panic .cantEvict
      | (some k, bits) => .ok (s.ahead i k, bits, s.setHand (toHand (s.ahead i k))) := by
  induction fuel generalizing it hand accessed with
  | zero => rfl
  | succ fuel ih =>
    have hahead : (s.setHand hand).ahead ((i + it) % (s.frameList.length + 1)) 0 =
        s.ahead i it := by
      have hmod : ((i + it) % (s.frameList.length + 1) + 1) % (s.frameList.length + 1) =
          (i + 1 + it) % (s.frameList.length + 1) := by
        rw [Nat.mod_add_mod]
        congr 1
        omega
      rw [ahead, Nat.add_zero]
      exact congrArg (s.frameList[·]?) hmod
    have hnext : (s.setHand (toHand (s.ahead i it))).handIndex =
        some ((i + (it + 1)) % (s.frameList.length + 1)) := by
      have hle : (i + 1 + it) % (s.frameList.length + 1) ≤ s.frameList.length :=
        Nat.le_of_lt_succ (Nat.mod_lt _ (Nat.succ_pos _))
      rw [ahead, handIndex_setHand_toHand s hle]
      congr 2
      omega
    have hrun : (s.setHand hand).clockFrameNext =
        .ok (s.ahead i it, s.setHand (toHand (s.ahead i it))) := by
      rw [clockFrameNext_spec (s := s.setHand hand) hne h, hahead]
      rfl
    rw [pickLoop, hrun, ok_bind, secondChance]
    dsimp only
    have hpinned : (s.setHand (toHand (s.ahead i it))).pinnedAt (beyond it) (s.ahead i it) =
        s.pinnedAhead beyond i it := rfl
    have hupage : (s.setHand (toHand (s.ahead i it))).upageAt (beyond it) (s.ahead i it) =
        s.upageAhead beyond i it := rfl
    rw [hpinned, hupage]
    by_cases hp : s.pinnedAhead beyond i it = true
    · rw [if_pos hp, if_pos hp]
      exact ih hnext
    · rw [if_neg hp, if_neg hp]
      by_cases ha : accessed (s.upageAhead beyond i it) = true
      · rw [if_pos ha, if_pos ha]
        exact ih hnext
      · rw [if_neg ha, if_neg ha]
        rfl

/-! ### Finding a frame -/

/-- **A frame to evict is found**: one that is in the table and not pinned. -/
def Finds (s : ClockTable) (accessed : ℕ → Bool) (beyond : ℕ → Beyond) : Prop :=
  ∃ f bits s', s.pickFrameToEvict accessed beyond = .ok (some f, bits, s') ∧
    f ∈ s.frameList ∧ (s.frames f).pinned = false

/-- **The hand is in the ring**, and the first position ahead of it that is accepted is a frame and
comes in time. -/
def FrameFirst (s : ClockTable) (accessed : ℕ → Bool) (beyond : ℕ → Beyond) : Prop :=
  ∃ i, s.handIndex = some i ∧ ∃ k ≤ 2 * s.frameList.length, ∃ f, s.ahead i k = some f ∧
    Accepts (s.pinnedAhead beyond i) (s.upageAhead beyond i) accessed k ∧
    ∀ j < k, ¬Accepts (s.pinnedAhead beyond i) (s.upageAhead beyond i) accessed j

theorem pickFrameToEvict_eq (accessed : ℕ → Bool) (beyond : ℕ → Beyond) (hne : s.frameList ≠ [])
    (h : s.handIndex = some i) : s.pickFrameToEvict accessed beyond =
      match secondChance (s.pinnedAhead beyond i) (s.upageAhead beyond i)
        (s.frameList.length + s.frameList.length + 1) 0 accessed with
      | (none, _) => .panic .cantEvict
      | (some k, bits) => .ok (s.ahead i k, bits, s.setHand (toHand (s.ahead i k))) := by
  have hle := handIndex_le h
  have hlength : s.frameList.length ≠ 0 := fun hzero => hne (eq_nil_of_length_eq_zero hzero)
  rw [pickFrameToEvict, ensure_of_true hlength, ok_bind]
  have hstart : (s.setHand s.clockPtr).handIndex =
      some ((i + 0) % (s.frameList.length + 1)) := by
    rw [Nat.add_zero, Nat.mod_eq_of_lt (by omega)]
    exact h
  exact pickLoop_eq hne hstart

theorem Finds.frameFirst (h : s.Finds accessed beyond) : s.FrameFirst accessed beyond := by
  obtain ⟨f, bits, s', hrun, hf, -⟩ := h
  have hne : s.frameList ≠ [] := ne_nil_of_mem hf
  cases hindex : s.handIndex with
  | none =>
    have hlength : s.frameList.length ≠ 0 :=
      fun hzero => hne (eq_nil_of_length_eq_zero hzero)
    rw [pickFrameToEvict, ensure_of_true hlength, ok_bind, pickLoop,
      clockFrameNext_freed hne hindex] at hrun
    cases hrun
  | some i =>
    rw [pickFrameToEvict_eq accessed beyond hne hindex] at hrun
    split at hrun
    · cases hrun
    · rename_i k bits' hscan
      obtain ⟨hk, haccepts, hfirst⟩ := secondChance_eq_some.mp (congrArg Prod.fst hscan)
      refine ⟨i, hindex, k, by omega, f, ?_, haccepts, hfirst⟩
      rw [ok.injEq, Prod.mk.injEq] at hrun
      exact hrun.1

theorem FrameFirst.finds (h : s.FrameFirst accessed beyond) : s.Finds accessed beyond := by
  obtain ⟨i, hindex, k, hk, f, hf, haccepts, hfirst⟩ := h
  have hmem : f ∈ s.frameList := mem_of_getElem? hf
  have hscan : (secondChance (s.pinnedAhead beyond i) (s.upageAhead beyond i)
      (s.frameList.length + s.frameList.length + 1) 0 accessed).1 = some k :=
    secondChance_eq_some.mpr ⟨by omega, haccepts, hfirst⟩
  have hpinned : (s.frames f).pinned = false := by
    have h := haccepts.1
    rw [pinnedAhead, hf] at h
    exact h
  have hrun := pickFrameToEvict_eq accessed beyond (ne_nil_of_mem hmem) hindex
  generalize secondChance (s.pinnedAhead beyond i) (s.upageAhead beyond i)
    (s.frameList.length + s.frameList.length + 1) 0 accessed = scan at hscan hrun
  obtain ⟨found, bits⟩ := scan
  obtain rfl : found = some k := hscan
  dsimp only at hrun
  rw [hf] at hrun
  exact ⟨f, bits, _, hrun, hmem, hpinned⟩

/-- A frame of the table is ahead of the hand, twice if the hand is not at it. -/
theorem exists_ahead {f : ℕ} (hi : i ≤ s.frameList.length) (hf : f ∈ s.frameList) :
    ∃ k ≤ s.frameList.length, s.ahead i k = some f ∧
      s.ahead i (k + (s.frameList.length + 1)) = some f ∧
      (s.frameList.idxOf f ≠ i → k < s.frameList.length) := by
  have hlt := idxOf_lt_length_of_mem hf
  have hget : s.frameList[s.frameList.idxOf f]? = some f := getElem?_idxOf hf
  have hindex : ∀ k, (i + 1 + k) % (s.frameList.length + 1) = s.frameList.idxOf f →
      s.ahead i k = some f := fun k hk => by rw [ahead, hk, hget]
  have hmod : ∀ k, (i + 1 + (k + (s.frameList.length + 1))) % (s.frameList.length + 1) =
      (i + 1 + k) % (s.frameList.length + 1) := fun k => by
    rw [← Nat.add_assoc, Nat.add_mod_right]
  rcases Nat.lt_or_ge i (s.frameList.idxOf f) with hlt' | hge
  · have hk : (i + 1 + (s.frameList.idxOf f - i - 1)) % (s.frameList.length + 1) =
        s.frameList.idxOf f := by
      rw [Nat.mod_eq_of_lt (by omega)]
      omega
    exact ⟨s.frameList.idxOf f - i - 1, by omega, hindex _ hk, hindex _ ((hmod _).trans hk),
      fun _ => by omega⟩
  · have hk : (i + 1 + (s.frameList.idxOf f + s.frameList.length - i)) %
        (s.frameList.length + 1) = s.frameList.idxOf f := by
      have hsum : i + 1 + (s.frameList.idxOf f + s.frameList.length - i) =
          s.frameList.idxOf f + (s.frameList.length + 1) := by omega
      rw [hsum, Nat.add_mod_right, Nat.mod_eq_of_lt (by omega)]
    exact ⟨s.frameList.idxOf f + s.frameList.length - i, by omega, hindex _ hk,
      hindex _ ((hmod _).trans hk), fun _ => by omega⟩

/-- The hand is at no other frame than its own. -/
theorem idxOf_ne_handIndex {f : ℕ} (h : s.handIndex = some i) (hf : f ∈ s.frameList)
    (hne : s.clockPtr ≠ .elem f) : s.frameList.idxOf f ≠ i := by
  have hlt := idxOf_lt_length_of_mem hf
  rw [handIndex] at h
  split at h
  · cases h
    omega
  · cases h
    omega
  · rename_i g helem
    split at h
    · cases h
      intro heq
      rw [helem, (idxOf_inj hf).mp heq] at hne
      exact hne rfl
    · cases h

/-- The hand comes to its own frame after a whole turn only. -/
theorem dvd_of_ahead_eq {f j : ℕ} (hi : i < s.frameList.length) (hf : s.frameList[i]? = some f)
    (hj : s.ahead i j = some f) : s.frameList.length + 1 ∣ j + 1 := by
  have hlt : (i + 1 + j) % (s.frameList.length + 1) < s.frameList.length := by
    by_contra hge
    rw [ahead, getElem?_eq_none (by omega)] at hj
    cases hj
  have heq : (i + 1 + j) % (s.frameList.length + 1) = i := by
    rw [ahead, ← hf] at hj
    exact (getElem?_inj hlt s.nodup_frameList).mp hj
  have hmod : i + (j + 1) ≡ i + 0 [MOD s.frameList.length + 1] := by
    have hsum : i + (j + 1) = i + 1 + j := by omega
    rw [Nat.ModEq, hsum, heq, Nat.add_zero, Nat.mod_eq_of_lt (Nat.lt_succ_of_lt hi)]
  exact Nat.modEq_zero_iff_dvd.mp (Nat.ModEq.add_left_cancel' i hmod)

/-- **If what is behind the tail reads as pinned**, a frame is found if and only if the hand is in
the ring and some frame that is not pinned is not the hand's own or is not accessed: the hand comes
to its own frame only once. -/
theorem finds_iff_of_pinned (hbeyond : ∀ k, (beyond k).pinned = true) :
    s.Finds accessed beyond ↔ s.handIndex.isSome = true ∧
      ∃ f ∈ s.frameList, (s.frames f).pinned = false ∧
        (s.clockPtr = .elem f → accessed (s.frames f).upage = false) := by
  have hframe : ∀ {i j}, s.pinnedAhead beyond i j = false → ∃ f, s.ahead i j = some f := by
    intro i j hj
    rw [pinnedAhead] at hj
    cases hahead : s.ahead i j with
    | none =>
      rw [hahead, pinnedAt, hbeyond] at hj
      cases hj
    | some f => exact ⟨f, rfl⟩
  have hunpinned : ∀ {i j f}, s.ahead i j = some f →
      s.pinnedAhead beyond i j = (s.frames f).pinned ∧
        s.upageAhead beyond i j = (s.frames f).upage := by
    intro i j f hf
    rw [pinnedAhead, upageAhead, hf]
    exact ⟨rfl, rfl⟩
  constructor
  · intro hfinds
    obtain ⟨i, hindex, k, hk, f, hf, ⟨hpin, hpassed⟩, -⟩ := hfinds.frameFirst
    refine ⟨by rw [hindex]; rfl, ?_⟩
    rw [(hunpinned hf).1] at hpin
    rw [(hunpinned hf).2] at hpassed
    have hmem : f ∈ s.frameList := mem_of_getElem? hf
    by_cases hhand : s.clockPtr = .elem f ∧ accessed (s.frames f).upage = true
    · obtain ⟨j, hjk, hjpin, -⟩ := hpassed hhand.2
      obtain ⟨g, hg⟩ := hframe hjpin
      rw [(hunpinned hg).1] at hjpin
      refine ⟨g, mem_of_getElem? hg, hjpin, fun hown => ?_⟩
      -- then the hand has come to its own frame twice
      obtain rfl : f = g := Hand.elem.inj (hhand.1.symm.trans hown)
      have hi : i = s.frameList.idxOf f := by
        rw [handIndex, hhand.1] at hindex
        dsimp only at hindex
        rw [if_pos hmem] at hindex
        exact (Option.some.inj hindex).symm
      have hlt := idxOf_lt_length_of_mem hmem
      have hget : s.frameList[i]? = some f := by
        rw [hi]
        exact getElem?_idxOf hmem
      obtain ⟨a, ha⟩ := dvd_of_ahead_eq (by omega) hget hg
      obtain ⟨b, hb⟩ := dvd_of_ahead_eq (by omega) hget hf
      have hapos : 0 < a := Nat.pos_of_ne_zero fun hzero => by
        rw [hzero] at ha
        omega
      have hab : a < b := Nat.lt_of_mul_lt_mul_left (a := s.frameList.length + 1) (by omega)
      have htwo : (s.frameList.length + 1) * 2 ≤ (s.frameList.length + 1) * b :=
        Nat.mul_le_mul_left _ (by omega)
      omega
    · refine ⟨f, hmem, hpin, fun hown => ?_⟩
      rw [← Bool.not_eq_true]
      exact fun hacc => hhand ⟨hown, hacc⟩
  · rintro ⟨hsome, f, hf, hpin, hown⟩
    obtain ⟨i, hindex⟩ := Option.isSome_iff_exists.mp hsome
    obtain ⟨k, hk, hfirst, hsecond, hlt⟩ := exists_ahead (handIndex_le hindex) hf
    have haccepts : ∃ m ≤ 2 * s.frameList.length,
        Accepts (s.pinnedAhead beyond i) (s.upageAhead beyond i) accessed m := by
      by_cases hacc : accessed (s.frames f).upage = true
      · have hne := idxOf_ne_handIndex hindex hf fun hhand => by
          rw [hown hhand] at hacc
          cases hacc
        refine ⟨k + (s.frameList.length + 1), by omega, by rw [(hunpinned hsecond).1, hpin],
          fun _ => ⟨k, by omega, by rw [(hunpinned hfirst).1, hpin], ?_⟩⟩
        rw [(hunpinned hfirst).2, (hunpinned hsecond).2]
      · refine ⟨k, by omega, by rw [(hunpinned hfirst).1, hpin], fun hacc' => ?_⟩
        rw [(hunpinned hfirst).2] at hacc'
        exact absurd hacc' hacc
    obtain ⟨m, hm, hm'⟩ := haccepts
    obtain ⟨m', hle, hacc, hbefore⟩ := exists_first_accepts hm'
    obtain ⟨g, hg⟩ := hframe hacc.1
    exact FrameFirst.finds ⟨i, hindex, m', by omega, g, hg, hacc, hbefore⟩

end ClockTable

/-- **The clock finds a frame to evict** if and only if the hand is in the ring and the first
position ahead of it that is not pinned and whose page is not accessed, or was passed before, is a
frame and comes within `2 * n + 1` steps. This is so in every frame table, and so after every
sequence of calls; for every pattern of accessed bits, and whatever is behind the tail. -/
theorem clock_finds_iff (s : ClockTable) (accessed : ℕ → Bool) (beyond : ℕ → Beyond) :
    s.Finds accessed beyond ↔ s.FrameFirst accessed beyond :=
  ⟨ClockTable.Finds.frameFirst, ClockTable.FrameFirst.finds⟩

/-- Two frames are allocated and one is unpinned; it is evicted for a third, for which `malloc`
returns its record again, so that the hand is at the third, which then is unpinned. -/
def evictOnce : List FrameOp :=
  [.allocate (some 0) 10 1 100 (fun _ => false) fun _ => ⟨true, 0⟩,
    .allocate (some 1) 12 1 200 (fun _ => false) fun _ => ⟨true, 0⟩, .setPinned 0 false,
    .allocate none 11 1 100 (fun _ => false) fun _ => ⟨true, 0⟩, .setPinned 0 false]

theorem exec_evictOnce : ∃ s, exec ClockTable.step ClockTable.init evictOnce = .ok s ∧
    s.frameList = [200, 100] ∧ s.clockPtr = .elem 100 ∧ s.frames 200 = ⟨1, 12, 1, true⟩ ∧
      s.frames 100 = ⟨0, 11, 1, false⟩ := ⟨_, rfl, rfl, rfl, rfl, rfl⟩

/-- After an eviction, the only frame that is not pinned is accessed. The hand comes to it once, and
so it is not found, even if what is behind the tail is passed over. -/
theorem not_finds_after_eviction : ∃ s,
    Run ClockTable.step (fun _ _ => True) ClockTable.init evictOnce s ∧
      (∃ f ∈ s.frameList, (s.frames f).pinned = false) ∧
      ∃ accessed, ∀ beyond, (∀ k, (beyond k).pinned = true) → ¬s.Finds accessed beyond := by
  obtain ⟨s, hrun, hlist, hhand, hpinned, hframe⟩ := exec_evictOnce
  refine ⟨s, Run.of_exec hrun, ⟨100, ?_, ?_⟩, fun _ => true, fun beyond hbeyond hfinds => ?_⟩
  · rw [hlist]
    decide
  · rw [hframe]
  · obtain ⟨-, f, hf, hpin, hown⟩ := (ClockTable.finds_iff_of_pinned hbeyond).mp hfinds
    rw [hlist, mem_cons, mem_singleton] at hf
    rcases hf with rfl | rfl
    · rw [hpinned] at hpin
      cases hpin
    · exact absurd (hown hhand) (by decide)

end Pintos
