import Pintos.FilesysSafety

/-!
# The Free Map Survives a Reboot

The free map is a file in the space that it describes. Every change of it is written to that
file at once, so if no memory is refused the file is up to date after every call. When the
file system is mounted again the file is read, and the free map is the one that was in memory.

The bits are stored in words, and the words in sectors. What follows the last bit in the last
word is whatever was in memory; it is written with the rest, and masked when it is read.

## Main results

* `Fs.filesysMount_spec`: mounting a device reads the free map that is stored on it.
* `freeMap_persistent`: in every state that is reached the free map is stored, and found again.
-/

namespace Pintos

open Verif

namespace Fs

variable {s s' : Fs} {r : Bool}

/-- A bit of the free map's file. -/
theorem savedMap_apply (helements : Bitmap.byteCnt s.device.size ≠ 0) {k : ℕ}
    (hk : k < s.device.size) :
    s.savedMap k =
      (cell s.device.disk (s.onDisk freeMapSector).start (k / 8)).toNat.testBit (k % 8) := by
  have hbyte : k / 8 < Bitmap.byteCnt s.device.size := by
    have hlt := s.device.size_lt
    rw [Bitmap.byteCnt] at helements ⊢
    omega
  rw [savedMap, Bitmap.ofBytes, decide_eq_true hk, Bool.true_and, List.getD_eq_getElem?_getD,
    getElem?_slice hbyte, Option.getD_some, Nat.zero_add]

/-- **Mounting a device** reads the free map that is stored on it. If no memory is refused,
no assertion fails. -/
theorem filesysMount_spec (h : s.Inv []) (hsaved : s.MapSaved) (junk : ℕ → Bool) :
    (filesysMount s.device junk).Spec false (fun _ => False) fun s' =>
      s'.device = s.device ∧ ∀ k < s.device.size, s'.freeMap k = s.freeMap k := by
  obtain ⟨hsize, hwithin⟩ := h.space.within _ s.live_freeMap
  rw [filesysMount]
  refine (freeMapInit_spec s.device junk fun hno => ?_).bind fun s₀ hs₀ => ?_
  · exact hno.elim (fun hr => Bool.false_ne_true hr) hsaved.elements
  obtain ⟨hblank, hdev⟩ := hs₀
  have hnode := onDisk_of_device hdev freeMapSector
  refine (hblank.toUnmounted.freeMapOpen ?_ ?_ fun hno => ?_).mono fun s' hs' => ?_
  · rw [hdev]
    exact lt_of_le_of_lt (Nat.zero_le _) hsize
  · rw [hnode, hdev]
    exact hwithin
  · rw [hnode, hdev, h.format.1] at hno
    exact hno.elim (fun hr => Bool.false_ne_true hr) (lt_irrefl _)
  · obtain ⟨s₁, -, -, -, hdev₁, -, rfl⟩ := hs'
    refine ⟨hdev₁.trans hdev, fun k hk => ?_⟩
    show s₀.savedMap k = _
    rw [savedMap, hnode, hdev]
    exact hsaved.bits k hk

/-- **The free map's file is up to date** after every call that is refused no memory. -/
theorem MapSaved.step (h : s.Inv []) (hsaved : s.MapSaved) {c : FsCall} (hc : c.answers = [])
    (hstep : s.step c = .ok s') : s'.Inv [] ∧ s'.MapSaved := by
  obtain ⟨hopen, rest, hperform⟩ := step_eq_ok hstep
  rw [hc] at hperform
  have hspec : (s.perform c.op).Spec false c.op.Faults _ := h.perform hopen
  have hdone := hspec [] fun _ => rfl
  rw [hperform] at hdone
  obtain ⟨-, hinv, -, hsaves⟩ := hdone
  exact ⟨hinv, hsaves rfl hsaved⟩

end Fs

/-- **The free map persists.** After formatting a device of any size, exactly the sectors of
the two inodes, of the free map's file and of the root directory are marked. If no memory is
refused, in every state that is reached from there the free map's file has the length of the
free map, and the bits that are stored in it are those of the free map; if the file system is
mounted from the same device, whatever was in memory, it has the same free map. -/
theorem freeMap_persistent {device : Device} {junk : ℕ → Bool} {s₀ : Fs} {rest : List Bool}
    (hinit : Fs.filesysInit device junk [] = .ok (s₀, rest)) :
    (∀ k < s₀.device.size, s₀.freeMap k = true ↔ k = freeMapSector ∨ k = rootDirSector ∨
      (s₀.onDisk freeMapSector).Covers k ∨ (s₀.onDisk rootDirSector).Covers k) ∧
    ∀ s, Reachable Fs.step (fun _ c => c.answers = []) s₀ s →
      (s.onDisk freeMapSector).length = Bitmap.byteCnt s.device.size ∧
      (∀ k < s.device.size,
        (cell s.device.disk (s.onDisk freeMapSector).start (k / 8)).toNat.testBit (k % 8) =
          s.freeMap k) ∧
      ∀ junk', ∃ s', Fs.filesysMount s.device junk' [] = .ok (s', []) ∧ s'.device = s.device ∧
        ∀ k < s.device.size, s'.freeMap k = s.freeMap k := by
  have hformatted : s₀.Formatted := (Fs.filesysInit_spec device junk).of_eq_ok hinit
  have hmarked := hformatted.inv.space.marked
  refine ⟨fun k hk => ⟨hformatted.only k hk, ?_⟩, fun s hreach => ?_⟩
  · rintro (hk | hk | hk | hk)
    · exact hmarked _ k s₀.live_freeMap (.inl hk)
    · exact hmarked _ k s₀.live_rootDir (.inl hk)
    · exact hmarked _ k s₀.live_freeMap (.inr hk)
    · exact hmarked _ k s₀.live_rootDir (.inr hk)
  · have hall : s.Inv [] ∧ s.MapSaved := by
      refine hreach.invariant (I := fun s => s.Inv [] ∧ s.MapSaved)
        ⟨hformatted.inv, hformatted.saved⟩ fun s c s' hs hc hstep => ?_
      exact hs.2.step hs.1 hc hstep
    obtain ⟨hinv, hsaved⟩ := hall
    refine ⟨hinv.format.1, fun k hk => ?_, fun junk' => ?_⟩
    · rw [← hsaved.bits k hk, Fs.savedMap_apply hsaved.elements hk]
    · exact OracleM.Spec.run (Fs.filesysMount_spec hinv hsaved junk')

/-- The file `a` was created, so the sectors 4 to 6 are marked on the device. -/
theorem freeMap_persistent_created : ∃ s s' : Fs, (∀ k < 7, s.freeMap k = true) ∧
    Fs.filesysMount s.device (fun _ => true) [] = .ok (s', []) ∧
    ∀ k < s.device.size, s'.freeMap k = s.freeMap k := by
  have htest : (sampleRun [.create (sampleName 97 (by decide)) 600 (fun _ => 0)]).test (fun s =>
      (List.range 7).all s.freeMap) = true := by
    decide +kernel
  obtain ⟨s, hrun, hs⟩ := Outcome.of_test htest
  obtain ⟨v, hinit, hexec⟩ := Outcome.bind_eq_ok.mp hrun
  have hreach : Reachable Fs.step (fun _ c => c.answers = []) v.1 s := by
    obtain ⟨s', hstep, hend⟩ := Outcome.bind_eq_ok.mp hexec
    obtain rfl := Outcome.ok.inj hend
    exact ⟨_, .snoc .nil rfl hstep⟩
  obtain ⟨s', hmount, -, hback⟩ := ((freeMap_persistent hinit).2 s hreach).2.2 fun _ => true
  exact ⟨s, s', fun k hk => List.all_eq_true.mp hs k (List.mem_range.mpr hk), hmount, hback⟩

end Pintos
