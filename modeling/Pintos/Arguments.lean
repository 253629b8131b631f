import Pintos.ByteImage
import Pintos.Filesys
import Pintos.Vm

/-!
# The Arguments on the User's Stack

`push_argument` lays out the arguments of a program on its stack page, below `PHYS_BASE`: the
strings, the first one lowest; padding up to a multiple of four; a null pointer, which is skipped
rather than written; the addresses of the strings; the address of the first of these, and the
number of arguments; and room for a return address. The image is the list of all these bytes,
and the program finds the arguments in it by the calling convention.

## Main results

* `pushStrings_spec`, `pushWords_spec`: what the two loops put in memory.
* `pushArgument_spec`: the image that is in memory in the end.
* `pushArgument_roundTrip`: the program finds the arguments that were pushed.
-/

namespace Pintos

open Verif Outcome List

/-- What goes wrong while a command line is handled. -/
inductive ArgPanic where
  /-- A write outside the array `fname`. -/
  | fname
  /-- A write outside the array that `argv` points to. -/
  | argv
  /-- `ASSERT (src != NULL)`, in `strlcpy` to the thread's name. -/
  | name
  /-- A write outside the stack page. -/
  | stack
  deriving DecidableEq, Repr

/-- Computations of the functions that handle a command line. -/
abbrev ArgM := Outcome ArgPanic

/-- The user's memory, and what `esp` points to. -/
structure UserStack where
  memory : ℕ → UInt8
  esp : ℕ

/-- The bytes of a 32-bit number. -/
def wordBytes (n : ℕ) : List UInt8 := [byteOf n 0, byteOf n 1, byteOf n 2, byteOf n 3]

/-- The 32-bit number at an address. -/
def wordAt (m : ℕ → UInt8) (a : ℕ) : ℕ := word fun k => m (a + k)

namespace UserStack

/-- `*esp -= n`. -/
def sub (s : UserStack) (n : ℕ) : UserStack :=
  { s with esp := (s.esp + wordRange - n % wordRange) % wordRange }

/-- `*esp` goes down by the number of bytes, and they are stored there. -/
def push (s : UserStack) (bytes : List UInt8) : ArgM UserStack := do
  let s := s.sub bytes.length
  let memory ← storeBytes (physBase - pgSize) physBase .stack s.memory s.esp bytes
  return { s with memory := memory }

/-- The loop that pushes the strings, the last one first: their addresses, and `word_length`. -/
def pushStrings (s : UserStack) : List CString → ArgM (UserStack × List ℕ × ℕ)
  | [] => return (s, [], 0)
  | arg :: args => do
    let (s, addrs, wordLength) ← s.pushStrings args
    let s ← s.push (arg.1 ++ [0])
    return (s, s.esp :: addrs, wordLength + (arg.1.length + 1))

/-- The loop that pushes the addresses, the last one first. -/
def pushWords (s : UserStack) : List ℕ → ArgM UserStack
  | [] => return s
  | w :: ws => do
    let s ← s.pushWords ws
    s.push (wordBytes w)

/-- `push_argument`. -/
def pushArgument (s : UserStack) (argv : List CString) : ArgM UserStack := do
  let (s, addrs, wordLength) ← s.pushStrings argv
  let align := 4 - wordLength % 4
  -- the padding and the null pointer are skipped
  let s := s.sub (align + 4)
  let s ← s.pushWords addrs
  let argvPAddr := s.esp
  let s ← s.push (wordBytes argvPAddr)
  let s ← s.push (wordBytes argv.length)
  return s.sub 4

end UserStack

/-- **The calling convention**: the number of arguments is above the return address, and above
it the address of the array of their addresses, which a null pointer ends. -/
def decodeArgs (s : UserStack) : Option (List (List UInt8)) :=
  let argc := wordAt s.memory (s.esp + 4)
  let argv := wordAt s.memory (s.esp + 8)
  if wordAt s.memory (argv + 4 * argc) = 0 then
    some ((range argc).map fun i => readString s.memory pgSize (wordAt s.memory (argv + 4 * i)))
  else
    none

/-- A part of memory: where it begins, and how many bytes it has. -/
abbrev Region := ℕ × ℕ

/-- A part of memory ends before the other one begins. -/
def Region.Before (r r' : Region) : Prop := r.1 + r.2 ≤ r'.1

/-- The string at an address, with its terminator. -/
def stringRegion (m : ℕ → UInt8) (a : ℕ) : Region := (a, (readString m pgSize a).length + 1)

/-- What a program finds by the calling convention: the words, those of the array with its null
pointer, and the strings. -/
def pushedRegions (s : UserStack) : List Region :=
  let argc := wordAt s.memory (s.esp + 4)
  let argv := wordAt s.memory (s.esp + 8)
  (s.esp + 4, 4) :: (s.esp + 8, 4) :: ((range (argc + 1)).map (fun i => (argv + 4 * i, 4)) ++
    (range argc).map fun i => stringRegion s.memory (wordAt s.memory (argv + 4 * i)))

/-! ### The image -/

/-- The strings with their terminators, one after the other. -/
def stringBytes (args : List CString) : List UInt8 := args.flatMap fun arg => arg.1 ++ [0]

/-- The addresses of strings that follow one another from `a` on. -/
def stringAddrs (a : ℕ) : List CString → List ℕ
  | [] => []
  | arg :: args => a :: stringAddrs (a + (arg.1.length + 1)) args

/-- How many bytes of padding there are. -/
def padding (args : List CString) : ℕ := 4 - (stringBytes args).length % 4

/-- How many bytes are pushed, from the top of the stack page down to the number of arguments. -/
def imageSize (args : List CString) : ℕ :=
  (stringBytes args).length + padding args + 4 + 4 * args.length + 8

/-- Where the strings begin, those of the addresses in the array, and where that begins. -/
def stringBase (args : List CString) : ℕ := physBase - (stringBytes args).length

/-- Where the array of addresses begins. -/
def argvBase (args : List CString) : ℕ :=
  stringBase args - (padding args + 4) - 4 * args.length

/-- What is in memory from the number of arguments on: that number, the address of the array,
the array with its null pointer, the padding, and the strings. -/
def image (args : List CString) : List UInt8 :=
  wordBytes args.length ++ (wordBytes (argvBase args) ++
    ((stringAddrs (stringBase args) args).flatMap wordBytes ++
      (replicate (4 + padding args) 0 ++ stringBytes args)))

variable {args : List CString} {s : UserStack} {m m' : ℕ → UInt8} {a : ℕ}

theorem stringBytes_cons (arg : CString) (args : List CString) :
    stringBytes (arg :: args) = (arg.1 ++ [0]) ++ stringBytes args :=
  flatMap_cons

theorem length_stringBytes_cons (arg : CString) (args : List CString) :
    (stringBytes (arg :: args)).length = (arg.1.length + 1) + (stringBytes args).length := by
  rw [stringBytes_cons, length_append, length_append, length_singleton]

theorem length_stringAddrs (a : ℕ) (args : List CString) :
    (stringAddrs a args).length = args.length := by
  induction args generalizing a with
  | nil => rfl
  | cons arg args ih => rw [stringAddrs, length_cons, length_cons, ih]

/-- The strings lie below their end. -/
theorem lt_of_mem_stringAddrs {x : ℕ} (h : x ∈ stringAddrs a args) :
    a ≤ x ∧ x < a + (stringBytes args).length := by
  induction args generalizing a with
  | nil => cases h
  | cons arg args ih =>
    rw [length_stringBytes_cons]
    rcases mem_cons.mp h with rfl | h
    · omega
    · have := ih h
      omega

@[simp] theorem length_wordBytes (n : ℕ) : (wordBytes n).length = 4 := rfl

theorem length_flatMap_wordBytes (ws : List ℕ) : (ws.flatMap wordBytes).length = 4 * ws.length := by
  induction ws with
  | nil => rfl
  | cons w ws ih => rw [flatMap_cons, length_append, ih, length_wordBytes,
      length_cons, Nat.mul_succ, Nat.add_comm]

/-! ### Pushing -/

namespace UserStack

theorem memory_sub (s : UserStack) (n : ℕ) : (s.sub n).memory = s.memory := by
  rw [sub]

theorem sub_of_le {n : ℕ} (hn : n ≤ s.esp) (hesp : s.esp ≤ physBase) :
    s.sub n = { s with esp := s.esp - n } := by
  rw [sub]
  simp only [physBase] at hesp
  simp only [wordRange]
  congr 1
  omega

/-- Bytes are pushed within the stack page. -/
theorem push_spec (bytes : List UInt8) (hesp : s.esp ≤ physBase)
    (hfits : physBase - pgSize + bytes.length ≤ s.esp) :
    ∃ s', s.push bytes = .ok s' ∧ s'.esp = s.esp - bytes.length ∧
      Holds s'.memory (s.esp - bytes.length) bytes ∧
      ∀ i, i < s.esp - bytes.length ∨ s.esp ≤ i → s'.memory i = s.memory i := by
  have hle : bytes.length ≤ s.esp := by omega
  have hlo : physBase - pgSize ≤ s.esp - bytes.length := by omega
  have hhi : s.esp - bytes.length + bytes.length ≤ physBase := by omega
  obtain ⟨m', hrun, hholds, hrest⟩ := storeBytes_spec ArgPanic.stack s.memory hlo hhi
  refine ⟨⟨m', s.esp - bytes.length⟩, ?_, rfl, hholds, fun i hi => hrest i (by omega)⟩
  rw [push, sub_of_le hle hesp]
  rw [hrun]
  rfl

/-- **The strings in memory.** -/
theorem pushStrings_spec (args : List CString) (hesp : s.esp ≤ physBase)
    (hfits : physBase - pgSize + (stringBytes args).length ≤ s.esp) :
    ∃ s', s.pushStrings args = .ok (s', stringAddrs (s.esp - (stringBytes args).length) args,
        (stringBytes args).length) ∧
      s'.esp = s.esp - (stringBytes args).length ∧
      Holds s'.memory (s.esp - (stringBytes args).length) (stringBytes args) ∧
      ∀ i, i < s.esp - (stringBytes args).length ∨ s.esp ≤ i → s'.memory i = s.memory i := by
  induction args with
  | nil => exact ⟨s, rfl, rfl, holds_nil, fun _ _ => rfl⟩
  | cons arg args ih =>
    rw [length_stringBytes_cons] at hfits
    obtain ⟨s₁, hrun₁, hesp₁, hholds₁, hrest₁⟩ := ih (by omega)
    have hlength : (arg.1 ++ [0]).length = arg.1.length + 1 := length_append
    obtain ⟨s₂, hrun₂, hesp₂, hholds₂, hrest₂⟩ :=
      push_spec (s := s₁) (arg.1 ++ [0]) (by omega) (by omega)
    rw [hesp₁, hlength] at hesp₂ hholds₂ hrest₂
    have hbase : s.esp - (stringBytes args).length - (arg.1.length + 1) =
        s.esp - (stringBytes (arg :: args)).length := by
      rw [length_stringBytes_cons]
      omega
    have hnext : s.esp - (stringBytes (arg :: args)).length + (arg.1.length + 1) =
        s.esp - (stringBytes args).length := by
      rw [length_stringBytes_cons]
      omega
    rw [hbase] at hesp₂ hholds₂ hrest₂
    refine ⟨s₂, ?_, hesp₂, ?_, fun i hi => ?_⟩
    · rw [pushStrings, hrun₁, ok_bind]
      dsimp only
      rw [hrun₂, ok_bind, hesp₂, stringAddrs, hnext, length_stringBytes_cons,
        Nat.add_comm (arg.1.length + 1)]
      rfl
    · rw [stringBytes_cons, holds_append, hlength, ← stringBytes_cons, hnext]
      refine ⟨hholds₂, hholds₁.congr fun i h₁ h₂ => hrest₂ i (.inr h₁)⟩
    · rw [length_stringBytes_cons] at hi hbase
      rw [hrest₂ i (by omega), hrest₁ i (by omega)]

/-- **The addresses in memory.** -/
theorem pushWords_spec (ws : List ℕ) (hesp : s.esp ≤ physBase)
    (hfits : physBase - pgSize + 4 * ws.length ≤ s.esp) :
    ∃ s', s.pushWords ws = .ok s' ∧ s'.esp = s.esp - 4 * ws.length ∧
      Holds s'.memory (s.esp - 4 * ws.length) (ws.flatMap wordBytes) ∧
      ∀ i, i < s.esp - 4 * ws.length ∨ s.esp ≤ i → s'.memory i = s.memory i := by
  induction ws with
  | nil => exact ⟨s, rfl, rfl, holds_nil, fun _ _ => rfl⟩
  | cons w ws ih =>
    rw [length_cons] at hfits
    obtain ⟨s₁, hrun₁, hesp₁, hholds₁, hrest₁⟩ := ih (by omega)
    obtain ⟨s₂, hrun₂, hesp₂, hholds₂, hrest₂⟩ :=
      push_spec (s := s₁) (wordBytes w) (by omega) (by rw [length_wordBytes]; omega)
    rw [hesp₁, length_wordBytes] at hesp₂ hholds₂ hrest₂
    have hbase : s.esp - 4 * ws.length - 4 = s.esp - 4 * (w :: ws).length := by
      rw [length_cons]
      omega
    have hnext : s.esp - 4 * (w :: ws).length + 4 = s.esp - 4 * ws.length := by
      rw [length_cons]
      omega
    rw [hbase] at hesp₂ hholds₂ hrest₂
    refine ⟨s₂, ?_, hesp₂, ?_, fun i hi => ?_⟩
    · rw [pushWords, hrun₁, ok_bind, hrun₂]
    · rw [flatMap_cons, holds_append, length_wordBytes, hnext]
      exact ⟨hholds₂, hholds₁.congr fun i h₁ h₂ => hrest₂ i (.inr h₁)⟩
    · rw [length_cons] at hi
      rw [hrest₂ i (by rw [length_cons]; omega), hrest₁ i (by omega)]

/-- **The image in memory**: the writes stay in the page, and if it was zeroed before then the
image is there, from the number of arguments up to the top of the page. -/
theorem pushArgument_spec (m : ℕ → UInt8) (hfits : imageSize args ≤ pgSize) :
    ∃ s', pushArgument ⟨m, physBase⟩ args = .ok s' ∧ s'.esp + 12 = argvBase args ∧
      ((∀ i, physBase - pgSize ≤ i → i < physBase → m i = 0) →
        Holds s'.memory (s'.esp + 4) (image args)) := by
  have hpage : pgSize + 4 ≤ physBase := by decide
  have hsize := hfits
  rw [imageSize] at hsize
  obtain ⟨s₁, hrun₁, hesp₁, hholds₁, hrest₁⟩ :=
    pushStrings_spec (s := ⟨m, physBase⟩) args le_rfl (by dsimp only; omega)
  dsimp only at hrun₁ hesp₁ hholds₁ hrest₁
  rw [← stringBase] at hrun₁ hesp₁ hholds₁ hrest₁
  have hbase : stringBase args + (stringBytes args).length = physBase := by
    rw [stringBase]
    omega
  have hsub : s₁.sub (padding args + 4) =
      { s₁ with esp := stringBase args - (padding args + 4) } := by
    rw [sub_of_le (by omega) (by omega), hesp₁]
  obtain ⟨s₂, hrun₂, hesp₂, hholds₂, hrest₂⟩ := pushWords_spec
    (s := { s₁ with esp := stringBase args - (padding args + 4) })
    (stringAddrs (stringBase args) args) (by dsimp only; omega)
    (by dsimp only; rw [length_stringAddrs]; omega)
  dsimp only at hrun₂ hesp₂ hholds₂ hrest₂
  rw [length_stringAddrs, ← argvBase] at hesp₂ hholds₂ hrest₂
  have hargv : argvBase args + 4 * args.length + (padding args + 4) = stringBase args := by
    rw [argvBase]
    omega
  obtain ⟨s₃, hrun₃, hesp₃, hholds₃, hrest₃⟩ :=
    push_spec (s := s₂) (wordBytes (argvBase args)) (by omega) (by rw [length_wordBytes]; omega)
  rw [length_wordBytes, hesp₂] at hesp₃ hholds₃ hrest₃
  obtain ⟨s₄, hrun₄, hesp₄, hholds₄, hrest₄⟩ :=
    push_spec (s := s₃) (wordBytes args.length) (by omega) (by rw [length_wordBytes]; omega)
  rw [length_wordBytes, hesp₃] at hesp₄ hholds₄ hrest₄
  have hend : (s₄.sub 4).esp = s₄.esp - 4 := by
    rw [sub_of_le (by omega) (by omega)]
  refine ⟨s₄.sub 4, ?_, by omega, ?_⟩
  · rw [pushArgument, hrun₁, ok_bind]
    dsimp only
    rw [← padding, hsub, hrun₂, ok_bind, hesp₂, hrun₃, ok_bind, hrun₄]
    rfl
  · intro hzero
    have hesp : (s₄.sub 4).esp + 4 = argvBase args - 4 - 4 := by omega
    rw [memory_sub, hesp, image, holds_append, holds_append, holds_append, holds_append,
      length_wordBytes, length_wordBytes, length_flatMap_wordBytes, length_stringAddrs,
      length_replicate]
    have h₁ : argvBase args - 4 - 4 + 4 = argvBase args - 4 := by omega
    have h₂ : argvBase args - 4 + 4 = argvBase args := by omega
    have h₃ : argvBase args + 4 * args.length + (4 + padding args) = stringBase args := by omega
    rw [h₁, h₂, h₃]
    refine ⟨hholds₄, hholds₃.congr fun i hi hi' => hrest₄ i (.inr hi), hholds₂.congr ?_, ?_,
      hholds₁.congr ?_⟩
    · intro i hi hi'
      rw [hrest₄ i (.inr (by omega)), hrest₃ i (.inr hi)]
    · -- the padding and the null pointer were not written
      intro k b hk
      rw [getElem?_replicate] at hk
      split at hk
      · rw [← Option.some.inj hk, hrest₄ _ (.inr (by omega)), hrest₃ _ (.inr (by omega)),
          hrest₂ _ (.inr (by omega)), hrest₁ _ (.inl (by omega))]
        exact hzero _ (by omega) (by omega)
      · cases hk
    · intro i hi hi'
      rw [hrest₄ i (.inr (by omega)), hrest₃ i (.inr (by omega)), hrest₂ i (.inr (by omega))]

end UserStack

/-! ### Reading the image -/

theorem wordAt_of_holds {n : ℕ} (h : Holds m a (wordBytes n)) (hn : n < 2 ^ 32) :
    wordAt m a = n := by
  rw [wordAt, ← word_byteOf hn]
  refine word_congr fun k hk => h k _ ?_
  obtain rfl | rfl | rfl | rfl : k = 0 ∨ k = 1 ∨ k = 2 ∨ k = 3 := by omega
  all_goals rfl

/-- The addresses are read back. -/
theorem wordAt_of_flatMap {ws : List ℕ} (h : Holds m a (ws.flatMap wordBytes))
    (hlt : ∀ w ∈ ws, w < 2 ^ 32) :
    (range ws.length).map (fun i => wordAt m (a + 4 * i)) = ws := by
  induction ws generalizing a with
  | nil => rfl
  | cons w ws ih =>
    rw [flatMap_cons, holds_append, length_wordBytes] at h
    rw [length_cons, range_succ_eq_map, map_cons, map_map]
    have hhead := wordAt_of_holds h.1 (hlt w mem_cons_self)
    have htail := ih h.2 fun w' hw' => hlt w' (mem_cons_of_mem w hw')
    have hstep : ∀ i, a + 4 + 4 * i = a + 4 * (i + 1) := fun i => by omega
    simp only [hstep] at htail
    rw [Nat.mul_zero, Nat.add_zero, hhead]
    exact congrArg _ htail

/-- The strings are read back. -/
theorem readString_of_stringBytes (h : Holds m a (stringBytes args))
    (hlt : (stringBytes args).length ≤ pgSize) :
    (stringAddrs a args).map (readString m pgSize) = args.map (·.1) := by
  induction args generalizing a with
  | nil => rfl
  | cons arg args ih =>
    rw [length_stringBytes_cons] at hlt
    rw [stringBytes_cons, holds_append, length_append, length_singleton] at h
    rw [stringAddrs, map_cons, map_cons, ih h.2 (by omega),
      h.1.readString arg.2 (by omega)]

/-- The strings follow one another. -/
theorem regions_of_stringBytes (h : Holds m a (stringBytes args))
    (hlt : (stringBytes args).length ≤ pgSize) :
    ((stringAddrs a args).map (stringRegion m)).Pairwise Region.Before ∧
      ∀ r ∈ (stringAddrs a args).map (stringRegion m),
        a ≤ r.1 ∧ r.1 + r.2 ≤ a + (stringBytes args).length := by
  induction args generalizing a with
  | nil => exact ⟨List.Pairwise.nil, fun r hr => by cases hr⟩
  | cons arg args ih =>
    rw [length_stringBytes_cons] at hlt ⊢
    rw [stringBytes_cons, holds_append, length_append, length_singleton] at h
    obtain ⟨hpairs, hbounds⟩ := ih h.2 (by omega)
    have hfirst : stringRegion m a = (a, arg.1.length + 1) := by
      rw [stringRegion, h.1.readString arg.2 (by omega)]
    rw [stringAddrs, map_cons, hfirst]
    refine ⟨pairwise_cons.mpr ⟨fun r hr => (hbounds r hr).1, hpairs⟩, fun r hr => ?_⟩
    rcases mem_cons.mp hr with rfl | hr
    · dsimp only
      omega
    · have := hbounds r hr
      omega

/-- The words of the array follow one another. -/
theorem regions_of_words (a n : ℕ) :
    ((range n).map fun i => (a + 4 * i, 4)).Pairwise Region.Before ∧
      ∀ r ∈ (range n).map fun i => (a + 4 * i, 4), a ≤ r.1 ∧ r.1 + r.2 ≤ a + 4 * n := by
  constructor
  · rw [pairwise_map]
    refine pairwise_lt_range.imp fun {i j} hij => ?_
    rw [Region.Before]
    omega
  · intro r hr
    obtain ⟨i, hi, rfl⟩ := mem_map.mp hr
    have := mem_range.mp hi
    omega

/-- **The arguments are passed on.** For every list of arguments whose image fits in one page,
`push_argument` on a zeroed stack page leaves `esp` aligned, the program finds the arguments by the
calling convention, and the strings and words that it finds lie in the page and do not overlap. -/
theorem pushArgument_roundTrip {args : List CString} {m : ℕ → UInt8}
    (hzero : ∀ i, physBase - pgSize ≤ i → i < physBase → m i = 0)
    (hfits : imageSize args ≤ pgSize) :
    ∃ s, UserStack.pushArgument ⟨m, physBase⟩ args = .ok s ∧ s.esp % 4 = 0 ∧
      decodeArgs s = some (args.map (·.1)) ∧ (pushedRegions s).Pairwise Region.Before ∧
      ∀ r ∈ pushedRegions s, physBase - pgSize ≤ r.1 ∧ r.1 + r.2 ≤ physBase := by
  obtain ⟨s, hrun, hesp, himage⟩ := UserStack.pushArgument_spec m hfits
  replace himage := himage hzero
  have hsize := hfits
  rw [imageSize] at hsize
  have hphys : physBase = 3221225472 := rfl
  have hpg : pgSize = 4096 := rfl
  have hstrings : stringBase args + (stringBytes args).length = physBase := by
    rw [stringBase]
    omega
  have hargv : argvBase args + 4 * args.length + (padding args + 4) = stringBase args := by
    rw [argvBase]
    omega
  rw [image, holds_append, holds_append, holds_append, holds_append, length_wordBytes,
    length_wordBytes, length_flatMap_wordBytes, length_stringAddrs, length_replicate] at himage
  have hplace : s.esp + 4 + 4 = s.esp + 8 ∧ s.esp + 8 + 4 = argvBase args ∧
      argvBase args + 4 * args.length + (4 + padding args) = stringBase args := by omega
  rw [hplace.1, hplace.2.1, hplace.2.2] at himage
  obtain ⟨hargc, hbase, haddrs, hskipped, hbytes⟩ := himage
  have hargc := wordAt_of_holds hargc (by omega)
  have hbase := wordAt_of_holds hbase (by omega)
  have hnull : wordAt s.memory (argvBase args + 4 * args.length) = 0 := by
    rw [replicate_add, holds_append] at hskipped
    exact wordAt_of_holds (n := 0) hskipped.1 (by decide)
  have haddrs := wordAt_of_flatMap haddrs fun w hw => by
    have := lt_of_mem_stringAddrs hw
    omega
  rw [length_stringAddrs] at haddrs
  have hfound : ∀ {α : Type} (f : ℕ → α),
      (range args.length).map (fun i => f (wordAt s.memory (argvBase args + 4 * i))) =
        (stringAddrs (stringBase args) args).map f := fun f => by
    rw [← haddrs, map_map, Function.comp_def]
  refine ⟨s, hrun, ?_, ?_, ?_⟩
  · -- the padding makes up for the lengths of the strings
    have hpad : padding args = 4 - (stringBytes args).length % 4 := rfl
    omega
  · rw [decodeArgs]
    rw [hargc, hbase, if_pos hnull, hfound, readString_of_stringBytes hbytes (by omega)]
  · obtain ⟨hpairs, hbounds⟩ := regions_of_stringBytes hbytes (by omega)
    obtain ⟨hwordPairs, hwordBounds⟩ := regions_of_words (argvBase args) (args.length + 1)
    have hregions : pushedRegions s = (s.esp + 4, 4) :: (s.esp + 8, 4) ::
        ((range (args.length + 1)).map (fun i => (argvBase args + 4 * i, 4)) ++
          (stringAddrs (stringBase args) args).map (stringRegion s.memory)) := by
      rw [pushedRegions]
      rw [hargc, hbase, hfound]
    have hall : ∀ r ∈ (range (args.length + 1)).map (fun i => (argvBase args + 4 * i, 4)) ++
        (stringAddrs (stringBase args) args).map (stringRegion s.memory),
        argvBase args ≤ r.1 ∧ r.1 + r.2 ≤ physBase := fun r hr => by
      rcases mem_append.mp hr with hr | hr
      · have := hwordBounds r hr
        omega
      · have := hbounds r hr
        omega
    rw [hregions]
    constructor
    · refine pairwise_cons.mpr ⟨fun r hr => ?_, pairwise_cons.mpr ⟨fun r hr => ?_,
        pairwise_append.mpr ⟨hwordPairs, hpairs, fun r hr r' hr' => ?_⟩⟩⟩
      · rw [Region.Before]
        rcases mem_cons.mp hr with rfl | hr
        · dsimp only
          omega
        · have := hall r hr
          omega
      · have := hall r hr
        rw [Region.Before]
        omega
      · have := hwordBounds r hr
        have := hbounds r' hr'
        rw [Region.Before]
        omega
    · intro r hr
      rcases mem_cons.mp hr with rfl | hr
      · dsimp only
        omega
      · rcases mem_cons.mp hr with rfl | hr
        · dsimp only
          omega
        · have := hall r hr
          omega

theorem pushArgument_roundTrip_echo :
    ∃ s, UserStack.pushArgument ⟨fun _ => 0, physBase⟩
          [⟨[101, 99, 104, 111], by decide⟩, ⟨[120], by decide⟩] = .ok s ∧
      s.esp % 4 = 0 ∧ decodeArgs s = some [[101, 99, 104, 111], [120]] ∧
      (pushedRegions s).Pairwise Region.Before ∧
      ∀ r ∈ pushedRegions s, physBase - pgSize ≤ r.1 ∧ r.1 + r.2 ≤ physBase :=
  pushArgument_roundTrip (fun _ _ _ => rfl) (by decide)

end Pintos
