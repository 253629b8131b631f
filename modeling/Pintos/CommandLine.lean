import Mathlib.Data.List.TakeWhile
import Pintos.Arguments

/-!
# The Command Line

`process_execute` copies a command line to a page, and `load` copies it from there to the array
`fname`, whose size does not depend on it. There `strtok_r` ends the words with null bytes, once
to count them and, on a second copy, once more to store their addresses in the array `argv`. The
first word becomes the name of the thread and of the program, and the words are what
`push_argument` lays out on the stack.

The first words of a line are what a blank ends: `nextWord` is the word that `strtok_r` finds in
what remains of a line, and `words` the words of the whole line.

## Main results

* `strtokR_none`, `strtokR_some`: what `strtok_r` finds, and which bytes it leaves alone.
* `countArgs_spec`, `storeArgs_spec`: what the two loops count and store.
* `parseLine_spec`, `parseLine_blank`: a line of words that fits in `fname` is parsed into its
  words, and a line of blanks is not.
* `lineInBounds_iff`: which command lines are handled within bounds.
-/

namespace Pintos

open Verif Function Outcome List

/-- `sizeof fname`. -/
def fnameSize : ℕ := 300

/-- A blank, the only delimiter. -/
def blank : UInt8 := 32

/-! ### The code -/

/-- The first loop of `strtok_r`: past the blanks. -/
def skipBlanks (m : ℕ → UInt8) : (room : ℕ) → (s : ℕ) → ArgM ℕ
  | 0, _ => .panic .fname
  | room + 1, s => if m s = blank then skipBlanks m room (s + 1) else .ok s

/-- The second loop of `strtok_r`: to the end of the word. -/
def skipWord (m : ℕ → UInt8) : (room : ℕ) → (s : ℕ) → ArgM ℕ
  | 0, _ => .panic .fname
  | room + 1, s => if m s = blank ∨ m s = 0 then .ok s else skipWord m room (s + 1)

/-- `strtok_r` from the place `s` in `fname`: the token, `*save_ptr`, and what is in `fname`. -/
def strtokR (m : ℕ → UInt8) (s : ℕ) : ArgM (Option ℕ × ℕ × (ℕ → UInt8)) := do
  let token ← skipBlanks m (fnameSize - s) s
  if m token = 0 then
    return (none, token, m)
  else do
    let s ← skipWord m (fnameSize - token) token
    if m s ≠ 0 then
      return (some token, s + 1, update m s 0)
    else
      return (some token, s, m)

/-- The loop that counts the words after the first one. -/
def countArgs : (fuel : ℕ) → (m : ℕ → UInt8) → (pret : Option ℕ) → (pnext argc : ℕ) →
    ArgM (ℕ × (ℕ → UInt8))
  | 0, _, _, _, _ => .blocked
  | _ + 1, m, none, _, argc => return (argc, m)
  | fuel + 1, m, some _, pnext, argc => do
    let (pret, pnext, m) ← strtokR m pnext
    countArgs fuel m pret pnext (if pret.isSome then argc + 1 else argc)

/-- `argv[i++] = pret`, unless it is null. -/
def storeArg (argc : ℕ) (argv : List ℕ) : Option ℕ → ArgM (List ℕ)
  | none => return argv
  | some arg => do
    Outcome.ensure (argv.length + 1 < argc) .argv
    return argv ++ [arg]

/-- The loop that stores the words after the first one. -/
def storeArgs : (fuel : ℕ) → (m : ℕ → UInt8) → (pret : Option ℕ) → (pnext argc : ℕ) →
    (argv : List ℕ) → ArgM (List ℕ × (ℕ → UInt8))
  | 0, _, _, _, _, _ => .blocked
  | _ + 1, m, none, _, _, argv => return (argv, m)
  | fuel + 1, m, some _, pnext, argc, argv => do
    let (pret, pnext, m) ← strtokR m pnext
    let argv ← storeArg argc argv pret
    storeArgs fuel m pret pnext argc argv

/-- What `load` has after the command line is parsed. -/
structure ParsedLine where
  argc : ℕ
  argv : List ℕ
  fname : ℕ → UInt8

/-- What the handling of a command line depends on. -/
structure LineEnv where
  /-- Whether `malloc` has room for `argv`. -/
  granted : Bool
  /-- Whether the program of that name is loaded. -/
  loads : CString → Bool
  /-- What is in `fname` before. -/
  fname : ℕ → UInt8
  /-- What is in the stack page. -/
  stack : ℕ → UInt8

/-- `strlcpy (fname, file_name, strlen (file_name) + 1)`. -/
def copyLine (m : ℕ → UInt8) (fileName : List UInt8) : ArgM (ℕ → UInt8) :=
  storeBytes 0 fnameSize .fname m 0 (fileName ++ [0])

/-- What `load` does with the command line before it opens the program. -/
def parseLine (env : LineEnv) (fileName : List UInt8) : ArgM ParsedLine := do
  let m ← copyLine env.fname fileName
  let (pret, pnext, m) ← strtokR m 0
  let (argc, m) ← countArgs (fnameSize + 1) m pret pnext 1
  let m ← copyLine m fileName
  let (pret, pnext, m) ← strtokR m 0
  -- `argv[0] = pret`, where `argv` may be null
  Outcome.ensure (env.granted = true) .argv
  let (argv, m) ← storeArgs (fnameSize + 1) m pret pnext argc []
  -- `strlcpy (t->name, argv[0], sizeof (t->name))`
  match pret with
  | none => .panic .name
  | some arg => return ⟨argc, arg :: argv, m⟩

theorem zero_notMem_readString (m : ℕ → UInt8) (fuel a : ℕ) : 0 ∉ readString m fuel a := by
  induction fuel generalizing a with
  | zero => exact not_mem_nil
  | succ fuel ih =>
    rw [readString]
    split_ifs with h
    · exact not_mem_nil
    · rw [mem_cons, not_or]
      exact ⟨Ne.symm h, ih (a + 1)⟩

/-- The strings that `argv` points to. -/
def ParsedLine.args (p : ParsedLine) : List CString :=
  p.argv.map fun a => ⟨readString p.fname fnameSize a, zero_notMem_readString _ _ _⟩

/-- What becomes of a command line in `load`: `none` if the program is not loaded, and otherwise
the stack. -/
def loadLine (env : LineEnv) (fileName : List UInt8) : ArgM (Option UserStack) := do
  let p ← parseLine env fileName
  -- `filesys_open (argv[0])`
  if p.args.head?.any env.loads then
    let s ← UserStack.pushArgument ⟨env.stack, physBase⟩ p.args
    return some s
  else
    return none

/-- `fn_copy`: the command line that `process_execute` passes on. -/
def fnCopy (fileName : CString) : List UInt8 := fileName.1.take (pgSize - 1)

/-- A line without words. -/
def IsBlank (line : List UInt8) : Prop := ∀ c ∈ line, c = blank

instance (line : List UInt8) : Decidable (IsBlank line) := decidableBAll _ line

/-- **A command line is handled within bounds**: the words of a line are stored in `argv`, as many
as were counted and at least one, and are pushed within the stack page; a line without words
makes the load fail. -/
def LineInBounds (env : LineEnv) (fileName : CString) : Prop :=
  if IsBlank (fnCopy fileName) then
    loadLine env (fnCopy fileName) = .ok none
  else
    ∃ p, parseLine env (fnCopy fileName) = .ok p ∧ p.argv.length = p.argc ∧ p.argv ≠ [] ∧
      ∃ s, UserStack.pushArgument ⟨env.stack, physBase⟩ p.args = .ok s

/-! ### The words of a line -/

/-- The first word of a line, and what follows the blank after it. -/
def nextWord (line : List UInt8) : Option (List UInt8 × List UInt8) :=
  match line.dropWhile (· = blank) with
  | [] => none
  | c :: cs => some ((c :: cs).takeWhile (· ≠ blank), ((c :: cs).dropWhile (· ≠ blank)).tail)

variable {line w rest : List UInt8} {m m' : ℕ → UInt8} {s : ℕ}

theorem nextWord_eq_none : nextWord line = none ↔ IsBlank line := by
  have hdrop : nextWord line = none ↔ line.dropWhile (· = blank) = [] := by
    rw [nextWord]
    split <;> simp [*]
  rw [hdrop, dropWhile_eq_nil_iff]
  simp [IsBlank]

/-- A line begins with blanks, its first word, and a blank if anything follows. -/
theorem nextWord_eq_some (h : nextWord line = some (w, rest)) :
    ∃ k tail, line = replicate k blank ++ (w ++ tail) ∧ w ≠ [] ∧ blank ∉ w ∧
      (tail = [] ∧ rest = [] ∨ tail = blank :: rest) := by
  rw [nextWord] at h
  split at h
  · cases h
  · rename_i c cs hdrop
    obtain ⟨rfl, rfl⟩ := Prod.mk.inj (Option.some.inj h)
    have hblanks : line.takeWhile (· = blank) =
        replicate (line.takeWhile (· = blank)).length blank :=
      eq_replicate_of_mem fun c hc => by simpa using mem_takeWhile_imp hc
    have hc : c ≠ blank := by
      have := head?_dropWhile_not (· = blank) line
      rw [hdrop] at this
      simpa using this
    refine ⟨(line.takeWhile (· = blank)).length, (c :: cs).dropWhile (· ≠ blank), ?_, ?_, ?_, ?_⟩
    · rw [← hblanks, takeWhile_append_dropWhile, ← hdrop, takeWhile_append_dropWhile]
    · rw [takeWhile_cons_of_pos (by simpa using hc)]
      exact cons_ne_nil _ _
    · intro hmem
      simpa using mem_takeWhile_imp hmem
    · cases htail : (c :: cs).dropWhile (· ≠ blank) with
      | nil => exact .inl ⟨rfl, rfl⟩
      | cons d ds =>
        have := head?_dropWhile_not (· ≠ blank) (c :: cs)
        rw [htail] at this
        have hd : d = blank := by simpa using this
        rw [hd]
        exact .inr rfl

/-- A word takes its place and that of the blank after it. -/
theorem nextWord_length (h : nextWord line = some (w, rest)) :
    0 < w.length ∧ w.length + rest.length ≤ line.length ∧
      (rest ≠ [] → w.length + 1 + rest.length ≤ line.length) := by
  obtain ⟨k, tail, rfl, hne, -, htail⟩ := nextWord_eq_some h
  have hpos := length_pos_iff.mpr hne
  rw [length_append, length_append, length_replicate]
  rcases htail with ⟨rfl, rfl⟩ | rfl
  · exact ⟨hpos, by omega, fun hne => absurd rfl hne⟩
  · rw [length_cons]
    exact ⟨hpos, by omega, fun _ => by omega⟩

theorem nextWord_zero (h : nextWord line = some (w, rest)) (hzero : 0 ∉ line) :
    0 ∉ w ∧ 0 ∉ rest := by
  obtain ⟨k, tail, rfl, -, -, htail⟩ := nextWord_eq_some h
  rw [mem_append, mem_append, not_or, not_or] at hzero
  refine ⟨hzero.2.1, ?_⟩
  rcases htail with ⟨rfl, rfl⟩ | rfl
  · exact not_mem_nil
  · exact fun hmem => hzero.2.2 (mem_cons_of_mem blank hmem)

/-- The words of a line. -/
def words (line : List UInt8) : List (List UInt8) :=
  match _h : nextWord line with
  | none => []
  | some (w, rest) => w :: words rest
termination_by line.length
decreasing_by
  have := nextWord_length _h
  omega

theorem words_of_none (h : nextWord line = none) : words line = [] := by
  rw [words]
  split
  · rfl
  · rename_i h'
    rw [h] at h'
    cases h'

theorem words_of_some (h : nextWord line = some (w, rest)) : words line = w :: words rest := by
  rw [words]
  split
  · rename_i h'
    rw [h] at h'
    cases h'
  · rename_i h'
    rw [h] at h'
    obtain ⟨rfl, rfl⟩ := Prod.mk.inj (Option.some.inj h')
    rfl

/-- Induction on the words of a line. -/
theorem words_induction {motive : List UInt8 → Prop}
    (hnone : ∀ line, nextWord line = none → motive line)
    (hsome : ∀ line w rest, nextWord line = some (w, rest) → motive rest → motive line)
    (line : List UInt8) : motive line := by
  induction hn : line.length using Nat.strong_induction_on generalizing line with
  | h n ih =>
    cases hnext : nextWord line with
    | none => exact hnone line hnext
    | some next =>
      obtain ⟨w, rest⟩ := next
      have := nextWord_length hnext
      exact hsome line w rest hnext (ih rest.length (by omega) rest rfl)

/-- The words with their terminators fit where the line fits, and each takes two bytes. -/
theorem words_length (line : List UInt8) :
    ((words line).map fun w => w.length + 1).sum ≤ line.length + 1 ∧
      2 * (words line).length ≤ ((words line).map fun w => w.length + 1).sum := by
  induction line using words_induction with
  | hnone line hnext =>
    rw [words_of_none hnext]
    exact ⟨Nat.zero_le _, Nat.le_refl 0⟩
  | hsome line w rest hnext ih =>
    have hlength := nextWord_length hnext
    rw [words_of_some hnext, map_cons, sum_cons, length_cons]
    refine ⟨?_, by omega⟩
    by_cases hrest : rest = []
    · have : words rest = [] := words_of_none (nextWord_eq_none.mpr (by simp [hrest, IsBlank]))
      rw [this, map_nil, sum_nil]
      omega
    · have := hlength.2.2 hrest
      omega

/-! ### The tokens of `strtok_r` -/

/-- Nothing but blanks was changed. -/
def Intact (m m' : ℕ → UInt8) : Prop := ∀ i, m i ≠ blank → m' i = m i

theorem Intact.refl (m : ℕ → UInt8) : Intact m m := fun _ _ => rfl

theorem Intact.trans {m'' : ℕ → UInt8} (h : Intact m m') (h' : Intact m' m'') : Intact m m'' := by
  intro i hi
  have := h i hi
  rw [h' i (this ▸ hi), this]

/-- A word and its terminator stay. -/
theorem Intact.holds {a : ℕ} (h : Intact m m') (hw : blank ∉ w) (hm : Holds m a (w ++ [0])) :
    Holds m' a (w ++ [0]) := by
  refine hm.congr fun i hi hi' => h i fun hblank => ?_
  have hlt : i - a < (w ++ [0]).length := by omega
  have := hm (i - a) _ (getElem?_eq_getElem hlt)
  rw [Nat.add_sub_cancel' hi, hblank] at this
  rcases mem_append.mp (this ▸ getElem_mem hlt) with hmem | hmem
  · exact hw hmem
  · exact absurd (mem_singleton.mp hmem) (by decide)

theorem skipBlanks_spec {k room : ℕ} {c : UInt8} {cs : List UInt8} (hroom : k < room)
    (h : Holds m s (replicate k blank ++ c :: cs)) (hc : c ≠ blank) :
    skipBlanks m room s = .ok (s + k) := by
  induction k generalizing s room with
  | zero =>
    obtain ⟨room, rfl⟩ := Nat.exists_eq_succ_of_ne_zero (Nat.ne_of_gt hroom)
    rw [skipBlanks, (holds_cons.mp h).1, if_neg hc, Nat.add_zero]
  | succ k ih =>
    obtain ⟨room, rfl⟩ := Nat.exists_eq_succ_of_ne_zero (Nat.ne_of_gt (Nat.zero_lt_of_lt hroom))
    rw [replicate_succ, cons_append, holds_cons] at h
    rw [skipBlanks, if_pos h.1, ih (Nat.lt_of_succ_lt_succ hroom) h.2, Nat.add_assoc,
      Nat.add_comm 1]

theorem skipWord_spec {room : ℕ} {c : UInt8} {cs : List UInt8} (hroom : w.length < room)
    (h : Holds m s (w ++ c :: cs)) (hblank : blank ∉ w) (hzero : 0 ∉ w) (hc : c = blank ∨ c = 0) :
    skipWord m room s = .ok (s + w.length) := by
  induction w generalizing s room with
  | nil =>
    obtain ⟨room, rfl⟩ := Nat.exists_eq_succ_of_ne_zero (Nat.ne_of_gt hroom)
    rw [skipWord, (holds_cons.mp h).1, if_pos hc, length_nil, Nat.add_zero]
  | cons b w ih =>
    obtain ⟨room, rfl⟩ := Nat.exists_eq_succ_of_ne_zero (Nat.ne_of_gt (Nat.zero_lt_of_lt hroom))
    rw [cons_append, holds_cons] at h
    rw [mem_cons, not_or] at hblank hzero
    have hb : ¬(m s = blank ∨ m s = 0) := by
      rw [h.1, not_or]
      exact ⟨Ne.symm hblank.1, Ne.symm hzero.1⟩
    rw [skipWord, if_neg hb, ih (Nat.lt_of_succ_lt_succ hroom) h.2 hblank.2 hzero.2,
      length_cons, Nat.add_assoc, Nat.add_comm 1]

/-- **No token** is found in a line of blanks. -/
theorem strtokR_none (h : Holds m s (line ++ [0])) (hroom : s + line.length < fnameSize)
    (hnext : nextWord line = none) : strtokR m s = .ok (none, s + line.length, m) := by
  have hline : line = replicate line.length blank :=
    eq_replicate_of_mem (nextWord_eq_none.mp hnext)
  have hskip : skipBlanks m (fnameSize - s) s = .ok (s + line.length) := by
    rw [hline] at h
    exact skipBlanks_spec (by omega) h (by decide)
  have hend : m (s + line.length) = 0 := (holds_cons.mp (holds_append.mp h).2).1
  rw [strtokR, hskip, ok_bind, if_pos hend]
  rfl

/-- **The token** is the first word of the line, and what follows it remains. -/
theorem strtokR_some (h : Holds m s (line ++ [0])) (hzero : 0 ∉ line)
    (hroom : s + line.length < fnameSize) (hnext : nextWord line = some (w, rest)) :
    ∃ token next m', strtokR m s = .ok (some token, next, m') ∧ Intact m m' ∧
      Holds m' token (w ++ [0]) ∧ Holds m' next (rest ++ [0]) ∧
      next + rest.length ≤ s + line.length := by
  have hwzero := (nextWord_zero hnext hzero).1
  obtain ⟨k, tail, rfl, hne, hblank, htail⟩ := nextWord_eq_some hnext
  rw [length_append, length_append, length_replicate] at hroom ⊢
  rw [append_assoc, append_assoc] at h
  obtain ⟨hblanks, htoken⟩ := holds_append.mp h
  rw [length_replicate] at htoken
  have hskip : skipBlanks m (fnameSize - s) s = .ok (s + k) := by
    obtain ⟨c, cs, rfl⟩ := exists_cons_of_ne_nil hne
    exact skipBlanks_spec (by omega) h fun hc => hblank (hc ▸ mem_cons_self)
  have hstart : m (s + k) ≠ 0 := by
    obtain ⟨c, cs, rfl⟩ := exists_cons_of_ne_nil hne
    rw [(holds_cons.mp htoken).1]
    exact fun hc => hwzero (hc ▸ mem_cons_self)
  obtain ⟨hword, hafter⟩ := holds_append.mp htoken
  rcases htail with ⟨rfl, rfl⟩ | rfl
  · -- the line ends with the word
    have hend : skipWord m (fnameSize - (s + k)) (s + k) = .ok (s + k + w.length) :=
      skipWord_spec (by omega) htoken hblank hwzero (.inr rfl)
    have hstop : ¬m (s + k + w.length) ≠ 0 := not_not.mpr (holds_cons.mp hafter).1
    refine ⟨s + k, s + k + w.length, m, ?_, Intact.refl m, htoken, hafter, by simp; omega⟩
    rw [strtokR, hskip, ok_bind, if_neg hstart, hend, ok_bind, if_neg hstop]
    rfl
  · -- the blank after the word becomes its terminator
    rw [cons_append, holds_cons] at hafter
    have hend : skipWord m (fnameSize - (s + k)) (s + k) = .ok (s + k + w.length) :=
      skipWord_spec (by rw [length_cons] at hroom; omega) htoken hblank hwzero (.inl rfl)
    have hstop : m (s + k + w.length) ≠ 0 := by
      rw [hafter.1]
      decide
    refine ⟨s + k, s + k + w.length + 1, update m (s + k + w.length) 0, ?_, ?_, ?_, ?_, ?_⟩
    · rw [strtokR, hskip, ok_bind, if_neg hstart, hend, ok_bind, if_pos hstop]
      rfl
    · intro i hi
      refine update_of_ne ?_ _ _
      rintro rfl
      exact hi hafter.1
    · refine holds_append.mpr ⟨hword.congr fun i _ hi => ?_, holds_cons.mpr ⟨?_, holds_nil⟩⟩
      · exact update_of_ne (by omega) _ _
      · exact update_self _ _ _
    · refine hafter.2.congr fun i hi _ => ?_
      exact update_of_ne (by omega) _ _
    · rw [length_cons]
      omega

/-! ### The two loops -/

/-- **As many words are counted** as the rest of the line has. -/
theorem countArgs_spec {fuel token argc : ℕ} (hfuel : line.length + 1 < fuel)
    (h : Holds m s (line ++ [0])) (hzero : 0 ∉ line) (hroom : s + line.length < fnameSize) :
    ∃ m', countArgs fuel m (some token) s argc = .ok (argc + (words line).length, m') := by
  induction line using words_induction generalizing fuel m s token argc with
  | hnone line hnext =>
    obtain ⟨fuel, rfl⟩ : ∃ n, fuel = n + 2 := ⟨fuel - 2, by omega⟩
    refine ⟨m, ?_⟩
    rw [countArgs, strtokR_none h hroom hnext, words_of_none hnext]
    rfl
  | hsome line w rest hnext ih =>
    obtain ⟨fuel, rfl⟩ := Nat.exists_eq_succ_of_ne_zero (Nat.ne_of_gt (Nat.zero_lt_of_lt hfuel))
    obtain ⟨token', next, m', hrun, -, -, hrest, hnextRoom⟩ := strtokR_some h hzero hroom hnext
    have hlength := nextWord_length hnext
    obtain ⟨m'', hloop⟩ : ∃ m'', countArgs fuel m' (some token') next (argc + 1) =
        .ok (argc + 1 + (words rest).length, m'') :=
      ih (by omega) hrest (nextWord_zero hnext hzero).2 (by omega)
    refine ⟨m'', ?_⟩
    rw [countArgs, hrun, ok_bind]
    dsimp only [Option.isSome_some]
    rw [if_pos rfl, hloop, words_of_some hnext, length_cons]
    congr 2
    omega

/-- **The words are stored**: as many as the rest of the line has, where `argv` has room for them,
and they stay in `fname`. -/
theorem storeArgs_spec {fuel token argc : ℕ} {argv : List ℕ} (hfuel : line.length + 1 < fuel)
    (h : Holds m s (line ++ [0])) (hzero : 0 ∉ line) (hroom : s + line.length < fnameSize)
    (hargc : argv.length + 1 + (words line).length ≤ argc) :
    ∃ args m', storeArgs fuel m (some token) s argc argv = .ok (argv ++ args, m') ∧
      Intact m m' ∧ List.Forall₂ (fun a w => Holds m' a (w ++ [0])) args (words line) := by
  induction line using words_induction generalizing fuel m s token argv with
  | hnone line hnext =>
    obtain ⟨fuel, rfl⟩ : ∃ n, fuel = n + 2 := ⟨fuel - 2, by omega⟩
    refine ⟨[], m, ?_, Intact.refl m, ?_⟩
    · rw [storeArgs, strtokR_none h hroom hnext, append_nil]
      rfl
    · rw [words_of_none hnext]
      exact List.Forall₂.nil
  | hsome line w rest hnext ih =>
    obtain ⟨fuel, rfl⟩ := Nat.exists_eq_succ_of_ne_zero (Nat.ne_of_gt (Nat.zero_lt_of_lt hfuel))
    obtain ⟨token', next, m', hrun, hintact, hword, hrest, hnextRoom⟩ :=
      strtokR_some h hzero hroom hnext
    obtain ⟨-, -, -, -, hblank, -⟩ := nextWord_eq_some hnext
    have hlength := nextWord_length hnext
    rw [words_of_some hnext] at hargc ⊢
    rw [length_cons] at hargc
    obtain ⟨args, m'', hloop, hintact', hwords⟩ : ∃ args m'',
        storeArgs fuel m' (some token') next argc (argv ++ [token']) =
          .ok (argv ++ [token'] ++ args, m'') ∧ Intact m' m'' ∧
        List.Forall₂ (fun a w => Holds m'' a (w ++ [0])) args (words rest) :=
      ih (by omega) hrest (nextWord_zero hnext hzero).2 (by omega)
        (by rw [length_append, length_singleton]; omega)
    refine ⟨token' :: args, m'', ?_, hintact.trans hintact',
      List.Forall₂.cons (hintact'.holds hblank hword) hwords⟩
    have hstore : storeArg argc argv (some token') = .ok (argv ++ [token']) := by
      rw [storeArg, ensure_of_true (by omega)]
      rfl
    rw [storeArgs, hrun, ok_bind]
    dsimp only
    rw [hstore, ok_bind, hloop, append_assoc, singleton_append]

/-! ### The whole line -/

variable {env : LineEnv}

theorem copyLine_spec (m : ℕ → UInt8) (line : List UInt8) (hroom : line.length < fnameSize) :
    ∃ m', copyLine m line = .ok m' ∧ Holds m' 0 (line ++ [0]) := by
  have hfits : 0 + (line ++ [0]).length ≤ fnameSize := by
    rw [length_append, length_singleton]
    omega
  obtain ⟨m', hrun, hholds, -⟩ := storeBytes_spec ArgPanic.fname m (Nat.le_refl 0) hfits
  exact ⟨m', hrun, hholds⟩

/-- The strings of the words that are in `fname`. -/
theorem readString_of_forall₂ {argv : List ℕ} {ws : List (List UInt8)}
    (h : List.Forall₂ (fun a w => Holds m a (w ++ [0])) argv ws)
    (hws : ∀ w ∈ ws, 0 ∉ w ∧ w.length < fnameSize) :
    argv.map (readString m fnameSize) = ws := by
  induction h with
  | nil => rfl
  | cons hhead htail ih =>
    obtain ⟨hzero, hlength⟩ := hws _ mem_cons_self
    rw [map_cons, hhead.readString hzero hlength,
      ih fun w hw => hws w (mem_cons_of_mem _ hw)]

theorem words_mem (hzero : 0 ∉ line) (hw : w ∈ words line) : 0 ∉ w ∧ w.length ≤ line.length := by
  induction line using words_induction with
  | hnone line hnext =>
    rw [words_of_none hnext] at hw
    cases hw
  | hsome line w' rest hnext ih =>
    have hlength := nextWord_length hnext
    obtain ⟨hzero', hzeroRest⟩ := nextWord_zero hnext hzero
    rw [words_of_some hnext] at hw
    rcases mem_cons.mp hw with rfl | hw
    · exact ⟨hzero', by omega⟩
    · obtain ⟨hzeroWord, hle⟩ := ih hzeroRest hw
      exact ⟨hzeroWord, by omega⟩

/-- **A line of words is parsed into its words**, if it fits in `fname` and `argv` was
allocated. -/
theorem parseLine_spec (hroom : line.length < fnameSize) (hzero : 0 ∉ line)
    (hwords : ¬IsBlank line) (hgranted : env.granted = true) :
    ∃ p, parseLine env line = .ok p ∧ p.argv.length = p.argc ∧ p.argv ≠ [] ∧
      p.argv.map (readString p.fname fnameSize) = words line := by
  obtain ⟨⟨w, rest⟩, hnext⟩ := Option.ne_none_iff_exists'.mp (mt nextWord_eq_none.mp hwords)
  have hzeroRest := (nextWord_zero hnext hzero).2
  obtain ⟨-, -, -, -, hblank, -⟩ := nextWord_eq_some hnext
  obtain ⟨m₁, hcopy₁, hholds₁⟩ := copyLine_spec env.fname line hroom
  obtain ⟨token₁, next₁, m₂, hrun₁, -, -, hrest₁, hnext₁⟩ :=
    strtokR_some hholds₁ hzero (by omega) hnext
  obtain ⟨m₃, hcount⟩ : ∃ m₃, countArgs (fnameSize + 1) m₂ (some token₁) next₁ 1 =
      .ok (1 + (words rest).length, m₃) :=
    countArgs_spec (by omega) hrest₁ hzeroRest (by omega)
  obtain ⟨m₄, hcopy₂, hholds₂⟩ := copyLine_spec m₃ line hroom
  obtain ⟨token, next, m₅, hrun₂, -, hword, hrest₂, hnext₂⟩ :=
    strtokR_some hholds₂ hzero (by omega) hnext
  obtain ⟨argv, m₆, hstore, hintact, hargv⟩ : ∃ argv m₆,
      storeArgs (fnameSize + 1) m₅ (some token) next (1 + (words rest).length) [] =
        .ok ([] ++ argv, m₆) ∧ Intact m₅ m₆ ∧
      List.Forall₂ (fun a w => Holds m₆ a (w ++ [0])) argv (words rest) :=
    storeArgs_spec (by omega) hrest₂ hzeroRest (by omega) (by rw [length_nil])
  refine ⟨⟨1 + (words rest).length, token :: argv, m₆⟩, ?_, ?_, cons_ne_nil _ _, ?_⟩
  · rw [parseLine, hcopy₁, ok_bind, hrun₁, ok_bind]
    dsimp only
    rw [hcount, ok_bind]
    rw [hcopy₂, ok_bind, hrun₂, ok_bind]
    rw [ensure_of_true hgranted, ok_bind, hstore]
    rfl
  · rw [length_cons, hargv.length_eq, Nat.add_comm]
  · rw [words_of_some hnext]
    refine readString_of_forall₂ (List.Forall₂.cons (hintact.holds hblank hword) hargv)
      fun w' hw' => ?_
    rw [← words_of_some hnext] at hw'
    obtain ⟨hzeroWord, hle⟩ := words_mem hzero hw'
    exact ⟨hzeroWord, by omega⟩

/-- A line of blanks has no first word to be the name of the thread. -/
theorem parseLine_blank (hblank : IsBlank line) {p : ParsedLine} : parseLine env line ≠ .ok p := by
  intro h
  have hnext := nextWord_eq_none.mpr hblank
  rw [parseLine] at h
  obtain ⟨m₁, hcopy₁, h⟩ := bind_eq_ok.mp h
  obtain ⟨⟨pret₁, next₁, m₂⟩, -, h⟩ := bind_eq_ok.mp h
  obtain ⟨⟨argc, m₃⟩, -, h⟩ := bind_eq_ok.mp h
  obtain ⟨m₄, hcopy₂, h⟩ := bind_eq_ok.mp h
  have hroom := (le_of_storeBytes hcopy₁ (by simp)).2
  rw [length_append, length_singleton] at hroom
  obtain ⟨m', hcopy, hholds⟩ := copyLine_spec m₃ line (by omega)
  rw [hcopy] at hcopy₂
  obtain rfl := ok.inj hcopy₂
  rw [strtokR_none hholds (by omega) hnext, ok_bind] at h
  obtain ⟨-, h⟩ := ensure_bind_eq_ok.mp h
  obtain ⟨⟨argv, m₅⟩, -, h⟩ := bind_eq_ok.mp h
  cases h

/-- A line that is parsed fits in `fname`, and `argv` was allocated. -/
theorem room_of_parseLine {p : ParsedLine} (h : parseLine env line = .ok p) :
    line.length < fnameSize ∧ env.granted = true := by
  rw [parseLine] at h
  obtain ⟨m₁, hcopy₁, h⟩ := bind_eq_ok.mp h
  obtain ⟨⟨pret₁, next₁, m₂⟩, -, h⟩ := bind_eq_ok.mp h
  obtain ⟨⟨argc, m₃⟩, -, h⟩ := bind_eq_ok.mp h
  obtain ⟨m₄, -, h⟩ := bind_eq_ok.mp h
  obtain ⟨⟨pret, next, m₅⟩, -, h⟩ := bind_eq_ok.mp h
  have hroom := (le_of_storeBytes hcopy₁ (by simp)).2
  rw [length_append, length_singleton] at hroom
  exact ⟨by omega, (ensure_bind_eq_ok.mp h).1⟩

/-- The words of a line that fits in `fname` fit in the stack page. -/
theorem imageSize_le {args : List CString} (line : List UInt8) (hargs : args.map (·.1) = words line)
    (hroom : line.length < fnameSize) : imageSize args ≤ pgSize := by
  obtain ⟨hsum, hcount⟩ := words_length line
  have hbytes : (stringBytes args).length = ((words line).map fun w => w.length + 1).sum := by
    rw [← hargs, map_map, stringBytes, length_flatMap]
    simp only [length_append, length_singleton, comp_def]
  have hlength : args.length = (words line).length := by
    rw [← hargs, length_map]
  simp only [fnameSize] at hroom
  rw [imageSize, padding, hbytes, hlength]
  have hpage : pgSize = 4096 := rfl
  omega

/-- **Which command lines are handled within bounds**: those that fit in `fname` and have a word,
if `argv` is allocated. -/
theorem lineInBounds_iff (env : LineEnv) (fileName : CString) :
    LineInBounds env fileName ↔
      (fnCopy fileName).length < fnameSize ∧ ¬IsBlank (fnCopy fileName) ∧ env.granted = true := by
  have hzero : 0 ∉ fnCopy fileName := fun h => fileName.2 (mem_of_mem_take h)
  rw [LineInBounds]
  split_ifs with hblank
  · constructor
    · intro h
      rw [loadLine] at h
      obtain ⟨p, hparse, -⟩ := Outcome.bind_eq_ok.mp h
      exact absurd hparse (parseLine_blank hblank)
    · rintro ⟨-, hwords, -⟩
      exact absurd hblank hwords
  · constructor
    · rintro ⟨p, hparse, -⟩
      obtain ⟨hroom, hgranted⟩ := room_of_parseLine hparse
      exact ⟨hroom, hblank, hgranted⟩
    · rintro ⟨hroom, -, hgranted⟩
      obtain ⟨p, hparse, hargc, hne, hargs⟩ := parseLine_spec hroom hzero hblank hgranted
      have hfits : imageSize p.args ≤ pgSize := by
        refine imageSize_le (fnCopy fileName) ?_ hroom
        rw [ParsedLine.args, map_map, ← hargs]
        rfl
      obtain ⟨s, hpush, -⟩ := UserStack.pushArgument_spec env.stack hfits
      exact ⟨p, hparse, hargc, hne, s, hpush⟩

/-- Enough memory, and every program is there. -/
def LineEnv.plenty : LineEnv := ⟨true, fun _ => true, fun _ => 0, fun _ => 0⟩

theorem lineInBounds_echo :
    LineInBounds LineEnv.plenty ⟨[101, 99, 104, 111, 32, 32, 120], by decide⟩ :=
  (lineInBounds_iff _ _).mpr ⟨by decide, by decide, rfl⟩

theorem zero_notMem_replicate (n : ℕ) : (0 : UInt8) ∉ replicate n 97 := fun h =>
  absurd (eq_of_mem_replicate h) (by decide)

/-- A word that leaves no room for its terminator in `fname`. -/
def longLine : CString := ⟨replicate fnameSize 97, zero_notMem_replicate fnameSize⟩

/-- A line that is too long is copied past the end of `fname`, and an empty one fails an
assertion. -/
theorem not_lineInBounds :
    (¬LineInBounds LineEnv.plenty ⟨[], not_mem_nil⟩ ∧
      parseLine LineEnv.plenty [] = .panic .name) ∧
    ¬LineInBounds LineEnv.plenty longLine ∧
      parseLine LineEnv.plenty (fnCopy longLine) = .panic .fname := by
  have hline : fnCopy longLine = replicate fnameSize 97 :=
    take_of_length_le (by rw [longLine, length_replicate]; decide)
  have hlong : parseLine LineEnv.plenty (fnCopy longLine) = .panic .fname := by
    have hcopy : copyLine LineEnv.plenty.fname (fnCopy longLine) = .panic .fname := by
      refine storeBytes_panic _ _ (Nat.zero_le _) ?_
      rw [hline, length_append, length_replicate]
      decide
    rw [parseLine, hcopy]
    rfl
  refine ⟨⟨fun h => ?_, rfl⟩, fun h => ?_, hlong⟩
  · have hblank : IsBlank (fnCopy ⟨[], not_mem_nil⟩) := by decide
    rw [LineInBounds, if_pos hblank, loadLine] at h
    obtain ⟨p, hparse, -⟩ := Outcome.bind_eq_ok.mp h
    exact parseLine_blank hblank hparse
  · have hwords : ¬IsBlank (fnCopy longLine) := fun hblank => by
      rw [hline] at hblank
      exact absurd (hblank 97 (mem_replicate.mpr ⟨by decide, rfl⟩)) (by decide)
    rw [LineInBounds, if_neg hwords] at h
    obtain ⟨p, hparse, -⟩ := h
    rw [hlong] at hparse
    cases hparse

end Pintos
