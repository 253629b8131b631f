import Mathlib.Algebra.BigOperators.Fin
import Mathlib.Algebra.Order.BigOperators.Group.List
import Mathlib.Data.List.TakeWhile
import Pintos.Filesys

/-!
# Archive Headers

`lib/ustar.c`: a file in an archive is preceded by a header of one sector, which has the
file's name, its size as an octal number and a checksum, at fixed places. `ustar_make_header`
writes a header and `ustar_parse_header` reads one; a sector of zeros is the end of the archive.

## Main results

* `Ustar.parseOctalField_octal`: a number that was written is read back.
* `Ustar.ustar_roundTrip`: a header that was made is read back, and a changed one is rejected.
-/

namespace Pintos

open Verif List Function

namespace Ustar

/-! ### The header -/

/-- The place of a field of `struct ustar_header`, which takes a sector. -/
structure Field where
  ofs : ℕ
  size : ℕ
  fits : ofs + size ≤ blockSectorSize

/-- `name`. -/
def nameField : Field := ⟨0, 100, by decide⟩

/-- `mode`. -/
def modeField : Field := ⟨100, 8, by decide⟩

/-- `uid`. -/
def uidField : Field := ⟨108, 8, by decide⟩

/-- `gid`. -/
def gidField : Field := ⟨116, 8, by decide⟩

/-- `size`. -/
def sizeField : Field := ⟨124, 12, by decide⟩

/-- `mtime`. -/
def mtimeField : Field := ⟨136, 12, by decide⟩

/-- `chksum`. -/
def chksumField : Field := ⟨148, 8, by decide⟩

/-- `typeflag`. -/
def typeflagField : Field := ⟨156, 1, by decide⟩

/-- `magic`, after the name of a link. -/
def magicField : Field := ⟨257, 6, by decide⟩

/-- `version`. -/
def versionField : Field := ⟨263, 2, by decide⟩

/-- `uname`. -/
def unameField : Field := ⟨265, 32, by decide⟩

/-- `gname`. -/
def gnameField : Field := ⟨297, 32, by decide⟩

/-- `prefix`, after the numbers of a device. -/
def prefixField : Field := ⟨345, 155, by decide⟩

/-- `enum ustar_type`, without the end of the archive. -/
inductive FileType where
  | regular
  | directory
  deriving DecidableEq, Repr

/-- The byte of a type in a header. -/
def FileType.flag : FileType → UInt8
  | regular => 48
  | directory => 53

/-- The bytes of a field. -/
def get (h : Sector) (f : Field) : List UInt8 :=
  (List.range f.size).map fun i => h (Fin.ofNat _ (f.ofs + i))

/-- Store bytes at the beginning of a field. -/
def store (h : Sector) (f : Field) (bytes : List UInt8) : Sector := fun i =>
  if f.ofs ≤ i.val ∧ i.val < f.ofs + bytes.length then bytes.getD (i - f.ofs) 0 else h i

/-- `strlcpy` or `snprintf` to a field: as much of the text as there is room for, and a
terminator. -/
def strlcpy (h : Sector) (f : Field) (text : List UInt8) : Sector :=
  store h f (text.take (f.size - 1) ++ [0])

/-- The octal digits of a number, with zeros on the left: the text that the format of `width`
digits stands for. None of the numbers that it is used for has more digits. -/
def octal : (width : ℕ) → (n : ℕ) → List UInt8
  | 0, _ => []
  | width + 1, n => octal width (n / 8) ++ [UInt8.ofNat (48 + n % 8)]

/-- `calculate_chksum`: the field of the checksum counts as if it were all spaces. -/
def calculateChksum (h : Sector) : ℕ :=
  ((List.finRange blockSectorSize).map fun i =>
    if chksumField.ofs ≤ i.val ∧ i.val < chksumField.ofs + chksumField.size then 32
    else (h i).toNat).sum

/-! ### Names -/

/-- The name begins with `/`, `./` or `../`. -/
def Antisocial (name : List UInt8) : Prop :=
  [47].isPrefixOf name = true ∨ [46, 47].isPrefixOf name = true ∨
    [46, 46, 47].isPrefixOf name = true

instance (name : List UInt8) : Decidable (Antisocial name) :=
  inferInstanceAs (Decidable (_ ∨ _ ∨ _))

/-- What follows the first slash. -/
def afterSlash (name : List UInt8) : List UInt8 := (name.dropWhile (· ≠ 47)).drop 1

/-- The loop of `strip_antisocial_prefixes`; every round makes the name shorter. -/
def stripLoop : (fuel : ℕ) → List UInt8 → List UInt8
  | 0, name => name
  | fuel + 1, name => if Antisocial name then stripLoop fuel (afterSlash name) else name

/-- `strip_antisocial_prefixes`. -/
def stripAntisocialPrefixes (name : List UInt8) : List UInt8 :=
  let name := stripLoop name.length name
  if name = [] ∨ name = [46, 46] then [46] else name

theorem not_mem_stripLoop {fuel : ℕ} {name : List UInt8} (h : 0 ∉ name) :
    0 ∉ stripLoop fuel name := by
  induction fuel generalizing name with
  | zero => exact h
  | succ fuel ih =>
    rw [stripLoop]
    split
    · refine ih fun hmem => h ?_
      exact (dropWhile_sublist _).subset (mem_of_mem_drop hmem)
    · exact h

theorem not_mem_strip {name : List UInt8} (h : 0 ∉ name) : 0 ∉ stripAntisocialPrefixes name := by
  rw [stripAntisocialPrefixes]
  split
  · decide
  · exact not_mem_stripLoop h

/-- The loop ends with a name that it leaves alone. -/
theorem not_antisocial_stripLoop {fuel : ℕ} {name : List UInt8} (h : name.length ≤ fuel) :
    ¬Antisocial (stripLoop fuel name) := by
  induction fuel generalizing name with
  | zero =>
    rw [length_eq_zero_iff.mp (Nat.le_zero.mp h)]
    decide
  | succ fuel ih =>
    rw [stripLoop]
    split_ifs with hanti
    · refine ih ?_
      have hle := length_dropWhile_le (· ≠ 47) name
      rw [afterSlash, length_drop]
      omega
    · exact hanti

/-- **Stripping a name twice** is the same as stripping it once. -/
theorem strip_strip (name : List UInt8) :
    stripAntisocialPrefixes (stripAntisocialPrefixes name) = stripAntisocialPrefixes name := by
  have hloop := not_antisocial_stripLoop (Nat.le_refl name.length)
  rw [stripAntisocialPrefixes.eq_def name]
  dsimp only
  split_ifs with hdot
  · rfl
  · have hfix : ∀ fuel,
        stripLoop fuel (stripLoop name.length name) = stripLoop name.length name := by
      intro fuel
      cases fuel with
      | zero => rfl
      | succ fuel => rw [stripLoop, if_neg hloop]
    rw [stripAntisocialPrefixes, hfix]
    exact if_neg hdot

/-! ### Writing a header -/

/-- The header that `ustar_make_header` fills in, except for the final checksum. -/
def fillHeader (fileName : List UInt8) (type : FileType) (size : ℤ) : Sector :=
  let h := strlcpy zeros nameField fileName
  let h := strlcpy h modeField (octal 7 (if type = .regular then 0o644 else 0o755))
  let h := strlcpy h uidField (octal 7 0)
  let h := strlcpy h gidField (octal 7 0)
  let h := strlcpy h sizeField (octal 11 (size % 2 ^ 32).toNat)
  let h := strlcpy h mtimeField (octal 11 1136102400)
  let h := store h typeflagField [type.flag]
  -- the text is "ustar"
  let h := strlcpy h magicField [117, 115, 116, 97, 114]
  let h := store h versionField [48, 48]
  -- the text is "root"
  let h := strlcpy h gnameField [114, 111, 111, 116]
  strlcpy h unameField [114, 111, 111, 116]

/-- The header with its checksum. -/
def storeChksum (h : Sector) : Sector := strlcpy h chksumField (octal 7 (calculateChksum h))

/-- `ustar_make_header`; it fails if the name is too long. -/
def makeHeader (fileName : List UInt8) (type : FileType) (size : ℤ) : Option Sector :=
  let fileName := stripAntisocialPrefixes fileName
  if 99 < fileName.length then
    none
  else
    some (storeChksum (fillHeader fileName type size))

/-! ### Reading a header -/

/-- The loop of `parse_octal_field`, after `ofs` digits. -/
def parseOctal : (value ofs : ℕ) → List UInt8 → Option ℕ
  | _, _, [] => none
  | value, ofs, c :: cs =>
    if 48 ≤ c ∧ c ≤ 55 then
      if (2 ^ 32 - 1) / 8 < value then
        none
      else
        parseOctal (c.toNat - 48 + value * 8) (ofs + 1) cs
    else if c = 32 ∨ c = 0 then
      if 0 < ofs then some value else none
    else
      none

/-- `parse_octal_field`. -/
def parseOctalField (s : List UInt8) : Option ℕ := parseOctal 0 0 s

/-- `is_all_zeros`. -/
def isAllZeros (h : Sector) : Bool := (List.finRange blockSectorSize).all fun i => h i = 0

/-- What a header says. -/
inductive Entry where
  | eof
  | file (name : CString) (type : FileType) (size : ℕ)
  deriving DecidableEq, Repr

/-- The name in a header. -/
def nameOf (h : Sector) : CString :=
  ⟨stripAntisocialPrefixes ((get h nameField).takeWhile (· ≠ 0)), not_mem_strip (by
    intro hmem
    simpa using List.mem_takeWhile_imp hmem)⟩

/-- The rest of `ustar_parse_header`, once the type is known. -/
def parseFile (h : Sector) : FileType → Except String Entry
  | .regular =>
    match parseOctalField (get h sizeField) with
    | none => .error "corrupt file size field"
    | some size =>
      if 2 ^ 31 - 1 < size then
        .error "file too large"
      else
        .ok (.file (nameOf h) .regular size)
  | .directory => .ok (.file (nameOf h) .directory 0)

/-- `ustar_parse_header`: what the header says, or an error message. -/
def parseHeader (h : Sector) : Except String Entry :=
  if isAllZeros h then
    .ok .eof
  else if get h magicField ≠ [117, 115, 116, 97, 114, 0] then
    .error "not a ustar archive"
  else if get h versionField ≠ [48, 48] then
    .error "invalid ustar version"
  else
    match parseOctalField (get h chksumField) with
    | none => .error "corrupt chksum field"
    | some chksum =>
      if chksum ≠ calculateChksum h then
        .error "checksum mismatch"
      else if (get h nameField).getD 99 0 ≠ 0 ∨ (get h prefixField).getD 0 0 ≠ 0 then
        .error "file name too long"
      else if get h typeflagField = [FileType.regular.flag] then
        parseFile h .regular
      else if get h typeflagField = [FileType.directory.flag] then
        parseFile h .directory
      else
        .error "unimplemented file type"

/-! ### Numbers -/

theorem length_octal (width n : ℕ) : (octal width n).length = width := by
  induction width generalizing n with
  | zero => rfl
  | succ width ih => rw [octal, length_append, ih, length_singleton]

/-- One digit is read. -/
theorem parseOctal_digit {value ofs d : ℕ} {cs : List UInt8} (hd : d < 8)
    (hvalue : value ≤ (2 ^ 32 - 1) / 8) :
    parseOctal value ofs (UInt8.ofNat (48 + d) :: cs) =
      parseOctal (d + value * 8) (ofs + 1) cs := by
  have hnat : (UInt8.ofNat (48 + d)).toNat = 48 + d := by
    rw [UInt8.toNat_ofNat', Nat.mod_eq_of_lt (by omega)]
  have hdigit : 48 ≤ UInt8.ofNat (48 + d) ∧ UInt8.ofNat (48 + d) ≤ 55 := by
    rw [UInt8.le_iff_toNat_le, UInt8.le_iff_toNat_le, hnat]
    exact ⟨Nat.le_add_right 48 d, by show 48 + d ≤ 55; omega⟩
  rw [parseOctal, if_pos hdigit, if_neg (Nat.not_lt.mpr hvalue), hnat, Nat.add_sub_cancel_left]

/-- The digits of a number are read, and what follows them after that. -/
theorem parseOctal_octal {width n value ofs : ℕ} {cs : List UInt8} (hn : n < 8 ^ width)
    (hvalue : value * 8 ^ width + n < 2 ^ 32) :
    parseOctal value ofs (octal width n ++ cs) =
      parseOctal (value * 8 ^ width + n) (ofs + width) cs := by
  induction width generalizing n cs with
  | zero =>
    obtain rfl : n = 0 := by omega
    rw [octal, pow_zero, Nat.mul_one]
    rfl
  | succ width ih =>
    -- the last digit comes after the others
    have hdiv : n / 8 < 8 ^ width := by
      rw [pow_succ] at hn
      omega
    have hsum : (value * 8 ^ width + n / 8) * 8 + n % 8 = value * 8 ^ (width + 1) + n := by
      rw [pow_succ, Nat.add_mul, Nat.mul_assoc]
      omega
    rw [octal, append_assoc, ih hdiv (by omega), singleton_append,
      parseOctal_digit (Nat.mod_lt _ (by decide)) (by omega), Nat.add_assoc, Nat.add_comm (n % 8),
      hsum]

/-- **A number that was written is read back.** -/
theorem parseOctalField_octal {width n : ℕ} (hwidth : 0 < width) (hn : n < 8 ^ width)
    (hlt : n < 2 ^ 32) : parseOctalField (octal width n ++ [0]) = some n := by
  rw [parseOctalField, parseOctal_octal hn (by omega), Nat.zero_mul, Nat.zero_add, Nat.zero_add,
    parseOctal, if_neg (by decide), if_pos (.inr rfl), if_pos hwidth]

/-! ### Fields -/

section

variable {h h' : Sector} {f g : Field} {bytes text : List UInt8} {i : ℕ}

theorem length_get (h : Sector) (f : Field) : (get h f).length = f.size := by
  rw [get, length_map, length_range]

/-- The bytes of the field are within the sector. -/
theorem Field.val_ofNat (f : Field) (hi : i < f.size) :
    (Fin.ofNat blockSectorSize (f.ofs + i)).val = f.ofs + i := by
  have := f.fits
  rw [Fin.val_ofNat, Nat.mod_eq_of_lt (by omega)]

/-- A field depends on its own bytes only. -/
theorem get_congr
    (hsame : ∀ i : Fin blockSectorSize, f.ofs ≤ i.val → i.val < f.ofs + f.size → h' i = h i) :
    get h' f = get h f := by
  refine map_congr_left fun i hi => hsame _ ?_ ?_
  · rw [f.val_ofNat (mem_range.mp hi)]
    exact Nat.le_add_right _ _
  · rw [f.val_ofNat (mem_range.mp hi)]
    exact Nat.add_lt_add_left (mem_range.mp hi) _

/-- Another field is left as it is. -/
theorem get_store_of_disjoint (hlength : bytes.length ≤ f.size)
    (hdisjoint : g.ofs + g.size ≤ f.ofs ∨ f.ofs + f.size ≤ g.ofs) :
    get (store h f bytes) g = get h g := by
  refine get_congr fun i h₁ h₂ => ?_
  rw [store, if_neg (by omega)]

/-- What is stored to a field is read back, with what was in the rest of it. -/
theorem get_store (hlength : bytes.length ≤ f.size) :
    get (store h f bytes) f = bytes ++ (get h f).drop bytes.length := by
  refine ext_getElem ?_ fun i h₁ h₂ => ?_
  · simp only [get, length_map, length_range, length_append, length_drop]
    omega
  · have hi : i < f.size := by simpa [get] using h₁
    simp only [get, getElem_map, getElem_range, store, f.val_ofNat hi,
      Nat.add_sub_cancel_left]
    by_cases hlt : i < bytes.length
    · rw [if_pos (by omega), getElem_append_left hlt, getD_eq_getElem?_getD,
        getElem?_eq_getElem hlt, Option.getD_some]
    · rw [if_neg (by omega), getElem_append_right (Nat.le_of_not_lt hlt), getElem_drop,
        getElem_map, getElem_range, Nat.add_sub_cancel' (Nat.le_of_not_lt hlt)]

theorem length_terminated (hsize : 0 < f.size) :
    (text.take (f.size - 1) ++ [0]).length ≤ f.size := by
  rw [length_append, length_take, length_singleton]
  omega

theorem get_strlcpy_of_disjoint (hsize : 0 < f.size)
    (hdisjoint : g.ofs + g.size ≤ f.ofs ∨ f.ofs + f.size ≤ g.ofs) :
    get (strlcpy h f text) g = get h g :=
  get_store_of_disjoint (length_terminated hsize) hdisjoint

/-- A text that there is room for is read back. -/
theorem get_strlcpy (htext : text.length < f.size) :
    get (strlcpy h f text) f = text ++ 0 :: (get h f).drop (text.length + 1) := by
  rw [strlcpy, get_store (length_terminated (by omega)), take_of_length_le (by omega),
    length_append, append_assoc, singleton_append, length_singleton]

theorem get_zeros (f : Field) : get zeros f = replicate f.size 0 := by
  rw [get, eq_replicate_iff]
  simp [zeros]

/-- A sector of zeros has fields of zeros. -/
theorem get_of_isAllZeros (hzeros : isAllZeros h = true) : get h f = replicate f.size 0 := by
  rw [← get_zeros]
  refine get_congr fun i _ _ => ?_
  exact of_decide_eq_true (all_eq_true.mp hzeros i (mem_finRange i))

/-- The checksum's own field does not count. -/
theorem calculateChksum_strlcpy (h : Sector) (text : List UInt8) :
    calculateChksum (strlcpy h chksumField text) = calculateChksum h := by
  refine congrArg sum (map_congr_left fun i _ => ?_)
  split_ifs with hi
  · rfl
  · have hlength : (text.take (chksumField.size - 1) ++ [0]).length ≤ chksumField.size :=
      length_terminated (by decide)
    rw [strlcpy, store, if_neg (by omega)]

theorem calculateChksum_lt (h : Sector) : calculateChksum h < 2 ^ 17 := by
  have hle : ∀ n ∈ (finRange blockSectorSize).map (fun i =>
      if chksumField.ofs ≤ i.val ∧ i.val < chksumField.ofs + chksumField.size then 32
      else (h i).toNat), n ≤ 255 := by
    intro n hn
    obtain ⟨i, -, rfl⟩ := mem_map.mp hn
    split
    · decide
    · exact Nat.le_of_lt_succ (h i).toNat_lt
  refine lt_of_le_of_lt (sum_le_card_nsmul _ 255 hle) ?_
  rw [length_map, length_finRange]
  decide

end

/-! ### Round trip -/

/-- The fields of a header that was filled in. -/
theorem get_fillHeader {name : List UInt8} (hname : name.length < nameField.size) (type : FileType)
    {size : ℕ} (hsize : size < 2 ^ 32) :
    get (fillHeader name type size) magicField = [117, 115, 116, 97, 114, 0] ∧
    get (fillHeader name type size) versionField = [48, 48] ∧
    get (fillHeader name type size) typeflagField = [type.flag] ∧
    get (fillHeader name type size) sizeField = octal 11 size ++ [0] ∧
    get (fillHeader name type size) nameField =
      name ++ replicate (nameField.size - name.length) 0 ∧
    get (fillHeader name type size) prefixField = replicate prefixField.size 0 := by
  have hmod : ((size : ℤ) % 2 ^ 32).toNat = size := by omega
  have hflag : [type.flag].length ≤ typeflagField.size := Nat.le_refl 1
  refine ⟨?_, ?_, ?_, ?_, ?_, ?_⟩ <;>
    simp (disch := decide) only
      [fillHeader, get_strlcpy_of_disjoint, get_store_of_disjoint, get_store_of_disjoint hflag]
  · rw [get_strlcpy (by decide), drop_eq_nil_of_le (by rw [length_get]; decide)]
    rfl
  · rw [get_store (by decide), drop_eq_nil_of_le (by rw [length_get]; decide)]
    rfl
  · rw [get_store hflag, drop_eq_nil_of_le (by rw [length_get]; exact Nat.le_refl 1)]
    rfl
  · rw [hmod, get_strlcpy (by rw [length_octal]; decide),
      drop_eq_nil_of_le (by rw [length_get, length_octal]; decide)]
  · rw [get_strlcpy hname, get_zeros, drop_replicate, ← replicate_succ]
    congr 2
    omega
  · exact get_zeros _

/-- The checksum is stored, and nothing else is changed. -/
theorem get_storeChksum (h : Sector) {g : Field}
    (hg : g.ofs + g.size ≤ chksumField.ofs ∨ chksumField.ofs + chksumField.size ≤ g.ofs) :
    get (storeChksum h) g = get h g :=
  get_strlcpy_of_disjoint (by decide) hg

/-- The checksum that is read back is that of the header. -/
theorem parseOctalField_storeChksum (h : Sector) :
    parseOctalField (get (storeChksum h) chksumField) = some (calculateChksum (storeChksum h)) := by
  have hlt := calculateChksum_lt h
  rw [storeChksum, calculateChksum_strlcpy, get_strlcpy (by rw [length_octal]; decide),
    drop_eq_nil_of_le (by rw [length_get, length_octal]; decide)]
  exact parseOctalField_octal (by decide) (by omega) (by omega)

/-- A header with a checksum is not one of zeros. -/
theorem isAllZeros_of_chksum {h : Sector} {n : ℕ}
    (hparse : parseOctalField (get h chksumField) = some n) : isAllZeros h = false := by
  refine Bool.eq_false_iff.mpr fun hall => ?_
  rw [get_of_isAllZeros hall] at hparse
  cases hparse

/-- The name that is read back. -/
theorem nameOf_storeChksum {h : Sector} {name : CString} {n : ℕ}
    (hstrip : stripAntisocialPrefixes name.1 = name.1)
    (hname : get h nameField = name.1 ++ replicate n 0) : nameOf (storeChksum h) = name := by
  have htake : (name.1 ++ replicate n 0).takeWhile (· ≠ 0) = name.1 := by
    rw [takeWhile_append_of_pos]
    · cases n <;> simp [replicate_succ]
    · intro b hb
      simpa using fun h : b = 0 => name.2 (h ▸ hb)
  refine Subtype.ext ?_
  show stripAntisocialPrefixes _ = _
  rw [get_storeChksum h (by decide), hname, htake, hstrip]

/-- What is read back of a header that was filled in. -/
theorem parseHeader_storeChksum (name : CString) (type : FileType) {size : ℕ}
    (hstrip : stripAntisocialPrefixes name.1 = name.1) (hname : name.1.length ≤ 99)
    (hsize : size < 2 ^ 31) :
    parseHeader (storeChksum (fillHeader name.1 type size)) =
      .ok (.file name type (if type = .regular then size else 0)) := by
  have hlt : name.1.length < nameField.size := Nat.lt_of_le_of_lt hname (by decide)
  obtain ⟨hmagic, hversion, htype, hsizeField, hnameField, hbefore⟩ :=
    get_fillHeader hlt type (show size < 2 ^ 32 by omega)
  generalize fillHeader name.1 type size = h at *
  have hlast : ((get h nameField).getD 99 0) = 0 := by
    rw [hnameField, getD_eq_getElem?_getD, getElem?_append_right hname,
      getElem?_replicate]
    split <;> rfl
  have hfirst : ((get h prefixField).getD 0 0) = 0 := by
    rw [hbefore]
    rfl
  rw [parseHeader, isAllZeros_of_chksum (parseOctalField_storeChksum h), if_neg Bool.false_ne_true,
    get_storeChksum h (by decide), hmagic, if_neg (not_not.mpr rfl), get_storeChksum h (by decide),
    hversion, if_neg (not_not.mpr rfl), parseOctalField_storeChksum]
  dsimp only
  rw [if_neg (not_not.mpr rfl), get_storeChksum h (by decide), get_storeChksum h (by decide),
    get_storeChksum h (by decide), if_neg (not_or.mpr ⟨not_not.mpr hlast, not_not.mpr hfirst⟩),
    htype]
  cases type with
  | regular =>
    rw [if_pos rfl, parseFile, get_storeChksum h (by decide), hsizeField,
      parseOctalField_octal (by decide) (by omega) (by omega)]
    dsimp only
    rw [if_neg (by omega), nameOf_storeChksum hstrip hnameField, if_pos rfl]
  | directory =>
    rw [if_neg (by decide), if_pos rfl, parseFile, nameOf_storeChksum hstrip hnameField,
      if_neg (by decide)]

/-- A byte that is changed changes the checksum by as much. -/
theorem calculateChksum_update (h : Sector) {i : Fin blockSectorSize} (b : UInt8)
    (hi : ¬(chksumField.ofs ≤ i.val ∧ i.val < chksumField.ofs + chksumField.size)) :
    calculateChksum (update h i b) + (h i).toNat = calculateChksum h + b.toNat := by
  have hsum : ∀ h : Sector, calculateChksum h = (h i).toNat +
      ∑ j ∈ Finset.univ.erase i, if chksumField.ofs ≤ j.val ∧
        j.val < chksumField.ofs + chksumField.size then 32 else (h j).toNat := by
    intro h
    rw [calculateChksum, ← Fin.sum_univ_def, ← Finset.add_sum_erase _ _ (Finset.mem_univ i),
      if_neg hi]
  rw [hsum, hsum, update_self]
  have hrest : ∀ j ∈ Finset.univ.erase i, update h i b j = h j := fun j hj =>
    update_of_ne (Finset.ne_of_mem_erase hj) _ _
  rw [Finset.sum_congr rfl fun j hj => by rw [hrest j hj]]
  omega

/-- **A changed header is rejected**, wherever outside the checksum a byte was changed. -/
theorem parseHeader_update (h : Sector) {i : Fin blockSectorSize} {b : UInt8}
    (hi : ¬(chksumField.ofs ≤ i.val ∧ i.val < chksumField.ofs + chksumField.size))
    (hb : b ≠ storeChksum h i) :
    ∃ message, parseHeader (update (storeChksum h) i b) = .error message := by
  have hfield : get (update (storeChksum h) i b) chksumField =
      get (storeChksum h) chksumField := by
    refine get_congr fun j h₁ h₂ => update_of_ne ?_ _ _
    rintro rfl
    exact hi ⟨h₁, h₂⟩
  have hparse := parseOctalField_storeChksum h
  have hsum := calculateChksum_update (storeChksum h) b hi
  have hne : calculateChksum (storeChksum h) ≠
      calculateChksum (update (storeChksum h) i b) := by
    intro heq
    refine hb (UInt8.toNat_inj.mp ?_)
    omega
  rw [← hfield] at hparse
  rw [parseHeader, isAllZeros_of_chksum hparse, if_neg Bool.false_ne_true, hparse]
  dsimp only
  rw [if_pos hne]
  split_ifs <;> exact ⟨_, rfl⟩

/-- **Headers of archives**: a name is refused exactly if it is too long when it is stripped, what
was written is read back, and a header of which one byte was changed is rejected. -/
theorem ustar_roundTrip (fileName : CString) (type : FileType) (size : ℕ) (hsize : size < 2 ^ 31) :
    (makeHeader fileName.1 type size = none ↔
      99 < (stripAntisocialPrefixes fileName.1).length) ∧
    ∀ h, makeHeader fileName.1 type size = some h →
      parseHeader h = .ok (.file ⟨stripAntisocialPrefixes fileName.1, not_mem_strip fileName.2⟩
        type (if type = .regular then size else 0)) ∧
      ∀ (i : Fin blockSectorSize) (b : UInt8),
        ¬(chksumField.ofs ≤ i.val ∧ i.val < chksumField.ofs + chksumField.size) → b ≠ h i →
          ∃ message, parseHeader (update h i b) = .error message := by
  rw [makeHeader]
  by_cases hlong : 99 < (stripAntisocialPrefixes fileName.1).length
  · rw [if_pos hlong]
    exact ⟨iff_of_true rfl hlong, nofun⟩
  · rw [if_neg hlong]
    refine ⟨iff_of_false (Option.some_ne_none _) hlong, ?_⟩
    rintro h ⟨⟩
    exact ⟨parseHeader_storeChksum ⟨_, not_mem_strip fileName.2⟩ type
      (strip_strip fileName.1) (Nat.le_of_not_lt hlong) hsize,
      fun i b hi hb => parseHeader_update _ hi hb⟩

/-- The file `./a` is archived as `a`. -/
theorem ustar_roundTrip_dot : ∃ h, makeHeader [46, 47, 97] .regular 5 = some h ∧
    parseHeader h = .ok (.file ⟨[97], by decide⟩ .regular 5) :=
  ⟨_, rfl, ((ustar_roundTrip ⟨[46, 47, 97], by decide⟩ .regular 5 (by decide)).2 _ rfl).1⟩

end Ustar

end Pintos
