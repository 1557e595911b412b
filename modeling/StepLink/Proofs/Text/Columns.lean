import Mathlib.Order.Monotone.Defs
import Mathlib.Order.Nat
import StepLink.Proofs.Text.Units

/-! Byte offsets and columns as two ways to count along a line. Up to the end of the line, a byte offset has a column no
larger than a given one exactly if it is itself no larger than the byte offset of that column. From this follow the order
of both conversions and what is left of an offset or a column that is turned into the other and back: each boundary of
characters is met again, a column inside of a surrogate pair goes to the start of the pair, and one behind the line to its
end. On a line of which the units have numbers, running sums in words of 32 bits come to the same. -/

namespace StepLink.Text

variable {line : Text} {byte column : Nat} {sum : UInt32}

/-- The byte offset is one at which a character of the line starts, or that of its end. -/
def IsBoundary (line : Text) (byte : Nat) : Prop :=
  ∃ before after, line = before ++ after ∧ byte = utf8Length before

/-- The code units that stand second in a pair, and nowhere else. -/
def isLowSurrogate (unit : Nat) : Bool :=
  decide (0xdc00 ≤ unit ∧ unit < 0xe000)

/-- The column is the one between the two units of a surrogate pair. -/
def SplitsPair (line : Text) (column : Nat) : Prop :=
  (utf16 line)[column]?.any isLowSurrogate = true

instance (line : Text) (column : Nat) : Decidable (SplitsPair line column) :=
  inferInstanceAs (Decidable (_ = true))

theorem IsBoundary.le (h : IsBoundary line byte) : byte ≤ utf8Length line := by
  obtain ⟨before, after, rfl, rfl⟩ := h
  rw [utf8Length_append]
  exact Nat.le_add_right _ _

/-- No character has the number of a surrogate, or one that two units cannot hold. -/
theorem toNat_range (c : Char) : c.toNat < 0xd800 ∨ 0xdfff < c.toNat ∧ c.toNat < 0x110000 :=
  c.valid

theorem not_isLowSurrogate_toNat (c : Char) : isLowSurrogate c.toNat = false := by
  have hrange := toNat_range c
  rw [isLowSurrogate, decide_eq_false_iff_not]
  omega

/-- The second unit of a character is a low surrogate, and no other one is. -/
theorem any_isLowSurrogate_codeUnits (c : Char) (i : Nat) :
    (codeUnits c)[i]?.any isLowSurrogate = true ↔ i = 1 ∧ unitsOf c = 2 := by
  rw [codeUnits, unitsOf]
  split
  next hsingle => cases i <;> simp [not_isLowSurrogate_toNat]
  next hpair =>
    have hrange := toNat_range c
    rcases i with _ | _ | i
    · have hhigh : isLowSurrogate (0xd800 + (c.toNat - 0x10000) / 0x400) = false := by
        rw [isLowSurrogate, decide_eq_false_iff_not]
        omega
      rw [List.getElem?_cons_zero, Option.any_some, hhigh]
      exact iff_of_false Bool.false_ne_true fun h => absurd h.1 Nat.zero_ne_one
    · have hlow : isLowSurrogate (0xdc00 + (c.toNat - 0x10000) % 0x400) = true := by
        rw [isLowSurrogate, decide_eq_true_iff]
        omega
      rw [List.getElem?_cons_succ, List.getElem?_cons_zero, Option.any_some, hlow]
      exact iff_of_true rfl ⟨rfl, rfl⟩
    · exact iff_of_false Bool.false_ne_true fun h => absurd h.1 (by omega)

/-- Among the units of one character of a line, a column is inside of a pair if it is that of the second one. -/
theorem splitsPair_append_cons_iff (before after : Text) (c : Char) {i : Nat} (hi : i < unitsOf c) :
    SplitsPair (before ++ c :: after) (units before + i) ↔ i = 1 ∧ unitsOf c = 2 := by
  have hbehind : (utf16 before).length ≤ units before + i := by
    rw [length_utf16]
    exact Nat.le_add_right _ _
  have hunit : (utf16 (before ++ c :: after))[units before + i]? = (codeUnits c)[i]? := by
    rw [utf16_append, List.getElem?_append_right hbehind, length_utf16, Nat.add_sub_cancel_left, utf16,
      List.flatMap_cons, List.getElem?_append_left (by rwa [length_codeUnits])]
  rw [SplitsPair, hunit, any_isLowSurrogate_codeUnits]

theorem not_splitsPair_of_units_le (h : units line ≤ column) : ¬SplitsPair line column := by
  rw [SplitsPair, List.getElem?_eq_none (by rwa [length_utf16])]
  exact Bool.false_ne_true

theorem SplitsPair.pos (h : SplitsPair line column) : 0 < column := by
  cases line with
  | nil => exact absurd h (not_splitsPair_of_units_le (Nat.zero_le _))
  | cons c line =>
    refine Nat.pos_of_ne_zero fun hzero => ?_
    rw [hzero] at h
    have hfirst := (splitsPair_append_cons_iff [] line c (unitsOf_pos c)).mp h
    exact absurd hfirst.1 Nat.zero_ne_one

/-- The two conversions are adjoint: up to the end of a line, the column of a byte offset is not above another column
exactly if the offset is not above that of this column. -/
theorem columnOfByte_le_iff (h : byte ≤ utf8Length line) :
    columnOfByte line byte ≤ column ↔ byte ≤ byteOfColumn line column := by
  induction line generalizing byte column with
  | nil =>
    rw [Nat.le_zero.mp h]
    exact iff_of_true (Nat.zero_le _) (Nat.zero_le _)
  | cons c line ih =>
    rw [utf8Length_cons] at h
    rw [columnOfByte, byteOfColumn]
    by_cases hstart : byte = 0
    · rw [hstart, if_pos rfl]
      exact iff_of_true (Nat.zero_le _) (Nat.zero_le _)
    · rw [if_neg hstart]
      split
      next hbeyond => exact iff_of_false (by omega) (by omega)
      next hfits =>
        have hrest : columnOfByte line (byte - c.utf8Size) ≤ column - unitsOf c ↔
            byte - c.utf8Size ≤ byteOfColumn line (column - unitsOf c) := ih (by omega)
        omega

/-- A byte offset behind a line counts as that of its end. -/
theorem columnOfByte_of_le (h : utf8Length line ≤ byte) : columnOfByte line byte = units line := by
  induction line generalizing byte with
  | nil => rfl
  | cons c line ih =>
    have hpos := c.utf8Size_pos
    rw [utf8Length_cons] at h
    rw [columnOfByte, if_neg (by omega), ih (by omega), units_cons]

theorem isBoundary_byteOfColumn (line : Text) (column : Nat) : IsBoundary line (byteOfColumn line column) := by
  obtain ⟨before, after, hline, hbyte, -⟩ := exists_byteOfColumn line column
  exact ⟨before, after, hline, hbyte⟩

theorem byteOfColumn_le (line : Text) (column : Nat) : byteOfColumn line column ≤ utf8Length line :=
  (isBoundary_byteOfColumn line column).le

theorem byteOfColumn_units_self (line : Text) : byteOfColumn line (units line) = utf8Length line := by
  have hend := byteOfColumn_units line []
  rwa [List.append_nil] at hend

theorem columnOfByte_le_units (line : Text) (byte : Nat) : columnOfByte line byte ≤ units line := by
  rcases Nat.le_total byte (utf8Length line) with hwithin | hbehind
  · rwa [columnOfByte_le_iff hwithin, byteOfColumn_units_self]
  · exact (columnOfByte_of_le hbehind).le

/-- A column is not passed by way of its byte offset. -/
theorem columnOfByte_byteOfColumn_le (line : Text) (column : Nat) :
    columnOfByte line (byteOfColumn line column) ≤ column :=
  (columnOfByte_le_iff (byteOfColumn_le line column)).mpr le_rfl

theorem monotone_columnOfByte (line : Text) : Monotone (columnOfByte line) := by
  intro byte byte' hle
  rcases Nat.le_total byte' (utf8Length line) with hwithin | hbehind
  · apply (columnOfByte_le_iff (hle.trans hwithin)).mpr
    calc byte ≤ byte' := hle
      _ ≤ byteOfColumn line (columnOfByte line byte') := (columnOfByte_le_iff hwithin).mp le_rfl
  · rw [columnOfByte_of_le hbehind]
    exact columnOfByte_le_units line byte

theorem monotone_byteOfColumn (line : Text) : Monotone (byteOfColumn line) := by
  intro column column' hle
  apply (columnOfByte_le_iff (byteOfColumn_le line column)).mp
  calc columnOfByte line (byteOfColumn line column) ≤ column := columnOfByte_byteOfColumn_le line column
    _ ≤ column' := hle

/-! ### There and back -/

/-- Exactly the boundaries of characters are met again by way of their columns. -/
theorem byteOfColumn_columnOfByte_eq_iff :
    byteOfColumn line (columnOfByte line byte) = byte ↔ IsBoundary line byte := by
  constructor
  · intro h
    rw [← h]
    exact isBoundary_byteOfColumn line _
  · rintro ⟨before, after, rfl, rfl⟩
    rw [columnOfByte_utf8Length, byteOfColumn_units]

/-- A column inside of a surrogate pair goes back to the start of the pair, and one behind the line to its end. Any other
one is met again. -/
theorem columnOfByte_byteOfColumn (line : Text) (column : Nat) :
    columnOfByte line (byteOfColumn line column) =
      if SplitsPair line column then column - 1 else min column (units line) := by
  obtain ⟨before, after, rfl, hbyte, hunits, hnext⟩ := exists_byteOfColumn line column
  rw [hbyte, columnOfByte_utf8Length]
  cases after with
  | nil => rw [List.append_nil, if_neg (not_splitsPair_of_units_le hunits), Nat.min_eq_right hunits]
  | cons c after =>
    -- The column is that of one of the units of the character that starts at the byte offset.
    obtain ⟨i, rfl⟩ := Nat.exists_eq_add_of_le hunits
    have hi : i < unitsOf c := Nat.lt_of_add_lt_add_left (hnext c rfl)
    have hwithin : units before + i ≤ units (before ++ c :: after) := by
      rw [units_append, units_cons]
      omega
    have hsplits := splitsPair_append_cons_iff before after c hi
    split
    next hsecond =>
      obtain ⟨rfl, -⟩ := hsplits.mp hsecond
      rfl
    next hwhole =>
      have htwo : unitsOf c ≤ 2 := by
        rw [unitsOf]
        split <;> decide
      have hfirst : i ≠ 1 := fun hone => hwhole (hsplits.mpr ⟨hone, by omega⟩)
      rw [Nat.min_eq_left hwithin]
      omega

/-- The columns that are met again by way of their byte offsets. -/
theorem columnOfByte_byteOfColumn_eq_iff :
    columnOfByte line (byteOfColumn line column) = column ↔ ¬(units line < column ∨ SplitsPair line column) := by
  rw [columnOfByte_byteOfColumn]
  split
  next hsplits =>
    have hpos := hsplits.pos
    exact iff_of_false (by omega) fun h => h (.inr hsplits)
  next hwhole =>
    simp only [hwhole, or_false, Nat.not_lt]
    omega

/-- The sum of two words of 32 bits, if a word holds it. -/
def addWord? (a b : UInt32) : Option UInt32 :=
  if a.toNat + b.toNat ≤ maxPosition then some (a + b) else none

/-- The number of code units of a character as a word. -/
def unitsWord (c : Char) : UInt32 :=
  if c.val ≤ 0xffff then 1 else 2

/-- The characters of a text that starts at a byte offset, each with the offset at which it starts itself. -/
def charOffsets : Nat → Text → List (Nat × Char)
  | _, [] => []
  | start, c :: t => (start, c) :: charOffsets (start + c.utf8Size) t

/-- The units of characters, added one by one to a sum. -/
def sumWords? (sum : UInt32) (entries : List (Nat × Char)) : Option UInt32 :=
  entries.foldlM (fun sum entry => addWord? sum (unitsWord entry.2)) sum

/-- The column of a byte offset in words: the units of the characters that start before the offset. -/
def columnWord? (line : Text) (byte : Nat) : Option UInt32 :=
  sumWords? 0 ((charOffsets 0 line).takeWhile fun entry => entry.1 < byte)

/-- Where the first character starts with which the sum goes beyond the column, or else the end. -/
def seekWord? (column : UInt32) (stop : Nat) : UInt32 → List (Nat × Char) → Option Nat
  | _, [] => some stop
  | sum, entry :: entries => do
    let next ← addWord? sum (unitsWord entry.2)
    if next > column then return entry.1
    seekWord? column stop next entries

/-- The byte offset of a column by sums in words. -/
def byteOfWord? (line : Text) (column : UInt32) : Option Nat :=
  seekWord? column (utf8Length line) 0 (charOffsets 0 line)

theorem toNat_unitsWord (c : Char) : (unitsWord c).toNat = unitsOf c := by
  have hplane : c.val ≤ 0xffff ↔ c.toNat ≤ 0xffff := UInt32.le_iff_toNat_le
  simp only [unitsWord, unitsOf, hplane]
  split <;> rfl

/-- A sum grows by the units of the next character of a line as long as all of them together have a number. -/
theorem exists_addWord? {c : Char} {t : Text} (h : sum.toNat + units (c :: t) ≤ maxPosition) :
    ∃ next, addWord? sum (unitsWord c) = some next ∧ next.toNat = sum.toNat + unitsOf c ∧
      next.toNat + units t ≤ maxPosition := by
  rw [units_cons, ← Nat.add_assoc] at h
  have hsum : sum.toNat + (unitsWord c).toNat ≤ maxPosition := by
    rw [toNat_unitsWord]
    exact Nat.le_of_add_right_le h
  have hnext : (sum + unitsWord c).toNat = sum.toNat + unitsOf c := by
    rw [UInt32.toNat_add, Nat.mod_eq_of_lt (Nat.lt_of_le_of_lt hsum (by decide)), toNat_unitsWord]
  refine ⟨sum + unitsWord c, if_pos hsum, hnext, ?_⟩
  rwa [hnext]

/-- From any sum on, the units of the characters before a byte offset are added up without overflow. -/
theorem exists_sumWords? (start byte : Nat) (h : sum.toNat + units line ≤ maxPosition) :
    ∃ word, sumWords? sum ((charOffsets start line).takeWhile fun entry => entry.1 < byte) = some word ∧
      word.toNat = sum.toNat + columnOfByte line (byte - start) := by
  induction line generalizing start sum with
  | nil => exact ⟨sum, rfl, rfl⟩
  | cons c line ih =>
    rw [charOffsets, columnOfByte]
    by_cases hstart : start < byte
    · -- The induction goes on behind the character, from the sum that includes its units.
      obtain ⟨next, hnext, hsum, hfits⟩ := exists_addWord? h
      obtain ⟨word, hword, htotal⟩ := ih (start + c.utf8Size) hfits
      refine ⟨word, ?_, ?_⟩
      · rw [List.takeWhile_cons_of_pos (by simpa using hstart), sumWords?, List.foldlM_cons, hnext]
        exact hword
      · rw [if_neg (by omega), htotal, hsum, Nat.sub_sub, Nat.add_assoc]
    · refine ⟨sum, ?_, ?_⟩
      · rw [List.takeWhile_cons_of_neg (by simpa using hstart)]
        rfl
      · rw [if_pos (by omega), Nat.add_zero]

/-- From a sum on that is not beyond the column, the search ends where the column goes that is left of it. -/
theorem seekWord?_eq (start : Nat) {word : UInt32} (h : sum.toNat + units line ≤ maxPosition)
    (hle : sum.toNat ≤ word.toNat) :
    seekWord? word (start + utf8Length line) sum (charOffsets start line) =
      some (start + byteOfColumn line (word.toNat - sum.toNat)) := by
  induction line generalizing start sum with
  | nil => rfl
  | cons c line ih =>
    obtain ⟨next, hnext, hsum, hfits⟩ := exists_addWord? h
    rw [charOffsets, seekWord?, hnext, byteOfColumn]
    by_cases hbeyond : word < next
    · have hroom : unitsOf c > word.toNat - sum.toNat := by
        rw [UInt32.lt_iff_toNat_lt] at hbeyond
        omega
      rw [if_pos hroom]
      exact if_pos hbeyond
    · have hroom : next.toNat ≤ word.toNat := UInt32.le_iff_toNat_le.mp (UInt32.not_lt.mp hbeyond)
      rw [if_neg (by omega), utf8Length_cons, ← Nat.add_assoc, ← Nat.add_assoc, Nat.sub_sub, ← hsum,
        ← ih (start + c.utf8Size) hfits hroom]
      exact if_neg hbeyond

theorem columnWord?_eq (h : units line ≤ maxPosition) (byte : Nat) :
    (columnWord? line byte).map UInt32.toNat = some (columnOfByte line byte) := by
  have hstart : (0 : UInt32).toNat + units line ≤ maxPosition := by rwa [UInt32.toNat_zero, Nat.zero_add]
  obtain ⟨word, hword, htotal⟩ := exists_sumWords? 0 byte hstart
  rw [columnWord?, hword, Option.map_some, htotal, UInt32.toNat_zero, Nat.zero_add, Nat.sub_zero]

theorem byteOfWord?_eq (h : units line ≤ maxPosition) (word : UInt32) :
    byteOfWord? line word = some (byteOfColumn line word.toNat) := by
  have hstart : (0 : UInt32).toNat + units line ≤ maxPosition := by rwa [UInt32.toNat_zero, Nat.zero_add]
  have hle : (0 : UInt32).toNat ≤ word.toNat := Nat.zero_le _
  have hseek := seekWord?_eq 0 hstart hle
  rwa [Nat.zero_add, Nat.zero_add, UInt32.toNat_zero, Nat.sub_zero] at hseek

/-- On a line of which the units have numbers, the running sums of both conversions fit into words of 32 bits. A column
always goes to a boundary of characters of the line, and the boundaries are the byte offsets that are met again by way of
their columns. A column is never passed by way of its byte offset, and it is met again unless it is behind the end of the
line or inside of a surrogate pair. Both conversions keep the order. -/
theorem conversions_roundTrip (hunits : units line ≤ maxPosition) :
    (∀ byte, (columnWord? line byte).map UInt32.toNat = some (columnOfByte line byte)) ∧
    (∀ word, byteOfWord? line word = some (byteOfColumn line word.toNat)) ∧
    (∀ column, IsBoundary line (byteOfColumn line column) ∧ byteOfColumn line column ≤ utf8Length line) ∧
    (∀ byte, byteOfColumn line (columnOfByte line byte) = byte ↔ IsBoundary line byte) ∧
    (∀ column, columnOfByte line (byteOfColumn line column) ≤ column ∧
      (columnOfByte line (byteOfColumn line column) = column ↔
        ¬(units line < column ∨ SplitsPair line column))) ∧
    Monotone (columnOfByte line) ∧ Monotone (byteOfColumn line) := by
  refine ⟨columnWord?_eq hunits, byteOfWord?_eq hunits, fun column => ?_, fun byte => ?_, fun column => ?_,
    monotone_columnOfByte line, monotone_byteOfColumn line⟩
  · exact ⟨isBoundary_byteOfColumn line column, byteOfColumn_le line column⟩
  · exact byteOfColumn_columnOfByte_eq_iff
  · exact ⟨columnOfByte_byteOfColumn_le line column, columnOfByte_byteOfColumn_eq_iff⟩

/-- Between characters of two bytes and of one, there is one of four bytes and two units. -/
theorem conversions_roundTrip_surrogates :
    let line := "é😀b".toList
    units line ≤ maxPosition ∧ (columnWord? line 6).map UInt32.toNat = some 3 ∧ byteOfWord? line 2 = some 2 ∧
      (IsBoundary line 6 ∧ byteOfColumn line (columnOfByte line 6) = 6) ∧
      (¬IsBoundary line 4 ∧ byteOfColumn line (columnOfByte line 4) = 6) ∧
      (SplitsPair line 2 ∧ columnOfByte line (byteOfColumn line 2) = 1) ∧
      (units line < 9 ∧ columnOfByte line (byteOfColumn line 9) ≠ 9) ∧
      columnOfByte line 4 ≤ columnOfByte line 6 := by
  intro line
  have hclosed : units line ≤ maxPosition ∧ columnOfByte line 6 = 3 ∧ byteOfColumn line 2 = 2 ∧
      byteOfColumn line (columnOfByte line 4) = 6 ∧ SplitsPair line 2 ∧
      columnOfByte line (byteOfColumn line 2) = 1 ∧ units line < 9 := by decide +kernel
  obtain ⟨hunits, hcolumn, hbyte, hinside, hsplits, hback, hbehind⟩ := hclosed
  obtain ⟨hcolumns, hbytes, -, hmet, hreached, hmonotone, -⟩ := conversions_roundTrip hunits
  have hboundary : IsBoundary line 6 := ⟨['é', '😀'], ['b'], rfl, by decide +kernel⟩
  refine ⟨hunits, hcolumn ▸ hcolumns 6, hbyte ▸ hbytes 2, ⟨hboundary, (hmet 6).mpr hboundary⟩, ⟨?_, hinside⟩,
    ⟨hsplits, hback⟩, ⟨hbehind, fun h => (hreached 9).2.mp h (.inl hbehind)⟩, hmonotone (by decide)⟩
  rw [← hmet 4, hinside]
  decide

end StepLink.Text
