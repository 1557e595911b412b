import StepLink.Text.Units

/-! Columns and what they cut out of a line. A text takes up as many UTF-16 code units as its length says, so the units
between two columns of a line are those of the characters between them. A byte offset and a column at the same boundary
of two characters are turned into each other. -/

namespace StepLink.Text

variable {c : Char}

/-- The UTF-16 form of a character: from U+10000 on a high and a low surrogate. -/
def codeUnits (c : Char) : List Nat :=
  if c.toNat ≤ 0xffff then [c.toNat]
  else [0xd800 + (c.toNat - 0x10000) / 0x400, 0xdc00 + (c.toNat - 0x10000) % 0x400]

/-- The UTF-16 form of a text. -/
def utf16 (t : Text) : List Nat :=
  t.flatMap codeUnits

/-- The code units of a line from one column up to another. -/
def unitsBetween (line : Text) (start stop : Nat) : List Nat :=
  ((utf16 line).drop start).take (stop - start)

theorem length_codeUnits (c : Char) : (codeUnits c).length = unitsOf c := by
  rw [codeUnits, unitsOf]
  split <;> rfl

theorem utf16_append (s t : Text) : utf16 (s ++ t) = utf16 s ++ utf16 t :=
  List.flatMap_append

theorem units_cons (c : Char) (t : Text) : units (c :: t) = unitsOf c + units t := rfl

theorem length_utf16 (t : Text) : (utf16 t).length = units t := by
  induction t with
  | nil => rfl
  | cons c t ih => rw [utf16, List.flatMap_cons, List.length_append, length_codeUnits, units_cons, ← ih, utf16]

theorem units_append (s t : Text) : units (s ++ t) = units s + units t := by
  rw [← length_utf16, utf16_append, List.length_append, length_utf16, length_utf16]

/-- The columns at which a part of a line starts and ends cut out that part. -/
theorem unitsBetween_eq {line before t after : Text} {start stop : Nat} (hline : line = before ++ (t ++ after))
    (hstart : start = units before) (hstop : stop = start + units t) : unitsBetween line start stop = utf16 t := by
  rw [unitsBetween, hstop, Nat.add_sub_cancel_left, hline, hstart, utf16_append, utf16_append,
    List.drop_left' (length_utf16 before), List.take_left' (length_utf16 t)]

theorem unitsOf_pos (c : Char) : 0 < unitsOf c := by
  rw [unitsOf]
  split <;> decide

/-- The column of the byte offset at which a text ends is its length in units. -/
theorem columnOfByte_utf8Length (s t : Text) : columnOfByte (s ++ t) (utf8Length s) = units s := by
  induction s with
  | nil => cases t <;> rfl
  | cons c s ih =>
    have hpos := c.utf8Size_pos
    have hne : utf8Length (c :: s) ≠ 0 := by
      rw [utf8Length_cons]
      omega
    rw [List.cons_append, columnOfByte, if_neg hne, utf8Length_cons, Nat.add_sub_cancel_left, ih, units_cons]

/-- The part of a line before a byte offset at which some of its characters end consists of these. -/
theorem takeBytes_utf8Length (s t : Text) : takeBytes (s ++ t) (utf8Length s) = s := by
  induction s with
  | nil =>
    cases t with
    | nil => rfl
    | cons c t => exact if_neg (Nat.not_le_of_lt c.utf8Size_pos)
  | cons c s ih =>
    rw [List.cons_append, takeBytes, utf8Length_cons, if_pos (Nat.le_add_right _ _), Nat.add_sub_cancel_left, ih]

/-- A column goes to the byte offset at which as many characters end as it has room for: not for the next one too. -/
theorem exists_byteOfColumn (line : Text) (column : Nat) : ∃ before after, line = before ++ after ∧
    byteOfColumn line column = utf8Length before ∧ units before ≤ column ∧
    ∀ c ∈ after.head?, column < units before + unitsOf c := by
  induction line generalizing column with
  | nil => exact ⟨[], [], rfl, rfl, Nat.zero_le column, fun c hc => nomatch hc⟩
  | cons c line ih =>
    rw [byteOfColumn]
    split
    next hbeyond =>
      refine ⟨[], c :: line, rfl, rfl, Nat.zero_le column, fun d hd => ?_⟩
      obtain rfl : c = d := Option.some.inj hd
      rwa [units, List.foldr_nil, Nat.zero_add]
    next hfits =>
      obtain ⟨before, after, rfl, hbyte, hunits, hnext⟩ := ih (column - unitsOf c)
      refine ⟨c :: before, after, rfl, ?_, ?_, fun d hd => ?_⟩
      · rw [hbyte, utf8Length_cons]
      · rw [units_cons]
        omega
      · have hroom := hnext d hd
        rw [units_cons]
        omega

/-- The byte offset of the column at which some characters of a line end is where their bytes end. -/
theorem byteOfColumn_units (s t : Text) : byteOfColumn (s ++ t) (units s) = utf8Length s := by
  induction s with
  | nil =>
    cases t with
    | nil => rfl
    | cons c t => exact if_pos (unitsOf_pos c)
  | cons c s ih =>
    rw [List.cons_append, byteOfColumn, units_cons, if_neg (Nat.not_lt_of_le (Nat.le_add_right _ _)),
      Nat.add_sub_cancel_left, ih, utf8Length_cons]

end StepLink.Text
