import StepLink.Proofs.Feature.Inheritance
import StepLink.Proofs.Feature.StepLine
import StepLink.Proofs.Text.Units

/-! The places of the steps of a feature file: each occurrence is that of one line, and later lines have larger
numbers as long as numbers are left. The text of a step ends where its columns say, inside of its line. -/

namespace StepLink

/-- The columns of the text of a step are columns of its line. -/
theorem StepLine.column_add_units_le {line : Text} {step : StepLine} (h : ofLine? line = some step) :
    Text.columnOfByte line step.offset + Text.units step.text ≤ Text.units line := by
  obtain ⟨indent, gap, blanks, hsplit, -, -, -, hoffset⟩ := StepLine.isSplit_of_ofLine? h
  rw [hoffset, hsplit.line_eq_append, Text.columnOfByte_utf8Length, Text.units_append _ (step.text ++ blanks),
    Text.units_append step.text]
  omega

namespace Occurrence

variable {path : Path} {s : Scanner} {index : Nat} {lines : List Text} {o : Occurrence} {text : Text}

theorem mem_ofLines : o ∈ ofLines path s index lines ↔
    ∃ i line found, lines[i]? = some line ∧
      (((lines.take i).foldl (fun s line => (s.feed line).1) s).feed line).2 = some found ∧
      o = ofStep path (index + i) line found := by
  induction lines generalizing s index with
  | nil =>
    rw [ofLines]
    refine ⟨fun h => absurd h List.not_mem_nil, ?_⟩
    rintro ⟨i, line, found, hline, -⟩
    cases hline
  | cons line lines ih =>
    have hsplit : o ∈ ofLines path s index (line :: lines) ↔
        (∃ found, (s.feed line).2 = some found ∧ o = ofStep path index line found) ∨
          o ∈ ofLines path (s.feed line).1 (index + 1) lines := by
      rw [ofLines]
      rcases s.feed line with ⟨s, _ | found⟩ <;> simp
    rw [hsplit, ih]
    constructor
    · rintro (⟨found, hfound, rfl⟩ | ⟨i, other, found, hother, hfound, rfl⟩)
      · exact ⟨0, line, found, rfl, hfound, rfl⟩
      · exact ⟨i + 1, other, found, hother, hfound, by rw [Nat.add_right_comm, Nat.add_assoc]⟩
    · rintro ⟨i, other, found, hother, hfound, rfl⟩
      cases i with
      | zero =>
        cases hother
        exact .inl ⟨found, hfound, rfl⟩
      | succ i => exact .inr ⟨i, other, found, hother, hfound, by rw [Nat.add_right_comm, Nat.add_assoc]⟩

theorem mem_ofText : o ∈ ofText path text ↔
    ∃ i line found, (Text.lines text)[i]? = some line ∧
      ((Scanner.upTo (Text.lines text) i).feed line).2 = some found ∧ o = ofStep path i line found := by
  rw [ofText, mem_ofLines]
  simp only [Nat.zero_add]
  rfl

theorem pairwise_ofLines (h : index + lines.length ≤ Text.maxPosition + 1) :
    (ofLines path s index lines).Pairwise (·.line < ·.line) := by
  induction lines generalizing s index with
  | nil => exact .nil
  | cons line lines ih =>
    rw [List.length_cons] at h
    have hrest : ∀ s, (ofLines path s (index + 1) lines).Pairwise (·.line < ·.line) := fun s => ih (by omega)
    rw [ofLines]
    rcases s.feed line with ⟨s, _ | found⟩
    · exact hrest s
    · refine List.pairwise_cons.mpr ⟨fun o ho => ?_, hrest s⟩
      obtain ⟨i, other, other', hother, -, rfl⟩ := mem_ofLines.mp ho
      obtain ⟨hi, -⟩ := List.getElem?_eq_some_iff.mp hother
      show Text.lineNumber index < Text.lineNumber (index + 1 + i)
      rw [Text.lineNumber_eq (by omega), Text.lineNumber_eq (by omega)]
      omega

theorem pairwise_ofText (h : (Text.lines text).length ≤ Text.maxPosition + 1) (path : Path) :
    (ofText path text).Pairwise (·.line < ·.line) :=
  pairwise_ofLines (by omega)

/-- The occurrence on a line of a feature file, if the walk finds a step there. -/
def onLine? (path : Path) (lines : List Text) (i : Nat) : Option Occurrence :=
  lines[i]?.bind fun line => ((Scanner.upTo lines i).feed line).2.map (ofStep path i line)

theorem ofLines_drop (path : Path) (lines : List Text) (i n : Nat) (h : i + n = lines.length) :
    ofLines path (Scanner.upTo lines i) i (lines.drop i) =
      (List.range' i n).filterMap (onLine? path lines) := by
  induction n generalizing i with
  | zero =>
    rw [List.drop_eq_nil_of_le (by omega)]
    rfl
  | succ n ih =>
    have hi : i < lines.length := by omega
    have hline : lines[i]? = some lines[i] := List.getElem?_eq_getElem hi
    have hrest := ih (i + 1) (by omega)
    rw [Scanner.upTo_succ hline] at hrest
    rw [List.drop_eq_getElem_cons hi, ofLines, List.range'_succ, List.filterMap_cons, onLine?, hline,
      Option.bind_some]
    rcases hfeed : (Scanner.upTo lines i).feed lines[i] with ⟨s, _ | found⟩
    · rw [hfeed] at hrest
      exact hrest
    · rw [hfeed] at hrest
      exact congrArg (ofStep path i lines[i] found :: ·) hrest

/-- The occurrences of a feature file are those on its lines, from the first line to the last. -/
theorem ofText_eq_filterMap (path : Path) (text : Text) :
    ofText path text = (List.range (Text.lines text).length).filterMap (onLine? path (Text.lines text)) := by
  rw [List.range_eq_range']
  exact ofLines_drop path (Text.lines text) 0 _ (Nat.zero_add _)

theorem onLine?_eq_some {lines : List Text} {i : Nat} (h : onLine? path lines i = some o) :
    ∃ line found, lines[i]? = some line ∧ StepLine.ofLine? line = some found.step ∧
      o = ofStep path i line found := by
  obtain ⟨line, hline, hfound⟩ := Option.bind_eq_some_iff.mp h
  obtain ⟨found, hfeed, rfl⟩ := Option.map_eq_some_iff.mp hfound
  exact ⟨line, found, hline, (Scanner.feed_eq_some hfeed).2.1, rfl⟩

end Occurrence

end StepLink
