import Mathlib.Data.List.Forall2
import StepLink.Proofs.Feature.Place

/-! What the place of an occurrence selects. On its line, the code units from its column on and as many as its length are
those of the text of the step, between the token with its blanks and the blanks at the end of the line. -/

namespace StepLink

open Text (IsBlanks)

variable {path : Path} {lines : List Text} {line text : Text} {found : FoundStep} {s : Scanner} {o : Occurrence} {i : Nat}

/-- The columns of an occurrence cut its text out of a line: a text that has no blanks at its ends and stands behind
indentation, the token as it is written and at least one blank, and before nothing but blanks. -/
structure Occurrence.Selects (o : Occurrence) (line : Text) : Prop where
  text_ne_nil : o.text ≠ []
  text_head : ∀ c ∈ o.text.head?, Text.isBlank c = false
  text_last : ∀ c ∈ o.text.getLast?, Text.isBlank c = false
  selected : Text.unitsBetween line o.column (o.column + o.length) = Text.utf16 o.text
  before : ∃ indent gap, IsBlanks indent ∧ gap ≠ [] ∧ IsBlanks gap ∧ StepToken.ofText o.written = .ok o.token ∧
    Text.unitsBetween line 0 o.column = Text.utf16 (indent ++ (o.written ++ gap))
  behind : ∃ blanks, IsBlanks blanks ∧
    Text.unitsBetween line (o.column + o.length) (Text.units line) = Text.utf16 blanks
  stop_le : o.column + o.length ≤ Text.units line

theorem Scanner.text_ne_nil_of_feed (h : (s.feed line).2 = some found) : found.step.text ≠ [] := by
  obtain ⟨hfence, hstep, -⟩ := feed_eq_some h
  rw [feed_step hfence hstep] at h
  intro hnil
  rw [hnil] at h
  cases h

theorem Occurrence.selects_ofStep (hstep : StepLine.ofLine? line = some found.step) (htext : found.step.text ≠ [])
    (path : Path) (i : Nat) : (ofStep path i line found).Selects line := by
  obtain ⟨indent, gap, blanks, hsplit, hblanks, hlast, htoken, hoffset⟩ := StepLine.isSplit_of_ofLine? hstep
  have hline := hsplit.line_eq_append
  have hcolumn : (ofStep path i line found).column = Text.units (indent ++ (found.step.written ++ gap)) := by
    show Text.columnOfByte line found.step.offset = _
    rw [hoffset, hline, Text.columnOfByte_utf8Length]
  have hstop : (ofStep path i line found).column + (ofStep path i line found).length =
      Text.units ((indent ++ (found.step.written ++ gap)) ++ found.step.text) := by
    rw [hcolumn, Text.units_append _ found.step.text]
    rfl
  have hunits : Text.units line =
      (ofStep path i line found).column + (ofStep path i line found).length + Text.units blanks := by
    rw [hstop, hline, ← List.append_assoc, Text.units_append _ blanks]
  refine ⟨htext, fun c hc => hsplit.text_head c ?_, hlast, Text.unitsBetween_eq hline hcolumn rfl, ?_, ?_, ?_⟩
  · rwa [List.head?_append_of_ne_nil _ htext]
  · refine ⟨indent, gap, hsplit.indent_blank, hsplit.gap_ne_nil, hsplit.gap_blank, htoken, ?_⟩
    have hfront : line = [] ++ ((indent ++ (found.step.written ++ gap)) ++ (found.step.text ++ blanks)) := hline
    exact Text.unitsBetween_eq hfront rfl (hcolumn.trans (Nat.zero_add _).symm)
  · have hback : line = ((indent ++ (found.step.written ++ gap)) ++ found.step.text) ++ (blanks ++ []) := by
      rw [List.append_nil, List.append_assoc, hline]
    exact ⟨blanks, hblanks, Text.unitsBetween_eq hback hstop hunits⟩
  · rw [hunits]
    exact Nat.le_add_right _ _

theorem Occurrence.selects_of_onLine? (h : onLine? path lines i = some o) :
    o.line = Text.lineNumber i ∧ ∃ line, lines[i]? = some line ∧ o.Selects line := by
  obtain ⟨line, hline, hfound⟩ := Option.bind_eq_some_iff.mp h
  obtain ⟨found, hfeed, rfl⟩ := Option.map_eq_some_iff.mp hfound
  exact ⟨rfl, line, hline,
    selects_ofStep (Scanner.feed_eq_some hfeed).2.1 (Scanner.text_ne_nil_of_feed hfeed) path i⟩

/-- What is found at the places of a list is found at those where something is found, in the same order. -/
theorem forall₂_filterMap {α β : Type} (f : α → Option β) (l : List α) :
    List.Forall₂ (fun a b => f a = some b) (l.filter fun a => (f a).isSome) (l.filterMap f) := by
  induction l with
  | nil => exact .nil
  | cons a l ih =>
    cases hfa : f a with
    | none =>
      rw [List.filterMap_cons_none hfa, List.filter_cons_of_neg (by simp [hfa])]
      exact ih
    | some b =>
      rw [List.filterMap_cons_some hfa, List.filter_cons_of_pos (by rw [hfa]; rfl)]
      exact .cons hfa ih

/-- The occurrences of a feature file stand on lines of it from the first to the last, one on each, and each of them
selects its text on its line. Lines of which the units have numbers keep the columns to numbers. Line numbers have 32
bits and stop at the largest one, so lines are first told by their index; as long as every line has a number of its own,
it is that of the occurrence. -/
theorem Occurrence.ofText_selects (path : Path) {text : Text}
    (hunits : ∀ line ∈ Text.lines text, Text.units line ≤ Text.maxPosition) :
    let lines := Text.lines text
    let occurrences := ofText path text
    (∃ indices : List Nat, indices.Pairwise (· < ·) ∧ List.Forall₂ (fun i o => o.line = Text.lineNumber i ∧
      o.column + o.length ≤ Text.maxPosition ∧ ∃ line, lines[i]? = some line ∧ o.Selects line) indices occurrences) ∧
    (lines.length ≤ Text.maxPosition + 1 → occurrences.Pairwise (·.line < ·.line) ∧
      ∀ o ∈ occurrences, ∃ line, lines[o.line]? = some line ∧ o.Selects line) := by
  intro lines occurrences
  have hoccurrences : occurrences = (List.range lines.length).filterMap (onLine? path lines) :=
    ofText_eq_filterMap path text
  rw [hoccurrences]
  refine ⟨⟨(List.range lines.length).filter fun i => (onLine? path lines i).isSome, ?_, ?_⟩, fun hlines => ⟨?_, ?_⟩⟩
  · exact List.pairwise_lt_range.filter _
  · refine (forall₂_filterMap (onLine? path lines) _).imp fun i o ho => ?_
    obtain ⟨hnumber, line, hline, hselects⟩ := selects_of_onLine? ho
    have hstop : o.column + o.length ≤ Text.maxPosition :=
      hselects.stop_le.trans (hunits line (List.mem_of_getElem? hline))
    exact ⟨hnumber, hstop, line, hline, hselects⟩
  · exact hoccurrences ▸ pairwise_ofText hlines path
  · intro o ho
    obtain ⟨i, hi, ho⟩ := List.mem_filterMap.mp ho
    have hi : i < lines.length := List.mem_range.mp hi
    obtain ⟨hnumber, hselects⟩ := selects_of_onLine? ho
    rw [Text.lineNumber_eq (by omega)] at hnumber
    rwa [hnumber]

/-- A character outside of the first plane takes up two units, an ideographic space is a blank, and so is a carriage
return without a line feed. -/
theorem Occurrence.ofText_selects_astral :
    let text := "  Given 😀 b \r\n| x |\n*\u3000é\r".toList
    (∀ line ∈ Text.lines text, Text.units line ≤ Text.maxPosition) ∧
      (Text.lines text).length ≤ Text.maxPosition + 1 ∧
      (ofText ⟨[]⟩ text).map (fun o => (o.line, o.column, o.length)) = [(0, 8, 4), (2, 2, 1)] ∧
      ∀ o ∈ ofText ⟨[]⟩ text, ∃ line, (Text.lines text)[o.line]? = some line ∧ o.Selects line := by
  intro text
  have hunits : ∀ line ∈ Text.lines text, Text.units line ≤ Text.maxPosition := by decide +kernel
  have hlines : (Text.lines text).length ≤ Text.maxPosition + 1 := by decide +kernel
  exact ⟨hunits, hlines, by decide +kernel, ((ofText_selects ⟨[]⟩ hunits).2 hlines).2⟩

end StepLink
