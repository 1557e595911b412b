import StepLink.Proofs.Feature.DocString
import StepLink.Proofs.Query.Diagnostics

/-! What stands inside of doc strings has no part in the steps of a feature file or in its diagnostics. The walk
does not look at it. The search for an inherited keyword knows nothing of doc strings, but it goes up from a step
outside of them, and ends at the latest on the line where the nearest one above closes. -/

namespace StepLink

variable {lines others : List Text} {line other : Text} {i : Nat} {found : FoundStep}

/-- The two differ at most inside of doc strings: a line that is not the same in both stands in a doc string of the
first, and has the mark of that doc string in neither. -/
structure AgreeOutsideDocStrings (lines others : List Text) : Prop where
  length : lines.length = others.length
  inside : ∀ i, lines[i]? ≠ others[i]? →
    ∃ fence j, Encloses lines fence j i ∧ ¬MarkAt lines fence i ∧ ¬MarkAt others fence i

namespace AgreeOutsideDocStrings

theorem exists_other (h : AgreeOutsideDocStrings lines others) (hline : lines[i]? = some line) :
    ∃ other, others[i]? = some other := by
  obtain ⟨hi, -⟩ := List.getElem?_eq_some_iff.mp hline
  exact ⟨_, List.getElem?_eq_getElem (h.length ▸ hi)⟩

/-- Where the lines differ, the walk is inside of a fence that neither of them ends. -/
theorem fenced_of_ne (h : AgreeOutsideDocStrings lines others) (hline : lines[i]? = some line)
    (hother : others[i]? = some other) (hne : line ≠ other) :
    ∃ fence, (Scanner.upTo lines i).fence = some fence ∧ fence.startsLine line = false ∧
      fence.startsLine other = false := by
  have hdiffer : lines[i]? ≠ others[i]? := by
    rw [hline, hother]
    exact fun heq => hne (Option.some.inj heq)
  obtain ⟨fence, j, hencloses, hmark, hmark'⟩ := h.inside i hdiffer
  obtain ⟨hi, -⟩ := List.getElem?_eq_some_iff.mp hline
  rw [markAt_iff hline, Bool.not_eq_true] at hmark
  rw [markAt_iff hother, Bool.not_eq_true] at hmark'
  exact ⟨fence, (fence_upTo_eq_some_iff (Nat.le_of_lt hi) fence).mpr ⟨j, hencloses⟩, hmark, hmark'⟩

/-- The walk takes the two lines at one place alike. -/
theorem feed_eq (h : AgreeOutsideDocStrings lines others) (hline : lines[i]? = some line)
    (hother : others[i]? = some other) :
    (Scanner.upTo lines i).feed other = (Scanner.upTo lines i).feed line := by
  by_cases heq : line = other
  · rw [heq]
  · obtain ⟨fence, hfence, hstays, hstays'⟩ := h.fenced_of_ne hline hother heq
    rw [Scanner.feed_fenced hfence hstays, Scanner.feed_fenced hfence hstays']

theorem upTo_eq (h : AgreeOutsideDocStrings lines others) (hi : i ≤ lines.length) :
    Scanner.upTo others i = Scanner.upTo lines i := by
  induction i with
  | zero => rfl
  | succ i ih =>
    have hline : lines[i]? = some lines[i] := List.getElem?_eq_getElem hi
    obtain ⟨other, hother⟩ := h.exists_other hline
    rw [Scanner.upTo_succ hline, Scanner.upTo_succ hother, ih (Nat.le_of_succ_le hi), h.feed_eq hline hother]

/-- A line on which the walk reports a step is the same in both. -/
theorem eq_of_reported (h : AgreeOutsideDocStrings lines others) (hline : lines[i]? = some line)
    (hother : others[i]? = some other) (hfound : ((Scanner.upTo lines i).feed line).2 = some found) :
    line = other := by
  by_contra hne
  obtain ⟨fence, hfence, hstays, -⟩ := h.fenced_of_ne hline hother hne
  rw [Scanner.feed_fenced hfence hstays] at hfound
  cases hfound

/-- From outside of doc strings the search comes across the same lines in both. -/
theorem inheritedKeyword_eq (h : AgreeOutsideDocStrings lines others) (hi : i ≤ lines.length)
    (hout : (Scanner.upTo lines i).fence = none) :
    inheritedKeyword (fun j => others[j]?) i = inheritedKeyword (fun j => lines[j]?) i := by
  induction i with
  | zero => rfl
  | succ i ih =>
    have hline : lines[i]? = some lines[i] := List.getElem?_eq_getElem hi
    obtain ⟨other, hother⟩ := h.exists_other hline
    rw [Scanner.upTo_succ hline] at hout
    obtain rfl : lines[i] = other := by
      by_contra hne
      obtain ⟨fence, hfence, hstays, -⟩ := h.fenced_of_ne hline hother hne
      rw [Scanner.feed_fenced hfence hstays, hfence] at hout
      cases hout
    -- A line that the search goes past leaves the walk outside; on any other line, a closing one too, it ends.
    by_cases hpass : Passes lines[i]
    · rw [hpass.feed] at hout
      rw [inheritedKeyword_of_passes hline hpass, inheritedKeyword_of_passes hother hpass]
      exact ih (Nat.le_of_succ_le hi) hout
    · rw [inheritedKeyword_of_ends hline hpass, inheritedKeyword_of_ends hother hpass]

theorem effectiveKeyword_eq (h : AgreeOutsideDocStrings lines others) (hline : lines[i]? = some line)
    (hfound : ((Scanner.upTo lines i).feed line).2 = some found) :
    effectiveKeyword (fun j => others[j]?) i = effectiveKeyword (fun j => lines[j]?) i := by
  obtain ⟨hi, -⟩ := List.getElem?_eq_some_iff.mp hline
  obtain ⟨other, hother⟩ := h.exists_other hline
  obtain rfl := h.eq_of_reported hline hother hfound
  simp only [effectiveKeyword, hline, hother,
    h.inheritedKeyword_eq (Nat.le_of_lt hi) (Scanner.feed_eq_some hfound).1]

theorem onLine?_eq (h : AgreeOutsideDocStrings lines others) (path : Path) (i : Nat) :
    Occurrence.onLine? path others i = Occurrence.onLine? path lines i := by
  rw [Occurrence.onLine?, Occurrence.onLine?]
  cases hline : lines[i]? with
  | none =>
    rw [List.getElem?_eq_none_iff, h.length, ← List.getElem?_eq_none_iff] at hline
    rw [hline, Option.bind_none, Option.bind_none]
  | some line =>
    obtain ⟨hi, -⟩ := List.getElem?_eq_some_iff.mp hline
    obtain ⟨other, hother⟩ := h.exists_other hline
    rw [hother, Option.bind_some, Option.bind_some, h.upTo_eq (Nat.le_of_lt hi), h.feed_eq hline hother]
    cases hfound : ((Scanner.upTo lines i).feed line).2 with
    | none => rfl
    | some found => rw [h.eq_of_reported hline hother hfound]

theorem ofText_eq {text changed : Text} (h : AgreeOutsideDocStrings (Text.lines text) (Text.lines changed))
    (path : Path) : Occurrence.ofText path changed = Occurrence.ofText path text := by
  rw [Occurrence.ofText_eq_filterMap, Occurrence.ofText_eq_filterMap, ← h.length]
  exact List.filterMap_congr fun i _ => h.onLine?_eq path i

/-- Over the lines that are left a run goes the same way in both, whatever it has come to so far. -/
theorem diagnoseLines_eq (h : AgreeOutsideDocStrings lines others) (stillWanted : Nat → Bool) (i n : Nat)
    (hlength : i + n = lines.length) (x : Indexes) (polls wait : Nat) (found : List Diagnostic) :
    x.diagnoseLines stillWanted (fun j => others[j]?) (Scanner.upTo lines i) i polls wait found (others.drop i) =
      x.diagnoseLines stillWanted (fun j => lines[j]?) (Scanner.upTo lines i) i polls wait found
        (lines.drop i) := by
  induction n generalizing i x polls wait found with
  | zero =>
    have hend := h.length
    rw [List.drop_eq_nil_of_le (by omega), List.drop_eq_nil_of_le (by omega)]
    rfl
  | succ n ih =>
    have hi : i < lines.length := by omega
    have hi' : i < others.length := h.length ▸ hi
    have hline : lines[i]? = some lines[i] := List.getElem?_eq_getElem hi
    have hother : others[i]? = some others[i] := List.getElem?_eq_getElem hi'
    have hrest := fun x polls wait found => ih (i + 1) (by omega) x polls wait found
    rw [Scanner.upTo_succ hline] at hrest
    rw [List.drop_eq_getElem_cons hi, List.drop_eq_getElem_cons hi', Indexes.diagnoseLines, Indexes.diagnoseLines,
      h.feed_eq hline hother]
    rcases hfeed : (Scanner.upTo lines i).feed lines[i] with ⟨s, _ | step⟩
    · rw [hfeed] at hrest
      simp only [hrest]
    · have hfound : ((Scanner.upTo lines i).feed lines[i]).2 = some step := congrArg Prod.snd hfeed
      rw [hfeed] at hrest
      rw [h.effectiveKeyword_eq hline hfound, ← h.eq_of_reported hline hother hfound]
      simp only [hrest]

theorem diagnoseChecked_eq {text changed : Text} (h : AgreeOutsideDocStrings (Text.lines text) (Text.lines changed))
    (x : Indexes) (stillWanted : Nat → Bool) :
    x.diagnoseChecked stillWanted changed = x.diagnoseChecked stillWanted text := by
  have hrun := h.diagnoseLines_eq stillWanted 0 _ (Nat.zero_add _) x 0 Diagnostic.interval []
  simp only [Indexes.diagnoseChecked, List.getElem?_toArray]
  exact hrun

end AgreeOutsideDocStrings

/-- Two feature files that differ at most inside of doc strings have the same occurrences. Asked about one or
about the other, the two indexes give the same diagnostics, with as many questions on the way, and are left in
the same state. And at any two moments of a run at which the definitions are the same, whatever has been looked up
or has come and gone in between, the diagnostics of the one file are those of the other. -/
theorem Service.docStrings_do_not_matter {text changed : Text}
    (h : AgreeOutsideDocStrings (Text.lines text) (Text.lines changed)) (path : Path) :
    Occurrence.ofText path changed = Occurrence.ofText path text ∧
    (∀ (x : Indexes) (stillWanted : Nat → Bool),
      x.diagnoseChecked stillWanted changed = x.diagnoseChecked stillWanted text) ∧
    ∀ root definitions usages batchSize maxReplays acts t u,
      let indexesAt := fun m => ((new root definitions usages batchSize maxReplays).after acts m).indexes
      (indexesAt t).definitions.state.allItems = (indexesAt u).definitions.state.allItems →
        ((indexesAt t).diagnose changed).2 = ((indexesAt u).diagnose text).2 := by
  refine ⟨h.ofText_eq path, h.diagnoseChecked_eq, ?_⟩
  intro root definitions usages batchSize maxReplays acts t u indexesAt hsame
  have hcurrent : ∀ m, (indexesAt m).Current := fun m =>
    current_after (current_new root definitions usages batchSize maxReplays) acts m
  have hfiles : (indexesAt t).diagnose changed = (indexesAt t).diagnose text := by
    rw [Indexes.diagnose, Indexes.diagnose, h.diagnoseChecked_eq]
  rw [hfiles, ((hcurrent t).found_diagnose path text).2, ((hcurrent u).found_diagnose path text).2, hsame]

/-- In the one file a step stands in the doc string, in the other a header. Both have the same two steps, of which
the first is defined, at either of two moments after the scan. -/
theorem Service.docStrings_do_not_matter_header :
    let text := "Given a\n\"\"\"\nWhen b\n\"\"\"\nAnd c".toList
    let changed := "Given a\n\"\"\"\nScenario: b\n\"\"\"\nAnd c".toList
    let indexesAt := fun m => ((new ⟨"/w".toList⟩ ⟨[], []⟩ ⟨[], []⟩ 1 5).after definedScan m).indexes
    AgreeOutsideDocStrings (Text.lines text) (Text.lines changed) ∧
      Occurrence.ofText ⟨[]⟩ changed = Occurrence.ofText ⟨[]⟩ text ∧
      ((indexesAt 6).diagnose changed).2 = ((indexesAt 7).diagnose text).2 ∧
      ((indexesAt 7).diagnose text).2 = [⟨4, 4, 5, "Undefined step: And c"⟩] := by
  intro text changed indexesAt
  have hlines : (Text.lines text).length = 5 ∧ (Text.lines changed).length = 5 ∧
      (∀ i < 5, i ≠ 2 → (Text.lines text)[i]? = (Text.lines changed)[i]?) ∧
      (Text.lines text)[2]?.any Fence.quotes.startsLine = false ∧
      (Text.lines changed)[2]?.any Fence.quotes.startsLine = false ∧
      (Scanner.upTo (Text.lines text) 2).fence = some .quotes := by
    decide +kernel
  obtain ⟨hlength, hlength', hsame, hstays, hstays', hfence⟩ := hlines
  have hunmarked : ∀ lines : List Text, lines[2]?.any Fence.quotes.startsLine = false →
      ¬MarkAt lines .quotes 2 := by
    rintro lines hstays ⟨line, hline, hstarts⟩
    rw [hline, Option.any_some, hstarts] at hstays
    cases hstays
  have hagree : AgreeOutsideDocStrings (Text.lines text) (Text.lines changed) := by
    refine ⟨hlength.trans hlength'.symm, fun i hdiffer => ?_⟩
    obtain rfl : i = 2 := by
      by_contra hne
      rcases Nat.lt_or_ge i 5 with hi | hi
      · exact hdiffer (hsame i hi hne)
      · rw [List.getElem?_eq_none (hlength ▸ hi), List.getElem?_eq_none (hlength' ▸ hi)] at hdiffer
        exact hdiffer rfl
    obtain ⟨j, hencloses⟩ := (fence_upTo_eq_some_iff (by omega) .quotes).mp hfence
    exact ⟨.quotes, j, hencloses, hunmarked _ hstays, hunmarked _ hstays'⟩
  obtain ⟨hoccurrences, -, hshown⟩ := docStrings_do_not_matter hagree ⟨[]⟩
  exact ⟨hagree, hoccurrences,
    hshown ⟨"/w".toList⟩ ⟨[], []⟩ ⟨[], []⟩ 1 5 definedScan 6 7 rfl, by decide +kernel⟩

end StepLink
