import Mathlib.Data.Nat.Find
import StepLink.Proofs.Feature.Place
import StepLink.Proofs.Query.Cache

/-! Diagnostics against the steps of a document and the look-up of their definitions. A run that is never
stopped reports the occurrences for which the look-up finds nothing. It asks at every two hundredth line and at
the end, and the first refusal ends it there and then. -/

namespace StepLink

namespace Diagnostic

/-- What is reported for an occurrence without a definition. -/
def ofOccurrence (o : Occurrence) : Diagnostic where
  line := o.line
  start := o.column
  stop := min (o.column + o.length) Text.maxPosition
  message := "Undefined step: " ++ String.ofList o.written ++ " " ++ String.ofList o.text

/-- The diagnostic on a line of a document, where the occurrence there has no definition in the view. -/
def onLine? (view : List Definition) (path : Path) (lines : List Text) (i : Nat) : Option Diagnostic :=
  if Definition.placesAt view (fun j => lines[j]?) i = [] then (Occurrence.onLine? path lines i).map ofOccurrence
  else none

variable {view : List Definition} {path : Path} {lines : List Text} {i : Nat} {d : Diagnostic} {o : Occurrence}

theorem onLine?_eq_some : onLine? view path lines i = some d ↔
    Definition.placesAt view (fun j => lines[j]?) i = [] ∧
      ∃ o, Occurrence.onLine? path lines i = some o ∧ ofOccurrence o = d := by
  rw [onLine?]
  split
  next hundefined => simp [hundefined]
  next hdefined => simp [hdefined]

/-- On the line of a step the look-up finds nothing just where the step is not defined. -/
theorem placesAt_eq_nil (view : List Definition) {line : Text} {step : StepLine} (hline : lines[i]? = some line)
    (hstep : StepLine.ofLine? line = some step) :
    Definition.placesAt view (fun j => lines[j]?) i = [] ↔
      Indexes.isDefined view (effectiveKeyword (fun j => lines[j]?) i) step.text = false := by
  simp [Definition.placesAt, hline, hstep, Indexes.isDefined]

/-- A run that is never stopped reports the lines that are left one after the other. -/
theorem found_runOver (view : List Definition) (path : Path) (lines : List Text) (i n : Nat)
    (h : i + n = lines.length) (polls wait : Nat) (found : List Diagnostic) :
    (runOver (Indexes.isDefined view) (fun _ => true) (fun j => lines[j]?) (Scanner.upTo lines i) i polls wait
      found (lines.drop i)).found = some (found.reverse ++ (List.range' i n).filterMap (onLine? view path lines)) := by
  induction n generalizing i polls wait found with
  | zero =>
    rw [List.drop_eq_nil_of_le (by omega)]
    simp [runOver]
  | succ n ih =>
    have hi : i < lines.length := by omega
    have hline : lines[i]? = some lines[i] := List.getElem?_eq_getElem hi
    have hrest := fun polls wait found => ih (i + 1) (by omega) polls wait found
    rw [Scanner.upTo_succ hline] at hrest
    have hhere : Occurrence.onLine? path lines i =
        ((Scanner.upTo lines i).feed lines[i]).2.map (Occurrence.ofStep path i lines[i]) := by
      rw [Occurrence.onLine?, hline, Option.bind_some]
    have hlooked := fun step hstep => placesAt_eq_nil view hline (hstep : StepLine.ofLine? _ = some step)
    rw [List.drop_eq_getElem_cons hi, runOver, List.range'_succ, List.filterMap_cons, onLine?, hhere]
    rcases hfeed : (Scanner.upTo lines i).feed lines[i] with ⟨s, _ | step⟩
    · rw [hfeed] at hrest
      simpa using hrest _ _ found
    · have hstep : StepLine.ofLine? lines[i] = some step.step :=
        (Scanner.feed_eq_some (congrArg Prod.snd hfeed)).2.1
      rw [hfeed] at hrest
      cases hdefined : Indexes.isDefined view (effectiveKeyword (fun j => lines[j]?) i) step.step.text with
      | true =>
        have hplaces : ¬Definition.placesAt view (fun j => lines[j]?) i = [] := by
          rw [hlooked _ hstep, hdefined]
          exact Bool.noConfusion
        simpa [hdefined, hplaces] using hrest _ _ found
      | false =>
        have hplaces := (hlooked _ hstep).mpr hdefined
        have hreported : ofStep i lines[i] step.step = ofOccurrence (.ofStep path i lines[i] step) := rfl
        simpa [hdefined, hplaces, hreported] using hrest _ _ (ofStep i lines[i] step.step :: found)

/-- In a document whose lines have numbers of their own, the diagnostics come in the order of these. -/
theorem pairwise_filterMap (h : lines.length ≤ Text.maxPosition + 1) :
    ((List.range lines.length).filterMap (onLine? view path lines)).Pairwise (·.line < ·.line) := by
  have hnumber : ∀ i < lines.length, ∀ d, onLine? view path lines i = some d → d.line = i := by
    intro i hi d hd
    obtain ⟨-, o, ho, rfl⟩ := onLine?_eq_some.mp hd
    obtain ⟨line, found, -, -, rfl⟩ := Occurrence.onLine?_eq_some ho
    exact Text.lineNumber_eq (by omega)
  rw [List.pairwise_filterMap]
  refine List.pairwise_lt_range.imp_of_mem fun {i j} hi hj hlt d hd d' hd' => ?_
  rw [hnumber i (List.mem_range.mp hi) d hd, hnumber j (List.mem_range.mp hj) d' hd']
  exact hlt

/-- In such a document a line is reported if and only if it has an occurrence and the look-up finds nothing. -/
theorem exists_line_iff (text : Text) (h : (Text.lines text).length ≤ Text.maxPosition + 1) (i : Nat) :
    (∃ d ∈ (List.range (Text.lines text).length).filterMap (onLine? view path (Text.lines text)), d.line = i) ↔
      (∃ o ∈ Occurrence.ofText path text, o.line = i) ∧
        Definition.placesAt view (fun j => (Text.lines text)[j]?) i = [] := by
  have hnumber : ∀ j < (Text.lines text).length, ∀ o,
      Occurrence.onLine? path (Text.lines text) j = some o → o.line = j := by
    intro j hj o ho
    obtain ⟨line, found, -, -, rfl⟩ := Occurrence.onLine?_eq_some ho
    exact Text.lineNumber_eq (by omega)
  simp only [Occurrence.ofText_eq_filterMap, List.mem_filterMap, List.mem_range]
  constructor
  · rintro ⟨d, ⟨j, hj, hd⟩, hline⟩
    obtain ⟨hplaces, o, ho, rfl⟩ := onLine?_eq_some.mp hd
    obtain rfl : j = i := (hnumber j hj o ho).symm.trans hline
    exact ⟨⟨o, ⟨j, hj, ho⟩, hline⟩, hplaces⟩
  · rintro ⟨⟨o, ⟨j, hj, ho⟩, hline⟩, hplaces⟩
    obtain rfl : j = i := (hnumber j hj o ho).symm.trans hline
    exact ⟨ofOccurrence o, ⟨j, hj, onLine?_eq_some.mpr ⟨hplaces, o, ho, rfl⟩⟩, hline⟩

/-- A diagnostic stands where an occurrence of the document does, from its first column to its last where the
columns of the lines have numbers of their own. -/
theorem exists_occurrence {text : Text}
    (h : d ∈ (List.range (Text.lines text).length).filterMap (onLine? view path (Text.lines text))) :
    ∃ o ∈ Occurrence.ofText path text, d = ofOccurrence o ∧
      ((∀ line ∈ Text.lines text, Text.units line ≤ Text.maxPosition) → d.stop = o.column + o.length) := by
  obtain ⟨i, hi, hd⟩ := List.mem_filterMap.mp h
  obtain ⟨-, o, ho, rfl⟩ := onLine?_eq_some.mp hd
  obtain ⟨line, found, hline, hstep, rfl⟩ := Occurrence.onLine?_eq_some ho
  refine ⟨_, ?_, rfl, fun hunits => Nat.min_eq_left ?_⟩
  · rw [Occurrence.ofText_eq_filterMap]
    exact List.mem_filterMap.mpr ⟨i, hi, ho⟩
  · exact (StepLine.column_add_units_le hstep).trans (hunits line (List.mem_of_getElem? hline))

end Diagnostic

namespace Indexes

open Diagnostic (interval)

variable {lineAt : Nat → Option Text} {x : Indexes} {scanner : Scanner} {index polls wait : Nat}
  {found : List Diagnostic} {lines : List Text} {stillWanted : Nat → Bool}

/-- What a run does on a line depends neither on the answers that it gets nor on the lines below. -/
theorem diagnoseLines_cons (lineAt : Nat → Option Text) (x : Indexes) (scanner : Scanner) (index : Nat)
    (found : List Diagnostic) (line : Text) :
    ∃ y scanner' found', ∀ stillWanted polls wait lines,
      x.diagnoseLines stillWanted lineAt scanner index polls wait found (line :: lines) =
        if wait = 1 && !stillWanted (polls + 1) then (x, ⟨polls + 1, none⟩)
        else diagnoseLines stillWanted lineAt y scanner' (index + 1) (if wait = 1 then polls + 1 else polls)
          (if wait = 1 then interval else wait - 1) found' lines := by
  rcases hfeed : scanner.feed line with ⟨scanner', _ | step⟩
  · exact ⟨x, scanner', found, fun stillWanted polls wait lines => by rw [diagnoseLines, hfeed]⟩
  · rcases hlookup : x.lookup (effectiveKeyword lineAt index) step.step.text with ⟨y, _ | ⟨d, defined⟩⟩
    · refine ⟨y, scanner', .ofStep index line step.step :: found, fun stillWanted polls wait lines => ?_⟩
      rw [diagnoseLines, hfeed]
      simp only [hlookup]
    · refine ⟨y, scanner', found, fun stillWanted polls wait lines => ?_⟩
      rw [diagnoseLines, hfeed]
      simp only [hlookup]

/-- The number of questions of a run that is never stopped. -/
theorem polls_diagnoseLines (hpos : 0 < wait) (hwait : wait ≤ interval) :
    (x.diagnoseLines (fun _ => true) lineAt scanner index polls wait found lines).2.polls =
      polls + (lines.length + (interval - wait)) / interval + 1 := by
  simp only [interval] at hwait ⊢
  induction lines generalizing x scanner index polls wait found with
  | nil =>
    rw [diagnoseLines, List.length_nil]
    show polls + 1 = _
    omega
  | cons line lines ih =>
    obtain ⟨y, scanner', found', hrun⟩ := diagnoseLines_cons lineAt x scanner index found line
    rw [hrun, Bool.not_true, Bool.and_false, if_neg Bool.false_ne_true, List.length_cons]
    by_cases hdue : wait = 1
    · simp only [hdue, if_true]
      rw [ih (by decide) (by decide)]
      simp only [interval]
      omega
    · simp only [hdue, if_false]
      rw [ih (by omega) (by omega)]
      omega

/-- Answers to questions that are not asked do not matter. -/
theorem diagnoseLines_of_wanted (hpos : 0 < wait) (hwait : wait ≤ interval)
    (h : ∀ n, polls < n → n ≤ polls + (lines.length + (interval - wait)) / interval + 1 → stillWanted n = true) :
    x.diagnoseLines stillWanted lineAt scanner index polls wait found lines =
      x.diagnoseLines (fun _ => true) lineAt scanner index polls wait found lines := by
  simp only [interval] at hwait h
  induction lines generalizing x scanner index polls wait found with
  | nil => simp only [diagnoseLines, h (polls + 1) (by omega) (by omega)]
  | cons line lines ih =>
    obtain ⟨y, scanner', found', hrun⟩ := diagnoseLines_cons lineAt x scanner index found line
    rw [List.length_cons] at h
    rw [hrun, hrun]
    by_cases hdue : wait = 1
    · have hyes : stillWanted (polls + 1) = true := h (polls + 1) (by omega) (by omega)
      simp only [hdue, hyes, Bool.not_true, Bool.and_false, Bool.false_eq_true, if_false, if_true]
      refine ih (by decide) (by decide) fun n hlt hle => h n (by omega) ?_
      simp only [interval] at hle
      omega
    · simp only [hdue, decide_false, Bool.false_and, Bool.false_eq_true, if_false]
      exact ih (by omega) (by omega) fun n hlt hle => h n hlt (by omega)

/-- The first refusal ends a run, with what the lines before that question have led to. -/
theorem diagnoseLines_of_refused (hpos : 0 < wait) (hwait : wait ≤ interval) {m : Nat}
    (hm : m ≤ (lines.length + (interval - wait)) / interval)
    (hwanted : ∀ n, polls < n → n ≤ polls + m → stillWanted n = true)
    (hrefused : stillWanted (polls + m + 1) = false) :
    x.diagnoseLines stillWanted lineAt scanner index polls wait found lines =
      ((x.diagnoseLines (fun _ => true) lineAt scanner index polls wait found
        (lines.take (wait - 1 + interval * m))).1, ⟨polls + m + 1, none⟩) := by
  simp only [interval] at hwait hm ⊢
  induction lines generalizing x scanner index polls wait found m with
  | nil =>
    rw [List.length_nil] at hm
    obtain rfl : m = 0 := by omega
    simp only [diagnoseLines, List.take_nil, Nat.add_zero] at hrefused ⊢
    simp [hrefused]
  | cons line lines ih =>
    obtain ⟨y, scanner', found', hrun⟩ := diagnoseLines_cons lineAt x scanner index found line
    rw [List.length_cons] at hm
    rw [hrun]
    by_cases hdue : wait = 1
    · subst hdue
      cases m with
      | zero =>
        rw [Nat.add_zero] at hrefused
        simp [hrefused, diagnoseLines]
      | succ m =>
        have hyes : stillWanted (polls + 1) = true := hwanted (polls + 1) (by omega) (by omega)
        have hlines : 1 - 1 + 200 * (m + 1) = 200 - 1 + 200 * m + 1 := by omega
        have hpolls : polls + (m + 1) + 1 = polls + 1 + m + 1 := by omega
        rw [hlines, List.take_succ_cons, hrun, hpolls]
        rw [hpolls] at hrefused
        simp only [hyes, Bool.not_true, Bool.and_false, Bool.false_eq_true, if_false, if_true]
        refine ih (by decide) (by decide) ?_ (fun n hlt hle => hwanted n (by omega) (by omega)) hrefused
        simp only [interval]
        omega
    · have hlines : wait - 1 + 200 * m = wait - 1 - 1 + 200 * m + 1 := by omega
      rw [hlines, List.take_succ_cons, hrun]
      simp only [hdue, decide_false, Bool.false_and, Bool.false_eq_true, if_false]
      exact ih (by omega) (by omega) (by omega) hwanted hrefused

/-- What a run finds that is never stopped, in a view of definitions. -/
theorem Current.found_diagnose (h : x.Current) (path : Path) (text : Text) :
    (x.diagnoseChecked (fun _ => true) text).2.found = some (x.diagnose text).2 ∧
      (x.diagnose text).2 = (List.range (Text.lines text).length).filterMap
        (Diagnostic.onLine? x.definitions.state.allItems path (Text.lines text)) := by
  have hfound : (x.diagnoseChecked (fun _ => true) text).2.found =
      some ((List.range (Text.lines text).length).filterMap
        (Diagnostic.onLine? x.definitions.state.allItems path (Text.lines text))) := by
    simp only [(h.diagnoseChecked _ text).2, List.getElem?_toArray, List.range_eq_range']
    exact Diagnostic.found_runOver _ path (Text.lines text) 0 _ (Nat.zero_add _) 0 interval []
  have hshown : (x.diagnose text).2 = (x.diagnoseChecked (fun _ => true) text).2.found.getD [] := rfl
  rw [hshown, hfound]
  exact ⟨rfl, rfl⟩

theorem Current.diagnoseChecked_of_wanted (h : x.Current) {text : Text}
    (hwanted : ∀ n, 1 ≤ n → n ≤ (Text.lines text).length / interval + 1 → stillWanted n = true) :
    x.diagnoseChecked stillWanted text =
      ((x.diagnose text).1, ⟨(Text.lines text).length / interval + 1, some (x.diagnose text).2⟩) := by
  have hsame : x.diagnoseChecked stillWanted text = x.diagnoseChecked (fun _ => true) text := by
    refine diagnoseLines_of_wanted (by decide) (Nat.le_refl _) fun n hlt hle => hwanted n hlt ?_
    simpa using hle
  have hpolls : (x.diagnoseChecked (fun _ => true) text).2.polls = (Text.lines text).length / interval + 1 :=
    (polls_diagnoseLines (by decide) (Nat.le_refl _)).trans (by simp)
  have hfound := (h.found_diagnose ⟨[]⟩ text).1
  rw [hsame]
  refine Prod.ext rfl ?_
  show (x.diagnoseChecked (fun _ => true) text).2 = _
  rw [← hpolls, ← hfound]

theorem diagnoseChecked_of_refused {text : Text} {n : Nat} (hpos : 1 ≤ n)
    (hn : n ≤ (Text.lines text).length / interval + 1)
    (hwanted : ∀ m, 1 ≤ m → m < n → stillWanted m = true) (hrefused : stillWanted n = false) :
    x.diagnoseChecked stillWanted text =
      ((x.diagnoseLines (fun _ => true) (fun i => (Text.lines text)[i]?) {} 0 0 interval []
        ((Text.lines text).take (interval * n - 1))).1, ⟨n, none⟩) := by
  obtain ⟨m, rfl⟩ : ∃ m, n = m + 1 := ⟨n - 1, by omega⟩
  have hcut : interval * (m + 1) - 1 = interval - 1 + interval * m := by
    simp only [interval]
    omega
  have hrun :
      x.diagnoseLines stillWanted (fun i => (Text.lines text)[i]?) {} 0 0 interval [] (Text.lines text) = _ :=
    diagnoseLines_of_refused (by decide) (Nat.le_refl _) (m := m) (by simpa using Nat.le_of_lt_succ hn)
      (fun k hlt hle => hwanted k hlt (by omega)) (by rwa [Nat.zero_add])
  rw [Nat.zero_add] at hrun
  rw [hcut, ← hrun, Indexes.diagnoseChecked]
  simp only [List.getElem?_toArray]

theorem Current.found_eq_none_iff (h : x.Current) {text : Text} :
    (x.diagnoseChecked stillWanted text).2.found = none ↔
      ∃ n, 1 ≤ n ∧ n ≤ (Text.lines text).length / interval + 1 ∧ stillWanted n = false := by
  constructor
  · intro hnone
    by_contra hall
    have hwanted : ∀ n, 1 ≤ n → n ≤ (Text.lines text).length / interval + 1 → stillWanted n = true := by
      intro n hpos hn
      rw [← Bool.not_eq_false]
      exact fun hrefused => hall ⟨n, hpos, hn, hrefused⟩
    rw [h.diagnoseChecked_of_wanted hwanted] at hnone
    cases hnone
  · intro hrefused
    -- The first refusal, among those that there are.
    obtain ⟨hpos, hn, hfalse⟩ := Nat.find_spec hrefused
    have hwanted : ∀ m, 1 ≤ m → m < Nat.find hrefused → stillWanted m = true := by
      intro m hm hlt
      have hnot := Nat.find_min hrefused hlt
      rw [← Bool.not_eq_false]
      exact fun hfalse => hnot ⟨hm, by omega, hfalse⟩
    exact congrArg (·.2.found) (diagnoseChecked_of_refused hpos hn hwanted hfalse)

end Indexes

/-- At every moment of every run and for every document: the lines that are reported are those with an
occurrence for which the look-up finds no definition, in their order and at the columns of the occurrence. A run
that no answer stops asks at every two hundredth line and once at the end, and gives just these; otherwise the
first refusal answers its last question, and it gives nothing and has done what it does on the lines before that.

The first part names lines by their index. The numbers of diagnostics end at `Text.maxPosition`, so where the
numbers are to tell the lines or the columns apart, a line or a column must not lie beyond it. -/
theorem Service.diagnoses_undefined (root : Path) (definitions usages : Selection) (batchSize maxReplays : Nat)
    (acts : Nat → Act) (t : Nat) (path : Path) (text : Text) :
    let x := ((new root definitions usages batchSize maxReplays).after acts t).indexes
    let lines := Text.lines text
    let lineAt := fun i => lines[i]?
    let found := Occurrence.ofText path text
    let shown := (x.diagnose text).2
    (found = (List.range lines.length).filterMap (Occurrence.onLine? path lines) ∧
      shown = (List.range lines.length).filterMap fun i =>
        if (x.definitionsAt lineAt i).2 = [] then (Occurrence.onLine? path lines i).map Diagnostic.ofOccurrence
        else none) ∧
    (lines.length ≤ Text.maxPosition + 1 →
      (∀ i, (∃ d ∈ shown, d.line = i) ↔
        (∃ o ∈ found, o.line = i) ∧ (x.definitionsAt lineAt i).2 = []) ∧
      shown.Pairwise (·.line < ·.line)) ∧
    (∀ d ∈ shown, ∃ o ∈ found, d = .ofOccurrence o ∧
      ((∀ line ∈ lines, Text.units line ≤ Text.maxPosition) → d.stop = o.column + o.length)) ∧
    ∀ stillWanted,
      let asked := lines.length / Diagnostic.interval + 1
      let checked := x.diagnoseChecked stillWanted text
      ((∀ n, 1 ≤ n → n ≤ asked → stillWanted n = true) → checked = ((x.diagnose text).1, ⟨asked, some shown⟩)) ∧
      (∀ n, 1 ≤ n → n ≤ asked → (∀ m, 1 ≤ m → m < n → stillWanted m = true) → stillWanted n = false →
        checked = ((x.diagnoseLines (fun _ => true) lineAt {} 0 0 Diagnostic.interval []
          (lines.take (Diagnostic.interval * n - 1))).1, ⟨n, none⟩)) ∧
      (checked.2.found = none ↔ ∃ n, 1 ≤ n ∧ n ≤ asked ∧ stillWanted n = false) := by
  intro x lines lineAt found shown
  have hcurrent : x.Current := current_after (current_new root definitions usages batchSize maxReplays) acts t
  have hplaces : ∀ i, (x.definitionsAt lineAt i).2 =
      Definition.placesAt x.definitions.state.allItems lineAt i :=
    fun i => (hcurrent.definitionsAt lineAt i).2
  have hshown := (hcurrent.found_diagnose path text).2
  simp only [hplaces]
  refine ⟨⟨Occurrence.ofText_eq_filterMap path text, hshown⟩, fun hlines => ⟨fun i => ?_, ?_⟩, fun d hd => ?_,
    fun stillWanted => ⟨hcurrent.diagnoseChecked_of_wanted, fun n => Indexes.diagnoseChecked_of_refused,
      hcurrent.found_eq_none_iff⟩⟩
  · rw [show shown = _ from hshown]
    exact Diagnostic.exists_line_iff text hlines i
  · rw [show shown = _ from hshown]
    exact Diagnostic.pairwise_filterMap hlines
  · rw [show shown = _ from hshown] at hd
    exact Diagnostic.exists_occurrence hd

/-- A step module with one function, open in the editor. -/
def definedWorld : World :=
  ⟨⟨[(⟨"/w/steps.py".toList⟩, ⟨"@given('a')\ndef f():".toList, 1⟩)]⟩, .empty⟩

/-- The module is scanned. -/
def definedScan : Nat → Act
  | 0 => .definitions (.start (.scanFile ⟨"/w/steps.py".toList⟩))
  | _ => .definitions (.advance 0 definedWorld 0)

/-- The first of two steps is defined. Only the line of the second is reported, unless the one question is
answered no. -/
theorem Service.diagnoses_undefined_secondStep :
    let x := ((new ⟨"/w".toList⟩ ⟨[], []⟩ ⟨[], []⟩ 1 5).after definedScan 6).indexes
    let text := "Given a\nnothing\nWhen b".toList
    let shown := (x.diagnose text).2
    shown = [⟨2, 5, 6, "Undefined step: When b"⟩] ∧
      (∃ o ∈ Occurrence.ofText ⟨[]⟩ text, o.line = 2 ∧ o.column + o.length = 6) ∧
      (x.definitionsAt (fun i => (Text.lines text)[i]?) 2).2 = [] ∧
      (x.diagnoseChecked (fun n => n = 1) text).2 = ⟨1, some shown⟩ ∧
      (x.diagnoseChecked (fun n => n ≠ 1) text).2 = ⟨1, none⟩ := by
  intro x text shown
  have hshown : shown = [⟨2, 5, 6, "Undefined step: When b"⟩] := by decide +kernel
  obtain ⟨-, hlines, hplace, hasked⟩ :=
    diagnoses_undefined ⟨"/w".toList⟩ ⟨[], []⟩ ⟨[], []⟩ 1 5 definedScan 6 ⟨[]⟩ text
  have hmem : (⟨2, 5, 6, "Undefined step: When b"⟩ : Diagnostic) ∈ shown := by
    rw [hshown]
    exact List.mem_cons_self
  obtain ⟨o, ho, hd, hstop⟩ := hplace _ hmem
  have hend := hstop (by decide +kernel)
  have hundefined := (((hlines (by decide +kernel)).1 2).mp ⟨_, hmem, rfl⟩).2
  obtain ⟨hyes, -, -⟩ := hasked fun n => n = 1
  obtain ⟨-, hno, -⟩ := hasked fun n => n ≠ 1
  refine ⟨hshown, ⟨o, ho, (congrArg Diagnostic.line hd).symm, hend.symm⟩, hundefined, ?_, ?_⟩
  · have hone : (Text.lines text).length / Diagnostic.interval + 1 = 1 := by decide +kernel
    rw [hone] at hyes
    exact congrArg Prod.snd (hyes fun n hpos hn => decide_eq_true (Nat.le_antisymm hn hpos))
  · exact congrArg Prod.snd (hno 1 (Nat.le_refl 1) (Nat.le_add_left 1 _) (fun m hpos hlt => by omega) rfl)

end StepLink
