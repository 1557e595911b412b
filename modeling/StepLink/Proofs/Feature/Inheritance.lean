import Mathlib.Data.List.Infix
import StepLink.Feature.Inheritance
import StepLink.Feature.Occurrence

/-! Two ways to the keyword that a continuing step inherits: the walk over a feature file carries it from
line to line, and the search goes up from the step until a line ends it. They stop at different lines, and
where they agree is told exactly. -/

namespace StepLink

/-- The line opens with the word, in any case of the letters, indentation apart. -/
def Opens (word line : Text) : Prop :=
  word.map Char.toLower <+: (Text.trimStart line).map Char.toLower

/-- Neither of the words opens the other, in any case of the letters. -/
def areUnlike (v w : Text) : Bool :=
  !(v.map Char.toLower).isPrefixOf (w.map Char.toLower) &&
    !(w.map Char.toLower).isPrefixOf (v.map Char.toLower)

theorem Opens.not_opens {v w line : Text} (hv : Opens v line) (hunlike : areUnlike v w = true) :
    ¬Opens w line := by
  intro hw
  rw [areUnlike, Bool.and_eq_true, Bool.not_eq_true', Bool.not_eq_true'] at hunlike
  rcases List.prefix_or_prefix_of_prefix hv hw with hprefix | hprefix
  · rw [List.isPrefixOf_iff_prefix.mpr hprefix] at hunlike
    cases hunlike.1
  · rw [List.isPrefixOf_iff_prefix.mpr hprefix] at hunlike
    cases hunlike.2

theorem trimEnd_isPrefix_self (t : Text) : Text.trimEnd t <+: t := by
  rw [← List.reverse_suffix, Text.trimEnd, List.reverse_reverse]
  exact List.dropWhile_suffix _

theorem opens_of_step {line : Text} {step : StepLine} (h : StepLine.ofLine? line = some step) :
    ∃ entry ∈ StepToken.table, Opens entry.1 line := by
  obtain ⟨entry, hentry, hread⟩ := List.exists_of_findSome?_eq_some h
  refine ⟨entry, hentry, ?_⟩
  simp only [StepLine.read?] at hread
  split at hread
  next hsame =>
    rw [Bool.and_eq_true, Text.sameIgnoringCase, beq_iff_eq] at hsame
    rw [Opens, ← hsame.1]
    exact List.IsPrefix.map _ <| List.take_prefix _ _
  next => cases hread

theorem opens_of_isHeader {line : Text} (h : isHeader line = true) :
    ∃ word ∈ headerWords, Opens word line := by
  rw [isHeader, Bool.and_eq_true, List.any_eq_true] at h
  obtain ⟨-, word, hword, hsame⟩ := h
  rw [Text.sameIgnoringCase, beq_iff_eq] at hsame
  refine ⟨word, hword, ?_⟩
  rw [Opens, ← hsame]
  exact List.IsPrefix.map _ <| (trimEnd_isPrefix_self _).trans <| List.takeWhile_prefix _

theorem opens_of_startsLine {fence : Fence} {line : Text} (h : fence.startsLine line = true) :
    Opens fence.mark line :=
  List.IsPrefix.map _ <| List.isPrefixOf_iff_prefix.mp h

theorem opens_of_isFillerLine {line : Text} (h : isFillerLine line = true) :
    Text.trimStart line = [] ∨ Opens ['#'] line := by
  rw [isFillerLine] at h
  rw [Opens]
  cases hbody : Text.trimStart line with
  | nil => exact .inl rfl
  | cons c rest =>
    rw [hbody, beq_iff_eq] at h
    rw [h]
    exact .inr ⟨rest.map Char.toLower, rfl⟩

/-- The words that open a step, a header or a doc string. -/
def openings : List Text :=
  StepToken.table.map (·.1) ++ headerWords ++ [Fence.quotes.mark, Fence.backticks.mark]

theorem isFillerLine_of_opens {line word : Text} (hword : word ∈ openings) (h : Opens word line) :
    isFillerLine line = false := by
  have hunlike : ∀ word ∈ openings, areUnlike word ['#'] = true := by decide
  have hempty : [] ∉ openings := by decide
  rw [← Bool.not_eq_true]
  intro hfiller
  rcases opens_of_isFillerLine hfiller with hnil | hcomment
  · rw [Opens, hnil, List.map_nil, List.prefix_nil, List.map_eq_nil_iff] at h
    exact hempty (h ▸ hword)
  · exact h.not_opens (hunlike word hword) hcomment

theorem Fence.mark_mem_openings (fence : Fence) : fence.mark ∈ openings := by
  cases fence <;> decide

theorem isFillerLine_of_step {line : Text} {step : StepLine} (h : StepLine.ofLine? line = some step) :
    isFillerLine line = false := by
  obtain ⟨entry, hentry, hopens⟩ := opens_of_step h
  refine isFillerLine_of_opens ?_ hopens
  exact List.mem_append_left _ (List.mem_append_left _ (List.mem_map_of_mem hentry))

theorem isHeader_of_step {line : Text} {step : StepLine} (h : StepLine.ofLine? line = some step) :
    isHeader line = false := by
  have hunlike : ∀ entry ∈ StepToken.table, ∀ word ∈ headerWords, areUnlike entry.1 word = true := by decide
  rw [← Bool.not_eq_true]
  intro hheader
  obtain ⟨entry, hentry, hopens⟩ := opens_of_step h
  obtain ⟨word, hword, hopens'⟩ := opens_of_isHeader hheader
  exact hopens.not_opens (hunlike entry hentry word hword) hopens'

/-- No step and no header opens or closes a doc string. -/
theorem startsLine_of_opens {line word : Text} (hword : word ∈ StepToken.table.map (·.1) ++ headerWords)
    (h : Opens word line) (fence : Fence) : fence.startsLine line = false := by
  have hunlike : ∀ word ∈ StepToken.table.map (·.1) ++ headerWords, areUnlike word fence.mark = true := by
    cases fence <;> decide
  rw [← Bool.not_eq_true]
  intro hstarts
  exact h.not_opens (hunlike word hword) (opens_of_startsLine hstarts)

theorem startsLine_of_step {line : Text} {step : StepLine} (h : StepLine.ofLine? line = some step)
    (fence : Fence) : fence.startsLine line = false := by
  obtain ⟨entry, hentry, hopens⟩ := opens_of_step h
  exact startsLine_of_opens (List.mem_append_left _ (List.mem_map_of_mem hentry)) hopens fence

theorem startsLine_of_isHeader {line : Text} (h : isHeader line = true) (fence : Fence) :
    fence.startsLine line = false := by
  obtain ⟨word, hword, hopens⟩ := opens_of_isHeader h
  exact startsLine_of_opens (List.mem_append_right _ hword) hopens fence

theorem startsLine_of_isFillerLine {line : Text} (h : isFillerLine line = true) (fence : Fence) :
    fence.startsLine line = false := by
  rw [← Bool.not_eq_true]
  intro hstarts
  rw [isFillerLine_of_opens fence.mark_mem_openings (opens_of_startsLine hstarts)] at h
  cases h

theorem isHeader_of_isFillerLine {line : Text} (h : isFillerLine line = true) : isHeader line = false := by
  rw [← Bool.not_eq_true]
  intro hheader
  obtain ⟨word, hword, hopens⟩ := opens_of_isHeader hheader
  rw [isFillerLine_of_opens (List.mem_append_left _ (List.mem_append_right _ hword)) hopens] at h
  cases h

theorem ofLine?_of_isFillerLine {line : Text} (h : isFillerLine line = true) :
    StepLine.ofLine? line = none := by
  cases hstep : StepLine.ofLine? line with
  | none => rfl
  | some step =>
    rw [isFillerLine_of_step hstep] at h
    cases h

theorem ofLine?_eq_none {line : Text} (h : ∀ fence : Fence, fence.startsLine line = false) :
    Fence.ofLine? line = none := by
  rw [Fence.ofLine?, List.find?_eq_none]
  intro fence _
  rw [h fence]
  exact Bool.false_ne_true

/-- The search up from a step goes past the line: it is blank, a comment or a continuing step. -/
def Passes (line : Text) : Prop :=
  isFillerLine line = true ∨ ∃ step, StepLine.ofLine? line = some step ∧ step.token.keyword? = none

variable {s : Scanner} {line : Text} {step : StepLine} {lines : List Text}

theorem Passes.startsLine (h : Passes line) (fence : Fence) : fence.startsLine line = false := by
  rcases h with hfiller | ⟨step, hstep, -⟩
  · exact startsLine_of_isFillerLine hfiller fence
  · exact startsLine_of_step hstep fence

theorem Scanner.feed_fenced {fence : Fence} (hs : s.fence = some fence) (h : fence.startsLine line = false) :
    s.feed line = (s, none) := by
  simp only [Scanner.feed, hs, h, Bool.false_eq_true, if_false]

theorem Scanner.feed_step (hs : s.fence = none) (h : StepLine.ofLine? line = some step) :
    s.feed line =
      let effective := step.token.resolve s.context
      if step.text.isEmpty then (s, none)
      else ({ s with context := effective }, some ⟨step, effective⟩) := by
  simp only [Scanner.feed, hs, ofLine?_eq_none (startsLine_of_step h), isHeader_of_step h, h,
    Bool.false_eq_true, if_false]

/-- A line that the search goes past leaves the walk as it is. -/
theorem Passes.feed (h : Passes line) (s : Scanner) : (s.feed line).1 = s := by
  cases hs : s.fence with
  | some fence => rw [Scanner.feed_fenced hs (h.startsLine fence)]
  | none =>
    rcases h with hfiller | ⟨step, hstep, hcontinues⟩
    · simp only [Scanner.feed, hs, ofLine?_eq_none (startsLine_of_isFillerLine hfiller),
        isHeader_of_isFillerLine hfiller, ofLine?_of_isFillerLine hfiller, Bool.false_eq_true, if_false]
    · rw [Scanner.feed_step hs hstep, StepToken.resolve, hcontinues, Option.none_or]
      split <;> rfl

/-- The line ends the search up from a step at another keyword than the walk carries on: it is no step and no
header, but the walk has a keyword, or it names a keyword without a text, which the walk passes over. -/
def CutsOff (context : Option StepKeyword) (line : Text) : Prop :=
  match StepLine.ofLine? line with
  | none => isFillerLine line = false ∧ isHeader line = false ∧ context ≠ none
  | some step => step.token.keyword? ≠ none ∧ step.text = [] ∧ context ≠ step.token.keyword?

/-- A line that ends the search, outside of doc strings, gives the keyword that the walk carries on unless it
cuts the steps below off. -/
theorem context_feed_iff (hends : ¬Passes line) (hfence : (s.feed line).1.fence = none) :
    (s.feed line).1.context = (StepLine.ofLine? line).bind (·.token.keyword?) ↔ ¬CutsOff s.context line := by
  have hopen : ∀ fence, s.fence = some fence → fence.startsLine line = true := by
    intro fence hs
    by_contra hstays
    rw [Scanner.feed_fenced hs (Bool.not_eq_true _ ▸ hstays), hs] at hfence
    cases hfence
  have houtside : (∀ fence : Fence, fence.startsLine line = false) → s.fence = none := by
    intro hplain
    rw [Option.eq_none_iff_forall_ne_some]
    intro fence hs
    have hstarts := hopen fence hs
    rw [hplain fence] at hstarts
    cases hstarts
  cases hstep : StepLine.ofLine? line with
  | none =>
    have hfiller : isFillerLine line = false := Bool.not_eq_true _ ▸ fun h => hends (.inl h)
    simp only [CutsOff, hstep, hfiller, Option.bind_none, true_and]
    cases hheader : isHeader line with
    | true =>
      have hs : s.fence = none := houtside (startsLine_of_isHeader hheader)
      simp [Scanner.feed, hs, ofLine?_eq_none (startsLine_of_isHeader hheader), hheader]
    | false =>
      have hcontext : (s.feed line).1.context = s.context := by
        cases hs : s.fence with
        | some fence => simp [Scanner.feed, hs, hopen fence hs]
        | none =>
          cases hopens : Fence.ofLine? line with
          | some fence => simp [Scanner.feed, hs, hopens] at hfence
          | none => simp [Scanner.feed, hs, hopens, hheader, hstep]
      rw [hcontext]
      simp
  | some step =>
    have hs : s.fence = none := houtside (startsLine_of_step hstep)
    obtain ⟨k, hk⟩ : ∃ k, step.token.keyword? = some k := by
      cases hk : step.token.keyword? with
      | none => exact absurd (.inr ⟨step, hstep, hk⟩) hends
      | some k => exact ⟨k, rfl⟩
    simp only [CutsOff, hstep, hk, Option.bind_some, Scanner.feed_step hs hstep]
    cases htext : step.text with
    | nil => simp
    | cons c text => simp [StepToken.resolve, hk]

/-! ### The walk and the search -/

/-- The walk over the first lines. -/
def Scanner.upTo (lines : List Text) (i : Nat) : Scanner :=
  (lines.take i).foldl (fun s line => (s.feed line).1) {}

theorem Scanner.upTo_succ {i : Nat} (h : lines[i]? = some line) :
    Scanner.upTo lines (i + 1) = ((Scanner.upTo lines i).feed line).1 := by
  rw [upTo, List.take_add_one, h, Option.toList_some, List.foldl_append, List.foldl_cons, List.foldl_nil,
    ← upTo]

/-- The steps that a walk finds are those of its lines, each fed after the lines before it. -/
theorem Scanner.getElem?_feedAll (lines : List Text) (i : Nat) :
    (Scanner.feedAll {} lines)[i]? = lines[i]?.map fun line => ((Scanner.upTo lines i).feed line).2 := by
  suffices ∀ s : Scanner, (s.feedAll lines)[i]? =
      lines[i]?.map fun line => (((lines.take i).foldl (fun s line => (s.feed line).1) s).feed line).2 from
    this {}
  induction lines generalizing i with
  | nil => intro s; rfl
  | cons line lines ih =>
    intro s
    cases i with
    | zero => rfl
    | succ i =>
      rw [Scanner.feedAll, List.getElem?_cons_succ, List.getElem?_cons_succ, List.take_succ_cons,
        List.foldl_cons]
      exact ih i (s.feed line).1

/-- What has come up somewhere above the next line, and has been kept up since, comes up on this line, or it has come
up above and is kept up here. -/
theorem exists_since_succ_iff {comesUp keepsUp : Nat → Prop} {i : Nat} :
    (∃ j < i + 1, (∀ m, j < m → m < i + 1 → keepsUp m) ∧ comesUp j) ↔
      comesUp i ∨ keepsUp i ∧ ∃ j < i, (∀ m, j < m → m < i → keepsUp m) ∧ comesUp j := by
  constructor
  · rintro ⟨j, hj, hkeeps, hcomes⟩
    rcases Nat.lt_succ_iff_lt_or_eq.mp hj with hj | rfl
    · exact .inr ⟨hkeeps i hj (Nat.lt_succ_self i), j, hj, fun m hjm hmi => hkeeps m hjm (Nat.lt_succ_of_lt hmi),
        hcomes⟩
    · exact .inl hcomes
  · rintro (hcomes | ⟨hhere, j, hj, hkeeps, hcomes⟩)
    · exact ⟨i, Nat.lt_succ_self i, fun m him hmi => by omega, hcomes⟩
    · refine ⟨j, Nat.lt_succ_of_lt hj, fun m hjm hmi => ?_, hcomes⟩
      rcases Nat.lt_succ_iff_lt_or_eq.mp hmi with hmi | rfl
      · exact hkeeps m hjm hmi
      · exact hhere

/-- Some line above cuts the line of the index off, and the search comes up to it. -/
def IsCutOff (lines : List Text) (i : Nat) : Prop :=
  ∃ j < i, (∀ m, j < m → m < i → ∃ line, lines[m]? = some line ∧ Passes line) ∧
    ∃ line, lines[j]? = some line ∧ CutsOff (Scanner.upTo lines j).context line

theorem inheritedKeyword_of_passes {lineAt : Nat → Option Text} {i : Nat} (hline : lineAt i = some line)
    (h : Passes line) : inheritedKeyword lineAt (i + 1) = inheritedKeyword lineAt i := by
  rw [inheritedKeyword, hline]
  rcases h with hfiller | ⟨step, hstep, hcontinues⟩
  · exact if_pos hfiller
  · simp only [isFillerLine_of_step hstep, hstep, hcontinues, Bool.false_eq_true, if_false]

theorem inheritedKeyword_of_ends {lineAt : Nat → Option Text} {i : Nat} (hline : lineAt i = some line)
    (h : ¬Passes line) :
    inheritedKeyword lineAt (i + 1) = (StepLine.ofLine? line).bind (·.token.keyword?) := by
  rw [inheritedKeyword, hline]
  have hfiller : ¬isFillerLine line = true := fun hfiller => h (.inl hfiller)
  cases hstep : StepLine.ofLine? line with
  | none => simp [hfiller, hstep]
  | some step =>
    cases hk : step.token.keyword? with
    | none => exact absurd (.inr ⟨step, hstep, hk⟩) h
    | some k => simp [hfiller, hstep, hk]

theorem Passes.not_cutsOff (h : Passes line) (context : Option StepKeyword) : ¬CutsOff context line := by
  intro hcuts
  rw [CutsOff] at hcuts
  rcases h with hfiller | ⟨step, hstep, hcontinues⟩
  · rw [ofLine?_of_isFillerLine hfiller, hfiller] at hcuts
    cases hcuts.1
  · rw [hstep] at hcuts
    exact hcuts.1 hcontinues

theorem isCutOff_of_passes {i : Nat} (hline : lines[i]? = some line) (h : Passes line) :
    IsCutOff lines (i + 1) ↔ IsCutOff lines i := by
  rw [IsCutOff, exists_since_succ_iff]
  constructor
  · rintro (⟨other, hother, hcuts⟩ | ⟨-, hcut⟩)
    · obtain rfl := Option.some.inj (hother.symm.trans hline)
      exact absurd hcuts (h.not_cutsOff _)
    · exact hcut
  · exact fun hcut => .inr ⟨⟨line, hline, h⟩, hcut⟩

theorem isCutOff_of_ends {i : Nat} (hline : lines[i]? = some line) (h : ¬Passes line) :
    IsCutOff lines (i + 1) ↔ CutsOff (Scanner.upTo lines i).context line := by
  rw [IsCutOff, exists_since_succ_iff]
  constructor
  · rintro (⟨other, hother, hcuts⟩ | ⟨⟨other, hother, hpass⟩, -⟩) <;>
      obtain rfl := Option.some.inj (hother.symm.trans hline)
    · exact hcuts
    · exact absurd hpass h
  · exact fun hcuts => .inl ⟨line, hline, hcuts⟩

/-- Outside of doc strings the search finds the keyword that the walk carries, except where it is cut off. -/
theorem context_upTo_iff (lines : List Text) (i : Nat) (hi : i ≤ lines.length)
    (hfence : (Scanner.upTo lines i).fence = none) :
    (Scanner.upTo lines i).context = inheritedKeyword (fun j => lines[j]?) i ↔ ¬IsCutOff lines i := by
  induction i with
  | zero => exact ⟨fun _ ⟨j, hj, _⟩ => absurd hj (Nat.not_lt_zero j), fun _ => rfl⟩
  | succ i ih =>
    obtain ⟨line, hline⟩ : ∃ line, lines[i]? = some line := ⟨_, List.getElem?_eq_getElem hi⟩
    rw [Scanner.upTo_succ hline] at hfence ⊢
    by_cases hpass : Passes line
    · rw [hpass.feed] at hfence ⊢
      rw [inheritedKeyword_of_passes hline hpass, isCutOff_of_passes hline hpass]
      exact ih (Nat.le_of_succ_le hi) hfence
    · rw [inheritedKeyword_of_ends hline hpass, isCutOff_of_ends hline hpass]
      exact context_feed_iff hpass hfence

/-- A line that the walk reports stands outside of doc strings, and its keyword is its own or the one that is
carried. -/
theorem Scanner.feed_eq_some {found : FoundStep} (h : (s.feed line).2 = some found) :
    s.fence = none ∧ StepLine.ofLine? line = some found.step ∧
      found.effective = found.step.token.resolve s.context := by
  cases hs : s.fence with
  | some fence => simp [feed, hs] at h
  | none =>
    cases hstep : StepLine.ofLine? line with
    | none =>
      simp only [feed, hs, hstep] at h
      split at h
      next => cases h
      next => split at h <;> cases h
    | some step =>
      rw [feed_step hs hstep] at h
      split at h
      next => cases h
      next =>
        obtain rfl := Option.some.inj h
        exact ⟨rfl, rfl, rfl⟩

/-- The index of usages keeps the steps that the walk reports, with the keywords that the walk gives them. -/
theorem Occurrence.map_effective_ofLines (path : Path) (s : Scanner) (index : Nat) (lines : List Text) :
    (ofLines path s index lines).map (·.effective) = ((s.feedAll lines).filterMap id).map (·.effective) := by
  induction lines generalizing s index with
  | nil => rfl
  | cons line lines ih =>
    rw [ofLines, Scanner.feedAll]
    cases hfeed : s.feed line with
    | mk s found =>
      cases found with
      | none => exact ih s (index + 1)
      | some found => exact congrArg (found.effective :: ·) (ih s (index + 1))

/-- For every line of a feature file that holds a step, the keyword that the walk gives the step is the one
that the search finds, unless the step continues another one and is cut off: above it, with only blank
lines, comments and continuing steps between, stands a line that is no step and no header while the walk
carries a keyword, or one that names another keyword without a text. -/
theorem effective_eq_iff_not_isCutOff (text : Text) {i : Nat} {found : FoundStep}
    (h : (Scanner.feedAll {} (Text.lines text))[i]? = some (some found)) :
    found.effective = effectiveKeyword (fun j => (Text.lines text)[j]?) i ↔
      ¬(found.step.token.keyword? = none ∧ IsCutOff (Text.lines text) i) := by
  rw [Scanner.getElem?_feedAll] at h
  obtain ⟨line, hline, hfeed⟩ := Option.map_eq_some_iff.mp h
  obtain ⟨hfence, hstep, heffective⟩ := Scanner.feed_eq_some hfeed
  rw [heffective, effectiveKeyword, hline, Option.bind_some, hstep]
  cases hk : found.step.token.keyword? with
  | some k => simp [StepToken.resolve, hk]
  | none =>
    obtain ⟨hi, -⟩ := List.getElem?_eq_some_iff.mp hline
    have hiff := context_upTo_iff (Text.lines text) i (Nat.le_of_lt hi) hfence
    simpa [StepToken.resolve, hk] using hiff

/-- A table below a step cuts off the steps that continue it: the walk still gives them its keyword, but the
search ends at the table without one. -/
theorem effective_eq_iff_not_isCutOff_table :
    let lines := Text.lines "Given a\n| x |\nAnd b\n".toList
    (Scanner.feedAll {} lines)[2]? = some (some ⟨⟨.and, "And".toList, "b".toList, 4⟩, some .given⟩) ∧
      effectiveKeyword (fun j => lines[j]?) 2 = none ∧ IsCutOff lines 2 := by
  intro lines
  have hfound : (Scanner.feedAll {} lines)[2]? =
      some (some ⟨⟨.and, "And".toList, "b".toList, 4⟩, some .given⟩) := by decide
  have hnone : effectiveKeyword (fun j => lines[j]?) 2 = none := by decide
  have hiff := effective_eq_iff_not_isCutOff "Given a\n| x |\nAnd b\n".toList hfound
  refine ⟨hfound, hnone, ?_⟩
  by_contra hcut
  have hequal := hiff.mpr fun h => hcut h.2
  rw [hnone] at hequal
  cases hequal

end StepLink
