import StepLink.Proofs.Feature.Inheritance

/-! Doc strings and steps of a feature file, told line by line without the walk. A doc string opens with a mark that
stands in no other doc string, and goes on to the next line with the same mark or to the end. The walk is inside
of one exactly there, and the keyword that it carries is that of the last step outside of doc strings that names
one, unless a header has come since. -/

namespace StepLink

variable {lines : List Text} {line : Text} {fence other : Fence} {i j m : Nat} {k : StepKeyword}
  {step : StepLine} {s : Scanner}

/-- The mark of the fence stands on the line, indentation apart. -/
def MarkAt (lines : List Text) (fence : Fence) (i : Nat) : Prop :=
  ∃ line, lines[i]? = some line ∧ fence.startsLine line = true

/-- A doc string opens on the line: the mark of its fence stands there, and every doc string that opens above has
come to an end above, at a further mark of its own. -/
def OpensDocString (lines : List Text) (fence : Fence) (i : Nat) : Prop :=
  MarkAt lines fence i ∧ ∀ j, j < i → ∀ other, OpensDocString lines other j →
    ∃ m, j < m ∧ m < i ∧ MarkAt lines other m
termination_by i

/-- The line stands in the doc string that opens on line `j` above. That doc string may end on the line, but not
before. -/
structure Encloses (lines : List Text) (fence : Fence) (j i : Nat) : Prop where
  opens : OpensDocString lines fence j
  below : j < i
  goesOn : ∀ m, j < m → m < i → ¬MarkAt lines fence m

/-- The line stands in a doc string that opens above it. -/
def InDocString (lines : List Text) (i : Nat) : Prop :=
  ∃ fence j, Encloses lines fence j i

/-- The line holds a step with a text, outside of doc strings. -/
structure StepStandsAt (lines : List Text) (i : Nat) (step : StepLine) : Prop where
  outside : ¬InDocString lines i
  opensNone : ∀ fence, ¬OpensDocString lines fence i
  holds : ∃ line, lines[i]? = some line ∧ isHeader line = false ∧ StepLine.ofLine? line = some step
  text : step.text ≠ []

/-- The line is a header outside of doc strings. -/
def HeaderStandsAt (lines : List Text) (i : Nat) : Prop :=
  ¬InDocString lines i ∧ ∃ line, lines[i]? = some line ∧ isHeader line = true

/-- The last step above the line that names a keyword names the given one, and no header stands between. -/
def CarriesKeyword (lines : List Text) (i : Nat) (k : StepKeyword) : Prop :=
  ∃ j < i, (∀ m, j < m → m < i →
      ¬HeaderStandsAt lines m ∧ ∀ step, StepStandsAt lines m step → step.token.keyword? = none) ∧
    ∃ step, StepStandsAt lines j step ∧ step.token.keyword? = some k

theorem opensDocString_iff : OpensDocString lines fence i ↔ MarkAt lines fence i ∧ ¬InDocString lines i := by
  rw [OpensDocString]
  refine and_congr_right fun _ => ⟨?_, fun hout j hj other hopens => ?_⟩
  · rintro hends ⟨other, j, henc⟩
    obtain ⟨m, hjm, hmi, hmark⟩ := hends j henc.below other henc.opens
    exact henc.goesOn m hjm hmi hmark
  · by_contra hnone
    exact hout ⟨other, j, hopens, hj, fun m hjm hmi hmark => hnone ⟨m, hjm, hmi, hmark⟩⟩

theorem markAt_iff (hline : lines[i]? = some line) : MarkAt lines fence i ↔ fence.startsLine line = true := by
  refine ⟨fun ⟨found, hfound, hstarts⟩ => ?_, fun hstarts => ⟨line, hline, hstarts⟩⟩
  rwa [Option.some.inj (hfound.symm.trans hline)] at hstarts

/-- No line has the marks of both fences. -/
theorem Fence.eq_of_startsLine (h : fence.startsLine line = true) (h' : other.startsLine line = true) :
    fence = other := by
  by_contra hne
  have hunlike : areUnlike fence.mark other.mark = true := by
    cases fence <;> cases other <;> first | exact absurd rfl hne | decide
  exact (opens_of_startsLine h).not_opens hunlike (opens_of_startsLine h')

theorem Fence.startsLine_of_ofLine? (h : Fence.ofLine? line = some fence) : fence.startsLine line = true := by
  have hstarts := List.find?_some h
  exact hstarts

theorem Fence.ofLine?_eq_some_iff : Fence.ofLine? line = some fence ↔ fence.startsLine line = true := by
  refine ⟨Fence.startsLine_of_ofLine?, fun h => ?_⟩
  cases hfound : Fence.ofLine? line with
  | none =>
    rw [Fence.ofLine?, List.find?_eq_none] at hfound
    exact absurd h (hfound fence (by cases fence <;> decide))
  | some other => rw [Fence.eq_of_startsLine (Fence.startsLine_of_ofLine? hfound) h]

/-- What one more line does to the fence that the walk is in. -/
theorem Scanner.fence_feed (s : Scanner) (line : Text) : (s.feed line).1.fence =
    match s.fence with
    | some fence => if fence.startsLine line then none else some fence
    | none => Fence.ofLine? line := by
  cases hs : s.fence with
  | some fence =>
    cases hstarts : fence.startsLine line <;> simp [feed, hs, hstarts]
  | none =>
    cases hopens : Fence.ofLine? line with
    | some fence => simp [feed, hs, hopens]
    | none =>
      cases hheader : isHeader line with
      | true => simp [feed, hs, hopens, hheader]
      | false =>
        cases hstep : StepLine.ofLine? line with
        | none => simp [feed, hs, hopens, hheader, hstep]
        | some step =>
          cases htext : step.text.isEmpty <;> simp [feed, hs, hopens, hheader, hstep, htext]

theorem exists_encloses_iff : (∃ j, Encloses lines fence j i) ↔
    ∃ j < i, (∀ m, j < m → m < i → ¬MarkAt lines fence m) ∧ OpensDocString lines fence j :=
  ⟨fun ⟨j, hopens, hbelow, hgoes⟩ => ⟨j, hbelow, hgoes, hopens⟩,
    fun ⟨j, hbelow, hgoes, hopens⟩ => ⟨j, hopens, hbelow, hgoes⟩⟩

theorem fence_upTo_eq_some_iff (hi : i ≤ lines.length) (fence : Fence) :
    (Scanner.upTo lines i).fence = some fence ↔ ∃ j, Encloses lines fence j i := by
  induction i generalizing fence with
  | zero => exact ⟨nofun, fun ⟨j, henc⟩ => absurd henc.below (Nat.not_lt_zero j)⟩
  | succ i ih =>
    -- Whether one fence opens here depends on every fence that may be open, so the hypothesis is for all of them.
    have hfence := fun fence => ih (Nat.le_of_succ_le hi) fence
    have hline : lines[i]? = some lines[i] := List.getElem?_eq_getElem hi
    have hout : ¬InDocString lines i ↔ (Scanner.upTo lines i).fence = none := by
      rw [Option.eq_none_iff_forall_ne_some]
      simp only [InDocString, ← hfence, not_exists, ne_eq]
    rw [exists_encloses_iff, exists_since_succ_iff, ← exists_encloses_iff, ← hfence, opensDocString_iff, hout,
      markAt_iff hline, Scanner.upTo_succ hline, Scanner.fence_feed]
    cases (Scanner.upTo lines i).fence with
    | none => simp [Fence.ofLine?_eq_some_iff]
    | some other =>
      by_cases heq : other = fence
      · subst heq
        cases hstarts : other.startsLine lines[i] <;> simp [hstarts]
      · cases hstarts : other.startsLine lines[i] <;> simp [hstarts, heq]

/-- The walk is outside of fences exactly where no doc string goes on. -/
theorem fence_upTo_eq_none_iff (hi : i ≤ lines.length) :
    (Scanner.upTo lines i).fence = none ↔ ¬InDocString lines i := by
  rw [Option.eq_none_iff_forall_ne_some]
  simp only [InDocString, ← fence_upTo_eq_some_iff hi, not_exists, ne_eq]

theorem StepStandsAt.unique {other : StepLine} (h : StepStandsAt lines i step) (h' : StepStandsAt lines i other) :
    step = other := by
  obtain ⟨line, hline, -, hstep⟩ := h.holds
  obtain ⟨line', hline', -, hother⟩ := h'.holds
  obtain rfl := Option.some.inj (hline.symm.trans hline')
  exact Option.some.inj (hstep.symm.trans hother)

theorem HeaderStandsAt.not_step (h : HeaderStandsAt lines i) : ¬StepStandsAt lines i step := by
  intro hstands
  obtain ⟨-, line, hline, hheader⟩ := h
  obtain ⟨line', hline', hplain, -⟩ := hstands.holds
  rw [Option.some.inj (hline.symm.trans hline'), hplain] at hheader
  cases hheader

/-- The walk reports a line exactly if a step stands on it, with the keyword that the token has there. -/
theorem feed_upTo_eq_some_iff (hline : lines[i]? = some line) {found : FoundStep} :
    ((Scanner.upTo lines i).feed line).2 = some found ↔
      StepStandsAt lines i found.step ∧
        found.effective = found.step.token.resolve (Scanner.upTo lines i).context := by
  obtain ⟨hi, -⟩ := List.getElem?_eq_some_iff.mp hline
  constructor
  · intro h
    obtain ⟨hfence, hstep, heffective⟩ := Scanner.feed_eq_some h
    refine ⟨⟨(fence_upTo_eq_none_iff (Nat.le_of_lt hi)).mp hfence, fun fence hopens => ?_,
      ⟨line, hline, isHeader_of_step hstep, hstep⟩, fun htext => ?_⟩, heffective⟩
    · have hstarts := (markAt_iff hline).mp (opensDocString_iff.mp hopens).1
      rw [startsLine_of_step hstep] at hstarts
      cases hstarts
    · rw [Scanner.feed_step hfence hstep, htext] at h
      cases h
  · rintro ⟨⟨hout, -, ⟨other, hother, -, hstep⟩, htext⟩, heffective⟩
    obtain rfl := Option.some.inj (hother.symm.trans hline)
    rw [Scanner.feed_step ((fence_upTo_eq_none_iff (Nat.le_of_lt hi)).mpr hout) hstep,
      if_neg (mt List.isEmpty_iff.mp htext), ← heffective]

theorem context_upTo_of_header (h : HeaderStandsAt lines i) : (Scanner.upTo lines (i + 1)).context = none := by
  obtain ⟨hout, line, hline, hheader⟩ := h
  obtain ⟨hi, -⟩ := List.getElem?_eq_some_iff.mp hline
  have hfence := (fence_upTo_eq_none_iff (Nat.le_of_lt hi)).mpr hout
  rw [Scanner.upTo_succ hline]
  simp only [Scanner.feed, hfence, ofLine?_eq_none (startsLine_of_isHeader hheader), hheader, if_true]

theorem context_upTo_of_step (h : StepStandsAt lines i step) :
    (Scanner.upTo lines (i + 1)).context = step.token.resolve (Scanner.upTo lines i).context := by
  obtain ⟨line, hline, -, hstep⟩ := h.holds
  obtain ⟨hi, -⟩ := List.getElem?_eq_some_iff.mp hline
  have hfence := (fence_upTo_eq_none_iff (Nat.le_of_lt hi)).mpr h.outside
  rw [Scanner.upTo_succ hline, Scanner.feed_step hfence hstep]
  simp [h.text]

/-- Every other line leaves the keyword as it is. -/
theorem context_upTo_of_neither (hline : lines[i]? = some line) (hheader : ¬HeaderStandsAt lines i)
    (hstep : ∀ step, ¬StepStandsAt lines i step) :
    (Scanner.upTo lines (i + 1)).context = (Scanner.upTo lines i).context := by
  obtain ⟨hi, -⟩ := List.getElem?_eq_some_iff.mp hline
  rw [Scanner.upTo_succ hline]
  have hreports : ((Scanner.upTo lines i).feed line).2 = none := by
    rw [Option.eq_none_iff_forall_ne_some]
    exact fun found hfound => hstep found.step ((feed_upTo_eq_some_iff hline).mp hfound).1
  cases hfence : (Scanner.upTo lines i).fence with
  | some fence =>
    cases hstarts : fence.startsLine line <;> simp [Scanner.feed, hfence, hstarts]
  | none =>
    have hplain : isHeader line = false := by
      rw [← Bool.not_eq_true]
      exact fun h => hheader ⟨(fence_upTo_eq_none_iff (Nat.le_of_lt hi)).mp hfence, line, hline, h⟩
    cases hopens : Fence.ofLine? line with
    | some fence => simp [Scanner.feed, hfence, hopens]
    | none =>
      cases hparsed : StepLine.ofLine? line with
      | none => simp [Scanner.feed, hfence, hopens, hplain, hparsed]
      | some step =>
        rw [Scanner.feed_step hfence hparsed] at hreports ⊢
        split at hreports
        next htext => simp [htext]
        next => cases hreports

theorem context_upTo_eq_some_iff (hi : i ≤ lines.length) :
    (Scanner.upTo lines i).context = some k ↔ CarriesKeyword lines i k := by
  induction i with
  | zero => exact ⟨nofun, fun ⟨j, hj, _⟩ => absurd hj (Nat.not_lt_zero j)⟩
  | succ i ih =>
    have hline : lines[i]? = some lines[i] := List.getElem?_eq_getElem hi
    have hcarried := ih (Nat.le_of_succ_le hi)
    rw [CarriesKeyword, exists_since_succ_iff, ← CarriesKeyword, ← hcarried]
    by_cases hheader : HeaderStandsAt lines i
    · rw [context_upTo_of_header hheader]
      refine ⟨nofun, ?_⟩
      rintro (⟨step, hstep, -⟩ | ⟨⟨hnone, -⟩, -⟩)
      · exact absurd hstep hheader.not_step
      · exact absurd hheader hnone
    · by_cases hstep : ∃ step, StepStandsAt lines i step
      · obtain ⟨step, hstep⟩ := hstep
        have honly : ∀ other, StepStandsAt lines i other ↔ other = step :=
          fun other => ⟨fun h => h.unique hstep, fun heq => heq ▸ hstep⟩
        rw [context_upTo_of_step hstep, StepToken.resolve]
        cases hk : step.token.keyword? <;> simp [honly, hk, hheader]
      · rw [context_upTo_of_neither hline hheader (not_exists.mp hstep)]
        simp [not_exists.mp hstep, hheader]

/-- On every list of lines the walk reports exactly the steps with a text that stand outside of doc strings, and
gives each the keyword of its own token, or, if that continues another step, the keyword of the last step
above that names one, if no header outside of doc strings stands between. -/
theorem Scanner.reports_iff_stands (lines : List Text) (i : Nat) (found : FoundStep) :
    (Scanner.feedAll {} lines)[i]? = some (some found) ↔ StepStandsAt lines i found.step ∧
      ∀ k, found.effective = some k ↔ found.step.token.keyword? = some k ∨
        found.step.token.keyword? = none ∧ CarriesKeyword lines i k := by
  rw [Scanner.getElem?_feedAll, Option.map_eq_some_iff]
  have hkeyword : i ≤ lines.length → (found.effective = found.step.token.resolve (Scanner.upTo lines i).context ↔
      ∀ k, found.effective = some k ↔ found.step.token.keyword? = some k ∨
        found.step.token.keyword? = none ∧ CarriesKeyword lines i k) := by
    intro hi
    rw [Option.ext_iff, StepToken.resolve]
    simp only [Option.or_eq_some_iff, context_upTo_eq_some_iff hi]
  constructor
  · rintro ⟨line, hline, hfound⟩
    obtain ⟨hi, -⟩ := List.getElem?_eq_some_iff.mp hline
    rwa [feed_upTo_eq_some_iff hline, hkeyword (Nat.le_of_lt hi)] at hfound
  · rintro ⟨hstands, heffective⟩
    obtain ⟨line, hline, -⟩ := hstands.holds
    obtain ⟨hi, -⟩ := List.getElem?_eq_some_iff.mp hline
    exact ⟨line, hline, (feed_upTo_eq_some_iff hline).mpr ⟨hstands, (hkeyword (Nat.le_of_lt hi)).mpr heffective⟩⟩

end StepLink
