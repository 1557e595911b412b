import StepLink.Proofs.Feature.DocString
import StepLink.Proofs.Pattern.Snippet
import StepLink.Proofs.Query.Diagnostics

/-! Look-ups on lines that hold no step. The walk over a feature file knows what stands in a doc string and passes
over tokens without a text; the look-up of definitions reads one line alone and knows neither. On a line that the
walk does not report it finds definitions in exactly these two cases. -/

namespace StepLink

theorem Field.Kind.not_holds_nil (kind : Field.Kind) : ¬kind.Holds [] := by
  have hinteger : ¬IsInteger [] := by
    rintro ⟨sign, digits, happend, -, hne, -⟩
    exact hne (List.append_eq_nil_iff.mp happend.symm).2
  cases kind with
  | integer => exact hinteger
  | decimal =>
    rintro ⟨whole, rest, fraction, happend, hwhole, -⟩
    rw [(List.append_eq_nil_iff.mp happend.symm).1] at hwhole
    exact hinteger hwhole
  | _ => exact fun h => h.1 rfl

theorem Token.not_admits_nil {token : Token} (h : token ≠ .literal []) : ¬token.Admits [] := by
  cases token with
  | literal u =>
    intro hadmits
    rw [Admits, List.forall₂_nil_right_iff] at hadmits
    exact h (congrArg literal hadmits)
  | field start f =>
    rintro (hholds | ⟨name, happend, -⟩)
    · exact Field.Kind.not_holds_nil _ hholds
    · cases happend
  | openBrace => exact (List.cons_ne_nil _ _).symm
  | closeBrace => exact (List.cons_ne_nil _ _).symm

theorem Token.literal_nil_not_mem_gather (pieces : List (Nat × Piece)) : .literal [] ∉ gather pieces := by
  induction pieces with
  | nil => exact List.not_mem_nil
  | cons entry pieces ih =>
    obtain ⟨start, piece⟩ := entry
    cases piece with
    | letter c =>
      rw [gather]
      split
      next t tokens hgather =>
        rw [hgather, List.mem_cons, not_or] at ih
        simp [ih.2]
      next => simp [ih]
    | _ => simp [gather, ih]

/-- No token of a pattern stands for the empty text. -/
theorem Token.not_admits_nil_of_mem_gather {pieces : List (Nat × Piece)} {token : Token}
    (h : token ∈ gather pieces) : ¬token.Admits [] := by
  refine not_admits_nil fun hempty => literal_nil_not_mem_gather pieces ?_
  rwa [← hempty]

theorem Token.gather_ne_nil (entry : Nat × Piece) (pieces : List (Nat × Piece)) :
    gather (entry :: pieces) ≠ [] := by
  obtain ⟨start, piece⟩ := entry
  cases piece with
  | letter c =>
    rw [gather]
    split <;> exact List.cons_ne_nil _ _
  | _ => exact List.cons_ne_nil _ _

/-- A pattern that can be compiled accepts the empty text only if it is empty. -/
theorem Matcher.accepts_nil_iff {pattern : Text} {m : Matcher} (h : ofPattern pattern = .ok m) :
    m.accepts [] = true ↔ pattern = [] := by
  obtain ⟨tokens, htokens, hexpression⟩ := exists_tokens h
  rw [accepts_iff_spell hexpression]
  obtain ⟨pieces, hcut, rfl⟩ := Token.ofPattern_iff.mp htokens
  constructor
  · rintro ⟨segments, hadmits, hflatten⟩
    by_contra hne
    obtain ⟨p, ps, rfl⟩ := hcut.exists_cons hne
    -- The first token would have to stand for the first, empty segment.
    cases hgather : Token.gather (p :: ps) with
    | nil => exact absurd hgather (Token.gather_ne_nil _ _)
    | cons token others =>
      rw [hgather] at hadmits
      obtain ⟨segment, segments, hfirst, -, rfl⟩ := List.forall₂_cons_left_iff.mp hadmits
      rw [(List.append_eq_nil_iff.mp hflatten.symm).1] at hfirst
      exact absurd hfirst (Token.not_admits_nil_of_mem_gather (hgather ▸ List.mem_cons_self))
  · rintro rfl
    rw [hcut.unique (.nil 0)]
    exact ⟨[], .nil, rfl⟩

theorem Definition.accepts_nil_iff (d : Definition) : d.accepts [] = true ↔ d.pattern = [] :=
  Matcher.accepts_nil_iff d.compiles

variable {path : Path} {lines : List Text} {line : Text} {step : StepLine} {i : Nat}

/-- A line that reads like a step is not reported exactly if it stands in a doc string or has no text. -/
theorem Occurrence.onLine?_eq_none_iff (hline : lines[i]? = some line) (hstep : StepLine.ofLine? line = some step) :
    onLine? path lines i = none ↔ InDocString lines i ∨ step.text = [] := by
  obtain ⟨hi, -⟩ := List.getElem?_eq_some_iff.mp hline
  rw [onLine?, hline, Option.bind_some, Option.map_eq_none_iff]
  cases hfence : (Scanner.upTo lines i).fence with
  | some fence =>
    have hinside : InDocString lines i :=
      ⟨fence, (fence_upTo_eq_some_iff (Nat.le_of_lt hi) fence).mp hfence⟩
    rw [Scanner.feed_fenced hfence (startsLine_of_step hstep fence)]
    exact iff_of_true rfl (.inl hinside)
  | none =>
    have houtside := (fence_upTo_eq_none_iff (Nat.le_of_lt hi)).mp hfence
    rw [Scanner.feed_step hfence hstep, or_iff_right houtside]
    cases step.text <;> simp

/-- What the look-up finds on such a line. -/
theorem Definition.placesAt_ne_nil_iff (view : List Definition)
    (hunreported : Occurrence.onLine? path lines i = none) :
    let lineAt := fun j => lines[j]?
    let pool := offered view (effectiveKeyword lineAt i)
    placesAt view lineAt i ≠ [] ↔ ∃ step, (lineAt i).bind StepLine.ofLine? = some step ∧
      (InDocString lines i ∧ (∃ d ∈ pool, d.accepts step.text = true) ∨
        step.text = [] ∧ ∃ d ∈ pool, d.pattern = []) := by
  intro lineAt pool
  rw [placesAt]
  cases hstep : (lineAt i).bind StepLine.ofLine? with
  | none => simp
  | some step =>
    obtain ⟨line, hline, hread⟩ := Option.bind_eq_some_iff.mp hstep
    have hfits : (fitting view (effectiveKeyword lineAt i) step.text).map location ≠ [] ↔
        ∃ d ∈ pool, d.accepts step.text = true := by
      simp [fitting, pool]
    have hempty : step.text = [] → ((∃ d ∈ pool, d.accepts step.text = true) ↔ ∃ d ∈ pool, d.pattern = []) := by
      intro htext
      simp only [htext, accepts_nil_iff]
    simp only [hfits, Option.some.injEq, exists_eq_left']
    constructor
    · intro hfits
      rcases (Occurrence.onLine?_eq_none_iff hline hread).mp hunreported with hinside | htext
      · exact .inl ⟨hinside, hfits⟩
      · exact .inr ⟨htext, (hempty htext).mp hfits⟩
    · rintro (⟨-, hfits⟩ | ⟨htext, hpattern⟩)
      · exact hfits
      · exact (hempty htext).mpr hpattern

/-- At every moment of every run and for every document, on a line without an occurrence the look-up of definitions
answers in two cases only. In a doc string it takes a line that reads like a step for one, and finds what accepts its
text; and a token with no text behind it has the definitions with the empty pattern. -/
theorem Service.found_off_steps_iff (root : Path) (definitions usages : Selection) (batchSize maxReplays : Nat)
    (acts : Nat → Act) (t : Nat) (path : Path) (text : Text) :
    let x := ((new root definitions usages batchSize maxReplays).after acts t).indexes
    let lines := Text.lines text
    let lineAt := fun i => lines[i]?
    Occurrence.ofText path text = (List.range lines.length).filterMap (Occurrence.onLine? path lines) ∧
    ∀ i, Occurrence.onLine? path lines i = none →
      let pool := Definition.offered (x.definitions.state.files.flatMap (·.2)) (effectiveKeyword lineAt i)
      ((x.definitionsAt lineAt i).2 ≠ [] ↔ ∃ step, (lineAt i).bind StepLine.ofLine? = some step ∧
        (InDocString lines i ∧ (∃ d ∈ pool, d.accepts step.text = true) ∨
          step.text = [] ∧ ∃ d ∈ pool, d.pattern = [])) := by
  intro x lines lineAt
  have hcurrent : x.Current := current_after (current_new root definitions usages batchSize maxReplays) acts t
  refine ⟨Occurrence.ofText_eq_filterMap path text, fun i hunreported => ?_⟩
  rw [(hcurrent.definitionsAt lineAt i).2]
  exact Definition.placesAt_ne_nil_iff _ hunreported

/-- The line in the doc string reads like the step that is defined, and the definition is found. The line below has
no text, and nothing is found. -/
theorem Service.found_off_steps_iff_docString :
    let x := ((new ⟨"/w".toList⟩ ⟨[], []⟩ ⟨[], []⟩ 1 5).after definedScan 6).indexes
    let lines := Text.lines "\"\"\"\nGiven a\n\"\"\"\nGiven ".toList
    Occurrence.onLine? ⟨[]⟩ lines 1 = none ∧ InDocString lines 1 ∧
      (x.definitionsAt (fun i => lines[i]?) 1).2 ≠ [] ∧
      Occurrence.onLine? ⟨[]⟩ lines 3 = none ∧ (x.definitionsAt (fun i => lines[i]?) 3).2 = [] := by
  intro x lines
  obtain ⟨-, hfound⟩ := found_off_steps_iff ⟨"/w".toList⟩ ⟨[], []⟩ ⟨[], []⟩ 1 5 definedScan 6 ⟨[]⟩
    "\"\"\"\nGiven a\n\"\"\"\nGiven ".toList
  have hlines : (Scanner.upTo lines 1).fence = some .quotes ∧ lines.length = 4 ∧
      Occurrence.onLine? ⟨[]⟩ lines 1 = none ∧ Occurrence.onLine? ⟨[]⟩ lines 3 = none ∧
      lines[1]?.bind StepLine.ofLine? = some ⟨.direct .given, "Given".toList, ['a'], 6⟩ ∧
      (Definition.offered (x.definitions.state.files.flatMap (·.2))
        (effectiveKeyword (fun i => lines[i]?) 1)).any (·.accepts ['a']) = true ∧
      (x.definitionsAt (fun i => lines[i]?) 3).2 = [] := by
    decide +kernel
  obtain ⟨hfence, hlength, hunreported, hunreported', hstep, haccepts, hnone⟩ := hlines
  have hinside : InDocString lines 1 := ⟨.quotes, (fence_upTo_eq_some_iff (by omega) .quotes).mp hfence⟩
  refine ⟨hunreported, hinside, (hfound 1 hunreported).mpr ?_, hunreported', hnone⟩
  exact ⟨_, hstep, .inl ⟨hinside, List.any_eq_true.mp haccepts⟩⟩

/-- The one line that reads like a step stands in a doc string: no occurrence is reported, but the look-up finds a
definition there. -/
theorem Service.not_found_on_steps_only_docString :
    let x := ((new ⟨"/w".toList⟩ ⟨[], []⟩ ⟨[], []⟩ 1 5).after definedScan 6).indexes
    let text := "\"\"\"\nGiven a\n\"\"\"\n".toList
    Occurrence.ofText ⟨[]⟩ text = [] ∧
      (x.definitionsAt (fun i => (Text.lines text)[i]?) 1).2 = [⟨⟨"/w/steps.py".toList⟩, 0, 0⟩] := by
  decide +kernel

end StepLink
