import StepLink.Proofs.Feature.Inheritance

/-! Where the keyword of a step comes from, told without the search. A step whose token names a keyword is its
own antecedent. For any other step it is a line above that names one, with nothing but blank lines, comments
and continuing steps between the two. -/

namespace StepLink

variable {lineAt : Nat → Option Text} {line : Text} {i j t : Nat} {k l : StepKeyword}

/-- The line holds a step: one whose token names the given keyword, or, where none is given, one that continues
another step. -/
def HoldsStep (lineAt : Nat → Option Text) (i : Nat) (keyword? : Option StepKeyword) : Prop :=
  ∃ line step, lineAt i = some line ∧ StepLine.ofLine? line = some step ∧ step.token.keyword? = keyword?

/-- The step on line `t` has its keyword from line `i`. The lines between the two must be there, as they are in
every document. -/
structure IsAntecedent (lineAt : Nat → Option Text) (t i : Nat) (k : StepKeyword) : Prop where
  le : i ≤ t
  names : HoldsStep lineAt i (some k)
  own : ∀ l, HoldsStep lineAt t (some l) → i = t
  inherited : (∀ l, ¬HoldsStep lineAt t (some l)) → HoldsStep lineAt t none ∧ ∀ j, i < j → j < t →
    ∃ line, lineAt j = some line ∧ (isFillerLine line = false → HoldsStep lineAt j none)

theorem holdsStep_iff (hline : lineAt i = some line) {keyword? : Option StepKeyword} :
    HoldsStep lineAt i keyword? ↔
      ∃ step, StepLine.ofLine? line = some step ∧ step.token.keyword? = keyword? := by
  constructor
  · rintro ⟨other, step, hother, hstep, hkeyword⟩
    obtain rfl := Option.some.inj (hother.symm.trans hline)
    exact ⟨step, hstep, hkeyword⟩
  · rintro ⟨step, hstep, hkeyword⟩
    exact ⟨line, step, hline, hstep, hkeyword⟩

theorem HoldsStep.unique {a b : Option StepKeyword} (ha : HoldsStep lineAt i a) (hb : HoldsStep lineAt i b) :
    a = b := by
  obtain ⟨line, step, hline, hstep, rfl⟩ := ha
  obtain ⟨other, hother, rfl⟩ := (holdsStep_iff hline).mp hb
  rw [Option.some.inj (hstep.symm.trans hother)]

/-- The lines that the search goes past are those that may stand between a step and its antecedent. -/
theorem passes_iff (hline : lineAt j = some line) :
    Passes line ↔ (isFillerLine line = false → HoldsStep lineAt j none) := by
  rw [holdsStep_iff hline, Passes]
  cases isFillerLine line <;> simp

theorem Passes.not_holdsStep (h : Passes line) (hline : lineAt j = some line) :
    ¬HoldsStep lineAt j (some k) := by
  intro hnames
  obtain ⟨step, hstep, hkeyword⟩ := (holdsStep_iff hline).mp hnames
  rcases h with hfiller | ⟨other, hother, hcontinues⟩
  · rw [ofLine?_of_isFillerLine hfiller] at hstep
    cases hstep
  · obtain rfl := Option.some.inj (hother.symm.trans hstep)
    rw [hcontinues] at hkeyword
    cases hkeyword

/-- The search that comes up from a line finds the nearest line that it does not go past, if a keyword is
named there. -/
theorem inheritedKeyword_eq_some_iff (lineAt : Nat → Option Text) (t : Nat) (k : StepKeyword) :
    inheritedKeyword lineAt t = some k ↔
      ∃ i < t, (∀ j, i < j → j < t → ∃ line, lineAt j = some line ∧ Passes line) ∧
        HoldsStep lineAt i (some k) := by
  induction t with
  | zero =>
    rw [inheritedKeyword]
    constructor
    · intro hfound
      cases hfound
    · rintro ⟨i, hi, -⟩
      exact absurd hi (Nat.not_lt_zero i)
  | succ t ih =>
    rw [exists_since_succ_iff, ← ih]
    cases hline : lineAt t with
    | none =>
      rw [inheritedKeyword, hline]
      constructor
      · intro hfound
        cases hfound
      · rintro (⟨line, step, hsome, -⟩ | ⟨⟨line, hsome, -⟩, -⟩)
        · cases hsome.symm.trans hline
        · cases hsome
    | some line =>
      by_cases hpass : Passes line
      · rw [inheritedKeyword_of_passes hline hpass]
        exact ⟨fun hfound => .inr ⟨⟨line, rfl, hpass⟩, hfound⟩,
          fun hor => (hor.resolve_left (hpass.not_holdsStep hline)).2⟩
      · rw [inheritedKeyword_of_ends hline hpass, Option.bind_eq_some_iff, ← holdsStep_iff hline]
        refine ⟨.inl, ?_⟩
        rintro (hnames | ⟨⟨other, hother, hpass'⟩, -⟩)
        · exact hnames
        · obtain rfl := Option.some.inj hother
          exact absurd hpass' hpass

/-- A step that names a keyword has it, and one that continues another has what the search finds. -/
theorem effectiveKeyword_of_holdsStep {keyword? : Option StepKeyword} (h : HoldsStep lineAt t keyword?) :
    effectiveKeyword lineAt t = keyword?.or (inheritedKeyword lineAt t) := by
  obtain ⟨line, step, hline, hstep, rfl⟩ := h
  rw [effectiveKeyword, hline, Option.bind_some, hstep]
  cases hk : step.token.keyword? with
  | none => simp [hk]
  | some k => simp [hk]

theorem effectiveKeyword_of_not_holdsStep (h : ∀ keyword?, ¬HoldsStep lineAt t keyword?) :
    effectiveKeyword lineAt t = none := by
  rw [effectiveKeyword]
  cases hline : lineAt t with
  | none => rfl
  | some line =>
    cases hstep : StepLine.ofLine? line with
    | none => rw [Option.bind_some, hstep]
    | some step => exact absurd ⟨line, step, hline, hstep, rfl⟩ (h step.token.keyword?)

theorem isAntecedent_of_names (h : HoldsStep lineAt t (some l)) :
    IsAntecedent lineAt t i k ↔ i = t ∧ k = l := by
  constructor
  · intro hante
    obtain rfl := hante.own l h
    exact ⟨rfl, Option.some.inj (hante.names.unique h)⟩
  · rintro ⟨rfl, rfl⟩
    exact ⟨Nat.le_refl i, h, fun _ _ => rfl, fun hnone => absurd h (hnone k)⟩

theorem isAntecedent_of_continues (h : HoldsStep lineAt t none) :
    IsAntecedent lineAt t i k ↔ i < t ∧ (∀ j, i < j → j < t → ∃ line, lineAt j = some line ∧ Passes line) ∧
      HoldsStep lineAt i (some k) := by
  have hnone : ∀ l, ¬HoldsStep lineAt t (some l) := fun l hl => nomatch hl.unique h
  constructor
  · intro hante
    have hne : i ≠ t := fun heq => hnone k (heq ▸ hante.names)
    refine ⟨Nat.lt_of_le_of_ne hante.le hne, fun j hij hjt => ?_, hante.names⟩
    obtain ⟨line, hline, hbetween⟩ := (hante.inherited hnone).2 j hij hjt
    exact ⟨line, hline, (passes_iff hline).mpr hbetween⟩
  · rintro ⟨hi, hbetween, hnames⟩
    refine ⟨Nat.le_of_lt hi, hnames, fun l hl => absurd hl (hnone l), fun _ => ⟨h, fun j hij hjt => ?_⟩⟩
    obtain ⟨line, hline, hpass⟩ := hbetween j hij hjt
    exact ⟨line, hline, (passes_iff hline).mp hpass⟩

theorem IsAntecedent.holdsStep (h : IsAntecedent lineAt t i k) : ∃ keyword?, HoldsStep lineAt t keyword? := by
  by_cases hnames : ∃ l, HoldsStep lineAt t (some l)
  · obtain ⟨l, hl⟩ := hnames
    exact ⟨some l, hl⟩
  · exact ⟨none, (h.inherited (not_exists.mp hnames)).1⟩

theorem effectiveKeyword_eq_some_iff (lineAt : Nat → Option Text) (t : Nat) (k : StepKeyword) :
    effectiveKeyword lineAt t = some k ↔ ∃ i, IsAntecedent lineAt t i k := by
  by_cases hstep : ∃ keyword?, HoldsStep lineAt t keyword?
  · obtain ⟨keyword?, hstep⟩ := hstep
    rw [effectiveKeyword_of_holdsStep hstep]
    cases keyword? with
    | none =>
      rw [Option.none_or, inheritedKeyword_eq_some_iff]
      exact exists_congr fun i => (isAntecedent_of_continues hstep).symm
    | some l =>
      simp only [isAntecedent_of_names hstep, exists_eq_left, Option.some_or, Option.some.injEq]
      exact eq_comm
  · rw [effectiveKeyword_of_not_holdsStep (not_exists.mp hstep)]
    exact ⟨nofun, fun ⟨i, hante⟩ => absurd hante.holdsStep hstep⟩

/-- A step has no more than one antecedent: a second one would stand between the first and the step. -/
theorem IsAntecedent.unique (hi : IsAntecedent lineAt t i k) (hj : IsAntecedent lineAt t j l) : i = j := by
  obtain ⟨keyword?, hstep⟩ := hi.holdsStep
  cases keyword? with
  | some m => rw [((isAntecedent_of_names hstep).mp hi).1, ((isAntecedent_of_names hstep).mp hj).1]
  | none =>
    obtain ⟨hit, hbetween, hnames⟩ := (isAntecedent_of_continues hstep).mp hi
    obtain ⟨hjt, hbetween', hnames'⟩ := (isAntecedent_of_continues hstep).mp hj
    rcases Nat.lt_trichotomy i j with hlt | heq | hgt
    · obtain ⟨line, hline, hpass⟩ := hbetween j hlt hjt
      exact absurd hnames' (hpass.not_holdsStep hline)
    · exact heq
    · obtain ⟨line, hline, hpass⟩ := hbetween' i hgt hit
      exact absurd hnames (hpass.not_holdsStep hline)

/-- In every document and for every line, within the document or not, the search gives the keyword that the
antecedent of the step on the line names, of which there is at most one, and nothing where there is none. -/
theorem effectiveKeyword_from_antecedent (lineAt : Nat → Option Text) (t : Nat) :
    (∀ k, effectiveKeyword lineAt t = some k ↔ ∃ i, IsAntecedent lineAt t i k) ∧
    (effectiveKeyword lineAt t = none ↔ ∀ i k, ¬IsAntecedent lineAt t i k) ∧
    ∀ i j k l, IsAntecedent lineAt t i k → IsAntecedent lineAt t j l → i = j := by
  refine ⟨effectiveKeyword_eq_some_iff lineAt t, ?_, fun i j k l hi hj => hi.unique hj⟩
  rw [Option.eq_none_iff_forall_ne_some, forall_comm]
  simp only [ne_eq, effectiveKeyword_eq_some_iff, not_exists]

end StepLink
