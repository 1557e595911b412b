import Mathlib.Data.List.Forall2
import StepLink.Proofs.Index.Traffic
import StepLink.Proofs.Path

/-! What the two kinds of indexes have in common: every item carries the path of its file, and items that do
not count as a change differ at most in how that path is spelled. -/

namespace StepLink

/-- The definitions are equal but for how their paths are spelled. -/
def Definition.Respells (d e : Definition) : Prop :=
  { d with path := e.path } = e ∧ d.path.same e.path = true

/-- The occurrences are equal but for how their paths are spelled. -/
def Occurrence.Respells (a b : Occurrence) : Prop :=
  { a with path := b.path } = b ∧ a.path.same b.path = true

/-- The two kinds of indexes, each with the relation of items that are equal but for the spelling of paths. -/
inductive StepIndex : {α : Type} → IndexSetup α → (α → α → Prop) → Prop where
  | definitions (root : Path) (globs : Selection) (batchSize maxReplays : Nat) :
    StepIndex (DefinitionIndex.new root globs batchSize maxReplays).setup Definition.Respells
  | usages (root : Path) (globs : Selection) (batchSize maxReplays : Nat) :
    StepIndex (UsageIndex.new root globs batchSize maxReplays).setup Occurrence.Respells

structure Lawful {α : Type} (setup : IndexSetup α) (equal : α → α → Prop) (pathOf : α → Path) : Prop where
  pathOf_parse : ∀ {p : Path} {text : Text} {a : α}, a ∈ setup.parse p text → pathOf a = p
  same_refl : ∀ a, setup.same a a = true
  equal_of_same : ∀ {a b}, setup.same a b = true → (pathOf a).same (pathOf b) = true → equal a b
  same_of_equal : ∀ {a b}, equal a b → setup.same a b = true

theorem Definition.same_refl (d : Definition) : d.same d = true := by
  simp [Definition.same]

/-- The matcher is determined by the pattern, so it need not be compared. -/
theorem Definition.respells_of_same {d e : Definition} (h : d.same e = true)
    (hpath : d.path.same e.path = true) : d.Respells e := by
  refine ⟨?_, hpath⟩
  obtain ⟨keyword, pattern, matcher, path, line, column, function, compiles⟩ := d
  obtain ⟨keyword', pattern', matcher', path', line', column', function', compiles'⟩ := e
  simp only [Definition.same, Bool.and_eq_true, beq_iff_eq] at h
  obtain ⟨⟨⟨⟨rfl, rfl⟩, rfl⟩, rfl⟩, rfl⟩ := h
  obtain rfl : matcher = matcher' := Except.ok.inj (compiles.symm.trans compiles')
  rfl

theorem Definition.same_of_respells {d e : Definition} (h : d.Respells e) : d.same e = true := by
  obtain ⟨h, -⟩ := h
  rw [← h]
  simp [Definition.same]

theorem Definition.path_of_mem_ofLines {path : Path} {index : Nat} {lines : List Text} {d : Definition}
    (h : .ok d ∈ ofLines path index lines) : d.path = path := by
  induction lines generalizing index with
  | nil => cases h
  | cons line below ih =>
    rw [ofLines] at h
    split at h
    · rcases List.mem_cons.mp h with heq | hmem
      · rw [ofDecorator] at heq
        split at heq
        · cases heq
        · rw [Except.ok.inj heq]
      · exact ih hmem
    · exact ih h

theorem Definition.path_of_mem_ofText {path : Path} {text : Text} {d : Definition}
    (h : d ∈ ofText path text) : d.path = path := by
  obtain ⟨result, hmem, hresult⟩ := List.mem_filterMap.mp h
  cases result with
  | error e => cases hresult
  | ok e =>
    cases hresult
    exact path_of_mem_ofLines hmem

theorem Occurrence.path_of_mem_ofLines {path : Path} {s : Scanner} {index : Nat} {lines : List Text}
    {o : Occurrence} (h : o ∈ ofLines path s index lines) : o.path = path := by
  induction lines generalizing s index with
  | nil => cases h
  | cons line lines ih =>
    rw [ofLines] at h
    split at h
    · rcases List.mem_cons.mp h with rfl | hmem
      · rfl
      · exact ih hmem
    · exact ih h

theorem Occurrence.same_iff {a b : Occurrence} : a.same b = true ↔ a.Respells b := by
  simp only [Occurrence.same, Occurrence.Respells, Bool.and_eq_true, beq_iff_eq]

theorem Definition.lawful (root : Path) (globs : Selection) (batchSize maxReplays : Nat) :
    Lawful (DefinitionIndex.new root globs batchSize maxReplays).setup Respells path where
  pathOf_parse := path_of_mem_ofText
  same_refl := same_refl
  equal_of_same := respells_of_same
  same_of_equal := same_of_respells

theorem Occurrence.lawful (root : Path) (globs : Selection) (batchSize maxReplays : Nat) :
    Lawful (UsageIndex.new root globs batchSize maxReplays).setup Respells path where
  pathOf_parse := path_of_mem_ofLines
  same_refl a := same_iff.mpr ⟨rfl, Path.same_refl a.path⟩
  equal_of_same hsame _ := same_iff.mp hsame
  same_of_equal := same_iff.mpr

theorem StepIndex.lawful {α : Type} {setup : IndexSetup α} {equal : α → α → Prop}
    (h : StepIndex setup equal) : ∃ pathOf, Lawful setup equal pathOf := by
  cases h with
  | definitions root globs batchSize maxReplays => exact ⟨_, Definition.lawful root globs batchSize maxReplays⟩
  | usages root globs batchSize maxReplays => exact ⟨_, Occurrence.lawful root globs batchSize maxReplays⟩

theorem Definition.ofLines_respells {p q : Path} (h : p.same q = true) (index : Nat) (lines : List Text) :
    List.Forall₂ (fun a b => Option.Rel Respells a.toOption b.toOption) (ofLines p index lines)
      (ofLines q index lines) := by
  induction lines generalizing index with
  | nil => exact .nil
  | cons line below ih =>
    rw [ofLines, ofLines]
    cases Decorator.ofLine? line with
    | none => exact ih (index + 1)
    | some d =>
      refine .cons ?_ (ih (index + 1))
      rw [ofDecorator, ofDecorator]
      split
      next => exact .none
      next => exact .some ⟨rfl, h⟩

theorem Definition.ofText_respells {p q : Path} (h : p.same q = true) (text : Text) :
    List.Forall₂ Respells (ofText p text) (ofText q text) := by
  refine List.rel_filterMap (fun a b hab => ?_) (ofLines_respells h 0 (Text.lines text))
  cases a <;> cases b <;> exact hab

theorem Occurrence.ofLines_respells {p q : Path} (h : p.same q = true) (s : Scanner) (index : Nat)
    (lines : List Text) : List.Forall₂ Respells (ofLines p s index lines) (ofLines q s index lines) := by
  induction lines generalizing s index with
  | nil => exact .nil
  | cons line lines ih =>
    rw [ofLines, ofLines]
    split
    next s step _ => exact .cons ⟨rfl, h⟩ (ih s (index + 1))
    next s _ => exact ih s (index + 1)

/-- Under another spelling of its path, a text gives the same items but for that spelling. -/
theorem StepIndex.parse_respells {α : Type} {setup : IndexSetup α} {equal : α → α → Prop}
    (hindex : StepIndex setup equal) {p q : Path} (h : p.same q = true) (text : Text) :
    List.Forall₂ equal (setup.parse p text) (setup.parse q text) := by
  cases hindex with
  | definitions root globs batchSize maxReplays => exact Definition.ofText_respells h text
  | usages root globs batchSize maxReplays => exact Occurrence.ofLines_respells h {} 0 (Text.lines text)

end StepLink
