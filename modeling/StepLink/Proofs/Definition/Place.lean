import Mathlib.Data.List.Basic
import StepLink.Definition.Basic

/-! The places of the definitions of a step module: each definition is that of one decorator, a decorator whose
pattern can be compiled gives one, and later lines have larger numbers as long as numbers are left. -/

namespace StepLink.Definition

variable {path : Path} {index : Nat} {line : Text} {lines below : List Text} {d : Definition} {dec : Decorator}
  {text : Text}

theorem mem_ofLines : .ok d ∈ ofLines path index lines ↔
    ∃ i line dec, lines[i]? = some line ∧ Decorator.ofLine? line = some dec ∧
      ofDecorator path (index + i) line (lines.drop (i + 1)) dec = .ok d := by
  induction lines generalizing index with
  | nil =>
    rw [ofLines]
    refine ⟨fun h => absurd h List.not_mem_nil, ?_⟩
    rintro ⟨i, line, dec, hline, -⟩
    cases hline
  | cons line lines ih =>
    have hsplit : .ok d ∈ ofLines path index (line :: lines) ↔
        (∃ dec, Decorator.ofLine? line = some dec ∧ ofDecorator path index line lines dec = .ok d) ∨
          .ok d ∈ ofLines path (index + 1) lines := by
      rw [ofLines]
      cases Decorator.ofLine? line with
      | none => simp
      | some dec => simp [eq_comm]
    rw [hsplit, ih]
    constructor
    · rintro (⟨dec, hdec, hd⟩ | ⟨i, other, dec, hother, hdec, hd⟩)
      · exact ⟨0, line, dec, rfl, hdec, hd⟩
      · refine ⟨i + 1, other, dec, hother, hdec, ?_⟩
        rwa [Nat.add_right_comm, Nat.add_assoc] at hd
    · rintro ⟨i, other, dec, hother, hdec, hd⟩
      cases i with
      | zero =>
        cases hother
        exact .inl ⟨dec, hdec, hd⟩
      | succ i =>
        refine .inr ⟨i, other, dec, hother, hdec, ?_⟩
        rwa [Nat.add_right_comm, Nat.add_assoc]

theorem mem_ofText : d ∈ ofText path text ↔
    ∃ i line dec, (Text.lines text)[i]? = some line ∧ Decorator.ofLine? line = some dec ∧
      ofDecorator path i line ((Text.lines text).drop (i + 1)) dec = .ok d := by
  have hok : d ∈ ofText path text ↔ .ok d ∈ ofLines path 0 (Text.lines text) := by
    rw [ofText, List.mem_filterMap]
    constructor
    · rintro ⟨result, hresult, hd⟩
      cases result with
      | error e => cases hd
      | ok e => exact Option.some.inj hd ▸ hresult
    · exact fun h => ⟨_, h, rfl⟩
  rw [hok, mem_ofLines]
  simp only [Nat.zero_add]

/-- What a definition takes over from its decorator. -/
structure IsOf (d : Definition) (dec : Decorator) (index : Nat) : Prop where
  keyword : d.keyword = dec.keyword
  pattern : d.pattern = dec.pattern
  line : d.line = Text.lineNumber index

theorem isOf_of_ofDecorator (h : ofDecorator path index line below dec = .ok d) : d.IsOf dec index := by
  rw [ofDecorator] at h
  split at h
  · cases h
  · cases h
    exact ⟨rfl, rfl, rfl⟩

theorem exists_of_compiles {m : Matcher} (h : Matcher.ofPattern dec.pattern = .ok m) (path : Path) (index : Nat)
    (line : Text) (below : List Text) : ∃ d, ofDecorator path index line below dec = .ok d := by
  rw [ofDecorator]
  split
  next e he =>
    rw [h] at he
    cases he
  next => exact ⟨_, rfl⟩

theorem pairwise_ofLines (h : index + lines.length ≤ Text.maxPosition + 1) :
    (ofLines path index lines).Pairwise fun a b => ∀ d e, a = .ok d → b = .ok e → d.line < e.line := by
  induction lines generalizing index with
  | nil => exact .nil
  | cons line lines ih =>
    rw [List.length_cons] at h
    have hrest : (ofLines path (index + 1) lines).Pairwise _ := ih (by omega)
    rw [ofLines]
    split
    next dec hdec =>
      refine List.pairwise_cons.mpr ⟨fun b hb d e hd he => ?_, hrest⟩
      subst he
      obtain ⟨i, other, dec', hother, -, he⟩ := mem_ofLines.mp hb
      obtain ⟨hi, -⟩ := List.getElem?_eq_some_iff.mp hother
      rw [(isOf_of_ofDecorator hd).line, (isOf_of_ofDecorator he).line, Text.lineNumber_eq (by omega),
        Text.lineNumber_eq (by omega)]
      omega
    next => exact hrest

theorem pairwise_ofText (h : (Text.lines text).length ≤ Text.maxPosition + 1) (path : Path) :
    (ofText path text).Pairwise (·.line < ·.line) := by
  rw [ofText, List.pairwise_filterMap]
  refine (pairwise_ofLines (by omega)).imp fun {a b} hlt d hd e he => ?_
  cases a with
  | error _ => cases hd
  | ok a =>
    cases b with
    | error _ => cases he
    | ok b => exact Option.some.inj hd ▸ Option.some.inj he ▸ hlt a b rfl rfl

end StepLink.Definition
