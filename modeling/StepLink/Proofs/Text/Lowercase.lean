import Mathlib.Data.List.Infix
import StepLink.Text.Lowercase

/-! Lower-casing of a part of a text. Of all characters only a capital sigma looks at its neighbours, so a part is
lower-cased within a text as it is alone, unless the text around it makes a sigma of it end a word, or end none. -/

namespace StepLink.Text

/-- A sigma between two parts of a text ends a word. The part before it is reversed. -/
def endsWord (before after : Text) : Bool :=
  leadsToCased before && !leadsToCased after

/-- Some capital sigma of the middle part ends a word in the whole text but not in that part, or the other way. -/
def TurnsSigma (before middle after : Text) : Prop :=
  ∃ u v, middle = u ++ 'Σ' :: v ∧ endsWord (u.reverse ++ before.reverse) (v ++ after) ≠ endsWord u.reverse v

/-- The lower-case form of a character between two parts of a text, of which the first is reversed. -/
def lowerCharBetween (before after : Text) (c : Char) : Text :=
  if c = 'Σ' then if endsWord before after then ['ς'] else ['σ'] else lowerChar c

/-- The lower-case form of a part between two others, of which the first is reversed. -/
def lowercaseBetween (before after : Text) : Text → Text
  | [] => []
  | c :: rest => lowerCharBetween before (rest ++ after) c ++ lowercaseBetween (c :: before) after rest

variable {before before' middle after after' : Text}

theorem lowercaseAfter_append (before middle after : Text) :
    lowercaseAfter before (middle ++ after) =
      lowercaseBetween before after middle ++ lowercaseAfter (middle.reverse ++ before) after := by
  induction middle generalizing before with
  | nil => rfl
  | cons c rest ih =>
    rw [List.cons_append, lowercaseAfter, lowercaseBetween, ih, List.append_assoc, List.reverse_cons, List.append_assoc]
    rfl

theorem lowercaseAfter_eq_between (before t : Text) : lowercaseAfter before t = lowercaseBetween before [] t := by
  simpa [lowercaseAfter] using lowercaseAfter_append before t []

theorem length_lowerCharBetween (before before' after after' : Text) (c : Char) :
    (lowerCharBetween before after c).length = (lowerCharBetween before' after' c).length := by
  rw [lowerCharBetween, lowerCharBetween]
  split
  · split <;> split <;> rfl
  · rfl

theorem length_lowercaseBetween (before before' after after' middle : Text) :
    (lowercaseBetween before after middle).length = (lowercaseBetween before' after' middle).length := by
  induction middle generalizing before before' with
  | nil => rfl
  | cons c rest ih =>
    rw [lowercaseBetween, lowercaseBetween, List.length_append, List.length_append, ih (c :: before) (c :: before'),
      length_lowerCharBetween]

theorem lowerCharBetween_eq_iff {c : Char} :
    lowerCharBetween before after c = lowerCharBetween before' after' c ↔
      (c = 'Σ' → endsWord before after = endsWord before' after') := by
  rw [lowerCharBetween, lowerCharBetween]
  split
  next hsigma =>
    rw [forall_prop_of_true hsigma]
    cases endsWord before after <;> cases endsWord before' after' <;> decide
  next hsigma => exact iff_of_true rfl fun h => absurd h hsigma

/-- A part is lower-cased in the same way in two places exactly if each of its sigmas ends a word in both or in
neither. -/
theorem lowercaseBetween_eq_iff :
    lowercaseBetween before after middle = lowercaseBetween before' after' middle ↔
      ∀ u v, middle = u ++ 'Σ' :: v →
        endsWord (u.reverse ++ before) (v ++ after) = endsWord (u.reverse ++ before') (v ++ after') := by
  induction middle generalizing before before' with
  | nil => simp [lowercaseBetween]
  | cons c rest ih =>
    have happend : lowercaseBetween before after (c :: rest) = lowercaseBetween before' after' (c :: rest) ↔
        lowerCharBetween before (rest ++ after) c = lowerCharBetween before' (rest ++ after') c ∧
          lowercaseBetween (c :: before) after rest = lowercaseBetween (c :: before') after' rest := by
      rw [lowercaseBetween, lowercaseBetween]
      refine ⟨fun h => List.append_inj h (length_lowerCharBetween ..), fun ⟨hhead, htail⟩ => ?_⟩
      rw [hhead, htail]
    rw [happend, lowerCharBetween_eq_iff, ih]
    -- A sigma of the part is its first character or one of the rest.
    constructor
    · rintro ⟨hhead, htail⟩ u v hsplit
      rcases List.cons_eq_append_iff.mp hsplit with ⟨rfl, hcons⟩ | ⟨u, rfl, hrest⟩
      · obtain ⟨hsigma, rfl⟩ := List.cons.inj hcons
        exact hhead hsigma.symm
      · simpa using htail u v hrest
    · intro h
      refine ⟨fun hsigma => h [] rest (by rw [hsigma]; rfl), fun u v hrest => ?_⟩
      simpa using h (c :: u) v (by rw [hrest]; rfl)

/-- Within a text a part is lower-cased as it is alone exactly if no sigma of it is turned. -/
theorem lowercaseBetween_eq_lowercase_iff :
    lowercaseBetween before.reverse after middle = lowercase middle ↔ ¬TurnsSigma before middle after := by
  rw [lowercase, lowercaseAfter_eq_between, lowercaseBetween_eq_iff, TurnsSigma]
  simp only [List.append_nil, not_exists, not_and, ne_eq, not_not]

/-- The lower-case form of a text, with that of a part of it in view. -/
theorem lowercase_append_append (before middle after : Text) :
    lowercase (before ++ middle ++ after) =
      lowercaseBetween [] (middle ++ after) before ++ lowercaseBetween before.reverse after middle ++
        lowercaseBetween (middle.reverse ++ before.reverse) [] after := by
  rw [lowercase, List.append_assoc, lowercaseAfter_append, List.append_nil, lowercaseAfter_append,
    lowercaseAfter_eq_between, List.append_assoc]

theorem lowercase_infix_of_not_turnsSigma (h : ¬TurnsSigma before middle after) :
    lowercase middle <:+: lowercase (before ++ middle ++ after) := by
  rw [lowercase_append_append, lowercaseBetween_eq_lowercase_iff.mpr h]
  exact List.infix_append _ _ _

theorem lowercase_prefix_iff_not_turnsSigma :
    lowercase middle <+: lowercase (middle ++ after) ↔ ¬TurnsSigma [] middle after := by
  have happend : lowercase (middle ++ after) =
      lowercaseBetween [] after middle ++ lowercaseBetween middle.reverse [] after := by
    simpa [lowercaseBetween] using lowercase_append_append [] middle after
  have hlength : (lowercase middle).length = (lowercaseBetween [] after middle).length := by
    rw [lowercase, lowercaseAfter_eq_between]
    exact length_lowercaseBetween ..
  rw [← lowercaseBetween_eq_lowercase_iff, List.reverse_nil, happend]
  constructor
  · intro h
    exact ((List.prefix_of_prefix_length_le h (List.prefix_append ..) hlength.le).eq_of_length hlength).symm
  · intro h
    rw [← h]
    exact List.prefix_append ..

/-- A text without a capital sigma is lower-cased alike everywhere. -/
theorem not_turnsSigma_of_not_mem (h : 'Σ' ∉ middle) : ¬TurnsSigma before middle after := by
  rintro ⟨u, v, rfl, -⟩
  exact h (List.mem_append_right u List.mem_cons_self)

end StepLink.Text
