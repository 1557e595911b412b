import StepLink.Text.Basic

/-! Regular expressions and the sequences they denote. An expression is built over a type of sets of symbols,
whose membership is a parameter of everything that gives it a meaning; only sets are repeated, which is all
that step expressions and globs need and keeps matching linear in the number of positions of the sequence. -/

namespace StepLink

/-- How often a set of symbols is taken. -/
inductive Repeat where
  | once
  | optional
  | oneOrMore
  | zeroOrMore
  deriving DecidableEq

/-- The counts that a repetition allows. -/
def Repeat.Allows : Repeat → Nat → Prop
  | once, n => n = 1
  | optional, n => n ≤ 1
  | oneOrMore, n => 1 ≤ n
  | zeroOrMore, _ => True

/-- A regular expression over sets of symbols. -/
inductive Regex (σ : Type) where
  | empty
  | chars (s : σ) (count : Repeat)
  | seq (first second : Regex σ)
  | alt (left right : Regex σ)
  deriving DecidableEq

namespace Regex

variable {σ α : Type}

/-- The sequences that an expression denotes, given which symbols belong to which set. -/
inductive Denotes (holds : σ → α → Bool) : Regex σ → List α → Prop where
  | empty : Denotes holds .empty []
  | chars {s : σ} {count : Repeat} {t : List α} :
      count.Allows t.length → (∀ c ∈ t, holds s c) → Denotes holds (.chars s count) t
  | seq {a b : Regex σ} {s t : List α} : Denotes holds a s → Denotes holds b t → Denotes holds (.seq a b) (s ++ t)
  | left {a b : Regex σ} {t : List α} : Denotes holds a t → Denotes holds (.alt a b) t
  | right {a b : Regex σ} {t : List α} : Denotes holds b t → Denotes holds (.alt a b) t

end Regex

end StepLink
