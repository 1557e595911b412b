import StepLink.Text.Basic

/-! Tables over code points: ascending spans for the classes of characters, and runs for the case mappings.
A run gives the image of every `step`-th code point of a span, shifted by one constant. -/

namespace StepLink.Text

/-- The code point lies in one of the ascending spans, whose ends are both included. -/
def inSpans : List (Nat × Nat) → Nat → Bool
  | [], _ => false
  | (first, last) :: rest, n =>
    if n < first then false else n ≤ last || inSpans rest n

/-- The code points `first`, `first + step`, …, `last` are sent to `image`, `image + step`, …. -/
structure CaseRun where
  first : Nat
  last : Nat
  step : Nat
  image : Nat

/-- The image of a code point under ascending runs; a code point in none of them stays. -/
def mapRuns : List CaseRun → Nat → Nat
  | [], n => n
  | r :: rest, n =>
    if n < r.first then n
    else if n ≤ r.last && (n - r.first) % r.step == 0 then r.image + (n - r.first)
    else mapRuns rest n

end StepLink.Text
