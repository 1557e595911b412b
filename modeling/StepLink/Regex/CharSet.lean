import StepLink.Regex.Basic
import StepLink.Text.Blank
import StepLink.Text.Digit
import StepLink.Text.Fold
import StepLink.Text.Word

/-! The sets of characters of step expressions. Letters are compared up to case. -/

namespace StepLink

/-- A set of characters. -/
inductive CharSet where
  /-- The characters that agree with the given one up to case. -/
  | letter (c : Char)
  | digit
  | word
  | blank
  /-- Every character but the line feed. -/
  | dot
  | complement (s : CharSet)
  deriving DecidableEq

def CharSet.holds : CharSet → Char → Bool
  | letter a, c => Text.sameFold a c
  | digit, c => Text.isDigit c
  | word, c => Text.isWord c
  | blank, c => Text.isBlank c
  | dot, c => c != '\n'
  | complement s, c => !s.holds c

/-- The runs of neighbouring characters that a set consists of, or what it excludes does; a letter counts once
for all its cases. -/
def CharSet.runs : CharSet → Nat
  | letter _ => 1
  | digit => Text.digitSpans.length
  | word => Text.wordSpans.length
  | blank => 10
  | dot => 1
  | complement s => s.runs

/-- The runs of all sets that an expression is written with. -/
def Regex.runs : Regex CharSet → Nat
  | empty => 0
  | chars s _ => s.runs
  | seq a b => a.runs + b.runs
  | alt a b => a.runs + b.runs

end StepLink
