import StepLink.Query.Lookup

/-! Diagnostics: the steps of a document that no definition accepts. The run asks from time to time whether it
is still wanted, and gives nothing once the answer is no. -/

namespace StepLink

structure Diagnostic where
  line : Nat
  start : Nat
  stop : Nat
  message : String
  deriving DecidableEq, Repr

/-- The outcome of a run, with the number of times that it asked. -/
structure DiagnosticRun where
  polls : Nat
  found : Option (List Diagnostic)
  deriving DecidableEq, Repr

/-- The number of lines from one question to the next. -/
def Diagnostic.interval : Nat := 200

def Diagnostic.ofStep (index : Nat) (line : Text) (step : StepLine) : Diagnostic :=
  let start := Text.columnOfByte line step.offset
  { line := Text.lineNumber index
    start := start
    stop := min (start + Text.units step.text) Text.maxPosition
    message := "Undefined step: " ++ String.ofList step.written ++ " " ++ String.ofList step.text }

/-- A run over the lines from `index` on, after `polls` questions; `wait` lines remain until the next one. -/
def Indexes.diagnoseLines (stillWanted : Nat → Bool) (lineAt : Nat → Option Text) (x : Indexes)
    (scanner : Scanner) (index polls wait : Nat) (found : List Diagnostic) :
    List Text → Indexes × DiagnosticRun
  | [] => (x, ⟨polls + 1, if stillWanted (polls + 1) then some found.reverse else none⟩)
  | line :: lines =>
    if wait = 1 && !stillWanted (polls + 1) then (x, ⟨polls + 1, none⟩)
    else
      let polls := if wait = 1 then polls + 1 else polls
      let wait := if wait = 1 then Diagnostic.interval else wait - 1
      match scanner.feed line with
      | (scanner, none) => diagnoseLines stillWanted lineAt x scanner (index + 1) polls wait found lines
      | (scanner, some s) =>
        match x.lookup (effectiveKeyword lineAt index) s.step.text with
        | (x, []) =>
          diagnoseLines stillWanted lineAt x scanner (index + 1) polls wait
            (.ofStep index line s.step :: found) lines
        | (x, _) => diagnoseLines stillWanted lineAt x scanner (index + 1) polls wait found lines

/-- A run over a document; `stillWanted n` is the answer to the `n`-th question. -/
def Indexes.diagnoseChecked (stillWanted : Nat → Bool) (x : Indexes) (text : Text) :
    Indexes × DiagnosticRun :=
  let lines := Text.lines text
  let table := lines.toArray
  x.diagnoseLines stillWanted (fun i => table[i]?) {} 0 0 Diagnostic.interval [] lines

def Indexes.diagnose (x : Indexes) (text : Text) : Indexes × List Diagnostic :=
  let (x, run) := x.diagnoseChecked (fun _ => true) text
  (x, run.found.getD [])

end StepLink
