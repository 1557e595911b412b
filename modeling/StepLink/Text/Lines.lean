import StepLink.Text.Basic

/-! The lines of a text. A line ends at a line feed, and one carriage return before it belongs to the line
break; a carriage return elsewhere is an ordinary character. The text after the last line feed is a line
only when it is not empty. -/

namespace StepLink.Text

/-- A reversed line without the carriage return of its line break. -/
def dropReturn : Text → Text
  | '\r' :: t => t
  | t => t

/-- The lines of a text of which the reversed beginning of the current line has been read. -/
def linesAfter (current : Text) : Text → List Text
  | [] => if current.isEmpty then [] else [current.reverse]
  | c :: rest =>
    if c = '\n' then (dropReturn current).reverse :: linesAfter [] rest
    else linesAfter (c :: current) rest

/-- The lines of a text, without their line breaks. -/
def lines (t : Text) : List Text :=
  linesAfter [] t

end StepLink.Text
