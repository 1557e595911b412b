/-! Text as the list of its characters. Every analysis of this library reads text from the front, so a list
is the working form; byte offsets, where they are reported, are those of the UTF-8 form of the text, and two
comparisons that ignore case are provided: the one on ASCII letters here, the Unicode one in
`StepLink.Text.Fold`. -/

namespace StepLink

/-- A text is the list of its characters. -/
abbrev Text := List Char

namespace Text

/-- The number of bytes of the UTF-8 form. -/
def utf8Length (t : Text) : Nat :=
  t.foldr (fun c n => c.utf8Size + n) 0

/-- Two texts are the same up to the case of ASCII letters. -/
def sameIgnoringCase (s t : Text) : Bool :=
  s.map Char.toLower == t.map Char.toLower

def isWithin (needle : Text) : Text → Bool
  | [] => needle.isEmpty
  | c :: t => needle.isPrefixOf (c :: t) || isWithin needle t

@[simp] theorem utf8Length_nil : utf8Length [] = 0 := rfl

@[simp] theorem utf8Length_cons (c : Char) (t : Text) :
    utf8Length (c :: t) = c.utf8Size + utf8Length t := rfl

@[simp] theorem utf8Length_append (s t : Text) :
    utf8Length (s ++ t) = utf8Length s + utf8Length t := by
  induction s with
  | nil => simp
  | cons c s ih => simp [ih, Nat.add_assoc]

end Text

end StepLink
