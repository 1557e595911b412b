import StepLink.Pattern.Error
import StepLink.Text.Blank

/-! Placeholders of a step pattern, such as `{amount}`, `{amount:d}` and the anonymous forms without a
name. After a name either a type tag follows, introduced by a colon, or any text up to the brace that
balances the opening one. -/

namespace StepLink

/-- A placeholder: its name, possibly empty, and its type tag. -/
structure Field where
  name : Text
  tag : Option Text
  deriving DecidableEq, Repr

namespace Field

def isNameChar (c : Char) : Bool :=
  c.isAlphanum || c == '_'

/-- A character that makes a brace before it open a placeholder. -/
def opens (c : Char) : Bool :=
  c.isAlpha || c == '_' || c == ':' || c == '}'

/-- A character that a type tag cannot hold. -/
def isBarredFromTag (c : Char) : Bool :=
  Text.isAsciiBlank c || c == '{'

/-- Cut a text behind the closing brace that balances `depth` open braces and one more. -/
def cutBalanced : Nat → Text → Option (Text × Text)
  | _, [] => none
  | depth, c :: t =>
    if c = '{' then (cutBalanced (depth + 1) t).map fun (inside, rest) => (c :: inside, rest)
    else if c = '}' then
      match depth with
      | 0 => some ([c], t)
      | depth + 1 => (cutBalanced depth t).map fun (inside, rest) => (c :: inside, rest)
    else (cutBalanced depth t).map fun (inside, rest) => (c :: inside, rest)

/-- Read a placeholder whose opening brace, at byte `start`, stands before the text: the placeholder, its
spelling after the brace, and the rest of the text. -/
def read (start : Nat) (t : Text) : Except BraceError (Field × Text × Text) :=
  let name := t.takeWhile isNameChar
  let afterName := t.dropWhile isNameChar
  let blanks := afterName.takeWhile Text.isAsciiBlank
  let rest := afterName.dropWhile Text.isAsciiBlank
  let malformed := .error ⟨.malformed, start, some name⟩
  let unclosed := .error ⟨.unclosed, start, some name⟩
  if !blanks.isEmpty && (rest.head? == some ':' || rest.head? == some '}') then malformed
  else match rest with
  | ':' :: t =>
    let tag := t.takeWhile (· != '}')
    if tag.isEmpty || tag.any isBarredFromTag then malformed
    else match t.dropWhile (· != '}') with
    | [] => unclosed
    | c :: rest => .ok (⟨name, some tag⟩, name ++ ':' :: tag ++ [c], rest)
  | rest =>
    match cutBalanced 0 rest with
    | none => unclosed
    | some (inside, rest) => .ok (⟨name, none⟩, name ++ blanks ++ inside, rest)

theorem append_of_cutBalanced {depth : Nat} {t inside rest : Text}
    (h : cutBalanced depth t = some (inside, rest)) : inside ++ rest = t := by
  induction t generalizing depth inside rest with
  | nil => simp [cutBalanced] at h
  | cons c t ih =>
    unfold cutBalanced at h
    split at h
    · obtain ⟨⟨a, b⟩, hab, heq⟩ := Option.map_eq_some_iff.1 h
      cases heq
      simp [ih hab]
    · split at h
      · split at h
        · cases h
          simp
        · obtain ⟨⟨a, b⟩, hab, heq⟩ := Option.map_eq_some_iff.1 h
          cases heq
          simp [ih hab]
      · obtain ⟨⟨a, b⟩, hab, heq⟩ := Option.map_eq_some_iff.1 h
        cases heq
        simp [ih hab]

/-- The spelling of a placeholder and the rest make up the text that was read. -/
theorem append_of_read {start : Nat} {t spelling rest : Text} {f : Field}
    (h : read start t = .ok (f, spelling, rest)) : spelling ++ rest = t := by
  have hname := List.takeWhile_append_dropWhile (p := isNameChar) (l := t)
  have hblank := List.takeWhile_append_dropWhile (p := Text.isAsciiBlank) (l := t.dropWhile isNameChar)
  simp only [read] at h
  split at h
  · cases h
  next hhead =>
    split at h
    next u hu =>
      have hnil : (t.dropWhile isNameChar).takeWhile Text.isAsciiBlank = [] := by
        rw [hu] at hhead
        simpa using hhead
      rw [hnil, hu, List.nil_append] at hblank
      split at h
      · cases h
      · split at h
        · cases h
        next c w hw =>
          have htag := List.takeWhile_append_dropWhile (p := (· != '}')) (l := u)
          rw [hw] at htag
          injection h with h
          injection h with _ h
          injection h with hs hr
          subst hs hr
          simp only [List.append_assoc, List.cons_append, List.nil_append]
          rw [htag, hblank, hname]
    next =>
      split at h
      · cases h
      next inside w hcut =>
        injection h with h
        injection h with _ h
        injection h with hs hr
        subst hs hr
        rw [List.append_assoc, List.append_assoc, append_of_cutBalanced hcut, hblank, hname]

end Field

end StepLink
