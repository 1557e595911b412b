import StepLink.Pattern.Field

/-! Step patterns cut into pieces, and pieces gathered into tokens. A backslash makes the next character
literal, a doubled brace is one literal brace, and a brace that opens no placeholder is a stray one, which
the pattern may hold as long as stray braces balance. -/

namespace StepLink

inductive Piece where
  | letter (c : Char)
  | field (f : Field)
  | opening
  | closing
  deriving DecidableEq, Repr

/-- A part of a pattern; everything but literal text has the byte offset at which it starts. -/
inductive Token where
  | literal (t : Text)
  | field (start : Nat) (f : Field)
  | openBrace (start : Nat)
  | closeBrace (start : Nat)
  deriving DecidableEq, Repr

/-- Read the piece at the front of a text whose first character is at byte `start`: the piece, its spelling,
and the rest of the text. -/
def Piece.read (start : Nat) (c : Char) (t : Text) : Except BraceError (Piece × Text × Text) :=
  if c = '\\' then
    match t with
    | [] => .ok (.letter c, [c], [])
    | d :: t => .ok (.letter d, [c, d], t)
  else if c = '{' then
    match t with
    | [] => .ok (.opening, [c], [])
    | d :: u =>
      if d = '{' then .ok (.letter c, [c, d], u)
      else if Field.opens d then
        match Field.read start (d :: u) with
        | .error e => .error e
        | .ok (f, spelling, rest) => .ok (.field f, c :: spelling, rest)
      else .ok (.opening, [c], d :: u)
  else if c = '}' then
    match t with
    | [] => .ok (.closing, [c], [])
    | d :: u => if d = '}' then .ok (.letter c, [c, d], u) else .ok (.closing, [c], d :: u)
  else .ok (.letter c, [c], t)

/-- The spelling of a piece, which is not empty, and the rest make up the text that was read. -/
theorem Piece.append_of_read {start : Nat} {c : Char} {t spelling rest : Text} {p : Piece}
    (h : Piece.read start c t = .ok (p, spelling, rest)) :
    spelling ++ rest = c :: t ∧ ∃ tail, spelling = c :: tail := by
  unfold Piece.read at h
  split at h
  · split at h <;> (cases h; simp)
  · split at h
    · split at h
      · cases h; simp
      · split at h
        · cases h; simp
        · split at h
          · split at h
            · cases h
            next hread =>
              cases h
              exact ⟨by simp [Field.append_of_read hread], _, rfl⟩
          · cases h; simp
    · split at h
      · split at h
        · cases h; simp
        · split at h <;> (cases h; simp)
      · cases h; simp

theorem Piece.length_rest_lt {start : Nat} {c : Char} {t spelling rest : Text} {p : Piece}
    (h : Piece.read start c t = .ok (p, spelling, rest)) : rest.length < (c :: t).length := by
  obtain ⟨happend, tail, htail⟩ := Piece.append_of_read h
  rw [← happend, htail]
  simp only [List.cons_append, List.length_cons, List.length_append]
  omega

def Piece.readAll (start : Nat) (t : Text) : Except BraceError (List (Nat × Piece)) :=
  match t with
  | [] => .ok []
  | c :: t =>
    match _read : Piece.read start c t with
    | .error e => .error e
    | .ok (p, spelling, rest) =>
      match Piece.readAll (start + Text.utf8Length spelling) rest with
      | .error e => .error e
      | .ok ps => .ok ((start, p) :: ps)
termination_by t.length
decreasing_by exact Piece.length_rest_lt ‹_›

/-- Gather neighbouring letters into literals. -/
def Token.gather : List (Nat × Piece) → List Token
  | [] => []
  | (start, p) :: ps =>
    match p with
    | .letter c =>
      match gather ps with
      | .literal t :: tokens => .literal (c :: t) :: tokens
      | tokens => .literal [c] :: tokens
    | .field f => .field start f :: gather ps
    | .opening => .openBrace start :: gather ps
    | .closing => .closeBrace start :: gather ps

def Token.ofPattern (pattern : Text) : Except BraceError (List Token) :=
  (Piece.readAll 0 pattern).map gather

end StepLink
