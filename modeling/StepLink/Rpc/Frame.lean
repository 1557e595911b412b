import StepLink.Config
import StepLink.Text.Units

/-! Frames: a message on a stream stands behind header lines, one of which tells the number of its bytes, and
an empty line. -/

namespace StepLink

/-- The header lines at the start of a stream. -/
inductive FrameHeader where
  /-- All of them: the number of bytes of the body, and what follows. -/
  | complete (size : Nat) (rest : Text)
  | incomplete
  | malformed
  deriving DecidableEq, Repr

inductive Frame where
  /-- A whole frame, and what follows it. -/
  | body (content rest : Text)
  | incomplete
  | malformed
  deriving DecidableEq, Repr

namespace Frame

/-- Split a text after its first line break. -/
def cutLine? : Text → Option (Text × Text)
  | [] => none
  | '\n' :: t => some (['\n'], t)
  | c :: t => (cutLine? t).map fun (line, rest) => (c :: line, rest)

theorem length_rest_lt_of_cutLine? : ∀ {t line rest : Text}, cutLine? t = some (line, rest) →
    rest.length < t.length
  | [], _, _, h => by simp [cutLine?] at h
  | c :: t, line, rest, h => by
    by_cases hc : c = '\n'
    · subst hc
      simp only [cutLine?, Option.some.injEq, Prod.mk.injEq] at h
      simp [h.2.symm]
    · rw [cutLine?] at h
      · obtain ⟨⟨first, left⟩, hcut, heq⟩ := Option.map_eq_some_iff.1 h
        have hlt := length_rest_lt_of_cutLine? hcut
        simp only [Prod.mk.injEq] at heq
        rw [← heq.2]
        simp only [List.length_cons]
        omega
      · exact hc

/-- Split a header line at the colon and the space between its name and its value. -/
def splitHeader? : Text → Option (Text × Text)
  | ':' :: ' ' :: value => some ([], value)
  | c :: t => (splitHeader? t).map fun (name, value) => (c :: name, value)
  | [] => none

/-- The line without the line break at its end, which has two characters. -/
def stripBreak? (line : Text) : Option Text :=
  match line.reverse with
  | '\n' :: '\r' :: t => some t.reverse
  | _ => none

/-- Read header lines after some others, which may have told the number of bytes. -/
def readHeader (size : Option Nat) (t : Text) : FrameHeader :=
  match _cut : cutLine? t with
  | none => .incomplete
  | some (line, rest) =>
    if line = ['\r', '\n'] then
      match size with
      | some n => .complete n rest
      | none => .malformed
    else match (stripBreak? line).bind splitHeader? with
      | none => .malformed
      | some (name, value) =>
        if Text.sameIgnoringCase name "content-length".toList then
          match readWord value with
          | .ok n => readHeader (some n) rest
          | .error _ => .malformed
        else readHeader size rest
termination_by t.length
decreasing_by all_goals exact length_rest_lt_of_cutLine? ‹_›

def header (t : Text) : FrameHeader :=
  readHeader none t

def ofBody (size : Nat) (t : Text) : Frame :=
  let content := Text.takeBytes t size
  if Text.utf8Length content = size then body content (t.drop content.length)
  else if Text.utf8Length t < size then incomplete
  else malformed

def ofText (t : Text) : Frame :=
  match header t with
  | .complete size rest => ofBody size rest
  | .incomplete => incomplete
  | .malformed => malformed

def print (content : Text) : Text :=
  "Content-Length: ".toList ++ Nat.toDigits 10 (Text.utf8Length content) ++ "\r\n\r\n".toList ++ content

end Frame

end StepLink
