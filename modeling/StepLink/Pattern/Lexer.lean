import Mathlib.Data.Nat.PSub
import StepLink.Pattern.Token
import StepLink.Text.Bytes

/-! The loop that cuts a pattern into tokens by its bytes. It stands at a byte offset, tells by the byte there how to
go on, and decodes characters only where it takes them for literal text. Placeholders are read on the bytes alone, and
the offset behind them is where the loop goes on. Wherever bytes are taken for more than they need to be (for a text,
for the start of a character, for an offset within the pattern, for a brace that something opened) there is a branch
that falls back on something else, such as a replacement character. Here each of these is an ending of its own, so that
it shows whether one of them is ever taken. `Token.ofPattern` has the same tokens without any bytes. -/

namespace StepLink

/-- What ends the loop before the end of the pattern. -/
inductive Lexer.Stop where
  | fault (e : BraceError)
  /-- Some branch is taken that is meant for bytes of no text. -/
  | fallback
  deriving DecidableEq, Repr

/-- The loop between two iterations. -/
structure Lexer where
  position : Nat
  /-- The literal text since the last token. -/
  literal : Text
  tokens : List Token
  deriving DecidableEq, Repr

namespace Lexer

def orFallback {α : Type} : Option α → Except Stop α
  | some a => .ok a
  | none => .error .fallback

/-- The bytes from an offset on, which is not past their end. -/
def bytesFrom (bytes : List UInt8) (offset : Nat) : Except Stop (List UInt8) :=
  if offset ≤ bytes.length then .ok (bytes.drop offset) else .error .fallback

/-- The longest run of bytes at an offset that stand for characters with a property. -/
def runAt (p : Char → Bool) (bytes : List UInt8) (offset : Nat) : Except Stop (List UInt8) :=
  (bytesFrom bytes offset).map fun behind => behind.takeWhile fun b => p (Char.ofUInt8 b)

/-- The text of such a run, and the offset behind it. -/
def readRun (p : Char → Bool) (bytes : List UInt8) (offset : Nat) : Except Stop (Text × Nat) := do
  let run ← runAt p bytes offset
  let t ← orFallback (Text.ofBytes? run)
  .ok (t, offset + run.length)

/-- The offset behind the blanks at an offset. -/
def skipBlanks (bytes : List UInt8) (offset : Nat) : Except Stop Nat :=
  (runAt Text.isAsciiBlank bytes offset).map fun run => offset + run.length

/-- The offset of the brace that closes what `depth` braces and one more opened, in bytes of which the first one is at
the given offset. -/
def findClosing (depth offset : Nat) : List UInt8 → Except Stop (Option Nat)
  | [] => .ok none
  | b :: bytes =>
    if b = '{'.toUInt8 then findClosing (depth + 1) (offset + 1) bytes
    else if b = '}'.toUInt8 then
      if depth = 0 then .ok (some offset)
      else
        match depth.ppred with
        | some depth => findClosing depth (offset + 1) bytes
        | none => .error .fallback
    else findClosing depth (offset + 1) bytes

/-- What stands between the blanks behind a name and the closing brace: the type tag, if a colon introduces one, and
the offset where the brace should be. -/
def readTail (bytes : List UInt8) (index : Nat) (malformed unclosed : Stop) : Except Stop (Option Text × Nat) := do
  if bytes[index]? = some ':'.toUInt8 then
    let (tag, closing) ← readRun (· != '}') bytes (index + 1)
    if tag.isEmpty || tag.any Field.isBarredFromTag then .error malformed
    else .ok (some tag, closing)
  else
    let behind ← bytesFrom bytes index
    match ← findClosing 0 index behind with
    | some closing => .ok (none, closing)
    | none => .error unclosed

/-- The placeholder whose brace is at byte `start`, and the offset behind it. -/
def readField (bytes : List UInt8) (start : Nat) : Except Stop (Field × Nat) := do
  let (name, behind) ← readRun Field.isNameChar bytes (start + 1)
  let malformed := Stop.fault ⟨.malformed, start, some name⟩
  let unclosed := Stop.fault ⟨.unclosed, start, some name⟩
  let index ← skipBlanks bytes behind
  if index ≠ behind ∧ (bytes[index]? = some ':'.toUInt8 ∨ bytes[index]? = some '}'.toUInt8) then .error malformed
  else
    let (tag, closing) ← readTail bytes index malformed unclosed
    if bytes[closing]? = some '}'.toUInt8 then .ok (⟨name, tag⟩, closing + 1) else .error unclosed

/-- Literal text grows by a character, behind which the loop goes on. -/
def push (x : Lexer) (c : Char) (position : Nat) : Lexer :=
  { x with position := position, literal := x.literal ++ [c] }

/-- The literal text becomes a token, if there is any. -/
def flush (x : Lexer) : Lexer :=
  if x.literal = [] then x else { x with literal := [], tokens := x.tokens ++ [.literal x.literal] }

/-- A token behind the literal text, at whose end the loop goes on. -/
def emit (x : Lexer) (token : Token) (position : Nat) : Lexer :=
  { x.flush with position := position, tokens := x.flush.tokens ++ [token] }

/-- One iteration, at the byte `b`. -/
def step (pattern : Text) (x : Lexer) (b : UInt8) : Except Stop Lexer :=
  let bytes := Text.bytes pattern
  let next := bytes[x.position + 1]?
  if b = '\\'.toUInt8 then
    -- The escaped character may take several bytes, and at the end of the pattern there is none.
    match Text.fromByte? (x.position + 1) pattern with
    | some (c :: _) => .ok (x.push c (x.position + 1 + c.utf8Size))
    | some [] => .ok (x.push '\\' (x.position + 1))
    | none => .error .fallback
  else if b = '{'.toUInt8 then
    if next = some '{'.toUInt8 then .ok (x.push '{' (x.position + 2))
    else if next.any fun b => Field.opens (Char.ofUInt8 b) then
      (readField bytes x.position).map fun (f, position) => x.emit (.field x.position f) position
    else .ok (x.emit (.openBrace x.position) (x.position + 1))
  else if b = '}'.toUInt8 then
    if next = some '}'.toUInt8 then .ok (x.push '}' (x.position + 2))
    else .ok (x.emit (.closeBrace x.position) (x.position + 1))
  else
    match Text.fromByte? x.position pattern with
    | some (c :: _) => .ok (x.push c (x.position + c.utf8Size))
    | _ => .error .fallback

section

variable {α β : Type}

/-- What two computations in a row give, the second one gives after what the first one gave. -/
theorem exists_of_bind {x : Except Stop α} {f : α → Except Stop β} {b : β} (h : x >>= f = .ok b) :
    ∃ a, x = .ok a ∧ f a = .ok b := by
  cases x with
  | error stop => cases h
  | ok a => exact ⟨a, rfl, h⟩

theorem exists_of_map {x : Except Stop α} {f : α → β} {b : β} (h : x.map f = .ok b) :
    ∃ a, x = .ok a ∧ f a = b := by
  cases x with
  | error stop => cases h
  | ok a => exact ⟨a, rfl, Except.ok.inj h⟩

end

variable {p : Char → Bool} {bytes : List UInt8} {start offset index closing position depth : Nat} {t : Text}
  {f : Field} {tag : Option Text} {malformed unclosed : Stop} {pattern : Text} {x y : Lexer} {b : UInt8}

theorem le_of_readRun (h : readRun p bytes offset = .ok (t, position)) : offset ≤ position := by
  obtain ⟨run, -, h⟩ := exists_of_bind h
  obtain ⟨t, -, h⟩ := exists_of_bind h
  cases h
  exact Nat.le_add_right _ _

theorem le_of_skipBlanks (h : skipBlanks bytes offset = .ok index) : offset ≤ index := by
  obtain ⟨run, -, rfl⟩ := exists_of_map h
  exact Nat.le_add_right _ _

theorem le_of_findClosing (h : findClosing depth offset bytes = .ok (some closing)) : offset ≤ closing := by
  induction bytes generalizing depth offset with
  | nil => cases h
  | cons b bytes ih =>
    have hbehind : ∀ {depth}, findClosing depth (offset + 1) bytes = .ok (some closing) → offset ≤ closing :=
      fun h => Nat.le_of_succ_le (ih h)
    rw [findClosing] at h
    split at h
    · exact hbehind h
    · split at h
      · split at h
        · cases h
          exact le_rfl
        · split at h
          · exact hbehind h
          · cases h
      · exact hbehind h

theorem le_of_readTail (h : readTail bytes index malformed unclosed = .ok (tag, closing)) : index ≤ closing := by
  rw [readTail] at h
  split at h
  · obtain ⟨⟨t, position⟩, hrun, h⟩ := exists_of_bind h
    have hle := le_of_readRun hrun
    dsimp only at h
    split at h
    · cases h
    · cases h
      exact Nat.le_of_succ_le hle
  · obtain ⟨behind, -, h⟩ := exists_of_bind h
    obtain ⟨found, hfound, h⟩ := exists_of_bind h
    cases found with
    | none => cases h
    | some offset =>
      cases h
      exact le_of_findClosing hfound

/-- The brace that closes a placeholder is behind the one that opens it. -/
theorem lt_of_readField (h : readField bytes start = .ok (f, position)) : start < position := by
  obtain ⟨⟨name, behind⟩, hname, h⟩ := exists_of_bind h
  obtain ⟨index, hindex, h⟩ := exists_of_bind h
  dsimp only at h
  split at h
  · cases h
  · obtain ⟨⟨tag, closing⟩, hclosing, h⟩ := exists_of_bind h
    have hbehind := le_of_readRun hname
    have hblanks := le_of_skipBlanks hindex
    have htail := le_of_readTail hclosing
    dsimp only at h
    split at h
    · cases h
      omega
    · cases h

/-- Every iteration goes on behind the byte at which it stands. -/
theorem position_lt_of_step (h : step pattern x b = .ok y) : x.position < y.position := by
  have hpush : ∀ {c : Char} {position : Nat}, x.position < position →
      (.ok (x.push c position) : Except Stop Lexer) = .ok y → x.position < y.position :=
    fun hlt h => Except.ok.inj h ▸ hlt
  unfold step at h
  dsimp only at h
  split at h
  · split at h
    · exact hpush (by omega) h
    · exact hpush (by omega) h
    · cases h
  · split at h
    · split at h
      · exact hpush (by omega) h
      · split at h
        · obtain ⟨⟨f, position⟩, hfield, rfl⟩ := exists_of_map h
          exact lt_of_readField hfield
        · cases h
          exact Nat.lt_succ_self _
    · split at h
      · split at h
        · exact hpush (by omega) h
        · cases h
          exact Nat.lt_succ_self _
      · split at h
        next c t hchar => exact hpush (Nat.lt_add_of_pos_right c.utf8Size_pos) h
        · cases h

/-- The loop, up to the end of the pattern. -/
def run (pattern : Text) (x : Lexer) : Except Stop Lexer :=
  if hend : x.position < (Text.bytes pattern).length then
    match _step : step pattern x (Text.bytes pattern)[x.position] with
    | .error stop => .error stop
    | .ok y => run pattern y
  else .ok x
termination_by (Text.bytes pattern).length - x.position
decreasing_by
  have hlt := position_lt_of_step _step
  omega

/-- The tokens of a pattern. -/
def lex (pattern : Text) : Except Stop (List Token) :=
  (run pattern ⟨0, [], []⟩).map fun x => x.flush.tokens

end Lexer

end StepLink
