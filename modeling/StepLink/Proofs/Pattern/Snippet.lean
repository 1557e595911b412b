import Mathlib.Data.List.TakeWhile
import StepLink.Pattern.Snippet
import StepLink.Proofs.Pattern.Meaning

/-! Snippets as an editor reads them. A backslash in front of a reserved character is an escape, a number in
braces after a dollar sign is a tab stop, with a default text or without, and all else is literal. What is read
out of the snippet of a pattern has one stop for each placeholder, and values filled in at the stops give a text
that the pattern accepts. -/

namespace StepLink

namespace Snippet

inductive Part where
  | letter (c : Char)
  | stop (number : Nat) (default : Text)
  deriving DecidableEq, Repr

/-- Read a default text up to the closing brace: the text, and what stands behind the brace. -/
def readDefault? : Text → Option (Text × Text)
  | [] => none
  | '}' :: t => some ([], t)
  | '\\' :: c :: t =>
    if isReserved c then (readDefault? t).map fun (default, rest) => (c :: default, rest)
    else (readDefault? (c :: t)).map fun (default, rest) => ('\\' :: default, rest)
  | c :: t => (readDefault? t).map fun (default, rest) => (c :: default, rest)

/-- Read a tab stop behind its number. -/
def readStopEnd? (number : Nat) : Text → Option (Part × Text)
  | '}' :: t => some (.stop number [], t)
  | ':' :: t => (readDefault? t).map fun (default, rest) => (.stop number default, rest)
  | _ => none

/-- Read a tab stop behind its dollar sign. -/
def readStop? : Text → Option (Part × Text)
  | '{' :: t =>
    let digits := t.takeWhile Char.isDigit
    if digits.isEmpty then none else readStopEnd? (Nat.ofDigitChars 10 digits 0) (t.dropWhile Char.isDigit)
  | _ => none

/-- Read the part that starts with a character. -/
def Part.read : Char → Text → Part × Text
  | '\\', c :: t => if isReserved c then (.letter c, t) else (.letter '\\', c :: t)
  | '$', t => (readStop? t).getD (.letter '$', t)
  | c, t => (.letter c, t)

theorem exists_of_map_default {found : Option (Text × Text)} {g : Text → Text} {default rest : Text}
    (h : (found.map fun (default, rest) => (g default, rest)) = some (default, rest)) :
    ∃ inner, found = some (inner, rest) := by
  obtain ⟨⟨inner, _⟩, hinner, heq⟩ := Option.map_eq_some_iff.mp h
  cases heq
  exact ⟨inner, hinner⟩

theorem length_le_of_readDefault? {t default rest : Text} (h : readDefault? t = some (default, rest)) :
    rest.length ≤ t.length := by
  induction t using readDefault?.induct generalizing default with
  | case1 => cases h
  | case2 t =>
    cases h
    exact Nat.le_succ _
  | case3 c t hc ih =>
    rw [readDefault?, if_pos hc] at h
    obtain ⟨inner, hinner⟩ := exists_of_map_default h
    exact Nat.le_trans (ih hinner) (Nat.le_add_right _ 2)
  | case4 c t hc ih =>
    rw [readDefault?, if_neg hc] at h
    obtain ⟨inner, hinner⟩ := exists_of_map_default h
    exact Nat.le_trans (ih hinner) (Nat.le_succ _)
  | case5 c t hbrace hslash ih =>
    rw [readDefault?.eq_4 c t hbrace hslash] at h
    obtain ⟨inner, hinner⟩ := exists_of_map_default h
    exact Nat.le_trans (ih hinner) (Nat.le_succ _)

theorem length_le_of_readStopEnd? {t rest : Text} {number : Nat} {part : Part}
    (h : readStopEnd? number t = some (part, rest)) : rest.length ≤ t.length := by
  unfold readStopEnd? at h
  split at h
  · cases h
    exact Nat.le_succ _
  · obtain ⟨⟨default, _⟩, hdefault, heq⟩ := Option.map_eq_some_iff.mp h
    cases heq
    exact Nat.le_trans (length_le_of_readDefault? hdefault) (Nat.le_succ _)
  · cases h

theorem length_le_of_readStop? {t rest : Text} {part : Part} (h : readStop? t = some (part, rest)) :
    rest.length ≤ t.length := by
  unfold readStop? at h
  split at h
  next t =>
    have hdrop : (t.dropWhile Char.isDigit).length ≤ t.length := (List.dropWhile_suffix _).length_le
    dsimp only at h
    split at h
    · cases h
    · exact Nat.le_trans (length_le_of_readStopEnd? h) (Nat.le_trans hdrop (Nat.le_succ _))
  · cases h

theorem Part.length_read_le (c : Char) (t : Text) : (Part.read c t).2.length ≤ t.length := by
  unfold Part.read
  split
  · split
    · exact Nat.le_succ _
    · exact Nat.le_refl _
  · cases h : readStop? t with
    | none => exact Nat.le_refl _
    | some found => exact length_le_of_readStop? h
  · exact Nat.le_refl _

/-- The parts of a snippet. -/
def parts : Text → List Part
  | [] => []
  | c :: t => (Part.read c t).1 :: parts (Part.read c t).2
termination_by t => t.length
decreasing_by exact Nat.lt_succ_of_le (Part.length_read_le c t)

/-- The tab stops of a snippet, each with its number and its default text. -/
def Part.stop? : Part → Option (Nat × Text)
  | letter _ => none
  | stop number default => some (number, default)

def Part.fill (value : Nat → Text) : Part → Text
  | letter c => [c]
  | stop number _ => value number

/-- The text that a snippet stands for once every tab stop has got its value. -/
def fill (value : Nat → Text) (parts : List Part) : Text :=
  parts.flatMap (Part.fill value)

variable {t name rest : Text} {c : Char} {n : Nat}

theorem ne_of_not_isReserved (h : isReserved c = false) : c ≠ '$' ∧ c ≠ '}' ∧ c ≠ '\\' := by
  simpa [isReserved, and_assoc] using h

theorem parts_letter (h : isReserved c = false) : parts (c :: t) = .letter c :: parts t := by
  obtain ⟨hdollar, -, hslash⟩ := ne_of_not_isReserved h
  have hread : Part.read c t = (.letter c, t) :=
    Part.read.eq_3 c t hdollar fun _ _ hc _ => hslash hc
  rw [parts, hread]

theorem parts_escaped (h : isReserved c = true) : parts ('\\' :: c :: t) = .letter c :: parts t := by
  rw [parts, Part.read, if_pos h]

theorem parts_escape (t : Text) : parts (escape t ++ rest) = t.map .letter ++ parts rest := by
  induction t with
  | nil => rfl
  | cons c t ih =>
    cases h : isReserved c with
    | true =>
      rw [escape, if_pos h, List.cons_append, List.cons_append, parts_escaped h, ih]
      rfl
    | false =>
      rw [escape, h, if_neg Bool.false_ne_true, List.cons_append, parts_letter h, ih]
      rfl

theorem not_isReserved_of_isNameChar (h : Field.isNameChar c = true) : isReserved c = false := by
  have hmarks : ['$', '}', '\\'].Forall fun d => Field.isNameChar d = false := by decide
  rw [← Bool.not_eq_true]
  intro hc
  have hmem : c ∈ ['$', '}', '\\'] := by simpa [isReserved, or_assoc] using hc
  rw [List.forall_iff_forall_mem.mp hmarks c hmem] at h
  cases h

theorem readDefault?_name (h : ∀ c ∈ name, Field.isNameChar c = true) :
    readDefault? (name ++ '}' :: rest) = some (name, rest) := by
  induction name with
  | nil => rfl
  | cons c name ih =>
    obtain ⟨hc, hname⟩ := List.forall_mem_cons.mp h
    obtain ⟨-, hbrace, hslash⟩ := ne_of_not_isReserved (not_isReserved_of_isNameChar hc)
    rw [List.cons_append, readDefault?.eq_4 c _ hbrace fun _ _ hc _ => hslash hc, ih hname, Option.map_some]

theorem readStop?_digits (hc : c.isDigit = false) :
    readStop? ('{' :: Nat.toDigits 10 n ++ c :: t) = readStopEnd? n (c :: t) := by
  have hdigits : ∀ d ∈ Nat.toDigits 10 n, d.isDigit = true := fun d hd =>
    Nat.isDigit_of_mem_toDigits (by decide) (by decide) hd
  have hhead : ∀ d ∈ (c :: t).head?, d.isDigit = false := fun d hd => Option.some.inj hd ▸ hc
  have hsome : (Nat.toDigits 10 n).isEmpty = false := by
    rw [List.isEmpty_eq_false_iff]
    exact Nat.toDigits_ne_nil
  rw [List.cons_append, readStop?]
  simp only [Text.takeWhile_append_of_head hdigits hhead, Text.dropWhile_append_of_head hdigits hhead, hsome,
    Nat.ofDigitChars_toDigits (by decide : 1 < 10) (by decide : 10 ≤ 10)]
  rfl

theorem parts_stop (h : readStop? t = some (.stop n name, rest)) :
    parts ('$' :: t) = .stop n name :: parts rest := by
  rw [parts, Part.read, h]
  rfl

theorem parts_tabStop (h : ∀ c ∈ name, Field.isNameChar c = true) :
    parts (tabStop n name ++ rest) = .stop n name :: parts rest := by
  cases name with
  | nil =>
    have htext : tabStop n [] ++ rest = '$' :: ('{' :: Nat.toDigits 10 n ++ '}' :: rest) := by simp [tabStop]
    rw [htext]
    exact parts_stop (readStop?_digits (by decide))
  | cons c name =>
    have htext : tabStop n (c :: name) ++ rest =
        '$' :: ('{' :: Nat.toDigits 10 n ++ ':' :: (c :: name ++ '}' :: rest)) := by
      simp [tabStop]
    rw [htext]
    refine parts_stop ?_
    rw [readStop?_digits (by decide), readStopEnd?, readDefault?_name h, Option.map_some]

end Snippet

/-- The placeholder that a piece is. -/
def Piece.field? : Piece → Option Field
  | field f => some f
  | _ => none

theorem Piece.Cut.isNameChar {start : Nat} {t : Text} {pieces : List (Nat × Piece)} (h : Cut start t pieces) :
    ∀ f ∈ pieces.filterMap (·.2.field?), ∀ c ∈ f.name, Field.isNameChar c = true := by
  induction h with
  | nil => simp
  | cons hp _ ih =>
    cases hp with
    | field _ hf => exact List.forall_mem_cons.mpr ⟨hf.isNameChar, ih⟩
    | _ => exact ih

/-- The placeholder that a token is. -/
def Token.field? : Token → Option Field
  | field _ f => some f
  | _ => none

/-- The placeholders among tokens. -/
def Token.fields (tokens : List Token) : List Field :=
  tokens.filterMap Token.field?

theorem Token.fields_gather (pieces : List (Nat × Piece)) :
    Token.fields (Token.gather pieces) = pieces.filterMap (·.2.field?) := by
  induction pieces using Token.gather.induct with
  | case1 => rfl
  | case2 start ps c t tokens hgather ih =>
    rw [hgather] at ih
    simp only [Token.gather, hgather]
    exact ih
  | case3 start ps c hgather ih =>
    have hgathered : Token.gather ((start, .letter c) :: ps) = .literal [c] :: Token.gather ps := by
      simp only [Token.gather]
    rw [hgathered]
    exact ih
  | case4 start ps f ih => exact congrArg (f :: ·) ih
  | case5 start ps ih => exact ih
  | case6 start ps ih => exact ih

theorem Token.isNameChar_of_ofPattern {pattern : Text} {tokens : List Token}
    (h : Token.ofPattern pattern = .ok tokens) :
    ∀ f ∈ Token.fields tokens, ∀ c ∈ f.name, Field.isNameChar c = true := by
  obtain ⟨pieces, hcut, rfl⟩ := Token.ofPattern_iff.mp h
  rw [Token.fields_gather]
  exact hcut.isNameChar

/-! ### Snippets of patterns -/

namespace Snippet

/-- The parts of the snippet of tokens that follow `stops` placeholders. -/
def partsOfTokens (stops : Nat) : List Token → List Part
  | [] => []
  | .literal t :: tokens => t.map .letter ++ partsOfTokens stops tokens
  | .field _ f :: tokens => .stop (stops + 1) f.name :: partsOfTokens (stops + 1) tokens
  | .openBrace _ :: tokens => .letter '{' :: partsOfTokens stops tokens
  | .closeBrace _ :: tokens => .letter '}' :: partsOfTokens stops tokens

theorem parts_ofTokens {tokens : List Token}
    (h : ∀ f ∈ Token.fields tokens, ∀ c ∈ f.name, Field.isNameChar c = true) (stops : Nat) :
    parts (ofTokens stops tokens) = partsOfTokens stops tokens := by
  induction tokens generalizing stops with
  | nil => rw [ofTokens, parts, partsOfTokens]
  | cons token tokens ih =>
    cases token with
    | literal t => rw [ofTokens, parts_escape, ih h, partsOfTokens]
    | field start f =>
      obtain ⟨hname, htokens⟩ := List.forall_mem_cons.mp h
      rw [ofTokens, parts_tabStop hname, ih htokens, partsOfTokens]
    | openBrace start => rw [ofTokens, parts_letter (by decide), ih h, partsOfTokens]
    | closeBrace start => rw [ofTokens, parts_escaped (by decide), ih h, partsOfTokens]

theorem stops_partsOfTokens (tokens : List Token) (stops : Nat) :
    (partsOfTokens stops tokens).filterMap Part.stop? =
      (Token.fields tokens).mapIdx fun i f => (stops + i + 1, f.name) := by
  induction tokens generalizing stops with
  | nil => rfl
  | cons token tokens ih =>
    cases token with
    | literal t =>
      have hletters : (t.map Part.letter).filterMap Part.stop? = [] := by
        simp [List.filterMap_eq_nil_iff, Part.stop?]
      rw [partsOfTokens, List.filterMap_append, hletters, ih]
      rfl
    | field start f =>
      have hfields : Token.fields (.field start f :: tokens) = f :: Token.fields tokens := rfl
      have hparts : (partsOfTokens stops (.field start f :: tokens)).filterMap Part.stop? =
          (stops + 1, f.name) :: (partsOfTokens (stops + 1) tokens).filterMap Part.stop? := rfl
      rw [hfields, hparts, ih, List.mapIdx_cons]
      simp only [Nat.add_right_comm, Nat.add_assoc, Nat.add_zero]
    | openBrace start => exact ih stops
    | closeBrace start => exact ih stops

theorem fill_letters (value : Nat → Text) (t : Text) (parts : List Part) :
    fill value (t.map .letter ++ parts) = t ++ fill value parts := by
  induction t with
  | nil => rfl
  | cons c t ih => exact congrArg (c :: ·) ih

theorem spell_fill_partsOfTokens {value : Nat → Text} {tokens : List Token} {stops : Nat}
    (h : ∀ i (f : Field), (Token.fields tokens)[i]? = some f → f.Accepts (value (stops + i + 1))) :
    Token.Spell tokens (fill value (partsOfTokens stops tokens)) := by
  induction tokens generalizing stops with
  | nil => exact ⟨[], .nil, rfl⟩
  | cons token tokens ih =>
    cases token with
    | literal t =>
      rw [partsOfTokens, fill_letters]
      exact (ih h).cons (List.forall₂_same.mpr fun c _ => Text.sameFold_refl c)
    | field start f =>
      have hlater : Token.Spell tokens (fill value (partsOfTokens (stops + 1) tokens)) := by
        refine ih fun i g hg => ?_
        have hvalue := h (i + 1) g hg
        rwa [Nat.add_right_comm stops 1 i]
      exact hlater.cons (h 0 f rfl)
    | openBrace start => exact (ih h).cons (a := ['{']) rfl
    | closeBrace start => exact (ih h).cons (a := ['}']) rfl

/-- Whatever the engine's measure is, the snippet of a pattern that has a matcher holds one tab stop for each
placeholder of the pattern, numbered from one on and with the name of the placeholder. Filled in with values that
the placeholders accept, it is a text that the matcher accepts. -/
theorem accepts_fill {size : Text → Nat} {pattern : Text} {m : Matcher}
    (h : Matcher.compile size pattern = .ok m) :
    ∃ tokens, Token.ofPattern pattern = .ok tokens ∧
      (parts (ofPattern pattern)).filterMap Part.stop? =
        ((Token.fields tokens).mapIdx fun i f => (i + 1, f.name)) ∧
      ∀ value : Nat → Text, (∀ i (f : Field), (Token.fields tokens)[i]? = some f → f.Accepts (value (i + 1))) →
        m.accepts (fill value (parts (ofPattern pattern))) = true := by
  obtain ⟨tokens, htokens, hexpression⟩ := Matcher.exists_tokens h
  have hsnippet : ofPattern pattern = ofTokens 0 tokens := by rw [ofPattern, htokens]
  have hparts := parts_ofTokens (Token.isNameChar_of_ofPattern htokens) 0
  rw [hsnippet, hparts]
  refine ⟨tokens, htokens, ?_, fun value hvalue => ?_⟩
  · simpa using stops_partsOfTokens tokens 0
  · exact (Matcher.accepts_iff_spell hexpression).mpr (spell_fill_partsOfTokens (by simpa using hvalue))

/-- The snippet `{\$${1:n}` of a pattern with an escaped brace and a dollar sign. -/
theorem accepts_fill_dollar :
    Matcher.ofPattern "\\\x7b$\x7bn:d\x7d".toList =
        .ok ⟨Token.expression [.literal "\x7b$".toList, .field 3 ⟨['n'], some ['d']⟩]⟩ ∧
      fill (fun _ => "-3".toList) (parts (ofPattern "\\\x7b$\x7bn:d\x7d".toList)) = "\x7b$-3".toList ∧
      Matcher.accepts ⟨Token.expression [.literal "\x7b$".toList, .field 3 ⟨['n'], some ['d']⟩]⟩
        "\x7b$-3".toList = true := by
  have hmatcher : Matcher.ofPattern "\\\x7b$\x7bn:d\x7d".toList =
      .ok ⟨Token.expression [.literal "\x7b$".toList, .field 3 ⟨['n'], some ['d']⟩]⟩ := by
    decide +kernel
  have hfill : fill (fun _ => "-3".toList) (parts (ofPattern "\\\x7b$\x7bn:d\x7d".toList)) =
      "\x7b$-3".toList := by
    decide +kernel
  have htokens : Token.ofPattern "\\\x7b$\x7bn:d\x7d".toList =
      .ok [.literal "\x7b$".toList, .field 3 ⟨['n'], some ['d']⟩] := by
    decide +kernel
  obtain ⟨tokens, htokens', -, haccepts⟩ := accepts_fill hmatcher
  obtain rfl : _ = tokens := Except.ok.inj (htokens.symm.trans htokens')
  refine ⟨hmatcher, hfill, hfill ▸ haccepts _ fun i f hf => .inl ?_⟩
  match i, hf with
  | 0, rfl => exact ⟨['-'], ['3'], rfl, .inr rfl, List.cons_ne_nil _ _, List.all_eq_true.mp (by decide)⟩

end Snippet

end StepLink
