import StepLink.Pattern.Matcher

/-! The expression that the written form of a pattern is read as. The written form is pasted together from one
part for each token; reading it takes these parts one after the other, whatever characters the literals hold,
so that the expression is a sequence of one item for each letter, placeholder and brace. -/

namespace StepLink

open Regex

/-- The kinds of values that the type tags of placeholders name. -/
inductive Field.Kind where
  | integer
  | decimal
  | word
  | nonWord
  | blank
  | nonBlank
  /-- Any text of one line, which is what a placeholder without a known tag accepts. -/
  | line
  deriving DecidableEq, Repr

def Field.Kind.ofTag : Option Text → Field.Kind
  | some ['d'] => .integer
  | some ['f'] => .decimal
  | some ['w'] => .word
  | some ['W'] => .nonWord
  | some ['s'] => .blank
  | some ['S'] => .nonBlank
  | _ => .line

def Field.Kind.expression : Field.Kind → Regex CharSet
  | integer => .seq (.chars (.letter '-') .optional) (.seq (.chars .digit .oneOrMore) .empty)
  | decimal =>
    .seq (.chars (.letter '-') .optional) (.seq (.chars .digit .oneOrMore)
      (.seq (.chars (.letter '.') .optional) (.seq (.chars .digit .zeroOrMore) .empty)))
  | word => .seq (.chars .word .oneOrMore) .empty
  | nonWord => .seq (.chars (.complement .word) .oneOrMore) .empty
  | blank => .seq (.chars .blank .oneOrMore) .empty
  | nonBlank => .seq (.chars (.complement .blank) .oneOrMore) .empty
  | line => .seq (.chars .dot .oneOrMore) .empty

/-- A name in angle brackets. -/
def Field.variableExpression : Regex CharSet :=
  .seq (.chars (.letter '<') .once) (.seq (.chars (.complement (.letter '>')) .oneOrMore)
    (.seq (.chars (.letter '>') .once) .empty))

def Field.expression (f : Field) : Regex CharSet :=
  .alt (.seq (Kind.ofTag f.tag).expression .empty) variableExpression

/-- The letters of a text in front of an expression. -/
def Regex.spell (t : Text) (r : Regex CharSet) : Regex CharSet :=
  t.foldr (fun c r => .seq (.chars (.letter c) .once) r) r

/-- A token in front of an expression. -/
def Token.before (r : Regex CharSet) : Token → Regex CharSet
  | literal t => spell t r
  | field _ f => .seq f.expression r
  | openBrace _ => spell ['{'] r
  | closeBrace _ => spell ['}'] r

def Token.expression (tokens : List Token) : Regex CharSet :=
  tokens.foldr (fun token r => token.before r) .empty

variable {c : Char} {t u rest : Text} {r item first : Regex CharSet} {m n : Nat}

theorem readSequence?_group (h : readChoice? n u = some (item, ')' :: t)) :
    readSequence? (n + 1) ('(' :: '?' :: ':' :: u) =
      (readSequence? n t).map fun (r, t) => (.seq item r, t) := by
  simp only [readSequence?, h]

theorem readSequence?_capture (h : readChoice? n ('(' :: u) = some (item, ')' :: t)) :
    readSequence? (n + 1) ('(' :: '(' :: u) = (readSequence? n t).map fun (r, t) => (.seq item r, t) := by
  simp [readSequence?, h]

theorem readChoice?_bar (hfirst : readSequence? n t = some (first, '|' :: u))
    (hrest : readChoice? n u = some (r, rest)) : readChoice? (n + 1) t = some (.alt first r, rest) := by
  simp only [readChoice?, hfirst, hrest, Option.map_some]

theorem readChoice?_typeSource (n : Nat) (tag : Option Text) (rest : Text) :
    readChoice? (n + 9) (Field.typeSource tag ++ ')' :: rest) =
      some ((Field.Kind.ofTag tag).expression, ')' :: rest) := by
  unfold Field.typeSource
  split
  case h_7 => rw [Field.Kind.ofTag] <;> first | rfl | assumption
  all_goals rfl

theorem readChoice?_variableSource (n : Nat) (rest : Text) :
    readChoice? (n + 10) (Field.variableSource ++ ')' :: rest) =
      some (Field.variableExpression, ')' :: rest) := rfl

theorem readSequence?_field (n start : Nat) (f : Field) (rest : Text) :
    readSequence? (n + 12) (Token.source (.field start f) ++ rest) =
      (readSequence? (n + 11) rest).map fun (r, t) => (.seq f.expression r, t) := by
  have htype := readChoice?_typeSource n f.tag ('|' :: (Field.variableSource ++ ')' :: rest))
  have hvalue : readSequence? (n + 10)
      ('(' :: '?' :: ':' :: (Field.typeSource f.tag ++ ')' :: '|' :: (Field.variableSource ++ ')' :: rest))) =
        some (.seq (Field.Kind.ofTag f.tag).expression .empty, '|' :: (Field.variableSource ++ ')' :: rest)) :=
    readSequence?_group htype
  have hsource : Token.source (.field start f) ++ rest =
      '(' :: '(' :: '?' :: ':' ::
        (Field.typeSource f.tag ++ ')' :: '|' :: (Field.variableSource ++ ')' :: rest)) := by
    have hassoc : ∀ a b c d e : Text,
        a ++ b ++ c ++ d ++ e ++ rest = a ++ (b ++ (c ++ (d ++ (e ++ rest)))) := by
      intro a b c d e
      simp only [List.append_assoc]
    exact hassoc _ _ _ _ _
  rw [hsource]
  exact readSequence?_capture (readChoice?_bar hvalue (readChoice?_variableSource n rest))

/-- No repetition stands in front of the text. -/
def IsUnrepeated (t : Text) : Prop :=
  readRepeat t = (.once, t)

theorem isUnrepeated_cons (h : c ∉ ['+', '*', '?']) : IsUnrepeated (c :: t) := by
  simp only [List.mem_cons, List.not_mem_nil, or_false, not_or] at h
  obtain ⟨hplus, hstar, hmark⟩ := h
  rw [IsUnrepeated, readRepeat] <;> simp_all

theorem isUnrepeated_escape (h : IsUnrepeated rest) : IsUnrepeated (escape t ++ rest) := by
  cases t with
  | nil => exact h
  | cons c t =>
    rw [escape]
    split
    next => exact isUnrepeated_cons (by decide)
    next hplain =>
      refine isUnrepeated_cons fun hc => hplain ?_
      exact List.all_eq_true.mp (by decide : ['+', '*', '?'].all isReserved = true) c hc

theorem escapedSet?_of_isReserved (h : isReserved c = true) : escapedSet? c = some (.letter c) := by
  unfold escapedSet?
  split
  case h_6 => exact if_pos h
  all_goals cases h

theorem readSequence?_set {s : CharSet} (hopen : c ∉ ['|', ')', '$', '('])
    (hset : readSet? (c :: t) = some (s, u)) (hu : IsUnrepeated u) :
    readSequence? (n + 1) (c :: t) = (readSequence? n u).map fun (r, t) => (.seq (.chars s .once) r, t) := by
  simp only [List.mem_cons, List.not_mem_nil, or_false, not_or] at hopen
  obtain ⟨hbar, hclose, hend, hgroup⟩ := hopen
  rw [IsUnrepeated] at hu
  rw [readSequence?]
  · simp only [hset, hu]
  all_goals simp_all

theorem readSet?_plain (h : isReserved c = false) : readSet? (c :: u) = some (.letter c, u) := by
  have hne : ∀ d, isReserved d = true → c ≠ d := by
    rintro d hd rfl
    rw [h] at hd
    cases hd
  rw [readSet?]
  · refine if_pos ?_
    rw [isPlain, Bool.not_eq_true', decide_eq_false_iff_not]
    refine fun hmem => hne c ?_ rfl
    have hreserved :
        ['\\', '.', '+', '*', '?', '(', ')', '|', '[', ']', '{', '}', '^', '$'].all isReserved = true := by
      decide
    exact List.all_eq_true.mp hreserved c hmem
  · exact fun d v hc => absurd hc (hne '\\' rfl)
  · exact hne '.' rfl
  · exact fun d v hc => absurd hc (hne '[' rfl)

/-- A letter of a literal is read as itself, escaped or not. -/
theorem readSequence?_letter (hu : IsUnrepeated u) :
    readSequence? (n + 1) (escape [c] ++ u) =
      (readSequence? n u).map fun (r, t) => (.seq (.chars (.letter c) .once) r, t) := by
  cases h : isReserved c with
  | true =>
    have hset : readSet? ('\\' :: c :: u) = some (.letter c, u) := by
      rw [readSet?, escapedSet?_of_isReserved h, Option.map_some]
    rw [escape, if_pos h]
    exact readSequence?_set (by decide) hset hu
  | false =>
    rw [escape, h]
    refine readSequence?_set (fun hc => ?_) (readSet?_plain h) hu
    rw [List.all_eq_true.mp (by decide : ['|', ')', '$', '('].all isReserved = true) c hc] at h
    cases h

/-- With this much fuel or more, the text is read as the expression, and the rest is left. -/
def ReadsWithin (m : Nat) (t : Text) (r : Regex CharSet) (rest : Text) : Prop :=
  ∀ n, m ≤ n → readSequence? n t = some (r, rest)

theorem ReadsWithin.mono (h : ReadsWithin m t r rest) (hle : m ≤ n) : ReadsWithin n t r rest :=
  fun k hk => h k (Nat.le_trans hle hk)

theorem ReadsWithin.spell (h : ReadsWithin m u r rest) (hu : IsUnrepeated u) (t : Text) :
    ReadsWithin (m + t.length) (escape t ++ u) (spell t r) rest := by
  induction t with
  | nil => exact h
  | cons c t ih =>
    intro n hn
    obtain ⟨n, rfl⟩ : ∃ k, n = k + 1 := ⟨n - 1, by simp only [List.length_cons] at hn; omega⟩
    have hsplit : escape (c :: t) ++ u = escape [c] ++ (escape t ++ u) := by
      rw [escape, escape]
      split <;> rfl
    rw [List.length_cons] at hn
    rw [hsplit, readSequence?_letter (isUnrepeated_escape hu), ih n (by omega)]
    rfl

theorem ReadsWithin.field (h : ReadsWithin m u r rest) (start : Nat) (f : Field) :
    ReadsWithin (m + 12) (Token.source (.field start f) ++ u) (.seq f.expression r) rest := by
  intro n hn
  obtain ⟨n, rfl⟩ : ∃ k, n = k + 12 := ⟨n - 12, by omega⟩
  rw [readSequence?_field, h (n + 11) (by omega)]
  rfl

theorem length_le_escape (t : Text) : t.length ≤ (escape t).length := by
  induction t with
  | nil => simp
  | cons c t ih =>
    rw [escape]
    split <;> simp only [List.length_cons] <;> omega

theorem twelve_le_field (start : Nat) (f : Field) : 12 ≤ (Token.source (.field start f)).length := by
  -- the parts around the value and the variable are counted by evaluation
  have hlength : ∀ a b c d e : Text, (a ++ b ++ c ++ d ++ e).length = a.length + b.length + c.length +
      d.length + e.length := by
    intro a b c d e
    simp only [List.length_append]
  have hparts : (Token.source (.field start f)).length = 4 + (Field.typeSource f.tag).length + 2 + 7 + 1 :=
    hlength _ _ _ _ _
  omega

theorem isUnrepeated_source (h : IsUnrepeated rest) (token : Token) : IsUnrepeated (token.source ++ rest) := by
  cases token with
  | literal t => exact isUnrepeated_escape h
  | field start f => exact isUnrepeated_cons (by decide)
  | openBrace start => exact isUnrepeated_cons (by decide)
  | closeBrace start => exact isUnrepeated_cons (by decide)

theorem isUnrepeated_sources (tokens : List Token) : IsUnrepeated (tokens.flatMap Token.source ++ ['$']) := by
  induction tokens with
  | nil => exact isUnrepeated_cons (by decide)
  | cons token tokens ih =>
    rw [List.flatMap_cons, List.append_assoc]
    exact isUnrepeated_source ih token

theorem readsWithin_sources (tokens : List Token) :
    ReadsWithin ((tokens.flatMap Token.source).length + 1) (tokens.flatMap Token.source ++ ['$'])
      (Token.expression tokens) ['$'] := by
  induction tokens with
  | nil =>
    intro n hn
    obtain ⟨n, rfl⟩ : ∃ k, n = k + 1 := ⟨n - 1, by omega⟩
    rfl
  | cons token tokens ih =>
    have hplain := isUnrepeated_sources tokens
    rw [List.flatMap_cons, List.append_assoc, List.length_append]
    cases token with
    | literal t =>
      refine (ih.spell hplain t).mono ?_
      have hlength : t.length ≤ (Token.literal t).source.length := length_le_escape t
      omega
    | field start f =>
      refine (ih.field start f).mono ?_
      have hlength := twelve_le_field start f
      omega
    | openBrace start =>
      refine (ih.spell hplain ['{']).mono ?_
      have hlength : ['{'].length ≤ (Token.openBrace start).source.length := length_le_escape ['{']
      omega
    | closeBrace start =>
      refine (ih.spell hplain ['}']).mono ?_
      have hlength : ['}'].length ≤ (Token.closeBrace start).source.length := length_le_escape ['}']
      omega

theorem ofSource?_sources (tokens : List Token) :
    ofSource? ("(?i)^".toList ++ tokens.flatMap Token.source ++ "$".toList) =
      some (Token.expression tokens) := by
  let body := tokens.flatMap Token.source ++ ['$']
  have hread : readSequence? (body.length + 1) body = some (Token.expression tokens, ['$']) :=
    readsWithin_sources tokens (body.length + 1) (by simp [body])
  have hchoice : readChoice? (body.length + 2) body = some (Token.expression tokens, ['$']) := by
    rw [readChoice?, hread]
    rfl
  have hsource : "(?i)^".toList ++ tokens.flatMap Token.source ++ "$".toList =
      '(' :: '?' :: 'i' :: ')' :: '^' :: body := by
    rw [List.append_assoc]
    rfl
  simp only [hsource, ofSource?, hchoice]

end StepLink
