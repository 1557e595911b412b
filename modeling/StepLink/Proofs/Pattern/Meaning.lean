import Mathlib.Data.List.Forall2
import StepLink.Proofs.Pattern.Expression
import StepLink.Proofs.Pattern.Grammar
import StepLink.Proofs.Regex.Matching

/-! What a step pattern means. A text is accepted when it splits into one segment for each token of the
pattern: a literal stands for itself up to the case of its letters, a stray brace for itself, and a placeholder
for a value of its type or an outline variable. -/

namespace StepLink

open Regex

namespace Text

/-- Runs send a code point to itself or into one of their images. -/
theorem mapRuns_eq_or (runs : List CaseRun) (n : Nat) :
    mapRuns runs n = n ∨
      ∃ r ∈ runs, r.image ≤ mapRuns runs n ∧ mapRuns runs n ≤ r.image + (r.last - r.first) := by
  induction runs with
  | nil => exact .inl rfl
  | cons r runs ih =>
    rw [mapRuns]
    split
    next => exact .inl rfl
    next hfirst =>
      split
      next hin =>
        rw [Bool.and_eq_true, decide_eq_true_eq] at hin
        exact .inr ⟨r, List.mem_cons_self, by omega, by omega⟩
      next =>
        rcases ih with hself | ⟨q, hq, himage⟩
        · exact .inl hself
        · exact .inr ⟨q, List.mem_cons_of_mem r hq, himage⟩

/-- The marks that expressions of placeholders and braces are made of. -/
def marks : List Char :=
  ['-', '.', '<', '>', '{', '}']

/-- No other character folds to one of the marks. -/
theorem eq_of_fold_eq {a c : Char} (ha : a ∈ marks) (h : fold c = a) : c = a := by
  have hrange : marks.Forall fun a => a.toNat ≠ 0 ∧
      ∀ r ∈ foldRuns, a.toNat < r.image ∨ r.image + (r.last - r.first) < a.toNat := by
    decide +kernel
  obtain ⟨hzero, houtside⟩ := List.forall_iff_forall_mem.mp hrange a ha
  rcases mapRuns_eq_or foldRuns c.toNat with hself | ⟨r, hr, hfirst, hlast⟩
  · rw [← h, fold, hself, Char.ofNat_toNat]
  · have houtside := houtside r hr
    rw [← h, fold] at hzero houtside
    by_cases hvalid : (mapRuns foldRuns c.toNat).isValidChar
    · have hcode : (Char.ofNat (mapRuns foldRuns c.toNat)).toNat = mapRuns foldRuns c.toNat := by
        rw [Char.ofNat, dif_pos hvalid]
        rfl
      omega
    · exact absurd (by rw [Char.ofNat, dif_neg hvalid]; rfl) hzero

theorem sameFold_iff_of_mark {a c : Char} (ha : a ∈ marks) : sameFold a c = true ↔ c = a := by
  have hfixed : marks.Forall fun a => fold a = a := by decide +kernel
  rw [sameFold, Bool.or_eq_true, beq_iff_eq, beq_iff_eq, List.forall_iff_forall_mem.mp hfixed a ha]
  constructor
  · rintro (rfl | h)
    · rfl
    · exact eq_of_fold_eq ha h.symm
  · rintro rfl
    exact .inl rfl

theorem sameFold_refl (c : Char) : sameFold c c = true := by
  rw [sameFold, beq_self_eq_true, Bool.true_or]

end Text

variable {t u v : Text} {c : Char} {r : Regex CharSet} {s : CharSet}

theorem denotes_mark_once (hc : c ∈ Text.marks) :
    Denotes CharSet.holds (.chars (.letter c) .once) t ↔ t = [c] := by
  rw [denotes_chars_iff, Repeat.Allows, List.length_eq_one_iff]
  constructor
  · rintro ⟨⟨d, rfl⟩, hd⟩
    rw [(Text.sameFold_iff_of_mark hc).mp (hd d List.mem_cons_self)]
  · rintro rfl
    exact ⟨⟨c, rfl⟩, fun d hd => List.mem_singleton.mp hd ▸ Text.sameFold_refl c⟩

theorem denotes_mark_optional (hc : c ∈ Text.marks) :
    Denotes CharSet.holds (.chars (.letter c) .optional) t ↔ t = [] ∨ t = [c] := by
  rw [← denotes_mark_once hc, denotes_chars_iff, denotes_chars_iff, Repeat.Allows, Repeat.Allows,
    Nat.le_one_iff_eq_zero_or_eq_one, List.length_eq_zero_iff, or_and_right]
  refine or_congr_left ⟨fun h => h.1, fun h => ⟨h, fun d hd => ?_⟩⟩
  rw [h] at hd
  cases hd

theorem denotes_oneOrMore :
    Denotes CharSet.holds (.chars s .oneOrMore) t ↔ t ≠ [] ∧ ∀ c ∈ t, s.holds c = true := by
  rw [denotes_chars_iff, Repeat.Allows, Nat.one_le_iff_ne_zero, Ne, List.length_eq_zero_iff]

theorem denotes_seq_empty : Denotes CharSet.holds (.seq r .empty) t ↔ Denotes CharSet.holds r t := by
  simp [denotes_seq_iff, denotes_empty_iff]

/-- Digits, with or without a sign. -/
def IsInteger (t : Text) : Prop :=
  ∃ sign digits, t = sign ++ digits ∧ (sign = [] ∨ sign = ['-']) ∧
    digits ≠ [] ∧ ∀ c ∈ digits, Text.isDigit c = true

/-- The values of a kind. -/
def Field.Kind.Holds : Field.Kind → Text → Prop
  | integer, t => IsInteger t
  | decimal, t => ∃ whole point fraction, t = whole ++ (point ++ fraction) ∧ IsInteger whole ∧
      (point = [] ∨ point = ['.']) ∧ ∀ c ∈ fraction, Text.isDigit c = true
  | word, t => t ≠ [] ∧ ∀ c ∈ t, Text.isWord c = true
  | nonWord, t => t ≠ [] ∧ ∀ c ∈ t, Text.isWord c = false
  | blank, t => t ≠ [] ∧ ∀ c ∈ t, Text.isBlank c = true
  | nonBlank, t => t ≠ [] ∧ ∀ c ∈ t, Text.isBlank c = false
  | line, t => t ≠ [] ∧ ∀ c ∈ t, c ≠ '\n'

/-- An outline variable: a name between angle brackets, which does not hold a closing one. -/
def IsVariable (t : Text) : Prop :=
  ∃ name, t = '<' :: name ++ ['>'] ∧ name ≠ [] ∧ '>' ∉ name

/-- The texts that may stand for a placeholder. -/
def Field.Accepts (f : Field) (t : Text) : Prop :=
  (Kind.ofTag f.tag).Holds t ∨ IsVariable t

theorem denotes_sign_digits {r : Regex CharSet} :
    Denotes CharSet.holds (.seq (.chars (.letter '-') .optional) (.seq (.chars .digit .oneOrMore) r)) t ↔
      ∃ u v, t = u ++ v ∧ IsInteger u ∧ Denotes CharSet.holds r v := by
  simp only [denotes_seq_iff, denotes_mark_optional (c := '-') (by decide), denotes_oneOrMore, IsInteger]
  constructor
  · rintro ⟨sign, _, rfl, hsign, digits, v, rfl, ⟨hne, hdigits⟩, hv⟩
    exact ⟨sign ++ digits, v, by rw [List.append_assoc], ⟨sign, digits, rfl, hsign, hne, hdigits⟩, hv⟩
  · rintro ⟨_, v, rfl, ⟨sign, digits, rfl, hsign, hne, hdigits⟩, hv⟩
    exact ⟨sign, digits ++ v, by rw [List.append_assoc], hsign, digits, v, rfl, ⟨hne, hdigits⟩, hv⟩

theorem denotes_kind_iff (kind : Field.Kind) :
    Denotes CharSet.holds kind.expression t ↔ kind.Holds t := by
  cases kind with
  | integer =>
    rw [Field.Kind.expression, denotes_sign_digits]
    simp [denotes_empty_iff, Field.Kind.Holds]
  | decimal =>
    have hfraction : ∀ v, Denotes CharSet.holds
        (.seq (.chars (.letter '.') .optional) (.seq (.chars .digit .zeroOrMore) .empty)) v ↔
          ∃ point fraction, v = point ++ fraction ∧ (point = [] ∨ point = ['.']) ∧
            ∀ c ∈ fraction, Text.isDigit c = true := by
      intro v
      simp only [denotes_seq_iff (a := Regex.chars (CharSet.letter '.') .optional),
        denotes_mark_optional (c := '.') (by decide), denotes_seq_empty, denotes_chars_iff, Repeat.Allows,
        true_and, CharSet.holds]
    rw [Field.Kind.expression, denotes_sign_digits]
    simp only [hfraction, Field.Kind.Holds]
    constructor
    · rintro ⟨whole, _, rfl, hwhole, point, fraction, rfl, hrest⟩
      exact ⟨whole, point, fraction, rfl, hwhole, hrest⟩
    · rintro ⟨whole, point, fraction, rfl, hwhole, hrest⟩
      exact ⟨whole, _, rfl, hwhole, point, fraction, rfl, hrest⟩
  | word => rw [Field.Kind.expression, denotes_seq_empty, denotes_oneOrMore]; rfl
  | nonWord =>
    rw [Field.Kind.expression, denotes_seq_empty, denotes_oneOrMore]
    simp [Field.Kind.Holds, CharSet.holds]
  | blank => rw [Field.Kind.expression, denotes_seq_empty, denotes_oneOrMore]; rfl
  | nonBlank =>
    rw [Field.Kind.expression, denotes_seq_empty, denotes_oneOrMore]
    simp [Field.Kind.Holds, CharSet.holds]
  | line =>
    rw [Field.Kind.expression, denotes_seq_empty, denotes_oneOrMore]
    simp [Field.Kind.Holds, CharSet.holds]

theorem denotes_variable_iff : Denotes CharSet.holds Field.variableExpression t ↔ IsVariable t := by
  have hname : ∀ c, CharSet.holds (.complement (.letter '>')) c = true ↔ c ≠ '>' := by
    intro c
    rw [CharSet.holds, Bool.not_eq_true', ← Bool.not_eq_true, CharSet.holds,
      Text.sameFold_iff_of_mark (by decide)]
  simp only [Field.variableExpression, denotes_seq_iff (a := Regex.chars (CharSet.letter '<') .once),
    denotes_seq_iff (a := Regex.chars (CharSet.complement (.letter '>')) .oneOrMore), denotes_seq_empty,
    denotes_mark_once (c := '<') (by decide), denotes_mark_once (c := '>') (by decide), denotes_oneOrMore,
    hname]
  constructor
  · rintro ⟨_, _, rfl, rfl, name, _, rfl, ⟨hne, hmem⟩, rfl⟩
    exact ⟨name, rfl, hne, fun h => hmem '>' h rfl⟩
  · rintro ⟨name, rfl, hne, hmem⟩
    exact ⟨['<'], name ++ ['>'], rfl, rfl, name, ['>'], rfl, ⟨hne, fun c hc heq => hmem (heq ▸ hc)⟩, rfl⟩

theorem denotes_field_iff (f : Field) : Denotes CharSet.holds f.expression t ↔ f.Accepts t := by
  rw [Field.expression, denotes_alt_iff, denotes_seq_empty, denotes_kind_iff, denotes_variable_iff,
    Field.Accepts]

/-! ### Tokens -/

/-- The texts that a token stands for. -/
def Token.Admits : Token → Text → Prop
  | literal u, t => List.Forall₂ (fun a b => Text.sameFold a b = true) u t
  | field _ f, t => f.Accepts t
  | openBrace _, t => t = ['{']
  | closeBrace _, t => t = ['}']

theorem denotes_spell_iff : Denotes CharSet.holds (spell u r) t ↔
    ∃ a b, t = a ++ b ∧ List.Forall₂ (fun a b => Text.sameFold a b = true) u a ∧ Denotes CharSet.holds r b := by
  induction u generalizing t with
  | nil => simp [spell]
  | cons c u ih =>
    have hspell : spell (c :: u) r = .seq (.chars (.letter c) .once) (spell u r) := rfl
    rw [hspell, denotes_seq_iff]
    simp only [ih, denotes_chars_iff, Repeat.Allows, List.length_eq_one_iff, List.forall₂_cons_left_iff]
    constructor
    · rintro ⟨_, _, rfl, ⟨⟨d, rfl⟩, hd⟩, a, b, rfl, ha, hb⟩
      exact ⟨d :: a, b, rfl, ⟨d, a, hd d List.mem_cons_self, ha, rfl⟩, hb⟩
    · rintro ⟨_, b, rfl, ⟨d, a, hd, ha, rfl⟩, hb⟩
      exact ⟨[d], a ++ b, rfl, ⟨⟨d, rfl⟩, fun e he => List.mem_singleton.mp he ▸ hd⟩, a, b, rfl, ha, hb⟩

theorem forall₂_sameFold_mark (hc : c ∈ Text.marks) :
    List.Forall₂ (fun a b => Text.sameFold a b = true) [c] t ↔ t = [c] := by
  simp only [List.forall₂_cons_left_iff, List.forall₂_nil_left_iff, Text.sameFold_iff_of_mark hc]
  constructor
  · rintro ⟨_, _, rfl, rfl, rfl⟩
    rfl
  · rintro rfl
    exact ⟨c, [], rfl, rfl, rfl⟩

theorem denotes_before_iff (token : Token) : Denotes CharSet.holds (token.before r) t ↔
    ∃ a b, t = a ++ b ∧ token.Admits a ∧ Denotes CharSet.holds r b := by
  cases token with
  | literal u => exact denotes_spell_iff
  | field start f => simp only [Token.before, denotes_seq_iff, denotes_field_iff, Token.Admits]
  | openBrace start =>
    simp only [Token.before, denotes_spell_iff, Token.Admits, forall₂_sameFold_mark (c := '{') (by decide)]
  | closeBrace start =>
    simp only [Token.before, denotes_spell_iff, Token.Admits, forall₂_sameFold_mark (c := '}') (by decide)]

/-- The text splits into segments that the tokens stand for, one after the other. -/
def Token.Spell (tokens : List Token) (t : Text) : Prop :=
  ∃ segments, List.Forall₂ Token.Admits tokens segments ∧ t = segments.flatten

theorem Token.Spell.cons {tokens : List Token} {token : Token} {a : Text} (h : Token.Spell tokens t)
    (ha : token.Admits a) : Token.Spell (token :: tokens) (a ++ t) := by
  obtain ⟨segments, hsegments, rfl⟩ := h
  exact ⟨a :: segments, .cons ha hsegments, rfl⟩

theorem denotes_expression_iff (tokens : List Token) :
    Denotes CharSet.holds (Token.expression tokens) t ↔ Token.Spell tokens t := by
  induction tokens generalizing t with
  | nil => simp [Token.expression, Token.Spell, denotes_empty_iff]
  | cons token tokens ih =>
    have hexpression : Token.expression (token :: tokens) = token.before (Token.expression tokens) := rfl
    simp only [hexpression, denotes_before_iff, ih]
    constructor
    · rintro ⟨a, b, rfl, ha, hb⟩
      exact hb.cons ha
    · rintro ⟨_, hsegments, rfl⟩
      obtain ⟨a, segments, ha, htail, rfl⟩ := List.forall₂_cons_left_iff.mp hsegments
      exact ⟨a, segments.flatten, rfl, ha, segments, htail, rfl⟩

variable {pattern source : Text}

/-- Nothing but its size keeps a written expression from being compiled, and then it is that of the tokens. -/
theorem compile_source {size : Text → Nat} (tokens : List Token)
    (hsize : compile size ("(?i)^".toList ++ tokens.flatMap Token.source ++ "$".toList) ≠ .error .tooLarge) :
    compile size ("(?i)^".toList ++ tokens.flatMap Token.source ++ "$".toList) =
      .ok (Token.expression tokens) := by
  simp only [compile, ofSource?_sources] at hsize ⊢
  exact if_neg fun hlimit => hsize (if_pos hlimit)

theorem ofSource?_of_compile {size : Text → Nat} {e : Regex CharSet} (h : compile size source = .ok e) :
    ofSource? source = some e := by
  rw [compile] at h
  split at h
  · cases h
  next r hr =>
    split at h
    · cases h
    · rw [hr, Except.ok.inj h]

theorem Matcher.exists_source {size : Text → Nat} {m : Matcher} (h : Matcher.compile size pattern = .ok m) :
    ∃ source, Pattern.source pattern = .ok source ∧ Regex.compile size source = .ok m.expression := by
  rw [Matcher.compile] at h
  split at h
  · cases h
  next source hsource =>
    split at h
    · cases h
    next e he =>
      cases h
      exact ⟨source, hsource, he⟩

/-- The matcher of a pattern is the expression of its tokens, whatever the engine's measure is. -/
theorem Matcher.exists_tokens {size : Text → Nat} {m : Matcher} (h : Matcher.compile size pattern = .ok m) :
    ∃ tokens, Token.ofPattern pattern = .ok tokens ∧ m.expression = Token.expression tokens := by
  obtain ⟨source, hsource, hcompile⟩ := exists_source h
  obtain ⟨tokens, htokens, -, rfl⟩ := Pattern.source_iff.mp hsource
  have hread := ofSource?_of_compile hcompile
  rw [ofSource?_sources] at hread
  exact ⟨tokens, htokens, (Option.some.inj hread).symm⟩

theorem Matcher.accepts_iff_spell {m : Matcher} {tokens : List Token}
    (h : m.expression = Token.expression tokens) : m.accepts t = true ↔ Token.Spell tokens t := by
  rw [Matcher.accepts, h, accepts_iff_denotes, denotes_expression_iff]

/-- A pattern that has a written expression of a size that the engine compiles has a matcher, and a text is
accepted exactly if it splits into consecutive segments that the tokens of the pattern stand for. -/
theorem Matcher.accepts_iff_segments (size : Text → Nat) (hsource : Pattern.source pattern = .ok source)
    (hsize : Regex.compile size source ≠ .error .tooLarge) :
    ∃ tokens m, Token.ofPattern pattern = .ok tokens ∧ Matcher.compile size pattern = .ok m ∧
      ∀ t, m.accepts t = true ↔
        ∃ segments, List.Forall₂ Token.Admits tokens segments ∧ t = segments.flatten := by
  obtain ⟨tokens, htokens, -, rfl⟩ := Pattern.source_iff.mp hsource
  have hmatcher : Matcher.compile size pattern = .ok ⟨Token.expression tokens⟩ := by
    simp only [Matcher.compile, hsource, compile_source tokens hsize]
  exact ⟨tokens, _, htokens, hmatcher, fun t => Matcher.accepts_iff_spell rfl⟩

/-- A pattern with a tag, an anonymous placeholder, stray braces and letters that expressions reserve. -/
theorem Matcher.accepts_iff_segments_reserved :
    Pattern.source "\x7bn:d\x7d(.)\x7b \\? \x7b:W\x7d \x7d\x7b\x7d".toList =
        .ok "(?i)^((?:-?\\d+)|<[^>]+>)\\(\\.\\)\\\x7b \\? ((?:\\W+)|<[^>]+>) \\\x7d((?:.+?)|<[^>]+>)$".toList ∧
      ∃ m, Matcher.ofPattern "\x7bn:d\x7d(.)\x7b \\? \x7b:W\x7d \x7d\x7b\x7d".toList = .ok m ∧
        m.accepts "-7(.)\x7b ? <mark> \x7dit".toList = true := by
  have hsource : Pattern.source "\x7bn:d\x7d(.)\x7b \\? \x7b:W\x7d \x7d\x7b\x7d".toList =
      .ok "(?i)^((?:-?\\d+)|<[^>]+>)\\(\\.\\)\\\x7b \\? ((?:\\W+)|<[^>]+>) \\\x7d((?:.+?)|<[^>]+>)$".toList :=
    by decide +kernel
  have htokens : Token.ofPattern "\x7bn:d\x7d(.)\x7b \\? \x7b:W\x7d \x7d\x7b\x7d".toList =
      .ok [.field 0 ⟨['n'], some ['d']⟩, .literal "(.)".toList, .openBrace 8, .literal " ? ".toList,
        .field 13 ⟨[], some ['W']⟩, .literal [' '], .closeBrace 18, .field 19 ⟨[], none⟩] := by
    decide +kernel
  obtain ⟨tokens, m, htokens', hmatcher, haccepts⟩ :=
    Matcher.accepts_iff_segments Regex.estimatedSize hsource (by decide +kernel)
  obtain rfl : _ = tokens := Except.ok.inj (htokens.symm.trans htokens')
  refine ⟨hsource, m, hmatcher, (haccepts _).mpr ⟨["-7".toList, "(.)".toList, ['{'], " ? ".toList,
    "<mark>".toList, [' '], ['}'], "it".toList], ?_, by decide⟩⟩
  have hinteger : IsInteger "-7".toList :=
    ⟨['-'], ['7'], rfl, .inr rfl, List.cons_ne_nil _ _, List.all_eq_true.mp (by decide)⟩
  have hline : Field.Kind.line.Holds "it".toList :=
    ⟨by decide, List.forall_iff_forall_mem.mp (by decide)⟩
  refine .cons (.inl hinteger) <| .cons ?_ <| .cons rfl <| .cons ?_ <|
    .cons (.inr ⟨"mark".toList, rfl, by decide⟩) <| .cons ?_ <| .cons rfl <| .cons (.inl hline) .nil
  all_goals exact List.forall₂_same.mpr fun c _ => Text.sameFold_refl c

end StepLink
