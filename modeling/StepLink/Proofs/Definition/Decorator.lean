import StepLink.Definition.Decorator
import StepLink.Proofs.Text.Blank

/-! The grammar of decorators. A line is read as a decorator exactly if its characters can be cut into the parts of one
spelling, whose name is a keyword in some case of its letters. No line can be cut in two of the four shapes, so the
order in which they are tried does not matter. -/

namespace StepLink

namespace DefinitionKeyword

def all : List DefinitionKeyword :=
  [any, only .given, only .when, only .«then»]

theorem mem_all (k : DefinitionKeyword) : k ∈ all := by
  rcases k with (_ | _ | _) | _ <;> decide

theorem toOption_ofText_eq_find? {name : Text} (htrim : Text.trim name = name) :
    (ofText name).toOption = all.find? fun k => Text.sameIgnoringCase name k.name.toList := by
  simp only [ofText, StepKeyword.ofText, StepToken.ofText, StepToken.table, htrim, List.find?_cons, List.find?_nil, all,
    DefinitionKeyword.name]
  cases Text.sameIgnoringCase name "step".toList <;> cases Text.sameIgnoringCase name "given".toList <;>
    cases Text.sameIgnoringCase name "when".toList <;> cases Text.sameIgnoringCase name "then".toList <;> try rfl
  -- The other tokens of the table name no keyword, whether they match or not.
  cases Text.sameIgnoringCase name "and".toList <;> cases Text.sameIgnoringCase name "but".toList <;>
    cases Text.sameIgnoringCase name "*".toList <;> rfl

/-- A keyword is read from its name in any case of the letters. -/
theorem toOption_ofText_eq_some_iff {name : Text} {k : DefinitionKeyword} (htrim : Text.trim name = name) :
    (ofText name).toOption = some k ↔ Text.sameIgnoringCase name k.name.toList = true := by
  rw [toOption_ofText_eq_find? htrim]
  constructor
  · exact List.find?_some
  · intro hk
    have hsome : (all.find? fun k => Text.sameIgnoringCase name k.name.toList).isSome = true :=
      List.find?_isSome.mpr ⟨k, mem_all k, hk⟩
    obtain ⟨l, hfound⟩ := Option.isSome_iff_exists.mp hsome
    have hl : Text.sameIgnoringCase name l.name.toList = true :=
      List.find?_some (p := fun k : DefinitionKeyword => Text.sameIgnoringCase name k.name.toList) hfound
    have hnames : ∀ k ∈ all, ∀ l ∈ all, k.name.toList.map Char.toLower = l.name.toList.map Char.toLower → k = l := by
      decide
    rw [hfound, hnames k (mem_all k) l (mem_all l) ((eq_of_beq hk).symm.trans (eq_of_beq hl))]

end DefinitionKeyword

namespace Decorator

open Text (IsBlanks)

variable {shape : Shape} {quote : Char} {t u b name pattern : Text} {d : Decorator}

/-- What stands between two quotes: characters other than the quote and the backslash, and backslashes, each with a
character behind it that does not end the line. -/
inductive IsBody (quote : Char) : Text → Prop
  | nil : IsBody quote []
  | plain {c : Char} {t : Text} (hquote : c ≠ quote) (hslash : c ≠ '\\') (ht : IsBody quote t) : IsBody quote (c :: t)
  | escaped {c : Char} {t : Text} (hc : c ≠ '\n') (ht : IsBody quote t) : IsBody quote ('\\' :: c :: t)

/-- The opening of a call: a dotted name that starts with a letter or an underscore, and a parenthesis. -/
inductive IsCall : Text → Prop
  | opening {c : Char} {name gap space : Text} (hc : c.isAlpha = true ∨ c = '_')
      (hname : ∀ d ∈ name, Text.isWord d = true ∨ d = '.') (hgap : IsBlanks gap) (hspace : IsBlanks space) :
      IsCall (c :: (name ++ (gap ++ '(' :: space)))

/-- The parts of a line that spells a decorator of a shape. -/
structure Spelling (shape : Shape) where
  indent : Text
  name : Text
  /-- The blanks before the parenthesis. -/
  gap : Text
  /-- The blanks behind it. -/
  space : Text
  /-- The opening of the call around the pattern. -/
  call : Text
  /-- The letters before the quote. -/
  letters : Text
  body : Text
  /-- What stands behind the closing quote. -/
  rest : Text
  indent_blank : IsBlanks indent
  gap_blank : IsBlanks gap
  space_blank : IsBlanks space
  call_opens : if shape.wrapped then IsCall call else call = []
  letters_length : letters.length ≤ 2
  letters_alpha : ∀ c ∈ letters, c.isAlpha = true
  body_quotes : IsBody shape.quote body

namespace Spelling

/-- The quoted pattern and what stands behind it. -/
def quoted (s : Spelling shape) : Text :=
  s.letters ++ shape.quote :: (s.body ++ shape.quote :: s.rest)

/-- What stands behind the name. -/
def parenthesised (s : Spelling shape) : Text :=
  s.gap ++ '(' :: (s.space ++ (s.call ++ s.quoted))

def line (s : Spelling shape) : Text :=
  s.indent ++ '@' :: (s.name ++ s.parenthesised)

theorem trimStart_line (s : Spelling shape) : Text.trimStart s.line = '@' :: (s.name ++ s.parenthesised) := by
  rw [line, s.indent_blank.trimStart_append, Text.trimStart_cons (by decide)]

end Spelling

/-- The body ends at the first quote that no backslash takes with it. -/
theorem body?_eq_some_iff (hquote : quote ≠ '\\') :
    body? quote t = some b ↔ IsBody quote b ∧ ∃ rest, t = b ++ quote :: rest := by
  constructor
  · intro h
    fun_induction body? quote t generalizing b with
    | case1 => cases h
    | case2 => cases h
    | case3 c t hc ih =>
      obtain ⟨b, hread, rfl⟩ := Option.map_eq_some_iff.mp h
      obtain ⟨hb, rest, rfl⟩ := ih hread
      exact ⟨.escaped hc hb, rest, rfl⟩
    | case4 t =>
      cases h
      exact ⟨.nil, t, rfl⟩
    | case5 => cases h
    | case6 c t hnotPair hc hslash ih =>
      obtain ⟨b, hread, rfl⟩ := Option.map_eq_some_iff.mp h
      obtain ⟨hb, rest, rfl⟩ := ih hread
      exact ⟨.plain hc hslash hb, rest, rfl⟩
  · rintro ⟨hb, rest, rfl⟩
    induction hb with
    | nil =>
      rw [List.nil_append, body?, if_pos rfl]
      exact fun c t h => absurd h hquote
    | plain hc hslash _ ih =>
      rw [List.cons_append, body?, if_neg hc, if_neg hslash, ih]
      · rfl
      · exact fun c t h => absurd h hslash
    | escaped hc _ ih => rw [List.cons_append, List.cons_append, body?, if_neg hc, ih, Option.map_some]

theorem exists_letters (n : Nat) (t : Text) :
    ∃ letters, letters.length ≤ n ∧ (∀ c ∈ letters, c.isAlpha = true) ∧ t = letters ++ afterLetters n t := by
  fun_induction afterLetters n t with
  | case1 n c t hc ih =>
    obtain ⟨letters, hlength, halpha, ht⟩ := ih
    refine ⟨c :: letters, Nat.succ_le_succ hlength, List.forall_mem_cons.mpr ⟨hc, halpha⟩, ?_⟩
    rw [List.cons_append, ← ht]
  | case2 => exact ⟨[], Nat.zero_le _, nofun, rfl⟩
  | case3 => exact ⟨[], Nat.zero_le _, nofun, rfl⟩

theorem afterLetters_append {n : Nat} {letters : Text} (hlength : letters.length ≤ n)
    (halpha : ∀ c ∈ letters, c.isAlpha = true) (hquote : quote.isAlpha = false) (t : Text) :
    afterLetters n (letters ++ quote :: t) = quote :: t := by
  induction letters generalizing n with
  | nil =>
    cases n with
    | zero => rfl
    | succ n => rw [List.nil_append, afterLetters, if_neg (ne_true_of_eq_false hquote)]
  | cons c letters ih =>
    obtain ⟨hc, hletters⟩ := List.forall_mem_cons.mp halpha
    cases n with
    | zero => cases hlength
    | succ n => rw [List.cons_append, afterLetters, if_pos hc, ih (Nat.le_of_succ_le_succ hlength) hletters]

theorem literal?_eq_some_iff (halpha : quote.isAlpha = false) (hslash : quote ≠ '\\') :
    literal? quote t = some b ↔ IsBody quote b ∧ ∃ letters rest : Text, letters.length ≤ 2 ∧
      (∀ c ∈ letters, c.isAlpha = true) ∧ t = letters ++ quote :: (b ++ quote :: rest) := by
  constructor
  · intro h
    obtain ⟨letters, hlength, hletters, ht⟩ := exists_letters 2 t
    rw [literal?] at h
    split at h
    next c u hafter =>
      split at h
      next hc =>
        obtain ⟨hb, rest, rfl⟩ := (body?_eq_some_iff hslash).mp h
        exact ⟨hb, letters, rest, hlength, hletters, by rw [ht, hafter, hc]⟩
      next => cases h
    next => cases h
  · rintro ⟨hb, letters, rest, hlength, hletters, rfl⟩
    rw [literal?, afterLetters_append hlength hletters halpha]
    dsimp only
    rw [if_pos rfl]
    exact (body?_eq_some_iff hslash).mpr ⟨hb, rest, rfl⟩

theorem afterParen?_eq_some_iff : afterParen? t = some u ↔ Text.trimStart u = u ∧ ∃ gap space,
    IsBlanks gap ∧ IsBlanks space ∧ t = gap ++ '(' :: (space ++ u) := by
  constructor
  · intro h
    obtain ⟨gap, hgap, ht⟩ := Text.exists_blanks t
    rw [afterParen?] at h
    split at h
    next t' hopens =>
      obtain ⟨space, hspace, ht'⟩ := Text.exists_blanks t'
      obtain rfl := Option.some.inj h
      exact ⟨Text.trimStart_trimStart _, gap, space, hgap, hspace, by rw [← ht', ← hopens, ← ht]⟩
    next => cases h
  · rintro ⟨hu, gap, space, hgap, hspace, rfl⟩
    rw [afterParen?, hgap.trimStart_append, Text.trimStart_cons rfl]
    exact congrArg some ((hspace.trimStart_append u).trans hu)

theorem IsCall.trimStart_append {call : Text} (h : IsCall call) (t : Text) :
    Text.trimStart (call ++ t) = call ++ t := by
  obtain ⟨hc, -, -, -⟩ := h
  refine Text.trimStart_cons ?_ _
  rcases hc with halpha | rfl
  · exact Text.not_isBlank_of_isAlpha halpha
  · decide

/-- A call name ends before blanks and the parenthesis. -/
theorem dropWhile_isCallChar {name gap : Text} (hname : ∀ c ∈ name, Text.isWord c = true ∨ c = '.')
    (hgap : IsBlanks gap) (t : Text) : (name ++ (gap ++ '(' :: t)).dropWhile isCallChar = gap ++ '(' :: t := by
  rw [List.dropWhile_append_of_pos fun c hc => by simpa [isCallChar] using hname c hc]
  cases gap with
  | nil => exact List.dropWhile_cons_of_neg (by decide +kernel)
  | cons c gap =>
    have hblank := hgap c List.mem_cons_self
    have hdot : c ≠ '.' := by
      rintro rfl
      cases hblank
    refine List.dropWhile_cons_of_neg ?_
    simp [isCallChar, Text.not_isWord_of_isBlank hblank, hdot]

theorem afterCall?_eq_some_iff :
    afterCall? t = some u ↔ Text.trimStart u = u ∧ ∃ call, IsCall call ∧ t = call ++ u := by
  constructor
  · intro h
    cases t with
    | nil => cases h
    | cons c t =>
      rw [afterCall?] at h
      split at h
      next hc =>
        obtain ⟨hu, gap, space, hgap, hspace, ht⟩ := afterParen?_eq_some_iff.mp h
        have hname : ∀ d ∈ t.takeWhile isCallChar, Text.isWord d = true ∨ d = '.' := by
          intro d hd
          simpa [isCallChar] using List.mem_takeWhile_imp hd
        refine ⟨hu, _, .opening (by simpa using hc) hname hgap hspace, ?_⟩
        rw [List.cons_append, List.append_assoc, List.append_assoc, List.cons_append, ← ht,
          List.takeWhile_append_dropWhile]
      next => cases h
  · rintro ⟨hu, call, ⟨hc, hname, hgap, hspace⟩, rfl⟩
    rw [List.cons_append, List.append_assoc, List.append_assoc, List.cons_append, afterCall?, if_pos (by simpa using hc),
      dropWhile_isCallChar hname hgap]
    exact afterParen?_eq_some_iff.mpr ⟨hu, _, _, hgap, hspace, rfl⟩

theorem quote_spec (h : shape ∈ shapes) : shape.quote.isAlpha = false ∧ shape.quote ≠ '\\' ∧ shape.quote ≠ '(' ∧
    Text.isBlank shape.quote = false ∧ isCallChar shape.quote = false := by
  have hall : ∀ shape ∈ shapes, shape.quote.isAlpha = false ∧ shape.quote ≠ '\\' ∧ shape.quote ≠ '(' ∧
      Text.isBlank shape.quote = false ∧ isCallChar shape.quote = false := by decide +kernel
  exact hall shape h

theorem trimStart_quoted {letters : Text} (hletters : ∀ c ∈ letters, c.isAlpha = true)
    (hquote : Text.isBlank quote = false) (t : Text) :
    Text.trimStart (letters ++ quote :: t) = letters ++ quote :: t := by
  cases letters with
  | nil => exact Text.trimStart_cons hquote t
  | cons c letters => exact Text.trimStart_cons (Text.not_isBlank_of_isAlpha (hletters c List.mem_cons_self)) _

/-- The argument starts with no blank. -/
theorem Spelling.trimStart_argument (s : Spelling shape) (h : shape ∈ shapes) :
    Text.trimStart (s.call ++ s.quoted) = s.call ++ s.quoted := by
  obtain ⟨-, -, -, hblank, -⟩ := quote_spec h
  have hcall := s.call_opens
  split at hcall
  next => exact hcall.trimStart_append _
  next =>
    rw [hcall]
    exact trimStart_quoted s.letters_alpha hblank _

theorem Spelling.afterParen?_parenthesised (s : Spelling shape) (h : shape ∈ shapes) :
    afterParen? s.parenthesised = some (s.call ++ s.quoted) :=
  afterParen?_eq_some_iff.mpr ⟨s.trimStart_argument h, s.gap, s.space, s.gap_blank, s.space_blank, rfl⟩

theorem argument?_eq_some_iff (h : shape ∈ shapes) :
    argument? shape t = some b ↔ IsBody shape.quote b ∧ ∃ call letters rest : Text,
      (if shape.wrapped then IsCall call else call = []) ∧ letters.length ≤ 2 ∧ (∀ c ∈ letters, c.isAlpha = true) ∧
      t = call ++ (letters ++ shape.quote :: (b ++ shape.quote :: rest)) := by
  obtain ⟨halpha, hslash, -, hblank, -⟩ := quote_spec h
  rw [argument?]
  split
  next =>
    rw [Option.bind_eq_some_iff]
    constructor
    · rintro ⟨u, hcall, hliteral⟩
      obtain ⟨-, call, hopens, rfl⟩ := afterCall?_eq_some_iff.mp hcall
      obtain ⟨hb, letters, rest, hlength, hletters, rfl⟩ := (literal?_eq_some_iff halpha hslash).mp hliteral
      exact ⟨hb, call, letters, rest, hopens, hlength, hletters, rfl⟩
    · rintro ⟨hb, call, letters, rest, hopens, hlength, hletters, rfl⟩
      exact ⟨_, afterCall?_eq_some_iff.mpr ⟨trimStart_quoted hletters hblank _, call, hopens, rfl⟩,
        (literal?_eq_some_iff halpha hslash).mpr ⟨hb, letters, rest, hlength, hletters, rfl⟩⟩
  next =>
    rw [literal?_eq_some_iff halpha hslash]
    constructor
    · rintro ⟨hb, letters, rest, hlength, hletters, rfl⟩
      exact ⟨hb, [], letters, rest, rfl, hlength, hletters, rfl⟩
    · rintro ⟨hb, _, letters, rest, rfl, hlength, hletters, rfl⟩
      exact ⟨hb, letters, rest, hlength, hletters, rfl⟩

theorem afterName?_eq_some_iff {word : Text} :
    afterName? t word = some (name, u) ↔ name.map Text.fold = word ∧ t = name ++ u := by
  rw [afterName?]
  constructor
  · intro h
    split at h
    next hfold =>
      cases h
      exact ⟨hfold, (List.take_append_drop _ t).symm⟩
    next => cases h
  · rintro ⟨rfl, rfl⟩
    rw [List.length_map, List.take_left, List.drop_left, if_pos rfl]

/-- The names differ in their first letters, so at most one of them stands at the front of a text. -/
theorem findName?_eq_some_iff :
    names.findSome? (afterName? t) = some (name, u) ↔ name.map Text.fold ∈ names ∧ t = name ++ u := by
  constructor
  · intro h
    obtain ⟨word, hword, hafter⟩ := List.exists_of_findSome?_eq_some h
    obtain ⟨rfl, ht⟩ := afterName?_eq_some_iff.mp hafter
    exact ⟨hword, ht⟩
  · rintro ⟨hword, ht⟩
    have hsome : (names.findSome? (afterName? t)).isSome = true := by
      rw [List.findSome?_isSome_iff]
      exact ⟨_, hword, by rw [afterName?_eq_some_iff.mpr ⟨rfl, ht⟩]; rfl⟩
    obtain ⟨⟨name', u'⟩, hfound⟩ := Option.isSome_iff_exists.mp hsome
    -- The name that is found has the same first letter, so it is the same name and of the same length.
    obtain ⟨word', hword', hafter⟩ := List.exists_of_findSome?_eq_some hfound
    obtain ⟨hfold', ht'⟩ := afterName?_eq_some_iff.mp hafter
    have hhead (n v : Text) (hn : n.map Text.fold ∈ names) : (n ++ v).head?.map Text.fold = (n.map Text.fold).head? := by
      cases n with
      | nil => exact absurd hn (by decide)
      | cons c n => rfl
    have hnames : ∀ n ∈ names, ∀ n' ∈ names, n.head? = n'.head? → n = n' := by decide
    have hsame : name'.map Text.fold = name.map Text.fold := by
      refine hnames _ (hfold' ▸ hword') _ hword ?_
      rw [← hhead name' u' (hfold' ▸ hword'), ← hhead name u hword, ← ht, ← ht']
    have hlength : name'.length = name.length := by simpa using congrArg List.length hsame
    obtain ⟨rfl, rfl⟩ := List.append_inj (ht'.symm.trans ht) hlength
    exact hfound

theorem captures?_eq_some_iff (h : shape ∈ shapes) {line : Text} :
    captures? line shape = some (name, pattern) ↔ name.map Text.fold ∈ names ∧
      ∃ s : Spelling shape, s.line = line ∧ s.name = name ∧ s.body = pattern := by
  constructor
  · intro hcaptures
    obtain ⟨indent, hindent, hline⟩ := Text.exists_blanks line
    rw [captures?] at hcaptures
    split at hcaptures
    next t hat =>
      obtain ⟨⟨name, u⟩, hname, hcaptures⟩ := Option.bind_eq_some_iff.mp hcaptures
      obtain ⟨v, hparen, hcaptures⟩ := Option.bind_eq_some_iff.mp hcaptures
      obtain ⟨body, hargument, hpair⟩ := Option.bind_eq_some_iff.mp hcaptures
      cases hpair
      obtain ⟨hfold, rfl⟩ := findName?_eq_some_iff.mp hname
      obtain ⟨-, gap, space, hgap, hspace, rfl⟩ := afterParen?_eq_some_iff.mp hparen
      obtain ⟨hbody, call, letters, rest, hcall, hlength, hletters, rfl⟩ := (argument?_eq_some_iff h).mp hargument
      refine ⟨hfold, ⟨indent, name, gap, space, call, letters, pattern, rest, hindent, hgap, hspace, hcall, hlength,
        hletters, hbody⟩, ?_, rfl, rfl⟩
      rw [hline, hat]
      rfl
    next => cases hcaptures
  · rintro ⟨hfold, s, rfl, rfl, rfl⟩
    rw [captures?, s.trimStart_line]
    refine Option.bind_eq_some_iff.mpr ⟨_, findName?_eq_some_iff.mpr ⟨hfold, rfl⟩, ?_⟩
    refine Option.bind_eq_some_iff.mpr ⟨_, s.afterParen?_parenthesised h, ?_⟩
    exact Option.bind_eq_some_iff.mpr ⟨_, (argument?_eq_some_iff h).mpr ⟨s.body_quotes, _, _, _, s.call_opens,
      s.letters_length, s.letters_alpha, rfl⟩, rfl⟩

/-- A keyword in any case of its letters folds to a name. -/
theorem fold_mem_names {k : DefinitionKeyword} (h : Text.sameIgnoringCase name k.name.toList = true) :
    name.map Text.fold ∈ names := by
  have hlower : name.map Char.toLower = k.name.toList.map Char.toLower := eq_of_beq h
  have hascii : ∀ k ∈ DefinitionKeyword.all, (k.name.toList.map Char.toLower).all (·.toNat < 128) = true := by decide
  have hnames : ∀ k ∈ DefinitionKeyword.all, k.name.toList.map Char.toLower ∈ names := by decide
  have hfold : name.map Text.fold = name.map Char.toLower := by
    refine List.map_congr_left fun c hc => Text.fold_eq_toLower ?_
    have hmem : c.toLower ∈ k.name.toList.map Char.toLower := hlower ▸ List.mem_map_of_mem hc
    exact of_decide_eq_true (List.all_eq_true.mp (hascii k k.mem_all) _ hmem)
  rw [hfold, hlower]
  exact hnames k k.mem_all

theorem trim_of_fold_mem_names (h : name.map Text.fold ∈ names) : Text.trim name = name := by
  have hnames : ∀ word ∈ names, word.any Text.isBlank = false := by decide
  refine Text.trim_eq_self fun c hc => ?_
  by_contra hblank
  rw [Bool.not_eq_false] at hblank
  have hmem : Text.fold c ∈ name.map Text.fold := List.mem_map_of_mem hc
  rw [Text.fold_of_isBlank hblank] at hmem
  exact List.any_eq_false.mp (hnames _ h) c hmem hblank

theorem ofShape?_eq_some_iff (h : shape ∈ shapes) {line : Text} :
    ofShape? line shape = some d ↔ ∃ s : Spelling shape, s.line = line ∧
      Text.sameIgnoringCase s.name d.keyword.name.toList = true ∧ d.pattern = s.body ∧
      d.column = Text.utf8Length s.indent := by
  have hcolumn (s : Spelling shape) :
      Text.utf8Length s.line - Text.utf8Length (Text.trimStart s.line) = Text.utf8Length s.indent := by
    rw [s.trimStart_line, Spelling.line, Text.utf8Length_append, Nat.add_sub_cancel]
  rw [ofShape?]
  constructor
  · intro hread
    obtain ⟨⟨name, pattern⟩, hcaptures, hparsed⟩ := Option.bind_eq_some_iff.mp hread
    obtain ⟨keyword, hkeyword, hfound⟩ := Option.bind_eq_some_iff.mp hparsed
    obtain ⟨hfold, s, rfl, rfl, rfl⟩ := (captures?_eq_some_iff h).mp hcaptures
    obtain rfl := Option.some.inj hfound
    exact ⟨s, rfl, (DefinitionKeyword.toOption_ofText_eq_some_iff (trim_of_fold_mem_names hfold)).mp hkeyword, rfl,
      hcolumn s⟩
  · rintro ⟨s, rfl, hkeyword, hpattern, hindent⟩
    have hfold := fold_mem_names hkeyword
    refine Option.bind_eq_some_iff.mpr ⟨_, (captures?_eq_some_iff h).mpr ⟨hfold, s, rfl, rfl, rfl⟩, ?_⟩
    refine Option.bind_eq_some_iff.mpr
      ⟨_, (DefinitionKeyword.toOption_ofText_eq_some_iff (trim_of_fold_mem_names hfold)).mpr hkeyword, ?_⟩
    rw [hcolumn, ← hpattern, ← hindent]

/-! ### One shape for each line -/

/-- Behind the name of a call stand blanks and the parenthesis. -/
theorem IsCall.trimStart_dropWhile {call : Text} (h : IsCall call) (t : Text) :
    ∃ space, Text.trimStart ((call ++ t).dropWhile isCallChar) = '(' :: (space ++ t) := by
  obtain @⟨c, name, gap, space, hc, hname, hgap, -⟩ := h
  have hall : ∀ d ∈ c :: name, Text.isWord d = true ∨ d = '.' := by
    refine List.forall_mem_cons.mpr ⟨.inl ?_, hname⟩
    rcases hc with halpha | rfl
    · exact Text.isWord_of_isAlpha halpha
    · decide +kernel
  refine ⟨space, ?_⟩
  rw [List.cons_append, List.append_assoc, List.append_assoc, List.cons_append, ← List.cons_append,
    dropWhile_isCallChar hall hgap, hgap.trimStart_append, Text.trimStart_cons rfl]

namespace Spelling

theorem dropWhile_quoted (s : Spelling shape) (h : shape ∈ shapes) :
    s.quoted.dropWhile isCallChar = shape.quote :: (s.body ++ shape.quote :: s.rest) := by
  obtain ⟨-, -, -, -, hcall⟩ := quote_spec h
  have hletters : ∀ c ∈ s.letters, isCallChar c = true := by
    intro c hc
    rw [isCallChar, Text.isWord_of_isAlpha (s.letters_alpha c hc), Bool.true_or]
  rw [quoted, List.dropWhile_append_of_pos hletters, List.dropWhile_cons_of_neg (ne_true_of_eq_false hcall)]

/-- The argument tells the shape: behind the characters of a call name stands a parenthesis, or the quote. -/
theorem head_argument (s : Spelling shape) (h : shape ∈ shapes) :
    (Text.trimStart ((s.call ++ s.quoted).dropWhile isCallChar)).head? =
      some (if shape.wrapped then '(' else shape.quote) := by
  obtain ⟨-, -, -, hblank, -⟩ := quote_spec h
  have hopens := s.call_opens
  split at hopens
  next hwrapped =>
    obtain ⟨space, hcall⟩ := hopens.trimStart_dropWhile s.quoted
    rw [hcall, if_pos hwrapped, List.head?_cons]
  next hwrapped =>
    rw [hopens, List.nil_append, s.dropWhile_quoted h, Text.trimStart_cons hblank, if_neg hwrapped, List.head?_cons]

theorem quoted_of_wrapped (s : Spelling shape) (h : shape ∈ shapes) (hwrapped : shape.wrapped = true) :
    afterCall? (s.call ++ s.quoted) = some s.quoted := by
  obtain ⟨-, -, -, hblank, -⟩ := quote_spec h
  have hopens := s.call_opens
  rw [if_pos hwrapped] at hopens
  exact afterCall?_eq_some_iff.mpr ⟨trimStart_quoted s.letters_alpha hblank _, s.call, hopens, rfl⟩

variable {shape' : Shape} {s : Spelling shape} {s' : Spelling shape'}

theorem argument_unique (h : shape ∈ shapes) (h' : shape' ∈ shapes) (hname : s.name.map Text.fold ∈ names)
    (hname' : s'.name.map Text.fold ∈ names) (hline : s.line = s'.line) :
    s.call ++ s.quoted = s'.call ++ s'.quoted := by
  have hbehind : s.name ++ s.parenthesised = s'.name ++ s'.parenthesised := by
    have hat : '@' :: (s.name ++ s.parenthesised) = '@' :: (s'.name ++ s'.parenthesised) := by
      rw [← s.trimStart_line, ← s'.trimStart_line, hline]
    exact (List.cons.inj hat).2
  have hfirst := findName?_eq_some_iff.mpr ⟨hname, hbehind.symm⟩
  have hsecond := findName?_eq_some_iff.mpr ⟨hname', Eq.refl (s'.name ++ s'.parenthesised)⟩
  obtain ⟨-, hparenthesised⟩ := Prod.mk.inj (Option.some.inj (hfirst.symm.trans hsecond))
  have hargument := s.afterParen?_parenthesised h
  rw [hparenthesised, s'.afterParen?_parenthesised h'] at hargument
  exact (Option.some.inj hargument).symm

/-- No line can be spelled in two shapes. -/
theorem shape_unique (h : shape ∈ shapes) (h' : shape' ∈ shapes) (hname : s.name.map Text.fold ∈ names)
    (hname' : s'.name.map Text.fold ∈ names) (hline : s.line = s'.line) : shape = shape' := by
  have hargument := argument_unique h h' hname hname' hline
  have hhead : (if shape.wrapped then '(' else shape.quote) = if shape'.wrapped then '(' else shape'.quote := by
    refine Option.some.inj ?_
    rw [← s.head_argument h, ← s'.head_argument h', hargument]
  obtain ⟨-, -, hparen, -, -⟩ := quote_spec h
  obtain ⟨-, -, hparen', -, -⟩ := quote_spec h'
  have hshape (hwrapped : shape.wrapped = shape'.wrapped) (hquote : shape.quote = shape'.quote) : shape = shape' := by
    cases shape
    cases shape'
    exact Shape.mk.injEq .. ▸ ⟨hwrapped, hquote⟩
  -- If just one of the patterns is wrapped, a quote would be a parenthesis.
  cases hwrapped : shape.wrapped <;> cases hwrapped' : shape'.wrapped <;>
    simp only [hwrapped, hwrapped', if_true, Bool.false_eq_true, if_false] at hhead
  · exact hshape (hwrapped.trans hwrapped'.symm) hhead
  · exact absurd hhead hparen
  · exact absurd hhead.symm hparen'
  · have hquoted : s.quoted = s'.quoted := by
      refine Option.some.inj ?_
      rw [← s.quoted_of_wrapped h hwrapped, ← s'.quoted_of_wrapped h' hwrapped', hargument]
    have hbehind := congrArg (List.dropWhile isCallChar) hquoted
    rw [s.dropWhile_quoted h, s'.dropWhile_quoted h'] at hbehind
    exact hshape (hwrapped.trans hwrapped'.symm) (List.cons.inj hbehind).1

end Spelling

theorem shape_unique {shape' : Shape} {line : Text} (h : shape ∈ shapes) (h' : shape' ∈ shapes)
    (hcaptures : (captures? line shape).isSome = true) (hcaptures' : (captures? line shape').isSome = true) :
    shape = shape' := by
  obtain ⟨⟨name, pattern⟩, hfound⟩ := Option.isSome_iff_exists.mp hcaptures
  obtain ⟨⟨name', pattern'⟩, hfound'⟩ := Option.isSome_iff_exists.mp hcaptures'
  obtain ⟨hname, s, hline, rfl, -⟩ := (captures?_eq_some_iff h).mp hfound
  obtain ⟨hname', s', hline', rfl, -⟩ := (captures?_eq_some_iff h').mp hfound'
  exact Spelling.shape_unique h h' hname hname' (hline.trans hline'.symm)

theorem isSome_captures? {line : Text} (h : ofShape? line shape = some d) : (captures? line shape).isSome = true := by
  obtain ⟨found, hcaptures, -⟩ := Option.bind_eq_some_iff.mp h
  rw [hcaptures, Option.isSome_some]

/-- In whatever order the shapes are tried, the one that a line has is found. -/
theorem findSome?_eq_some_iff {line : Text} {order : List Shape} (horder : order.Perm shapes) :
    order.findSome? (ofShape? line) = some d ↔ ∃ shape ∈ shapes, ofShape? line shape = some d := by
  constructor
  · intro hfound
    obtain ⟨shape, hshape, hd⟩ := List.exists_of_findSome?_eq_some hfound
    exact ⟨shape, horder.mem_iff.mp hshape, hd⟩
  · rintro ⟨shape, hshape, hd⟩
    have hsome : (order.findSome? (ofShape? line)).isSome = true :=
      List.findSome?_isSome_iff.mpr ⟨shape, horder.mem_iff.mpr hshape, by rw [hd, Option.isSome_some]⟩
    obtain ⟨d', hfound⟩ := Option.isSome_iff_exists.mp hsome
    obtain ⟨shape', hshape', hd'⟩ := List.exists_of_findSome?_eq_some hfound
    obtain rfl := shape_unique hshape (horder.mem_iff.mp hshape') (isSome_captures? hd) (isSome_captures? hd')
    rw [hfound, ← hd', hd]

/-- A line is read as a decorator exactly if it can be spelled in one of the shapes with a keyword, in any case of its
letters, as the name: the pattern is the body of that spelling and the column is where its indentation ends. No line has
two of the shapes, and they may be tried in any order. -/
theorem read_iff_spelled (line : Text) :
    (∀ d, ofLine? line = some d ↔ ∃ shape ∈ shapes, ∃ s : Spelling shape, s.line = line ∧
      Text.sameIgnoringCase s.name d.keyword.name.toList = true ∧ d.pattern = s.body ∧
      d.column = Text.utf8Length s.indent) ∧
    (∀ shape ∈ shapes, ∀ shape' ∈ shapes, (captures? line shape).isSome = true →
      (captures? line shape').isSome = true → shape = shape') ∧
    ∀ order : List Shape, order.Perm shapes → order.findSome? (ofShape? line) = ofLine? line := by
  refine ⟨fun d => ?_, fun shape h shape' h' => shape_unique h h', fun order horder => ?_⟩
  · refine (findSome?_eq_some_iff (.refl shapes)).trans (exists_congr fun shape => ?_)
    exact and_congr_right fun h => ofShape?_eq_some_iff h
  · refine Option.ext fun d => ?_
    rw [findSome?_eq_some_iff horder]
    exact (findSome?_eq_some_iff (.refl shapes)).symm

/-- The quote behind the backslash and the other quotes belong to the pattern, which the last of the shapes finds also
when it is tried first. -/
theorem read_iff_spelled_call :
    let line := "\t@Step ( re.compile(r'it\\'s \"b\"')) # given".toList
    shapes.reverse.findSome? (ofShape? line) = some ⟨.any, "it\\'s \"b\"".toList, 1⟩ ∧
      ∃ s : Spelling ⟨true, '\x27'⟩, s.line = line ∧ "it\\'s \"b\"".toList = s.body := by
  intro line
  obtain ⟨hspelled, -, horder⟩ := read_iff_spelled line
  have hfound : ofLine? line = some ⟨.any, "it\\'s \"b\"".toList, 1⟩ := by decide +kernel
  obtain ⟨shape, hshape, s, hline, hname, hbody, -⟩ := (hspelled _).mp hfound
  refine ⟨(horder _ (List.reverse_perm _)).trans hfound, ?_⟩
  have hlast : ∀ shape ∈ shapes, (captures? line shape).isSome = true → shape = ⟨true, '\x27'⟩ := by decide +kernel
  have hcaptures := (captures?_eq_some_iff hshape).mpr ⟨fold_mem_names hname, s, hline, rfl, rfl⟩
  obtain rfl := hlast shape hshape (by rw [hcaptures, Option.isSome_some])
  exact ⟨s, hline, hbody⟩

end Decorator

end StepLink
