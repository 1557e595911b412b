import StepLink.Proofs.Pattern.Bytewise

/-! The loop over the bytes of a pattern. Between two iterations it stands where a character starts, whatever was
escaped, doubled or read over in placeholders before, since every iteration consumes the spelling of one piece. So it
never falls back on anything, and when it ends without an error the spellings make up the pattern, divided into one
span for each token. -/

namespace StepLink

open Text

namespace Token

/-- Literal text is spelled letter by letter, in front of what stands behind it. -/
inductive Letters : Text → Text → Text → Prop
  | nil (rest : Text) : Letters [] [] rest
  | concat {t span spelling rest : Text} {c : Char} (ht : Letters t span (spelling ++ rest))
      (hc : (Piece.letter c).Spelling spelling rest) : Letters (t ++ [c]) (span ++ spelling) rest

/-- How a token is spelled in front of what stands behind it, if the spelling starts at the byte `start`. -/
inductive Spelling (start : Nat) : Token → Text → Text → Prop
  | literal {t span rest : Text} (hsome : t ≠ []) (ht : Letters t span rest) : Spelling start (.literal t) span rest
  | field {f : Field} {span rest : Text} (hf : (Piece.field f).Spelling span rest) :
      Spelling start (.field start f) span rest
  | opening {span rest : Text} (hp : Piece.opening.Spelling span rest) : Spelling start (.openBrace start) span rest
  | closing {span rest : Text} (hp : Piece.closing.Spelling span rest) : Spelling start (.closeBrace start) span rest

/-- Tokens are spelled one behind the other, each by a span of its own. -/
inductive Spans : List Token → List Text → Text → Prop
  | nil (rest : Text) : Spans [] [] rest
  | concat {tokens : List Token} {spans : List Text} {token : Token} {span rest : Text}
      (htokens : Spans tokens spans (span ++ rest)) (htoken : token.Spelling (utf8Length spans.flatten) span rest) :
      Spans (tokens ++ [token]) (spans ++ [span]) rest

variable {t span rest : Text} {tokens : List Token} {spans : List Text} {c : Char}

theorem Letters.eq_nil_iff (h : Letters t span rest) : t = [] ↔ span = [] := by
  cases h with
  | nil => simp
  | concat ht hc => simp [hc.ne_nil]

/-- A letter is among the characters of its spelling. -/
theorem Letters.mem (h : Letters t span rest) (hc : c ∈ t) : c ∈ span := by
  induction h with
  | nil => cases hc
  | concat ht hd ih =>
    rcases List.mem_append.mp hc with hc | hc
    · exact List.mem_append_left _ (ih hc)
    · rw [List.mem_singleton.mp hc]
      cases hd <;> simp

theorem Spelling.ne_nil {start : Nat} {token : Token} (h : token.Spelling start span rest) : span ≠ [] := by
  cases h with
  | literal hsome ht => exact mt ht.eq_nil_iff.mpr hsome
  | field hf => exact hf.ne_nil
  | opening hp => exact hp.ne_nil
  | closing hp => exact hp.ne_nil

theorem Spans.ne_nil_of_mem (h : Spans tokens spans rest) (hspan : span ∈ spans) : span ≠ [] := by
  induction h with
  | nil => cases hspan
  | concat htokens htoken ih =>
    rcases List.mem_append.mp hspan with hspan | hspan
    · exact ih hspan
    · rw [List.mem_singleton.mp hspan]
      exact htoken.ne_nil

/-- No literal text has a character that is not in the spans. -/
theorem Spans.mem_flatten (h : Spans tokens spans rest) (ht : .literal t ∈ tokens) (hc : c ∈ t) :
    c ∈ spans.flatten := by
  induction h with
  | nil => cases ht
  | concat htokens htoken ih =>
    rw [List.flatten_concat]
    rcases List.mem_append.mp ht with ht | ht
    · exact List.mem_append_left _ (ih ht)
    · cases List.mem_singleton.mp ht
      cases htoken with
      | literal _ hletters => exact List.mem_append_right _ (hletters.mem hc)

/-- A placeholder starts at the byte of its brace. -/
theorem Spans.getElem?_of_field {start : Nat} {f : Field} (h : Spans tokens spans rest)
    (hf : .field start f ∈ tokens) : (Text.bytes (spans.flatten ++ rest))[start]? = some '{'.toUInt8 := by
  induction h with
  | nil => cases hf
  | @concat tokens spans token span rest htokens htoken ih =>
    rw [List.flatten_concat, List.append_assoc]
    rcases List.mem_append.mp hf with hf | hf
    · exact ih hf
    · obtain rfl := List.mem_singleton.mp hf
      cases htoken with
      | field hspelling =>
        rw [(standsAt_utf8Length _ _).getElem?_eq_iff (by decide)]
        cases hspelling
        rfl

end Token

namespace Lexer

variable {x y : Lexer} {spans : List Text} {pattern pending span spelling rest : Text} {token : Token} {p : Piece}
  {c : Char} {b : UInt8} {n : Nat}

theorem flush_position (x : Lexer) : x.flush.position = x.position := by
  unfold flush
  split <;> rfl

theorem flush_literal (x : Lexer) : x.flush.literal = [] := by
  unfold flush
  split
  next hnil => exact hnil
  next => rfl

/-- What the loop has done with the part of the pattern in front of `rest`: its tokens are spelled by the spans, and
behind these the literal text since the last token is spelled. -/
structure Consumed (pattern : Text) (x : Lexer) (spans : List Text) (pending rest : Text) : Prop where
  append : spans.flatten ++ (pending ++ rest) = pattern
  position : utf8Length (spans.flatten ++ pending) = x.position
  tokens : Token.Spans x.tokens spans (pending ++ rest)
  literal : Token.Letters x.literal pending rest

theorem consumed_start (pattern : Text) : Consumed pattern ⟨0, [], []⟩ [] [] pattern :=
  ⟨rfl, rfl, .nil _, .nil _⟩

theorem Consumed.push (h : Consumed pattern x spans pending (spelling ++ rest))
    (hc : (Piece.letter c).Spelling spelling rest) :
    Consumed pattern (x.push c (x.position + utf8Length spelling)) spans (pending ++ spelling) rest where
  append := by rw [List.append_assoc, h.append]
  position := by rw [← List.append_assoc, utf8Length_append, h.position]; rfl
  tokens := by
    rw [List.append_assoc]
    exact h.tokens
  literal := h.literal.concat hc

theorem Consumed.flush (h : Consumed pattern x spans pending rest) :
    ∃ spans, Consumed pattern x.flush spans [] rest := by
  by_cases hnil : x.literal = []
  · obtain rfl := h.literal.eq_nil_iff.mp hnil
    rw [Lexer.flush, if_pos hnil]
    exact ⟨spans, h⟩
  · have hspan := h.tokens.concat (.literal hnil h.literal)
    rw [Lexer.flush, if_neg hnil]
    refine ⟨spans ++ [pending], ?_, ?_, hspan, .nil _⟩
    · rw [List.flatten_concat, List.nil_append, List.append_assoc, h.append]
    · rw [List.flatten_concat, List.append_nil, h.position]

theorem Consumed.emit (h : Consumed pattern x spans pending (span ++ rest))
    (htoken : token.Spelling x.position span rest) :
    ∃ spans, Consumed pattern (x.emit token (x.position + utf8Length span)) spans [] rest := by
  obtain ⟨spans, h⟩ := h.flush
  have hposition : utf8Length spans.flatten = x.position := by
    have hflush := h.position
    rwa [List.append_nil, flush_position] at hflush
  have htokens : Token.Spans x.flush.tokens spans (span ++ rest) := h.tokens
  refine ⟨spans ++ [span], ?_, ?_, htokens.concat (hposition ▸ htoken), ?_⟩
  · rw [List.flatten_concat, List.nil_append, List.append_assoc]
    exact h.append
  · rw [List.flatten_concat, List.append_nil, utf8Length_append, hposition]
    rfl
  · rw [Lexer.emit, flush_literal]
    exact .nil _

theorem Consumed.absorb (h : Consumed pattern x spans pending (spelling ++ rest)) (hp : p.Spelling spelling rest) :
    ∃ spans pending, Consumed pattern (x.absorb p (utf8Length spelling)) spans pending rest := by
  cases p with
  | letter c => exact ⟨_, _, h.push hp⟩
  | field f =>
    obtain ⟨spans, h⟩ := h.emit (.field hp)
    exact ⟨_, _, h⟩
  | opening =>
    obtain ⟨spans, h⟩ := h.emit (.opening hp)
    exact ⟨_, _, h⟩
  | closing =>
    obtain ⟨spans, h⟩ := h.emit (.closing hp)
    exact ⟨_, _, h⟩

/-! ### Runs -/

/-- The states between the iterations for a pattern, by the number of iterations before them. -/
inductive Reaches (pattern : Text) : Nat → Lexer → Prop
  | start : Reaches pattern 0 ⟨0, [], []⟩
  | step {n : Nat} {x y : Lexer} {b : UInt8} (hx : Reaches pattern n x)
      (hb : (Text.bytes pattern)[x.position]? = some b) (hy : step pattern x b = .ok y) : Reaches pattern (n + 1) y

/-- At the end of the pattern nothing is left of it. -/
theorem Consumed.rest_eq_nil (h : Consumed pattern x spans pending rest)
    (hend : (Text.bytes pattern).length ≤ x.position) : rest = [] := by
  have happend := congrArg utf8Length h.append
  rw [← List.append_assoc, utf8Length_append, h.position] at happend
  rw [length_bytes] at hend
  exact utf8Length_eq_zero.mp (by omega)

/-- Where there is a byte, a character starts, and the iteration reads a piece there. -/
theorem Consumed.exists_step (h : Consumed pattern x spans pending rest)
    (hb : (Text.bytes pattern)[x.position]? = some b) :
    ∃ c t, rest = c :: t ∧ step pattern x b = x.stepPiece c t := by
  have happend := h.append
  rw [← List.append_assoc] at happend
  cases rest with
  | nil =>
    have hnone : (Text.bytes pattern)[x.position]? = none := by
      rw [List.getElem?_eq_none_iff, length_bytes, ← happend, List.append_nil, h.position]
    rw [hnone] at hb
    cases hb
  | cons c t => exact ⟨c, t, rfl, step_eq h.position happend hb⟩

theorem Consumed.step_ne_fallback (h : Consumed pattern x spans pending rest)
    (hb : (Text.bytes pattern)[x.position]? = some b) : Lexer.step pattern x b ≠ .error .fallback := by
  obtain ⟨c, t, -, hstep⟩ := h.exists_step hb
  intro hfallback
  obtain ⟨e, -, he⟩ := exists_of_stepPiece_error (hstep.symm.trans hfallback)
  cases he

/-- What one iteration preserves. -/
theorem Consumed.step (h : Consumed pattern x spans pending rest)
    (hb : (Text.bytes pattern)[x.position]? = some b) (hy : Lexer.step pattern x b = .ok y) :
    ∃ spans pending rest, Consumed pattern y spans pending rest := by
  obtain ⟨c, t, rfl, hstep⟩ := h.exists_step hb
  obtain ⟨p, spelling, behind, hread, rfl⟩ := exists_of_stepPiece_ok (hstep.symm.trans hy)
  obtain ⟨hp, hcons⟩ := Piece.read_iff.mp hread
  rw [hcons] at h
  obtain ⟨spans, pending, h⟩ := h.absorb hp
  exact ⟨_, _, _, h⟩

/-- What holds in every state that is reached. -/
theorem Reaches.exists_consumed (h : Reaches pattern n x) :
    ∃ spans pending rest, Consumed pattern x spans pending rest := by
  induction h with
  | start => exact ⟨_, _, _, consumed_start pattern⟩
  | step _ hb hy ih =>
    obtain ⟨spans, pending, rest, hconsumed⟩ := ih
    exact hconsumed.step hb hy

theorem Reaches.le_position (h : Reaches pattern n x) : n ≤ x.position := by
  induction h with
  | start => exact le_rfl
  | step _ _ hy ih => exact Nat.succ_le_of_lt (Nat.lt_of_le_of_lt ih (position_lt_of_step hy))

/-- The run from a state that is reached ends in one that is reached, at the end of the pattern. -/
theorem Reaches.exists_run (h : Reaches pattern n x) (hrun : run pattern x = .ok y) :
    ∃ m, Reaches pattern m y ∧ (Text.bytes pattern).length ≤ y.position := by
  fun_induction run pattern x generalizing n with
  | case1 x hend stop hstep => cases hrun
  | case2 x hend z hstep ih => exact ih (h.step (List.getElem?_eq_getElem hend) hstep) hrun
  | case3 x hend =>
    cases hrun
    exact ⟨n, h, Nat.not_lt.mp hend⟩

end Lexer

namespace Token

/-- Literal text in front of tokens, to which it goes if they start with literal text themselves. -/
def prepend (t : Text) : List Token → List Token
  | .literal u :: tokens => .literal (t ++ u) :: tokens
  | tokens => if t = [] then tokens else .literal t :: tokens

theorem prepend_nil (tokens : List Token) : prepend [] tokens = tokens := by
  unfold prepend
  split <;> simp

theorem prepend_concat (t : Text) (c : Char) (tokens : List Token) :
    prepend (t ++ [c]) tokens = prepend t (prepend [c] tokens) := by
  cases tokens with
  | nil => simp [prepend]
  | cons token tokens => cases token <;> simp [prepend]

theorem gather_letter (start : Nat) (c : Char) (entries : List (Nat × Piece)) :
    gather ((start, .letter c) :: entries) = prepend [c] (gather entries) := by
  rw [gather]
  split
  next h => rw [h]; rfl
  next h =>
    cases hgather : gather entries with
    | nil => rfl
    | cons token tokens => cases token <;> simp_all [prepend]

end Token

namespace Lexer

variable {x y : Lexer} {spans : List Text} {pattern pending rest : Text} {entries : List (Nat × Piece)}

/-- The tokens that there will be once the rest of the pattern is cut into these pieces. -/
def tokensWith (x : Lexer) (entries : List (Nat × Piece)) : List Token :=
  x.tokens ++ Token.prepend x.literal (Token.gather entries)

theorem tokensWith_nil (x : Lexer) : x.tokensWith [] = x.flush.tokens := by
  by_cases hnil : x.literal = [] <;> simp [tokensWith, flush, Token.gather, Token.prepend, hnil]

theorem tokensWith_absorb (x : Lexer) (p : Piece) (size : Nat) (entries : List (Nat × Piece)) :
    (x.absorb p size).tokensWith entries = x.tokensWith ((x.position, p) :: entries) := by
  have hemit : ∀ (token : Token) (tokens : List Token) (position : Nat), (∀ t, token ≠ .literal t) →
      (x.emit token position).tokens ++ Token.prepend (x.emit token position).literal tokens =
        x.tokens ++ Token.prepend x.literal (token :: tokens) := by
    intro token tokens position hliteral
    rw [emit, flush_literal, Token.prepend_nil]
    cases token with
    | literal t => exact absurd rfl (hliteral t)
    | _ => by_cases hnil : x.literal = [] <;> simp [flush, Token.prepend, hnil]
  cases p with
  | letter c => rw [tokensWith, tokensWith, Token.gather_letter, ← Token.prepend_concat]; rfl
  | field f => exact hemit _ _ _ (by simp)
  | opening => exact hemit _ _ _ (by simp)
  | closing => exact hemit _ _ _ (by simp)

theorem absorb_position (x : Lexer) (p : Piece) (size : Nat) : (x.absorb p size).position = x.position + size := by
  cases p <;> rfl

/-- The tokens of a run are those of the pieces into which the rest of the pattern is cut. -/
theorem Consumed.run_eq (h : Consumed pattern x spans pending rest) :
    (run pattern x).map (fun y => y.flush.tokens) =
      ((Piece.readAll x.position rest).map x.tokensWith).mapError .fault := by
  -- The pieces that are left are read one by one along the run, as `Consumed` says where each of them starts.
  fun_induction run pattern x generalizing spans pending rest with
  | case1 x hend stop hstep =>
    obtain ⟨c, t, rfl, heq⟩ := h.exists_step (List.getElem?_eq_getElem hend)
    obtain ⟨e, hread, rfl⟩ := exists_of_stepPiece_error (heq.symm.trans hstep)
    rw [Piece.readAll_cons, hread]
    rfl
  | case2 x hend y hstep ih =>
    obtain ⟨c, t, rfl, heq⟩ := h.exists_step (List.getElem?_eq_getElem hend)
    obtain ⟨p, spelling, behind, hread, rfl⟩ := exists_of_stepPiece_ok (heq.symm.trans hstep)
    obtain ⟨hp, hcons⟩ := Piece.read_iff.mp hread
    rw [hcons] at h
    obtain ⟨spans, pending, h⟩ := h.absorb hp
    rw [ih h, absorb_position, Piece.readAll_cons, hread]
    cases hrest : Piece.readAll (x.position + utf8Length spelling) behind with
    | error e => simp [Except.bind, Except.map, Except.mapError, hrest]
    | ok entries => simp [Except.bind, Except.map, Except.mapError, hrest, tokensWith_absorb]
  | case3 x hend =>
    rw [h.rest_eq_nil (Nat.not_lt.mp hend), Piece.readAll]
    exact congrArg Except.ok (tokensWith_nil x).symm

theorem lex_eq (pattern : Text) : lex pattern = (Token.ofPattern pattern).mapError .fault := by
  rw [lex, (consumed_start pattern).run_eq, Token.ofPattern]
  refine congrArg _ (congrArg (fun f => Except.map f _) (funext fun entries => ?_))
  exact Token.prepend_nil _

/-- The loop over the bytes reads the tokens of the pattern. Every iteration starts at a character and goes on behind
it, so there are no more of them than bytes, and none falls back on anything. What it has consumed is divided into
spans, of which each one spells the next token, and in the end that is the whole pattern: every placeholder starts at
its opening brace, and literal text has no characters but those of the pattern. -/
theorem lex_partitions (pattern : Text) :
    lex pattern = (Token.ofPattern pattern).mapError .fault ∧
    (∀ n x, Reaches pattern n x → n ≤ x.position ∧
      (∃ before behind, before ++ behind = pattern ∧ utf8Length before = x.position) ∧
      (∃ spans pending behind, Consumed pattern x spans pending behind) ∧
      ∀ b, (Text.bytes pattern)[x.position]? = some b → step pattern x b ≠ .error .fallback ∧
        ∀ y, step pattern x b = .ok y → x.position < y.position) ∧
    ∀ tokens, lex pattern = .ok tokens →
      ∃ spans, spans.flatten = pattern ∧ Token.Spans tokens spans [] ∧ (∀ span ∈ spans, span ≠ []) ∧
        (∀ start f, .field start f ∈ tokens → (Text.bytes pattern)[start]? = some '{'.toUInt8) ∧
        ∀ t c, .literal t ∈ tokens → c ∈ t → c ∈ pattern := by
  refine ⟨lex_eq pattern, fun n x hx => ?_, fun tokens htokens => ?_⟩
  · obtain ⟨spans, pending, rest, hconsumed⟩ := hx.exists_consumed
    refine ⟨hx.le_position, ⟨spans.flatten ++ pending, rest, ?_, hconsumed.position⟩, ⟨_, _, _, hconsumed⟩,
      fun b hb => ⟨hconsumed.step_ne_fallback hb, fun y hy => position_lt_of_step hy⟩⟩
    rw [List.append_assoc, hconsumed.append]
  · obtain ⟨x, hrun, rfl⟩ := exists_of_map htokens
    obtain ⟨n, hx, hend⟩ := Reaches.start.exists_run hrun
    obtain ⟨spans, pending, rest, hconsumed⟩ := hx.exists_consumed
    obtain rfl := hconsumed.rest_eq_nil hend
    obtain ⟨spans, hflush⟩ := hconsumed.flush
    have hpattern : spans.flatten = pattern := by simpa using hflush.append
    have hspans : Token.Spans x.flush.tokens spans [] := hflush.tokens
    refine ⟨spans, hpattern, hspans, fun span hspan => hspans.ne_nil_of_mem hspan, fun start f hf => ?_,
      fun t c ht hc => hpattern ▸ hspans.mem_flatten ht hc⟩
    have hbrace := hspans.getElem?_of_field hf
    rwa [List.append_nil, hpattern] at hbrace

/-- An escaped character of two bytes stands in front of a placeholder. -/
theorem lex_partitions_escaped :
    let pattern := "\\é\x7bn:d\x7d".toList
    let tokens := [.literal ['é'], .field 3 ⟨['n'], some ['d']⟩]
    (Reaches pattern 1 ⟨3, ['é'], []⟩ ∧
      ∃ before behind, before ++ behind = pattern ∧ utf8Length before = 3) ∧
    lex pattern = .ok tokens ∧ ∃ spans, spans.flatten = pattern ∧ Token.Spans tokens spans [] := by
  intro pattern tokens
  obtain ⟨heq, hreached, hspans⟩ := lex_partitions pattern
  have hstep : Reaches pattern 1 ⟨3, ['é'], []⟩ :=
    .step .start (b := '\\'.toUInt8) (by decide +kernel) (by decide +kernel)
  have hlex : lex pattern = .ok tokens := by
    rw [heq]
    decide +kernel
  obtain ⟨-, hboundary, -⟩ := hreached 1 _ hstep
  obtain ⟨spans, hflatten, htokens, -⟩ := hspans _ hlex
  exact ⟨⟨hstep, hboundary⟩, hlex, spans, hflatten, htokens⟩

end Lexer

end StepLink
