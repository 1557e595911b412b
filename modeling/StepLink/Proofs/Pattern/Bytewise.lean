import StepLink.Pattern.Lexer
import StepLink.Proofs.Pattern.Grammar
import StepLink.Proofs.Text.Bytes

/-! One iteration of the loop over the bytes of a pattern. All characters by which it tells how to go on are of the
ASCII range, as are those by which a placeholder is read. So from the start of a character on, the bytes are read as
the characters are, and what the iteration consumes is the spelling of one piece. -/

namespace StepLink

open Text

namespace Lexer

variable {bytes : List UInt8} {offset index start : Nat} {t name blanks rest pattern : Text} {p : Char → Bool}
  {malformed unclosed : Stop} {b : UInt8}

theorem isAsciiProperty_isNameChar : IsAsciiProperty Field.isNameChar := by
  refine isAsciiProperty_of_lt fun c hc => ?_
  rw [Field.isNameChar, Char.isAlphanum, Bool.or_assoc, Bool.or_eq_true, Bool.or_eq_true] at hc
  rcases hc with halpha | hdigit | hunderscore
  · exact toNat_lt_of_isAlpha halpha
  · exact (Char.isDigit_iff_toNat.mp hdigit).2.trans_lt (by decide)
  · rw [eq_of_beq hunderscore]
    decide

theorem isAsciiProperty_isAsciiBlank : IsAsciiProperty Text.isAsciiBlank := by
  refine isAsciiProperty_of_lt fun c hc => ?_
  simp only [Text.isAsciiBlank, Bool.or_eq_true, beq_iff_eq] at hc
  rcases hc with (((rfl | rfl) | rfl) | rfl) | rfl <;> decide

theorem isAsciiProperty_opens : IsAsciiProperty Field.opens := by
  refine isAsciiProperty_of_lt fun c hc => ?_
  simp only [Field.opens, Bool.or_eq_true, beq_iff_eq] at hc
  rcases hc with ((halpha | rfl) | rfl) | rfl
  · exact toNat_lt_of_isAlpha halpha
  all_goals decide

theorem bytesFrom_eq (h : StandsAt bytes offset t) : bytesFrom bytes offset = .ok (Text.bytes t) := by
  rw [bytesFrom, if_pos h.le, h.drop_eq]

theorem runAt_eq (h : StandsAt bytes offset t) (hp : IsAsciiProperty p) :
    runAt p bytes offset = .ok (Text.bytes (t.takeWhile p)) := by
  rw [runAt, bytesFrom_eq h, ← takeWhile_bytes hp]
  rfl

theorem readRun_eq (h : StandsAt bytes offset t) (hp : IsAsciiProperty p) :
    readRun p bytes offset = .ok (t.takeWhile p, offset + utf8Length (t.takeWhile p)) := by
  rw [readRun, runAt_eq h hp, ← length_bytes]
  simp only [bind, Except.bind, ofBytes?_bytes, orFallback]

theorem skipBlanks_eq (h : StandsAt bytes offset t) :
    skipBlanks bytes offset = .ok (offset + utf8Length (t.takeWhile Text.isAsciiBlank)) := by
  rw [skipBlanks, runAt_eq h isAsciiProperty_isAsciiBlank, ← length_bytes]
  rfl

/-- Bytes that are no braces are passed over. -/
theorem findClosing_append (h : ∀ b ∈ bytes, b ≠ '{'.toUInt8 ∧ b ≠ '}'.toUInt8) (depth offset : Nat)
    (rest : List UInt8) :
    findClosing depth offset (bytes ++ rest) = findClosing depth (offset + bytes.length) rest := by
  induction bytes generalizing offset with
  | nil => rfl
  | cons b bytes ih =>
    obtain ⟨⟨hopening, hclosing⟩, hbytes⟩ := List.forall_mem_cons.mp h
    rw [List.cons_append, findClosing, if_neg hopening, if_neg hclosing, ih hbytes, List.length_cons,
      Nat.add_comm bytes.length, Nat.add_assoc]

theorem findClosing_bytes (depth offset : Nat) (t : Text) : findClosing depth offset (Text.bytes t) =
    .ok ((Field.cutBalanced depth t).map fun cut => offset + utf8Length cut.1 - 1) := by
  -- The offset counts from the front, while a cut grows at its front.
  have hmap : ∀ (c : Char) {f : Text × Text → Text × Text} (offset : Nat) (found : Option (Text × Text)),
      (∀ cut, (f cut).1 = c :: cut.1) → found.map (fun cut => offset + c.utf8Size + utf8Length cut.1 - 1) =
        (found.map f).map fun cut => offset + utf8Length cut.1 - 1 := by
    intro c f offset found hf
    rw [Option.map_map]
    refine Option.map_congr fun cut _ => ?_
    rw [Function.comp_apply, hf, utf8Length_cons, Nat.add_assoc]
  induction t generalizing depth offset with
  | nil => rfl
  | cons c t ih =>
    by_cases hopening : c = '{'
    · rw [hopening, bytes_cons_of_lt (by decide), findClosing, if_pos rfl, ih, Field.cutBalanced_opening]
      exact congrArg Except.ok (hmap '{' offset _ fun _ => rfl)
    by_cases hclosing : c = '}'
    · rw [hclosing, bytes_cons_of_lt (by decide), findClosing, if_neg (by decide), if_pos rfl]
      cases depth with
      | zero => rfl
      | succ depth =>
        rw [if_neg (Nat.succ_ne_zero _), Nat.ppred_succ, Field.cutBalanced_closing]
        exact (ih depth (offset + 1)).trans (congrArg Except.ok (hmap '}' offset _ fun _ => rfl))
    have hothers : ∀ b ∈ String.utf8EncodeChar c, b ≠ '{'.toUInt8 ∧ b ≠ '}'.toUInt8 := fun b hb =>
      ⟨ne_toUInt8_of_mem (by decide) hopening hb, ne_toUInt8_of_mem (by decide) hclosing hb⟩
    rw [bytes_cons, findClosing_append hothers, String.length_utf8EncodeChar, ih,
      Field.cutBalanced_other hopening hclosing]
    exact congrArg Except.ok (hmap c offset _ fun _ => rfl)

theorem readTail_colon (h : StandsAt bytes index (':' :: t)) : readTail bytes index malformed unclosed =
    if (t.takeWhile (· != '}')).isEmpty || (t.takeWhile (· != '}')).any Field.isBarredFromTag then .error malformed
    else .ok (some (t.takeWhile (· != '}')), index + 1 + utf8Length (t.takeWhile (· != '}'))) := by
  have htag : StandsAt bytes (index + 1) t := h.append (s := [':'])
  have hp : IsAsciiProperty (· != '}') := (isAsciiProperty_beq (by decide)).not
  rw [readTail, if_pos ((h.getElem?_eq_iff (by decide)).mpr rfl), readRun_eq htag hp]
  rfl

theorem readTail_other (h : StandsAt bytes index t) (ht : t.head? ≠ some ':') :
    readTail bytes index malformed unclosed =
      match Field.cutBalanced 0 t with
      | none => .error unclosed
      | some (inside, _) => .ok (none, index + utf8Length inside - 1) := by
  rw [readTail, if_neg (mt (h.getElem?_eq_iff (by decide)).mp ht), bytesFrom_eq h]
  simp only [bind, Except.bind, findClosing_bytes]
  cases Field.cutBalanced 0 t <;> rfl

/-- What is read on the characters behind a brace at byte `start`: the placeholder, and the offset behind it. -/
def fieldAt (start : Nat) (t : Text) : Except Stop (Field × Nat) :=
  ((Field.read start t).map fun (f, spelling, _) => (f, start + 1 + utf8Length spelling)).mapError .fault

/-- The name and the blanks behind it are read on the bytes as they are on the characters. -/
theorem readField_parts (h : StandsAt bytes (start + 1) t) (hparts : Field.Parts t name blanks rest) :
    readField bytes start =
      if blanks ≠ [] ∧ (rest.head? = some ':' ∨ rest.head? = some '}') then
        .error (.fault ⟨.malformed, start, some name⟩)
      else
        (readTail bytes (start + 1 + utf8Length name + utf8Length blanks) (.fault ⟨.malformed, start, some name⟩)
          (.fault ⟨.unclosed, start, some name⟩)).bind fun (tag, closing) =>
            if bytes[closing]? = some '}'.toUInt8 then .ok (⟨name, tag⟩, closing + 1)
            else .error (.fault ⟨.unclosed, start, some name⟩) := by
  have hname := h.dropWhile Field.isNameChar
  rw [hparts.takeWhile_name, hparts.dropWhile_name] at hname
  have hrest := hname.append
  have hcolon := hrest.getElem?_eq_iff (a := ':') (by decide)
  have hclosing := hrest.getElem?_eq_iff (a := '}') (by decide)
  have hblank : start + 1 + utf8Length name + utf8Length blanks ≠ start + 1 + utf8Length name ↔ blanks ≠ [] := by
    rw [ne_eq, Nat.add_eq_left, utf8Length_eq_zero]
  rw [readField, readRun_eq h isAsciiProperty_isNameChar, hparts.takeWhile_name]
  simp only [bind, Except.bind, skipBlanks_eq hname, hparts.takeWhile_blanks, hcolon, hclosing, hblank]

theorem readField_colon (h : StandsAt bytes (start + 1) (name ++ ':' :: t))
    (hname : ∀ c ∈ name, Field.isNameChar c = true) :
    readField bytes start = fieldAt start (name ++ ':' :: t) := by
  have hparts := Field.parts_colon hname t
  have hcolon : StandsAt bytes (start + 1 + utf8Length name + utf8Length []) (':' :: t) := h.append
  have ht : StandsAt bytes (start + 1 + utf8Length name + utf8Length [] + 1) t := hcolon.append (s := [':'])
  have hbrace := (ht.dropWhile (· != '}')).getElem?_eq_iff (a := '}') (by decide)
  rw [readField_parts h hparts, if_neg (by simp), readTail_colon hcolon, fieldAt, Field.read_colon start hname]
  generalize t.takeWhile (· != '}') = tag at *
  by_cases hbarred : (tag.isEmpty || tag.any Field.isBarredFromTag) = true
  · rw [if_pos hbarred, if_pos hbarred]
    rfl
  rw [if_neg hbarred, if_neg hbarred, Except.bind]
  dsimp only
  cases hdrop : t.dropWhile (· != '}') with
  | nil =>
    rw [hdrop] at hbrace
    rw [if_neg (mt hbrace.mp (by simp))]
    rfl
  | cons c behind =>
    have hc : c = '}' := by
      simpa using not_of_mem_head?_dropWhile (hdrop ▸ rfl : c ∈ (t.dropWhile (· != '}')).head?)
    have hlength : utf8Length (name ++ ':' :: tag ++ ['}']) = utf8Length name + (1 + utf8Length tag) + 1 := by
      rw [utf8Length_append, utf8Length_append]
      rfl
    rw [hdrop, hc] at hbrace
    rw [if_pos (hbrace.mpr rfl), hc]
    refine congrArg (fun position => Except.ok (_, position)) ?_
    rw [hlength, utf8Length_nil]
    omega

theorem readField_other (h : StandsAt bytes (start + 1) t) (hparts : Field.Parts t name blanks rest)
    (hcolon : rest.head? ≠ some ':') (hclosing : blanks ≠ [] → rest.head? ≠ some '}') :
    readField bytes start = fieldAt start t := by
  have hrest : StandsAt bytes (start + 1 + utf8Length name + utf8Length blanks) rest := by
    rw [← hparts.append] at h
    exact h.append.append
  rw [readField_parts h hparts, if_neg fun hbad => hbad.2.elim hcolon (hclosing hbad.1), readTail_other hrest hcolon,
    fieldAt, hparts.read_other start hcolon hclosing]
  cases hcut : Field.cutBalanced 0 rest with
  | none => rfl
  | some cut =>
    obtain ⟨inside, behind⟩ := cut
    obtain ⟨s, rfl, -⟩ := Field.exists_of_cutBalanced hcut
    have happend := Field.append_of_cutBalanced hcut
    rw [List.append_assoc] at happend
    rw [← happend] at hrest
    have hbrace := hrest.append.getElem?_eq_iff (a := '}') (by decide)
    have hlength : utf8Length (s ++ ['}']) = utf8Length s + 1 := utf8Length_append s ['}']
    rw [Except.bind]
    dsimp only
    rw [hlength, ← Nat.add_assoc, Nat.add_sub_cancel, if_pos (hbrace.mpr rfl)]
    refine congrArg (fun position => Except.ok (_, position)) ?_
    rw [utf8Length_append, utf8Length_append, hlength]
    omega

/-- A placeholder is read on the bytes as it is on the characters. -/
theorem readField_eq (h : StandsAt bytes (start + 1) t) : readField bytes start = fieldAt start t := by
  obtain ⟨name, blanks, rest, hparts⟩ := Field.exists_parts t
  rcases hparts.cases with ⟨hne, hrest⟩ | ⟨u, rfl⟩ | ⟨hcolon, hclosing⟩
  · rw [readField_parts h hparts, if_pos ⟨hne, hrest⟩, fieldAt, hparts.read_blanks start hne hrest]
    rfl
  · exact readField_colon h hparts.name
  · exact readField_other h hparts hcolon hclosing

/-! ### Pieces -/

/-- What a piece that is spelled in `size` bytes does to the state. -/
def absorb (x : Lexer) (p : Piece) (size : Nat) : Lexer :=
  match p with
  | .letter c => x.push c (x.position + size)
  | .field f => x.emit (.field x.position f) (x.position + size)
  | .opening => x.emit (.openBrace x.position) (x.position + size)
  | .closing => x.emit (.closeBrace x.position) (x.position + size)

/-- What an iteration does on the characters: it reads a piece. -/
def stepPiece (x : Lexer) (c : Char) (t : Text) : Except Stop Lexer :=
  ((Piece.read x.position c t).map fun (p, spelling, _) => x.absorb p (utf8Length spelling)).mapError .fault

theorem exists_of_stepPiece_ok {x y : Lexer} {c : Char} (h : x.stepPiece c t = .ok y) : ∃ p spelling behind,
    Piece.read x.position c t = .ok (p, spelling, behind) ∧ x.absorb p (utf8Length spelling) = y := by
  rw [stepPiece] at h
  cases hread : Piece.read x.position c t with
  | error e =>
    rw [hread] at h
    cases h
  | ok read =>
    rw [hread] at h
    exact ⟨_, _, _, rfl, Except.ok.inj h⟩

/-- The only faults are those of placeholders. -/
theorem exists_of_stepPiece_error {x : Lexer} {c : Char} {stop : Stop} (h : x.stepPiece c t = .error stop) :
    ∃ e, Piece.read x.position c t = .error e ∧ .fault e = stop := by
  rw [stepPiece] at h
  cases hread : Piece.read x.position c t with
  | error e =>
    rw [hread] at h
    exact ⟨e, rfl, Except.error.inj h⟩
  | ok read =>
    rw [hread] at h
    cases h

section

variable {x : Lexer} {before : Text} {c : Char} (hx : utf8Length before = x.position)

include hx

theorem standsAt_position (t : Text) : StandsAt (Text.bytes (before ++ t)) x.position t :=
  hx ▸ standsAt_utf8Length before t

theorem step_backslash (t : Text) : step (before ++ '\\' :: t) x '\\'.toUInt8 = x.stepPiece '\\' t := by
  have hbehind : fromByte? (x.position + 1) (before ++ '\\' :: t) = some t := by
    have hfrom := fromByte?_utf8Length (before ++ ['\\']) t
    rwa [utf8Length_append, hx, List.append_assoc] at hfrom
  simp only [step, hbehind, ↓reduceIte]
  cases t with
  | nil => rfl
  | cons d t => exact congrArg (fun position => Except.ok (x.push d position)) (Nat.add_assoc _ _ _)

theorem step_opening (t : Text) : step (before ++ '{' :: t) x '{'.toUInt8 = x.stepPiece '{' t := by
  have ht : StandsAt (Text.bytes (before ++ '{' :: t)) (x.position + 1) t :=
    (standsAt_position hx _).append (s := ['{'])
  have hdoubled := ht.getElem?_eq_iff (a := '{') (by decide)
  have hbyte : '{'.toUInt8 ≠ '\\'.toUInt8 := by decide
  have hchar : '{' ≠ '\\' := by decide
  simp only [step, stepPiece, Piece.read, if_neg hbyte, if_neg hchar, ↓reduceIte, hdoubled,
    ht.any_getElem? isAsciiProperty_opens]
  cases t with
  | nil => rfl
  | cons d u =>
    simp only [List.head?_cons, Option.some.injEq, Option.any_some]
    by_cases hd : d = '{'
    · subst hd
      rw [if_pos rfl, if_pos rfl]
      rfl
    rw [if_neg hd, if_neg hd]
    by_cases hopens : Field.opens d = true
    · simp only [hopens, ↓reduceIte, readField_eq ht, fieldAt]
      cases Field.read x.position (d :: u) with
      | error e => rfl
      | ok read =>
        exact congrArg (fun position => Except.ok (x.emit (.field x.position read.1) position)) (Nat.add_assoc _ _ _)
    · simp only [hopens]
      rfl

theorem step_closing (t : Text) : step (before ++ '}' :: t) x '}'.toUInt8 = x.stepPiece '}' t := by
  have ht : StandsAt (Text.bytes (before ++ '}' :: t)) (x.position + 1) t :=
    (standsAt_position hx _).append (s := ['}'])
  have hdoubled := ht.getElem?_eq_iff (a := '}') (by decide)
  have hbyte : '}'.toUInt8 ≠ '\\'.toUInt8 ∧ '}'.toUInt8 ≠ '{'.toUInt8 := by decide
  have hchar : '}' ≠ '\\' ∧ '}' ≠ '{' := by decide
  simp only [step, stepPiece, Piece.read, if_neg hbyte.1, if_neg hbyte.2, if_neg hchar.1, if_neg hchar.2, ↓reduceIte,
    hdoubled]
  cases t with
  | nil => rfl
  | cons d u =>
    simp only [List.head?_cons, Option.some.injEq]
    by_cases hd : d = '}'
    · subst hd
      rw [if_pos rfl, if_pos rfl]
      rfl
    · rw [if_neg hd, if_neg hd]
      rfl

theorem step_other (t : Text) (hb : b ≠ '\\'.toUInt8 ∧ b ≠ '{'.toUInt8 ∧ b ≠ '}'.toUInt8)
    (hc : c ≠ '\\' ∧ c ≠ '{' ∧ c ≠ '}') : step (before ++ c :: t) x b = x.stepPiece c t := by
  have hhere : fromByte? x.position (before ++ c :: t) = some (c :: t) := hx ▸ fromByte?_utf8Length before (c :: t)
  unfold step stepPiece Piece.read
  rw [if_neg hc.1, if_neg hc.2.1, if_neg hc.2.2]
  dsimp only
  rw [if_neg hb.1, if_neg hb.2.1, if_neg hb.2.2, hhere]
  rfl

/-- At the start of a character, an iteration reads the piece there. -/
theorem step_eq (hpattern : before ++ c :: t = pattern) (hb : (Text.bytes pattern)[x.position]? = some b) :
    step pattern x b = x.stepPiece c t := by
  subst hpattern
  -- The byte tells apart the three characters with a meaning and all others, of which it may be a part only.
  have hbyte : ∀ {a : Char}, a.toNat < 0x80 → (b = a.toUInt8 ↔ c = a) := by
    intro a ha
    have hiff := (standsAt_position hx (c :: t)).getElem?_eq_iff ha
    rwa [hb, Option.some.injEq, List.head?_cons, Option.some.injEq] at hiff
  have hslash := hbyte (a := '\\') (by decide)
  have hopening := hbyte (a := '{') (by decide)
  have hclosing := hbyte (a := '}') (by decide)
  by_cases hc : c ≠ '\\' ∧ c ≠ '{' ∧ c ≠ '}'
  · exact step_other hx t ⟨mt hslash.mp hc.1, mt hopening.mp hc.2.1, mt hclosing.mp hc.2.2⟩ hc
  rcases (by tauto : c = '\\' ∨ c = '{' ∨ c = '}') with rfl | rfl | rfl
  · rw [hslash.mpr rfl, step_backslash hx]
  · rw [hopening.mpr rfl, step_opening hx]
  · rw [hclosing.mpr rfl, step_closing hx]

end

end Lexer

end StepLink
