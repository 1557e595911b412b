import StepLink.Proofs.Pattern.Grammar
import StepLink.Proofs.Text.Bytes

/-! Where a pattern is at fault. The first placeholder that has no spelling is reported at its opening brace, and the
first stray brace that closes nothing at itself. A stray brace that nothing closes is only noticed at the end of the
pattern, and that end is what is reported. -/

namespace StepLink

open Text

variable {pattern t : Text} {e : BraceError} {start : Nat}

namespace Field

/-- A placeholder that cannot be read is reported at its opening brace. -/
theorem fault_of_read_error (h : read start t = .error e) :
    (e.fault = .malformed ∨ e.fault = .unclosed) ∧ e.position = start := by
  simp only [read] at h
  split at h
  · cases h
    exact ⟨.inl rfl, rfl⟩
  · split at h
    · split at h
      · cases h
        exact ⟨.inl rfl, rfl⟩
      · split at h
        · cases h
          exact ⟨.inr rfl, rfl⟩
        · cases h
    · split at h
      · cases h
        exact ⟨.inr rfl, rfl⟩
      · cases h

end Field

namespace Piece

/-- A text is cut into pieces from left to right, in front of what stands behind it. -/
inductive CutBefore (behind : Text) : Nat → Text → List (Nat × Piece) → Prop
  | nil (start : Nat) : CutBefore behind start [] []
  | cons {start : Nat} {p : Piece} {spelling rest : Text} {entries : List (Nat × Piece)}
      (hp : p.Spelling spelling (rest ++ behind))
      (hrest : CutBefore behind (start + Text.utf8Length spelling) rest entries) :
      CutBefore behind start (spelling ++ rest) ((start, p) :: entries)

/-- Of all pieces only placeholders can be wrong. -/
theorem of_read_error {c : Char} (h : Piece.read start c t = .error e) :
    c = '{' ∧ t.head?.any Field.opens = true ∧ Field.read start t = .error e := by
  unfold Piece.read at h
  split at h
  · split at h <;> cases h
  · split at h
    next hopening =>
      split at h
      · cases h
      · split at h
        · cases h
        · split at h
          next hopens =>
            split at h
            next hread =>
              cases h
              exact ⟨hopening, hopens, hread⟩
            · cases h
          · cases h
    · split at h
      · split at h
        · cases h
        · split at h <;> cases h
      · cases h

/-- Where a text cannot be cut any further, there is a placeholder that cannot be read. -/
theorem exists_of_readAll_error {start : Nat} {t : Text} (h : readAll start t = .error e) :
    ∃ before behind entries, before ++ '{' :: behind = t ∧ CutBefore ('{' :: behind) start before entries ∧
      behind.head?.any Field.opens = true ∧ Field.read (start + utf8Length before) behind = .error e := by
  match t with
  | [] =>
    rw [readAll] at h
    cases h
  | c :: t =>
    rw [readAll_cons] at h
    cases hread : Piece.read start c t with
    | error e =>
      rw [hread] at h
      cases h
      obtain ⟨rfl, hopens, hfield⟩ := of_read_error hread
      exact ⟨[], t, [], rfl, .nil _, hopens, hfield⟩
    | ok read =>
      obtain ⟨p, spelling, rest⟩ := read
      obtain ⟨hp, hcons⟩ := read_iff.mp hread
      rw [hread, Except.bind] at h
      dsimp only at h
      cases hrest : readAll (start + utf8Length spelling) rest with
      | error e =>
        rw [hrest] at h
        cases h
        obtain ⟨before, behind, entries, rfl, hcut, hopens, hfield⟩ := exists_of_readAll_error hrest
        refine ⟨spelling ++ before, behind, (start, p) :: entries, ?_, .cons hp hcut, hopens, ?_⟩
        · rw [hcons, List.append_assoc]
        · rwa [utf8Length_append, ← Nat.add_assoc]
      | ok entries =>
        rw [hrest] at h
        cases h
termination_by t.length
decreasing_by exact length_rest_lt hread

/-- Every piece of a cut is spelled at its byte. -/
theorem Cut.exists_of_mem {p : Piece} {position : Nat} {entries : List (Nat × Piece)} (h : Cut start t entries)
    (hmem : (position, p) ∈ entries) : ∃ before spelling rest, before ++ (spelling ++ rest) = t ∧
      start + utf8Length before = position ∧ p.Spelling spelling rest := by
  induction h with
  | nil => cases hmem
  | @cons start q spelling rest entries hq hrest ih =>
    rcases List.mem_cons.mp hmem with heq | hmem
    · cases heq
      exact ⟨[], spelling, rest, rfl, rfl, hq⟩
    · obtain ⟨before, inner, behind, rfl, hposition, hp⟩ := ih hmem
      refine ⟨spelling ++ before, inner, behind, List.append_assoc _ _ _, ?_, hp⟩
      rw [utf8Length_append, ← Nat.add_assoc, hposition]

end Piece

/-! ### Stray braces -/

namespace Token

/-- Why stray braces do not balance if `depth` of them are open in front of the pieces. -/
inductive Imbalance (size : Nat) : Nat → List (Nat × Piece) → BraceError → Prop
  | unmatched {depth start : Nat} {before behind : List (Nat × Piece)}
      (hbefore : Closes Piece.opening Piece.closing depth (before.map Prod.snd)) :
      Imbalance size depth (before ++ (start, .closing) :: behind) ⟨.unmatched, start, none⟩
  | unclosed {depth start : Nat} {before behind : List (Nat × Piece)}
      (hbehind : Closes Piece.opening Piece.closing 0 (behind.map Prod.snd)) :
      Imbalance size depth (before ++ (start, .opening) :: behind) ⟨.unbalanced, size, none⟩
  | left {depth closed : Nat} {entries : List (Nat × Piece)} (hclosed : closed < depth)
      (h : Closes Piece.opening Piece.closing closed (entries.map Prod.snd)) :
      Imbalance size depth entries ⟨.unbalanced, size, none⟩

variable {size depth : Nat} {entries : List (Nat × Piece)} {p : Piece}

theorem Imbalance.cons_other (h : Imbalance size depth entries e) (hp : p ≠ .opening ∧ p ≠ .closing) :
    Imbalance size depth ((start, p) :: entries) e := by
  cases h with
  | unmatched hbefore =>
    rw [← List.cons_append]
    exact .unmatched ((closes_cons_other hp.1 hp.2).mpr hbefore)
  | unclosed hbehind =>
    rw [← List.cons_append]
    exact .unclosed hbehind
  | left hclosed h => exact .left hclosed ((closes_cons_other hp.1 hp.2).mpr h)

theorem Imbalance.cons_opening (h : Imbalance size (depth + 1) entries e) :
    Imbalance size depth ((start, .opening) :: entries) e := by
  cases h with
  | unmatched hbefore =>
    rw [← List.cons_append]
    exact .unmatched ((closes_cons_opening (by decide)).mpr hbefore)
  | unclosed hbehind =>
    rw [← List.cons_append]
    exact .unclosed hbehind
  | @left closed _ hclosed h =>
    -- If the pieces close no brace in front of them, the one that is opened here is not closed either.
    cases closed with
    | zero => exact (.unclosed h : Imbalance size depth ([] ++ (start, .opening) :: entries) _)
    | succ closed =>
      exact .left (Nat.lt_of_succ_lt_succ hclosed) ((closes_cons_opening (by decide)).mpr h)

theorem Imbalance.cons_closing (h : Imbalance size depth entries e) :
    Imbalance size (depth + 1) ((start, .closing) :: entries) e := by
  cases h with
  | unmatched hbefore =>
    rw [← List.cons_append]
    exact .unmatched ((closes_cons_closing (by decide)).mpr hbefore)
  | unclosed hbehind =>
    rw [← List.cons_append]
    exact .unclosed hbehind
  | left hclosed h => exact .left (Nat.succ_lt_succ hclosed) ((closes_cons_closing (by decide)).mpr h)

theorem imbalance_of_checkBraces (h : checkBraces size depth (gather entries) = .error e) :
    Imbalance size depth entries e := by
  induction entries generalizing depth with
  | nil =>
    rw [gather] at h
    cases depth with
    | zero => cases h
    | succ depth =>
      cases h
      exact .left (Nat.succ_pos depth) (closes_nil.mpr rfl)
  | cons entry entries ih =>
    obtain ⟨start, p⟩ := entry
    cases p with
    | letter c =>
      rw [checkBraces_gather_letter] at h
      exact (ih h).cons_other (by simp)
    | field f =>
      rw [gather, checkBraces_field] at h
      exact (ih h).cons_other (by simp)
    | opening =>
      rw [gather, checkBraces] at h
      exact (ih h).cons_opening
    | closing =>
      rw [gather] at h
      cases depth with
      | zero =>
        cases h
        exact (.unmatched (closes_nil.mpr rfl) : Imbalance size 0 ([] ++ (start, .closing) :: entries) _)
      | succ depth =>
        rw [checkBraces] at h
        exact (ih h).cons_closing

end Token

namespace Pattern

/-- The brace that is at fault, with the byte at which it stands. -/
inductive AtFault (pattern : Text) : BraceFault → Nat → Char → Prop
  /-- It opens the first placeholder that has no spelling. -/
  | placeholder {fault : BraceFault} {before behind : Text} {entries : List (Nat × Piece)}
      (hfault : fault = .malformed ∨ fault = .unclosed) (happend : before ++ '{' :: behind = pattern)
      (hbefore : Piece.CutBefore ('{' :: behind) 0 before entries) (hopens : behind.head?.any Field.opens = true)
      (hnone : ¬∃ (f : Field) (spelling rest : Text), f.Spelling spelling ∧ behind = spelling ++ rest) :
      AtFault pattern fault (utf8Length before) '{'
  /-- It is a stray brace, and those in front of it close all that they open. -/
  | unmatched {start : Nat} {before behind : List (Nat × Piece)}
      (hcut : Piece.Cut 0 pattern (before ++ (start, .closing) :: behind))
      (hbefore : Closes Piece.opening Piece.closing 0 (before.map Prod.snd)) : AtFault pattern .unmatched start '}'
  /-- It is a stray brace, and those behind it close no more than what they open themselves. -/
  | unbalanced {start : Nat} {before behind : List (Nat × Piece)}
      (hcut : Piece.Cut 0 pattern (before ++ (start, .opening) :: behind))
      (hbehind : Closes Piece.opening Piece.closing 0 (behind.map Prod.snd)) : AtFault pattern .unbalanced start '{'

variable {fault : BraceFault} {position : Nat} {brace : Char}

/-- The brace at fault is the character at its byte. -/
theorem AtFault.exists_append (h : AtFault pattern fault position brace) :
    ∃ before behind, before ++ brace :: behind = pattern ∧ utf8Length before = position := by
  cases h with
  | placeholder _ happend => exact ⟨_, _, happend, rfl⟩
  | unmatched hcut =>
    obtain ⟨before, spelling, rest, happend, hposition, hp⟩ :=
      hcut.exists_of_mem (List.mem_append_right _ List.mem_cons_self)
    cases hp
    exact ⟨before, rest, happend, by omega⟩
  | unbalanced hcut =>
    obtain ⟨before, spelling, rest, happend, hposition, hp⟩ :=
      hcut.exists_of_mem (List.mem_append_right _ List.mem_cons_self)
    cases hp
    exact ⟨before, rest, happend, by omega⟩

theorem AtFault.brace_eq (h : AtFault pattern fault position brace) :
    brace = if fault = .unmatched then '}' else '{' := by
  cases h with
  | placeholder hfault => rcases hfault with rfl | rfl <;> rfl
  | unmatched => rfl
  | unbalanced => rfl

theorem AtFault.toNat_lt (h : AtFault pattern fault position brace) : brace.toNat < 0x80 := by
  cases h <;> decide

theorem AtFault.byte (h : AtFault pattern fault position brace) :
    position < utf8Length pattern ∧ (Text.bytes pattern)[position]? = some brace.toUInt8 := by
  obtain ⟨before, behind, rfl, rfl⟩ := h.exists_append
  refine ⟨?_, ((standsAt_utf8Length _ _).getElem?_eq_iff h.toNat_lt).mpr rfl⟩
  rw [utf8Length_append, utf8Length_cons]
  have hpos := brace.utf8Size_pos
  omega

/-- What is reported: the brace at fault, unless it is a stray one that nothing closes. -/
theorem exists_atFault (h : source pattern = .error e) : ∃ position brace, AtFault pattern e.fault position brace ∧
    e.position = if e.fault = .unbalanced then utf8Length pattern else position := by
  rw [source, Token.ofPattern] at h
  cases hread : Piece.readAll 0 pattern with
  | error e' =>
    rw [hread] at h
    cases h
    obtain ⟨before, behind, entries, happend, hbefore, hopens, hfield⟩ := Piece.exists_of_readAll_error hread
    obtain ⟨hfault, hposition⟩ := Field.fault_of_read_error hfield
    have hnone : ¬∃ (f : Field) (spelling rest : Text), f.Spelling spelling ∧ behind = spelling ++ rest := by
      rintro ⟨f, spelling, rest, hf⟩
      have hread : Field.read (0 + utf8Length before) behind = .ok (f, spelling, rest) := Field.read_iff.mpr hf
      rw [hfield] at hread
      cases hread
    refine ⟨_, _, .placeholder hfault happend hbefore hopens hnone, ?_⟩
    rw [hposition, Nat.zero_add, if_neg]
    rcases hfault with hfault | hfault <;> simp [hfault]
  | ok entries =>
    have hcut := Piece.readAll_iff.mp hread
    rw [hread] at h
    cases hbraces : Token.checkBraces (utf8Length pattern) 0 (Token.gather entries) with
    | error e' =>
      simp only [Except.map, bind, Except.bind, hbraces] at h
      cases h
      cases Token.imbalance_of_checkBraces hbraces with
      | unmatched hbefore => exact ⟨_, _, .unmatched hcut hbefore, rfl⟩
      | unclosed hbehind => exact ⟨_, _, .unbalanced hcut hbehind, rfl⟩
      | left hclosed => exact absurd hclosed (Nat.not_lt_zero _)
    | ok _ =>
      simp only [Except.map, bind, Except.bind, hbraces] at h
      cases h

/-- The brace at fault is reported, except for a stray one that nothing closes: then the end of the pattern is, where
there is no byte. -/
theorem reports_brace_iff (h : source pattern = .error e) :
    (e.fault ≠ .unbalanced ↔ e.position < utf8Length pattern ∧ ∃ brace,
      AtFault pattern e.fault e.position brace ∧ (Text.bytes pattern)[e.position]? = some brace.toUInt8) ∧
    (e.fault = .unbalanced → e.position = utf8Length pattern ∧ ∃ position, position < utf8Length pattern ∧
      AtFault pattern .unbalanced position '{' ∧ (Text.bytes pattern)[position]? = some '{'.toUInt8) := by
  obtain ⟨position, brace, hfault, hposition⟩ := exists_atFault h
  obtain ⟨hlt, hbyte⟩ := hfault.byte
  refine ⟨⟨fun hne => ?_, fun ⟨hlt, _⟩ heq => ?_⟩, fun heq => ?_⟩
  · rw [if_neg hne] at hposition
    rw [hposition]
    exact ⟨hlt, brace, hfault, hbyte⟩
  · rw [hposition, if_pos heq] at hlt
    exact absurd hlt (Nat.lt_irrefl _)
  · rw [if_pos heq] at hposition
    rw [heq] at hfault
    obtain rfl := hfault.brace_eq
    exact ⟨hposition, position, hlt, hfault, hbyte⟩

/-- The placeholder behind a character of two bytes has an empty type tag, and a brace behind it closes nothing. -/
theorem reports_brace_iff_emptyTag :
    let pattern := "é\x7ba:\x7d\x7d".toList
    source pattern = .error ⟨.malformed, 2, some ['a']⟩ ∧ AtFault pattern .malformed 2 '{' ∧
      (Text.bytes pattern)[2]? = some '{'.toUInt8 := by
  intro pattern
  have hsource : source pattern = .error ⟨.malformed, 2, some ['a']⟩ := by decide +kernel
  obtain ⟨-, brace, hfault, hbyte⟩ := (reports_brace_iff hsource).1.mp (by decide)
  obtain rfl := hfault.brace_eq
  exact ⟨hsource, hfault, hbyte⟩

/-- The brace at byte 0 is never closed, but byte 3 is reported, and the pattern has only three bytes. -/
theorem not_reports_brace_unclosed :
    let pattern := "\x7b a".toList
    source pattern = .error ⟨.unbalanced, 3, none⟩ ∧ AtFault pattern .unbalanced 0 '{' ∧
      ¬(3 < utf8Length pattern) ∧ (Text.bytes pattern)[3]? = none := by
  intro pattern
  have hcut : Piece.Cut 0 pattern ([] ++ (0, .opening) :: [(1, .letter ' '), (2, .letter 'a')]) :=
    Piece.readAll_iff.mp (by decide +kernel)
  have hbehind : Closes Piece.opening Piece.closing 0 [.letter ' ', .letter 'a'] :=
    (closes_cons_other (by decide) (by decide)).mpr
      ((closes_cons_other (by decide) (by decide)).mpr (closes_nil.mpr rfl))
  exact ⟨by decide +kernel, .unbalanced hcut hbehind, by decide, by decide⟩

end Pattern

end StepLink
