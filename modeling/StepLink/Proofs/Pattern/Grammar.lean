import Mathlib.Data.List.Basic
import Mathlib.Data.List.TakeWhile
import StepLink.Pattern.Matcher
import StepLink.Proofs.Text.Blank

/-! The grammar of step patterns, told apart from how they are read. A pattern is cut from left to right into
pieces, each of which has its spellings, some of them only in front of certain characters. There is one cut at
most, and the pattern has a written expression exactly if there is one in which the stray braces balance. -/

namespace StepLink

section

variable {α : Type} [DecidableEq α] {opening closing a : α} {depth depth' : Nat} {l l' : List α}

/-- From left to right the list closes what it opens and `depth` openings before it, and nothing else. -/
structure Closes (opening closing : α) (depth : Nat) (l : List α) : Prop where
  total : l.count closing = depth + l.count opening
  before : ∀ n, (l.take n).count closing ≤ depth + (l.take n).count opening

theorem closes_nil : Closes opening closing depth [] ↔ depth = 0 := by
  refine ⟨fun h => ?_, fun h => ⟨?_, fun n => ?_⟩⟩
  · simpa using h.total.symm
  · simp [h]
  · simp

/-- One element leads from one depth to another. -/
theorem closes_cons (h : depth + [a].count opening = depth' + [a].count closing) :
    Closes opening closing depth (a :: l) ↔ Closes opening closing depth' l := by
  have hcount : ∀ b t, (a :: t).count b = [a].count b + t.count b := by
    intro b t
    rw [← List.count_append, List.singleton_append]
  constructor
  · rintro ⟨htotal, hbefore⟩
    refine ⟨?_, fun n => ?_⟩
    · rw [hcount, hcount opening] at htotal
      omega
    · have hn := hbefore (n + 1)
      rw [List.take_succ_cons, hcount, hcount opening] at hn
      omega
  · rintro ⟨htotal, hbefore⟩
    refine ⟨?_, fun n => ?_⟩
    · rw [hcount, hcount opening]
      omega
    · cases n with
      | zero => simp
      | succ n =>
        have hn := hbefore n
        rw [List.take_succ_cons, hcount, hcount opening]
        omega

theorem closes_cons_opening (hne : opening ≠ closing) :
    Closes opening closing depth (opening :: l) ↔ Closes opening closing (depth + 1) l :=
  closes_cons (by simp [hne])

theorem closes_cons_closing (hne : opening ≠ closing) :
    Closes opening closing (depth + 1) (closing :: l) ↔ Closes opening closing depth l :=
  closes_cons (by simp [hne.symm])

theorem not_closes_zero_cons_closing (hne : opening ≠ closing) : ¬Closes opening closing 0 (closing :: l) := by
  intro h
  have hfirst := h.before 1
  simp [hne.symm] at hfirst

theorem closes_cons_other (hopening : a ≠ opening) (hclosing : a ≠ closing) :
    Closes opening closing depth (a :: l) ↔ Closes opening closing depth l :=
  closes_cons (by simp [hopening, hclosing])

theorem closes_append_other (h : ∀ a ∈ l, a ≠ opening ∧ a ≠ closing) :
    Closes opening closing depth (l ++ l') ↔ Closes opening closing depth l' := by
  induction l with
  | nil => rfl
  | cons a l ih =>
    obtain ⟨⟨hopening, hclosing⟩, hl⟩ := List.forall_mem_cons.mp h
    rw [List.cons_append, closes_cons_other hopening hclosing, ih hl]

end

namespace Field

/-- What may stand between a name and the brace that closes the placeholder, if it is no type tag. It does not go
on with the name, its braces balance, and behind its first blanks there is neither a colon nor, if there are such
blanks, the closing brace. So a colon directly behind a name always introduces a type tag. -/
structure IsRemainder (t : Text) : Prop where
  balanced : Closes '{' '}' 0 t
  name : ∀ c ∈ t.head?, isNameChar c = false
  colon : ((t ++ ['}']).dropWhile Text.isAsciiBlank).head? ≠ some ':'
  closing : t.head?.any Text.isAsciiBlank = true →
    ((t ++ ['}']).dropWhile Text.isAsciiBlank).head? ≠ some '}'

/-- How a placeholder is spelled behind its opening brace. -/
inductive Spelling : Field → Text → Prop
  | tagged {name tag : Text} (hname : ∀ c ∈ name, isNameChar c = true) (hsome : tag ≠ [])
      (htag : ∀ c ∈ tag, c ≠ '}' ∧ c ≠ '{' ∧ Text.isAsciiBlank c = false) :
      Spelling ⟨name, some tag⟩ (name ++ ':' :: (tag ++ ['}']))
  | untagged {name t : Text} (hname : ∀ c ∈ name, isNameChar c = true) (ht : IsRemainder t) :
      Spelling ⟨name, none⟩ (name ++ (t ++ ['}']))

variable {f : Field} {name tag t blanks inside rest spelling : Text} {start depth : Nat} {c : Char}

theorem Spelling.isNameChar (h : f.Spelling spelling) : ∀ c ∈ f.name, isNameChar c = true := by
  cases h with
  | tagged hname => exact hname
  | untagged hname => exact hname

theorem Spelling.ne_nil (h : f.Spelling spelling) : spelling ≠ [] := by
  cases h <;> simp

theorem cutBalanced_opening (depth : Nat) (t : Text) : cutBalanced depth ('{' :: t) =
    (cutBalanced (depth + 1) t).map fun (inside, rest) => ('{' :: inside, rest) :=
  rfl

theorem cutBalanced_closing (depth : Nat) (t : Text) : cutBalanced (depth + 1) ('}' :: t) =
    (cutBalanced depth t).map fun (inside, rest) => ('}' :: inside, rest) :=
  rfl

theorem cutBalanced_other (hopening : c ≠ '{') (hclosing : c ≠ '}') (depth : Nat) (t : Text) :
    cutBalanced depth (c :: t) = (cutBalanced depth t).map fun (inside, rest) => (c :: inside, rest) := by
  rw [cutBalanced.eq_def]
  simp only [if_neg hopening, if_neg hclosing]

theorem cutBalanced_append (h : Closes '{' '}' depth t) :
    cutBalanced depth (t ++ '}' :: rest) = some (t ++ ['}'], rest) := by
  induction t generalizing depth with
  | nil =>
    obtain rfl := closes_nil.mp h
    rfl
  | cons c t ih =>
    by_cases hopening : c = '{'
    · subst hopening
      rw [List.cons_append, cutBalanced_opening, ih ((closes_cons_opening (by decide)).mp h)]
      rfl
    by_cases hclosing : c = '}'
    · subst hclosing
      cases depth with
      | zero => exact absurd h (not_closes_zero_cons_closing (by decide))
      | succ depth =>
        rw [List.cons_append, cutBalanced_closing, ih ((closes_cons_closing (by decide)).mp h)]
        rfl
    rw [List.cons_append, cutBalanced_other hopening hclosing, ih ((closes_cons_other hopening hclosing).mp h)]
    rfl

/-- A text is cut behind the brace at which nothing is open any more. -/
theorem exists_of_cutBalanced (h : cutBalanced depth t = some (inside, rest)) :
    ∃ s, inside = s ++ ['}'] ∧ Closes '{' '}' depth s := by
  have hmap : ∀ {c : Char} {found : Option (Text × Text)} {inside : Text},
      (found.map fun (inside, rest) => (c :: inside, rest)) = some (inside, rest) →
        ∃ inner, found = some (inner, rest) ∧ inside = c :: inner := by
    intro c found inside h
    obtain ⟨⟨inner, _⟩, hinner, heq⟩ := Option.map_eq_some_iff.mp h
    cases heq
    exact ⟨inner, hinner, rfl⟩
  induction t generalizing depth inside with
  | nil => cases h
  | cons c t ih =>
    by_cases hopening : c = '{'
    · subst hopening
      obtain ⟨inner, hinner, rfl⟩ := hmap (cutBalanced_opening depth t ▸ h)
      obtain ⟨s, rfl, hs⟩ := ih hinner
      exact ⟨'{' :: s, rfl, (closes_cons_opening (by decide)).mpr hs⟩
    by_cases hclosing : c = '}'
    · subst hclosing
      cases depth with
      | zero =>
        cases h
        exact ⟨[], rfl, closes_nil.mpr rfl⟩
      | succ depth =>
        obtain ⟨inner, hinner, rfl⟩ := hmap (cutBalanced_closing depth t ▸ h)
        obtain ⟨s, rfl, hs⟩ := ih hinner
        exact ⟨'}' :: s, rfl, (closes_cons_closing (by decide)).mpr hs⟩
    obtain ⟨inner, hinner, rfl⟩ := hmap (cutBalanced_other hopening hclosing depth t ▸ h)
    obtain ⟨s, rfl, hs⟩ := ih hinner
    exact ⟨c :: s, rfl, (closes_cons_other hopening hclosing).mpr hs⟩

theorem isBarredFromTag_eq_false_iff :
    isBarredFromTag c = false ↔ c ≠ '{' ∧ Text.isAsciiBlank c = false := by
  rw [isBarredFromTag, Bool.or_eq_false_iff, beq_eq_false_iff_ne, and_comm]

theorem ne_brace_of_isAsciiBlank (h : Text.isAsciiBlank c = true) : c ≠ '{' ∧ c ≠ '}' := by
  constructor
  all_goals
    rintro rfl
    cases h

/-- Behind its blanks a remainder starts as what is left of it. -/
theorem isRemainder_append (hblanks : ∀ c ∈ blanks, Text.isAsciiBlank c = true)
    (hhead : ∀ c ∈ (t ++ ['}']).head?, Text.isAsciiBlank c = false) :
    IsRemainder (blanks ++ t) ↔ Closes '{' '}' 0 t ∧ (∀ c ∈ (blanks ++ t).head?, isNameChar c = false) ∧
      (t ++ ['}']).head? ≠ some ':' ∧ (blanks ≠ [] → (t ++ ['}']).head? ≠ some '}') := by
  have hbalanced : Closes '{' '}' 0 (blanks ++ t) ↔ Closes '{' '}' 0 t :=
    closes_append_other fun c hc => ne_brace_of_isAsciiBlank (hblanks c hc)
  have hdrop : ((blanks ++ t) ++ ['}']).dropWhile Text.isAsciiBlank = t ++ ['}'] := by
    rw [List.append_assoc]
    exact Text.dropWhile_append_of_head hblanks hhead
  have hblank : (blanks ++ t).head?.any Text.isAsciiBlank = true ↔ blanks ≠ [] := by
    cases blanks with
    | cons b blanks => simpa using hblanks b List.mem_cons_self
    | nil =>
      cases t with
      | nil => simp
      | cons c t => simpa using hhead c rfl
  constructor
  · rintro ⟨hcloses, hname, hcolon, hclosing⟩
    rw [hdrop] at hcolon hclosing
    exact ⟨hbalanced.mp hcloses, hname, hcolon, fun hne => hclosing (hblank.mpr hne)⟩
  · rintro ⟨hcloses, hname, hcolon, hclosing⟩
    refine ⟨hbalanced.mpr hcloses, hname, ?_, fun hany => ?_⟩
    · rwa [hdrop]
    · rw [hdrop]
      exact hclosing (hblank.mp hany)

theorem head?_append_closing (t rest : Text) : (t ++ '}' :: rest).head? = (t ++ ['}']).head? := by
  cases t <;> rfl

/-- A text behind an opening brace consists of a name, blanks and the rest, the first two of them as long as can be. -/
structure Parts (t name blanks rest : Text) : Prop where
  append : name ++ (blanks ++ rest) = t
  name : ∀ c ∈ name, isNameChar c = true
  behindName : ∀ c ∈ (blanks ++ rest).head?, isNameChar c = false
  blanks : ∀ c ∈ blanks, Text.isAsciiBlank c = true
  behindBlanks : ∀ c ∈ rest.head?, Text.isAsciiBlank c = false

theorem exists_parts (t : Text) : ∃ name blanks rest, Parts t name blanks rest := by
  have hblanks := List.takeWhile_append_dropWhile (p := Text.isAsciiBlank) (l := t.dropWhile isNameChar)
  refine ⟨t.takeWhile isNameChar, (t.dropWhile isNameChar).takeWhile Text.isAsciiBlank,
    (t.dropWhile isNameChar).dropWhile Text.isAsciiBlank, ?_, fun c hc => List.mem_takeWhile_imp hc, fun c hc => ?_,
    fun c hc => List.mem_takeWhile_imp hc, fun c hc => Text.not_of_mem_head?_dropWhile hc⟩
  · rw [hblanks, List.takeWhile_append_dropWhile]
  · rw [hblanks] at hc
    exact Text.not_of_mem_head?_dropWhile hc

/-- Either blanks stand in front of a colon or a closing brace, or a colon directly behind the name, or neither. -/
theorem Parts.cases (h : Parts t name blanks rest) :
    (blanks ≠ [] ∧ (rest.head? = some ':' ∨ rest.head? = some '}')) ∨ (∃ u, t = name ++ ':' :: u) ∨
      (rest.head? ≠ some ':' ∧ (blanks ≠ [] → rest.head? ≠ some '}')) := by
  by_cases hblanks : blanks = []
  · by_cases hcolon : rest.head? = some ':'
    · obtain ⟨u, rfl⟩ := List.head?_eq_some_iff.mp hcolon
      refine .inr (.inl ⟨u, ?_⟩)
      rw [← h.append, hblanks, List.nil_append]
    · exact .inr (.inr ⟨hcolon, fun hne => absurd hblanks hne⟩)
  · by_cases hrest : rest.head? = some ':' ∨ rest.head? = some '}'
    · exact .inl ⟨hblanks, hrest⟩
    · exact .inr (.inr ⟨fun hcolon => hrest (.inl hcolon), fun _ hclosing => hrest (.inr hclosing)⟩)

section

variable (h : Parts t name blanks rest)

include h

theorem Parts.takeWhile_name : t.takeWhile isNameChar = name := by
  rw [← h.append, Text.takeWhile_append_of_head h.name h.behindName]

theorem Parts.dropWhile_name : t.dropWhile isNameChar = blanks ++ rest := by
  rw [← h.append, Text.dropWhile_append_of_head h.name h.behindName]

theorem Parts.takeWhile_blanks : (blanks ++ rest).takeWhile Text.isAsciiBlank = blanks :=
  Text.takeWhile_append_of_head h.blanks h.behindBlanks

theorem Parts.dropWhile_blanks : (blanks ++ rest).dropWhile Text.isAsciiBlank = rest :=
  Text.dropWhile_append_of_head h.blanks h.behindBlanks

/-- Blanks in front of a colon or a closing brace are an error. -/
theorem Parts.read_blanks (start : Nat) (hne : blanks ≠ [])
    (hrest : rest.head? = some ':' ∨ rest.head? = some '}') :
    read start t = .error ⟨.malformed, start, some name⟩ := by
  simp only [read, h.takeWhile_name, h.dropWhile_name, h.takeWhile_blanks, h.dropWhile_blanks]
  rw [if_pos (by simpa using ⟨hne, hrest⟩)]

theorem Parts.read_other (start : Nat) (hcolon : rest.head? ≠ some ':')
    (hclosing : blanks ≠ [] → rest.head? ≠ some '}') :
    read start t = match cutBalanced 0 rest with
      | none => .error ⟨.unclosed, start, some name⟩
      | some (inside, behind) => .ok (⟨name, none⟩, name ++ blanks ++ inside, behind) := by
  simp only [read, h.takeWhile_name, h.dropWhile_name, h.takeWhile_blanks, h.dropWhile_blanks]
  rw [if_neg (by simpa [hcolon] using hclosing)]
  split
  · exact absurd rfl hcolon
  · rfl

end

theorem parts_colon (hname : ∀ c ∈ name, isNameChar c = true) (t : Text) :
    Parts (name ++ ':' :: t) name [] (':' :: t) :=
  ⟨rfl, hname, fun c hc => Option.some.inj hc ▸ rfl, by simp, fun c hc => Option.some.inj hc ▸ rfl⟩

/-- A colon directly behind a name introduces a type tag. -/
theorem read_colon (start : Nat) (hname : ∀ c ∈ name, isNameChar c = true) (t : Text) :
    read start (name ++ ':' :: t) =
      if (t.takeWhile (· != '}')).isEmpty || (t.takeWhile (· != '}')).any isBarredFromTag then
        .error ⟨.malformed, start, some name⟩
      else
        match t.dropWhile (· != '}') with
        | [] => .error ⟨.unclosed, start, some name⟩
        | c :: rest =>
          .ok (⟨name, some (t.takeWhile (· != '}'))⟩, name ++ ':' :: t.takeWhile (· != '}') ++ [c], rest) := by
  have hparts := parts_colon hname t
  simp only [read, hparts.takeWhile_name, hparts.dropWhile_name, hparts.takeWhile_blanks, hparts.dropWhile_blanks]
  rfl

/-- What is read has its spelling. -/
theorem spelling_of_read (h : read start t = .ok (f, spelling, rest)) : f.Spelling spelling := by
  obtain ⟨name, blanks, behind, hparts⟩ := exists_parts t
  rcases hparts.cases with ⟨hne, hbehind⟩ | ⟨u, rfl⟩ | ⟨hcolon, hclosing⟩
  · rw [hparts.read_blanks start hne hbehind] at h
    cases h
  · rw [read_colon start hparts.name] at h
    split at h
    · cases h
    next htag =>
      split at h
      · cases h
      next c w hw =>
        have hc : c = '}' := by
          simpa using Text.not_of_mem_head?_dropWhile (hw ▸ rfl : c ∈ (u.dropWhile (· != '}')).head?)
        rw [Bool.not_eq_true, Bool.or_eq_false_iff, List.isEmpty_eq_false_iff, List.any_eq_false] at htag
        cases h
        rw [hc, List.append_assoc]
        refine .tagged hparts.name htag.1 fun d hd => ⟨?_, ?_⟩
        · simpa using List.mem_takeWhile_imp hd
        · exact isBarredFromTag_eq_false_iff.mp (Bool.eq_false_iff.mpr (htag.2 d hd))
  · rw [hparts.read_other start hcolon hclosing] at h
    split at h
    · cases h
    next inside w hcut =>
      have hbehind := append_of_cutBalanced hcut
      obtain ⟨s, rfl, hs⟩ := exists_of_cutBalanced hcut
      rw [List.append_assoc] at hbehind
      have hhead : behind.head? = (s ++ ['}']).head? := hbehind ▸ head?_append_closing s w
      cases h
      rw [List.append_assoc, ← List.append_assoc blanks]
      refine .untagged hparts.name ((isRemainder_append hparts.blanks fun c hc => ?_).mpr ⟨hs, fun c hc => ?_, ?_, ?_⟩)
      · exact hparts.behindBlanks c (hhead ▸ hc)
      · refine hparts.behindName c ?_
        rw [← hbehind, ← List.append_assoc]
        exact List.mem_head?_append_of_mem_head? hc
      · rwa [← hhead]
      · rwa [← hhead]

theorem read_tagged (start : Nat) (rest : Text) (hname : ∀ c ∈ name, isNameChar c = true) (hsome : tag ≠ [])
    (htag : ∀ c ∈ tag, c ≠ '}' ∧ c ≠ '{' ∧ Text.isAsciiBlank c = false) :
    read start (name ++ ':' :: (tag ++ '}' :: rest)) =
      .ok (⟨name, some tag⟩, name ++ ':' :: (tag ++ ['}']), rest) := by
  have hclosing : ∀ c ∈ ('}' :: rest).head?, (c != '}') = false := fun c hc => Option.some.inj hc ▸ rfl
  have htag' : ∀ c ∈ tag, (c != '}') = true := fun c hc => by simpa using (htag c hc).1
  have hbarred : (tag.isEmpty || tag.any isBarredFromTag) = false := by
    rw [Bool.or_eq_false_iff, List.isEmpty_eq_false_iff, List.any_eq_false]
    exact ⟨hsome, fun c hc => Bool.eq_false_iff.mp (isBarredFromTag_eq_false_iff.mpr (htag c hc).2)⟩
  rw [read_colon start hname, Text.takeWhile_append_of_head htag' hclosing,
    Text.dropWhile_append_of_head htag' hclosing, hbarred]
  simp

theorem read_untagged (start : Nat) (rest : Text) (hname : ∀ c ∈ name, isNameChar c = true) (ht : IsRemainder t) :
    read start (name ++ (t ++ '}' :: rest)) = .ok (⟨name, none⟩, name ++ (t ++ ['}']), rest) := by
  have hhead : ∀ {p : Char → Bool} {s : Text}, p '}' = false → (∀ c ∈ s.head?, p c = false) →
      ∀ c ∈ (s ++ '}' :: rest).head?, p c = false := by
    intro p s hclosing hs c hc
    cases s with
    | nil => exact Option.some.inj hc ▸ hclosing
    | cons d s => exact hs c hc
  obtain ⟨blanks, s, rfl, hblanks, hs⟩ : ∃ blanks s, t = blanks ++ s ∧
      (∀ c ∈ blanks, Text.isAsciiBlank c = true) ∧ ∀ c ∈ s.head?, Text.isAsciiBlank c = false :=
    ⟨_, _, (List.takeWhile_append_dropWhile (p := Text.isAsciiBlank)).symm, fun c hc => List.mem_takeWhile_imp hc,
      fun c hc => Text.not_of_mem_head?_dropWhile hc⟩
  have hbehind : ∀ c ∈ (s ++ '}' :: rest).head?, Text.isAsciiBlank c = false := hhead rfl hs
  obtain ⟨hcloses, hstart, hcolon, hclosing⟩ :=
    (isRemainder_append hblanks (head?_append_closing s rest ▸ hbehind)).mp ht
  rw [← head?_append_closing s rest] at hcolon hclosing
  have hstart' := hhead (by decide) hstart
  rw [List.append_assoc] at hstart' ⊢
  have hparts : Parts (name ++ (blanks ++ (s ++ '}' :: rest))) name blanks (s ++ '}' :: rest) :=
    ⟨rfl, hname, hstart', hblanks, hbehind⟩
  rw [hparts.read_other start hcolon hclosing, cutBalanced_append hcloses]
  simp

/-- A placeholder is read exactly where it is spelled. -/
theorem read_iff : read start t = .ok (f, spelling, rest) ↔ f.Spelling spelling ∧ t = spelling ++ rest := by
  constructor
  · exact fun h => ⟨spelling_of_read h, (append_of_read h).symm⟩
  · rintro ⟨hspelling, rfl⟩
    cases hspelling with
    | tagged hname hsome htag => simpa using read_tagged start rest hname hsome htag
    | untagged hname ht => simpa using read_untagged start rest hname ht

end Field

/-! ### Pieces -/

namespace Piece

/-- How a piece is spelled in front of what stands behind it. -/
inductive Spelling : Piece → Text → Text → Prop
  /-- A backslash takes the next character with it, whatever it is. -/
  | escaped (c : Char) (rest : Text) : Spelling (.letter c) ['\\', c] rest
  | lastBackslash : Spelling (.letter '\\') ['\\'] []
  | doubledOpening (rest : Text) : Spelling (.letter '{') ['{', '{'] rest
  | doubledClosing (rest : Text) : Spelling (.letter '}') ['}', '}'] rest
  | plain {c : Char} (hc : c ≠ '\\' ∧ c ≠ '{' ∧ c ≠ '}') (rest : Text) : Spelling (.letter c) [c] rest
  | field {f : Field} {spelling : Text} (hopens : spelling.head?.any Field.opens = true)
      (hf : f.Spelling spelling) (rest : Text) : Spelling (.field f) ('{' :: spelling) rest
  | opening {rest : Text} (hrest : ∀ c ∈ rest.head?, c ≠ '{' ∧ Field.opens c = false) :
      Spelling .opening ['{'] rest
  | closing {rest : Text} (hrest : rest.head? ≠ some '}') : Spelling .closing ['}'] rest

variable {p : Piece} {c : Char} {t spelling rest : Text} {start : Nat} {entries : List (Nat × Piece)}

theorem spelling_of_read (h : Piece.read start c t = .ok (p, spelling, rest)) : p.Spelling spelling rest := by
  unfold Piece.read at h
  split at h
  next hslash =>
    subst hslash
    split at h
    · cases h
      exact .lastBackslash
    · cases h
      exact .escaped _ _
  next hslash =>
    split at h
    next hopening =>
      subst hopening
      split at h
      · cases h
        exact .opening fun c hc => by cases hc
      next d u =>
        split at h
        next hdoubled =>
          subst hdoubled
          cases h
          exact .doubledOpening _
        next hdoubled =>
          split at h
          next hopens =>
            split at h
            · cases h
            next hread =>
              cases h
              obtain ⟨hf, hu⟩ := Field.read_iff.mp hread
              refine .field ?_ hf _
              obtain ⟨e, w, rfl⟩ := List.exists_cons_of_ne_nil hf.ne_nil
              cases hu
              exact hopens
          next hopens =>
            cases h
            refine .opening fun c hc => ?_
            cases hc
            exact ⟨hdoubled, Bool.eq_false_iff.mpr hopens⟩
    next hopening =>
      split at h
      next hclosing =>
        subst hclosing
        split at h
        · cases h
          exact .closing fun h => by cases h
        next d u =>
          split at h
          next hdoubled =>
            subst hdoubled
            cases h
            exact .doubledClosing _
          next hdoubled =>
            cases h
            exact .closing fun h => hdoubled (Option.some.inj h)
      next hclosing =>
        cases h
        exact .plain ⟨hslash, hopening, hclosing⟩ _

theorem read_of_spelling (h : p.Spelling spelling rest) (hcons : c :: t = spelling ++ rest) :
    Piece.read start c t = .ok (p, spelling, rest) := by
  cases h with
  | escaped =>
    cases hcons
    rfl
  | lastBackslash =>
    cases hcons
    rfl
  | doubledOpening =>
    cases hcons
    rfl
  | doubledClosing =>
    cases hcons
    rfl
  | plain hc =>
    cases hcons
    simp [Piece.read, hc]
  | field hopens hf =>
    obtain ⟨d, w, rfl⟩ := List.exists_cons_of_ne_nil hf.ne_nil
    have hd : d ≠ '{' := by
      rintro rfl
      cases hopens
    have hopens : Field.opens d = true := hopens
    have hread : Field.read start (d :: (w ++ rest)) = .ok (_, d :: w, rest) := Field.read_iff.mpr ⟨hf, rfl⟩
    cases hcons
    simp [Piece.read, hd, hopens, hread]
  | opening hrest =>
    cases hcons
    cases rest with
    | nil => rfl
    | cons d u =>
      obtain ⟨hd, hopens⟩ := hrest d rfl
      simp [Piece.read, hd, hopens]
  | closing hrest =>
    cases hcons
    cases rest with
    | nil => rfl
    | cons d u =>
      have hd : d ≠ '}' := fun hd => hrest (hd ▸ rfl)
      simp [Piece.read, hd]

/-- A piece is read exactly where it is spelled. -/
theorem read_iff : Piece.read start c t = .ok (p, spelling, rest) ↔
    p.Spelling spelling rest ∧ c :: t = spelling ++ rest :=
  ⟨fun h => ⟨spelling_of_read h, (append_of_read h).1.symm⟩, fun h => read_of_spelling h.1 h.2⟩

theorem Spelling.ne_nil (h : p.Spelling spelling rest) : spelling ≠ [] := by
  cases h <;> exact List.cons_ne_nil _ _

/-- A text is cut into pieces from left to right, each at its byte. -/
inductive Cut : Nat → Text → List (Nat × Piece) → Prop
  | nil (start : Nat) : Cut start [] []
  | cons {start : Nat} {p : Piece} {spelling rest : Text} {entries : List (Nat × Piece)}
      (hp : p.Spelling spelling rest) (hrest : Cut (start + Text.utf8Length spelling) rest entries) :
      Cut start (spelling ++ rest) ((start, p) :: entries)

theorem readAll_cons (start : Nat) (c : Char) (t : Text) : readAll start (c :: t) =
    (Piece.read start c t).bind fun (p, spelling, rest) =>
      (readAll (start + Text.utf8Length spelling) rest).map fun entries => (start, p) :: entries := by
  rw [readAll]
  split
  next e hread => rw [hread]; rfl
  next p spelling rest hread =>
    rw [hread, Except.bind]
    dsimp only
    cases readAll (start + Text.utf8Length spelling) rest <;> rfl

theorem cut_of_readAll {start : Nat} {t : Text} {entries : List (Nat × Piece)}
    (h : readAll start t = .ok entries) : Cut start t entries := by
  match t with
  | [] =>
    rw [readAll] at h
    cases h
    exact .nil start
  | c :: t =>
    rw [readAll] at h
    split at h
    · cases h
    next p spelling rest hread =>
      split at h
      · cases h
      next others hothers =>
        cases h
        obtain ⟨hp, hcons⟩ := read_iff.mp hread
        rw [hcons]
        exact .cons hp (cut_of_readAll hothers)
termination_by t.length
decreasing_by exact length_rest_lt ‹_›

theorem Cut.readAll_eq (h : Cut start t entries) : readAll start t = .ok entries := by
  induction h with
  | nil => rw [readAll]
  | @cons start p spelling rest entries hp hrest ih =>
    obtain ⟨c, u, rfl⟩ := List.exists_cons_of_ne_nil hp.ne_nil
    have hread : Piece.read start c (u ++ rest) = .ok (p, c :: u, rest) := read_iff.mpr ⟨hp, rfl⟩
    rw [List.cons_append, readAll_cons, hread, Except.bind]
    dsimp only
    rw [ih]
    rfl

/-- The pieces that are read are those of the cut. -/
theorem readAll_iff : readAll start t = .ok entries ↔ Cut start t entries :=
  ⟨cut_of_readAll, Cut.readAll_eq⟩

/-- What stands behind a piece decides how it is spelled, so a text can be cut in one way only. -/
theorem Cut.unique {others : List (Nat × Piece)} (h : Cut start t entries) (h' : Cut start t others) :
    entries = others :=
  Except.ok.inj (h.readAll_eq.symm.trans h'.readAll_eq)

/-- A text that is not empty has a first piece. -/
theorem Cut.exists_cons (h : Cut start t entries) (hne : t ≠ []) : ∃ entry others, entries = entry :: others := by
  cases h with
  | nil => exact absurd rfl hne
  | cons => exact ⟨_, _, rfl⟩

end Piece

namespace Token

variable {size depth start : Nat} {tokens : List Token}

theorem checkBraces_literal (size depth : Nat) (t : Text) (tokens : List Token) :
    checkBraces size depth (.literal t :: tokens) = checkBraces size depth tokens := by
  cases depth <;> rfl

theorem checkBraces_field (size depth start : Nat) (f : Field) (tokens : List Token) :
    checkBraces size depth (.field start f :: tokens) = checkBraces size depth tokens := by
  cases depth <;> rfl

/-- Gathering letters changes nothing for the stray braces. -/
theorem checkBraces_gather_letter (size depth start : Nat) (c : Char) (entries : List (Nat × Piece)) :
    checkBraces size depth (gather ((start, .letter c) :: entries)) =
      checkBraces size depth (gather entries) := by
  rw [gather]
  split
  next t tokens hgather => rw [hgather, checkBraces_literal, checkBraces_literal]
  next => rw [checkBraces_literal]

theorem checkBraces_gather_iff (size depth : Nat) (entries : List (Nat × Piece)) :
    checkBraces size depth (gather entries) = .ok () ↔
      Closes Piece.opening Piece.closing depth (entries.map Prod.snd) := by
  induction entries generalizing depth with
  | nil =>
    rw [List.map_nil, closes_nil, gather]
    cases depth <;> simp [checkBraces]
  | cons entry entries ih =>
    obtain ⟨start, p⟩ := entry
    rw [List.map_cons]
    cases p with
    | letter c => rw [checkBraces_gather_letter, ih, closes_cons_other (by simp) (by simp)]
    | field f => rw [gather, checkBraces_field, ih, closes_cons_other (by simp) (by simp)]
    | opening => rw [gather, closes_cons_opening (by decide), ← ih, checkBraces]
    | closing =>
      cases depth with
      | zero =>
        refine ⟨fun h => ?_, fun h => absurd h (not_closes_zero_cons_closing (by decide))⟩
        rw [gather, checkBraces] at h
        cases h
      | succ depth => rw [gather, closes_cons_closing (by decide), ← ih, checkBraces]

end Token

variable {pattern source : Text} {tokens : List Token}

theorem Token.ofPattern_iff :
    ofPattern pattern = .ok tokens ↔ ∃ entries, Piece.Cut 0 pattern entries ∧ gather entries = tokens := by
  simp only [ofPattern, ← Piece.readAll_iff]
  cases Piece.readAll 0 pattern <;> simp [Except.map]

theorem Pattern.source_iff : Pattern.source pattern = .ok source ↔
    ∃ tokens, Token.ofPattern pattern = .ok tokens ∧
      Token.checkBraces (Text.utf8Length pattern) 0 tokens = .ok () ∧
      "(?i)^".toList ++ tokens.flatMap Token.source ++ "$".toList = source := by
  rw [Pattern.source]
  cases Token.ofPattern pattern with
  | error e => simp [bind, Except.bind]
  | ok tokens =>
    cases hbraces : Token.checkBraces (Text.utf8Length pattern) 0 tokens with
    | error e => simp [bind, Except.bind, hbraces]
    | ok u => simp [bind, Except.bind, hbraces]

/-- A pattern has a written expression exactly if it can be cut into pieces among which the stray braces balance,
the braces of placeholders and the literal ones set aside. It can be cut in one way at most, so that nothing is left
to choose: a backslash outside of placeholders takes the next character, a doubled brace is literal, and a colon
behind a name introduces a type tag. -/
theorem Pattern.exists_source_iff_cut (pattern : Text) :
    ((∃ source, Pattern.source pattern = .ok source) ↔
      ∃ entries, Piece.Cut 0 pattern entries ∧
        Closes Piece.opening Piece.closing 0 (entries.map Prod.snd)) ∧
    ∀ entries others, Piece.Cut 0 pattern entries → Piece.Cut 0 pattern others → entries = others := by
  refine ⟨?_, fun entries others h h' => h.unique h'⟩
  simp only [Pattern.source_iff, Token.ofPattern_iff]
  constructor
  · rintro ⟨source, tokens, ⟨entries, hcut, rfl⟩, hbraces, -⟩
    exact ⟨entries, hcut, (Token.checkBraces_gather_iff _ 0 entries).mp hbraces⟩
  · rintro ⟨entries, hcut, hcloses⟩
    exact ⟨_, _, ⟨entries, hcut, rfl⟩, (Token.checkBraces_gather_iff _ 0 entries).mpr hcloses, rfl⟩

/-- The first pattern has a placeholder with braces in it, and stray braces behind it. The second one has a
placeholder with an empty type tag. -/
theorem Pattern.exists_source_iff_cut_nested :
    (∃ entries, Piece.Cut 0 "\x7bo \x7bi\x7d\x7d\x7b \x7d".toList entries ∧
      Closes Piece.opening Piece.closing 0 (entries.map Prod.snd)) ∧
    ¬∃ entries, Piece.Cut 0 "\x7ba:\x7d".toList entries ∧
      Closes Piece.opening Piece.closing 0 (entries.map Prod.snd) := by
  have hnested : Pattern.source "\x7bo \x7bi\x7d\x7d\x7b \x7d".toList =
      .ok "(?i)^((?:.+?)|<[^>]+>)\\\x7b \\\x7d$".toList := by
    decide +kernel
  have hempty : Pattern.source "\x7ba:\x7d".toList = .error ⟨.malformed, 0, some ['a']⟩ := by decide +kernel
  refine ⟨(exists_source_iff_cut _).1.mp ⟨_, hnested⟩, fun h => ?_⟩
  obtain ⟨source, hsource⟩ := (exists_source_iff_cut _).1.mpr h
  rw [hempty] at hsource
  cases hsource

end StepLink
