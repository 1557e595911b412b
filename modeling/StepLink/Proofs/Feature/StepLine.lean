import StepLink.Feature.PartialStep
import StepLink.Feature.StepLine
import StepLink.Proofs.Text.Blank

/-! Two ways to split a line. What is being typed is split at the first blank behind the first word, a step at the
spellings of the tokens, one after the other. Both come to the same parts: indentation, a word without blanks, at least
one blank, and a text that starts with none. -/

namespace StepLink

open Text (IsBlanks)

variable {line indent word gap text spelling : Text} {token : StepToken} {typed : PartialStep} {step : StepLine}

/-- A line is made up of indentation, a word, at least one blank and a text that does not start with a blank. -/
structure IsSplit (line indent word gap text : Text) : Prop where
  line_eq : line = indent ++ (word ++ (gap ++ text))
  indent_blank : IsBlanks indent
  word_ne_nil : word ≠ []
  word_solid : ∀ c ∈ word, Text.isBlank c = false
  gap_ne_nil : gap ≠ []
  gap_blank : IsBlanks gap
  text_head : ∀ c ∈ text.head?, Text.isBlank c = false

/-- A line has these parts, or no blank follows its first word. -/
theorem isSplit_or_solid (line : Text) : (∃ indent word gap text, IsSplit line indent word gap text) ∨
    ∀ c ∈ Text.trimStart line, Text.isBlank c = false := by
  obtain ⟨indent, hindent, hline⟩ := Text.exists_blanks line
  have hsolid : ∀ c ∈ (Text.trimStart line).takeWhile fun c => !Text.isBlank c, Text.isBlank c = false :=
    fun c hc => by simpa using List.mem_takeWhile_imp hc
  have hbody := List.takeWhile_append_dropWhile (p := fun c => !Text.isBlank c) (l := Text.trimStart line)
  cases hrest : (Text.trimStart line).dropWhile fun c => !Text.isBlank c with
  | nil =>
    rw [hrest, List.append_nil] at hbody
    rw [hbody] at hsolid
    exact .inr hsolid
  | cons b rest =>
    have hb : Text.isBlank b = true := by
      have hhead : b ∈ ((Text.trimStart line).dropWhile fun c => !Text.isBlank c).head? := hrest ▸ rfl
      simpa using Text.not_of_mem_head?_dropWhile hhead
    obtain ⟨gap, hgap, hgapped⟩ := Text.exists_blanks rest
    refine .inl ⟨indent, _, b :: gap, Text.trimStart rest, ?_, hindent, fun hnil => ?_, hsolid, List.cons_ne_nil _ _,
      List.forall_mem_cons.mpr ⟨hb, hgap⟩, fun c => Text.not_isBlank_of_mem_head?_trimStart⟩
    · rw [List.cons_append, ← hgapped, ← hrest, hbody, ← hline]
    · -- Behind the indentation the line starts with no blank.
      rw [hnil, List.nil_append, hrest] at hbody
      have hhead : Text.isBlank b = false :=
        Text.not_isBlank_of_mem_head?_trimStart (t := line) (by rw [← hbody]; rfl)
      rw [hb] at hhead
      cases hhead

namespace IsSplit

/-- The text stands behind everything else. -/
theorem line_eq_append (h : IsSplit line indent word gap text) : line = (indent ++ (word ++ gap)) ++ text := by
  rw [h.line_eq, List.append_assoc, List.append_assoc]

theorem trimStart_line (h : IsSplit line indent word gap text) : Text.trimStart line = word ++ (gap ++ text) := by
  rw [h.line_eq, h.indent_blank.trimStart_append]
  refine Text.trimStart_eq_self fun c hc => ?_
  rw [List.head?_append_of_ne_nil _ h.word_ne_nil] at hc
  exact h.word_solid c (List.mem_of_mem_head? hc)

theorem trimStart_behind (h : IsSplit line indent word gap text) : Text.trimStart (gap ++ text) = text := by
  rw [h.gap_blank.trimStart_append, Text.trimStart_eq_self h.text_head]

theorem head?_behind (h : IsSplit line indent word gap text) : (gap ++ text).head?.any Text.isBlank = true := by
  obtain ⟨b, rest, hgap⟩ := List.exists_cons_of_ne_nil h.gap_ne_nil
  have hb : Text.isBlank b = true := h.gap_blank b (hgap ▸ List.mem_cons_self)
  rw [hgap]
  exact hb

theorem offset_eq (h : IsSplit line indent word gap text) :
    Text.utf8Length line - Text.utf8Length text = Text.utf8Length (indent ++ (word ++ gap)) := by
  rw [h.line_eq_append, Text.utf8Length_append, Nat.add_sub_cancel]

end IsSplit

/-- A word without blanks ends where a blank follows it. -/
theorem takeWhile_solid {rest : Text} (hword : ∀ c ∈ word, Text.isBlank c = false)
    (hrest : rest.head?.any Text.isBlank = true) : (word ++ rest).takeWhile (fun c => !Text.isBlank c) = word := by
  refine Text.takeWhile_append_of_head (fun c hc => by rw [hword c hc]; rfl) fun c hc => ?_
  rw [Option.mem_def.mp hc, Option.any_some] at hrest
  rw [hrest]
  rfl

/-- What is typed comes to these parts. -/
theorem IsSplit.ofText?_eq (h : IsSplit line indent word gap text) :
    PartialStep.ofText? line = some ⟨word, text, Text.utf8Length (indent ++ (word ++ gap))⟩ := by
  have hbody := List.takeWhile_append_dropWhile (p := fun c => !Text.isBlank c) (l := word ++ (gap ++ text))
  rw [takeWhile_solid h.word_solid h.head?_behind, List.append_cancel_left_eq] at hbody
  rw [PartialStep.ofText?, ← h.offset_eq]
  simp only [h.trimStart_line, takeWhile_solid h.word_solid h.head?_behind, hbody]
  split
  next hnil => exact absurd (List.append_eq_nil_iff.mp hnil).1 h.gap_ne_nil
  next => rw [h.trimStart_behind]

/-- What is written in some case of a spelling without blanks has none either. -/
theorem not_isBlank_of_sameIgnoringCase (hspelling : ∀ c ∈ spelling.map Char.toLower, Text.isBlank c = false)
    (h : Text.sameIgnoringCase word spelling = true) : ∀ c ∈ word, Text.isBlank c = false := by
  intro c hc
  rw [← Bool.not_eq_true]
  intro hblank
  have hlower : c.toLower ∈ spelling.map Char.toLower := eq_of_beq h ▸ List.mem_map_of_mem hc
  rw [Text.toLower_of_isBlank hblank] at hlower
  exact ne_true_of_eq_false (hspelling c hlower) hblank

/-- A step with a spelling comes to these parts, if the word is some case of it. -/
theorem IsSplit.read?_eq (h : IsSplit line indent word gap text)
    (hspelling : ∀ c ∈ spelling.map Char.toLower, Text.isBlank c = false) (token : StepToken) :
    StepLine.read? line spelling token = if Text.sameIgnoringCase word spelling then
      some ⟨token, word, Text.trimEnd text, Text.utf8Length (indent ++ (word ++ gap))⟩ else none := by
  rw [StepLine.read?, ← h.offset_eq]
  simp only [h.trimStart_line]
  by_cases hsame : Text.sameIgnoringCase word spelling = true
  · have hlength : word.length = spelling.length := by
      simpa using congrArg List.length (eq_of_beq hsame)
    rw [List.take_left' hlength, List.drop_left' hlength, hsame, h.head?_behind, h.trimStart_behind]
    rfl
  · rw [if_neg hsame, if_neg]
    -- A spelling that is read up to a blank is the word.
    intro hread
    rw [Bool.and_eq_true] at hread
    have hwritten := takeWhile_solid (not_isBlank_of_sameIgnoringCase hspelling hread.1) hread.2
    rw [List.take_append_drop, takeWhile_solid h.word_solid h.head?_behind] at hwritten
    exact hsame (hwritten ▸ hread.1)

theorem read?_of_solid (hsolid : ∀ c ∈ Text.trimStart line, Text.isBlank c = false) (spelling : Text)
    (token : StepToken) : StepLine.read? line spelling token = none := by
  rw [StepLine.read?]
  refine if_neg fun hread => ?_
  cases hrest : (Text.trimStart line).drop spelling.length with
  | nil =>
    rw [hrest, List.head?_nil, Option.any_none, Bool.and_false] at hread
    cases hread
  | cons b rest =>
    have hb : b ∈ (Text.trimStart line).drop spelling.length := hrest ▸ List.mem_cons_self
    rw [hrest, List.head?_cons, Option.any_some, hsolid b (List.mem_of_mem_drop hb), Bool.and_false] at hread
    cases hread

theorem ofText?_of_solid (hsolid : ∀ c ∈ Text.trimStart line, Text.isBlank c = false) :
    PartialStep.ofText? line = none := by
  have hrest : (Text.trimStart line).dropWhile (fun c => !Text.isBlank c) = [] :=
    List.dropWhile_eq_nil_iff.mpr fun c hc => by rw [hsolid c hc]; rfl
  rw [PartialStep.ofText?]
  simp only [hrest]

theorem findSome?_eq_map_find? {α β : Type} {p : α → Bool} {f : α → β} {g : α → Option β} {l : List α}
    (h : ∀ a ∈ l, g a = if p a then some (f a) else none) : l.findSome? g = (l.find? p).map f := by
  induction l with
  | nil => rfl
  | cons a l ih =>
    obtain ⟨ha, hl⟩ := List.forall_mem_cons.mp h
    rw [List.findSome?_cons, List.find?_cons, ha, ih hl]
    cases p a <;> rfl

/-- A line is a step exactly if the word in front of what is typed on it is a token, and then it has the same parts. -/
theorem StepLine.ofLine?_eq_bind (line : Text) : ofLine? line = (PartialStep.ofText? line).bind fun typed =>
    (StepToken.ofText typed.token).toOption.map fun token =>
      ⟨token, typed.token, Text.trimEnd typed.text, typed.start⟩ := by
  have hall : StepToken.table.all fun entry => (entry.1.map Char.toLower).all fun c => !Text.isBlank c := by
    decide +kernel
  have hspellings : ∀ entry ∈ StepToken.table, ∀ c ∈ entry.1.map Char.toLower, Text.isBlank c = false := by
    intro entry hentry c hc
    simpa using List.all_eq_true.mp (List.all_eq_true.mp hall entry hentry) c hc
  rcases isSplit_or_solid line with ⟨indent, word, gap, text, h⟩ | hsolid
  · have hread : ofLine? line =
        (StepToken.table.find? fun entry => Text.sameIgnoringCase word entry.1).map fun entry =>
          ⟨entry.2, word, Text.trimEnd text, Text.utf8Length (indent ++ (word ++ gap))⟩ :=
      findSome?_eq_map_find? fun entry hentry => h.read?_eq (hspellings entry hentry) entry.2
    rw [hread, h.ofText?_eq, Option.bind_some, StepToken.ofText, Text.trim_eq_self h.word_solid]
    cases StepToken.table.find? fun entry => Text.sameIgnoringCase word entry.1 <;> rfl
  · rw [ofText?_of_solid hsolid, Option.bind_none, ofLine?, List.findSome?_eq_none_iff]
    exact fun entry _ => read?_of_solid hsolid _ _

/-- A line is that step exactly if the word in front of what is typed on it is the token, and the other parts are the
same, less the blanks at the end of the text. -/
theorem StepLine.ofLine?_eq_some_iff : ofLine? line = some step ↔
    ∃ typed, PartialStep.ofText? line = some typed ∧ StepToken.ofText typed.token = .ok step.token ∧
      step.written = typed.token ∧ step.text = Text.trimEnd typed.text ∧ step.offset = typed.start := by
  rw [ofLine?_eq_bind, Option.bind_eq_some_iff]
  refine exists_congr fun typed => and_congr_right fun _ => ?_
  cases StepToken.ofText typed.token with
  | error e => exact iff_of_false nofun nofun
  | ok token =>
    obtain ⟨token', written, text, offset⟩ := step
    constructor
    · intro h
      cases h
      exact ⟨rfl, rfl, rfl, rfl⟩
    · rintro ⟨htoken, rfl, rfl, rfl⟩
      cases htoken
      rfl

theorem PartialStep.isSplit_of_ofText? (h : ofText? line = some typed) : ∃ indent gap,
    IsSplit line indent typed.token gap typed.text ∧
      typed.start = Text.utf8Length (indent ++ (typed.token ++ gap)) := by
  rcases isSplit_or_solid line with ⟨indent, word, gap, text, hsplit⟩ | hsolid
  · rw [hsplit.ofText?_eq] at h
    obtain rfl := Option.some.inj h
    exact ⟨indent, gap, hsplit, rfl⟩
  · rw [ofText?_of_solid hsolid] at h
    cases h

/-- The parts of a step: the token as it is written stands behind the indentation, and behind the text there are
blanks only. -/
theorem StepLine.isSplit_of_ofLine? (h : ofLine? line = some step) : ∃ indent gap blanks,
    IsSplit line indent step.written gap (step.text ++ blanks) ∧ IsBlanks blanks ∧
      (∀ c ∈ step.text.getLast?, Text.isBlank c = false) ∧ StepToken.ofText step.written = .ok step.token ∧
      step.offset = Text.utf8Length (indent ++ (step.written ++ gap)) := by
  obtain ⟨typed, htyped, htoken, hwritten, htext, hoffset⟩ := ofLine?_eq_some_iff.mp h
  obtain ⟨indent, gap, hsplit, hstart⟩ := PartialStep.isSplit_of_ofText? htyped
  obtain ⟨blanks, hblanks, hbehind⟩ := Text.exists_blanks_behind typed.text
  rw [hwritten, hoffset, htext]
  refine ⟨indent, gap, blanks, hbehind ▸ hsplit, hblanks, fun c => ?_, htoken, hstart⟩
  exact Text.not_isBlank_of_mem_getLast?_trimEnd

end StepLink
