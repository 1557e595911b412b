import StepLink.Proofs.Feature.StepLine
import StepLink.Proofs.Query.Completion
import StepLink.Proofs.Text.Units
import StepLink.Server.Reply

/-! What an entry of a completion list replaces. The part of the line before the cursor is split as a step is, and the
span that is replaced starts where the text of that step does and ends at the cursor. -/

namespace StepLink

variable {line before after : Text} {typed : PartialStep} {items : List CompletionItem} {x : Indexes} {s : Server}
  {disk : Disk} {document : Uri} {world : World} {p : Path} {cursor : Position}

/-- The part of a line before a column, cut at the last boundary of characters that is not behind it. -/
def Text.beforeColumn (line : Text) (column : Nat) : Text :=
  takeBytes line (byteOfColumn line column)

theorem Text.exists_beforeColumn (line : Text) (column : Nat) : ∃ after,
    line = beforeColumn line column ++ after ∧ units (beforeColumn line column) ≤ column := by
  obtain ⟨before, after, rfl, hbyte, hunits, -⟩ := exists_byteOfColumn line column
  rw [beforeColumn, hbyte, takeBytes_utf8Length]
  exact ⟨after, rfl, hunits⟩

theorem Text.beforeColumn_units (before after : Text) : beforeColumn (before ++ after) (units before) = before := by
  rw [beforeColumn, byteOfColumn_units, takeBytes_utf8Length]

/-- The column at which what is typed starts is not behind the column up to which it is typed. -/
theorem PartialStep.columnOfByte_start_le {column : Nat}
    (h : ofText? (Text.beforeColumn line column) = some typed) : Text.columnOfByte line typed.start ≤ column := by
  obtain ⟨indent, gap, hsplit, hstart⟩ := isSplit_of_ofText? h
  obtain ⟨after, hline, hunits⟩ := Text.exists_beforeColumn line column
  have hbefore := hsplit.line_eq_append
  rw [hline, hbefore, hstart, List.append_assoc, Text.columnOfByte_utf8Length]
  rw [hbefore, Text.units_append] at hunits
  exact Nat.le_of_add_right_le hunits

/-- The columns from the start of what is typed on cut it out of the line. -/
theorem PartialStep.unitsBetween_start (h : ofText? before = some typed) (after : Text) :
    Text.unitsBetween (before ++ after) (Text.columnOfByte (before ++ after) typed.start) (Text.units before) =
      Text.utf16 typed.text := by
  obtain ⟨indent, gap, hsplit, hstart⟩ := isSplit_of_ofText? h
  have hline : before ++ after = (indent ++ (typed.token ++ gap)) ++ (typed.text ++ after) := by
    rw [hsplit.line_eq_append, List.append_assoc]
  have hcolumn : Text.columnOfByte (before ++ after) typed.start = Text.units (indent ++ (typed.token ++ gap)) := by
    rw [hline, hstart, Text.columnOfByte_utf8Length]
  refine Text.unitsBetween_eq hline hcolumn ?_
  rw [hcolumn, hsplit.line_eq_append, Text.units_append _ typed.text]

theorem CompletionItem.replaced_of_mem_ofCandidates {replaced : Span} {candidates : List Candidate}
    {item : CompletionItem} (h : item ∈ ofCandidates replaced candidates) : item.replaced = replaced := by
  obtain ⟨⟨c, rank⟩, -, rfl⟩ := List.mem_map.mp h
  rfl

/-- Entries are offered on a line of a document that can be read, behind a token and a blank. They are those of the
candidates that fit what is typed there. -/
theorem Indexes.exists_candidates_of_answerCompletion (h : (x.answerCompletion world p cursor).2 = .items items) :
    ∃ text line typed token, world.read p = .ok text ∧ (Text.lines text)[cursor.line]? = some line ∧
      PartialStep.ofText? (Text.beforeColumn line cursor.character) = some typed ∧
      StepToken.ofText typed.token = .ok token ∧
      items = CompletionItem.ofCandidates ⟨⟨cursor.line, Text.columnOfByte line typed.start⟩, cursor⟩
        ((x.hasFeatures p).1.completeAt (fun i => (Text.lines text)[i]?) cursor.line typed.token typed.text).2 := by
  rw [answerCompletion] at h
  split at h
  next => cases h
  next y hfeatures =>
    split at h
    next => cases h
    next text hread =>
      simp only [List.getElem?_toArray] at h
      cases hline : (Text.lines text)[cursor.line]? with
      | none =>
        rw [hline] at h
        cases h
      | some line =>
        rw [hline, Option.getD_some] at h
        split at h
        next => cases h
        next typed htyped =>
          rw [answerTyped] at h
          split at h
          next => cases h
          next token htoken =>
            cases h
            rw [hfeatures]
            exact ⟨text, line, typed, token, hread, hline, htyped, htoken, rfl⟩

/-- All the entries that are offered replace the same span. -/
theorem Indexes.exists_of_answerCompletion (h : (x.answerCompletion world p cursor).2 = .items items) :
    ∃ text line typed token, world.read p = .ok text ∧ (Text.lines text)[cursor.line]? = some line ∧
      PartialStep.ofText? (Text.beforeColumn line cursor.character) = some typed ∧
      StepToken.ofText typed.token = .ok token ∧
      ∀ item ∈ items, item.replaced = ⟨⟨cursor.line, Text.columnOfByte line typed.start⟩, cursor⟩ := by
  obtain ⟨text, line, typed, token, hread, hline, htyped, htoken, rfl⟩ := exists_candidates_of_answerCompletion h
  exact ⟨text, line, typed, token, hread, hline, htyped, htoken,
    fun item => CompletionItem.replaced_of_mem_ofCandidates⟩

theorem Server.exists_indexes_of_answer
    (h : (s.answer disk (.completion document cursor)).2.1 = .ok (.items items)) :
    ∃ p x, document.path? = some p ∧ s.indexes = some x ∧
      (Indexes.answerCompletion (s.world disk) x p cursor).2 = .items items := by
  rw [answer, navigate] at h
  split at h
  next => cases h
  next => cases h
  next x p hindexes hpath => exact ⟨p, x, hpath, hindexes, Except.ok.inj h⟩

theorem Server.exists_of_answer (h : (s.answer disk (.completion document cursor)).2.1 = .ok (.items items)) :
    ∃ p x, document.path? = some p ∧ (Indexes.answerCompletion (s.world disk) x p cursor).2 = .items items := by
  obtain ⟨p, x, hpath, -, hitems⟩ := exists_indexes_of_answer h
  exact ⟨p, x, hpath, hitems⟩

/-- A part of a line is split after its first word as the parser of steps splits it: it is a step exactly if the word
is a token, and then token, text and offset are the same, less the blanks at the end of the text. Whenever entries are
offered, all of them replace one span on the line of the cursor, which ends at the cursor and starts no later. At the
boundary of two characters, it holds what has been typed so far, between the blanks behind the token and the cursor. -/
theorem Server.completion_replaces_typed :
    (∀ before step, StepLine.ofLine? before = some step ↔ ∃ typed, PartialStep.ofText? before = some typed ∧
      StepToken.ofText typed.token = .ok step.token ∧ step.written = typed.token ∧
      step.text = Text.trimEnd typed.text ∧ step.offset = typed.start) ∧
    ∀ (s : Server) (disk : Disk) (document : Uri) (cursor : Position) (items : List CompletionItem),
      (s.answer disk (.completion document cursor)).2.1 = .ok (.items items) →
      ∃ p text line start, document.path? = some p ∧ (s.world disk).read p = .ok text ∧
        (Text.lines text)[cursor.line]? = some line ∧
        (∀ item ∈ items, item.replaced = ⟨⟨cursor.line, start⟩, cursor⟩) ∧ start ≤ cursor.character ∧
        ∀ before after, line = before ++ after → Text.units before = cursor.character →
          ∃ indent word gap typed, IsSplit before indent word gap typed ∧
            (∃ token, StepToken.ofText word = .ok token) ∧ start = Text.units (indent ++ (word ++ gap)) ∧
            Text.unitsBetween line start cursor.character = Text.utf16 typed := by
  refine ⟨fun before step => StepLine.ofLine?_eq_some_iff, fun s disk document cursor items h => ?_⟩
  obtain ⟨p, x, hpath, hitems⟩ := exists_of_answer h
  obtain ⟨text, line, typed, token, hread, hline, htyped, htoken, hreplaced⟩ :=
    Indexes.exists_of_answerCompletion hitems
  refine ⟨p, text, line, _, hpath, hread, hline, hreplaced, PartialStep.columnOfByte_start_le htyped, ?_⟩
  rintro before after rfl hunits
  rw [← hunits, Text.beforeColumn_units] at htyped
  obtain ⟨indent, gap, hsplit, hstart⟩ := PartialStep.isSplit_of_ofText? htyped
  refine ⟨indent, typed.token, gap, typed.text, hsplit, ⟨token, htoken⟩, ?_, ?_⟩
  · rw [hstart, hsplit.line_eq_append, List.append_assoc, Text.columnOfByte_utf8Length]
  · rw [← hunits, PartialStep.unitsBetween_start htyped]

/-- A server with one definition, and an open feature file. -/
def typingServer : Server where
  indexes := some ((Service.new ⟨"/w".toList⟩ ⟨[], []⟩ ⟨["*.feature".toList], []⟩ 1 5).after
    (scanOf "@given('😀 b')\ndef f():") 6).indexes
  documents := ⟨[(⟨"/w/a.feature".toList⟩, ⟨"  Given 😀 c".toList, 1⟩)]⟩

/-- At a cursor behind a character of two units, the span holds this character. -/
theorem Server.completion_replaces_typed_astral :
    let answered := (typingServer.answer .empty (.completion ⟨none, some ["w".toList, "a.feature".toList]⟩ ⟨0, 10⟩)).2.1
    (∃ item, answered = .ok (.items [item]) ∧ item.replaced = ⟨⟨0, 8⟩, ⟨0, 10⟩⟩) ∧
      ∃ indent word gap typed, IsSplit "  Given 😀".toList indent word gap typed ∧
        8 = Text.units (indent ++ (word ++ gap)) ∧
        Text.unitsBetween "  Given 😀 c".toList 8 10 = Text.utf16 typed := by
  intro answered
  let item : CompletionItem :=
    ⟨"😀 b".toList, some ['f'], "00000".toList, ⟨⟨0, 8⟩, ⟨0, 10⟩⟩, "😀 b".toList⟩
  have hanswered : answered = .ok (.items [item]) := by decide +kernel
  refine ⟨⟨item, hanswered, rfl⟩, ?_⟩
  obtain ⟨p, text, line, start, hpath, hread, hline, hreplaced, -, hcovers⟩ :=
    completion_replaces_typed.2 typingServer .empty _ _ _ hanswered
  obtain rfl : ⟨"/w/a.feature".toList⟩ = p := Option.some.inj (.trans (by decide +kernel) hpath)
  obtain rfl : "  Given 😀 c".toList = text := Except.ok.inj (.trans (by decide +kernel) hread)
  obtain rfl : "  Given 😀 c".toList = line := Option.some.inj (.trans (by decide +kernel) hline)
  have hstart : 8 = start := congrArg (·.start.character) (hreplaced item List.mem_cons_self)
  obtain ⟨indent, word, gap, typed, hsplit, -, hunits, hcut⟩ :=
    hcovers "  Given 😀".toList " c".toList (by decide +kernel) (by decide +kernel)
  exact ⟨indent, word, gap, typed, hsplit, hstart.trans hunits, hstart ▸ hcut⟩

end StepLink
