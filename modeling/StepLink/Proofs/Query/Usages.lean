import StepLink.Proofs.Query.Navigation

/-! The steps of a function from any line of its block. The search goes down to the function and up again through
the block, and the name of a definition is found by a search of its own that goes down from its decorator. The two
agree on what a block is: every line of it gives the same places, and its definitions have one function. -/

namespace StepLink

namespace UsagePlace

variable {u v w : UsagePlace}

theorem same_comm (u v : UsagePlace) : u.same v = v.same u := by
  simp only [same, Path.same_comm u.path, Bool.beq_comm]

theorem same_trans (huv : u.same v = true) (hvw : v.same w = true) : u.same w = true :=
  same_iff.mpr ((same_iff.mp huv).trans (same_iff.mp hvw))

/-- What does not tell equal places apart may be asked before repetitions go or after. -/
theorem filter_dedup {p : UsagePlace → Bool} (hp : ∀ u v, u.same v = true → p u = p v) (places : List UsagePlace) :
    (dedup places).filter p = dedup (places.filter p) := by
  induction places with
  | nil => rfl
  | cons u places ih =>
    rw [dedup_cons]
    cases hu : p u with
    | true =>
      rw [List.filter_cons_of_pos hu, List.filter_cons_of_pos hu, dedup_cons, ← ih, List.filter_filter,
        List.filter_filter]
      simp only [Bool.and_comm]
    | false =>
      have hkept : ∀ v, (p v && !u.same v) = p v := by
        intro v
        cases hsame : u.same v with
        | true => rw [← hp u v hsame, hu]; rfl
        | false => rw [Bool.not_false, Bool.and_true]
      rw [List.filter_cons_of_neg (Bool.eq_false_iff.mp hu), List.filter_cons_of_neg (Bool.eq_false_iff.mp hu), ← ih,
        List.filter_filter]
      simp only [hkept]

/-- Of equal places the first is kept. -/
theorem dedup_eq_eraseDupsBy (places : List UsagePlace) : dedup places = places.eraseDupsBy same := by
  match places with
  | [] => rfl
  | u :: places =>
    have hrespects : ∀ v w : UsagePlace, v.same w = true → (!u.same v) = !u.same w := by
      intro v w hvw
      congr 1
      rw [Bool.eq_iff_iff]
      exact ⟨fun huv => same_trans huv hvw, fun huw => same_trans huw (same_comm v w ▸ hvw)⟩
    have hfilter : (places.filter fun v => !u.same v) = places.filter fun v => decide (v.same u = false) := by
      congr 1
      funext v
      rw [same_comm u v]
      cases v.same u <;> rfl
    rw [dedup_cons, filter_dedup hrespects, dedup_eq_eraseDupsBy (places.filter fun v => !u.same v), hfilter,
      List.eraseDupsBy_cons]
termination_by places.length
decreasing_by exact Nat.lt_succ_of_le (List.length_filter_le _ _)

end UsagePlace

namespace Occurrence

/-- A search from the lines of a text, among the occurrences of a view, goes by blocks. -/
structure FoundByBlock (view : List Occurrence) (lines : List Text)
    (find : Nat → Except NoStepDecorator (List UsagePlace)) : Prop where
  /-- A line from which only lines of a block lead down to another gives the places that the other gives, or neither
  of them has a step decorator. -/
  same_block : ∀ l m, l ≤ m → (∀ i, l ≤ i → i < m → IsBlockAt lines i) →
    find l = find m ∨ find l = .error ⟨l⟩ ∧ find m = .error ⟨m⟩
  /-- The decorators are those on the lines of the block, in their order. -/
  decorators : ∀ l, ∃ start stop, (∀ j, InBlock lines l j ↔ start ≤ j ∧ j < stop) ∧
    decoratorsFor lines l = ((lines.take stop).drop start).filterMap Decorator.ofLine?
  /-- The places are those of one decorator after the other, without those that have been before. -/
  places : ∀ l, find l = if decoratorsFor lines l = [] then .error ⟨l⟩ else
    .ok (((decoratorsFor lines l).flatMap fun dec =>
      (searched view dec.pattern (some dec.keyword)).map location).eraseDupsBy UsagePlace.same)

theorem placesOf_eq (view : List Occurrence) (lines : List Text) (l : Nat) :
    placesOf view lines l = if decoratorsFor lines l = [] then .error ⟨l⟩ else
      .ok (((decoratorsFor lines l).flatMap fun dec =>
        (searched view dec.pattern (some dec.keyword)).map location).eraseDupsBy UsagePlace.same) := by
  rw [placesOf]
  cases decoratorsFor lines l with
  | nil => rfl
  | cons dec block =>
    rw [if_neg (List.cons_ne_nil dec block), ← UsagePlace.dedup_eq_eraseDupsBy]
    simp only [List.map_flatMap]

theorem foundByBlock_placesOf (view : List Occurrence) (lines : List Text) :
    FoundByBlock view lines (placesOf view lines) := by
  refine ⟨fun l m hle hblock => ?_, fun l => ⟨_, _, fun j => inBlock_iff_between, decoratorsFor_eq lines l⟩,
    placesOf_eq view lines⟩
  rw [placesOf_eq, placesOf_eq, decoratorsFor_congr (blockEnd_eq_of_le hle hblock)]
  by_cases hnone : decoratorsFor lines m = []
  · exact .inr ⟨if_pos hnone, if_pos hnone⟩
  · exact .inl (by rw [if_neg hnone, if_neg hnone])

end Occurrence

namespace Definition

variable {path : Path} {text : Text} {lines : List Text} {d e : Definition} {i j l : Nat}

theorem isBetween_eq (line : Text) : isBetween line = isBlockLine line := by
  rw [isBetween, isBlockLine, isDecoratorLine, isFillerLine]
  cases Text.trimStart line with
  | nil => rfl
  | cons c t => exact Bool.or_comm _ _

/-- The search for the function ends on the line behind the block. -/
theorem functionBelow?_eq (lines : List Text) :
    functionBelow? lines = lines[blockLength lines]?.bind functionOfLine? := by
  rw [functionBelow?]
  congr 1
  induction lines with
  | nil => rfl
  | cons line lines ih =>
    have hsame : isBetween line = (isDecoratorLine line || isFillerLine line) := isBetween_eq line
    rw [blockLength, List.find?_cons, hsame]
    cases isDecoratorLine line || isFillerLine line with
    | true => exact ih
    | false => rfl

/-- The definition that the line of an index gives, if it gives one. -/
def onLine? (path : Path) (lines : List Text) (i : Nat) : Option Definition := do
  let line ← lines[i]?
  let dec ← Decorator.ofLine? line
  (ofDecorator path i line (lines.drop (i + 1)) dec).toOption

/-- The definitions of a text go by blocks. -/
structure NamedByBlock (path : Path) (text : Text) : Prop where
  mem_iff : ∀ d, d ∈ ofText path text ↔ ∃ i, onLine? path (Text.lines text) i = some d
  /-- A definition tells its line, if the text has no more lines than there are numbers. -/
  line : (Text.lines text).length ≤ Text.maxPosition + 1 →
    ∀ d ∈ ofText path text, onLine? path (Text.lines text) d.line = some d
  /-- The block of its line has a decorator with its keyword and its pattern. -/
  decorator : ∀ i d, onLine? path (Text.lines text) i = some d →
    ∃ dec ∈ decoratorsFor (Text.lines text) i, dec.keyword = d.keyword ∧ dec.pattern = d.pattern
  /-- The definitions of one block have the same function. -/
  function : ∀ l i j d e, InBlock (Text.lines text) l i → InBlock (Text.lines text) l j →
    onLine? path (Text.lines text) i = some d → onLine? path (Text.lines text) j = some e →
    d.function = e.function

theorem onLine?_eq_some_iff : onLine? path lines i = some d ↔
    ∃ line dec, lines[i]? = some line ∧ Decorator.ofLine? line = some dec ∧
      ofDecorator path i line (lines.drop (i + 1)) dec = .ok d := by
  have hok : ∀ result : Except Uncompilable Definition, result.toOption = some d ↔ result = .ok d := by
    intro result
    cases result <;> simp [Except.toOption]
  simp only [onLine?, Option.bind_eq_bind, Option.bind_eq_some_iff, hok]
  constructor
  · rintro ⟨line, hline, dec, hdec, hd⟩
    exact ⟨line, dec, hline, hdec, hd⟩
  · rintro ⟨line, dec, hline, hdec, hd⟩
    exact ⟨line, hline, dec, hdec, hd⟩

theorem mem_ofText_iff_onLine? : d ∈ ofText path text ↔ ∃ i, onLine? path (Text.lines text) i = some d := by
  simp only [mem_ofText, onLine?_eq_some_iff]

theorem line_of_onLine? (h : onLine? path lines i = some d) : d.line = Text.lineNumber i := by
  obtain ⟨line, dec, -, -, hd⟩ := onLine?_eq_some_iff.mp h
  exact (isOf_of_ofDecorator hd).line

/-- As long as there are numbers left, a definition is that of the line of its number. -/
theorem onLine?_line (hlines : (Text.lines text).length ≤ Text.maxPosition + 1) (hd : d ∈ ofText path text) :
    onLine? path (Text.lines text) d.line = some d := by
  obtain ⟨i, hi⟩ := mem_ofText_iff_onLine?.mp hd
  obtain ⟨line, dec, hline, -, -⟩ := onLine?_eq_some_iff.mp hi
  obtain ⟨hlt, -⟩ := List.getElem?_eq_some_iff.mp hline
  rwa [line_of_onLine? hi, Text.lineNumber_eq (by omega)]

/-- The line of a decorator belongs to its own block. -/
theorem inBlock_self (h : onLine? path lines i = some d) : InBlock lines i i := by
  obtain ⟨line, dec, hline, hdec, -⟩ := onLine?_eq_some_iff.mp h
  have hblock : IsBlockAt lines i := by
    refine ⟨line, hline, ?_⟩
    rw [isBlockLine, isDecoratorLine_of_ofLine? hdec, Bool.true_or]
  refine inBlock_iff.mpr ⟨Nat.lt_of_le_of_ne (Nat.le_add_right i _) ?_, fun k hik hk => isBlockAt_of_lt_blockEnd hik hk⟩
  intro hend
  exact not_isBlockAt_blockEnd lines i (hend ▸ hblock)

/-- The block of a definition holds its decorator. -/
theorem exists_mem_decoratorsFor (h : onLine? path lines i = some d) :
    ∃ dec ∈ decoratorsFor lines i, dec.keyword = d.keyword ∧ dec.pattern = d.pattern := by
  obtain ⟨line, dec, hline, hdec, hd⟩ := onLine?_eq_some_iff.mp h
  obtain ⟨hkeyword, hpattern, -⟩ := isOf_of_ofDecorator hd
  exact ⟨dec, mem_decoratorsFor.mpr ⟨i, line, hline, hdec, inBlock_self h⟩, hkeyword.symm, hpattern.symm⟩

/-- The function of a definition is that of the line at which its block ends. -/
theorem function_eq (h : onLine? path lines i = some d) :
    d.function = lines[blockEnd lines i]?.bind functionOfLine? := by
  obtain ⟨hend, hblock⟩ := inBlock_iff.mp (inBlock_self h)
  obtain ⟨line, dec, -, -, hd⟩ := onLine?_eq_some_iff.mp h
  have hfunction : d.function = functionBelow? (lines.drop (i + 1)) := by
    rw [ofDecorator] at hd
    split at hd
    · cases hd
    · cases hd
      rfl
  have hbelow : blockEnd lines i = blockEnd lines (i + 1) :=
    blockEnd_eq_of_le (Nat.le_succ i) fun k hik hk => hblock k hik (Nat.lt_of_lt_of_le hk hend)
  rw [hfunction, functionBelow?_eq, List.getElem?_drop, hbelow, blockEnd]

theorem function_eq_of_inBlock (hi : InBlock lines l i) (hj : InBlock lines l j)
    (hd : onLine? path lines i = some d) (he : onLine? path lines j = some e) : d.function = e.function := by
  rw [function_eq hd, function_eq he, hi.blockEnd_eq, hj.blockEnd_eq]

theorem namedByBlock (path : Path) (text : Text) : NamedByBlock path text where
  mem_iff _ := mem_ofText_iff_onLine?
  line hlines _ := onLine?_line hlines
  decorator _ _ := exists_mem_decoratorsFor
  function _ _ _ _ _ := function_eq_of_inBlock

end Definition

/-- From every line of a block one gets to the same steps, at every moment of every run, and these are the steps of
the decorators of the block. The definitions of the text stand in the blocks of their lines, and the definitions of
one block name the same function. -/
theorem Service.usagesAt_block (root : Path) (definitions usages : Selection) (batchSize maxReplays : Nat)
    (acts : Nat → Act) (t : Nat) (path : Path) (text : Text) :
    let x := ((new root definitions usages batchSize maxReplays).after acts t).indexes
    Occurrence.FoundByBlock x.usages.state.allItems (Text.lines text)
      (fun l => (x.usagesAt (Text.lines text) l).2.1) ∧ Definition.NamedByBlock path text := by
  intro x
  have hcurrent : x.Current := current_after (current_new root definitions usages batchSize maxReplays) acts t
  have hplaces : (fun l => (x.usagesAt (Text.lines text) l).2.1) =
      Occurrence.placesOf x.usages.state.allItems (Text.lines text) := by
    funext l
    exact (hcurrent.usagesAt (Text.lines text) l).2
  rw [hplaces]
  exact ⟨Occurrence.foundByBlock_placesOf _ _, Definition.namedByBlock path text⟩

/-- Two decorators above one function, apart from each other. -/
def stackedText : Text :=
  "@given('a')\n# or\n\n@when('b')\ndef f():".toList

/-- From the first line of the block one gets to the same steps as from the function, and both decorators are those
of the function. -/
theorem Service.usagesAt_block_stacked :
    let x := ((new ⟨"/w".toList⟩ ⟨[], []⟩ ⟨[], []⟩ 1 5).after pairScans 12).indexes
    let lines := Text.lines stackedText
    (∃ places, (x.usagesAt lines 0).2.1 = .ok places ∧ (x.usagesAt lines 4).2.1 = .ok places) ∧
      ∃ d e, Definition.onLine? ⟨"/w/steps.py".toList⟩ lines 0 = some d ∧
        Definition.onLine? ⟨"/w/steps.py".toList⟩ lines 3 = some e ∧ d.function = e.function ∧
        d.function = some ['f'] := by
  intro x lines
  obtain ⟨hfound, hnamed⟩ := usagesAt_block ⟨"/w".toList⟩ ⟨[], []⟩ ⟨[], []⟩ 1 5 pairScans 12
    ⟨"/w/steps.py".toList⟩ stackedText
  have hfacts : (∀ i < 4, lines[i]?.any isBlockLine = true) ∧ lines[4]?.any isBlockLine = false ∧
      (decoratorsFor lines 0).map Decorator.pattern = [['a'], ['b']] ∧
      (Definition.onLine? ⟨"/w/steps.py".toList⟩ lines 0).map Definition.function = some (some ['f']) ∧
      (Definition.onLine? ⟨"/w/steps.py".toList⟩ lines 3).isSome = true := by
    decide +kernel
  obtain ⟨hlines, hend, hpatterns, hd, he⟩ := hfacts
  have hblock : ∀ i < 4, IsBlockAt lines i := fun i hi => isBlockAt_iff_any.mpr (hlines i hi)
  have hinBlock : ∀ j < 4, InBlock lines 4 j := fun j hj =>
    ⟨4, Nat.le_refl 4, hj, isBlockAt_iff_any.not.mpr (Bool.eq_false_iff.mp hend), fun i _ hi => hblock i hi⟩
  obtain ⟨d, hd, hname⟩ := Option.map_eq_some_iff.mp hd
  obtain ⟨e, he⟩ := Option.isSome_iff_exists.mp he
  refine ⟨?_, d, e, hd, he, ?_, hname⟩
  · have hsome : decoratorsFor lines 0 ≠ [] := by
      intro hnone
      rw [hnone] at hpatterns
      cases hpatterns
    have hplaces := hfound.places 0
    rw [if_neg hsome] at hplaces
    rcases hfound.same_block 0 4 (Nat.zero_le 4) fun i _ hi => hblock i hi with heq | ⟨herror, -⟩
    · exact ⟨_, hplaces, heq ▸ hplaces⟩
    · rw [hplaces] at herror
      cases herror
  · exact hnamed.function 4 0 3 d e (hinBlock 0 (by decide)) (hinBlock 3 (by decide)) hd he

end StepLink
