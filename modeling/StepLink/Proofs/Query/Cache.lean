import StepLink.Proofs.Index.Cache
import StepLink.Proofs.Text.Blank
import StepLink.Query.Completion
import StepLink.Query.Diagnostics
import StepLink.Query.References

/-! Queries and what is kept between them. Whatever happens to the two indexes, and whatever has been asked
before, a query is answered as it would be from the items of this moment, without anything that is kept. -/

namespace StepLink

open IndexState

theorem Definition.fitting_trim (view : List Definition) (keyword : Option StepKeyword) (text : Text) :
    fitting view keyword (Text.trim text) = fitting view keyword text := by
  simp only [fitting, accepts, Text.trim_trim]

/-- The places of the definitions of a view for the step on a line. -/
def Definition.placesAt (view : List Definition) (lineAt : Nat → Option Text) (line : Nat) :
    List DefinitionPlace :=
  match (lineAt line).bind StepLine.ofLine? with
  | none => []
  | some step => (fitting view (effectiveKeyword lineAt line) step.text).map location

/-- The diagnostics of the rest of a document, if it is known which steps are defined. -/
def Diagnostic.runOver (isDefined : Option StepKeyword → Text → Bool) (stillWanted : Nat → Bool)
    (lineAt : Nat → Option Text) (scanner : Scanner) (index polls wait : Nat) (found : List Diagnostic) :
    List Text → DiagnosticRun
  | [] => ⟨polls + 1, if stillWanted (polls + 1) then some found.reverse else none⟩
  | line :: lines =>
    if wait = 1 && !stillWanted (polls + 1) then ⟨polls + 1, none⟩
    else
      let polls := if wait = 1 then polls + 1 else polls
      let wait := if wait = 1 then interval else wait - 1
      match scanner.feed line with
      | (scanner, none) => runOver isDefined stillWanted lineAt scanner (index + 1) polls wait found lines
      | (scanner, some s) =>
        let found :=
          if isDefined (effectiveKeyword lineAt index) s.step.text then found
          else ofStep index line s.step :: found
        runOver isDefined stillWanted lineAt scanner (index + 1) polls wait found lines

/-- The candidates that the definitions of a view give. -/
def Candidate.offered (view : List Definition) (keyword : Option StepKeyword) (typed : Text) : List Candidate :=
  (Completion.select (Definition.offered view keyword) typed).map ofDefinition

/-- The places of the steps of a view that the function at a line implements. -/
def Occurrence.placesOf (view : List Occurrence) (lines : List Text) (line : Nat) :
    Except NoStepDecorator (List UsagePlace) :=
  match decoratorsFor lines line with
  | [] => .error ⟨line⟩
  | block => .ok <| UsagePlace.dedup <|
    (block.flatMap fun d => searched view d.pattern (some d.keyword)).map location

namespace Indexes

variable {x : Indexes}

/-- What the indexes and the look-ups keep is right. -/
structure Current (x : Indexes) : Prop where
  definitions : x.definitions.Current
  usages : x.usages.Current
  lookups : ∀ entry ∈ x.lookups.entries, Dated x.definitions.state entry.1.1 fun items =>
    entry.2 = Definition.fitting items entry.1.2.1 entry.1.2.2

/-- A query leads to indexes with the same files, in which what is kept is right again. -/
structure Keeps (x y : Indexes) : Prop where
  current : y.Current
  definitions : y.definitions.state.files = x.definitions.state.files
  usages : y.usages.state.files = x.usages.state.files

theorem Keeps.trans {y z : Indexes} (hxy : x.Keeps y) (hyz : y.Keeps z) : x.Keeps z where
  current := hyz.current
  definitions := hyz.definitions.trans hxy.definitions
  usages := hyz.usages.trans hxy.usages

theorem Keeps.definitions_allItems {y : Indexes} (h : x.Keeps y) :
    y.definitions.state.allItems = x.definitions.state.allItems := by
  rw [allItems, h.definitions, allItems]

theorem Keeps.usages_allItems {y : Indexes} (h : x.Keeps y) :
    y.usages.state.allItems = x.usages.state.allItems := by
  rw [allItems, h.usages, allItems]

theorem Current.keeps (h : x.Current) : x.Keeps x :=
  ⟨h, rfl, rfl⟩

theorem Current.of_definitions_section (h : x.Current) {s : IndexState Definition}
    (hsection : Section x.definitions.setup x.definitions.state s) :
    Current { x with definitions.state := s } where
  definitions := h.definitions.of_section hsection
  usages := h.usages
  lookups entry hentry := (h.lookups entry hentry).of_section h.definitions.kept.law hsection

theorem Current.of_usages_section (h : x.Current) {s : IndexState Occurrence}
    (hsection : Section x.usages.setup x.usages.state s) : Current { x with usages.state := s } where
  definitions := h.definitions
  usages := h.usages.of_section hsection
  lookups := h.lookups

theorem Current.of_definitions (h : x.Current) {definitions : DefinitionIndex}
    (hkeeps : x.definitions.Keeps definitions) : x.Keeps { x with definitions := definitions } where
  current :=
    { definitions := hkeeps.current
      usages := h.usages
      lookups := fun entry hentry => (h.lookups entry hentry).of_section h.definitions.kept.law hkeeps.moved }
  definitions := hkeeps.files
  usages := rfl

theorem Current.of_usages (h : x.Current) {usages : UsageIndex} (hkeeps : x.usages.Keeps usages) :
    x.Keeps { x with usages := usages } where
  current := ⟨h.definitions, hkeeps.current, h.lookups⟩
  definitions := rfl
  usages := hkeeps.files

theorem Current.lookup (h : x.Current) (keyword : Option StepKeyword) (text : Text) :
    x.Keeps (x.lookup keyword text).1 ∧
      (x.lookup keyword text).2 = Definition.fitting x.definitions.state.allItems keyword text := by
  rw [Indexes.lookup]
  dsimp only
  split
  next found hfound =>
    have hanswer := (h.lookups _ (Lru.mem_of_find? hfound)).holds rfl
    rw [Definition.fitting_trim] at hanswer
    refine ⟨⟨⟨h.definitions, h.usages, fun entry hentry => ?_⟩, rfl, rfl⟩, hanswer⟩
    exact h.lookups entry (Lru.mem_of_mem_touch hentry)
  next =>
    obtain ⟨hkeeps, hanswer⟩ := h.definitions.accepting keyword text
    refine ⟨⟨⟨hkeeps.current, h.usages, fun entry hentry => ?_⟩, hkeeps.files, rfl⟩, hanswer⟩
    rcases Lru.mem_of_mem_put hentry with rfl | hentry
    · have hnow : Dated x.definitions.state x.definitions.state.version fun items =>
          (x.definitions.accepting keyword text).2 = Definition.fitting items keyword (Text.trim text) := by
        refine .now ?_
        rw [hanswer, Definition.fitting_trim]
      exact hnow.of_section h.definitions.kept.law hkeeps.moved
    · exact (h.lookups entry hentry).of_section h.definitions.kept.law hkeeps.moved

theorem Current.definitionsAt (h : x.Current) (lineAt : Nat → Option Text) (line : Nat) :
    x.Keeps (x.definitionsAt lineAt line).1 ∧
      (x.definitionsAt lineAt line).2 = Definition.placesAt x.definitions.state.allItems lineAt line := by
  rw [Indexes.definitionsAt, Definition.placesAt]
  cases hstep : (lineAt line).bind StepLine.ofLine? with
  | none => exact ⟨h.keeps, rfl⟩
  | some step =>
    obtain ⟨hkeeps, hanswer⟩ := h.lookup (effectiveKeyword lineAt line) step.text
    exact ⟨hkeeps, congrArg (List.map Definition.location) hanswer⟩

theorem Current.complete (h : x.Current) (keyword : Option StepKeyword) (typed : Text) :
    x.Keeps (x.complete keyword typed).1 ∧
      (x.complete keyword typed).2 = Candidate.offered x.definitions.state.allItems keyword typed := by
  obtain ⟨hkeeps, hpool⟩ := h.definitions.pool keyword
  refine ⟨h.of_definitions hkeeps, ?_⟩
  show (Completion.select (x.definitions.pool keyword).2 typed).map _ = _
  rw [hpool, Candidate.offered]

/-- Which steps are defined by a view. -/
def isDefined (view : List Definition) (keyword : Option StepKeyword) (text : Text) : Bool :=
  !(Definition.fitting view keyword text).isEmpty

theorem Current.diagnoseLines (h : x.Current) (stillWanted : Nat → Bool) (lineAt : Nat → Option Text)
    (scanner : Scanner) (index polls wait : Nat) (found : List Diagnostic) (lines : List Text) :
    let run := x.diagnoseLines stillWanted lineAt scanner index polls wait found lines
    x.Keeps run.1 ∧ run.2 = Diagnostic.runOver (isDefined x.definitions.state.allItems) stillWanted lineAt
      scanner index polls wait found lines := by
  induction lines generalizing x scanner index polls wait found with
  | nil => exact ⟨h.keeps, rfl⟩
  | cons line lines ih =>
    simp only [Indexes.diagnoseLines, Diagnostic.runOver]
    split
    · exact ⟨h.keeps, rfl⟩
    · rcases scanner.feed line with ⟨scanner, _ | s⟩
      · exact ih h scanner ..
      · obtain ⟨hkeeps, hanswer⟩ := h.lookup (effectiveKeyword lineAt index) s.step.text
        have hsame := hkeeps.definitions_allItems
        have hdefined : isDefined x.definitions.state.allItems (effectiveKeyword lineAt index) s.step.text =
            !(x.lookup (effectiveKeyword lineAt index) s.step.text).2.isEmpty := by
          rw [isDefined, ← hanswer]
        dsimp only
        rw [hdefined]
        split
        next y hlookup =>
          rw [hlookup] at hkeeps hsame ⊢
          obtain ⟨hrun, hresult⟩ :=
            ih hkeeps.current scanner (index + 1) _ _ (.ofStep index line s.step :: found)
          rw [hsame] at hresult
          exact ⟨hkeeps.trans hrun, hresult⟩
        next y defined hne hlookup =>
          rw [hlookup] at hkeeps hsame ⊢
          obtain ⟨hrun, hresult⟩ := ih hkeeps.current scanner (index + 1) _ _ found
          rw [hsame] at hresult
          have hdefined : defined.isEmpty = false := by
            rw [List.isEmpty_eq_false_iff]
            exact hne
          rw [hdefined]
          exact ⟨hkeeps.trans hrun, hresult⟩

theorem Current.diagnoseChecked (h : x.Current) (stillWanted : Nat → Bool) (text : Text) :
    x.Keeps (x.diagnoseChecked stillWanted text).1 ∧ (x.diagnoseChecked stillWanted text).2 =
      Diagnostic.runOver (isDefined x.definitions.state.allItems) stillWanted
        (fun i => (Text.lines text).toArray[i]?) {} 0 0 Diagnostic.interval [] (Text.lines text) :=
  h.diagnoseLines ..

theorem Current.occurrencesOf (h : x.Current) (block : List Decorator) :
    x.Keeps (x.occurrencesOf block).1 ∧ (x.occurrencesOf block).2.1 =
      block.flatMap fun d => Occurrence.searched x.usages.state.allItems d.pattern (some d.keyword) := by
  induction block generalizing x with
  | nil => exact ⟨h.keeps, rfl⟩
  | cons d rest ih =>
    obtain ⟨hfirst, hfound⟩ := h.usages.accepted d.pattern (some d.keyword)
    have hkeeps := h.of_usages hfirst
    obtain ⟨hrest, hothers⟩ := ih hkeeps.current
    rw [hkeeps.usages_allItems] at hothers
    refine ⟨hkeeps.trans hrest, ?_⟩
    rw [List.flatMap_cons, ← hfound, ← hothers]
    rfl

theorem Current.usagesAt (h : x.Current) (lines : List Text) (line : Nat) :
    x.Keeps (x.usagesAt lines line).1 ∧
      (x.usagesAt lines line).2.1 = Occurrence.placesOf x.usages.state.allItems lines line := by
  rw [Indexes.usagesAt, Occurrence.placesOf]
  cases decoratorsFor lines line with
  | nil => exact ⟨h.keeps, rfl⟩
  | cons d block =>
    obtain ⟨hkeeps, hfound⟩ := h.occurrencesOf (d :: block)
    refine ⟨hkeeps, congrArg Except.ok ?_⟩
    rw [← hfound]

end Indexes

/-! ### Runs -/

/-- What can be asked of the two indexes. -/
inductive Query where
  | offered (k : StepKeyword)
  | accepting (keyword : Option StepKeyword) (text : Text)
  | lookup (keyword : Option StepKeyword) (text : Text)
  | definitionsAt (lineAt : Nat → Option Text) (line : Nat)
  | diagnose (stillWanted : Nat → Bool) (text : Text)
  | complete (keyword : Option StepKeyword) (typed : Text)
  | accepted (pattern : Text) (keyword : Option DefinitionKeyword)
  | usagesAt (lines : List Text) (line : Nat)

/-- The indexes after a query. -/
def Query.after (x : Indexes) : Query → Indexes
  | offered k => { x with definitions := (x.definitions.forKeyword k).1 }
  | accepting keyword text => { x with definitions := (x.definitions.accepting keyword text).1 }
  | lookup keyword text => (x.lookup keyword text).1
  | definitionsAt lineAt line => (x.definitionsAt lineAt line).1
  | diagnose stillWanted text => (x.diagnoseChecked stillWanted text).1
  | complete keyword typed => (x.complete keyword typed).1
  | accepted pattern keyword => { x with usages := (x.usages.accepted pattern keyword).1 }
  | usagesAt lines line => (x.usagesAt lines line).1

theorem Query.keeps {x : Indexes} (h : x.Current) (q : Query) : x.Keeps (q.after x) := by
  cases q with
  | offered k => exact h.of_definitions (h.definitions.forKeyword k).1
  | accepting keyword text => exact h.of_definitions (h.definitions.accepting keyword text).1
  | lookup keyword text => exact (h.lookup keyword text).1
  | definitionsAt lineAt line => exact (h.definitionsAt lineAt line).1
  | diagnose stillWanted text => exact (h.diagnoseChecked stillWanted text).1
  | complete keyword typed => exact (h.complete keyword typed).1
  | accepted pattern keyword => exact h.of_usages (h.usages.accepted pattern keyword).1
  | usagesAt lines line => exact (h.usagesAt lines line).1

/-- What happens at one moment: something to one of the indexes, or a query. -/
inductive Act where
  | definitions (m : Move)
  | usages (m : Move)
  | ask (q : Query)

/-- The two indexes with the calls on each, in the order in which they began. -/
structure Service where
  indexes : Indexes
  definitionCalls : List Call
  usageCalls : List Call

namespace Service

def new (root : Path) (definitions usages : Selection) (batchSize maxReplays : Nat) : Service :=
  ⟨.new root definitions usages batchSize maxReplays, [], []⟩

def definitionTraffic (x : Service) : Traffic Definition :=
  ⟨x.indexes.definitions.state, x.definitionCalls⟩

def usageTraffic (x : Service) : Traffic Occurrence :=
  ⟨x.indexes.usages.state, x.usageCalls⟩

def step (x : Service) : Act → Service
  | .definitions m =>
    let traffic := x.definitionTraffic.step x.indexes.definitions.setup m
    { x with
      indexes.definitions.state := traffic.index
      definitionCalls := traffic.calls }
  | .usages m =>
    let traffic := x.usageTraffic.step x.indexes.usages.setup m
    { x with
      indexes.usages.state := traffic.index
      usageCalls := traffic.calls }
  | .ask q => { x with indexes := q.after x.indexes }

/-- What there is at a moment of the run of some acts. -/
def after (x : Service) (acts : Nat → Act) : Nat → Service
  | 0 => x
  | t + 1 => (after x acts t).step (acts t)

theorem current_new (root : Path) (definitions usages : Selection) (batchSize maxReplays : Nat) :
    (Indexes.new root definitions usages batchSize maxReplays).Current where
  definitions :=
    { parse := rfl
      kept := ⟨Definition.lawful root definitions batchSize maxReplays, .new _ _ _, fun b h => by cases h⟩ }
  usages :=
    { parse := rfl
      kept := ⟨Occurrence.lawful root usages batchSize maxReplays, .new _ _ _, fun b h => by cases h⟩
      matchers := fun entry h => by cases h }
  lookups entry h := by cases h

theorem current_step {x : Service} (h : x.indexes.Current) (a : Act) : (x.step a).indexes.Current := by
  cases a with
  | definitions m => exact h.of_definitions_section (Traffic.step_section _ x.definitionTraffic m)
  | usages m => exact h.of_usages_section (Traffic.step_section _ x.usageTraffic m)
  | ask q => exact (q.keeps h).current

theorem current_after {x : Service} (h : x.indexes.Current) (acts : Nat → Act) (t : Nat) :
    (x.after acts t).indexes.Current := by
  induction t with
  | zero => exact h
  | succ t ih => exact current_step ih (acts t)

/-- At every moment of every run, whatever has happened to the indexes and has been asked before, the
definitions for a keyword and the answer of every look-up are read off the files: those of the keyword come
before those of all keywords, and a look-up keeps the ones that accept the text. The queries that look
definitions up on their way are answered from the files likewise. -/
theorem queries_uncached (root : Path) (definitions usages : Selection) (batchSize maxReplays : Nat)
    (acts : Nat → Act) (t : Nat) :
    let x := ((new root definitions usages batchSize maxReplays).after acts t).indexes
    let view := x.definitions.state.files.flatMap (·.2)
    x.definitions.all.2 = view ∧
    (∀ k, (x.definitions.forKeyword k).2 =
      (view.filter fun d => d.keyword = .only k) ++ view.filter fun d => d.keyword = .any) ∧
    (∀ keyword text, (x.lookup keyword text).2 =
      (Definition.offered view keyword).filter fun d => d.accepts text) ∧
    (∀ lineAt line, (x.definitionsAt lineAt line).2 = Definition.placesAt view lineAt line) ∧
    (∀ stillWanted text, (x.diagnoseChecked stillWanted text).2 =
      Diagnostic.runOver (Indexes.isDefined view) stillWanted (fun i => (Text.lines text).toArray[i]?) {} 0 0
        Diagnostic.interval [] (Text.lines text)) ∧
    ∀ keyword typed, (x.complete keyword typed).2 = Candidate.offered view keyword typed := by
  intro x view
  have hcurrent : x.Current := current_after (current_new root definitions usages batchSize maxReplays) acts t
  exact ⟨hcurrent.definitions.all.2, fun k => (hcurrent.definitions.forKeyword k).2,
    fun keyword text => (hcurrent.lookup keyword text).2,
    fun lineAt line => (hcurrent.definitionsAt lineAt line).2,
    fun stillWanted text => (hcurrent.diagnoseChecked stillWanted text).2,
    fun keyword typed => (hcurrent.complete keyword typed).2⟩

end Service

end StepLink
