import StepLink.Proofs.Query.Cache
import StepLink.Server.Job

/-! What the server shows of a document, and what asking for it leaves alone. Whether a document belongs to a corpus
and which of its steps are undefined is read off the indexes; only what they keep beside the files may differ
afterwards. -/

namespace StepLink

open IndexState

variable {α : Type} {setup : IndexSetup α} {s t u : IndexState α} {x y z : Indexes} {documents : Documents}
  {p : Path}

/-- The states agree in all but what they keep beside the files. -/
structure IndexState.SameButCaches (s t : IndexState α) : Prop where
  files : t.files = s.files
  scanning : t.scanning = s.scanning
  version : t.version = s.version
  globs : t.globs = s.globs
  lifecycle : t.lifecycle = s.lifecycle

namespace IndexState.SameButCaches

theorem refl (s : IndexState α) : SameButCaches s s :=
  ⟨rfl, rfl, rfl, rfl, rfl⟩

theorem trans (hst : SameButCaches s t) (htu : SameButCaches t u) : SameButCaches s u where
  files := htu.files.trans hst.files
  scanning := htu.scanning.trans hst.scanning
  version := htu.version.trans hst.version
  globs := htu.globs.trans hst.globs
  lifecycle := htu.lifecycle.trans hst.lifecycle

theorem snapshot (s : IndexState α) : SameButCaches s s.snapshot.1 := by
  rw [IndexState.snapshot]
  split <;> exact ⟨rfl, rfl, rfl, rfl, rfl⟩

theorem compiledFilter (root : Path) (s : IndexState α) : SameButCaches s (s.compiledFilter root).1 := by
  rw [IndexState.compiledFilter]
  split <;> exact ⟨rfl, rfl, rfl, rfl, rfl⟩

theorem isDisposed (h : SameButCaches s t) : t.isDisposed = s.isDisposed := by
  rw [IndexState.isDisposed, h.lifecycle, IndexState.isDisposed]

theorem scanning? (h : SameButCaches s t) (p : Path) : t.scanning? p = s.scanning? p := by
  rw [scanning?_eq_lookup, h.scanning, scanning?_eq_lookup]

theorem items? (h : SameButCaches s t) (p : Path) : t.items? p = s.items? p := by
  rw [items?_eq_lookup, h.files, items?_eq_lookup]

end IndexState.SameButCaches

namespace Indexes

/-- The indexes agree in all but what they keep beside the files, and that is right. -/
structure SameButCaches (x y : Indexes) : Prop where
  current : y.Current
  definitionSetup : y.definitions.setup = x.definitions.setup
  usageSetup : y.usages.setup = x.usages.setup
  definitions : IndexState.SameButCaches x.definitions.state y.definitions.state
  usages : IndexState.SameButCaches x.usages.state y.usages.state

namespace SameButCaches

theorem refl (h : x.Current) : x.SameButCaches x :=
  ⟨h, rfl, rfl, .refl _, .refl _⟩

theorem trans (hxy : x.SameButCaches y) (hyz : y.SameButCaches z) : x.SameButCaches z where
  current := hyz.current
  definitionSetup := hyz.definitionSetup.trans hxy.definitionSetup
  usageSetup := hyz.usageSetup.trans hxy.usageSetup
  definitions := hxy.definitions.trans hyz.definitions
  usages := hxy.usages.trans hyz.usages

theorem allItems (h : x.SameButCaches y) : y.definitions.state.allItems = x.definitions.state.allItems := by
  rw [IndexState.allItems, h.definitions.files, IndexState.allItems]

end SameButCaches

def stepFilter (x : Indexes) : CorpusFilter :=
  .ofGlobs x.definitions.setup.root x.definitions.state.globs

def featureFilter (x : Indexes) : CorpusFilter :=
  .ofGlobs x.usages.setup.root x.usages.state.globs

theorem SameButCaches.featureFilter (h : x.SameButCaches y) : y.featureFilter = x.featureFilter := by
  rw [Indexes.featureFilter, h.usageSetup, h.usages.globs, Indexes.featureFilter]

theorem Current.hasSteps (h : x.Current) (p : Path) :
    x.SameButCaches (x.hasSteps p).1 ∧ (x.hasSteps p).2 = x.stepFilter.accepts p := by
  have hfilter := compiledFilter_snd h.definitions.kept.sound.filter
  exact ⟨⟨h.of_definitions_section .filter, rfl, rfl, .compiledFilter _ _, .refl _⟩,
    congrArg (·.accepts p) hfilter⟩

theorem Current.hasFeatures (h : x.Current) (p : Path) :
    x.SameButCaches (x.hasFeatures p).1 ∧ (x.hasFeatures p).2 = x.featureFilter.accepts p := by
  have hfilter := compiledFilter_snd h.usages.kept.sound.filter
  exact ⟨⟨h.of_usages_section .filter, rfl, rfl, .refl _, .compiledFilter _ _⟩,
    congrArg (·.accepts p) hfilter⟩

theorem Current.lookup_sameButCaches (h : x.Current) (keyword : Option StepKeyword) (text : Text) :
    x.SameButCaches (x.lookup keyword text).1 := by
  have hcurrent := (h.lookup keyword text).1.current
  rw [Indexes.lookup] at hcurrent ⊢
  dsimp only at hcurrent ⊢
  split
  next found hfound =>
    rw [hfound] at hcurrent
    exact ⟨hcurrent, rfl, rfl, .refl _, .refl _⟩
  next hfound =>
    rw [hfound] at hcurrent
    -- the definitions for a keyword and all of them are read off the same view
    have hstate : (x.definitions.accepting keyword text).1.setup = x.definitions.setup ∧
        (x.definitions.accepting keyword text).1.state = x.definitions.state.snapshot.1 := by
      cases keyword <;> exact ⟨rfl, rfl⟩
    refine ⟨hcurrent, hstate.1, rfl, ?_, .refl _⟩
    show IndexState.SameButCaches _ (x.definitions.accepting keyword text).1.state
    rw [hstate.2]
    exact .snapshot _

theorem Current.diagnoseLines_sameButCaches (h : x.Current) (stillWanted : Nat → Bool)
    (lineAt : Nat → Option Text) (scanner : Scanner) (index polls wait : Nat) (found : List Diagnostic)
    (lines : List Text) :
    x.SameButCaches (x.diagnoseLines stillWanted lineAt scanner index polls wait found lines).1 := by
  induction lines generalizing x scanner index polls wait found with
  | nil => exact .refl h
  | cons line lines ih =>
    simp only [Indexes.diagnoseLines]
    split
    · exact .refl h
    · rcases scanner.feed line with ⟨scanner, _ | s⟩
      · exact ih h ..
      · have hlookup := h.lookup_sameButCaches (effectiveKeyword lineAt index) s.step.text
        dsimp only
        split
        next y heq =>
          rw [heq] at hlookup
          exact hlookup.trans (ih hlookup.current ..)
        next y defined hne heq =>
          rw [heq] at hlookup
          exact hlookup.trans (ih hlookup.current ..)

/-- The diagnostics of a text, given the definitions. -/
def diagnosticsOf (view : List Definition) (text : Text) : List Diagnostic :=
  (Diagnostic.runOver (isDefined view) (fun _ => true) (fun i => (Text.lines text).toArray[i]?) {} 0 0
    Diagnostic.interval [] (Text.lines text)).found.getD []

theorem Current.diagnose (h : x.Current) (text : Text) : x.SameButCaches (x.diagnose text).1 ∧
    (x.diagnose text).2 = diagnosticsOf x.definitions.state.allItems text := by
  obtain ⟨-, hfound⟩ := h.diagnoseChecked (fun _ => true) text
  exact ⟨h.diagnoseLines_sameButCaches .., congrArg (fun run => run.found.getD []) hfound⟩

/-- The diagnostics depend on the files of the definitions alone. -/
theorem SameButCaches.diagnose_eq (h : x.SameButCaches y) (hx : x.Current) (text : Text) :
    (y.diagnose text).2 = (x.diagnose text).2 := by
  rw [(h.current.diagnose text).2, h.allItems, (hx.diagnose text).2]

/-- What is due to be shown of a document: its diagnostics, if it is open and a feature file. -/
def due (documents : Documents) (x : Indexes) (p : Path) : List Publication :=
  match documents.get? p with
  | some document =>
    if x.featureFilter.accepts p then [⟨p, some document.version, (x.diagnose document.text).2⟩] else []
  | none => []

/-- What is due depends on the files of the definitions and the globs of the feature files alone. -/
theorem due_congr (hx : x.Current) (hy : y.Current)
    (hitems : y.definitions.state.allItems = x.definitions.state.allItems)
    (hfilter : y.featureFilter = x.featureFilter) (documents : Documents) (p : Path) :
    y.due documents p = x.due documents p := by
  rw [due, hfilter, due]
  cases documents.get? p with
  | none => rfl
  | some document =>
    dsimp only
    rw [(hy.diagnose document.text).2, hitems, (hx.diagnose document.text).2]

theorem SameButCaches.due_eq (h : x.SameButCaches y) (hx : x.Current) (documents : Documents) (p : Path) :
    y.due documents p = x.due documents p :=
  due_congr hx h.current h.allItems h.featureFilter documents p

theorem Current.publish (h : x.Current) (documents : Documents) (p : Path) :
    x.SameButCaches (x.publish documents p).1 ∧ (x.publish documents p).2 = x.due documents p := by
  obtain ⟨hsame, hfeatures⟩ := h.hasFeatures p
  rw [Indexes.publish, due]
  cases documents.get? p with
  | none => exact ⟨.refl h, rfl⟩
  | some document =>
    dsimp only
    generalize x.hasFeatures p = answer at hsame hfeatures
    obtain ⟨y, _ | _⟩ := answer
    · rw [← hfeatures]
      exact ⟨hsame, rfl⟩
    · rw [← hfeatures, ← hsame.diagnose_eq h]
      exact ⟨hsame.trans (hsame.current.diagnose document.text).1, rfl⟩

theorem Current.publishAll (h : x.Current) (documents : Documents) (paths : List Path) :
    x.SameButCaches (x.publishAll documents paths).1 ∧
      (x.publishAll documents paths).2 = paths.flatMap (x.due documents) := by
  induction paths generalizing x with
  | nil => exact ⟨.refl h, rfl⟩
  | cons p rest ih =>
    obtain ⟨hfirst, hshown⟩ := h.publish documents p
    obtain ⟨hrest, hothers⟩ := ih hfirst.current
    refine ⟨hfirst.trans hrest, ?_⟩
    have hdue : (x.publish documents p).1.due documents = x.due documents :=
      funext (hfirst.due_eq h documents)
    rw [List.flatMap_cons, ← hshown, ← hdue, ← hothers]
    rfl

end Indexes

end StepLink
