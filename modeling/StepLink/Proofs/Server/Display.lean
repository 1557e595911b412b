import StepLink.Proofs.Index.Coalescing
import StepLink.Proofs.Index.Version
import StepLink.Proofs.Server.Occasion

/-! What the editor shows of a document: the diagnostics that were published for it last. Whatever may change
the diagnostics of an open feature file leaves a job that will publish them anew, so what is shown is up to date
once no job is left. A document that is open and does not belong to the corpus is passed over, so what was shown
of it before stays. -/

namespace StepLink

open IndexState

variable {disk : Disk} {s t : Server} {x y : Indexes} {p q : Path} {documents : Documents} {action : Action}
  {rest left job : Job} {seen outs others : List Output} {world : World} {connected : Bool} {known : Path → Prop}
  {n m : Publication} {version grown : Nat}

def Output.publication? : Output → Option Publication
  | .published n => some n
  | .logged _ => none

/-- What is shown of a document after some outputs: what was published for it last. -/
def shown (outs : List Output) (p : Path) : Option Publication :=
  ((outs.filterMap Output.publication?).filter fun n => n.path.same p).getLast?

theorem shown_append (outs others : List Output) (p : Path) :
    shown (outs ++ others) p = (shown others p).or (shown outs p) := by
  rw [shown, List.filterMap_append, List.filter_append, List.getLast?_append]
  rfl

theorem mem_publications : n ∈ outs.filterMap Output.publication? ↔ .published n ∈ outs := by
  rw [List.mem_filterMap]
  constructor
  · rintro ⟨o, ho, hn⟩
    cases o <;> cases hn
    exact ho
  · exact fun hn => ⟨_, hn, rfl⟩

theorem mem_of_shown (h : shown outs p = some n) : .published n ∈ outs ∧ n.path.same p = true := by
  obtain ⟨hmem, hsame⟩ := List.mem_filter.mp (List.mem_of_getLast? h)
  exact ⟨mem_publications.mp hmem, hsame⟩

theorem shown_eq_none (h : ∀ n, .published n ∈ outs → n.path.same p = false) : shown outs p = none := by
  cases hshown : shown outs p with
  | none => rfl
  | some n =>
    obtain ⟨hmem, hsame⟩ := mem_of_shown hshown
    rw [h n hmem] at hsame
    cases hsame

theorem isSome_shown (hmem : .published n ∈ outs) (hsame : n.path.same p = true) :
    (shown outs p).isSome = true := by
  rw [shown, List.getLast?_isSome]
  exact List.ne_nil_of_mem (List.mem_filter.mpr ⟨mem_publications.mpr hmem, hsame⟩)

/-- Where all that is published for a document is the same, this is shown. -/
theorem shown_eq_some (hmem : .published n ∈ outs) (hsame : n.path.same p = true)
    (honly : ∀ m, .published m ∈ outs → m.path.same p = true → m = n) : shown outs p = some n := by
  obtain ⟨m, hm⟩ := Option.isSome_iff_exists.mp (isSome_shown hmem hsame)
  obtain ⟨hmem', hsame'⟩ := mem_of_shown hm
  rw [hm, honly m hmem' hsame']

/-- Where only empty lists are published for a document later, an empty list stays so, and one of them is seen. -/
theorem empty_of_shown_append
    (hempty : ∀ n, .published n ∈ seen → n.path.same p = true → n.diagnostics = [])
    (hshown : (shown seen p).isSome = true ∨ ∀ n, shown outs p = some n → n.diagnostics = []) :
    ∀ n, shown (outs ++ seen) p = some n → n.diagnostics = [] := by
  intro n hn
  rw [shown_append, Option.or_eq_some_iff] at hn
  rcases hn with hn | ⟨hnone, hn⟩
  · exact hempty n (mem_of_shown hn).1 (mem_of_shown hn).2
  · rcases hshown with hsome | hold
    · rw [hnone] at hsome
      cases hsome
    · exact hold n hn

/-- The warnings of a call publish nothing. -/
theorem not_published_of_observed {told : List Observation} :
    .published n ∉ told.filterMap Output.ofObservation? := by
  intro hn
  obtain ⟨o, -, ho⟩ := List.mem_filterMap.mp hn
  cases o <;> cases ho

theorem shown_observed (told : List Observation) (p : Path) :
    shown (told.filterMap Output.ofObservation?) p = none :=
  shown_eq_none fun _ hn => (not_published_of_observed hn).elim

namespace Indexes

theorem mem_due (h : n ∈ x.due documents p) : n.path = p ∧ ∃ document, documents.get? p = some document ∧
    x.featureFilter.accepts p = true ∧ n = ⟨p, some document.version, (x.diagnose document.text).2⟩ := by
  rw [due] at h
  split at h
  next document hopen =>
    split at h
    next haccepts =>
      obtain rfl := List.mem_singleton.mp h
      exact ⟨rfl, document, hopen, haccepts, rfl⟩
    next => cases h
  next => cases h

theorem due_eq {document : Buffer} (hopen : documents.get? p = some document)
    (haccepts : x.featureFilter.accepts p = true) :
    x.due documents p = [⟨p, some document.version, (x.diagnose document.text).2⟩] := by
  rw [due, hopen]
  exact if_pos haccepts

end Indexes

namespace Action

/-- The action leads to the diagnostics of the path being shown anew, if they are due. -/
def Promises (version : Nat) (p : Path) : Action → Prop
  | refresh => True
  | refreshAfter before => before < version
  | publish q => q = p
  | syncFeatures q => q = p
  | _ => False

/-- The action stands behind the first one of a job. -/
def IsLater (known : Path → Prop) (version : Nat) : Action → Prop
  | refresh => True
  | refreshAfter before => before ≤ version
  | publish q => known q
  | syncFeatures q => known q
  | syncSteps _ => True
  | _ => False

theorem Promises.mono (h : action.Promises version p) (hversion : version ≤ grown) : action.Promises grown p := by
  cases action <;> first | exact h | exact Nat.lt_of_lt_of_le h hversion

theorem IsLater.mono (h : action.IsLater known version) (hversion : version ≤ grown) :
    action.IsLater known grown := by
  cases action <;> first | exact h | exact Nat.le_trans h hversion

end Action

namespace Job

/-- Whatever the first action of the job may change of the diagnostics, the rest of the job shows them anew. -/
inductive Orderly (known : Path → Prop) (version : Nat) : Job → Prop where
  | rests (job : Job) (rest : ∀ action ∈ job, action.IsLater known version) : Orderly known version job
  | clears (p : Path) (rest : Job) (path : known p) (reads : .syncFeatures p ∈ rest)
    (later : ∀ action ∈ rest, action.IsLater known version) : Orderly known version (.clear p :: rest)
  | follows (e : FileEvent) (rest : Job) (later : ∀ action ∈ rest, action.IsLater known version) :
    Orderly known version (.follow e :: rest)
  | runs (definitions usages : Call) (rest : Job)
    (changes : definitions.isEnded = true ∨ .refresh ∈ rest ∨ ∃ before, .refreshAfter before ∈ rest)
    (selects : usages.globs? = none ∨ .refresh ∈ rest)
    (later : ∀ action ∈ rest, action.IsLater known version) :
    Orderly known version (.running definitions usages :: rest)

theorem Orderly.later (h : Orderly known version (action :: rest)) :
    ∀ a ∈ rest, a.IsLater known version := by
  cases h with
  | rests job later => exact fun a ha => later a (List.mem_cons_of_mem action ha)
  | clears p rest path reads later => exact later
  | follows e rest later => exact later
  | runs definitions usages rest changes selects later => exact later

theorem Orderly.known_of_publish (h : Orderly known version (.publish p :: rest)) : known p := by
  cases h with
  | rests job later => exact later _ List.mem_cons_self

theorem Orderly.of_running {definitions usages : Call}
    (h : Orderly known version (.running definitions usages :: rest)) :
    (definitions.isEnded = true ∨ .refresh ∈ rest ∨ ∃ before, .refreshAfter before ∈ rest) ∧
      (usages.globs? = none ∨ .refresh ∈ rest) := by
  cases h with
  | rests job later => exact (later _ List.mem_cons_self).elim
  | runs _ _ _ changes selects _ => exact ⟨changes, selects⟩

theorem Orderly.mono (h : Orderly known version job) (hversion : version ≤ grown) : Orderly known grown job := by
  cases h with
  | rests job later => exact .rests job fun a ha => (later a ha).mono hversion
  | clears p rest path reads later => exact .clears p rest path reads fun a ha => (later a ha).mono hversion
  | follows e rest later => exact .follows e rest fun a ha => (later a ha).mono hversion
  | runs definitions usages rest changes selects later =>
    exact .runs definitions usages rest changes selects fun a ha => (later a ha).mono hversion

end Job

theorem Call.step_globs?_snd {α : Type} (setup : IndexSetup α) (world : World) (pick : Nat) (s : IndexState α)
    (c : Call) : (c.step setup world pick s).2.1.globs? = none := by
  cases c <;> simp only [Call.step] <;> first | rfl | (split <;> rfl)

/-! ### Steps -/

namespace Action

/-- A turn of a call on the definitions leaves the version as it was and with it the files, or the version grows. -/
theorem version_turned {definitions : Call} {pick : Nat} {u : IndexState Definition} {d : Call}
    {told : List Observation} (hx : x.Current)
    (turned : definitions.step x.definitions.setup world pick x.definitions.state = (u, d, told)) :
    u.version = x.definitions.state.version ∧ u.allItems = x.definitions.state.allItems ∨
      x.definitions.state.version < u.version ∧ definitions.isEnded = false := by
  have hsection := Call.step_section x.definitions.setup world pick x.definitions.state definitions
  rw [turned] at hsection
  have hcounts := hsection.revision.counts hx.definitions.kept.law.same_refl
  by_cases hfiles : u.files = x.definitions.state.files
  · exact .inl ⟨(hcounts.unchanged hfiles).1, by rw [allItems, hfiles, allItems]⟩
  · refine .inr ⟨by rw [(hcounts.changed hfiles).1]; exact Nat.lt_succ_self _, ?_⟩
    cases hended : definitions.isEnded with
    | false => rfl
    | true =>
      cases definitions with
      | ended dropped =>
        cases turned
        exact absurd rfl hfiles
      | _ => cases hended

theorem Acts.version_le (hx : x.Current) (h : action.Acts connected world x y left seen) :
    x.definitionsVersion ≤ y.definitionsVersion := by
  cases h with
  | turnsDefinitions definitions usages pick u d told turned =>
    rcases version_turned hx turned with ⟨hversion, -⟩ | ⟨hversion, -⟩
    · exact Nat.le_of_eq hversion.symm
    · exact Nat.le_of_lt hversion
  | turnsUsages definitions usages pick u d told turned => exact Nat.le_refl _
  | follows e => exact Nat.le_refl _
  | checks version => exact Nat.le_refl _
  | clears p => exact Nat.le_refl _
  | readsSteps p y same => exact Nat.le_of_eq same.definitions.version.symm
  | leavesSteps p y same => exact Nat.le_of_eq same.definitions.version.symm
  | readsFeatures p y same => exact Nat.le_of_eq same.definitions.version.symm
  | leavesFeatures p y same => exact Nat.le_of_eq same.definitions.version.symm
  | refreshes y same => exact Nat.le_of_eq same.definitions.version.symm
  | publishes p y same => exact Nat.le_of_eq same.definitions.version.symm

theorem orderly_continuing {definitions usages : Call}
    (hchanges : definitions.isEnded = true ∨ .refresh ∈ rest ∨ ∃ before, .refreshAfter before ∈ rest)
    (hselects : usages.globs? = none ∨ .refresh ∈ rest)
    (hlater : ∀ action ∈ rest, action.IsLater known version) :
    Job.Orderly known version (continuing definitions usages ++ rest) := by
  rw [continuing]
  split
  · exact .rests rest hlater
  · exact .runs definitions usages rest hchanges hselects hlater

theorem Acts.orderly (hx : x.Current) (hjob : Job.Orderly known x.definitionsVersion (action :: rest))
    (h : action.Acts connected world x y left seen) : Job.Orderly known y.definitionsVersion (left ++ rest) := by
  have hversion := h.version_le hx
  have hlater : ∀ a ∈ rest, a.IsLater known y.definitionsVersion := fun a ha => (hjob.later a ha).mono hversion
  have hrests : Job.Orderly known y.definitionsVersion ([] ++ rest) := .rests rest hlater
  cases h with
  | readsSteps p y same =>
    exact .runs _ _ _ (.inr (.inr ⟨_, List.mem_cons_self⟩)) (.inl rfl)
      (List.forall_mem_cons.mpr ⟨hversion, hlater⟩)
  | leavesSteps p y same => exact hrests
  | readsFeatures p y same =>
    have hp : known p := by
      cases hjob with
      | rests job later => exact later _ List.mem_cons_self
    exact .runs _ _ _ (.inl rfl) (.inl rfl) (List.forall_mem_cons.mpr ⟨hp, hlater⟩)
  | leavesFeatures p y same => exact hrests
  | follows e =>
    have hselects : (Call.ofEvent e).globs? = none := by cases e <;> rfl
    exact .runs _ _ _ (.inr (.inr ⟨_, List.mem_cons_self⟩)) (.inl hselects)
      (List.forall_mem_cons.mpr ⟨hversion, hlater⟩)
  | turnsDefinitions definitions usages pick u d told turned =>
    obtain ⟨hchanges, hselects⟩ := hjob.of_running
    refine orderly_continuing ?_ hselects hlater
    rcases hchanges with hended | hchanges
    · cases definitions with
      | ended dropped =>
        cases turned
        exact .inl rfl
      | _ => cases hended
    · exact .inr hchanges
  | turnsUsages definitions usages pick u d told turned =>
    have hselects := Call.step_globs?_snd x.usages.setup world pick x.usages.state usages
    rw [turned] at hselects
    exact orderly_continuing hjob.of_running.1 (.inl hselects) hlater
  | refreshes y same => exact hrests
  | checks version =>
    split
    · exact hrests
    · exact .rests _ (List.forall_mem_cons.mpr ⟨trivial, hlater⟩)
  | publishes p y same => exact hrests
  | clears p => exact hrests

/-- What a step of a job means for a document that is open and a feature file: the job goes on to show its
diagnostics anew, they are shown now, or the step has nothing to do with them. -/
inductive Treats (action : Action) (documents : Documents) (x y : Indexes) (after : Job) (seen : List Output)
    (p : Path) : Prop where
  | promised (a : Action) (ha : a ∈ after) (promises : a.Promises y.definitionsVersion p)
  | appears (now : (shown seen p).toList = y.due documents p)
  | aside (same : y.due documents p = x.due documents p) (filter : y.featureFilter = x.featureFilter)
    (quiet : shown seen p = none) (nothing : ¬action.Promises x.definitionsVersion p)

theorem Treats.of_same {after : Job} (hx : x.Current) (hsame : x.SameButCaches y)
    (hnothing : ¬action.Promises x.definitionsVersion p) (hquiet : shown seen p = none) :
    action.Treats documents x y after seen p :=
  .aside (hsame.due_eq hx documents p) hsame.featureFilter hquiet hnothing

/-- What is due for a document is all that is published for it. -/
theorem shown_due (x : Indexes) (documents : Documents) (hspelled : ∀ q, known q → q.same p = true → q = p)
    {paths : List Path} (hpaths : ∀ q ∈ paths, known q) (hp : p ∈ paths) :
    (shown ((paths.flatMap (x.due documents)).map .published) p).toList = x.due documents p := by
  have hmem : ∀ {n}, Output.published n ∈ (paths.flatMap (x.due documents)).map .published ↔
      ∃ q ∈ paths, n ∈ x.due documents q := by
    intro n
    simp
  have honly : ∀ n, Output.published n ∈ (paths.flatMap (x.due documents)).map .published →
      n.path.same p = true → n ∈ x.due documents p := by
    intro n hn hsame
    obtain ⟨q, hq, hdue⟩ := hmem.mp hn
    obtain ⟨hpath, -⟩ := Indexes.mem_due hdue
    rw [hpath] at hsame
    rw [← hspelled q (hpaths q hq) hsame]
    exact hdue
  cases hdue : x.due documents p with
  | nil =>
    rw [shown_eq_none fun n hn => ?_]
    · rfl
    · rw [← Bool.not_eq_true]
      intro hsame
      have := honly n hn hsame
      rw [hdue] at this
      cases this
  | cons n others =>
    have hn : n ∈ x.due documents p := by rw [hdue]; exact List.mem_cons_self
    obtain ⟨hpath, document, hopen, haccepts, rfl⟩ := Indexes.mem_due hn
    have hone := Indexes.due_eq hopen haccepts
    rw [← hdue, hone, shown_eq_some (hmem.mpr ⟨p, hp, hn⟩) (Path.same_refl p) fun m hm hsame => ?_]
    · rfl
    · exact List.mem_singleton.mp (hone ▸ honly m hm hsame)

theorem Acts.treats (hx : x.Current) (hspelled : ∀ q, known q → q.same p = true → q = p)
    (hpaths : ∀ q ∈ world.documents.paths, known q) (hp : p ∈ world.documents.paths)
    (haccepts : y.featureFilter.accepts p = true)
    (hjob : Job.Orderly known x.definitionsVersion (action :: rest))
    (h : action.Acts true world x y left seen) :
    action.Treats world.documents x y (left ++ rest) seen p := by
  cases h with
  | readsSteps q y same => exact .of_same hx same id rfl
  | leavesSteps q y same => exact .of_same hx same id rfl
  | readsFeatures q y same =>
    by_cases hqp : q = p
    · exact .promised (.publish q) (List.mem_cons_of_mem _ List.mem_cons_self) hqp
    · exact .of_same hx same hqp rfl
  | leavesFeatures q y same rejected =>
    refine .of_same hx same (fun hqp => ?_) rfl
    rw [same.featureFilter, ← hqp, rejected] at haccepts
    cases haccepts
  | follows e => exact .of_same hx (.refl hx) id rfl
  | turnsDefinitions definitions usages pick u d told turned =>
    rcases version_turned hx turned with ⟨-, hitems⟩ | ⟨hversion, hended⟩
    · have hacts : Acts true world x _ _ _ _ := .turnsDefinitions definitions usages pick u d told turned
      have hy := hacts.current hx
      exact .aside (Indexes.due_congr hx hy.1 hitems rfl _ p) rfl (shown_observed told p) id
    · rcases hjob.of_running.1 with hover | hrefresh | ⟨before, hbefore⟩
      · rw [hended] at hover
        cases hover
      · exact .promised _ (List.mem_append_right _ hrefresh) trivial
      · have hgrown := Nat.lt_of_le_of_lt (hjob.later _ hbefore) hversion
        exact .promised _ (List.mem_append_right _ hbefore) hgrown
  | turnsUsages definitions usages pick u d told turned =>
    rcases hjob.of_running.2 with hglobs | hrefresh
    · have hsame := Call.step_globs x.usages.setup world pick x.usages.state usages
      rw [turned, hglobs] at hsame
      have hfilter : Indexes.featureFilter { x with usages.state := u } = x.featureFilter :=
        congrArg (CorpusFilter.ofGlobs x.usages.setup.root) hsame
      have hacts : Acts true world x _ _ _ _ := .turnsUsages definitions usages pick u d told turned
      have hy := hacts.current hx
      exact .aside (Indexes.due_congr hx hy.1 rfl hfilter _ p) hfilter (shown_observed told p) id
    · exact .promised _ (List.mem_append_right _ hrefresh) trivial
  | refreshes y same =>
    refine .appears ?_
    rw [same.due_eq hx]
    exact shown_due x world.documents hspelled hpaths hp
  | checks version =>
    split
    next hversion =>
      refine .of_same hx (.refl hx) (fun hlt : version < x.definitionsVersion => ?_) rfl
      rw [hversion] at hlt
      exact Nat.lt_irrefl _ hlt
    next => exact .promised .refresh List.mem_cons_self trivial
  | publishes q y same =>
    have hq := hjob.known_of_publish
    by_cases hqp : q = p
    · subst hqp
      refine .appears ?_
      have hshown := shown_due x world.documents hspelled (List.forall_mem_singleton.mpr hq) List.mem_cons_self
      rw [List.flatMap_singleton] at hshown
      rw [same.due_eq hx]
      exact hshown
    · refine .of_same hx same hqp (shown_eq_none fun n hn => Bool.eq_false_iff.mpr fun hsame => ?_)
      have hdue : n ∈ x.due world.documents q := by simpa using hn
      rw [(Indexes.mem_due hdue).1] at hsame
      exact hqp (hspelled q hq hsame)
  | clears q =>
    cases hjob with
    | rests job later => exact (later _ List.mem_cons_self).elim
    | clears _ _ path reads later =>
      by_cases hqp : q = p
      · exact .promised _ reads hqp
      · refine .of_same hx (.refl hx) id (shown_eq_none fun n hn => Bool.eq_false_iff.mpr fun hsame => ?_)
        cases List.mem_singleton.mp hn
        exact hqp (hspelled q path hsame)

/-- Nothing but an empty list is published for a document that is not open, and at the latest when its diagnostics
are cleared. -/
theorem Acts.closed (hclosed : world.documents.get? p = none) (h : action.Acts true world x y left seen) :
    (∀ n, .published n ∈ seen → n.path.same p = true → n.diagnostics = []) ∧
      ((∃ q, action = .clear q ∧ q.same p = true) → (shown seen p).isSome = true) := by
  have hdue : ∀ n q, n ∈ x.due world.documents q → n.path.same p = true → False := by
    intro n q hn hsame
    obtain ⟨hpath, document, hopen, -⟩ := Indexes.mem_due hn
    rw [hpath] at hsame
    rw [Documents.get?_congr hsame, hclosed] at hopen
    cases hopen
  cases h with
  | refreshes y same =>
    refine ⟨fun n hn hsame => ?_, fun ⟨q, hq, _⟩ => nomatch hq⟩
    have hn : ∃ q ∈ world.documents.paths, n ∈ x.due world.documents q := by simpa using hn
    obtain ⟨q, -, hq⟩ := hn
    exact (hdue n q hq hsame).elim
  | publishes q y same =>
    refine ⟨fun n hn hsame => ?_, fun ⟨q, hq, _⟩ => nomatch hq⟩
    exact (hdue n q (by simpa using hn) hsame).elim
  | clears q =>
    refine ⟨fun n hn _ => by cases List.mem_singleton.mp hn; rfl, fun ⟨r, hr, hsame⟩ => ?_⟩
    cases hr
    exact isSome_shown List.mem_cons_self hsame
  | turnsDefinitions definitions usages pick u d told turned =>
    exact ⟨fun n hn => (not_published_of_observed hn).elim, fun ⟨q, hq, _⟩ => nomatch hq⟩
  | turnsUsages definitions usages pick u d told turned =>
    exact ⟨fun n hn => (not_published_of_observed hn).elim, fun ⟨q, hq, _⟩ => nomatch hq⟩
  | _ => exact ⟨fun n hn => (List.not_mem_nil hn).elim, fun ⟨q, hq, _⟩ => nomatch hq⟩

/-- Of a document that is no feature file nothing is shown, unless its diagnostics are cleared. -/
theorem Acts.passes (hspelled : ∀ q, known q → q.same p = true → q = p)
    (hpaths : ∀ q ∈ world.documents.paths, known q) (hrejected : x.featureFilter.accepts p = false)
    (hjob : Job.Orderly known x.definitionsVersion (action :: rest))
    (hclear : ∀ q, action = .clear q → q.same p = false) (h : action.Acts true world x y left seen) :
    shown seen p = none ∧ ∀ q, .clear q ∉ left := by
  have hdue : ∀ q, known q → ∀ n ∈ x.due world.documents q, n.path.same p = false := by
    intro q hq n hn
    obtain ⟨hpath, document, hopen, haccepts, -⟩ := Indexes.mem_due hn
    rw [← Bool.not_eq_true, hpath]
    intro hsame
    rw [hspelled q hq hsame, hrejected] at haccepts
    cases haccepts
  cases h with
  | turnsDefinitions definitions usages pick u d told turned =>
    refine ⟨shown_observed told p, fun q => ?_⟩
    rw [continuing]
    split <;> simp
  | turnsUsages definitions usages pick u d told turned =>
    refine ⟨shown_observed told p, fun q => ?_⟩
    rw [continuing]
    split <;> simp
  | refreshes y same =>
    refine ⟨shown_eq_none fun n hn => ?_, fun q => List.not_mem_nil⟩
    obtain ⟨q, hq, hn⟩ : ∃ q ∈ world.documents.paths, n ∈ x.due world.documents q := by simpa using hn
    exact hdue q (hpaths q hq) n hn
  | publishes q y same =>
    have hq := hjob.known_of_publish
    exact ⟨shown_eq_none fun n hn => hdue q hq n (by simpa using hn), fun q => List.not_mem_nil⟩
  | clears q =>
    refine ⟨shown_eq_none fun n hn => ?_, fun q => List.not_mem_nil⟩
    cases List.mem_singleton.mp hn
    exact hclear q rfl
  | readsSteps q y same => exact ⟨rfl, by simp [onDefinitions]⟩
  | leavesSteps q y same => exact ⟨rfl, fun q => List.not_mem_nil⟩
  | readsFeatures q y same => exact ⟨rfl, by simp [onUsages]⟩
  | leavesFeatures q y same => exact ⟨rfl, fun q => List.not_mem_nil⟩
  | follows e => exact ⟨rfl, by simp⟩
  | checks version =>
    refine ⟨rfl, fun q => ?_⟩
    split <;> simp

end Action

namespace Server

/-- Some job goes on to show the diagnostics of the path anew, if they are due. -/
def Promises (s : Server) (version : Nat) (p : Path) : Prop :=
  ∃ job ∈ s.jobs, ∃ action ∈ job, action.Promises version p

/-- Some job goes on to clear the diagnostics of the path. -/
def Clears (s : Server) (p : Path) : Prop :=
  ∃ job ∈ s.jobs, ∃ q, .clear q ∈ job ∧ q.same p = true

/-- What holds at every moment of a server in use: of an open feature file the diagnostics are shown that are due,
and nothing of a document that is not open, unless a job will still see to it. -/
structure Displays (known : Path → Prop) (s : Server) (x : Indexes) (outs : List Output) : Prop where
  connected : s.connected = true
  indexes : s.indexes = some x
  current : x.Current
  documents : ∀ p ∈ s.documents.paths, known p
  orderly : ∀ job ∈ s.jobs, Job.Orderly known x.definitionsVersion job
  due : ∀ p ∈ s.documents.paths, x.featureFilter.accepts p = true →
    s.Promises x.definitionsVersion p ∨ (shown outs p).toList = x.due s.documents p
  closed : ∀ p, s.documents.get? p = none → s.Clears p ∨ ∀ n, shown outs p = some n → n.diagnostics = []

/-- Further jobs take nothing away. -/
theorem Displays.more (h : s.Displays known x outs) {jobs : List Job} (hjobs : t.jobs = s.jobs ++ jobs)
    (hsame : t.connected = s.connected ∧ t.indexes = s.indexes ∧ t.documents = s.documents)
    (horderly : ∀ job ∈ jobs, Job.Orderly known x.definitionsVersion job) : t.Displays known x outs where
  connected := hsame.1.trans h.connected
  indexes := hsame.2.1.trans h.indexes
  current := h.current
  documents := by
    rw [hsame.2.2]
    exact h.documents
  orderly := by
    rw [hjobs]
    exact List.forall_mem_append.mpr ⟨h.orderly, horderly⟩
  due p hp haccepts := by
    rw [hsame.2.2] at hp ⊢
    refine (h.due p hp haccepts).imp_left fun ⟨job, hjob, hpromises⟩ => ⟨job, ?_, hpromises⟩
    rw [hjobs]
    exact List.mem_append_left _ hjob
  closed p hp := by
    rw [hsame.2.2] at hp
    refine (h.closed p hp).imp_left fun ⟨job, hjob, hclears⟩ => ⟨job, ?_, hclears⟩
    rw [hjobs]
    exact List.mem_append_left _ hjob

theorem Displays.edited (hspelled : ∀ p q, known p → known q → p.same q = true → p = q)
    (h : s.Displays known x outs) (hp : known p) (hedited : s.Edited p documents job) :
    Displays known { s with documents := documents, jobs := s.jobs ++ [job] } x outs := by
  have hjob : job ∈ s.jobs ++ [job] := List.mem_append_right _ (List.mem_singleton.mpr rfl)
  have hpaths : ∀ q ∈ documents.paths, q = p ∨ q ∈ s.documents.paths := by
    intro q hq
    obtain ⟨document, hentry⟩ := Documents.mem_paths.mp hq
    refine (hedited.entries _ hentry).imp_right fun hsame => ?_
    obtain ⟨⟨r, old⟩, hold, hpath⟩ := hsame
    cases hpath
    exact Documents.mem_paths.mpr ⟨old, hold⟩
  have hknown : ∀ q ∈ documents.paths, known q := fun q hq =>
    (hpaths q hq).elim (fun hqp => hqp ▸ hp) (h.documents q)
  refine ⟨h.connected, h.indexes, h.current, hknown, List.forall_mem_append.mpr ⟨h.orderly,
    List.forall_mem_singleton.mpr ?_⟩, fun q hq haccepts => ?_, fun q hclosed => ?_⟩
  · have hlater : ∀ action ∈ Action.sync p, action.IsLater known x.definitionsVersion :=
      List.forall_mem_cons.mpr ⟨trivial, List.forall_mem_singleton.mpr hp⟩
    rcases hedited.job with ⟨rfl, -⟩ | ⟨rfl, -⟩
    · exact .rests _ hlater
    · exact .clears p _ hp (by simp [Action.sync]) hlater
  · by_cases hqp : q = p
    · refine .inl ⟨job, hjob, .syncFeatures q, ?_, rfl⟩
      rcases hedited.job with ⟨rfl, -⟩ | ⟨rfl, -⟩ <;> simp [Action.sync, hqp]
    · have hold := (hpaths q hq).resolve_left hqp
      have hsame : p.same q = false := Bool.eq_false_iff.mpr fun hsame =>
        hqp (hspelled p q hp (h.documents q hold) hsame).symm
      have hdue : x.due documents q = x.due s.documents q := by
        rw [Indexes.due, hedited.others q hsame, Indexes.due]
      rw [hdue]
      refine (h.due q hold haccepts).imp_left fun hpromises => ?_
      obtain ⟨old, hold, hpromises⟩ := hpromises
      exact ⟨old, List.mem_append_left _ hold, hpromises⟩
  · have hbefore : s.documents.get? q = none →
        Clears { s with documents := documents, jobs := s.jobs ++ [job] } q ∨
        ∀ n, shown outs q = some n → n.diagnostics = [] := by
      intro hq
      refine (h.closed q hq).imp_left fun hclears => ?_
      obtain ⟨old, hold, hclears⟩ := hclears
      exact ⟨old, List.mem_append_left _ hold, hclears⟩
    rcases hedited.job with ⟨rfl, hopen⟩ | ⟨rfl, -⟩
    · exact hbefore (hopen q hclosed)
    · cases hpq : p.same q with
      | true => exact .inl ⟨_, hjob, p, List.mem_cons_self, hpq⟩
      | false => exact hbefore ((hedited.others q hpq).symm.trans hclosed)

/-- A job that has nothing left to do may go. -/
theorem Displays.ends (h : s.Displays known x outs) {jobs others : List Job}
    (before : s.jobs.Perm ([] :: others)) (after : jobs.Perm others) :
    Displays known { s with jobs := jobs } x outs := by
  have hjobs : ∀ job, (∃ action, action ∈ job) → job ∈ s.jobs → job ∈ jobs := by
    rintro job ⟨action, haction⟩ hjob
    rcases List.mem_cons.mp (before.mem_iff.mp hjob) with rfl | hjob
    · cases haction
    · exact after.mem_iff.mpr hjob
  refine ⟨h.connected, h.indexes, h.current, h.documents, fun job hjob => ?_, fun p hp haccepts => ?_,
    fun p hp => ?_⟩
  · exact h.orderly job (before.mem_iff.mpr (List.mem_cons_of_mem _ (after.mem_iff.mp hjob)))
  · exact (h.due p hp haccepts).imp_left fun ⟨job, hjob, action, haction, hpromises⟩ =>
      ⟨job, hjobs job ⟨action, haction⟩ hjob, action, haction, hpromises⟩
  · exact (h.closed p hp).imp_left fun ⟨job, hjob, q, hq, hsame⟩ =>
      ⟨job, hjobs job ⟨_, hq⟩ hjob, q, hq, hsame⟩

theorem Displays.acts (hspelled : ∀ p q, known p → known q → p.same q = true → p = q)
    (h : s.Displays known x outs) (acted : action.Acts true (s.world disk) x y left seen) {jobs others : List Job}
    (before : s.jobs.Perm ((action :: rest) :: others)) (after : jobs.Perm ((left ++ rest) :: others)) :
    Displays known { s with indexes := some y, jobs := jobs } y (outs ++ seen) := by
  have hjob : Job.Orderly known x.definitionsVersion (action :: rest) :=
    h.orderly _ (before.mem_iff.mpr List.mem_cons_self)
  have hversion := acted.version_le h.current
  have hleft : (left ++ rest) ∈ jobs := after.mem_iff.mpr List.mem_cons_self
  -- what is left of a job, apart from the action itself
  have hkept : ∀ job ∈ s.jobs, ∀ a ∈ job, a = action ∨ ∃ job ∈ jobs, a ∈ job := by
    intro job hjob a ha
    rcases List.mem_cons.mp (before.mem_iff.mp hjob) with rfl | hjob
    · exact (List.mem_cons.mp ha).imp_right fun ha => ⟨_, hleft, List.mem_append_right _ ha⟩
    · exact .inr ⟨job, after.mem_iff.mpr (List.mem_cons_of_mem _ hjob), ha⟩
  refine ⟨h.connected, rfl, (acted.current h.current).1, h.documents, fun job hmem => ?_,
    fun p hp haccepts => ?_, fun p hp => ?_⟩
  · rcases List.mem_cons.mp (after.mem_iff.mp hmem) with rfl | hmem
    · exact acted.orderly h.current hjob
    · exact (h.orderly job (before.mem_iff.mpr (List.mem_cons_of_mem _ hmem))).mono hversion
  · have hspelled' : ∀ q, known q → q.same p = true → q = p := fun q hq =>
      hspelled q p hq (h.documents p hp)
    obtain ⟨document, hopen⟩ : ∃ document, s.documents.get? p = some document :=
      Documents.exists_of_mem_paths hp
    have htreats : action.Treats s.documents x y (left ++ rest) seen p :=
      acted.treats h.current hspelled' h.documents hp haccepts hjob
    change _ ∨ (shown (outs ++ seen) p).toList = y.due s.documents p
    cases htreats with
    | promised a ha promises => exact .inl ⟨_, hleft, a, ha, promises⟩
    | appears now =>
      rw [Indexes.due_eq hopen haccepts, Option.toList_eq_singleton_iff] at now
      rw [shown_append, now, Indexes.due_eq hopen haccepts]
      exact .inr rfl
    | aside same filter quiet nothing =>
      rw [shown_append, quiet, same]
      refine (h.due p hp (by rw [← filter]; exact haccepts)).imp_left ?_
      rintro ⟨job, hmem, a, ha, hpromises⟩
      rcases hkept job hmem a ha with rfl | ⟨job, hmem, ha⟩
      · exact absurd hpromises nothing
      · exact ⟨job, hmem, a, ha, hpromises.mono hversion⟩
  · obtain ⟨hempty, hcleared⟩ := acted.closed hp
    rcases h.closed p hp with ⟨job, hmem, q, hq, hsame⟩ | hold
    · rcases hkept job hmem _ hq with hq | ⟨job, hmem, hq⟩
      · exact .inr (empty_of_shown_append hempty (.inl (hcleared ⟨q, hq.symm, hsame⟩)))
      · exact .inl ⟨job, hmem, q, hq, hsame⟩
    · exact .inr (empty_of_shown_append hempty (.inr hold))

theorem Displays.works (hspelled : ∀ p q, known p → known q → p.same q = true → p = q)
    (h : s.Displays known x outs) (hworks : s.Works disk x t seen) :
    ∃ y, t.Displays known y (outs ++ seen) := by
  cases hworks with
  | rests => exact ⟨x, by rw [List.append_nil]; exact h⟩
  | ends jobs others before after => exact ⟨x, by rw [List.append_nil]; exact h.ends before after⟩
  | acts action rest y left seen acted jobs others before after =>
    rw [h.connected] at acted
    exact ⟨y, h.acts hspelled acted before after⟩

theorem Displays.meets (hspelled : ∀ p q, known p → known q → p.same q = true → p = q)
    (h : s.Displays known x outs) {o : Occasion} (hknown : ∀ n p, o = .told n → n.path? = some p → known p)
    (hmeets : s.Meets disk x o t seen) : ∃ y, t.Displays known y (outs ++ seen) := by
  have hrefresh : Action.refresh ∈ [Action.refresh] := List.mem_singleton.mpr rfl
  cases hmeets with
  | edits n p path documents job edited =>
    rw [List.append_nil]
    exact ⟨x, h.edited hspelled (hknown n p rfl path) edited⟩
  | ignores n path =>
    rw [List.append_nil]
    exact ⟨x, h⟩
  | configures settings source corpora =>
    rw [List.append_nil]
    refine ⟨x, h.more rfl ⟨rfl, rfl, rfl⟩ fun job hjob => ?_⟩
    obtain ⟨c, -, rfl⟩ := List.mem_map.mp hjob
    have hlater : ∀ action ∈ [Action.refresh], action.IsLater known x.definitionsVersion :=
      List.forall_mem_singleton.mpr trivial
    cases c <;> exact .runs _ _ _ (.inr (.inl hrefresh)) (.inr hrefresh) hlater
  | notices e =>
    rw [List.append_nil]
    have hfollows : Job.Orderly known x.definitionsVersion [.follow e] := .follows e [] (List.forall_mem_nil _)
    exact ⟨x, h.more rfl ⟨rfl, rfl, rfl⟩ (List.forall_mem_singleton.mpr hfollows)⟩
  | works number turn t seen worked => exact h.works hspelled worked

theorem Displays.course (hspelled : ∀ p q, known p → known q → p.same q = true → p = q)
    {occasions : List (Disk × Occasion)} (hongoing : ∀ o ∈ occasions, o.2 ≠ .told .initialized)
    (hknown : ∀ o ∈ occasions, ∀ n p, o.2 = .told n → n.path? = some p → known p)
    (h : s.Displays known x outs) :
    ∃ y, (s.course occasions).1.Displays known y (outs ++ (s.course occasions).2) := by
  induction occasions generalizing s x outs with
  | nil => exact ⟨x, by rw [Server.course, List.append_nil]; exact h⟩
  | cons o occasions ih =>
    obtain ⟨disk, o⟩ := o
    obtain ⟨y, hy⟩ := h.meets hspelled (hknown _ List.mem_cons_self)
      (Server.meets h.indexes h.current disk (hongoing _ List.mem_cons_self))
    rw [course_cons, ← List.append_assoc]
    exact ih (fun o ho => hongoing o (List.mem_cons_of_mem _ ho))
      (fun o ho => hknown o (List.mem_cons_of_mem _ ho)) hy

/-- A server that starts has not shown anything, and will show the diagnostics of all open documents. -/
theorem displays_start {root : Path} (hconnected : s.connected = true) (hroot : s.root = some root)
    (hjobs : s.jobs = []) (hpaths : ∀ p ∈ s.documents.paths, known p) (disk : Disk) :
    ∃ x, (s.start disk).Displays known x [] := by
  refine ⟨.new root (s.settings.current.selection .steps) (s.settings.current.selection .features)
    s.config.scanBatchSize s.config.maxRescanDepth, ?_⟩
  have hstart : (s.start disk).connected = true ∧ (s.start disk).indexes = some (.new root
      (s.settings.current.selection .steps) (s.settings.current.selection .features) s.config.scanBatchSize
      s.config.maxRescanDepth) ∧ (s.start disk).documents = s.documents ∧ (s.start disk).jobs = [starting] := by
    simp [start, hroot, hconnected, hjobs, enqueue]
  have hrefresh : Action.refresh ∈ [Action.refresh] := List.mem_singleton.mpr rfl
  refine ⟨hstart.1, hstart.2.1, Service.current_new .., ?_, ?_, fun p _ _ => .inl ?_,
    fun p _ => .inr fun n hn => ?_⟩
  · rw [hstart.2.2.1]
    exact hpaths
  · rw [hstart.2.2.2]
    exact List.forall_mem_singleton.mpr
      (.runs _ _ _ (.inr (.inl hrefresh)) (.inr hrefresh) (List.forall_mem_singleton.mpr trivial))
  · rw [Promises, hstart.2.2.2]
    exact ⟨_, List.mem_singleton.mpr rfl, .refresh, List.mem_cons_of_mem _ hrefresh, trivial⟩
  · cases hn

/-- A document that is open before and after, and is no feature file before, stays as it is shown. -/
theorem Displays.passes (hspelled : ∀ p q, known p → known q → p.same q = true → p = q)
    (h : s.Displays known x outs) (hp : known p) (hclear : ¬s.Clears p)
    (hrejected : x.featureFilter.accepts p = false) {o : Occasion} (hmeets : s.Meets disk x o t seen)
    (hopen : (t.documents.get? p).isSome = true) : shown seen p = none ∧ ¬t.Clears p := by
  -- a job that is added clears the path only if it has been closed
  have hmore : ∀ {more : List Job}, t.jobs = s.jobs ++ more →
      (∀ job ∈ more, ∀ q, .clear q ∈ job → q.same p = false) → ¬t.Clears p := by
    rintro more hjobs hmore ⟨job, hjob, q, hq, hsame⟩
    rw [hjobs] at hjob
    rcases List.mem_append.mp hjob with hjob | hjob
    · exact hclear ⟨job, hjob, q, hq, hsame⟩
    · rw [hmore job hjob q hq] at hsame
      cases hsame
  cases hmeets with
  | edits n q path documents job edited =>
    refine ⟨rfl, hmore rfl (List.forall_mem_singleton.mpr fun r hr => ?_)⟩
    rcases edited.job with ⟨rfl, -⟩ | ⟨rfl, hclosed⟩
    · simp [Action.sync] at hr
    · obtain rfl : r = q := by simpa [Action.sync] using hr
      rw [← Bool.not_eq_true]
      intro hsame
      rw [hclosed p hsame] at hopen
      cases hopen
  | ignores n path => exact ⟨rfl, hclear⟩
  | configures settings source corpora =>
    refine ⟨rfl, hmore rfl fun job hjob q hq => ?_⟩
    obtain ⟨c, -, rfl⟩ := List.mem_map.mp hjob
    cases c <;> simp [reconfiguring, Action.onCorpus, Action.onDefinitions, Action.onUsages] at hq
  | notices e => exact ⟨rfl, hmore rfl (List.forall_mem_singleton.mpr fun q hq => by simp at hq)⟩
  | works number turn t seen worked =>
    cases worked with
    | rests => exact ⟨rfl, hclear⟩
    | ends jobs others before after =>
      refine ⟨rfl, fun ⟨job, hjob, hclears⟩ => hclear ⟨job, ?_, hclears⟩⟩
      exact before.mem_iff.mpr (List.mem_cons_of_mem _ (after.mem_iff.mp hjob))
    | acts action rest y left seen acted jobs others before after =>
      have hmem := before.mem_iff.mpr (List.mem_cons_self (a := action :: rest))
      rw [h.connected] at acted
      have hfirst : ∀ q, action = .clear q → q.same p = false := fun q hq => Bool.eq_false_iff.mpr fun hsame =>
        hclear ⟨_, hmem, q, by rw [hq]; exact List.mem_cons_self, hsame⟩
      obtain ⟨hquiet, hleft⟩ := acted.passes (fun q hq => hspelled q p hq hp) h.documents hrejected
        (h.orderly _ hmem) hfirst
      refine ⟨hquiet, fun ⟨job, hjob, q, hq, hsame⟩ => ?_⟩
      rcases List.mem_cons.mp (after.mem_iff.mp hjob) with rfl | hjob
      · rcases List.mem_append.mp hq with hq | hq
        · exact hleft q hq
        · exact hclear ⟨_, hmem, q, List.mem_cons_of_mem _ hq, hsame⟩
      · exact hclear ⟨job, before.mem_iff.mpr (List.mem_cons_of_mem _ hjob), q, hq, hsame⟩

/-- The document is open and no feature file, by the globs that the index has. -/
def PassesOver (s : Server) (p : Path) : Prop :=
  (s.documents.get? p).isSome = true ∧ ∀ x, s.indexes = some x → x.featureFilter.accepts p = false

theorem Displays.passes_course (hspelled : ∀ p q, known p → known q → p.same q = true → p = q)
    {occasions : List (Disk × Occasion)} (hongoing : ∀ o ∈ occasions, o.2 ≠ .told .initialized)
    (hknown : ∀ o ∈ occasions, ∀ n p, o.2 = .told n → n.path? = some p → known p)
    (h : s.Displays known x outs) (hp : known p) (hclear : ¬s.Clears p)
    (hpasses : ∀ first, first <+: occasions → (s.course first).1.PassesOver p) :
    shown (s.course occasions).2 p = none := by
  induction occasions generalizing s x outs with
  | nil => rfl
  | cons o occasions ih =>
    obtain ⟨disk, o⟩ := o
    have hmeets := Server.meets h.indexes h.current disk (hongoing _ List.mem_cons_self)
    have hrejected := (hpasses [] List.nil_prefix).2 x h.indexes
    have hopen : ((s.meet disk o).1.documents.get? p).isSome = true :=
      (hpasses [(disk, o)] (List.prefix_append _ occasions)).1
    obtain ⟨y, hy⟩ := h.meets hspelled (hknown _ List.mem_cons_self) hmeets
    obtain ⟨hquiet, hclear'⟩ := h.passes hspelled hp hclear hrejected hmeets hopen
    have hrest := ih (fun o ho => hongoing o (List.mem_cons_of_mem _ ho))
      (fun o ho => hknown o (List.mem_cons_of_mem _ ho)) hy hclear' fun first hfirst =>
        hpasses ((disk, o) :: first) (List.cons_prefix_cons.mpr ⟨rfl, hfirst⟩)
    rw [course_cons, shown_append, hrest, hquiet]
    rfl

/-- The path of a document that is open at first, or that is reported later. -/
def Knows (s : Server) (occasions : List (Disk × Occasion)) (p : Path) : Prop :=
  p ∈ s.documents.paths ∨ ∃ disk n, (disk, .told n) ∈ occasions ∧ n.path? = some p

/-- Whatever happens to a server from its start on, it shows what is due as soon as no job is left: the
diagnostics of every document that is open and a feature file by the globs of the index, where each is spelled
in one way, and none of a document that is not open. As long as a document is open and no feature file nothing
is published for it, so what was shown of it before stays. -/
theorem due_shown_unless_passed_over {root : Path} (hconnected : s.connected = true) (hroot : s.root = some root)
    (hjobs : s.jobs = []) (disk : Disk) {occasions : List (Disk × Occasion)}
    (hongoing : ∀ o ∈ occasions, o.2 ≠ .told .initialized)
    (hspelled : ∀ p q, s.Knows occasions p → s.Knows occasions q → p.same q = true → p = q) :
    let run := (s.start disk).course
    ∃ x, (run occasions).1.indexes = some x ∧
      ((run occasions).1.jobs = [] →
        (∀ p document, s.Knows occasions p → (run occasions).1.documents.get? p = some document →
          x.featureFilter.accepts p = true →
          shown (run occasions).2 p = some ⟨p, some document.version, (x.diagnose document.text).2⟩) ∧
        ∀ p, (run occasions).1.documents.get? p = none →
          ∀ n, shown (run occasions).2 p = some n → n.diagnostics = []) ∧
      ∀ first rest, occasions = first ++ rest → (run first).1.jobs = [] →
        ∀ p, s.Knows occasions p → (∀ middle, middle <+: rest → (run (first ++ middle)).1.PassesOver p) →
          shown (run occasions).2 p = shown (run first).2 p := by
  intro run
  have hknown : ∀ o ∈ occasions, ∀ n p, o.2 = .told n → n.path? = some p → s.Knows occasions p := by
    rintro ⟨d, o⟩ ho n p rfl hp
    exact .inr ⟨d, n, ho, hp⟩
  obtain ⟨x₀, hstart⟩ := displays_start hconnected hroot hjobs (fun p hp => Or.inl hp) disk
  obtain ⟨x, hx⟩ := hstart.course hspelled hongoing hknown
  rw [List.nil_append] at hx
  refine ⟨x, hx.indexes, fun hdone => ⟨fun p document hp hopen haccepts => ?_, fun p hclosed => ?_⟩, ?_⟩
  · have hpath : p ∈ (run occasions).1.documents.paths := by
      obtain ⟨q, hq, hsame⟩ := Documents.exists_mem_paths_of_open hopen
      rw [← hspelled q p (hx.documents q hq) hp hsame]
      exact hq
    rcases hx.due p hpath haccepts with ⟨job, hjob, -⟩ | hshown
    · rw [hdone] at hjob
      cases hjob
    · rw [Indexes.due_eq hopen haccepts, Option.toList_eq_singleton_iff] at hshown
      exact hshown
  · rcases hx.closed p hclosed with ⟨job, hjob, -⟩ | hshown
    · rw [hdone] at hjob
      cases hjob
    · exact hshown
  · rintro first rest rfl hdone p hp hpasses
    obtain ⟨y, hy⟩ := hstart.course hspelled (fun o ho => hongoing o (List.mem_append_left rest ho))
      (fun o ho => hknown o (List.mem_append_left rest ho))
    have hclear : ¬(run first).1.Clears p := by
      rintro ⟨job, hjob, -⟩
      rw [hdone] at hjob
      cases hjob
    have hquiet : shown ((run first).1.course rest).2 p = none := by
      refine hy.passes_course hspelled (fun o ho => hongoing o (List.mem_append_right first ho))
        (fun o ho => hknown o (List.mem_append_right first ho)) hp hclear fun middle hmiddle => ?_
      have hpassed := hpasses middle hmiddle
      rw [show run (first ++ middle) = _ from course_append ..] at hpassed
      exact hpassed
    rw [show run (first ++ rest) = _ from course_append .., shown_append, hquiet]
    rfl

/-- The first job takes up to sixteen steps in the definitions and then up to sixteen in the usages. -/
def firstJob : List (Disk × Occasion) :=
  List.replicate 16 (.empty, .works 0 ⟨.steps, 0⟩) ++ List.replicate 16 (.empty, .works 0 ⟨.features, 0⟩)

/-- The indexes are built, and then a feature file is opened. -/
def openedOnce : List (Disk × Occasion) :=
  firstJob ++ (.empty, .told (.opened ⟨none, some ["w".toList, "a.feature".toList]⟩ "Given a".toList 1)) ::
    firstJob

/-- Then the globs are changed so that they select other files. -/
def openedThenNarrowed : List (Disk × Occasion) :=
  openedOnce ++
    (.empty, .told (.configured (.ofMembers [("featuresGlob", .array [.string "b.feature".toList])]))) :: firstJob

/-- The course of some occasions in an empty workspace. -/
def courseFromStart (occasions : List (Disk × Occasion)) : Server × List Output :=
  (Server.start { root := some ⟨"/w".toList⟩ } .empty).course occasions

theorem due_shown_unless_passed_over_opened :
    (courseFromStart openedOnce).1.jobs = [] ∧ ∃ x, (courseFromStart openedOnce).1.indexes = some x ∧
      shown (courseFromStart openedOnce).2 ⟨"/w/a.feature".toList⟩ =
        some ⟨⟨"/w/a.feature".toList⟩, some 1, (x.diagnose "Given a".toList).2⟩ := by
  have hongoing : ∀ o ∈ openedOnce, o.2 ≠ .told .initialized := by
    simp [openedOnce, firstJob]
  have htold : ∀ disk n, (disk, Occasion.told n) ∈ openedOnce →
      n = .opened ⟨none, some ["w".toList, "a.feature".toList]⟩ "Given a".toList 1 := by
    simp [openedOnce, firstJob]
  have hspelled : ∀ p q, Knows { root := some ⟨"/w".toList⟩ } openedOnce p →
      Knows { root := some ⟨"/w".toList⟩ } openedOnce q → p.same q = true → p = q := by
    have hone : ∀ p, Knows { root := some ⟨"/w".toList⟩ } openedOnce p → p = ⟨"/w/a.feature".toList⟩ := by
      rintro p (hp | ⟨disk, n, hn, hp⟩)
      · obtain ⟨document, hentry⟩ := Documents.mem_paths.mp hp
        cases hentry
      · rw [htold disk n hn] at hp
        exact (Option.some.inj hp).symm
    exact fun p q hp hq _ => (hone p hp).trans (hone q hq).symm
  have hdone : (courseFromStart openedOnce).1.jobs = [] := List.isEmpty_iff.mp (by decide +kernel)
  have hopen : (courseFromStart openedOnce).1.documents.get? ⟨"/w/a.feature".toList⟩ =
      some ⟨"Given a".toList, 1⟩ := by decide +kernel
  have haccepts : (courseFromStart openedOnce).1.indexes.map (·.featureFilter.accepts ⟨"/w/a.feature".toList⟩) =
      some true := by decide +kernel
  obtain ⟨x, hx, hshown, -⟩ := due_shown_unless_passed_over rfl rfl rfl .empty hongoing hspelled
  have hknown : Knows { root := some ⟨"/w".toList⟩ } openedOnce ⟨"/w/a.feature".toList⟩ :=
    .inr ⟨.empty, _, List.mem_append_right _ List.mem_cons_self, rfl⟩
  rw [show (courseFromStart openedOnce).1.indexes = some x from hx] at haccepts
  exact ⟨hdone, x, hx, (hshown hdone).1 _ _ hknown hopen (Option.some.inj haccepts)⟩

/-- What was shown of the feature file stays, although it belongs to the corpus no more. -/
theorem not_due_shown_openedThenNarrowed :
    (courseFromStart openedThenNarrowed).1.jobs = [] ∧
      (courseFromStart openedThenNarrowed).1.PassesOver ⟨"/w/a.feature".toList⟩ ∧
      shown (courseFromStart openedThenNarrowed).2 ⟨"/w/a.feature".toList⟩ =
        some ⟨⟨"/w/a.feature".toList⟩, some 1, [⟨0, 6, 7, "Undefined step: Given a"⟩]⟩ := by
  have hrejects : (courseFromStart openedThenNarrowed).1.indexes.map
      (·.featureFilter.accepts ⟨"/w/a.feature".toList⟩) = some false := by decide +kernel
  refine ⟨List.isEmpty_iff.mp (by decide +kernel), ⟨by decide +kernel, fun x hx => ?_⟩, by decide +kernel⟩
  rw [hx] at hrejects
  exact Option.some.inj hrejects

end Server

end StepLink
