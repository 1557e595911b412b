import Mathlib.Data.List.Perm.Basic
import StepLink.Proofs.Index.Effect
import StepLink.Proofs.Server.Publication
import StepLink.Server.Run

/-! What happens to a server that is in use. The editor reports something, a file changes on the disk, or one of the
jobs takes a step, in any order; nothing is said of when the jobs take theirs. -/

namespace StepLink

variable {disk : Disk} {s t : Server} {x y : Indexes} {p q : Path} {document : Buffer} {action : Action}
  {left : Job} {seen : List Output} {world : World} {connected : Bool}

namespace Documents

theorem get?_eq_lookup (d : Documents) (p : Path) : d.get? p = lookup d.entries p := rfl

theorem get?_congr (h : p.same q = true) (d : Documents) : d.get? p = d.get? q :=
  lookup_congr h d.entries

theorem get?_upsert (d : Documents) (p q : Path) (document : Buffer) :
    (d.upsert p document).get? q = if p.same q then some document else d.get? q := by
  have hentries : (d.upsert p document).entries =
      if d.entries.any fun entry => entry.1.same p then
        d.entries.map fun entry => if entry.1.same p then (entry.1, document) else entry
      else d.entries ++ [(p, document)] := by
    rw [upsert, get?_eq_lookup, isSome_lookup_iff]
    split <;> rfl
  rw [get?_eq_lookup, hentries]
  exact lookup_entered d.entries p q document

theorem get?_close (d : Documents) (p q : Path) :
    (d.close p).get? q = if p.same q then none else d.get? q := by
  rw [Path.same_comm]
  exact lookup_released d.entries p q

/-- Nothing but the path itself is open anew. -/
theorem mem_entries_upsert {d : Documents} {entry : Path × Buffer} (h : entry ∈ (d.upsert p document).entries) :
    entry.1 = p ∨ ∃ old ∈ d.entries, old.1 = entry.1 := by
  rw [upsert] at h
  split at h
  · obtain ⟨old, hold, rfl⟩ := List.mem_map.mp h
    refine .inr ⟨old, hold, ?_⟩
    split <;> rfl
  · rcases List.mem_append.mp h with hold | hnew
    · exact .inr ⟨entry, hold, rfl⟩
    · rw [List.mem_singleton.mp hnew]
      exact .inl rfl

theorem mem_paths {d : Documents} : p ∈ d.paths ↔ ∃ document, (p, document) ∈ d.entries := by
  rw [paths, List.mem_mergeSort, List.mem_map]
  constructor
  · rintro ⟨entry, hentry, rfl⟩
    exact ⟨entry.2, hentry⟩
  · rintro ⟨document, hentry⟩
    exact ⟨_, hentry, rfl⟩

theorem exists_of_mem_paths {d : Documents} (h : p ∈ d.paths) : ∃ document, d.get? p = some document := by
  obtain ⟨document, hentry⟩ := mem_paths.mp h
  rw [get?_eq_lookup, ← Option.isSome_iff_exists, isSome_lookup_iff, List.any_eq_true]
  exact ⟨_, hentry, Path.same_refl p⟩

theorem exists_mem_paths_of_open {d : Documents} (h : d.get? p = some document) :
    ∃ q ∈ d.paths, q.same p = true := by
  have hany : (d.entries.any fun entry => entry.1.same p) = true := by
    rw [← isSome_lookup_iff, ← get?_eq_lookup, h]
    rfl
  obtain ⟨entry, hentry, hsame⟩ := List.any_eq_true.mp hany
  exact ⟨entry.1, mem_paths.mpr ⟨entry.2, hentry⟩, hsame⟩

end Documents

namespace Notification

/-- The document that is opened, changed, saved or closed. -/
def document? : Notification → Option Uri
  | .opened document _ _ => some document
  | .changed document _ _ => some document
  | .saved document _ => some document
  | .closed document => some document
  | _ => none

/-- The path of the document about which something is reported. A change without a text reports nothing. -/
def path? : Notification → Option Path
  | .changed _ _ [] => none
  | n => n.document?.bind Uri.path?

end Notification

namespace Server

/-- What a report of a document does to the server. -/
inductive Edits (s : Server) (p : Path) : Server → Prop where
  | opens (document : Buffer) : Edits s p (s.openDocument p document)
  | saves : Edits s p (s.enqueue (Action.sync p))
  | closes : Edits s p (s.closeDocument p)

/-- What a report of a document leads to: the open documents, and the job that is left. -/
structure Edited (s : Server) (p : Path) (documents : Documents) (job : Job) : Prop where
  others : ∀ q, p.same q = false → documents.get? q = s.documents.get? q
  entries : ∀ entry ∈ documents.entries, entry.1 = p ∨ ∃ old ∈ s.documents.entries, old.1 = entry.1
  job : job = Action.sync p ∧ (∀ q, documents.get? q = none → s.documents.get? q = none) ∨
    job = .clear p :: Action.sync p ∧ ∀ q, p.same q = true → documents.get? q = none

theorem Edits.edited (hindexes : s.indexes = some x) (h : s.Edits p t) :
    ∃ documents job, t = { s with documents := documents, jobs := s.jobs ++ [job] } ∧
      s.Edited p documents job := by
  cases h with
  | opens document =>
    refine ⟨s.documents.upsert p document, _, ?_,
      ⟨fun q hpq => ?_, fun entry hentry => ?_, .inl ⟨rfl, fun q hq => ?_⟩⟩⟩
    · simp [openDocument, replaceDocument, enqueue, hindexes]
    · rw [Documents.get?_upsert, hpq]
      rfl
    · exact Documents.mem_entries_upsert hentry
    · rw [Documents.get?_upsert] at hq
      split at hq
      · cases hq
      · exact hq
  | saves =>
    exact ⟨s.documents, _, by simp [enqueue, hindexes],
      ⟨fun q _ => rfl, fun entry hentry => .inr ⟨entry, hentry, rfl⟩, .inl ⟨rfl, fun q hq => hq⟩⟩⟩
  | closes =>
    refine ⟨s.documents.close p, _, ?_, ⟨fun q hpq => ?_, fun entry hentry => ?_, .inr ⟨rfl, fun q hpq => ?_⟩⟩⟩
    · simp [closeDocument, enqueue, hindexes]
    · rw [Documents.get?_close, hpq]
      rfl
    · exact .inr ⟨entry, (List.mem_filter.mp hentry).1, rfl⟩
    · rw [Documents.get?_close, if_pos hpq]

theorem notify_edits {n : Notification} (h : n.path? = some p) (disk : Disk) (s : Server) :
    s.Edits p (s.notify disk n) := by
  cases n with
  | opened document text version =>
    have hp : document.path? = some p := h
    simp only [notify, hp]
    exact .opens _
  | changed document version texts =>
    cases texts with
    | nil => cases h
    | cons text texts =>
      have hp : document.path? = some p := h
      simp only [notify, hp, List.getLast?_cons]
      exact .opens _
  | saved document text =>
    have hp : document.path? = some p := h
    simp only [notify, hp, saveDocument]
    split
    · exact .opens _
    · exact .saves
  | closed document =>
    have hp : document.path? = some p := h
    simp only [notify, hp]
    exact .closes
  | _ => cases h

theorem notify_eq_self {n : Notification} (hdocument : n.document?.isSome = true) (h : n.path? = none)
    (disk : Disk) (s : Server) : s.notify disk n = s := by
  cases n with
  | opened document text version =>
    have hp : document.path? = none := h
    simp only [notify, hp]
  | changed document version texts =>
    cases texts with
    | nil =>
      simp only [notify, List.getLast?_nil]
      cases document.path? <;> rfl
    | cons text texts =>
      have hp : document.path? = none := h
      simp only [notify, hp]
  | saved document text =>
    have hp : document.path? = none := h
    simp only [notify, hp]
  | closed document =>
    have hp : document.path? = none := h
    simp only [notify, hp]
  | _ => cases hdocument

theorem foldl_enqueue {β : Type} (hindexes : s.indexes = some x) (job : β → Job) (told : List β) :
    told.foldl (fun s b => s.enqueue (job b)) s = { s with jobs := s.jobs ++ told.map job } := by
  induction told generalizing s with
  | nil => simp
  | cons b told ih =>
    have hfirst : s.enqueue (job b) = { s with jobs := s.jobs ++ [job b] } := by simp [enqueue, hindexes]
    have hnext : Server.indexes { s with jobs := s.jobs ++ [job b] } = some x := hindexes
    rw [List.foldl_cons, hfirst, ih hnext, List.map_cons]
    simp

/-- Changed settings leave a job for each listener that they concern. -/
theorem configure_eq (hindexes : s.indexes = some x) (settings : Json) :
    ∃ source, ∃ corpora : List Corpus, s.configure settings =
      { s with settings := source, jobs := s.jobs ++ corpora.map (reconfiguring source.current) } := by
  let update := s.settings.update (.ofJson settings)
  have hupdated : Server.indexes { s with settings := update.1 } = some x := hindexes
  refine ⟨update.1, update.2.2.map (·.2), ?_⟩
  rw [List.map_map]
  exact foldl_enqueue hupdated (fun listener => reconfiguring update.1.current listener.2) update.2.2

end Server

namespace Action

/-- The steps of actions. -/
inductive Acts (connected : Bool) (world : World) (x : Indexes) :
    Action → Indexes → Job → List Output → Prop where
  | readsSteps (p : Path) (y : Indexes) (same : x.SameButCaches y) (accepted : x.stepFilter.accepts p = true) :
    Acts connected world x (.syncSteps p) y
      [.onDefinitions (.scan ⟨p, .entering⟩), .refreshAfter x.definitionsVersion] []
  | leavesSteps (p : Path) (y : Indexes) (same : x.SameButCaches y) (rejected : x.stepFilter.accepts p = false) :
    Acts connected world x (.syncSteps p) y [] []
  | readsFeatures (p : Path) (y : Indexes) (same : x.SameButCaches y)
    (accepted : x.featureFilter.accepts p = true) :
    Acts connected world x (.syncFeatures p) y [.onUsages (.scan ⟨p, .entering⟩), .publish p] []
  | leavesFeatures (p : Path) (y : Indexes) (same : x.SameButCaches y)
    (rejected : x.featureFilter.accepts p = false) :
    Acts connected world x (.syncFeatures p) y [] []
  | follows (e : FileEvent) :
    Acts connected world x (.follow e) x
      [.running (.ofEvent e) (.ofEvent e), .refreshAfter x.definitionsVersion] []
  | turnsDefinitions (definitions usages : Call) (pick : Nat) (t : IndexState Definition) (d : Call)
    (told : List Observation)
    (turned : definitions.step x.definitions.setup world pick x.definitions.state = (t, d, told)) :
    Acts connected world x (.running definitions usages) { x with definitions.state := t } (continuing d usages)
      (told.filterMap Output.ofObservation?)
  | turnsUsages (definitions usages : Call) (pick : Nat) (t : IndexState Occurrence) (d : Call)
    (told : List Observation) (turned : usages.step x.usages.setup world pick x.usages.state = (t, d, told)) :
    Acts connected world x (.running definitions usages) { x with usages.state := t } (continuing definitions d)
      (told.filterMap Output.ofObservation?)
  | refreshes (y : Indexes) (same : x.SameButCaches y) :
    Acts connected world x .refresh y []
      (if connected then (world.documents.paths.flatMap (x.due world.documents)).map .published else [])
  | checks (version : Nat) :
    Acts connected world x (.refreshAfter version) x
      (if x.definitionsVersion = version then [] else [.refresh]) []
  | publishes (p : Path) (y : Indexes) (same : x.SameButCaches y) :
    Acts connected world x (.publish p) y []
      (if connected then (x.due world.documents p).map .published else [])
  | clears (p : Path) :
    Acts connected world x (.clear p) x [] (if connected then [.published ⟨p, none, []⟩] else [])

theorem acts_step (hx : x.Current) (connected : Bool) (world : World) (turn : Turn) (action : Action) :
    action.Acts connected world x (action.step connected world turn x).1 (action.step connected world turn x).2.1
      (action.step connected world turn x).2.2 := by
  cases action with
  | syncSteps p =>
    obtain ⟨hsame, haccepts⟩ := hx.hasSteps p
    simp only [Action.step]
    generalize x.hasSteps p = answer at hsame haccepts
    obtain ⟨y, _ | _⟩ := answer
    · exact .leavesSteps p y hsame haccepts.symm
    · have hversion : y.definitionsVersion = x.definitionsVersion := hsame.definitions.version
      dsimp only
      rw [hversion]
      exact .readsSteps p y hsame haccepts.symm
  | syncFeatures p =>
    obtain ⟨hsame, haccepts⟩ := hx.hasFeatures p
    simp only [Action.step]
    generalize x.hasFeatures p = answer at hsame haccepts
    obtain ⟨y, _ | _⟩ := answer
    · exact .leavesFeatures p y hsame haccepts.symm
    · exact .readsFeatures p y hsame haccepts.symm
  | follow e => exact .follows e
  | running definitions usages =>
    obtain ⟨_ | _, pick⟩ := turn
    · exact .turnsDefinitions definitions usages pick _ _ _ rfl
    · exact .turnsUsages definitions usages pick _ _ _ rfl
  | refresh =>
    obtain ⟨hsame, hshown⟩ := hx.publishAll world.documents world.documents.paths
    cases connected with
    | false => exact .refreshes x (.refl hx)
    | true =>
      have hacts : Acts true world x .refresh _ _ _ := .refreshes _ hsame
      rw [if_pos rfl, ← hshown] at hacts
      exact hacts
  | refreshAfter version => exact .checks version
  | publish p =>
    obtain ⟨hsame, hshown⟩ := hx.publish world.documents p
    cases connected with
    | false => exact .publishes p x (.refl hx)
    | true =>
      have hacts : Acts true world x (.publish p) _ _ _ := .publishes p _ hsame
      rw [if_pos rfl, ← hshown] at hacts
      exact hacts
  | clear p => exact .clears p

theorem Acts.current (hx : x.Current) (h : action.Acts connected world x y left seen) :
    y.Current ∧ y.definitions.setup = x.definitions.setup ∧ y.usages.setup = x.usages.setup := by
  cases h with
  | turnsDefinitions definitions usages pick t d told turned =>
    have hsection := Call.step_section x.definitions.setup world pick x.definitions.state definitions
    rw [turned] at hsection
    exact ⟨hx.of_definitions_section hsection, rfl, rfl⟩
  | turnsUsages definitions usages pick t d told turned =>
    have hsection := Call.step_section x.usages.setup world pick x.usages.state usages
    rw [turned] at hsection
    exact ⟨hx.of_usages_section hsection, rfl, rfl⟩
  | follows e => exact ⟨hx, rfl, rfl⟩
  | checks version => exact ⟨hx, rfl, rfl⟩
  | clears p => exact ⟨hx, rfl, rfl⟩
  | readsSteps p y same => exact ⟨same.current, same.definitionSetup, same.usageSetup⟩
  | leavesSteps p y same => exact ⟨same.current, same.definitionSetup, same.usageSetup⟩
  | readsFeatures p y same => exact ⟨same.current, same.definitionSetup, same.usageSetup⟩
  | leavesFeatures p y same => exact ⟨same.current, same.definitionSetup, same.usageSetup⟩
  | refreshes y same => exact ⟨same.current, same.definitionSetup, same.usageSetup⟩
  | publishes p y same => exact ⟨same.current, same.definitionSetup, same.usageSetup⟩

end Action

/-! ### Occasions -/

/-- What happens to a server that is in use. -/
inductive Occasion where
  | told (n : Notification)
  /-- A change on the disk is noticed. -/
  | noticed (e : FileEvent)
  /-- The job of the given number takes a step. -/
  | works (number : Nat) (turn : Turn)

namespace Server

/-- The server after an occasion, and what becomes known; the disk is that of the moment. -/
def meet (s : Server) (disk : Disk) : Occasion → Server × List Output
  | .told n => (s.notify disk n, [])
  | .noticed e => (s.followFile e, [])
  | .works number turn => s.step disk number turn

/-- The server after some occasions, and what has become known. -/
def course (s : Server) : List (Disk × Occasion) → Server × List Output
  | [] => (s, [])
  | (disk, o) :: rest =>
    let (t, seen) := s.meet disk o
    let (u, others) := t.course rest
    (u, seen ++ others)

theorem course_cons (s : Server) (disk : Disk) (o : Occasion) (rest : List (Disk × Occasion)) :
    s.course ((disk, o) :: rest) =
      (((s.meet disk o).1.course rest).1, (s.meet disk o).2 ++ ((s.meet disk o).1.course rest).2) := rfl

theorem course_append (s : Server) (first rest : List (Disk × Occasion)) :
    s.course (first ++ rest) =
      (((s.course first).1.course rest).1, (s.course first).2 ++ ((s.course first).1.course rest).2) := by
  induction first generalizing s with
  | nil => rfl
  | cons o first ih =>
    obtain ⟨disk, o⟩ := o
    rw [List.cons_append, course_cons, ih, course_cons, List.append_assoc]

/-- The steps of jobs. In what order the jobs are kept does not matter. -/
inductive Works (disk : Disk) (s : Server) (x : Indexes) : Server → List Output → Prop where
  | rests : Works disk s x s []
  | ends (jobs others : List Job) (before : s.jobs.Perm ([] :: others)) (after : jobs.Perm others) :
    Works disk s x { s with jobs := jobs } []
  | acts (action : Action) (rest : Job) (y : Indexes) (left : Job) (seen : List Output)
    (acted : action.Acts s.connected (s.world disk) x y left seen) (jobs others : List Job)
    (before : s.jobs.Perm ((action :: rest) :: others)) (after : jobs.Perm ((left ++ rest) :: others)) :
    Works disk s x { s with indexes := some y, jobs := jobs } seen

theorem step_works (hindexes : s.indexes = some x) (hx : x.Current) (disk : Disk) (number : Nat) (turn : Turn) :
    Works disk s x (s.step disk number turn).1 (s.step disk number turn).2 := by
  cases hjob : s.jobs[number]? with
  | none =>
    simp only [step, hjob]
    exact .rests
  | some job =>
    obtain ⟨hlt, hget⟩ := List.getElem?_eq_some_iff.mp hjob
    have hbefore : s.jobs.Perm (job :: s.jobs.eraseIdx number) := by
      rw [← hget]
      exact (List.getElem_cons_eraseIdx_perm hlt).symm
    cases job with
    | nil =>
      simp only [step, hjob]
      exact .ends _ _ hbefore (.refl _)
    | cons action rest =>
      simp only [step, hjob, hindexes]
      exact .acts action rest _ _ _ (Action.acts_step hx _ _ turn action) _ _ hbefore
        (List.set_perm_cons_eraseIdx hlt _)

/-- What an occasion does to a server that has indexes. -/
inductive Meets (disk : Disk) (s : Server) (x : Indexes) : Occasion → Server → List Output → Prop where
  | edits (n : Notification) (p : Path) (path : n.path? = some p) (documents : Documents) (job : Job)
    (edited : s.Edited p documents job) :
    Meets disk s x (.told n) { s with documents := documents, jobs := s.jobs ++ [job] } []
  | ignores (n : Notification) (path : n.path? = none) : Meets disk s x (.told n) s []
  | configures (settings : Json) (source : SettingsSource) (corpora : List Corpus) :
    Meets disk s x (.told (.configured settings))
      { s with settings := source, jobs := s.jobs ++ corpora.map (reconfiguring source.current) } []
  | notices (e : FileEvent) : Meets disk s x (.noticed e) { s with jobs := s.jobs ++ [[.follow e]] } []
  | works (number : Nat) (turn : Turn) (t : Server) (seen : List Output) (worked : s.Works disk x t seen) :
    Meets disk s x (.works number turn) t seen

theorem meets (hindexes : s.indexes = some x) (hx : x.Current) (disk : Disk) {o : Occasion}
    (hongoing : o ≠ .told .initialized) : Meets disk s x o (s.meet disk o).1 (s.meet disk o).2 := by
  cases o with
  | told n =>
    change Meets disk s x (.told n) (s.notify disk n) []
    cases hpath : n.path? with
    | some p =>
      obtain ⟨documents, job, hnext, hedited⟩ := (notify_edits hpath disk s).edited hindexes
      rw [hnext]
      exact .edits n p hpath documents job hedited
    | none =>
      cases hdocument : n.document?.isSome with
      | true =>
        rw [notify_eq_self hdocument hpath]
        exact .ignores n hpath
      | false =>
        cases n with
        | initialized => exact absurd rfl hongoing
        | configured settings =>
          obtain ⟨source, corpora, hnext⟩ := configure_eq hindexes settings
          rw [Server.notify, hnext]
          exact .configures settings source corpora
        | exit => exact .ignores .exit rfl
        | _ => cases hdocument
  | noticed e =>
    have hnext : s.followFile e = { s with jobs := s.jobs ++ [[.follow e]] } := by
      simp [followFile, enqueue, hindexes]
    change Meets disk s x (.noticed e) (s.followFile e) []
    rw [hnext]
    exact .notices e
  | works number turn => exact .works number turn _ _ (step_works hindexes hx disk number turn)

end Server

end StepLink
