import Mathlib.Data.List.Nodup
import StepLink.Proofs.Index.Coalescing
import StepLink.Proofs.Server.Buffers

/-! How settings reach the indexes. An update tells the listeners of those corpora whose globs it changes, each of
whom leaves a job with the new globs; a job that is taken up hands them to its index. So the globs that wait last
for an index, or else those that it has, are at every moment the ones of the current settings, as long as no job
overtakes an earlier one for the same index. -/

namespace StepLink

open IndexState

variable {α : Type} {s t : Server} {x y : Indexes} {c : Corpus} {o : Occasion} {root : Path}
  {world : World} {connected : Bool} {left job : Job} {action : Action} {seen : List Output} {number : Nat}

theorem CorpusSettings.mem_changed {current next : CorpusSettings} :
    c ∈ current.changed next ↔ current.selection c ≠ next.selection c := by
  have hmem : c ∈ [Corpus.steps, Corpus.features] := by cases c <;> decide
  simp only [changed, List.mem_filter, hmem, true_and, Bool.or_eq_true, bne_iff_ne, selection, ne_eq,
    Selection.mk.injEq, not_and_or]
  exact or_comm

theorem CorpusSettings.eq_of_changed_eq_nil {current next : CorpusSettings} (h : current.changed next = []) :
    current = next := by
  have hsame : ∀ c, current.selection c = next.selection c := by
    intro c
    by_contra hne
    have hmem := mem_changed.mpr hne
    rw [h] at hmem
    cases hmem
  obtain ⟨hsteps, hexclude⟩ := Selection.mk.inj (hsame .steps)
  obtain ⟨hfeatures, -⟩ := Selection.mk.inj (hsame .features)
  cases current
  cases next
  simp_all [patterns]

namespace SettingsSource

variable {source : SettingsSource} {next : CorpusSettings}

/-- The update without its early end: nobody is told where nothing changes. -/
theorem update_eq (source : SettingsSource) (next : CorpusSettings) :
    source.update next = ({ source with current := next }, source.current.changed next,
      (source.listeners.zipIdx.filter fun l => (source.current.changed next).contains l.1).map fun l =>
        (l.2, l.1)) := by
  rw [update]
  split
  next hnone =>
    rw [hnone, ← CorpusSettings.eq_of_changed_eq_nil hnone]
    simp
  next => rfl

theorem mem_told {l : Nat × Corpus} : l ∈ (source.update next).2.2 ↔
    source.listeners[l.1]? = some l.2 ∧ source.current.selection l.2 ≠ next.selection l.2 := by
  rw [update_eq, List.mem_map]
  constructor
  · rintro ⟨⟨corpus, index⟩, hl, rfl⟩
    obtain ⟨hmem, hchanged⟩ := List.mem_filter.mp hl
    exact ⟨List.mk_mem_zipIdx_iff_getElem?.mp hmem,
      CorpusSettings.mem_changed.mp (List.contains_iff_mem.mp hchanged)⟩
  · rintro ⟨hmem, hchanged⟩
    refine ⟨(l.2, l.1), List.mem_filter.mpr ⟨List.mk_mem_zipIdx_iff_getElem?.mpr hmem, ?_⟩, rfl⟩
    exact List.contains_iff_mem.mpr (CorpusSettings.mem_changed.mpr hchanged)

/-- The corpora that those who are told listen to. -/
theorem map_told (source : SettingsSource) (next : CorpusSettings) : (source.update next).2.2.map (·.2) =
    source.listeners.filter fun c => source.current.selection c ≠ next.selection c := by
  have hchanged : ∀ c, (source.current.changed next).contains c =
      decide (source.current.selection c ≠ next.selection c) := by
    intro c
    rw [Bool.eq_iff_iff, List.contains_iff_mem, CorpusSettings.mem_changed, decide_eq_true_iff]
  rw [update_eq, List.map_map]
  simp only [hchanged]
  calc
    _ = (source.listeners.zipIdx.map Prod.fst).filter fun c =>
        source.current.selection c ≠ next.selection c := List.filter_map.symm
    _ = _ := by rw [List.zipIdx_map_fst]

theorem nodup_told (source : SettingsSource) (next : CorpusSettings) : (source.update next).2.2.Nodup := by
  have hnumbers : ((source.update next).2.2.map (·.1)).Nodup := by
    rw [update_eq, List.map_map]
    refine List.Nodup.sublist (List.filter_sublist.map _) ?_
    show (source.listeners.zipIdx.map Prod.snd).Nodup
    rw [List.zipIdx_map_snd]
    exact List.nodup_range'
  exact List.Nodup.of_map _ hnumbers

end SettingsSource

/-- The globs that an action is about to hand to the index of a corpus. -/
def Action.globs? (c : Corpus) (action : Action) : Option Selection :=
  (action.callOn c).globs?

/-- The globs that a job holds for a corpus, in the order in which it hands them on. -/
def Job.awaited (c : Corpus) (job : Job) : List Selection :=
  job.filterMap (Action.globs? c)

/-- The globs that the jobs hold for a corpus, those of the earliest job first. -/
def Server.awaited (s : Server) (c : Corpus) : List Selection :=
  s.jobs.flatMap (Job.awaited c)

/-- The globs that the index of a corpus has. -/
def Indexes.globs (x : Indexes) : Corpus → Selection
  | .steps => x.definitions.state.globs
  | .features => x.usages.state.globs

/-- No call comes to hold globs. -/
theorem Call.globs?_step (setup : IndexSetup α) (world : World) (pick : Nat) (s : IndexState α) (c : Call) :
    (c.step setup world pick s).2.1.globs? = none := by
  cases c with
  | ended dropped => rfl
  | _ =>
    simp only [Call.step]
    split <;> rfl

theorem Call.globs?_of_isEnded {c : Call} (h : c.isEnded = true) : c.globs? = none := by
  cases c with
  | ended dropped => rfl
  | _ => cases h

theorem Job.awaited_continuing (c : Corpus) (definitions usages : Call) :
    Job.awaited c (Action.continuing definitions usages) =
      (Action.globs? c (.running definitions usages)).toList := by
  rw [Action.continuing]
  split
  next hended =>
    obtain ⟨hdefinitions, husages⟩ := (Bool.and_eq_true _ _).mp hended
    cases c with
    | steps => simp [awaited, Action.globs?, Action.callOn, Call.globs?_of_isEnded hdefinitions]
    | features => simp [awaited, Action.globs?, Action.callOn, Call.globs?_of_isEnded husages]
  next =>
    rw [awaited, List.filterMap_cons]
    cases Action.globs? c (.running definitions usages) <;> rfl

/-- Other actions than calls neither change the globs of an index nor leave some behind. -/
theorem Action.Acts.keeps_globs (h : action.Acts connected world x y left seen)
    (hidle : ∀ definitions usages, action ≠ .running definitions usages) (c : Corpus) :
    y.globs c = x.globs c ∧ Job.awaited c left = [] := by
  have hsame : x.SameButCaches y → y.globs c = x.globs c := fun same => by
    cases c with
    | steps => exact same.definitions.globs
    | features => exact same.usages.globs
  cases h with
  | readsSteps p y same accepted => exact ⟨hsame same, by cases c <;> rfl⟩
  | leavesSteps p y same rejected => exact ⟨hsame same, rfl⟩
  | readsFeatures p y same accepted => exact ⟨hsame same, by cases c <;> rfl⟩
  | leavesFeatures p y same rejected => exact ⟨hsame same, rfl⟩
  | follows e => exact ⟨rfl, by cases e <;> cases c <;> rfl⟩
  | turnsDefinitions definitions usages => exact absurd rfl (hidle definitions usages)
  | turnsUsages definitions usages => exact absurd rfl (hidle definitions usages)
  | refreshes y same => exact ⟨hsame same, rfl⟩
  | checks version =>
    refine ⟨rfl, ?_⟩
    split
    · rfl
    · cases c <;> rfl
  | publishes p y same => exact ⟨hsame same, rfl⟩
  | clears p => exact ⟨rfl, rfl⟩

/-- An action hands the globs that it holds for a corpus to its index when it is the turn of that corpus; otherwise
it keeps them, and the index keeps its own. -/
theorem Action.step_globs (hx : x.Current) (connected : Bool) (world : World) (turn : Turn) (action : Action)
    (c : Corpus) :
    let next := action.step connected world turn x
    next.1.globs c = x.globs c ∧ Job.awaited c next.2.1 = (action.globs? c).toList ∨
      turn.corpus = c ∧ next.1.globs c = (action.globs? c).getD (x.globs c) ∧ Job.awaited c next.2.1 = [] := by
  by_cases hrunning : ∃ definitions usages, action = .running definitions usages
  · obtain ⟨definitions, usages, rfl⟩ := hrunning
    obtain ⟨corpus, pick⟩ := turn
    cases corpus <;> cases c <;> simp only [Action.step, Job.awaited_continuing]
    · exact .inr ⟨trivial, Call.step_globs .., congrArg Option.toList (Call.globs?_step ..)⟩
    · exact .inl ⟨rfl, rfl⟩
    · exact .inl ⟨rfl, rfl⟩
    · exact .inr ⟨trivial, Call.step_globs .., congrArg Option.toList (Call.globs?_step ..)⟩
  · have hidle : ∀ definitions usages, action ≠ .running definitions usages :=
      fun definitions usages heq => hrunning ⟨definitions, usages, heq⟩
    have hnone : action.globs? c = none := by
      cases action with
      | running definitions usages => exact absurd rfl (hidle definitions usages)
      | _ => cases c <;> rfl
    obtain ⟨hglobs, hleft⟩ := (Action.acts_step hx connected world turn action).keeps_globs hidle c
    exact .inl ⟨hglobs, by rw [hleft, hnone]; rfl⟩

/-! ### The server -/

/-- The settings that the editor sends. -/
def Occasion.settings? : Occasion → Option CorpusSettings
  | told (.configured settings) => some (.ofJson settings)
  | _ => none

namespace Server

/-- An editor has introduced itself and named a root, and the indexes are still to be built. -/
structure Awaits (s : Server) (path : Path) : Prop where
  connected : s.connected = true
  root : s.root = some path
  indexes : s.indexes = none
  jobs : s.jobs = []
  listeners : s.settings.listeners = []

/-- A job that hands globs to an index does not overtake an earlier one that holds globs for it. -/
def TakesInOrder (s : Server) : Occasion → Prop
  | .works number turn => ∀ action rest, s.jobs[number]? = some (action :: rest) →
      action.globs? turn.corpus ≠ none → ∀ earlier ∈ s.jobs.take number, Job.awaited turn.corpus earlier = []
  | _ => True

def InOrder (s : Server) : List (Disk × Occasion) → Prop
  | [] => True
  | (disk, o) :: rest => s.TakesInOrder o ∧ (s.meet disk o).1.InOrder rest

theorem enqueue_settings (s : Server) (job : Job) : (s.enqueue job).settings = s.settings := by
  rw [enqueue]
  split <;> rfl

theorem enqueue_eq_self (h : s.indexes = none) (job : Job) : s.enqueue job = s := by
  simp [enqueue, h]

theorem foldl_enqueue_settings {β : Type} (job : β → Job) (told : List β) (s : Server) :
    (told.foldl (fun s b => s.enqueue (job b)) s).settings = s.settings := by
  induction told generalizing s with
  | nil => rfl
  | cons b told ih => exact (ih _).trans (enqueue_settings s (job b))

theorem foldl_enqueue_eq_self {β : Type} (h : s.indexes = none) (job : β → Job) (told : List β) :
    told.foldl (fun s b => s.enqueue (job b)) s = s := by
  induction told with
  | nil => rfl
  | cons b told ih => rw [List.foldl_cons, enqueue_eq_self h, ih]

theorem Edits.settings {p : Path} (h : s.Edits p t) : t.settings = s.settings := by
  cases h with
  | opens document => exact enqueue_settings _ _
  | saves => exact enqueue_settings _ _
  | closes => exact enqueue_settings _ _

theorem Edits.awaits {p : Path} (hs : s.Awaits root) (h : s.Edits p t) : t.Awaits root := by
  have hnone : ∀ documents job, Server.enqueue { s with documents := documents } job =
      { s with documents := documents } :=
    fun documents job => enqueue_eq_self (s := { s with documents := documents }) hs.indexes job
  cases h with
  | opens document =>
    rw [openDocument, replaceDocument, hnone]
    exact ⟨hs.connected, hs.root, hs.indexes, hs.jobs, hs.listeners⟩
  | saves =>
    rw [enqueue_eq_self hs.indexes]
    exact hs
  | closes =>
    rw [closeDocument, hnone]
    exact ⟨hs.connected, hs.root, hs.indexes, hs.jobs, hs.listeners⟩

theorem start_settings (s : Server) (disk : Disk) : (s.start disk).settings.current = s.settings.current := by
  simp only [start]
  split
  · rfl
  · rw [enqueue_settings]
    split <;> rfl

/-- The current settings are those that the editor has sent last. -/
theorem meet_current (s : Server) (disk : Disk) (o : Occasion) :
    (s.meet disk o).1.settings.current = o.settings?.getD s.settings.current := by
  cases o with
  | noticed e => exact congrArg SettingsSource.current (enqueue_settings s [.follow e])
  | works number turn =>
    show (s.step disk number turn).1.settings.current = s.settings.current
    rw [step]
    split <;> rfl
  | told n =>
    show (s.notify disk n).settings.current = _
    cases hdocument : n.document?.isSome with
    | true =>
      have hsame : (s.notify disk n).settings = s.settings := by
        cases hpath : n.path? with
        | some p => exact (notify_edits hpath disk s).settings
        | none => rw [notify_eq_self hdocument hpath]
      rw [hsame]
      cases n <;> first | rfl | cases hdocument
    | false =>
      cases n with
      | initialized => exact start_settings s disk
      | configured settings =>
        show (s.configure settings).settings.current = _
        simp only [configure]
        rw [foldl_enqueue_settings, SettingsSource.update_eq]
        rfl
      | exit => rfl
      | _ => cases hdocument

theorem course_current (s : Server) (occasions : List (Disk × Occasion)) :
    (s.course occasions).1.settings.current =
      (occasions.filterMap fun o => o.2.settings?).getLast?.getD s.settings.current := by
  induction occasions generalizing s with
  | nil => rfl
  | cons o occasions ih =>
    obtain ⟨disk, o⟩ := o
    rw [course_cons, ih, meet_current, List.filterMap_cons]
    cases o.settings? with
    | none => rfl
    | some settings => rw [List.getLast?_cons]; rfl

theorem Awaits.meet (h : s.Awaits root) (disk : Disk) (ho : o ≠ .told .initialized) :
    (s.meet disk o).1.Awaits root := by
  cases o with
  | noticed e =>
    show (s.enqueue [.follow e]).Awaits root
    rw [enqueue_eq_self h.indexes]
    exact h
  | works number turn =>
    show (s.step disk number turn).1.Awaits root
    simp only [step, h.jobs, List.getElem?_nil]
    exact h
  | told n =>
    show (s.notify disk n).Awaits root
    cases hdocument : n.document?.isSome with
    | true =>
      cases hpath : n.path? with
      | some p => exact (notify_edits hpath disk s).awaits h
      | none =>
        rw [notify_eq_self hdocument hpath]
        exact h
    | false =>
      cases n with
      | initialized => exact absurd rfl ho
      | configured settings =>
        let next : Server := { s with settings := { s.settings with current := .ofJson settings } }
        have hnext : s.configure settings = next := by
          simp only [configure, SettingsSource.update_eq]
          exact foldl_enqueue_eq_self (s := next) h.indexes _ _
        show (s.configure settings).Awaits root
        rw [hnext]
        exact ⟨h.connected, h.root, h.indexes, h.jobs, h.listeners⟩
      | exit => exact h
      | _ => cases hdocument

theorem Awaits.course (h : s.Awaits root) {occasions : List (Disk × Occasion)}
    (ho : ∀ o ∈ occasions, o.2 ≠ .told .initialized) : (s.course occasions).1.Awaits root := by
  induction occasions generalizing s with
  | nil => exact h
  | cons o occasions ih =>
    obtain ⟨disk, o⟩ := o
    obtain ⟨hfirst, hrest⟩ := List.forall_mem_cons.mp ho
    exact ih (h.meet disk hfirst) hrest

/-- The invariant of a server with indexes: the globs that wait last for an index, or else its own, are those of
the current settings. -/
structure Tracks (s : Server) (x : Indexes) : Prop where
  indexes : s.indexes = some x
  current : x.Current
  listeners : s.settings.listeners = [.steps, .features]
  globs : ∀ c, (s.awaited c).getLast?.getD (x.globs c) = s.settings.current.selection c

theorem Awaits.start (h : s.Awaits root) (disk : Disk) : ∃ x, (s.start disk).Tracks x := by
  let x : Indexes := .new root (s.settings.current.selection .steps) (s.settings.current.selection .features)
    s.config.scanBatchSize s.config.maxRescanDepth
  refine ⟨x, ?_, Service.current_new _ _ _ _ _, ?_, fun c => ?_⟩ <;>
    simp only [Server.start, h.root, h.connected, if_true, enqueue, Option.isSome_some]
  · rfl
  · show s.settings.listeners ++ [.steps] ++ [.features] = _
    rw [h.listeners]
    rfl
  · show ((s.jobs ++ [starting]).flatMap (Job.awaited c)).getLast?.getD (x.globs c) = _
    rw [h.jobs]
    cases c <;> rfl

theorem awaited_append (s : Server) (jobs : List Job) (c : Corpus) :
    awaited { s with jobs := s.jobs ++ jobs } c = s.awaited c ++ jobs.flatMap (Job.awaited c) :=
  List.flatMap_append

/-- A job that holds no globs changes nothing. -/
theorem Tracks.append (h : s.Tracks x) (documents : Documents) (hjob : ∀ c, Job.awaited c job = []) :
    Tracks { s with documents := documents, jobs := s.jobs ++ [job] } x where
  indexes := h.indexes
  current := h.current
  listeners := h.listeners
  globs c := by
    have hsame : awaited { s with documents := documents, jobs := s.jobs ++ [job] } c = s.awaited c := by
      refine (awaited_append s [job] c).trans ?_
      rw [List.flatMap_singleton, hjob, List.append_nil]
    rw [hsame]
    exact h.globs c

/-- Each listener to a corpus whose globs the settings change leaves a job with the new ones. -/
theorem configure_eq_append (hindexes : s.indexes = some x) (settings : Json) :
    s.configure settings =
      { s with
        settings := { s.settings with current := .ofJson settings }
        jobs := s.jobs ++ (s.settings.listeners.filter fun c => s.settings.current.selection c ≠
          (CorpusSettings.ofJson settings).selection c).map (reconfiguring (.ofJson settings)) } := by
  let next : CorpusSettings := .ofJson settings
  have hfold := foldl_enqueue (s := { s with settings := { s.settings with current := next } }) hindexes
    (fun l : Nat × Corpus => reconfiguring next l.2) (s.settings.update next).2.2
  rw [← SettingsSource.map_told, List.map_map]
  simp only [configure, SettingsSource.update_eq] at hfold ⊢
  exact hfold

theorem awaited_reconfiguring (settings : CorpusSettings) (c other : Corpus) :
    Job.awaited c (reconfiguring settings other) = if other = c then [settings.selection c] else [] := by
  cases c <;> cases other <;> rfl

theorem Tracks.configure (h : s.Tracks x) (settings : Json) : (s.configure settings).Tracks x := by
  let next : CorpusSettings := .ofJson settings
  rw [configure_eq_append h.indexes, h.listeners]
  refine ⟨h.indexes, h.current, h.listeners, fun c => ?_⟩
  have hwaiting : (([Corpus.steps, .features].filter fun c => s.settings.current.selection c ≠
      next.selection c).map (reconfiguring next)).flatMap (Job.awaited c) =
        if s.settings.current.selection c ≠ next.selection c then [next.selection c] else [] := by
    rw [List.flatMap_map]
    simp only [awaited_reconfiguring]
    cases c <;> simp only [List.filter_cons, List.filter_nil] <;> split_ifs <;> simp_all
  show ((s.jobs ++ _).flatMap (Job.awaited c)).getLast?.getD (x.globs c) = next.selection c
  rw [List.flatMap_append, hwaiting]
  split_ifs with hchanged
  · rw [List.getLast?_append, List.getLast?_singleton]
    rfl
  · rw [List.append_nil, ← not_not.mp hchanged]
    exact h.globs c

/-- What waits before and behind a job stays where it is when the job is replaced. -/
theorem awaited_set (hjob : s.jobs[number]? = some job) (left : Job) (c : Corpus) :
    let before := (s.jobs.take number).flatMap (Job.awaited c)
    let behind := (s.jobs.drop (number + 1)).flatMap (Job.awaited c)
    s.awaited c = before ++ (Job.awaited c job ++ behind) ∧
      (s.jobs.set number left).flatMap (Job.awaited c) = before ++ (Job.awaited c left ++ behind) ∧
      (s.jobs.eraseIdx number).flatMap (Job.awaited c) = before ++ behind := by
  obtain ⟨hlt, hget⟩ := List.getElem?_eq_some_iff.mp hjob
  have hsplit : s.jobs = s.jobs.take number ++ job :: s.jobs.drop (number + 1) := by
    rw [← hget, ← List.drop_eq_getElem_cons hlt, List.take_append_drop]
  refine ⟨?_, ?_, ?_⟩
  · rw [awaited]
    conv => lhs; rw [hsplit, List.flatMap_append, List.flatMap_cons]
  · rw [List.set_eq_take_append_cons_drop, if_pos hlt, List.flatMap_append, List.flatMap_cons]
  · rw [List.eraseIdx_eq_take_drop_succ, List.flatMap_append]

/-- A job that takes a step hands on the globs that wait first for an index, or none. -/
theorem Tracks.works (h : s.Tracks x) (disk : Disk) (turn : Turn)
    (horder : s.TakesInOrder (.works number turn)) : ∃ y, (s.step disk number turn).1.Tracks y := by
  cases hjob : s.jobs[number]? with
  | none =>
    simp only [step, hjob]
    exact ⟨x, h⟩
  | some job =>
    cases job with
    | nil =>
      simp only [step, hjob]
      refine ⟨x, h.indexes, h.current, h.listeners, fun c => ?_⟩
      obtain ⟨hawaited, -, herased⟩ := awaited_set hjob [] c
      have hglobs := h.globs c
      rw [hawaited] at hglobs
      show ((s.jobs.eraseIdx number).flatMap (Job.awaited c)).getLast?.getD (x.globs c) = _
      rw [herased]
      exact hglobs
    | cons action rest =>
      simp only [step, hjob, h.indexes]
      let next := action.step s.connected (s.world disk) turn x
      refine ⟨next.1, rfl, ((Action.acts_step h.current _ _ turn action).current h.current).1, h.listeners,
        fun c => ?_⟩
      obtain ⟨hawaited, hset, -⟩ := awaited_set hjob (next.2.1 ++ rest) c
      have hglobs := h.globs c
      have hhead : Job.awaited c (action :: rest) = (action.globs? c).toList ++ Job.awaited c rest := by
        rw [Job.awaited, List.filterMap_cons]
        cases action.globs? c <;> rfl
      have hleft : Job.awaited c (next.2.1 ++ rest) = Job.awaited c next.2.1 ++ Job.awaited c rest :=
        List.filterMap_append
      rw [hawaited, hhead] at hglobs
      show ((s.jobs.set number (next.2.1 ++ rest)).flatMap (Job.awaited c)).getLast?.getD (next.1.globs c) = _
      rw [hset, hleft, ← hglobs]
      rcases Action.step_globs h.current s.connected (s.world disk) turn action c with
        ⟨hkept, hstays⟩ | ⟨rfl, hhanded, hgone⟩
      · rw [hkept, hstays]
      · rw [hhanded, hgone]
        cases hfirst : action.globs? turn.corpus with
        | none => rfl
        | some globs =>
          -- Nothing waits before these globs, so they are the last to wait unless others do behind them.
          have hbefore : (s.jobs.take number).flatMap (Job.awaited turn.corpus) = [] :=
            List.flatMap_eq_nil_iff.mpr (horder action rest hjob (by rw [hfirst]; exact Option.some_ne_none _))
          rw [hbefore]
          simp [List.getLast?_cons]

theorem Tracks.meet (h : s.Tracks x) (disk : Disk) (ho : o ≠ .told .initialized) (horder : s.TakesInOrder o) :
    ∃ y, (s.meet disk o).1.Tracks y := by
  have hmeets := meets h.indexes h.current disk ho
  generalize hnext : s.meet disk o = next at hmeets ⊢
  obtain ⟨t, seen⟩ := next
  cases hmeets with
  | edits n p path documents job edited =>
    refine ⟨x, h.append documents fun c => ?_⟩
    rcases edited.job with ⟨rfl, -⟩ | ⟨rfl, -⟩ <;> cases c <;> rfl
  | ignores n path => exact ⟨x, h⟩
  | configures settings source corpora =>
    have hconfigured := h.configure settings
    rw [show s.configure settings = _ from congrArg Prod.fst hnext] at hconfigured
    exact ⟨x, hconfigured⟩
  | notices e => exact ⟨x, h.append s.documents fun c => (by cases c <;> rfl)⟩
  | works number turn t seen worked =>
    have hworks := h.works disk turn horder
    rw [show s.step disk number turn = _ from hnext] at hworks
    exact hworks

theorem Tracks.course (h : s.Tracks x) {occasions : List (Disk × Occasion)}
    (ho : ∀ o ∈ occasions, o.2 ≠ .told .initialized) (horder : s.InOrder occasions) :
    ∃ y, (s.course occasions).1.Tracks y := by
  induction occasions generalizing s x with
  | nil => exact ⟨x, h⟩
  | cons o occasions ih =>
    obtain ⟨disk, o⟩ := o
    obtain ⟨hfirst, hrest⟩ := List.forall_mem_cons.mp ho
    obtain ⟨y, hy⟩ := h.meet disk hfirst horder.1
    exact ih hy hrest horder.2

/-- An update makes the settings that are sent the current ones, and tells each listener once if and only if the
globs of its corpus, its patterns or the common excludes, are others than before. When the indexes have been built
with the settings of that moment, each update leaves a job with the new globs for each corpus that it changes; and
once all such jobs have handed their globs on, in the order in which they were left, both indexes have the globs of
the settings that were sent last. -/
theorem settings_reach_indexes :
    (∀ (source : SettingsSource) (next : CorpusSettings),
      (source.update next).1 = { source with current := next } ∧ (source.update next).2.2.Nodup ∧
      ∀ number c, (number, c) ∈ (source.update next).2.2 ↔
        source.listeners[number]? = some c ∧ source.current.selection c ≠ next.selection c) ∧
    ∀ (s : Server) (root : Path) (disk : Disk) (before after : List (Disk × Occasion)), s.Awaits root →
      (∀ o ∈ before ++ after, o.2 ≠ .told .initialized) →
      ((s.course before).1.notify disk .initialized).InOrder after →
      let t := (s.course (before ++ (disk, .told .initialized) :: after)).1
      t.settings.current = ((before ++ after).filterMap fun o => o.2.settings?).getLast?.getD s.settings.current ∧
      (∀ settings, t.notify disk (.configured settings) =
        { t with
          settings := { t.settings with current := .ofJson settings }
          jobs := t.jobs ++ ([Corpus.steps, .features].filter fun c => t.settings.current.selection c ≠
            (CorpusSettings.ofJson settings).selection c).map (reconfiguring (.ofJson settings)) }) ∧
      ∃ x, t.indexes = some x ∧ ∀ c, t.awaited c = [] → x.globs c = t.settings.current.selection c := by
  refine ⟨fun source next => ⟨?_, source.nodup_told next, fun number c => SettingsSource.mem_told⟩,
    fun s root disk before after hs ho horder => ?_⟩
  · rw [SettingsSource.update_eq]
  intro t
  obtain ⟨hbefore, hafter⟩ := List.forall_mem_append.mp ho
  obtain ⟨x₀, hstart⟩ := (hs.course hbefore).start disk
  obtain ⟨x, hx⟩ := hstart.course hafter horder
  have ht : (((s.course before).1.notify disk .initialized).course after).1 = t := by
    simp only [t, course_append, course_cons]
    rfl
  have hcurrent := course_current s (before ++ (disk, .told .initialized) :: after)
  rw [List.filterMap_append, List.filterMap_cons] at hcurrent
  rw [show (s.course before).1.start disk = (s.course before).1.notify disk .initialized from rfl, ht] at hx
  refine ⟨?_, fun settings => ?_, x, hx.indexes, fun c hnone => ?_⟩
  · rw [List.filterMap_append]
    exact hcurrent
  · rw [← hx.listeners]
    exact configure_eq_append hx.indexes settings
  · have hglobs := hx.globs c
    rw [hnone] at hglobs
    exact hglobs

/-- Settings with these globs for step modules and these excluded from both corpora. -/
def sentSettings (steps exclude : String) : Json :=
  .ofMembers [("stepsGlob", .ofString steps), ("exclude", .ofString exclude)]

/-- Two updates after the indexes have been built: one of both corpora, and one of step modules again, whose globs
are handed on after those of the first. -/
def updatedTwice : List (Disk × Occasion) :=
  [(.empty, .told (.configured (sentSettings "a/*.py" "b/**"))),
    (.empty, .told (.configured (sentSettings "c/*.py" "b/**"))),
    (.empty, .works 1 ⟨.steps, 0⟩), (.empty, .works 2 ⟨.features, 0⟩), (.empty, .works 3 ⟨.steps, 0⟩)]

/-- Each index has the globs that were sent last. -/
theorem settings_reach_indexes_updatedTwice :
    let s : Server := { root := some ⟨"/w".toList⟩ }
    let before : List (Disk × Occasion) := [(.empty, .told (.configured (sentSettings "s/*.py" "t/**")))]
    let t := (s.course (before ++ (.empty, .told .initialized) :: updatedTwice)).1
    s.Awaits ⟨"/w".toList⟩ ∧ ((s.course before).1.notify .empty .initialized).InOrder updatedTwice ∧
      ∃ x, t.indexes = some x ∧ x.globs .steps = ⟨["c/*.py".toList], ["b/**".toList]⟩ ∧
        x.globs .features = ⟨["**/*.feature".toList], ["b/**".toList]⟩ := by
  intro s before t
  have hs : s.Awaits ⟨"/w".toList⟩ := ⟨rfl, rfl, rfl, rfl, rfl⟩
  have horder : ((s.course before).1.notify .empty .initialized).InOrder updatedTwice :=
    ⟨trivial, trivial, fun _ _ _ _ => (by decide +kernel), fun _ _ _ _ => (by decide +kernel),
      fun _ _ _ _ => (by decide +kernel), trivial⟩
  obtain ⟨-, -, x, hx, hglobs⟩ := settings_reach_indexes.2 s ⟨"/w".toList⟩ .empty before updatedTwice hs
    (fun o ho => by
      simp only [before, updatedTwice, List.mem_append, List.mem_cons, List.not_mem_nil, or_false] at ho
      rcases ho with rfl | rfl | rfl | rfl | rfl | rfl <;> simp) horder
  have hsteps := hglobs .steps (by decide +kernel)
  have hfeatures := hglobs .features (by decide +kernel)
  refine ⟨hs, horder, x, hx, hsteps.trans ?_, hfeatures.trans ?_⟩
  · decide +kernel
  · decide +kernel

end Server

end StepLink
