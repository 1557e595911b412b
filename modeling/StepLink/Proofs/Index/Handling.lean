import StepLink.Proofs.Index.Moment

/-! Events on an index that nothing else touches. Each is handled to its end before the next one, and what is
handled amounts to a few sections of code: the file is looked at if the globs select it, and dropped with what
is below it if they do not, or if it is gone. -/

namespace StepLink

open IndexState

variable {α : Type} {setup : IndexSetup α} {equal : α → α → Prop} {pathOf : α → Path} {world : World}
  {s t u : IndexState α} {p q : Path} {c : Call} {e : FileEvent} {events : List FileEvent}

/-- The call, taking steps on its own, comes to its end and leads from the first state to the second. -/
inductive Call.Ends (setup : IndexSetup α) (world : World) : IndexState α → Call → IndexState α → Prop
  | ended (s : IndexState α) (dropped : Bool) : Call.Ends setup world s (.ended dropped) s
  | step {s t : IndexState α} {c : Call} (pick : Nat) (goes : c.isEnded = false)
    (rest : Call.Ends setup world (c.step setup world pick s).1 (c.step setup world pick s).2.1 t) :
    Call.Ends setup world s c t

/-- The events are handled in order, each to its end. -/
inductive Handles (setup : IndexSetup α) (world : World) : IndexState α → List FileEvent → IndexState α → Prop
  | nil (s : IndexState α) : Handles setup world s [] s
  | cons {s t u : IndexState α} {e : FileEvent} {events : List FileEvent}
    (first : (Call.ofEvent e).Ends setup world s t) (rest : Handles setup world t events u) :
    Handles setup world s (e :: events) u

/-- The steps of the call do not depend on a pick, and no call that it becomes does so. -/
def Call.isPlain : Call → Bool
  | .scan _ => true
  | .removing _ => true
  | .removed _ => true
  | .routing _ => true
  | .tracking _ => true
  | .ended _ => true
  | _ => false

theorem Call.step_isPlain (setup : IndexSetup α) (world : World) (pick : Nat) (s : IndexState α)
    (h : c.isPlain = true) : (c.step setup world pick s).2.1.isPlain = true := by
  cases c with
  | scan c => 
    simp only [Call.step]
    split <;> rfl
  | removing p =>
    simp only [Call.step]
    split <;> rfl
  | removed notice =>
    simp only [Call.step]
    split <;> rfl
  | routing p =>
    simp only [Call.step]
    split <;> rfl
  | tracking p =>
    simp only [Call.step]
    split <;> rfl
  | ended dropped => rfl
  | _ => cases h

theorem Call.step_pick (setup : IndexSetup α) (world : World) (s : IndexState α) (h : c.isPlain = true)
    (i j : Nat) : c.step setup world i s = c.step setup world j s := by
  cases c <;> first | rfl | cases h

theorem Call.ofEvent_isPlain (e : FileEvent) : (Call.ofEvent e).isPlain = true := by
  cases e <;> rfl

/-- A call of which no step depends on a pick leads to one state only. -/
theorem Call.Ends.unique (h : c.Ends setup world s t) (hc : c.isPlain = true) (h' : c.Ends setup world s u) :
    u = t := by
  induction h with
  | ended s dropped =>
    cases h' with
    | ended => rfl
    | step pick goes rest => cases goes
  | step pick goes rest ih =>
    cases h' with
    | ended => cases goes
    | step pick' goes' rest' =>
      rw [Call.step_pick setup world _ hc pick' pick] at rest'
      exact ih (Call.step_isPlain setup world pick _ hc) rest'

theorem Call.Ends.sound (law : Lawful setup equal pathOf) (h : c.Ends setup world s t)
    (hs : Sound setup pathOf s) : Sound setup pathOf t := by
  induction h with
  | ended s dropped => exact hs
  | step pick goes rest ih => exact ih (hs.of_section law (Call.step_section setup world pick _ _))

theorem Call.Ends.course (h : c.Ends setup world s t) (hc : c.isPlain = true) : SameCourse s t := by
  induction h with
  | ended s dropped => exact .refl s
  | @step s t c pick goes rest ih =>
    have hsteers : c.steers = false := by
      cases c <;> first | rfl | cases hc
    exact (Call.step_course setup world pick s hsteers).trans (ih (Call.step_isPlain setup world pick s hc))

/-- The state after what a read of the path has found is taken in. -/
def IndexState.settle (setup : IndexSetup α) (world : World) (s : IndexState α) (p : Path) : IndexState α :=
  match world.read p with
  | .ok text => (s.commit setup.same p (setup.parse p text)).1
  | .error _ => (s.dropBelow p false).1

/-- The state after a scan that nobody joins. -/
def IndexState.scanOnce (setup : IndexSetup α) (world : World) (s : IndexState α) (p : Path) : IndexState α :=
  (((s.enterScan p).1.settle setup world p).decideReplay setup.maxReplays p 0).1

/-- The state after an event has been handled while nothing else is going on. -/
def IndexState.heed (setup : IndexSetup α) (world : World) (s : IndexState α) : FileEvent → IndexState α
  | .created p => refresh s p
  | .modified p => refresh s p
  | .removed p => (s.dropBelow p true).1
where
  refresh (s : IndexState α) (p : Path) : IndexState α :=
    let (s, filter) := s.compiledFilter setup.root
    if filter.accepts p then s.scanOnce setup world p
    else if s.isTracked p then (s.dropBelow p true).1
    else s

namespace Call.Ends

/-- It takes a step for every subscriber who is told, and one more. -/
theorem removed (setup : IndexSetup α) (world : World) (s : IndexState α) (notice : Notice) :
    Call.Ends setup world s (.removed notice) s := by
  obtain ⟨version, path, ids⟩ := notice
  induction ids with
  | nil => exact .step 0 rfl (.ended s true)
  | cons id ids ih => exact .step 0 rfl ih

theorem removing (setup : IndexSetup α) (world : World) (s : IndexState α) (p : Path) :
    Call.Ends setup world s (.removing p) (s.dropBelow p true).1 := by
  refine .step 0 rfl ?_
  simp only [Call.step]
  split
  next hdrop =>
    rw [hdrop]
    exact removed setup world _ _
  next hdrop =>
    rw [hdrop]
    exact .ended _ false

theorem telling (s : IndexState α) (replays : Nat) (notice : Notice)
    (h : Call.Ends setup world s (.scan ⟨p, .deciding replays⟩) t) :
    Call.Ends setup world s (.scan ⟨p, .telling replays notice⟩) t := by
  obtain ⟨version, path, ids⟩ := notice
  induction ids with
  | nil => exact .step 0 rfl h
  | cons id ids ih => exact .step 0 rfl ih

theorem deciding (setup : IndexSetup α) (world : World) (h : s.scanning? p = some false) (replays : Nat) :
    Call.Ends setup world s (.scan ⟨p, .deciding replays⟩) (s.decideReplay setup.maxReplays p replays).1 := by
  refine .step 0 rfl ?_
  simp only [Call.step, Scan.step, decideReplay, h, Option.getD_some, Bool.false_and, Bool.false_eq_true,
    if_false]
  exact .ended _ false

/-- What follows a commit is the telling, if anything is to be told, and then the decision. -/
theorem afterCommit (s : IndexState α) (replays : Nat) (stage : ScanStage) (notice : Option Notice)
    (h : Call.Ends setup world s (.scan ⟨p, .deciding replays⟩) t) :
    Call.Ends setup world s (.scan (Scan.afterCommit ⟨p, stage⟩ replays notice)) t := by
  cases notice with
  | none => exact h
  | some notice => exact telling s replays notice h

theorem holding (setup : IndexSetup α) (world : World) (h : s.scanning? p = some false) (replays : Nat) :
    Call.Ends setup world s (.scan ⟨p, .holding replays (world.read p)⟩)
      ((s.settle setup world p).decideReplay setup.maxReplays p replays).1 := by
  have hmark : (s.settle setup world p).scanning? p = some false := by
    unfold settle
    split
    next text _ => rw [scanning?_commit, h]
    next e _ =>
      rw [scanning?_dropBelow, h]
      rfl
  have hdecides := deciding setup world hmark replays
  refine .step 0 rfl ?_
  unfold settle at hdecides ⊢
  split
  next text hread =>
    rw [hread] at hdecides ⊢
    simp only [Call.step, Scan.step, Scan.afterCommit_isEnded, Bool.false_eq_true, if_false]
    exact afterCommit _ replays _ _ hdecides
  next e hread =>
    rw [hread] at hdecides ⊢
    simp only [Call.step, Scan.step, Scan.afterCommit_isEnded, Bool.false_eq_true, if_false]
    exact afterCommit _ replays _ _ hdecides

theorem entering (setup : IndexSetup α) (world : World) (hlive : s.isDisposed = false) (hidle : s.scanning = [])
    (p : Path) : Call.Ends setup world s (.scan ⟨p, .entering⟩) (s.scanOnce setup world p) := by
  have hfree : s.scanning? p = none := by rw [scanning?_eq_lookup, hidle]; rfl
  have henter : s.enterScan p = ({ s with scanning := s.scanning ++ [(p, false)] }, true) := by
    rw [enterScan, hlive, hfree]
    rfl
  have hmark : (s.enterScan p).1.scanning? p = some false := by
    rw [henter, scanning?_eq_lookup, lookup_begun, ← scanning?_eq_lookup, hfree, Path.same_refl]
    rfl
  refine .step 0 rfl ?_
  simp only [Call.step, Scan.step, henter]
  rw [henter] at hmark
  refine .step 0 rfl ?_
  unfold scanOnce
  rw [henter]
  exact holding setup world hmark 0

/-- While nothing else is going on, an event comes to its end. -/
theorem ofEvent (setup : IndexSetup α) (world : World) (hlive : s.isDisposed = false) (hidle : s.scanning = [])
    (e : FileEvent) : Call.Ends setup world s (.ofEvent e) (s.heed setup world e) := by
  have hrouting : ∀ p, Call.Ends setup world s (.routing p) (heed.refresh setup world s p) := by
    intro p
    have hcourse := SameCourse.compiledFilter setup.root s
    have hscanning : (s.compiledFilter setup.root).1.scanning = s.scanning := by
      rw [compiledFilter]
      split <;> rfl
    refine .step 0 rfl ?_
    simp only [Call.step, heed.refresh]
    split
    next =>
      refine entering setup world ?_ ?_ p
      · exact hcourse.isDisposed.trans hlive
      · exact hscanning.trans hidle
    next =>
      refine .step 0 rfl ?_
      simp only [Call.step]
      split
      next => exact removing setup world _ p
      next => exact .ended _ false
  cases e with
  | created p => exact hrouting p
  | modified p => exact hrouting p
  | removed p => exact removing setup world s p

end Call.Ends

/-! ### Events one after the other -/

/-- The index is in use and nothing is going on. -/
structure AtRest (setup : IndexSetup α) (pathOf : α → Path) (globs : Selection) (s : IndexState α) : Prop where
  sound : Sound setup pathOf s
  live : s.isDisposed = false
  idle : s.scanning = []
  globs : s.globs = globs

variable {globs : Selection}

theorem settle_scanning (setup : IndexSetup α) (world : World) (s : IndexState α) (p : Path) :
    (s.settle setup world p).scanning = s.scanning := by
  unfold settle
  split
  next => exact commit_scanning _ _ _ _
  next => exact keepFiles_scanning s _ _

/-- A scan that nobody joins takes its mark away again. -/
theorem scanOnce_scanning (setup : IndexSetup α) (world : World) (hlive : s.isDisposed = false)
    (hidle : s.scanning = []) (p : Path) : (s.scanOnce setup world p).scanning = [] := by
  have henter : (s.enterScan p).1.scanning = [(p, false)] := by
    simp only [enterScan, hlive, scanning?_eq_lookup, hidle, lookup, List.find?_nil, Option.map_none,
      Option.isSome_none, Bool.false_eq_true, if_false, List.nil_append]
  have hsettle := (settle_scanning setup world (s.enterScan p).1 p).trans henter
  simp only [scanOnce, decideReplay, scanning?_eq_lookup, hsettle, lookup_cons, Path.same_refl, if_true,
    Option.getD_some, Bool.false_and, Bool.false_eq_true, if_false]
  rw [List.filter_cons_of_neg (by simp), List.filter_nil]

theorem dropBelow_scanning (hidle : s.scanning = []) (p : Path) (again : Bool) :
    (s.dropBelow p again).1.scanning = [] := by
  rw [dropBelow_fst, keepFiles_scanning]
  cases again with
  | false => exact hidle
  | true => exact congrArg (List.map _) hidle

theorem heed_scanning (setup : IndexSetup α) (world : World) (hlive : s.isDisposed = false)
    (hidle : s.scanning = []) (e : FileEvent) : (s.heed setup world e).scanning = [] := by
  have hrefresh : ∀ p, (heed.refresh setup world s p).scanning = [] := by
    intro p
    have hcourse := SameCourse.compiledFilter setup.root s
    have hscanning : (s.compiledFilter setup.root).1.scanning = [] := by
      rw [compiledFilter]
      split <;> exact hidle
    unfold heed.refresh
    simp only
    split
    next => exact scanOnce_scanning setup world (hcourse.isDisposed.trans hlive) hscanning p
    next =>
      split
      next => exact dropBelow_scanning hscanning p true
      next => exact hscanning
  cases e with
  | created p => exact hrefresh p
  | modified p => exact hrefresh p
  | removed p => exact dropBelow_scanning hidle p true

theorem AtRest.heed (law : Lawful setup equal pathOf) (h : AtRest setup pathOf globs s) (world : World)
    (e : FileEvent) : AtRest setup pathOf globs (s.heed setup world e) := by
  have hends := Call.Ends.ofEvent setup world h.live h.idle e
  have hcourse := hends.course (Call.ofEvent_isPlain e)
  exact ⟨hends.sound law h.sound, hcourse.isDisposed.trans h.live, heed_scanning setup world h.live h.idle e,
    hcourse.globs.trans h.globs⟩

/-- Events that are handled in order lead to one state, and there they do lead. -/
theorem AtRest.handles_iff (law : Lawful setup equal pathOf) (h : AtRest setup pathOf globs s)
    (world : World) : Handles setup world s events t ↔ t = events.foldl (IndexState.heed setup world) s := by
  induction events generalizing s with
  | nil =>
    constructor
    · intro hhandles
      cases hhandles
      rfl
    · intro heq
      rw [heq]
      exact .nil _
  | cons e events ih =>
    have hends := Call.Ends.ofEvent setup world h.live h.idle e
    rw [List.foldl_cons, ← ih (h.heed law world e)]
    constructor
    · intro hhandles
      cases hhandles with
      | cons first rest => rwa [hends.unique (Call.ofEvent_isPlain e) first] at rest
    · exact .cons hends

/-- Of the entries only that of the path may have changed. It is what a read of the path has found if the globs
select the path, and otherwise there is none. -/
structure Refreshed (setup : IndexSetup α) (equal : α → α → Prop) (world : World) (globs : Selection) (p : Path)
    (s t : IndexState α) : Prop where
  accepted : (CorpusFilter.ofGlobs setup.root globs).accepts p = true → t.Shows setup equal p (world.read p)
  rejected : (CorpusFilter.ofGlobs setup.root globs).accepts p = false → t.items? p = none
  others : ∀ q, p.same q = false → t.items? q = s.items? q

/-- Nothing is tracked below the path but perhaps the path itself. -/
def IndexState.IsBareBelow (s : IndexState α) (p : Path) : Prop :=
  ∀ q, q.startsWith p = true → p.same q = false → s.items? q = none

theorem items?_dropBelow_of_bare (hbare : s.IsBareBelow p) (again : Bool) (hq : p.same q = false) :
    (s.dropBelow p again).1.items? q = s.items? q := by
  rw [items?_dropBelow]
  split
  next hstarts => exact (hbare q hstarts hq).symm
  next => rfl

theorem items?_enterScan (s : IndexState α) (p q : Path) : (s.enterScan p).1.items? q = s.items? q := by
  rw [enterScan]
  split
  · rfl
  · split <;> rfl

theorem items?_decideReplay (maxReplays : Nat) (s : IndexState α) (p : Path) (replays : Nat) (q : Path) :
    (s.decideReplay maxReplays p replays).1.items? q = s.items? q := by
  rw [decideReplay]
  split <;> rfl

theorem AtRest.shows_scanOnce (law : Lawful setup equal pathOf) (h : AtRest setup pathOf globs s)
    (world : World) (p : Path) : (s.scanOnce setup world p).Shows setup equal p (world.read p) := by
  have hentered : Sound setup pathOf (s.enterScan p).1 := h.sound.of_section law (.enter p)
  have hlive : (s.enterScan p).1.isDisposed = false := by
    rw [enterScan]
    split
    · exact h.live
    · split <;> exact h.live
  refine Shows.congr ?_ (items?_decideReplay setup.maxReplays _ p 0 p)
  unfold settle
  split
  next text hread =>
    rw [hread]
    exact hentered.commit_shows law hlive p text
  next e hread =>
    rw [hread]
    exact dropBelow_shows setup equal _ p false e

theorem items?_scanOnce_of_ok {text : Text} (hread : world.read p = .ok text) (hq : p.same q = false) :
    (s.scanOnce setup world p).items? q = s.items? q := by
  rw [IndexState.scanOnce, items?_decideReplay, settle, hread]
  simp only [items?_commit, hq, Bool.false_eq_true, and_false, if_false, items?_enterScan]

/-- A read that fails takes with the entry of its path those of the paths below. -/
theorem items?_scanOnce_of_error {e : ReadError} (hread : world.read p = .error e) (q : Path) :
    (s.scanOnce setup world p).items? q = if q.startsWith p then none else s.items? q := by
  rw [IndexState.scanOnce, items?_decideReplay, settle, hread]
  simp only [items?_dropBelow, items?_enterScan]

/-- A failed read keeps the other entries only where there is none to take away. -/
theorem items?_scanOnce_eq_iff (setup : IndexSetup α) (world : World) (s : IndexState α) (p : Path) :
    (∀ q, p.same q = false → (s.scanOnce setup world p).items? q = s.items? q) ↔
      (∃ text, world.read p = .ok text) ∨ s.IsBareBelow p := by
  cases hread : world.read p with
  | ok text => exact iff_of_true (fun q hq => items?_scanOnce_of_ok hread hq) (.inl ⟨text, rfl⟩)
  | error e =>
    constructor
    · intro hkeeps
      refine .inr fun q hstarts hq => ?_
      rw [← hkeeps q hq, items?_scanOnce_of_error hread, if_pos hstarts]
    · rintro (⟨text, hok⟩ | hbare) q hq
      · cases hok
      · rw [items?_scanOnce_of_error hread, ← items?_dropBelow s p false]
        exact items?_dropBelow_of_bare hbare false hq

theorem AtRest.scanOnce (law : Lawful setup equal pathOf) (h : AtRest setup pathOf globs s)
    (hbare : s.IsBareBelow p) (world : World) :
    (s.scanOnce setup world p).Shows setup equal p (world.read p) ∧
      ∀ q, p.same q = false → (s.scanOnce setup world p).items? q = s.items? q :=
  ⟨h.shows_scanOnce law world p, (items?_scanOnce_eq_iff setup world s p).mpr (.inr hbare)⟩

theorem AtRest.refreshed (law : Lawful setup equal pathOf) (h : AtRest setup pathOf globs s)
    (hbare : s.IsBareBelow p) (world : World) (he : e = .created p ∨ e = .modified p) :
    Refreshed setup equal world globs p s (s.heed setup world e) := by
  have hheed : s.heed setup world e = heed.refresh setup world s p := by
    rcases he with rfl | rfl <;> rfl
  have hcourse := SameCourse.compiledFilter setup.root s
  have hfilter : (s.compiledFilter setup.root).2 = .ofGlobs setup.root globs := by
    rw [compiledFilter_snd h.sound.filter, h.globs]
  have hkeeps : (s.compiledFilter setup.root).1.scanning = s.scanning ∧
      ∀ q, (s.compiledFilter setup.root).1.items? q = s.items? q := by
    rw [compiledFilter]
    split <;> exact ⟨rfl, fun q => rfl⟩
  have hcompiled : AtRest setup pathOf globs (s.compiledFilter setup.root).1 :=
    ⟨h.sound.of_section law .filter, hcourse.isDisposed.trans h.live, hkeeps.1.trans h.idle,
      hcourse.globs.trans h.globs⟩
  have hbare' : (s.compiledFilter setup.root).1.IsBareBelow p := fun q hstarts hq =>
    (hkeeps.2 q).trans (hbare q hstarts hq)
  rw [hheed]
  unfold heed.refresh
  simp only [hfilter]
  split
  next haccepts =>
    obtain ⟨hshows, hothers⟩ := hcompiled.scanOnce law hbare' world
    refine ⟨fun _ => hshows, fun hrejects => ?_, fun q hq => (hothers q hq).trans (hkeeps.2 q)⟩
    rw [haccepts] at hrejects
    cases hrejects
  next hrejects =>
    split
    next htracked =>
      refine ⟨fun haccepts => absurd haccepts hrejects, fun _ => ?_, fun q hq => ?_⟩
      · rw [items?_dropBelow, if_pos (Path.startsWith_of_same (Path.same_refl p))]
      · exact (items?_dropBelow_of_bare hbare' true hq).trans (hkeeps.2 q)
    next huntracked =>
      refine ⟨fun haccepts => absurd haccepts hrejects, fun _ => ?_, fun q _ => hkeeps.2 q⟩
      exact Option.not_isSome_iff_eq_none.mp huntracked

end StepLink
