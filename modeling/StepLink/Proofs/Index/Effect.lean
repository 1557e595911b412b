import Mathlib.Data.List.Forall2
import StepLink.Proofs.Index.Item
import StepLink.Proofs.Lookup

/-! What each section of code does to the files of an index and to the marks of its scans. Later proofs use
these facts and do not open the sections again. -/

namespace StepLink.IndexState

variable {α : Type} {s : IndexState α} {p q : Path}

theorem items?_eq_lookup (s : IndexState α) (p : Path) : s.items? p = lookup s.files p := rfl

theorem scanning?_eq_lookup (s : IndexState α) (p : Path) : s.scanning? p = lookup s.scanning p := rfl

theorem items?_congr (h : p.same q = true) (s : IndexState α) : s.items? p = s.items? q :=
  lookup_congr h s.files

theorem scanning?_congr (h : p.same q = true) (s : IndexState α) : s.scanning? p = s.scanning? q :=
  lookup_congr h s.scanning

theorem agree_iff {same : α → α → Bool} {as bs : List α} :
    agree same as bs = true ↔ List.Forall₂ (fun a b => same a b = true) as bs := by
  induction as generalizing bs with
  | nil => cases bs <;> simp [agree]
  | cons a as ih => cases bs <;> simp [agree, ih]

/-- The state with other files, which counts as one change. -/
def revise (s : IndexState α) (files : List (Path × List α)) : IndexState α :=
  { s with files := files, flat := none, version := s.version + 1 }

/-- Entering items for a path would change nothing. -/
def settles (same : α → α → Bool) (s : IndexState α) (p : Path) (items : List α) : Bool :=
  s.isDisposed || (s.items? p).any fun previous => agree same previous items

theorem commit_fst (same : α → α → Bool) (s : IndexState α) (p : Path) (items : List α) :
    (s.commit same p items).1 =
      if s.settles same p items then s else s.revise (enterFile s.files p items) := by
  cases hd : s.isDisposed with
  | true => simp [commit, settles, hd]
  | false =>
    cases hi : s.items? p with
    | none => simp [commit, settles, hd, hi, countChange, revise]
    | some previous =>
      cases ha : agree same previous items <;> simp [commit, settles, hd, hi, ha, countChange, revise]

theorem keepFiles_fst (s : IndexState α) (test : Path → Bool) (path : Option Path) :
    (s.keepFiles test path).1 =
      if s.files.all fun entry => test entry.1 then s
      else s.revise (s.files.filter fun entry => test entry.1) := by
  have hlen : (s.files.filter fun entry => test entry.1).length = s.files.length ↔
      (s.files.all fun entry => test entry.1) = true := by
    rw [List.length_filter_eq_length_iff, List.all_eq_true]
  by_cases hall : (s.files.all fun entry => test entry.1) = true
  · rw [keepFiles, if_pos (hlen.mpr hall), if_pos hall]
  · rw [keepFiles, if_neg (mt hlen.mp hall), if_neg hall]
    rfl

theorem dropBelow_fst (s : IndexState α) (p : Path) (again : Bool) :
    (s.dropBelow p again).1 =
      ((if again then s.requeue fun q => q.startsWith p else s).keepFiles
        (fun q => !q.startsWith p) (some p)).1 := rfl

/-- What the sections that change files or marks leave alone. -/
structure SameSettings (s t : IndexState α) : Prop where
  lifecycle : t.lifecycle = s.lifecycle
  globs : t.globs = s.globs
  filter : t.filter = s.filter
  subscribers : t.subscribers = s.subscribers

theorem SameSettings.isDisposed {t : IndexState α} (h : SameSettings s t) : t.isDisposed = s.isDisposed := by
  rw [IndexState.isDisposed, h.lifecycle, IndexState.isDisposed]

theorem SameSettings.trans {t u : IndexState α} (hst : SameSettings s t) (htu : SameSettings t u) :
    SameSettings s u where
  lifecycle := htu.lifecycle.trans hst.lifecycle
  globs := htu.globs.trans hst.globs
  filter := htu.filter.trans hst.filter
  subscribers := htu.subscribers.trans hst.subscribers

theorem commit_sameSettings (same : α → α → Bool) (s : IndexState α) (p : Path) (items : List α) :
    SameSettings s (s.commit same p items).1 := by
  rw [commit_fst]
  split <;> exact ⟨rfl, rfl, rfl, rfl⟩

theorem keepFiles_sameSettings (s : IndexState α) (test : Path → Bool) (path : Option Path) :
    SameSettings s (s.keepFiles test path).1 := by
  rw [keepFiles_fst]
  split <;> exact ⟨rfl, rfl, rfl, rfl⟩

theorem dropBelow_sameSettings (s : IndexState α) (p : Path) (again : Bool) :
    SameSettings s (s.dropBelow p again).1 := by
  have hkeep := keepFiles_sameSettings (if again then s.requeue fun q => q.startsWith p else s)
    (fun q => !q.startsWith p) (some p)
  rw [dropBelow_fst]
  cases again <;> exact ⟨hkeep.lifecycle, hkeep.globs, hkeep.filter, hkeep.subscribers⟩

/-- The tracked paths, as they are spelled. -/
def keys (s : IndexState α) : List Path :=
  s.files.map (·.1)

theorem keys_enterFile (files : List (Path × List α)) (p : Path) (items : List α) :
    (enterFile files p items).map (·.1) =
      if (lookup files p).isSome then files.map (·.1) else files.map (·.1) ++ [p] := by
  rw [enterFile, isSome_lookup_iff]
  split
  next =>
    rw [List.map_map]
    apply List.map_congr_left
    intro entry _
    show (if entry.1.same p then (entry.1, items) else entry).1 = entry.1
    split <;> rfl
  next => rw [List.map_append, List.map_singleton]

theorem mem_enterFile {files : List (Path × List α)} {items : List α} {entry : Path × List α}
    (h : entry ∈ enterFile files p items) : entry ∈ files ∨ entry.1.same p = true ∧ entry.2 = items := by
  rw [enterFile] at h
  split at h
  · obtain ⟨old, hold, rfl⟩ := List.mem_map.mp h
    split
    next hsame => exact Or.inr ⟨hsame, rfl⟩
    next => exact Or.inl hold
  · rcases List.mem_append.mp h with hold | hnew
    · exact Or.inl hold
    · rw [List.mem_singleton.mp hnew]
      exact Or.inr ⟨Path.same_refl p, rfl⟩

theorem lookup_enterFile (files : List (Path × List α)) (p q : Path) (items : List α) :
    lookup (enterFile files p items) q = if p.same q then some items else lookup files q :=
  lookup_entered files p q items

theorem items?_commit (same : α → α → Bool) (s : IndexState α) (p q : Path) (items : List α) :
    (s.commit same p items).1.items? q =
      if s.settles same p items = false ∧ p.same q = true then some items else s.items? q := by
  rw [commit_fst]
  cases s.settles same p items with
  | true => simp
  | false =>
    show lookup (enterFile s.files p items) q = _
    rw [lookup_enterFile]
    by_cases hpq : p.same q = true <;> simp [hpq, items?_eq_lookup]

theorem items?_keepFiles {test : Path → Bool}
    (htest : ∀ {p q : Path}, p.same q = true → test p = test q) (path : Option Path) (q : Path) :
    (s.keepFiles test path).1.items? q = if test q then s.items? q else none := by
  have hfilter := lookup_filter htest s.files q
  rw [keepFiles_fst]
  split
  next hall =>
    rw [List.filter_eq_self.mpr (List.all_eq_true.mp hall)] at hfilter
    exact hfilter
  next => exact hfilter

theorem items?_dropBelow (s : IndexState α) (p : Path) (again : Bool) (q : Path) :
    (s.dropBelow p again).1.items? q = if q.startsWith p then none else s.items? q := by
  rw [dropBelow_fst, items?_keepFiles (fun h => by rw [Path.startsWith_congr h])]
  cases q.startsWith p <;> cases again <;> rfl

theorem items?_keepListed (s : IndexState α) (listed : List Path) (q : Path) :
    (s.keepListed listed).1.items? q = if listed.any fun p => p.same q then s.items? q else none := by
  refine items?_keepFiles (fun {a b} h => ?_) none q
  congr 1
  funext p
  rw [Path.same_comm, Path.same_congr h, Path.same_comm]

@[simp] theorem commit_scanning (same : α → α → Bool) (s : IndexState α) (p : Path) (items : List α) :
    (s.commit same p items).1.scanning = s.scanning := by
  rw [commit_fst]
  split <;> rfl

theorem scanning?_commit (same : α → α → Bool) (s : IndexState α) (p q : Path) (items : List α) :
    (s.commit same p items).1.scanning? q = s.scanning? q := by
  rw [scanning?_eq_lookup, commit_scanning, scanning?_eq_lookup]

@[simp] theorem keepFiles_scanning (s : IndexState α) (test : Path → Bool) (path : Option Path) :
    (s.keepFiles test path).1.scanning = s.scanning := by
  rw [keepFiles_fst]
  split <;> rfl

theorem scanning?_requeue {test : Path → Bool}
    (htest : ∀ {p q : Path}, p.same q = true → test p = test q) (s : IndexState α) (q : Path) :
    (s.requeue test).scanning? q = (s.scanning? q).map fun queued => test q || queued := by
  have hmap : (s.requeue test).scanning =
      s.scanning.map fun entry => (entry.1, test entry.1 || entry.2) := by
    apply List.map_congr_left
    intro entry _
    cases ht : test entry.1 <;> simp
  rw [scanning?_eq_lookup, hmap, lookup_map (f := fun key queued => test key || queued)]
  · rfl
  · intro a b hab
    rw [htest hab]

theorem scanning?_dropBelow (s : IndexState α) (p : Path) (again : Bool) (q : Path) :
    (s.dropBelow p again).1.scanning? q =
      (s.scanning? q).map fun queued => (again && q.startsWith p) || queued := by
  have hscanning : (s.dropBelow p again).1.scanning =
      (if again then s.requeue fun q => q.startsWith p else s).scanning := by
    rw [dropBelow_fst, keepFiles_scanning]
  rw [scanning?_eq_lookup, hscanning, ← scanning?_eq_lookup]
  cases again with
  | false => simp
  | true => simpa using scanning?_requeue (fun h => Path.startsWith_congr h p) s q

theorem lookup_begun (marks : List (Path × Bool)) (p q : Path) :
    lookup (marks ++ [(p, false)]) q = (lookup marks q).or (if p.same q then some false else none) := by
  rw [lookup_append, lookup_cons]
  rfl

theorem lookup_replayed (marks : List (Path × Bool)) (p q : Path) :
    lookup (marks.map fun entry => if entry.1.same p then (entry.1, false) else entry) q =
      (lookup marks q).map fun queued => !q.same p && queued := by
  have hmap : (marks.map fun entry => if entry.1.same p then (entry.1, false) else entry) =
      marks.map fun entry => (entry.1, !entry.1.same p && entry.2) := by
    apply List.map_congr_left
    intro entry _
    cases hp : entry.1.same p <;> simp
  rw [hmap, lookup_map (f := fun key queued => !key.same p && queued)]
  intro a b hab
  rw [Path.same_congr hab]

end StepLink.IndexState

/-! ### What a section does to the files -/

namespace StepLink

open IndexState

variable {α : Type} {setup : IndexSetup α} {s t : IndexState α}

/-- From the first state to the second, the files have stayed, or items were entered, or files were dropped.
-/
inductive Revision (setup : IndexSetup α) (s t : IndexState α) : Prop where
  | kept (files : t.files = s.files) (version : t.version = s.version)
    (flat : t.flat = s.flat ∨ s.flat = none ∧ t.flat = some t.allItems)
  | entered (p : Path) (text : Text) (fresh : s.settles setup.same p (setup.parse p text) = false)
    (files : t.files = enterFile s.files p (setup.parse p text)) (version : t.version = s.version + 1)
    (flat : t.flat = none)
  | dropped (test : Path → Bool) (some : ¬(s.files.all fun entry => test entry.1) = true)
    (files : t.files = s.files.filter fun entry => test entry.1) (version : t.version = s.version + 1)
    (flat : t.flat = none)

theorem Revision.keepFiles (setup : IndexSetup α) (s : IndexState α) (test : Path → Bool)
    (path : Option Path) : Revision setup s (s.keepFiles test path).1 := by
  rw [keepFiles_fst]
  split
  next => exact .kept rfl rfl (.inl rfl)
  next hall => exact .dropped test hall rfl rfl rfl

/-- Of the sections only commits, removals and disposals change the files. -/
theorem Section.revision (h : Section setup s t) : Revision setup s t := by
  cases h with
  | idle => exact .kept rfl rfl (.inl rfl)
  | enter p =>
    rw [enterScan]
    split
    · exact .kept rfl rfl (.inl rfl)
    · split <;> exact .kept rfl rfl (.inl rfl)
  | commit p text =>
    rw [commit_fst]
    split
    next => exact .kept rfl rfl (.inl rfl)
    next hset => exact .entered p text (Bool.eq_false_iff.mpr hset) rfl rfl rfl
  | drop p again =>
    rw [dropBelow_fst]
    cases again with
    | false => exact .keepFiles setup s _ _
    | true =>
      -- the marks are set before the files are looked at, which no revision sees
      have hkeep := Revision.keepFiles setup (s.requeue fun q => q.startsWith p) (fun q => !q.startsWith p)
        (some p)
      cases hkeep with
      | kept files version flat => exact .kept files version flat
      | entered q text fresh files version flat => exact .entered q text fresh files version flat
      | dropped test some files version flat => exact .dropped test some files version flat
  | keep listed => exact .keepFiles setup s _ _
  | decide p replays =>
    rw [decideReplay]
    split <;> exact .kept rfl rfl (.inl rfl)
  | filter =>
    rw [compiledFilter]
    split <;> exact .kept rfl rfl (.inl rfl)
  | request =>
    rw [requestRescan]
    split
    · exact .kept rfl rfl (.inl rfl)
    · split <;> exact .kept rfl rfl (.inl rfl)
  | finish =>
    rw [finishPass]
    split <;> exact .kept rfl rfl (.inl rfl)
  | configure globs =>
    rw [setGlobs]
    split <;> exact .kept rfl rfl (.inl rfl)
  | activate =>
    rw [IndexState.activate]
    split <;> exact .kept rfl rfl (.inl rfl)
  | dispose =>
    rw [IndexState.dispose]
    split
    next => exact .kept rfl rfl (.inl rfl)
    next =>
      split
      next => exact .kept rfl rfl (.inl rfl)
      next hfiles =>
        refine .dropped (fun _ => false) ?_ ?_ rfl rfl
        · simpa [List.all_eq_true, List.eq_nil_iff_forall_not_mem] using hfiles
        · exact (List.filter_false _).symm
  | snapshot =>
    rw [IndexState.snapshot]
    split
    next => exact .kept rfl rfl (.inl rfl)
    next hnone => exact .kept rfl rfl (.inr ⟨hnone, rfl⟩)
  | subscribe => exact .kept rfl rfl (.inl rfl)
  | unsubscribe id => exact .kept rfl rfl (.inl rfl)

/-- A filter is kept only until the globs are replaced. -/
theorem Section.filter_globs (h : Section setup s t) :
    t.filter = s.filter ∧ t.globs = s.globs ∨ t.filter = none ∨
      t.filter = some (CorpusFilter.ofGlobs setup.root t.globs) := by
  cases h with
  | idle => exact .inl ⟨rfl, rfl⟩
  | enter p =>
    rw [enterScan]
    split
    · exact .inl ⟨rfl, rfl⟩
    · split <;> exact .inl ⟨rfl, rfl⟩
  | commit p text =>
    have hkeeps := commit_sameSettings setup.same s p (setup.parse p text)
    exact .inl ⟨hkeeps.filter, hkeeps.globs⟩
  | drop p again =>
    have hkeeps := dropBelow_sameSettings s p again
    exact .inl ⟨hkeeps.filter, hkeeps.globs⟩
  | keep listed =>
    have hkeeps := keepFiles_sameSettings s (fun q => listed.any fun p => p.same q) none
    exact .inl ⟨hkeeps.filter, hkeeps.globs⟩
  | decide p replays =>
    rw [decideReplay]
    split <;> exact .inl ⟨rfl, rfl⟩
  | filter =>
    rw [compiledFilter]
    split
    · exact .inl ⟨rfl, rfl⟩
    · exact .inr (.inr rfl)
  | request =>
    rw [requestRescan]
    split
    · exact .inl ⟨rfl, rfl⟩
    · split <;> exact .inl ⟨rfl, rfl⟩
  | finish =>
    rw [finishPass]
    split <;> exact .inl ⟨rfl, rfl⟩
  | configure globs =>
    rw [setGlobs]
    split
    · exact .inl ⟨rfl, rfl⟩
    · exact .inr (.inl rfl)
  | activate =>
    rw [IndexState.activate]
    split <;> exact .inl ⟨rfl, rfl⟩
  | dispose =>
    rw [IndexState.dispose]
    split
    · exact .inl ⟨rfl, rfl⟩
    · split <;> exact .inl ⟨rfl, rfl⟩
  | snapshot =>
    rw [IndexState.snapshot]
    split <;> exact .inl ⟨rfl, rfl⟩
  | subscribe => exact .inl ⟨rfl, rfl⟩
  | unsubscribe id => exact .inl ⟨rfl, rfl⟩

end StepLink
