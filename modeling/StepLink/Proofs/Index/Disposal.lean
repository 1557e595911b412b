import Mathlib.Data.Nat.Init
import StepLink.Proofs.Index.Moment

/-! Disposal. Scans, full scans and rescans that are in flight when the index is disposed of go on, and new ones may
begin, but none of their sections puts anything back before the index is activated again. -/

namespace StepLink

open IndexState

variable {α : Type} {setup : IndexSetup α} {s t : IndexState α}

/-- The index is disposed of and holds neither files nor marks; a view that it keeps is empty. -/
structure IndexState.IsInert (s : IndexState α) : Prop where
  disposed : s.isDisposed = true
  files : s.files = []
  view : ∀ view, s.flat = some view → view = []
  scanning : s.scanning = []

namespace IndexState.IsInert

theorem snapshot_snd (h : s.IsInert) : s.snapshot.2 = [] := by
  rw [IndexState.snapshot]
  split
  next view hview => exact h.view view hview
  next => rw [allItems, h.files, List.flatMap_nil]

/-- Disposing of a live index leaves nothing in it. -/
theorem dispose (hview : ∀ view, s.flat = some view → view = s.allItems) (hlive : s.isDisposed = false) :
    s.dispose.IsInert := by
  have hcleared : ∀ other : IndexState α, other.files = [] → (∀ view, other.flat = some view → view = []) →
      IsInert { other with
        lifecycle := .disposed, scanning := [], rescanPending := false, subscribers := [] } :=
    fun other hfiles hother => ⟨rfl, hfiles, hother, rfl⟩
  rw [IndexState.dispose, if_neg (Bool.eq_false_iff.mp hlive)]
  refine hcleared _ ?_ ?_
  all_goals split
  next hfiles => exact List.isEmpty_iff.mp hfiles
  next => rfl
  next hfiles =>
    intro view hflat
    rw [hview view hflat, allItems, List.isEmpty_iff.mp hfiles, List.flatMap_nil]
  next =>
    intro view hflat
    cases hflat

end IndexState.IsInert

/-- Only the start of a scan adds a mark, and no scan starts on an index that is disposed of. -/
theorem Section.scanning_nil (h : Section setup s t) (hdisposed : s.isDisposed = true) (hs : s.scanning = []) :
    t.scanning = [] := by
  cases h with
  | idle => exact hs
  | enter p => rwa [enterScan, if_pos hdisposed]
  | commit p text => rwa [commit_scanning]
  | drop p again =>
    rw [dropBelow_fst, keepFiles_scanning]
    cases again with
    | false => exact hs
    | true =>
      show s.scanning.map _ = []
      rw [hs, List.map_nil]
  | keep listed =>
    rw [keepListed, keepFiles_scanning]
    exact hs
  | decide p replays =>
    rw [decideReplay]
    split
    · show s.scanning.map _ = []
      rw [hs, List.map_nil]
    · show s.scanning.filter _ = []
      rw [hs, List.filter_nil]
  | filter =>
    rw [compiledFilter]
    split <;> exact hs
  | request => rwa [requestRescan, if_pos hdisposed]
  | finish =>
    rw [finishPass]
    split <;> exact hs
  | configure globs =>
    rw [setGlobs]
    split <;> exact hs
  | activate =>
    rw [IndexState.activate]
    split <;> exact hs
  | dispose => rwa [IndexState.dispose, if_pos hdisposed]
  | snapshot =>
    rw [IndexState.snapshot]
    split <;> exact hs
  | subscribe => exact hs
  | unsubscribe id => exact hs

/-- A section that does not activate the index leaves it as empty as it was. -/
theorem Section.isInert (h : Section setup s t) (hs : s.IsInert) (ht : t.isDisposed = true) :
    t.IsInert ∧ t.version = s.version := by
  have hscanning := h.scanning_nil hs.disposed hs.scanning
  cases h.revision with
  | kept files version flat =>
    have hfiles : t.files = [] := files.trans hs.files
    refine ⟨⟨ht, hfiles, fun view hview => ?_, hscanning⟩, version⟩
    rcases flat with hflat | ⟨-, hflat⟩
    · exact hs.view view (hflat.symm.trans hview)
    · obtain rfl := Option.some.inj (hflat.symm.trans hview)
      rw [allItems, hfiles, List.flatMap_nil]
  | entered p text fresh files version flat =>
    rw [settles, hs.disposed] at fresh
    cases fresh
  | dropped test some files version flat =>
    rw [hs.files] at some
    exact absurd rfl some

/-- A view that is kept is that of the current files, whatever the index is of. -/
theorem Reachable.view_eq (h : Reachable setup s) : ∀ view, s.flat = some view → view = s.allItems :=
  h.induct (fun _ view hview => by cases hview) fun hsection hs => hsection.revision.view hs

/-- Only a call that activates the index changes its lifecycle. -/
theorem Call.step_lifecycle (setup : IndexSetup α) (world : World) (pick : Nat) (s : IndexState α) {c : Call}
    (h : c ≠ .activating) : (c.step setup world pick s).1.lifecycle = s.lifecycle := by
  cases hsteers : c.steers with
  | false => exact (c.step_course setup world pick s hsteers).lifecycle
  | true =>
    cases c with
    | requesting =>
      have hrequest : s.requestRescan.1.lifecycle = s.lifecycle := by
        rw [requestRescan]
        split
        · rfl
        · split <;> rfl
      simp only [Call.step]
      split <;> simp_all
    | closing =>
      have hfinish : s.finishPass.1.lifecycle = s.lifecycle := by
        rw [finishPass]
        split <;> rfl
      simp only [Call.step]
      split <;> simp_all
    | configuring globs =>
      have hset : (s.setGlobs globs).1.lifecycle = s.lifecycle := by
        rw [setGlobs]
        split <;> rfl
      simp only [Call.step]
      split <;> simp_all
    | activating => exact absurd rfl h
    | _ => cases hsteers

namespace Run

variable {r : Run α} {n t u : Nat}

/-- At the moment a call activates the index. -/
def Activates (r : Run α) (t : Nat) : Prop :=
  ∃ n world, r.Steps n t .activating world

theorem isDisposed_dispose (s : IndexState α) : s.dispose.isDisposed = true := by
  rw [dispose]
  split
  next h => exact h
  next => rfl

/-- What can happen to the lifecycle at one moment. -/
theorem lifecycle_succ (r : Run α) (t : Nat) :
    (r.index (t + 1)).isDisposed = (r.index t).isDisposed ∨ r.index (t + 1) = (r.index t).dispose ∨
      r.Activates t ∧ (r.index (t + 1)).isDisposed = false := by
  cases r.happens t with
  | begins request quiet index calls => exact .inl (by rw [index])
  | steps n c world pick move call index calls =>
    by_cases hactivating : c = .activating
    · subst hactivating
      refine .inr (.inr ⟨⟨n, world, call, pick, move⟩, ?_⟩)
      have hactive : (r.index t).activate.1.lifecycle = .active := by
        rw [activate]
        split
        next h => exact h
        next => rfl
      rw [index, isDisposed, Call.step]
      split <;> simp_all
    · refine .inl ?_
      rw [index, isDisposed, Call.step_lifecycle r.setup world pick _ hactivating, isDisposed]
  | disposes move quiet index calls => exact .inr (.inl index)
  | rests quiet course scanning calls => exact .inl course.isDisposed

theorem isDisposed_succ (h : (r.index t).isDisposed = true) (hquiet : ¬r.Activates t) :
    (r.index (t + 1)).isDisposed = true := by
  rcases r.lifecycle_succ t with hsame | hdispose | ⟨hactivates, -⟩
  · exact hsame.trans h
  · rw [hdispose]
    exact isDisposed_dispose _
  · exact absurd hactivates hquiet

/-- At every moment at which an index is disposed of there is nothing in it. -/
theorem isInert_of_isDisposed {globs : Selection} (hstart : r.start = .new globs)
    (h : (r.index t).isDisposed = true) : (r.index t).IsInert := by
  induction t with
  | zero =>
    have hnew : (r.index 0).isDisposed = false := congrArg isDisposed hstart
    cases hnew.symm.trans h
  | succ t ih =>
    cases hdisposed : (r.index t).isDisposed with
    | true => exact ((r.section_succ t).isInert (ih hdisposed) h).1
    | false =>
      rcases r.lifecycle_succ t with hsame | hdispose | ⟨-, hlive⟩
      · cases (h.symm.trans hsame).trans hdisposed
      · rw [hdispose]
        have hreachable : Reachable r.setup (r.index t) := ⟨globs, r.moves, t, by rw [index, traffic, hstart]; rfl⟩
        exact .dispose hreachable.view_eq hdisposed
      · cases h.symm.trans hlive

/-- Between a moment at which an index is disposed of and the next one at which it is activated, whatever calls go on
and whatever they read, no file is tracked, the view of all items is empty, the version stays the same, and no path
is marked as being scanned. -/
theorem inert_until_activated (setup : IndexSetup α) (globs : Selection) (moves : Nat → Move) (t u : Nat) :
    let r : Run α := ⟨setup, .new globs, moves⟩
    r.moves t = .dispose → t < u → (∀ v, t < v → v < u → ¬r.Activates v) →
      (r.index u).files = [] ∧ (r.index u).snapshot.2 = [] ∧
        (r.index u).version = (r.index (t + 1)).version ∧ (r.index u).scanning = [] := by
  intro r hmove htu hquiet
  have hstays : (r.index u).isDisposed = true ∧ (r.index u).version = (r.index (t + 1)).version := by
    induction u, htu using Nat.le_induction with
    | base =>
      have hdispose : r.index (t + 1) = (r.index t).dispose := by rw [index, traffic_succ, hmove]; rfl
      rw [hdispose]
      exact ⟨isDisposed_dispose _, rfl⟩
    | succ u hu ih =>
      obtain ⟨hdisposed, hversion⟩ := ih fun v htv hvu => hquiet v htv (Nat.lt_succ_of_lt hvu)
      have hdisposed' := isDisposed_succ hdisposed (hquiet u hu (Nat.lt_succ_self u))
      have hinert : (r.index u).IsInert := isInert_of_isDisposed rfl hdisposed
      exact ⟨hdisposed', ((r.section_succ u).isInert hinert hdisposed').2.trans hversion⟩
  have hinert : (r.index u).IsInert := isInert_of_isDisposed rfl hstays.1
  exact ⟨hinert.files, hinert.snapshot_snd, hstays.2, hinert.scanning⟩

/-- A file is being read for the second time, and a rescan has begun to scan it as well, when the index is disposed of.
Then other globs are set, and the file is to be scanned and removed. -/
def disposedMidRescan : Run Occurrence where
  setup := (UsageIndex.new ⟨"/w".toList⟩ ⟨["*.feature".toList], []⟩ 1 5).setup
  start := .new ⟨["*.feature".toList], []⟩
  moves
    | 0 => .start (.scanFile ⟨"/w/a.feature".toList⟩)
    | 4 => .start .rescan
    | 11 => .start (.scanFile ⟨"/w/a.feature".toList⟩)
    | 15 => .dispose
    | 16 => .start (.setGlobs ⟨["a.*".toList], []⟩)
    | 17 => .start (.scanFile ⟨"/w/a.feature".toList⟩)
    | 18 => .start (.removeFile ⟨"/w/a.feature".toList⟩)
    | t => .advance (if t < 4 then 0 else if t < 11 then 1 else if t < 13 then 2 else if t < 15 then 0 else t % 6)
        featureWorld 0

/-- Both calls that were in flight and those that came later run to their ends, and the index stays at the version that
disposing of it left behind. -/
theorem inert_until_activated_midRescan :
    let r := disposedMidRescan
    r.moves 15 = .dispose ∧ (r.index 15).files.length = 1 ∧ (r.index 15).version = 1 ∧
      (∀ v, 15 < v → v < 37 → ¬r.Activates v) ∧ ((r.traffic 37).calls.all Call.isEnded) = true ∧
      (r.index 37).files = [] ∧ (r.index 37).snapshot.2 = [] ∧ (r.index 37).version = 2 ∧
      (r.index 37).scanning = [] := by
  intro r
  have hcalls : ∀ v < 37, ∀ c ∈ (r.traffic v).calls, c ≠ .activating := by decide +kernel
  have hquiet : ∀ v, 15 < v → v < 37 → ¬r.Activates v := by
    rintro v - hv ⟨n, world, hcall, -⟩
    exact hcalls v hv _ (List.mem_of_getElem? hcall) rfl
  obtain ⟨hfiles, hview, hversion, hscanning⟩ :=
    inert_until_activated r.setup _ r.moves 15 37 rfl (by decide) hquiet
  exact ⟨rfl, by decide +kernel, by decide +kernel, hquiet, by decide +kernel, hfiles, hview,
    hversion.trans (by decide +kernel), hscanning⟩

end Run

end StepLink
