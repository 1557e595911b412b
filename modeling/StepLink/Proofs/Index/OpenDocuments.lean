import StepLink.Proofs.Index.Coalescing
import StepLink.Proofs.Index.Upkeep

/-! Open documents in full scans. A full scan takes its files from a walk of the disk and their texts from the
buffers where they are open, so after one of them an open document has the items of its buffer if the walk
comes across its file, and is not tracked otherwise. -/

namespace StepLink

open IndexState Disk

variable {α : Type} {setup : IndexSetup α} {equal : α → α → Prop} {pathOf : α → Path} {world : World}
  {s t u : IndexState α} {p q : Path} {d : Disk} {filter : CorpusFilter}

/-- The request leads to a full scan: it brings the index into use, or it is a rescan or a change of the globs of
one that has not been disposed of. -/
inductive IndexRequest.ScansAll (s : IndexState α) : IndexRequest → Prop where
  | activate (inactive : s.lifecycle ≠ .active) : ScansAll s .activate
  | rescan (live : s.isDisposed = false) : ScansAll s .rescan
  | setGlobs (globs : Selection) (live : s.isDisposed = false) (changes : s.globs ≠ globs) :
    ScansAll s (.setGlobs globs)

/-- The walk comes across the file of the path: it is on the disk below the root, the globs select it, and no
directory on the way is pruned. How the path is spelled does not matter. -/
def Disk.Finds (d : Disk) (root : Path) (filter : CorpusFilter) (p : Path) : Prop :=
  ∃ names below, names? root = some names ∧ (d.file? (names ++ below)).isSome = true ∧
    (pathBelow root below).same p = true ∧ filter.accepts (pathBelow root below) = true ∧
    Unpruned root filter below

theorem Disk.list_eq_error (hroot : d.holds p = false) (filter : CorpusFilter) :
    ∃ e, d.list p filter = .error e := by
  rw [holds] at hroot
  rw [list]
  split
  next => exact ⟨_, rfl⟩
  next names hnames =>
    rw [hnames, Bool.or_eq_false_iff] at hroot
    rw [if_neg (Bool.eq_false_iff.mp hroot.2), if_neg (Bool.eq_false_iff.mp hroot.1)]
    exact ⟨_, rfl⟩

theorem Disk.finds_iff (hdisk : d.IsTree) (hroot : d.holds p = true) (filter : CorpusFilter) :
    ∃ listed, d.list p filter = .ok listed ∧
      ∀ q, d.Finds p filter q ↔ ∃ file ∈ listed, file.same q = true := by
  cases hnames : names? p with
  | none =>
    rw [holds, hnames] at hroot
    cases hroot
  | some names =>
    obtain ⟨listed, hlist, hlisted⟩ := mem_list_iff hdisk hnames hroot filter
    refine ⟨listed, hlist, fun q => ?_⟩
    constructor
    · rintro ⟨names', below, hnames', hfile, hsame, haccepts, hunpruned⟩
      obtain rfl := Option.some.inj (hnames.symm.trans hnames')
      exact ⟨_, (hlisted _).mpr ⟨below, ⟨hfile, rfl⟩, haccepts, hunpruned⟩, hsame⟩
    · rintro ⟨file, hfile, hsame⟩
      obtain ⟨below, ⟨hthere, rfl⟩, haccepts, hunpruned⟩ := (hlisted file).mp hfile
      exact ⟨names, below, hnames, hthere, hsame, haccepts, hunpruned⟩

/-- What a full scan by some globs leaves: the listed files with what a read of them gives, or the files that there
were if nothing can be listed. -/
structure ScannedBy (setup : IndexSetup α) (equal : α → α → Prop) (world : World) (globs : Selection)
    (s t : IndexState α) : Prop where
  uses : t.globs = globs
  files : match world.list setup.root (.ofGlobs setup.root globs) with
    | .error _ => t.files = s.files
    | .ok listed => (∀ p ∈ listed, t.Shows setup equal p (world.read p)) ∧
      ∀ q, (∀ p ∈ listed, p.same q = false) → t.items? q = none

/-- A rescan after whose only pass the index is in the given state. -/
def IndexState.withoutRescan (s : IndexState α) : IndexState α :=
  { s with rescanPending := false, rescanRunning := false }

/-- A call whose next step does not depend on the pick comes to the same ends after that step. -/
theorem Call.Ends.step_iff {c e : Call} (hgoes : c.isEnded = false)
    (hstep : ∀ pick, ∃ seen, c.step setup world pick s = (u, e, seen)) :
    c.Ends setup world s t ↔ e.Ends setup world u t := by
  constructor
  · intro hends
    cases hends with
    | ended => cases hgoes
    | step pick goes rest =>
      obtain ⟨seen, heq⟩ := hstep pick
      rwa [heq] at rest
  · intro hends
    obtain ⟨seen, heq⟩ := hstep 0
    refine .step 0 hgoes ?_
    rwa [heq]

theorem Call.Ends.closing_iff (hpending : s.rescanPending = false) :
    Call.Ends setup world s .closing t ↔ t = s.withoutRescan := by
  have hfinish : s.finishPass = (s.withoutRescan, false) := by
    rw [finishPass, hpending]
    rfl
  have hstep : ∀ pick, ∃ seen, Call.closing.step setup world pick s = (s.withoutRescan, .ended false, seen) :=
    fun pick => ⟨[], by simp only [Call.step, hfinish]⟩
  rw [step_iff rfl hstep]
  constructor
  · intro hends
    cases hends with
    | ended => rfl
    | step pick goes rest => cases goes
  · rintro rfl
    exact .ended _ false

section

variable (law : Lawful setup equal pathOf) (hsound : Sound setup pathOf s) (hlive : s.isDisposed = false)
  (hidle : s.scanning = []) (hdisk : world.disk.IsTree)

include law hsound hlive hidle hdisk

/-- Whichever scans step, the pass of a rescan ends as a full scan does. -/
theorem Rebuilding.of_ends {pass : Pass} (hpass : Rebuilding setup world pathOf s t pass)
    (hpending : t.rescanPending = false) (hends : Call.Ends setup world t (.passing pass) u) :
    ∃ v, Rebuilding setup world pathOf s v .ended ∧ u = v.withoutRescan := by
  generalize hc : Call.passing pass = c at hends
  induction hends generalizing pass with
  | ended t dropped => cases hc
  | @step t u c pick goes rest ih =>
    subst hc
    have hnext := (hpass.step law hsound hlive hidle hdisk pick).1
    have hcourse := SameCourse.pass setup world pick t pass
    have hpending' := hcourse.pending.trans hpending
    simp only [Call.step] at rest ih
    generalize pass.step setup world pick t = x at hnext hpending' rest ih
    obtain ⟨v, next, seen⟩ := x
    cases next with
    | ended => exact ⟨v, hnext, (Call.Ends.closing_iff hpending').mp rest⟩
    | _ => exact ih hnext hpending' rfl

/-- The pass of a rescan comes to its end. -/
theorem Rebuilding.ends {pass : Pass} (hpass : Rebuilding setup world pathOf s t pass) (hne : pass ≠ .ended)
    (hpending : t.rescanPending = false) : ∃ u, Call.Ends setup world t (.passing pass) u := by
  generalize heffort : Pass.effort s.subscribers.length (corpusSize setup world s) pass = left
  induction left using Nat.strongRecOn generalizing t pass with
  | ind left ih =>
    subst heffort
    obtain ⟨hnext, -, hless⟩ := hpass.step law hsound hlive hidle hdisk (Call.pass pass).nextPick
    have hless := hless pass.heeds_nextPick hne
    have hcourse := SameCourse.pass setup world (Call.pass pass).nextPick t pass
    have hpending' := hcourse.pending.trans hpending
    suffices hrest : ∃ u, Call.Ends setup world
        ((Call.passing pass).step setup world (Call.pass pass).nextPick t).1
        ((Call.passing pass).step setup world (Call.pass pass).nextPick t).2.1 u by
      obtain ⟨u, hrest⟩ := hrest
      exact ⟨u, .step _ rfl hrest⟩
    simp only [Call.step]
    generalize pass.step setup world (Call.pass pass).nextPick t = x at hnext hpending' hless
    obtain ⟨v, next, seen⟩ := x
    cases next with
    | ended => exact ⟨_, (Call.Ends.closing_iff hpending').mpr rfl⟩
    | _ => exact ih _ hless hnext (fun h => by cases h) hpending' rfl

omit hlive hidle hdisk in
theorem Rebuilding.scannedBy (h : Rebuilding setup world pathOf s t .ended) :
    ScannedBy setup equal world s.globs s t.withoutRescan := by
  rcases h with ⟨e, hcorpus, rfl⟩ | ⟨listed, hcorpus, hnone, halfway⟩
  · rw [corpusOf] at hcorpus
    refine ⟨rfl, ?_⟩
    rw [hcorpus]
    rfl
  · have hrebuilt := halfway.rebuilt law hsound hnone
    rw [corpusOf] at hcorpus
    refine ⟨halfway.settings.globs, ?_⟩
    rw [hcorpus]
    exact ⟨fun p hp => (hrebuilt.read p hp).congr rfl, hrebuilt.unlisted⟩

/-- A request for a rescan that finds none running scans the whole workspace once. -/
theorem requesting_scans (hrest : s.rescanRunning = false) (hpending : s.rescanPending = false) :
    (∃ t, Call.Ends setup world s .requesting t) ∧
      ∀ t, Call.Ends setup world s .requesting t → ScannedBy setup equal world s.globs s t := by
  let taken := { s with rescanRunning := true }
  have hrequest : s.requestRescan = (taken, true) := by
    rw [requestRescan, hlive, hrest]
    rfl
  have hiff : ∀ t, Call.Ends setup world s .requesting t ↔ Call.Ends setup world taken (.passing .starting) t :=
    fun t => Call.Ends.step_iff rfl fun pick => ⟨[], by simp only [Call.step, hrequest]⟩
  have hsound' : Sound setup pathOf taken := by
    have hnext := hsound.of_section law .request
    rwa [hrequest] at hnext
  have hbegins : Rebuilding setup world pathOf taken taken .starting := rfl
  constructor
  · obtain ⟨t, ht⟩ := hbegins.ends law hsound' hlive hidle hdisk (fun h => by cases h) hpending
    exact ⟨t, (hiff t).mpr ht⟩
  · intro t hends
    obtain ⟨u, hended, rfl⟩ := hbegins.of_ends law hsound' hlive hidle hdisk hpending ((hiff t).mp hends)
    have hscanned := hended.scannedBy law hsound'
    exact ⟨hscanned.uses, hscanned.files⟩

end

theorem IndexState.Shows.respell (hindex : StepIndex setup equal) (h : p.same q = true) {text : Text}
    (hshows : s.Shows setup equal p (.ok text)) : s.Shows setup equal q (.ok text) := by
  obtain ⟨items, hitems, hequal⟩ := hshows
  refine ⟨items, (items?_congr h s).symm.trans hitems, ?_⟩
  exact forall₂_trans hindex.equivalence hequal (hindex.parse_respells h text)

theorem World.read_of_open {document : Buffer} (hopen : world.documents.get? p = some document)
    (h : q.same p = true) : world.read q = .ok document.text := by
  have hget : world.documents.get? q = some document := (lookup_congr h _).trans hopen
  rw [World.read, hget]

/-- After a full scan an open document has the items of its buffer if the walk comes across its file. -/
theorem ScannedBy.open_documents (hindex : StepIndex setup equal) (hdisk : world.disk.IsTree) {globs : Selection}
    (h : ScannedBy setup equal world globs s t) (hroot : world.disk.holds setup.root = true) {document : Buffer}
    (hopen : world.documents.get? p = some document) :
    let found := world.disk.Finds setup.root (.ofGlobs setup.root globs) p
    (found → t.Shows setup equal p (.ok document.text)) ∧ (¬found → t.items? p = none) := by
  intro found
  obtain ⟨listed, hlist, hfinds⟩ := finds_iff hdisk hroot (.ofGlobs setup.root globs)
  have hfiles := h.files
  rw [World.list, hlist] at hfiles
  refine ⟨fun hfound => ?_, fun hmissed => hfiles.2 p fun file hfile => ?_⟩
  · obtain ⟨file, hfile, hsame⟩ := (hfinds p).mp hfound
    have hshows := hfiles.1 file hfile
    rw [World.read_of_open hopen hsame] at hshows
    exact hshows.respell hindex hsame
  · exact Bool.eq_false_iff.mpr fun hsame => hmissed ((hfinds p).mpr ⟨file, hfile, hsame⟩)

theorem ScannedBy.files_eq {globs : Selection} (h : ScannedBy setup equal world globs s t)
    (hroot : world.disk.holds setup.root = false) : t.files = s.files := by
  obtain ⟨e, herror⟩ := list_eq_error hroot (.ofGlobs setup.root globs)
  have hfiles := h.files
  rw [World.list, herror] at hfiles
  exact hfiles

/-- No pass is owed where none is running. -/
theorem Reachable.rescanPending (hs : Reachable setup s) (hrest : s.rescanRunning = false) :
    s.rescanPending = false := by
  obtain ⟨globs, moves, t, rfl⟩ := hs
  refine Bool.eq_false_iff.mpr fun hpending => ?_
  have hrunning := (Run.coordinated (r := ⟨setup, .new globs, moves⟩) rfl t).pending hpending
  cases hrest.symm.trans hrunning

/-- A request for a full scan asks for a rescan, at once or after one step that touches neither files nor scans. -/
theorem IndexRequest.ScansAll.asks {request : IndexRequest} (h : request.ScansAll s) (setup : IndexSetup α)
    (world : World) :
    ∃ u, Section setup s u ∧ u.isDisposed = false ∧ u.globs = request.call.globs?.getD s.globs ∧
      u.files = s.files ∧ u.scanning = s.scanning ∧ u.rescanRunning = s.rescanRunning ∧
      u.rescanPending = s.rescanPending ∧
      ∀ t, request.call.Ends setup world s t ↔ Call.requesting.Ends setup world u t := by
  cases h with
  | rescan live => exact ⟨s, .idle, live, rfl, rfl, rfl, rfl, rfl, fun t => .rfl⟩
  | activate inactive =>
    have hactivate : s.activate = ({ s with lifecycle := .active }, true) := by
      rw [IndexState.activate, if_neg inactive]
    have hsection : Section setup s s.activate.1 := .activate
    rw [hactivate] at hsection
    refine ⟨_, hsection, rfl, rfl, rfl, rfl, rfl, rfl, fun t => Call.Ends.step_iff rfl fun pick => ⟨[], ?_⟩⟩
    simp only [IndexRequest.call, Call.step, hactivate]
  | setGlobs globs live changes =>
    have hset : s.setGlobs globs = ({ s with globs := globs, filter := none }, true) := by
      rw [IndexState.setGlobs, if_neg changes]
    have hsection : Section setup s (s.setGlobs globs).1 := .configure globs
    rw [hset] at hsection
    refine ⟨_, hsection, live, rfl, rfl, rfl, rfl, rfl, fun t => Call.Ends.step_iff rfl fun pick => ⟨[], ?_⟩⟩
    simp only [IndexRequest.call, Call.step, hset]

/-- A request for a full scan comes to its end and leaves the workspace scanned by the globs that it set, if any. -/
theorem IndexRequest.ScansAll.scans (law : Lawful setup equal pathOf) (hs : Reachable setup s)
    (hidle : s.scanning = []) (hrest : s.rescanRunning = false) (hdisk : world.disk.IsTree)
    {request : IndexRequest} (h : request.ScansAll s) :
    (∃ t, request.call.Ends setup world s t) ∧ ∀ t, request.call.Ends setup world s t →
      ScannedBy setup equal world (request.call.globs?.getD s.globs) s t := by
  obtain ⟨u, hsection, hlive, hglobs, hfiles, hscanning, hrunning, hpending, hiff⟩ := h.asks setup world
  obtain ⟨⟨t, ht⟩, hscans⟩ := requesting_scans law ((hs.sound law).of_section law hsection) hlive
    (hscanning.trans hidle) hdisk (hrunning.trans hrest) (hpending.trans (hs.rescanPending hrest))
  refine ⟨⟨t, (hiff t).mpr ht⟩, fun t hends => ?_⟩
  have hscanned := hscans t ((hiff t).mp hends)
  rw [hglobs] at hscanned
  exact ⟨hscanned.uses, hfiles ▸ hscanned.files⟩

/-- A full scan that nothing disturbs comes to its end, and then, whatever was tracked before, an open document has
the items of its buffer exactly if the walk comes across its file: the text comes from the buffer, but whether
there is a file is for the disk alone to say. A document whose file is not on the disk, or below a pruned
directory, is not tracked, whatever the globs say of it. Where there is no root to walk, nothing changes. -/
theorem open_documents_shown_iff_found (hindex : StepIndex setup equal) (hs : Reachable setup s)
    (hidle : s.scanning = []) (hrest : s.rescanRunning = false) (hdisk : world.disk.IsTree)
    {request : IndexRequest} (hrequest : request.ScansAll s) :
    let globs := request.call.globs?.getD s.globs
    (∃ t, request.call.Ends setup world s t) ∧
      ∀ t, request.call.Ends setup world s t → t.globs = globs ∧
        if world.disk.holds setup.root then
          ∀ p document, world.documents.get? p = some document →
            let found := world.disk.Finds setup.root (.ofGlobs setup.root globs) p
            (found → t.Shows setup equal p (.ok document.text)) ∧ (¬found → t.items? p = none)
        else t.files = s.files := by
  intro globs
  obtain ⟨pathOf, law⟩ := hindex.lawful
  obtain ⟨hends, hscans⟩ := hrequest.scans law hs hidle hrest hdisk
  refine ⟨hends, fun t ht => ⟨(hscans t ht).uses, ?_⟩⟩
  split
  next hroot => exact fun p document hopen => (hscans t ht).open_documents hindex hdisk hroot hopen
  next hroot => exact (hscans t ht).files_eq (Bool.eq_false_iff.mpr hroot)

/-- The open document is on the disk with another text, and has the items of its buffer. -/
theorem open_documents_shown_iff_found_edited :
    let setup := (UsageIndex.new ⟨"/w".toList⟩ ⟨["*.feature".toList], []⟩ 1 5).setup
    let s := ((Traffic.new ⟨["*.feature".toList], []⟩).after setup twoScans 13).index
    let p : Path := ⟨"/w/a.feature".toList⟩
    let world : World := ⟨⟨[(p, ⟨"When b".toList, 2⟩)]⟩, stepDisk ["w".toList, "a.feature".toList]⟩
    Reachable setup s ∧ s.scanning = [] ∧ s.rescanRunning = false ∧ world.disk.IsTree ∧
      IndexRequest.activate.ScansAll s ∧
      ∃ t, IndexRequest.activate.call.Ends setup world s t ∧
        t.Shows setup Occurrence.Respells p (.ok "When b".toList) := by
  intro setup s p world
  have hreachable : Reachable setup s := ⟨⟨["*.feature".toList], []⟩, twoScans, 13, rfl⟩
  have hidle : s.scanning = [] := by decide +kernel
  have hrest : s.rescanRunning = false := by decide +kernel
  have hdisk : world.disk.IsTree := stepDisk_isTree (by decide)
  have hscans : IndexRequest.activate.ScansAll s := .activate (by decide +kernel)
  have hfound : world.disk.Finds setup.root (.ofGlobs setup.root s.globs) p := by
    refine ⟨["w".toList], ["a.feature".toList], by decide, by decide, by decide, by decide +kernel, ?_⟩
    exact unpruned_iff.mp (by decide)
  obtain ⟨⟨t, ht⟩, hshown⟩ := open_documents_shown_iff_found (.usages _ ⟨["*.feature".toList], []⟩ _ _)
    hreachable hidle hrest hdisk hscans
  have hroot : world.disk.holds setup.root = true := by decide
  have hdocuments := (hshown t ht).2
  rw [if_pos hroot] at hdocuments
  exact ⟨hreachable, hidle, hrest, hdisk, hscans, t, ht, (hdocuments p _ rfl).1 hfound⟩

/-- The feature file is open and tracked with the items of its buffer, but has not been saved: the next full scan
drops it, although the globs select it. -/
theorem not_open_documents_shown_unsaved :
    let setup := (UsageIndex.new ⟨"/w".toList⟩ ⟨["*.feature".toList], []⟩ 1 5).setup
    let s := ((Traffic.new ⟨["*.feature".toList], []⟩).after setup twoScans 13).index
    let p : Path := ⟨"/w/a.feature".toList⟩
    let world : World := ⟨oneStepWorld.documents, ⟨[], [["w".toList]]⟩⟩
    Reachable setup s ∧ s.scanning = [] ∧ s.rescanRunning = false ∧ world.disk.IsTree ∧
      world.documents.get? p = some ⟨"Given a".toList, 1⟩ ∧ s.isTracked p = true ∧ p.startsWith setup.root = true ∧
      IndexRequest.rescan.ScansAll s ∧
      ∃ t, IndexRequest.rescan.call.Ends setup world s t ∧
        (CorpusFilter.ofGlobs setup.root t.globs).accepts p = true ∧
        ¬t.Shows setup Occurrence.Respells p (.ok "Given a".toList) := by
  intro setup s p world
  have hreachable : Reachable setup s := ⟨⟨["*.feature".toList], []⟩, twoScans, 13, rfl⟩
  have hidle : s.scanning = [] := by decide +kernel
  have hrest : s.rescanRunning = false := by decide +kernel
  have hdisk : world.disk.IsTree := ⟨by nofun, .nil⟩
  have hrequest : IndexRequest.rescan.ScansAll s := .rescan (by decide +kernel)
  obtain ⟨⟨t, ht⟩, hscans⟩ := hrequest.scans (Occurrence.lawful ⟨"/w".toList⟩ ⟨["*.feature".toList], []⟩ 1 5)
    hreachable hidle hrest hdisk
  have hscanned := hscans t ht
  have hglobs : IndexRequest.rescan.call.globs?.getD s.globs = ⟨["*.feature".toList], []⟩ := by decide +kernel
  have hlist : world.list setup.root (.ofGlobs setup.root ⟨["*.feature".toList], []⟩) = .ok [] := by decide +kernel
  rw [hglobs] at hscanned
  have hfiles := hscanned.files
  rw [hlist] at hfiles
  refine ⟨hreachable, hidle, hrest, hdisk, rfl, by decide +kernel, by decide, hrequest, t, ht, ?_, ?_⟩
  · rw [hscanned.uses]
    decide +kernel
  · rintro ⟨items, hitems, -⟩
    cases (hfiles.2 p (by nofun)).symm.trans hitems

end StepLink
