import StepLink.Proofs.Index.Invariant

/-! Steps of the calls that scan and remove files. They are described once, by the cases of `Call.Turn`;
what a step leaves alone for the other calls follows from that. -/

namespace StepLink

open IndexState

deriving instance DecidableEq for ScanStage, Scan, Pass, Call

variable {α : Type} {setup : IndexSetup α} {world : World} {s t : IndexState α}

/-- Nothing but scans and removals of files begins, and calls go on. -/
def Move.scansOrRemoves : Move → Bool
  | .start (.scanFile _) => true
  | .start (.removeFile _) => true
  | .advance _ _ _ => true
  | _ => false

/-- The number of times that a scan in flight has read its file again. -/
def ScanStage.replays? : ScanStage → Option Nat
  | .entering => none
  | .reading replays => some replays
  | .holding replays _ => some replays
  | .telling replays _ => some replays
  | .deciding replays => some replays
  | .ended _ => none

/-- What the last read has found is committed. -/
def ScanStage.isCommitted : ScanStage → Bool
  | .telling _ _ => true
  | .deciding _ => true
  | _ => false

/-- The call has no more to do than to tell of a change. -/
def Call.isPast : Call → Bool
  | .removed _ => true
  | .ended _ => true
  | _ => false

/-- The call scans or removes a file, or did so. -/
def Call.scansOrRemoves : Call → Bool
  | .scan c => !c.isEnded
  | .removing _ => true
  | c => c.isPast

/-- The next step of the call asks for the path to be read or dropped. -/
def Call.requests (p : Path) : Call → Bool
  | .scan ⟨q, .entering⟩ => q.same p
  | .removing q => p.startsWith q
  | _ => false

/-- The steps of calls that scan or remove files, on an index that is not disposed of. -/
inductive Call.Turn (setup : IndexSetup α) (world : World) (s : IndexState α) :
    Call → IndexState α → Call → Prop where
  | enters (p : Path) (free : s.scanning? p = none) :
    Call.Turn setup world s (.scan ⟨p, .entering⟩) { s with scanning := s.scanning ++ [(p, false)] }
      (.scan ⟨p, .reading 0⟩)
  | joins (p : Path) (marked : (s.scanning? p).isSome = true) :
    Call.Turn setup world s (.scan ⟨p, .entering⟩) (s.requeue fun q => q.same p) (.ended false)
  | reads (p : Path) (replays : Nat) :
    Call.Turn setup world s (.scan ⟨p, .reading replays⟩) s (.scan ⟨p, .holding replays (world.read p)⟩)
  | commits (p : Path) (replays : Nat) (text : Text) (stage : ScanStage)
    (past : stage.replays? = some replays ∧ stage.isCommitted = true) :
    Call.Turn setup world s (.scan ⟨p, .holding replays (.ok text)⟩)
      (s.commit setup.same p (setup.parse p text)).1 (.scan ⟨p, stage⟩)
  | fails (p : Path) (replays : Nat) (e : ReadError) (stage : ScanStage)
    (past : stage.replays? = some replays ∧ stage.isCommitted = true) :
    Call.Turn setup world s (.scan ⟨p, .holding replays (.error e)⟩) (s.dropBelow p false).1
      (.scan ⟨p, stage⟩)
  | tells (p : Path) (replays : Nat) (notice : Notice) (stage : ScanStage)
    (past : stage.replays? = some replays ∧ stage.isCommitted = true) :
    Call.Turn setup world s (.scan ⟨p, .telling replays notice⟩) s (.scan ⟨p, stage⟩)
  | replays (p : Path) (replays : Nat) (queued : s.scanning? p = some true)
    (few : replays < setup.maxReplays) :
    Call.Turn setup world s (.scan ⟨p, .deciding replays⟩)
      { s with scanning := s.scanning.map fun entry => if entry.1.same p then (entry.1, false) else entry }
      (.scan ⟨p, .reading (replays + 1)⟩)
  | ends (p : Path) (replays : Nat) (givenUp : Bool) (queued : (s.scanning? p).getD false = givenUp)
    (many : givenUp = true → setup.maxReplays ≤ replays) :
    Call.Turn setup world s (.scan ⟨p, .deciding replays⟩)
      { s with scanning := s.scanning.filter fun entry => !entry.1.same p } (.ended false)
  | drops (p : Path) (c : Call) (past : c.isPast = true) :
    Call.Turn setup world s (.removing p) (s.dropBelow p true).1 c
  | reports (notice : Notice) (c : Call) (past : c.isPast = true) :
    Call.Turn setup world s (.removed notice) s c
  | rests (dropped : Bool) : Call.Turn setup world s (.ended dropped) s (.ended dropped)

theorem Scan.afterCommit_stage (c : Scan) (replays : Nat) (notice : Option Notice) :
    (c.afterCommit replays notice).stage.replays? = some replays ∧
      (c.afterCommit replays notice).stage.isCommitted = true := by
  cases notice <;> exact ⟨rfl, rfl⟩

theorem Scan.afterCommit_eq (c : Scan) (replays : Nat) (notice : Option Notice) :
    Call.scan (c.afterCommit replays notice) = .scan ⟨c.path, (c.afterCommit replays notice).stage⟩ := by
  cases notice <;> rfl

theorem Scan.afterCommit_isEnded (c : Scan) (replays : Nat) (notice : Option Notice) :
    (c.afterCommit replays notice).isEnded = false := by
  cases notice <;> rfl

/-- A scan that decides is over unless a request has come in since its last read and it may read again. -/
theorem Call.Turn.deciding (setup : IndexSetup α) (world : World) (pick : Nat) (s : IndexState α) (p : Path)
    (replays : Nat) : Call.Turn setup world s (.scan ⟨p, .deciding replays⟩)
      (Call.step setup world pick s (.scan ⟨p, .deciding replays⟩)).1
      (Call.step setup world pick s (.scan ⟨p, .deciding replays⟩)).2.1 := by
  by_cases hagain : (s.scanning? p).getD false = true ∧ replays < setup.maxReplays
  · obtain ⟨hqueued, hfew⟩ := hagain
    have hmark : s.scanning? p = some true := by
      cases hmark : s.scanning? p <;> simp_all
    simp only [Call.step, Scan.step, decideReplay, hmark, Option.getD_some, hfew, decide_true, Bool.and_self,
      if_true]
    exact .replays p replays hmark hfew
  · have hend : ((s.scanning? p).getD false && decide (replays < setup.maxReplays)) = false := by
      simpa using hagain
    have hmany : (s.scanning? p).getD false = true → setup.maxReplays ≤ replays := fun hqueued => by
      rw [hqueued, Bool.true_and, decide_eq_false_iff_not] at hend
      omega
    have hturn : Call.Turn setup world s (.scan ⟨p, .deciding replays⟩)
        { s with scanning := s.scanning.filter fun entry => !entry.1.same p } (.ended false) :=
      .ends p replays _ rfl hmany
    simp only [Call.step, Scan.step, decideReplay, hend, Bool.false_eq_true, if_false]
    cases (s.scanning? p).getD false <;> exact hturn

theorem Call.step_turn (setup : IndexSetup α) (world : World) (pick : Nat) {c : Call}
    (hlive : s.isDisposed = false) (hc : c.scansOrRemoves = true) :
    Call.Turn setup world s c (c.step setup world pick s).1 (c.step setup world pick s).2.1 := by
  match c, hc with
  | .scan ⟨p, .entering⟩, _ =>
    cases hmark : s.scanning? p with
    | none =>
      simp only [Call.step, Scan.step, enterScan, hlive, hmark, Option.isSome_none, Bool.false_eq_true,
        if_false]
      exact .enters p hmark
    | some queued =>
      simp only [Call.step, Scan.step, enterScan, hlive, hmark, Option.isSome_some, Bool.false_eq_true,
        if_false, if_true]
      exact .joins p (by rw [hmark, Option.isSome_some])
  | .scan ⟨p, .reading replays⟩, _ => exact .reads p replays
  | .scan ⟨p, .holding replays (.ok text)⟩, _ =>
    simp only [Call.step, Scan.step, Scan.afterCommit_isEnded, Bool.false_eq_true, if_false]
    rw [Scan.afterCommit_eq]
    exact .commits p replays text _ (Scan.afterCommit_stage _ _ _)
  | .scan ⟨p, .holding replays (.error e)⟩, _ =>
    simp only [Call.step, Scan.step, Scan.afterCommit_isEnded, Bool.false_eq_true, if_false]
    rw [Scan.afterCommit_eq]
    exact .fails p replays e _ (Scan.afterCommit_stage _ _ _)
  | .scan ⟨p, .telling replays notice⟩, _ =>
    simp only [Call.step, Scan.step, Scan.afterCommit_isEnded, Bool.false_eq_true, if_false]
    rw [Scan.afterCommit_eq]
    exact .tells p replays notice _ (Scan.afterCommit_stage _ _ _)
  | .scan ⟨p, .deciding replays⟩, _ => exact .deciding setup world pick s p replays
  | .removing p, _ =>
    have hturn : ∀ c : Call, c.isPast = true →
        Call.Turn setup world s (.removing p) (s.dropBelow p true).1 c := .drops p
    simp only [Call.step]
    split
    next heq => rw [heq] at hturn; exact hturn _ rfl
    next heq => rw [heq] at hturn; exact hturn _ rfl
  | .removed notice, _ =>
    simp only [Call.step]
    split <;> exact .reports notice _ rfl
  | .ended dropped, _ => exact .rests dropped

/-- A turn of another call leaves the entry and the mark of a path that is being scanned alone, unless the
call asks for that path, which is then marked for another read. The other scans in flight are of other
paths, and none of them is of a directory above. -/
theorem Call.Turn.frame {c c' : Call} (turn : Call.Turn setup world s c t c') {p : Path}
    (hmarked : (s.scanning? p).isSome = true)
    (halone : ∀ q stage, c = .scan ⟨q, stage⟩ → stage.replays?.isSome = true → q.same p = false)
    (hbelow : ∀ q stage, c = .scan ⟨q, stage⟩ → p.startsWith q = true → p.same q = true) :
    c.requests p = false ∧ t.scanning? p = s.scanning? p ∧ t.items? p = s.items? p ∨
      c.requests p = true ∧ t.scanning? p = some true := by
  obtain ⟨queued, hmark⟩ := Option.isSome_iff_exists.mp hmarked
  cases turn with
  | enters q free =>
    have hqp : q.same p = false := by
      cases hqp : q.same p with
      | false => rfl
      | true =>
        rw [scanning?_congr hqp, hmark] at free
        cases free
    refine .inl ⟨hqp, ?_, rfl⟩
    rw [scanning?_eq_lookup, lookup_begun, hqp, ← scanning?_eq_lookup, hmark]
    rfl
  | joins q marked =>
    have hscanning : (s.requeue fun k => k.same q).scanning? p =
        (s.scanning? p).map fun queued => p.same q || queued :=
      scanning?_requeue (fun h => Path.same_congr h q) s p
    cases hqp : q.same p with
    | false =>
      refine .inl ⟨hqp, ?_, rfl⟩
      rw [hscanning, hmark, Path.same_comm, hqp]
      rfl
    | true =>
      refine .inr ⟨hqp, ?_⟩
      rw [hscanning, hmark, Path.same_comm, hqp]
      rfl
  | reads q replays => exact .inl ⟨rfl, rfl, rfl⟩
  | commits q replays text stage past =>
    refine .inl ⟨rfl, ?_, ?_⟩
    · exact scanning?_commit _ _ _ _ _
    · rw [items?_commit, halone q _ rfl rfl]
      simp
  | fails q replays e stage past =>
    refine .inl ⟨rfl, ?_, ?_⟩
    · rw [scanning?_dropBelow, hmark]
      rfl
    · have hqp := halone q _ rfl rfl
      rw [Path.same_comm] at hqp
      rw [items?_dropBelow, if_neg]
      intro hstarts
      rw [hbelow q _ rfl hstarts] at hqp
      cases hqp
  | tells q replays notice stage past => exact .inl ⟨rfl, rfl, rfl⟩
  | replays q replays queued few =>
    refine .inl ⟨rfl, ?_, rfl⟩
    rw [scanning?_eq_lookup, lookup_replayed, Path.same_comm, halone q _ rfl rfl, ← scanning?_eq_lookup,
      hmark]
    rfl
  | ends q replays givenUp queued many =>
    refine .inl ⟨rfl, ?_, rfl⟩
    rw [scanning?_eq_lookup, lookup_released, Path.same_comm, halone q _ rfl rfl]
    rfl
  | drops q c past =>
    cases hstarts : p.startsWith q with
    | false =>
      refine .inl ⟨hstarts, ?_, ?_⟩
      · rw [scanning?_dropBelow, hmark, hstarts]
        rfl
      · rw [items?_dropBelow, hstarts]
        rfl
    | true =>
      refine .inr ⟨hstarts, ?_⟩
      rw [scanning?_dropBelow, hmark, hstarts]
      rfl
  | reports notice c past => exact .inl ⟨rfl, rfl, rfl⟩
  | rests dropped => exact .inl ⟨rfl, rfl, rfl⟩

theorem ScanStage.requests_of_replays? {stage : ScanStage} {p q : Path} (h : stage.replays?.isSome = true) :
    Call.requests q (.scan ⟨p, stage⟩) = false := by
  cases stage <;> first | rfl | cases h

theorem ScanStage.isReading_of_isCommitted {stage : ScanStage} {p : Path} (h : stage.isCommitted = true) :
    Scan.isReading ⟨p, stage⟩ = false := by
  cases stage <;> first | rfl | cases h

theorem Call.scans_of_isPast {c : Call} (h : c.isPast = true) : c.scans = [] := by
  cases c <;> first | rfl | cases h

theorem ScanStage.isEnded_of_replays? {stage : ScanStage} {p : Path} (h : stage.replays?.isSome = true) :
    Scan.isEnded ⟨p, stage⟩ = false := by
  cases stage <;> simp_all [ScanStage.replays?, Scan.isEnded]

theorem Call.Turn.sameSettings {c c' : Call} (turn : Call.Turn setup world s c t c') : SameSettings s t := by
  cases turn with
  | commits p replays text stage past => exact commit_sameSettings _ _ _ _
  | fails p replays e stage past => exact dropBelow_sameSettings _ _ _
  | drops p c past => exact dropBelow_sameSettings _ _ _
  | _ => exact ⟨rfl, rfl, rfl, rfl⟩

/-- A scan that goes on after a turn is in flight, under the mark that it has made itself unless it had
entered. -/
theorem Call.Turn.scan {c : Call} {p : Path} {stage : ScanStage}
    (turn : Call.Turn setup world s c t (.scan ⟨p, stage⟩)) :
    stage.replays?.isSome = true ∧ ∃ before, c = .scan ⟨p, before⟩ ∧
      (before = .entering ∧ s.scanning? p = none ∧ t.scanning? p = some false ∨
        before.replays?.isSome = true ∧ (t.scanning? p).isSome = (s.scanning? p).isSome) := by
  cases turn with
  | enters p free =>
    refine ⟨rfl, _, rfl, .inl ⟨rfl, free, ?_⟩⟩
    rw [scanning?_eq_lookup, lookup_begun, ← scanning?_eq_lookup, free, Path.same_refl]
    rfl
  | reads p replays => exact ⟨rfl, _, rfl, .inr ⟨rfl, rfl⟩⟩
  | commits p replays text stage past =>
    refine ⟨by rw [past.1]; rfl, _, rfl, .inr ⟨rfl, ?_⟩⟩
    rw [scanning?_commit]
  | fails p replays e stage past =>
    refine ⟨by rw [past.1]; rfl, _, rfl, .inr ⟨rfl, ?_⟩⟩
    rw [scanning?_dropBelow, Option.isSome_map]
  | tells p replays notice stage past => exact ⟨by rw [past.1]; rfl, _, rfl, .inr ⟨rfl, rfl⟩⟩
  | replays p replays queued few =>
    refine ⟨rfl, _, rfl, .inr ⟨rfl, ?_⟩⟩
    rw [scanning?_eq_lookup, lookup_replayed, Option.isSome_map, ← scanning?_eq_lookup]
  | drops q c past => cases past
  | reports notice c past => cases past

theorem Call.Turn.scansOrRemoves {c c' : Call} (turn : Call.Turn setup world s c t c') :
    c'.scansOrRemoves = true := by
  cases c' with
  | scan after =>
    obtain ⟨p, stage⟩ := after
    rw [Call.scansOrRemoves, ScanStage.isEnded_of_replays? turn.scan.1]
    rfl
  | removed notice => rfl
  | ended dropped => rfl
  | _ =>
    cases turn with
    | drops q c past => cases past
    | reports notice c past => cases past

/-- A scan that is over has given up exactly if its path is still asked for. -/
theorem Scan.givenUp_of_ended {p : Path} {replays : Nat} {givenUp : Bool}
    (h : (Scan.step setup world s ⟨p, .deciding replays⟩).2.1.stage = .ended givenUp) :
    (s.scanning? p).getD false = givenUp ∧ (givenUp = true → setup.maxReplays ≤ replays) := by
  by_cases hagain : ((s.scanning? p).getD false && decide (replays < setup.maxReplays)) = true
  · simp only [Scan.step, decideReplay, hagain, if_true] at h
    cases h
  · cases hqueued : (s.scanning? p).getD false with
    | false =>
      simp only [Scan.step, decideReplay, hqueued, Bool.false_and, Bool.false_eq_true, if_false] at h
      cases h
      exact ⟨rfl, fun hfalse => by cases hfalse⟩
    | true =>
      rw [hqueued, Bool.true_and, decide_eq_true_eq] at hagain
      simp only [Scan.step, decideReplay, hqueued, Bool.true_and, decide_eq_true_eq, if_neg hagain,
        if_true] at h
      cases h
      exact ⟨rfl, fun _ => Nat.le_of_not_lt hagain⟩

theorem Call.Turn.files_of_deciding {p : Path} {replays : Nat} {c : Call}
    (turn : Call.Turn setup world s (.scan ⟨p, .deciding replays⟩) t c) : t.files = s.files := by
  cases turn <;> rfl

end StepLink
