import Mathlib.Algebra.Ring.Nat
import StepLink.Proofs.Index.Settling
import StepLink.Proofs.Index.Turn

/-! The scans of one batch of a full scan. They are of paths that lie apart, so they step in any order
without getting in the way of one another: each makes its mark, commits what it has found and takes its mark
away. -/

namespace StepLink

open IndexState Disk

variable {α : Type} {setup : IndexSetup α} {equal : α → α → Prop} {pathOf : α → Path} {world : World}
  {s t u : IndexState α} {p q : Path}

/-- The stages of a scan of a path that nobody else asks for. -/
inductive Calm (world : World) (p : Path) : ScanStage → Prop where
  | entering : Calm world p .entering
  | reading : Calm world p (.reading 0)
  | holding : Calm world p (.holding 0 (world.read p))
  | telling (notice : Notice) : Calm world p (.telling 0 notice)
  | deciding : Calm world p (.deciding 0)
  | ended : Calm world p (.ended false)

/-- The scan has made its mark. -/
def Scan.isInFlight (c : Scan) : Bool :=
  c.stage.replays?.isSome

/-- The scan has committed what it has found. -/
def Scan.isSettled (c : Scan) : Bool :=
  c.stage.isCommitted || c.isEnded

def settledPaths (running : List Scan) : List Path :=
  (running.filter Scan.isSettled).map (·.path)

def pendingPaths (running : List Scan) : List Path :=
  (running.filter fun c => !c.isSettled).map (·.path)

/-- Some scan in flight has marked the path. -/
def isMarkedBy (running : List Scan) (q : Path) : Bool :=
  running.any fun c => c.isInFlight && c.path.same q

/-- The scans of a batch, which do not get in the way of one another. -/
structure Crew (world : World) (running : List Scan) (t : IndexState α) : Prop where
  calm : ∀ c ∈ running, Calm world c.path c.stage
  apart : (running.map (·.path)).Pairwise Apart
  marks : ∀ q, t.scanning? q = if isMarkedBy running q then some false else none

variable {before after : List Scan} {c d : Scan}

theorem Crew.nil (hidle : t.scanning = []) : Crew world [] t where
  calm c hc := by cases hc
  apart := .nil
  marks q := by
    rw [scanning?_eq_lookup, hidle]
    rfl

theorem isMarkedBy_middle (before after : List Scan) (c : Scan) (q : Path) :
    isMarkedBy (before ++ c :: after) q =
      ((c.isInFlight && c.path.same q) || isMarkedBy (before ++ after) q) := by
  simp only [isMarkedBy, List.any_append, List.any_cons, Bool.or_left_comm]

/-- The other scans are of other paths. -/
theorem Crew.isMarkedBy_others (crew : Crew world (before ++ c :: after) t) (hsame : c.path.same q = true) :
    isMarkedBy (before ++ after) q = false := by
  have hapart := crew.apart
  rw [List.map_append, List.map_cons, (List.perm_middle).pairwise_iff Apart.symm] at hapart
  rw [isMarkedBy, List.any_eq_false]
  intro e he
  have hother := (List.pairwise_cons.mp hapart).1 e.path (by
    rw [← List.map_append]
    exact List.mem_map_of_mem he)
  rw [Path.same_comm, ← Path.same_congr hsame, hother.not_same, Bool.and_false]
  exact Bool.false_ne_true

/-- One scan of a batch takes a step that concerns its own mark alone. -/
theorem Crew.swap (crew : Crew world (before ++ c :: after) t) (hpath : d.path = c.path)
    (hcalm : Calm world d.path d.stage)
    (hmarks : ∀ q, u.scanning? q =
      if (d.isInFlight && c.path.same q) || isMarkedBy (before ++ after) q then some false else none) :
    Crew world (before ++ d :: after) u where
  calm e he := by
    rcases List.mem_append.mp he with he | he
    · exact crew.calm e (List.mem_append_left _ he)
    · rcases List.mem_cons.mp he with rfl | he
      · exact hcalm
      · exact crew.calm e (List.mem_append_right _ (List.mem_cons_of_mem c he))
  apart := by
    have hapart := crew.apart
    rwa [List.map_append, List.map_cons, ← hpath, ← List.map_cons, ← List.map_append] at hapart
  marks q := by
    rw [isMarkedBy_middle, hpath]
    exact hmarks q

theorem Crew.swap_of_inFlight (crew : Crew world (before ++ c :: after) t) (hpath : d.path = c.path)
    (hcalm : Calm world d.path d.stage) (hc : c.isInFlight = true) (hd : d.isInFlight = true)
    (hmarks : ∀ q, u.scanning? q = t.scanning? q) : Crew world (before ++ d :: after) u := by
  refine crew.swap hpath hcalm fun q => ?_
  rw [hmarks, crew.marks, isMarkedBy_middle, hc, hd]

theorem Crew.eq_nil_of_all_isEnded {running : List Scan} (crew : Crew world running t)
    (hended : running.all Scan.isEnded = true) : t.scanning = [] := by
  cases hscanning : t.scanning with
  | nil => rfl
  | cons entry entries =>
    have hmark := crew.marks entry.1
    have hnone : isMarkedBy running entry.1 = false := by
      rw [isMarkedBy, List.any_eq_false]
      intro c hc
      have hc := List.all_eq_true.mp hended c hc
      obtain ⟨p, stage⟩ := c
      cases stage <;> first | exact Bool.false_ne_true | cases hc
    rw [scanning?_eq_lookup, hscanning, lookup_cons, if_pos (Path.same_refl _), hnone] at hmark
    cases hmark

theorem settledPaths_middle (before after : List Scan) (c : Scan) :
    settledPaths (before ++ c :: after) =
      settledPaths before ++ ((if c.isSettled then [c.path] else []) ++ settledPaths after) := by
  simp only [settledPaths, List.filter_append, List.filter_cons, List.map_append]
  split <;> rfl

theorem pendingPaths_middle (before after : List Scan) (c : Scan) :
    pendingPaths (before ++ c :: after) =
      pendingPaths before ++ ((if c.isSettled then [] else [c.path]) ++ pendingPaths after) := by
  simp only [pendingPaths, List.filter_append, List.filter_cons, List.map_append]
  cases c.isSettled <;> rfl

/-- How many steps a scan has before it, where each change is told to a number of subscribers. -/
def Scan.effort (subscribers : Nat) (c : Scan) : Nat :=
  match c.stage with
  | .entering => subscribers + 5
  | .reading _ => subscribers + 4
  | .holding _ _ => subscribers + 3
  | .telling _ notice => notice.waiting.length + 2
  | .deciding _ => 1
  | .ended _ => 0

theorem commit_notice {same : α → α → Bool} {items : List α} {notice : Notice}
    (h : (s.commit same p items).2 = some notice) : notice.waiting = s.subscribers := by
  simp only [commit, countChange] at h
  split at h
  next => cases h
  next =>
    split at h
    next =>
      split at h
      next => cases h
      next =>
        obtain rfl := Option.some.inj h
        rfl
    next =>
      obtain rfl := Option.some.inj h
      rfl

theorem keepFiles_notice {test : Path → Bool} {path : Option Path} {notice : Notice}
    (h : (s.keepFiles test path).2 = some notice) : notice.waiting = s.subscribers := by
  simp only [keepFiles, countChange] at h
  split at h
  next => cases h
  next =>
    obtain rfl := Option.some.inj h
    rfl

/-- After a commit, a scan has as many subscribers before it as there are, at most. -/
theorem Scan.afterCommit_effort (c : Scan) (replays : Nat) {notice : Option Notice} {subscribers : Nat}
    (h : ∀ n, notice = some n → n.waiting.length = subscribers) :
    (c.afterCommit replays notice).effort subscribers ≤ subscribers + 2 := by
  cases notice with
  | none => exact Nat.le_add_left 1 (subscribers + 1)
  | some n => exact Nat.le_of_eq (congrArg (· + 2) (h n rfl))

variable {listed done waiting : List Path}

/-- A batch halfway through: the paths of the scans that have committed are settled, the others are not. -/
def BatchHalfway (setup : IndexSetup α) (world : World) (pathOf : α → Path) (listed : List Path)
    (s : IndexState α) (running : List Scan) (waiting : List Path) (t : IndexState α) : Prop :=
  Crew world running t ∧ ∃ done,
    Halfway setup world pathOf listed s (done ++ settledPaths running) (pendingPaths running ++ waiting) t

/-- A step that does not commit moves no path. -/
theorem BatchHalfway.swap (h : BatchHalfway setup world pathOf listed s (before ++ c :: after) waiting t)
    (law : Lawful setup equal pathOf) (hpath : d.path = c.path) (hsettled : d.isSettled = c.isSettled)
    (hsection : Section setup t u) (hfiles : u.files = t.files) (hversion : u.version = t.version)
    (hsettings : SameSettings t u) (hcrew : Crew world (before ++ d :: after) u) :
    BatchHalfway setup world pathOf listed s (before ++ d :: after) waiting u := by
  obtain ⟨-, done, halfway⟩ := h
  refine ⟨hcrew, done, ?_⟩
  rw [settledPaths_middle, pendingPaths_middle, hsettled, hpath, ← settledPaths_middle, ← pendingPaths_middle]
  exact halfway.congr law hsection hfiles hversion hsettings

/-- A commit moves its path from the pending to the settled ones. -/
theorem BatchHalfway.settle (h : BatchHalfway setup world pathOf listed s (before ++ c :: after) waiting t)
    (hpath : d.path = c.path) (hc : c.isSettled = false) (hd : d.isSettled = true)
    (hsettle : ∀ done left right, Halfway setup world pathOf listed s done (left ++ c.path :: right) t →
      Halfway setup world pathOf listed s (done ++ [c.path]) (left ++ right) u)
    (hcrew : Crew world (before ++ d :: after) u) :
    BatchHalfway setup world pathOf listed s (before ++ d :: after) waiting u := by
  obtain ⟨-, done, halfway⟩ := h
  refine ⟨hcrew, done, ?_⟩
  simp only [settledPaths_middle, pendingPaths_middle, hc, hd, if_true, Bool.false_eq_true, if_false,
    List.append_assoc, List.cons_append, List.nil_append, hpath] at halfway ⊢
  refine Halfway.perm (hsettle _ _ _ halfway) ?_ (.refl _)
  rw [List.append_assoc done]
  exact (List.perm_middle.trans (List.perm_append_singleton _ _).symm).append_left done

theorem Crew.mark (crew : Crew world (before ++ c :: after) t) :
    t.scanning? c.path = if c.isInFlight then some false else none := by
  rw [crew.marks, isMarkedBy_middle, crew.isMarkedBy_others (Path.same_refl _), Path.same_refl, Bool.or_false,
    Bool.and_true]

theorem Calm.afterCommit (world : World) (c : Scan) (notice : Option Notice) :
    Calm world (c.afterCommit 0 notice).path (c.afterCommit 0 notice).stage := by
  cases notice with
  | none => exact .deciding
  | some notice => exact .telling notice

theorem Scan.afterCommit_path (c : Scan) (replays : Nat) (notice : Option Notice) :
    (c.afterCommit replays notice).path = c.path := by
  cases notice <;> rfl

theorem Scan.afterCommit_isInFlight (c : Scan) (replays : Nat) (notice : Option Notice) :
    (c.afterCommit replays notice).isInFlight = true := by
  cases notice <;> rfl

theorem Scan.afterCommit_isSettled (c : Scan) (replays : Nat) (notice : Option Notice) :
    (c.afterCommit replays notice).isSettled = true := by
  cases notice <;> rfl

/-- A scan of a batch that is picked comes closer to its end. -/
theorem BatchHalfway.step (h : BatchHalfway setup world pathOf listed s (before ++ c :: after) waiting t)
    (hlisted : listed.Pairwise Apart) (law : Lawful setup equal pathOf) (hc : c.isEnded = false) :
    BatchHalfway setup world pathOf listed s (before ++ (c.step setup world t).2.1 :: after) waiting
        (c.step setup world t).1 ∧
      (c.step setup world t).2.1.effort t.subscribers.length < c.effort t.subscribers.length := by
  have crew := h.1
  have hlive : t.isDisposed = false := by
    obtain ⟨-, done, halfway⟩ := h
    exact halfway.live
  have hmark := crew.mark
  obtain ⟨p, stage⟩ := c
  have hcalm : Calm world p stage := crew.calm ⟨p, stage⟩ (by simp)
  cases hcalm with
  | entering =>
    have henter : t.enterScan p = ({ t with scanning := t.scanning ++ [(p, false)] }, true) := by
      rw [enterScan, hlive, hmark]
      rfl
    have hsection : Section setup t (t.enterScan p).1 := .enter p
    simp only [Scan.step, henter] at hsection ⊢
    refine ⟨h.swap law rfl rfl hsection rfl rfl ⟨rfl, rfl, rfl, rfl⟩ ?_, Nat.lt_succ_self _⟩
    refine crew.swap rfl .reading fun q => ?_
    rw [scanning?_eq_lookup, lookup_begun, ← scanning?_eq_lookup, crew.marks, isMarkedBy_middle]
    cases hsame : p.same q with
    | false => cases isMarkedBy (before ++ after) q <;> rfl
    | true =>
      rw [crew.isMarkedBy_others hsame]
      rfl
  | reading =>
    refine ⟨h.swap law rfl rfl .idle rfl rfl ⟨rfl, rfl, rfl, rfl⟩ ?_, Nat.lt_succ_self _⟩
    exact crew.swap_of_inFlight rfl .holding rfl rfl fun _ => rfl
  | holding =>
    cases hread : world.read p with
    | ok text =>
      have heffort := Scan.afterCommit_effort ⟨p, .holding 0 (.ok text)⟩ 0
        fun n (hn : (t.commit setup.same p (setup.parse p text)).2 = some n) =>
          congrArg List.length (commit_notice hn)
      rw [hread] at h crew hc
      refine ⟨h.settle (Scan.afterCommit_path _ _ _) rfl (Scan.afterCommit_isSettled _ _ _) ?_ ?_,
        Nat.lt_succ_of_le heffort⟩
      · exact fun done left right halfway => halfway.commit hlisted law hread
      · refine crew.swap_of_inFlight (Scan.afterCommit_path _ _ _) (.afterCommit world _ _) rfl
          (Scan.afterCommit_isInFlight _ _ _) fun q => ?_
        exact scanning?_commit setup.same t p q (setup.parse p text)
    | error e =>
      have heffort := Scan.afterCommit_effort ⟨p, .holding 0 (.error e)⟩ 0
        fun n (hn : (t.dropBelow p false).2 = some n) => congrArg List.length (keepFiles_notice hn)
      rw [hread] at h crew hc
      refine ⟨h.settle (Scan.afterCommit_path _ _ _) rfl (Scan.afterCommit_isSettled _ _ _) ?_ ?_,
        Nat.lt_succ_of_le heffort⟩
      · exact fun done left right halfway => halfway.drop hlisted law hread
      · refine crew.swap_of_inFlight (Scan.afterCommit_path _ _ _) (.afterCommit world _ _) rfl
          (Scan.afterCommit_isInFlight _ _ _) fun q => ?_
        refine (scanning?_dropBelow t p false q).trans ?_
        cases t.scanning? q <;> rfl
  | telling notice =>
    refine ⟨h.swap law (Scan.afterCommit_path _ _ _) (Scan.afterCommit_isSettled _ _ _) .idle rfl rfl
      ⟨rfl, rfl, rfl, rfl⟩ ?_, ?_⟩
    · exact crew.swap_of_inFlight (Scan.afterCommit_path _ _ _) (.afterCommit world _ _) rfl
        (Scan.afterCommit_isInFlight _ _ _) fun _ => rfl
    · obtain ⟨version, path, ids⟩ := notice
      cases ids with
      | nil => exact Nat.one_lt_two
      | cons id ids => exact Nat.lt_succ_self _
  | deciding =>
    have hdecide : t.decideReplay setup.maxReplays p 0 =
        ({ t with scanning := t.scanning.filter fun entry => !entry.1.same p }, .done) := by
      rw [decideReplay, hmark]
      rfl
    have hsection : Section setup t (t.decideReplay setup.maxReplays p 0).1 := .decide p 0
    simp only [Scan.step, hdecide] at hsection ⊢
    refine ⟨h.swap law rfl rfl hsection rfl rfl ⟨rfl, rfl, rfl, rfl⟩ ?_, Nat.zero_lt_one⟩
    refine crew.swap rfl .ended fun q => ?_
    rw [scanning?_eq_lookup, lookup_released, ← scanning?_eq_lookup, crew.marks, isMarkedBy_middle,
      Path.same_comm]
    cases hsame : p.same q with
    | false => cases isMarkedBy (before ++ after) q <;> rfl
    | true =>
      rw [crew.isMarkedBy_others hsame]
      rfl
  | ended => cases hc

theorem exists_around {β : Type} {as : List β} {i : Nat} {a : β} (h : as[i]? = some a) :
    ∃ before after, as = before ++ a :: after ∧ ∀ b, as.set i b = before ++ b :: after := by
  obtain ⟨hi, rfl⟩ := List.getElem?_eq_some_iff.mp h
  have hset : ∀ b, as.set i b = as.take i ++ b :: as.drop (i + 1) := fun b => by
    rw [List.set_eq_take_append_cons_drop, if_pos hi]
  refine ⟨as.take i, as.drop (i + 1), ?_, hset⟩
  rw [← hset, List.set_getElem_self]

/-- Nothing is being scanned between two batches, and then every path that is not waiting is settled. -/
theorem BatchHalfway.of_ended {running : List Scan}
    (h : BatchHalfway setup world pathOf listed s running waiting t)
    (hended : running.all Scan.isEnded = true) :
    t.scanning = [] ∧ ∃ done, Halfway setup world pathOf listed s done waiting t := by
  obtain ⟨crew, done, halfway⟩ := h
  have hpending : pendingPaths running = [] := by
    rw [pendingPaths, List.map_eq_nil_iff, List.filter_eq_nil_iff]
    intro c hc
    simp [Scan.isSettled, List.all_eq_true.mp hended c hc]
  rw [hpending, List.nil_append] at halfway
  exact ⟨crew.eq_nil_of_all_isEnded hended, _, halfway⟩

theorem BatchHalfway.begin (halfway : Halfway setup world pathOf listed s done waiting t)
    (hlisted : listed.Pairwise Apart) (hidle : t.scanning = []) (size : Nat) :
    BatchHalfway setup world pathOf listed s ((waiting.take size).map fun p => ⟨p, .entering⟩)
      (waiting.drop size) t := by
  have hpaths : ((waiting.take size).map fun p => (⟨p, .entering⟩ : Scan)).map (·.path) =
      waiting.take size := by
    rw [List.map_map]
    exact List.map_id _
  have hsettled : settledPaths ((waiting.take size).map fun p => ⟨p, .entering⟩) = [] := by
    rw [settledPaths, List.map_eq_nil_iff, List.filter_eq_nil_iff]
    intro c hc
    obtain ⟨p, -, rfl⟩ := List.mem_map.mp hc
    exact Bool.false_ne_true
  have hpending : pendingPaths ((waiting.take size).map fun p => ⟨p, .entering⟩) = waiting.take size := by
    rw [pendingPaths, List.filter_eq_self.mpr, hpaths]
    intro c hc
    obtain ⟨p, -, rfl⟩ := List.mem_map.mp hc
    rfl
  refine ⟨⟨fun c hc => ?_, ?_, fun q => ?_⟩, done, ?_⟩
  · obtain ⟨p, -, rfl⟩ := List.mem_map.mp hc
    exact .entering
  · rw [hpaths]
    have hapart := (halfway.split.pairwise_iff Apart.symm).mpr hlisted
    exact hapart.sublist ((List.take_sublist size waiting).trans (List.sublist_append_right done waiting))
  · have hnone : isMarkedBy ((waiting.take size).map fun p => ⟨p, .entering⟩) q = false := by
      rw [isMarkedBy, List.any_eq_false]
      intro c hc
      obtain ⟨p, -, rfl⟩ := List.mem_map.mp hc
      exact Bool.false_ne_true
    rw [hnone, scanning?_eq_lookup, hidle]
    rfl
  · rw [hsettled, hpending, List.append_nil, List.take_append_drop]
    exact halfway

theorem effort_entering (paths : List Path) (subscribers : Nat) :
    ((paths.map fun p => (⟨p, .entering⟩ : Scan)).map (Scan.effort subscribers)).sum =
      paths.length * (subscribers + 5) := by
  induction paths with
  | nil => rw [List.length_nil, Nat.zero_mul]; rfl
  | cons p paths ih =>
    rw [List.map_cons, List.map_cons, List.sum_cons, ih, List.length_cons, Nat.succ_mul, Nat.add_comm]
    rfl

end StepLink
