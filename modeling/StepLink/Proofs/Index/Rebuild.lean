import StepLink.Proofs.Index.Batch

/-! A full scan on an index that nothing else touches, in a world that does not change. Its scans step in
any order, and whatever was tracked before, the files at the end are the listed ones with what a read of
them gives. -/

namespace StepLink

open IndexState Disk

variable {α : Type} {setup : IndexSetup α} {equal : α → α → Prop} {pathOf : α → Path} {world : World}
  {s t u : IndexState α} {p q : Path} {listed done waiting : List Path}

/-- A full scan, of whose scans the picked ones take the next steps. -/
def Pass.after (setup : IndexSetup α) (world : World) (picks : Nat → Nat) (s : IndexState α) :
    Nat → IndexState α × Pass
  | 0 => (s, .starting)
  | t + 1 =>
    let (s, pass) := after setup world picks s t
    let (s, pass, _) := pass.step setup world (picks t) s
    (s, pass)

/-- The pick lets one of the scans in flight step, if there are any. -/
def Pass.Heeds (pick : Nat) : Pass → Prop
  | .scanning running _ => running.all Scan.isEnded = true ∨ ∃ c, running[pick]? = some c ∧ c.isEnded = false
  | _ => True

open Classical in
/-- From the first state to the second, the index has been rebuilt from the listed files. -/
structure Rebuilt (setup : IndexSetup α) (equal : α → α → Prop) (world : World) (listed : List Path)
    (s t : IndexState α) : Prop where
  /-- The entry of a listed file is what a read of it gives; there is none if it cannot be read. -/
  read : ∀ p ∈ listed, t.Shows setup equal p (world.read p)
  unlisted : ∀ q, (∀ p ∈ listed, p.same q = false) → t.items? q = none
  distinct : t.keys.Pairwise fun p q => p.same q = false
  order : KeepsOrder s t
  version : t.version = s.version + (if hasStale s listed then 1 else 0) +
    listed.countP fun p => t.items? p ≠ s.items? p
  idle : t.scanning = []

def IndexState.withFilter (setup : IndexSetup α) (s : IndexState α) : IndexState α :=
  { s with filter := some (.ofGlobs setup.root s.globs) }

theorem Sound.compiledFilter_eq (hs : Sound setup pathOf s) :
    s.compiledFilter setup.root = (s.withFilter setup, .ofGlobs setup.root s.globs) := by
  rw [compiledFilter]
  split
  next f hf =>
    obtain rfl := hs.filter f hf
    rw [IndexState.withFilter, ← hf]
  next => rfl

def corpusOf (setup : IndexSetup α) (world : World) (s : IndexState α) : Except Disk.WalkError (List Path) :=
  world.list setup.root (.ofGlobs setup.root s.globs)

/-- How far a full scan has come. -/
def Rebuilding (setup : IndexSetup α) (world : World) (pathOf : α → Path) (s t : IndexState α) : Pass → Prop
  | .starting => t = s
  | .filtering => t = s
  | .listing filter => t = s.withFilter setup ∧ filter = .ofGlobs setup.root s.globs
  | .dropping paths => t = s.withFilter setup ∧ corpusOf setup world s = .ok paths
  | .telling paths _ => corpusOf setup world s = .ok paths ∧ t.scanning = [] ∧
      Halfway setup world pathOf paths (s.withFilter setup) [] paths t
  | .scanning running waiting => ∃ listed, corpusOf setup world s = .ok listed ∧
      BatchHalfway setup world pathOf listed (s.withFilter setup) running waiting t
  | .ended => (∃ e, corpusOf setup world s = .error e ∧ t = s.withFilter setup) ∨
      ∃ listed, corpusOf setup world s = .ok listed ∧ t.scanning = [] ∧
        Halfway setup world pathOf listed (s.withFilter setup) listed [] t

/-- How many steps of use a full scan of so many files has before it. -/
def Pass.effort (subscribers size : Nat) : Pass → Nat
  | .starting => size * (subscribers + 6) + subscribers + 7
  | .filtering => size * (subscribers + 6) + subscribers + 6
  | .listing _ => size * (subscribers + 6) + subscribers + 5
  | .dropping paths => paths.length * (subscribers + 6) + subscribers + 4
  | .telling paths notice => paths.length * (subscribers + 6) + notice.waiting.length + 3
  | .scanning running waiting =>
    (running.map (Scan.effort subscribers)).sum + waiting.length * (subscribers + 6) + 2
  | .ended => 0

def corpusSize (setup : IndexSetup α) (world : World) (s : IndexState α) : Nat :=
  match corpusOf setup world s with
  | .ok listed => listed.length
  | .error _ => 0

/-- Putting a batch of waiting paths into flight is progress. -/
theorem effort_begin (running : List Scan) (waiting : List Path) (subscribers size : Nat) {batch : Nat}
    (hbatch : 0 < batch) (hwaiting : waiting ≠ []) :
    Pass.effort subscribers size
        (.scanning ((waiting.take batch).map fun p => ⟨p, .entering⟩) (waiting.drop batch)) <
      Pass.effort subscribers size (.scanning running waiting) := by
  have hlength : waiting.length = (waiting.take batch).length + (waiting.drop batch).length := by
    rw [← List.length_append, List.take_append_drop]
  have htake : 0 < (waiting.take batch).length := by
    rw [List.length_take]
    exact Nat.lt_min.mpr ⟨hbatch, List.length_pos_iff.mpr hwaiting⟩
  have hmul : (waiting.take batch).length * (subscribers + 6) =
      (waiting.take batch).length * (subscribers + 5) + (waiting.take batch).length := Nat.mul_succ _ _
  rw [Pass.effort, Pass.effort, effort_entering, hlength, Nat.add_mul, hmul]
  omega

/-- While batches are scanned, a pick of use brings a full scan closer to its end. -/
theorem Rebuilding.step_scanning (law : Lawful setup equal pathOf) (hlisted : listed.Pairwise Apart)
    (hcorpus : corpusOf setup world s = .ok listed) {running : List Scan} {size : Nat}
    (h : BatchHalfway setup world pathOf listed (s.withFilter setup) running waiting t) (pick : Nat) :
    let x := Pass.step setup world pick t (.scanning running waiting)
    let effort := Pass.effort s.subscribers.length size
    Rebuilding setup world pathOf s x.1 x.2.1 ∧ effort x.2.1 ≤ effort (.scanning running waiting) ∧
      ((Pass.scanning running waiting).Heeds pick → effort x.2.1 < effort (.scanning running waiting)) := by
  intro x effort
  have hsubscribers : t.subscribers = s.subscribers := by
    obtain ⟨-, done, halfway⟩ := h
    exact halfway.settings.subscribers
  by_cases hended : running.all Scan.isEnded = true
  · obtain ⟨hidle, done, halfway⟩ := h.of_ended hended
    cases waiting with
    | nil =>
      have hx : x = (t, .ended, []) := by
        simp only [x, Pass.step, hended, if_true]
      rw [hx]
      refine ⟨.inr ⟨listed, hcorpus, hidle, halfway.perm ?_ (.refl _)⟩, Nat.zero_le _,
        fun _ => Nat.succ_pos _⟩
      rw [← List.append_nil done]
      exact halfway.split.symm
    | cons p waiting =>
      have hx : x = (t, .scanning (((p :: waiting).take (max setup.batchSize 1)).map fun p => ⟨p, .entering⟩)
          ((p :: waiting).drop (max setup.batchSize 1)), []) := by
        simp only [x, Pass.step, hended, if_true]
      have heffort := effort_begin running (p :: waiting) s.subscribers.length size
        (show 0 < max setup.batchSize 1 by omega) (List.cons_ne_nil p waiting)
      rw [hx]
      exact ⟨⟨listed, hcorpus, .begin halfway hlisted hidle _⟩, Nat.le_of_lt heffort, fun _ => heffort⟩
  · cases hpick : running[pick]? with
    | none =>
      have hx : x = (t, .scanning running waiting, []) := by
        simp only [x, Pass.step, hended, Bool.false_eq_true, if_false, hpick]
      rw [hx]
      refine ⟨⟨listed, hcorpus, h⟩, Nat.le_refl _, fun hheeds => ?_⟩
      rcases hheeds with hall | ⟨c, hc, -⟩
      · exact absurd hall hended
      · rw [hpick] at hc
        cases hc
    | some c =>
      have hx : x = ((c.step setup world t).1,
          .scanning (running.set pick (c.step setup world t).2.1) waiting, (c.step setup world t).2.2) := by
        simp only [x, Pass.step, hended, Bool.false_eq_true, if_false, hpick]
      obtain ⟨before, after, hrunning, hset⟩ := exists_around hpick
      rw [hx, hset]
      cases hc : c.isEnded with
      | true =>
        have hstep : c.step setup world t = (t, c, []) := by
          obtain ⟨p, stage⟩ := c
          cases stage <;> first | rfl | cases hc
        rw [hstep, ← hrunning]
        refine ⟨⟨listed, hcorpus, h⟩, Nat.le_refl _, fun hheeds => ?_⟩
        rcases hheeds with hall | ⟨d, hd, hlive⟩
        · exact absurd hall hended
        · rw [hpick] at hd
          rw [← Option.some.inj hd, hc] at hlive
          cases hlive
      | false =>
        rw [hrunning] at h ⊢
        obtain ⟨hnext, heffort⟩ := h.step hlisted law hc
        rw [hsubscribers] at heffort
        have hsum : effort (.scanning (before ++ (c.step setup world t).2.1 :: after) waiting) <
            effort (.scanning (before ++ c :: after) waiting) := by
          simp only [effort, Pass.effort, List.map_append, List.map_cons, List.sum_append, List.sum_cons]
          omega
        exact ⟨⟨listed, hcorpus, hnext⟩, Nat.le_of_lt hsum, fun _ => hsum⟩

/-- Every step of a full scan keeps what holds of it, and a pick of use brings it closer to its end. -/
theorem Rebuilding.step (law : Lawful setup equal pathOf) (hsound : Sound setup pathOf s)
    (hlive : s.isDisposed = false) (hidle : s.scanning = []) (hdisk : world.disk.IsTree) {pass : Pass}
    (h : Rebuilding setup world pathOf s t pass) (pick : Nat) :
    let x := pass.step setup world pick t
    let effort := Pass.effort s.subscribers.length (corpusSize setup world s)
    Rebuilding setup world pathOf s x.1 x.2.1 ∧ effort x.2.1 ≤ effort pass ∧
      (pass.Heeds pick → pass ≠ .ended → effort x.2.1 < effort pass) := by
  intro x effort
  have hsound' : Sound setup pathOf (s.withFilter setup) := by
    have hnext : Sound setup pathOf (s.compiledFilter setup.root).1 := hsound.of_section law .filter
    rwa [hsound.compiledFilter_eq] at hnext
  have hadvance : Rebuilding setup world pathOf s x.1 x.2.1 ∧ effort x.2.1 < effort pass →
      Rebuilding setup world pathOf s x.1 x.2.1 ∧ effort x.2.1 ≤ effort pass ∧
        (pass.Heeds pick → pass ≠ .ended → effort x.2.1 < effort pass) :=
    fun ⟨hnext, hless⟩ => ⟨hnext, Nat.le_of_lt hless, fun _ _ => hless⟩
  -- the paths that wait for their scans once the unlisted files are dropped
  have hwaiting : ∀ {u paths}, corpusOf setup world s = .ok paths → u.scanning = [] →
      Halfway setup world pathOf paths (s.withFilter setup) [] paths u →
      Rebuilding setup world pathOf s u (.scanning [] paths) := by
    intro u paths hcorpus hidle halfway
    exact ⟨paths, hcorpus, .nil hidle, [], halfway⟩
  cases pass with
  | starting =>
    obtain rfl : t = s := h
    have hx : x = (t, .filtering, []) := by
      simp only [x, Pass.step, hlive, Bool.false_eq_true, if_false]
    refine hadvance ?_
    rw [hx]
    exact ⟨rfl, Nat.lt_succ_self _⟩
  | filtering =>
    obtain rfl : t = s := h
    have hx : x = (t.withFilter setup, .listing (.ofGlobs setup.root t.globs), []) := by
      simp only [x, Pass.step, hsound.compiledFilter_eq]
    refine hadvance ?_
    rw [hx]
    exact ⟨⟨rfl, rfl⟩, Nat.lt_succ_self _⟩
  | listing filter =>
    obtain ⟨rfl, rfl⟩ := h
    refine hadvance ?_
    cases hcorpus : corpusOf setup world s with
    | error e =>
      have hx : x = (s.withFilter setup, .ended, [.warned (.unlistable e)]) := by
        rw [corpusOf] at hcorpus
        simp only [x, Pass.step, hcorpus]
      rw [hx]
      exact ⟨.inl ⟨e, hcorpus, rfl⟩, Nat.succ_pos _⟩
    | ok paths =>
      have hsize : corpusSize setup world s = paths.length := by rw [corpusSize, hcorpus]
      have hx : x = (s.withFilter setup, .dropping paths, []) := by
        rw [corpusOf] at hcorpus
        simp only [x, Pass.step, hcorpus]
      rw [hx]
      refine ⟨⟨rfl, hcorpus⟩, ?_⟩
      simp only [effort, Pass.effort, hsize]
      exact Nat.lt_succ_self _
  | dropping paths =>
    obtain ⟨rfl, hcorpus⟩ := h
    have halfway : Halfway setup world pathOf paths (s.withFilter setup) [] paths
        ((s.withFilter setup).keepListed paths).1 := .start law hsound' hlive paths
    have hnone : ((s.withFilter setup).keepListed paths).1.scanning = [] :=
      (keepFiles_scanning _ _ _).trans hidle
    refine hadvance ?_
    cases hkeep : (s.withFilter setup).keepListed paths with
    | mk u notice =>
      rw [hkeep] at halfway hnone
      cases notice with
      | none =>
        have hx : x = (u, .scanning [] paths, []) := by
          simp only [x, Pass.step, hkeep]
        rw [hx]
        refine ⟨hwaiting hcorpus hnone halfway, ?_⟩
        simp only [effort, Pass.effort, List.map_nil, List.sum_nil]
        omega
      | some notice =>
        have hx : x = (u, .telling paths notice, []) := by
          simp only [x, Pass.step, hkeep]
        have hnotice : notice.waiting = s.subscribers :=
          keepFiles_notice (s := s.withFilter setup) (congrArg Prod.snd hkeep)
        rw [hx]
        refine ⟨⟨hcorpus, hnone, halfway⟩, ?_⟩
        simp only [effort, Pass.effort, hnotice]
        exact Nat.lt_succ_self _
  | telling paths notice =>
    obtain ⟨hcorpus, hnone, halfway⟩ := h
    refine hadvance ?_
    obtain ⟨version, path, ids⟩ := notice
    cases ids with
    | nil =>
      have hx : x = (t, .scanning [] paths, []) := by
        simp only [x, Pass.step, Notice.tell]
      rw [hx]
      refine ⟨hwaiting hcorpus hnone halfway, ?_⟩
      simp only [effort, Pass.effort, List.map_nil, List.sum_nil, List.length_nil]
      omega
    | cons id ids =>
      have hx : x = (t, .telling paths ⟨version, path, ids⟩, [.told id version path]) := by
        simp only [x, Pass.step, Notice.tell]
      rw [hx]
      exact ⟨⟨hcorpus, hnone, halfway⟩, Nat.lt_succ_self _⟩
  | scanning running waiting =>
    obtain ⟨listed, hcorpus, hbatch⟩ := h
    obtain ⟨hnext, hle, hless⟩ := step_scanning law (hdisk.apart_list hcorpus) hcorpus hbatch pick
    exact ⟨hnext, hle, fun hheeds _ => hless hheeds⟩
  | ended => exact ⟨h, Nat.le_refl _, fun _ hne => absurd rfl hne⟩

/-! ### Runs of a full scan -/

theorem Pass.after_section (setup : IndexSetup α) (world : World) (picks : Nat → Nat) (s : IndexState α)
    (t : Nat) : Section setup (after setup world picks s t).1 (after setup world picks s (t + 1)).1 :=
  Pass.step_section setup world (picks t) _ _

theorem settledItems_settled (law : Lawful setup equal pathOf)
    (h : t.items? p = settledItems setup world s p) : settledItems setup world t p = t.items? p := by
  cases hread : world.read p with
  | error e => simp only [h, settledItems, hread]
  | ok text =>
    have hagree : (t.items? p).any fun previous => agree setup.same previous (setup.parse p text) := by
      simp only [h, settledItems, hread]
      split
      next hany => exact hany
      next => exact agree_refl law.same_refl _
    simp only [settledItems, hread, hagree, if_true]

theorem Sound.shows_of_settled (law : Lawful setup equal pathOf) (hs : Sound setup pathOf s)
    (h : t.items? p = settledItems setup world s p) : t.Shows setup equal p (world.read p) := by
  rw [settledItems] at h
  cases hread : world.read p with
  | error e =>
    rw [hread] at h
    exact h
  | ok text =>
    rw [hread] at h
    by_cases hagree : ((s.items? p).any fun previous => agree setup.same previous (setup.parse p text)) = true
    · obtain ⟨previous, hprevious, hequal⟩ := (Option.any_eq_true _ _).mp hagree
      refine ⟨previous, ?_, hs.equal_of_agree law hprevious hequal⟩
      exact h.trans ((if_pos hagree).trans hprevious)
    · refine ⟨setup.parse p text, h.trans (if_neg hagree), List.forall₂_same.mpr fun a _ => ?_⟩
      exact law.equal_of_same (law.same_refl a) (Path.same_refl _)

/-- A full scan all paths of which are settled has rebuilt the index. -/
theorem Halfway.rebuilt (law : Lawful setup equal pathOf) (hs : Sound setup pathOf s)
    (h : Halfway setup world pathOf listed (s.withFilter setup) listed [] t) (hidle : t.scanning = []) :
    Rebuilt setup equal world listed s t where
  read p hp := hs.shows_of_settled law (h.settled p hp)
  unlisted := h.unlisted
  distinct := h.sound.distinct
  order := h.order
  version := by
    rw [h.version]
    congr 1
    refine List.countP_congr fun p hp => ?_
    rw [h.settled p hp]
    rfl
  idle := hidle

/-- Nothing changes when what has been rebuilt is settled once more. -/
theorem Halfway.version_of_settled (law : Lawful setup equal pathOf)
    (hst : Halfway setup world pathOf listed s listed [] t)
    (htu : Halfway setup world pathOf listed (t.withFilter setup) listed [] u) : u.version = t.version := by
  have hstale : hasStale (t.withFilter setup) listed = false := by
    rw [hasStale, Bool.not_eq_false', List.all_eq_true]
    intro key hkey
    obtain ⟨p, hp, hsame⟩ := hst.exists_listed (isTracked_of_mem_keys hkey)
    exact List.any_eq_true.mpr ⟨p, hp, hsame⟩
  rw [htu.version, hstale, List.countP_eq_zero.mpr]
  · rfl
  · intro p hp
    have hsettled : settledItems setup world (t.withFilter setup) p = (t.withFilter setup).items? p :=
      settledItems_settled law (hst.settled p hp)
    simpa using hsettled

section

variable (law : Lawful setup equal pathOf) (hsound : Sound setup pathOf s) (hlive : s.isDisposed = false)
  (hidle : s.scanning = []) (hdisk : world.disk.IsTree)

include law hsound hlive hidle hdisk

theorem Rebuilding.after (picks : Nat → Nat) (t : Nat) :
    Rebuilding setup world pathOf s (Pass.after setup world picks s t).1
      (Pass.after setup world picks s t).2 := by
  induction t with
  | zero => rfl
  | succ t ih => exact (ih.step law hsound hlive hidle hdisk (picks t)).1

/-- A full scan comes to its end if time and again a pick is of use. -/
theorem Pass.after_ends (picks : Nat → Nat)
    (hfair : ∀ t, ∃ u, t ≤ u ∧ (Pass.after setup world picks s u).2.Heeds (picks u)) :
    ∃ t, (Pass.after setup world picks s t).2 = .ended := by
  let run := Pass.after setup world picks s
  let effort := Pass.effort s.subscribers.length (corpusSize setup world s)
  have hstep : ∀ t, effort (run (t + 1)).2 ≤ effort (run t).2 ∧
      ((run t).2.Heeds (picks t) → (run t).2 ≠ .ended → effort (run (t + 1)).2 < effort (run t).2) := fun t =>
    ((Rebuilding.after law hsound hlive hidle hdisk picks t).step law hsound hlive hidle hdisk (picks t)).2
  have hmono : ∀ {t u}, t ≤ u → effort (run u).2 ≤ effort (run t).2 := by
    intro t u htu
    induction u, htu using Nat.le_induction with
    | base => exact Nat.le_refl _
    | succ u _ ih => calc
        effort (run (u + 1)).2 ≤ effort (run u).2 := (hstep u).1
        _ ≤ effort (run t).2 := ih
  -- the effort falls with every pick of use
  have hends : ∀ left t, effort (run t).2 = left → ∃ u, (run u).2 = .ended := by
    intro left
    induction left using Nat.strongRecOn with
    | ind left ih =>
      rintro t rfl
      obtain ⟨u, htu, hheeds⟩ := hfair t
      by_cases hended : (run u).2 = .ended
      · exact ⟨u, hended⟩
      · have hless : effort (run (u + 1)).2 < effort (run t).2 := calc
          effort (run (u + 1)).2 < effort (run u).2 := (hstep u).2 hheeds hended
          _ ≤ effort (run t).2 := hmono htu
        exact ih _ hless (u + 1) rfl
  exact hends _ 0 rfl

end

/-- A full scan of an index that is not being scanned rebuilds it: whatever was tracked before, in whatever
order the scans of a batch step, the files at the end are the listed ones that can be read, and a second
full scan changes nothing. If nothing can be listed, the index is left as it was but for its filter. The
scan does end if time and again a scan in flight is let step. -/
theorem scanAll_rebuilds (hindex : StepIndex setup equal) (hs : Reachable setup s)
    (hlive : s.isDisposed = false) (hidle : s.scanning = []) (hdisk : world.disk.IsTree) (picks : Nat → Nat) :
    let corpus := CorpusFilter.ofGlobs setup.root s.globs
    let run := Pass.after setup world picks s
    (∀ t, (run t).2 = .ended →
      match world.list setup.root corpus with
      | .error _ => (run t).1 = { s with filter := some corpus }
      | .ok listed =>
        Rebuilt setup equal world listed s (run t).1 ∧
        ∀ picks' u, (Pass.after setup world picks' (run t).1 u).2 = .ended →
          (Pass.after setup world picks' (run t).1 u).1.files = (run t).1.files ∧
          (Pass.after setup world picks' (run t).1 u).1.version = (run t).1.version) ∧
    ((∀ t, ∃ u, t ≤ u ∧ (run u).2.Heeds (picks u)) → ∃ t, (run t).2 = .ended) := by
  intro corpus run
  obtain ⟨pathOf, law⟩ := hindex.lawful
  have hsound := hs.sound law
  refine ⟨fun t hended => ?_, Pass.after_ends law hsound hlive hidle hdisk picks⟩
  have hrun := Rebuilding.after law hsound hlive hidle hdisk picks t
  rw [hended] at hrun
  rcases hrun with ⟨e, hcorpus, hleft⟩ | ⟨listed, hcorpus, hnone, halfway⟩
  · rw [corpusOf] at hcorpus
    rw [hcorpus]
    exact hleft
  · have hagain : corpusOf setup world (run t).1 = .ok listed := by
      rw [corpusOf, halfway.settings.globs]
      exact hcorpus
    rw [corpusOf] at hcorpus
    rw [hcorpus]
    refine ⟨halfway.rebuilt law hsound hnone, fun picks' u hended' => ?_⟩
    have hrun' := Rebuilding.after law halfway.sound halfway.live hnone hdisk picks' u
    rw [hended'] at hrun'
    rcases hrun' with ⟨e, hcorpus', -⟩ | ⟨listed', hcorpus', -, halfway'⟩
    · rw [hagain] at hcorpus'
      cases hcorpus'
    · obtain rfl := Except.ok.inj (hagain.symm.trans hcorpus')
      have hversion := halfway.version_of_settled law halfway'
      refine ⟨?_, hversion⟩
      have hfiles := files_eq_of_version_eq law.same_refl (Pass.after_section setup world picks' (run t).1)
        (Nat.zero_le u)
      exact (hfiles.2 hversion.symm).symm

/-- A workspace whose only feature file is another one than that of `oneStepWorld`. -/
def otherFileWorld : World :=
  ⟨.empty, ⟨[(["w".toList, "b.feature".toList], .text "Given b".toList)], [["w".toList]]⟩⟩

/-- The file that was tracked is gone, and the one that is there now is read. -/
theorem scanAll_rebuilds_otherFile :
    let setup := (UsageIndex.new ⟨"/w".toList⟩ ⟨["*.feature".toList], []⟩ 1 5).setup
    let s := ((Traffic.new ⟨["*.feature".toList], []⟩).after setup twoScans 13).index
    let run := Pass.after setup otherFileWorld (fun _ => 0) s
    otherFileWorld.disk.IsTree ∧ s.version = 1 ∧ (run 12).2 = .ended ∧ (run 12).1.version = 3 ∧
      Rebuilt setup Occurrence.Respells otherFileWorld [⟨"/w/b.feature".toList⟩] s (run 12).1 := by
  intro setup s run
  have hdisk : otherFileWorld.disk.IsTree := by
    refine ⟨fun entry hentry n hn => ?_, List.pairwise_singleton _ _⟩
    obtain rfl := List.mem_singleton.mp hentry
    have hnames : n = "w".toList ∨ n = "b.feature".toList := by simpa using hn
    rcases hnames with rfl | rfl <;> exact ⟨by decide, by decide⟩
  have hlist : otherFileWorld.list setup.root (.ofGlobs setup.root s.globs) =
      .ok [⟨"/w/b.feature".toList⟩] := by
    decide +kernel
  have hended : (run 12).2 = .ended := by decide +kernel
  have hreachable : Reachable setup s := ⟨⟨["*.feature".toList], []⟩, twoScans, 13, rfl⟩
  have hrun := (scanAll_rebuilds (.usages _ ⟨["*.feature".toList], []⟩ _ _) hreachable (by decide +kernel)
    (by decide +kernel) hdisk fun _ => 0).1 12 hended
  rw [hlist] at hrun
  exact ⟨hdisk, by decide +kernel, hended, by decide +kernel, hrun.1⟩

end StepLink
