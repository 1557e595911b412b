import StepLink.Proofs.Index.Batch
import StepLink.Proofs.Index.Coalescing

/-! Globs that are replaced. A call finds out once whether a path belongs to the corpus, and may commit the path
much later. Nothing else enters a path into the index, so every tracked path was accepted by the globs of some
moment; and a change of the globs is followed by a rescan, which drops what the new ones do not accept. What is
left is a path that a call had found to belong to the corpus before the change and commits after that drop. -/

namespace StepLink

open IndexState

variable {α : Type} {setup : IndexSetup α} {world : World} {s t : IndexState α} {k : Path}

/-- The scan may still commit the path. -/
def Scan.carries (k : Path) (c : Scan) : Bool :=
  c.path == k && !c.isEnded

/-- The full scan has found the path to belong to the corpus, and may still commit it. -/
def Pass.carries (k : Path) : Pass → Bool
  | .listing filter => filter.accepts k
  | .dropping files => files.contains k
  | .telling files _ => files.contains k
  | .scanning running waiting => running.any (Scan.carries k) || waiting.contains k
  | _ => false

/-- The call has found the path to belong to the corpus, and may still commit it. -/
def Call.carries (k : Path) : Call → Bool
  | .scan c => c.carries k
  | .pass p => p.carries k
  | .passing p => p.carries k
  | _ => false

/-- The full scan is still to drop the tracked files that the filter does not accept. -/
def Pass.Owes (filter : CorpusFilter) : Pass → Prop
  | .starting => True
  | .filtering => True
  | .listing f => f = filter
  | .dropping files => ∀ p ∈ files, filter.accepts p = true
  | _ => False

theorem Disk.accepts_of_mem_list {d : Disk} {root p : Path} {filter : CorpusFilter} {listed : List Path}
    (hlist : d.list root filter = .ok listed) (hp : p ∈ listed) : filter.accepts p = true := by
  rw [list] at hlist
  split at hlist
  next => cases hlist
  next names hnames =>
    split at hlist
    next =>
      obtain rfl := Except.ok.inj hlist
      obtain ⟨entry, -, hentry⟩ := List.mem_filterMap.mp (List.mem_mergeSort.mp hp)
      simp only [Option.ite_none_right_eq_some, Bool.and_eq_true, Option.some.injEq] at hentry
      obtain ⟨-, ⟨haccepts, -⟩, rfl⟩ := hentry
      exact haccepts
    next =>
      split at hlist
      next =>
        obtain rfl := Except.ok.inj hlist
        exact (List.mem_filter.mp hp).2
      next => cases hlist

namespace IndexState

@[simp] theorem enterScan_keys (s : IndexState α) (p : Path) : (s.enterScan p).1.keys = s.keys := by
  rw [enterScan]
  split
  · rfl
  · split <;> rfl

@[simp] theorem decideReplay_keys (maxReplays : Nat) (s : IndexState α) (p : Path) (replays : Nat) :
    (s.decideReplay maxReplays p replays).1.keys = s.keys := by
  rw [decideReplay]
  split <;> rfl

@[simp] theorem compiledFilter_keys (root : Path) (s : IndexState α) :
    (s.compiledFilter root).1.keys = s.keys := by
  rw [compiledFilter]
  split <;> rfl

@[simp] theorem requestRescan_keys (s : IndexState α) : s.requestRescan.1.keys = s.keys := by
  rw [requestRescan]
  split
  · rfl
  · split <;> rfl

@[simp] theorem finishPass_keys (s : IndexState α) : s.finishPass.1.keys = s.keys := by
  rw [finishPass]
  split <;> rfl

@[simp] theorem setGlobs_keys (s : IndexState α) (globs : Selection) : (s.setGlobs globs).1.keys = s.keys := by
  rw [setGlobs]
  split <;> rfl

@[simp] theorem activate_keys (s : IndexState α) : s.activate.1.keys = s.keys := by
  rw [activate]
  split <;> rfl

theorem mem_keys_commit {same : α → α → Bool} {p : Path} {items : List α}
    (hk : k ∈ (s.commit same p items).1.keys) : k ∈ s.keys ∨ k = p := by
  rw [commit_fst] at hk
  split at hk
  next => exact .inl hk
  next =>
    have hkeys := keys_enterFile s.files p items
    change k ∈ (enterFile s.files p items).map (·.1) at hk
    rw [hkeys] at hk
    split at hk
    next => exact .inl hk
    next => exact (List.mem_append.mp hk).imp_right List.mem_singleton.mp

theorem mem_keys_keepFiles {test : Path → Bool} {path : Option Path} (hk : k ∈ (s.keepFiles test path).1.keys) :
    k ∈ s.keys ∧ test k = true := by
  rw [keepFiles_fst] at hk
  obtain ⟨entry, hentry, rfl⟩ := List.mem_map.mp hk
  split at hentry
  next hall => exact ⟨List.mem_map_of_mem hentry, List.all_eq_true.mp hall entry hentry⟩
  next =>
    obtain ⟨hentry, htest⟩ := List.mem_filter.mp hentry
    exact ⟨List.mem_map_of_mem hentry, htest⟩

theorem mem_keys_dropBelow {p : Path} {again : Bool} (hk : k ∈ (s.dropBelow p again).1.keys) : k ∈ s.keys := by
  rw [dropBelow_fst] at hk
  cases again <;> exact (mem_keys_keepFiles hk).1

end IndexState

theorem Scan.mem_keys_step (setup : IndexSetup α) (world : World) (s : IndexState α) (c : Scan)
    (hk : k ∈ (c.step setup world s).1.keys) : k ∈ s.keys ∨ c.carries k = true := by
  obtain ⟨p, stage⟩ := c
  cases stage with
  | entering =>
    have henter := enterScan_keys s p
    simp only [Scan.step] at hk
    split at hk <;> simp_all
  | holding replays found =>
    cases found with
    | ok text =>
      refine (mem_keys_commit hk).imp_right fun heq => ?_
      rw [heq, carries, beq_self_eq_true]
      rfl
    | error e => exact .inl (mem_keys_dropBelow hk)
  | deciding replays =>
    have hdecide := decideReplay_keys setup.maxReplays s p replays
    simp only [Scan.step] at hk
    split at hk <;> simp_all
  | _ => exact .inl hk

theorem Pass.mem_keys_step (setup : IndexSetup α) (world : World) (pick : Nat) (s : IndexState α) (p : Pass)
    (hk : k ∈ (p.step setup world pick s).1.keys) : k ∈ s.keys ∨ p.carries k = true := by
  cases p with
  | filtering => exact .inl (compiledFilter_keys setup.root s ▸ hk)
  | listing filter =>
    simp only [Pass.step] at hk
    split at hk <;> exact .inl hk
  | dropping files =>
    have hkeep : k ∈ (s.keepListed files).1.keys → k ∈ s.keys := fun h => (mem_keys_keepFiles h).1
    simp only [Pass.step] at hk
    split at hk <;> simp_all
  | telling files notice =>
    simp only [Pass.step] at hk
    split at hk <;> exact .inl hk
  | scanning running waiting =>
    simp only [Pass.step] at hk
    split at hk
    · split at hk <;> exact .inl hk
    · split at hk
      · exact .inl hk
      next c hpick =>
        refine (Scan.mem_keys_step setup world s c hk).imp_right fun hcarries => ?_
        rw [carries, List.any_eq_true.mpr ⟨c, List.mem_of_getElem? hpick, hcarries⟩]
        rfl
  | _ => exact .inl hk

/-- A call enters only paths that it has found to belong to the corpus. -/
theorem Call.mem_keys_step (setup : IndexSetup α) (world : World) (pick : Nat) (s : IndexState α) (c : Call)
    (hk : k ∈ (c.step setup world pick s).1.keys) : k ∈ s.keys ∨ c.carries k = true := by
  cases c with
  | scan c => exact Scan.mem_keys_step setup world s c hk
  | removing p =>
    have hdrop : k ∈ (s.dropBelow p true).1.keys → k ∈ s.keys := mem_keys_dropBelow
    simp only [Call.step] at hk
    split at hk <;> simp_all
  | removed notice =>
    simp only [Call.step] at hk
    split at hk <;> exact .inl hk
  | pass p =>
    have hpass : k ∈ (p.step setup world pick s).1.keys → k ∈ s.keys ∨ p.carries k = true :=
      Pass.mem_keys_step setup world pick s p
    simp only [Call.step] at hk
    split at hk <;> simp_all [carries]
  | passing p =>
    have hpass : k ∈ (p.step setup world pick s).1.keys → k ∈ s.keys ∨ p.carries k = true :=
      Pass.mem_keys_step setup world pick s p
    simp only [Call.step] at hk
    split at hk <;> simp_all [carries]
  | routing p => exact .inl (compiledFilter_keys setup.root s ▸ hk)
  | requesting =>
    have hrequest := requestRescan_keys s
    simp only [Call.step] at hk
    split at hk <;> simp_all
  | closing =>
    have hfinish := finishPass_keys s
    simp only [Call.step] at hk
    split at hk <;> simp_all
  | configuring globs =>
    have hset := setGlobs_keys s globs
    simp only [Call.step] at hk
    split at hk <;> simp_all
  | activating =>
    have hactivate := activate_keys s
    simp only [Call.step] at hk
    split at hk <;> simp_all
  | _ => exact .inl hk

theorem Scan.step_path (setup : IndexSetup α) (world : World) (s : IndexState α) (c : Scan) :
    (c.step setup world s).2.1.path = c.path := by
  obtain ⟨p, stage⟩ := c
  cases stage with
  | holding replays found => cases found <;> exact afterCommit_path _ replays _
  | telling replays notice => exact afterCommit_path _ replays _
  | reading replays => rfl
  | ended givenUp => rfl
  | _ =>
    simp only [Scan.step]
    split <;> rfl

theorem Scan.carries_step (setup : IndexSetup α) (world : World) (s : IndexState α) (c : Scan)
    (hk : (c.step setup world s).2.1.carries k = true) : c.carries k = true := by
  rw [carries, Bool.and_eq_true, Scan.step_path] at hk
  rw [carries, hk.1]
  obtain ⟨p, stage⟩ := c
  cases stage with
  | ended givenUp => cases hk.2
  | _ => rfl

theorem Pass.carries_step (setup : IndexSetup α) (world : World) (pick : Nat) (s : IndexState α) (p : Pass)
    (hk : (p.step setup world pick s).2.1.carries k = true) :
    p.carries k = true ∨ (s.compiledFilter setup.root).2.accepts k = true := by
  cases p with
  | starting =>
    simp only [Pass.step] at hk
    split at hk <;> cases hk
  | filtering => exact .inr hk
  | listing filter =>
    simp only [Pass.step] at hk
    split at hk
    next files hlist => exact .inl (Disk.accepts_of_mem_list hlist (List.contains_iff_mem.mp hk))
    next => cases hk
  | dropping files =>
    simp only [Pass.step] at hk
    split at hk
    · exact .inl hk
    · exact .inl hk
  | telling files notice =>
    simp only [Pass.step] at hk
    split at hk
    · exact .inl hk
    · exact .inl hk
  | scanning running waiting =>
    left
    simp only [Pass.step] at hk
    split at hk
    · split at hk
      · cases hk
      · simp only [carries, Bool.or_eq_true, List.any_eq_true, List.contains_iff_mem] at hk ⊢
        rcases hk with ⟨c, hc, hcarries⟩ | hk
        · obtain ⟨q, hq, rfl⟩ := List.mem_map.mp hc
          rw [Scan.carries, Bool.and_eq_true, beq_iff_eq] at hcarries
          exact .inr (hcarries.1 ▸ List.mem_of_mem_take hq)
        · exact .inr (List.mem_of_mem_drop hk)
    · split at hk
      · exact hk
      next c hpick =>
        simp only [carries, Bool.or_eq_true, List.any_eq_true] at hk ⊢
        rcases hk with ⟨d, hd, hcarries⟩ | hk
        · rcases List.mem_or_eq_of_mem_set hd with hd | rfl
          · exact .inl ⟨d, hd, hcarries⟩
          · exact .inl ⟨c, List.mem_of_getElem? hpick, Scan.carries_step setup world s c hcarries⟩
        · exact .inr hk
  | ended => cases hk

/-- A call carries only paths that the filter of some moment has accepted. -/
theorem Call.carries_step (setup : IndexSetup α) (world : World) (pick : Nat) (s : IndexState α) (c : Call)
    (hk : (c.step setup world pick s).2.1.carries k = true) :
    c.carries k = true ∨ (s.compiledFilter setup.root).2.accepts k = true := by
  cases c with
  | scan c =>
    left
    simp only [Call.step] at hk
    split at hk
    next => cases hk
    next => exact Scan.carries_step setup world s c hk
  | pass p =>
    refine Pass.carries_step setup world pick s p ?_
    simp only [Call.step] at hk
    split at hk
    next => cases hk
    next heq => rw [heq]; exact hk
  | passing p =>
    refine Pass.carries_step setup world pick s p ?_
    simp only [Call.step] at hk
    split at hk
    next => cases hk
    next heq => rw [heq]; exact hk
  | routing p =>
    right
    simp only [Call.step] at hk
    split at hk
    next haccepts =>
      simp only [carries, Scan.carries, Bool.and_eq_true, beq_iff_eq] at hk
      rw [← hk.1]
      exact haccepts
    next => cases hk
  | tracking p =>
    simp only [Call.step] at hk
    split at hk <;> cases hk
  | ended dropped => cases hk
  | _ =>
    simp only [Call.step] at hk
    split at hk <;> cases hk

/-- A full scan that has to drop the files goes on to do so by the filter of that moment, unless it cannot list
them. -/
theorem Pass.owes_step (world : World) (pick : Nat) {p : Pass} (hlive : s.isDisposed = false)
    (h : p.Owes (s.compiledFilter setup.root).2) :
    (∃ files, p = .dropping files) ∨
      (∃ filter e, p = .listing filter ∧ world.list setup.root filter = .error e) ∨
        ∃ q, ((Call.passing p).step setup world pick s).2.1 = .passing q ∧
          q.Owes (s.compiledFilter setup.root).2 := by
  cases p with
  | starting =>
    refine .inr (.inr ⟨.filtering, ?_, trivial⟩)
    simp only [Call.step, Pass.step, hlive, Bool.false_eq_true, if_false]
  | filtering => exact .inr (.inr ⟨_, rfl, rfl⟩)
  | listing filter =>
    obtain rfl : filter = (s.compiledFilter setup.root).2 := h
    cases hlist : world.list setup.root (s.compiledFilter setup.root).2 with
    | error e => exact .inr (.inl ⟨_, e, rfl, hlist⟩)
    | ok files =>
      refine .inr (.inr ⟨.dropping files, ?_, fun p hp => Disk.accepts_of_mem_list hlist hp⟩)
      simp only [Call.step, Pass.step, hlist]
  | dropping files => exact .inl ⟨files, rfl⟩
  | _ => exact h.elim

theorem Call.step_dropping (setup : IndexSetup α) (world : World) (pick : Nat) (s : IndexState α)
    (files : List Path) (k : Path) :
    ((Call.passing (.dropping files)).step setup world pick s).1 = (s.keepListed files).1 ∧
      ((Call.passing (.dropping files)).step setup world pick s).2.1.carries k = files.contains k := by
  rcases hkeep : s.keepListed files with ⟨t, notice⟩
  cases notice <;> simp [Call.step, Pass.step, hkeep, carries, Pass.carries]

/-- Of the calls that begin, only one that has been checked carries a path. -/
theorem IndexRequest.eq_scanFile_of_carries {request : IndexRequest} (hk : request.call.carries k = true) :
    request = .scanFile k := by
  cases request with
  | scanFile p =>
    rw [call, Call.carries, Scan.carries, Bool.and_eq_true, beq_iff_eq] at hk
    obtain rfl : p = k := hk.1
    rfl
  | fileEvent e => cases e <;> cases hk
  | _ => cases hk

namespace Run

variable {r : Run α} {n m t u d : Nat} {c : Call} {files : List Path}

/-- The filter of the globs of the moment. -/
def inForce (r : Run α) (t : Nat) : CorpusFilter :=
  .ofGlobs r.setup.root (r.index t).globs

/-- The index is new at first and is not disposed of, and a file is scanned on its own only where the filter
accepted it when the scan was called. The scan itself may begin later. -/
structure ChecksFirst (r : Run α) : Prop where
  start : ∃ globs, r.start = .new globs
  kept : ∀ t, r.moves t ≠ .dispose
  checked : ∀ t p, r.moves t = .start (.scanFile p) → (r.inForce t).accepts p = true

/-- A rescan is about to be asked for, or runs. -/
def IsRescanning (r : Run α) (t : Nat) : Prop :=
  ∃ n c, r.call? n t = some c ∧ (c = .requesting ∨ c.isPassing = true)

def Carries (r : Run α) (n t : Nat) (k : Path) : Prop :=
  (r.call? n t).any (Call.carries k) = true

/-- The path is tracked, or some call may still commit it. -/
def Knows (r : Run α) (t : Nat) (k : Path) : Prop :=
  k ∈ (r.index t).keys ∨ ∃ n, r.Carries n t k

/-- From the first moment to the second the globs have stayed the same. -/
def GlobsStand (r : Run α) (d t : Nat) : Prop :=
  ∀ u, d ≤ u → u ≤ t → (r.index u).globs = (r.index t).globs

/-- At the moment a rescan finds out that it cannot list the files. -/
def FailsToList (r : Run α) (t : Nat) : Prop :=
  ∃ n world filter e, r.Steps n t (.passing (.listing filter)) world ∧
    world.list r.setup.root filter = .error e

/-- At the moment a rescan drops every tracked file but some that the globs of the moment accept. -/
def Purges (r : Run α) (n t : Nat) : Prop :=
  ∃ files world, r.Steps n t (.passing (.dropping files)) world ∧ ∀ p ∈ files, (r.inForce t).accepts p = true

/-- A rescan that has to drop what the globs of the moment do not accept is asked for or under way. -/
inductive Due (r : Run α) (t : Nat) : Prop where
  | asked (n : Nat) (h : r.call? n t = some .requesting)
  | noted (h : (r.index t).rescanPending = true)
  | owed (n : Nat) (p : Pass) (h : r.call? n t = some (.passing p)) (owes : p.Owes (r.inForce t))

/-- What keeps a change of the globs from taking effect on a path: since then a rescan has come to list the
files, and either it could not, or it purged the index while another call had found the path to belong to the
corpus and was still to commit it; and so it was whenever a rescan has purged the index later. -/
def Outruns (r : Run α) (k : Path) (t : Nat) : Prop :=
  ∃ d < t, r.GlobsStand d t ∧ (r.FailsToList d ∨ ∃ n, r.Purges n d) ∧
    ∀ n u, d ≤ u → u < t → r.Purges n u → ∃ m, m ≠ n ∧ r.Carries m (u + 1) k

theorem carries_iff (h : r.call? n t = some c) : r.Carries n t k ↔ c.carries k = true := by
  rw [Carries, h, Option.any_some]

theorem ChecksFirst.live (h : r.ChecksFirst) (t : Nat) : (r.index t).isDisposed = false := by
  induction t with
  | zero =>
    obtain ⟨globs, hstart⟩ := h.start
    show r.start.isDisposed = false
    rw [hstart]
    rfl
  | succ t ih =>
    cases r.course t with
    | quiet idle stays passing running pending live => exact live ih
    | disposes move stays gone passing running pending => exact absurd move (h.kept t)
    | refused stays gone index passing => exact index ▸ ih
    | joins asks stays live running index passing => exact index ▸ live
    | takesOff n begins live idle index passing => exact index ▸ live
    | again n ends begins live pending index passing => exact index ▸ live
    | stops n ends stays satisfied index passing => exact index ▸ ih

theorem ChecksFirst.compiledFilter_eq (h : r.ChecksFirst) (t : Nat) :
    ((r.index t).compiledFilter r.setup.root).2 = r.inForce t := by
  obtain ⟨globs, hstart⟩ := h.start
  refine compiledFilter_snd (Reachable.filter_eq ⟨globs, r.moves, t, ?_⟩)
  rw [index, traffic, hstart]
  rfl

theorem knows_of_mem_keys (h : r.ChecksFirst) (hk : k ∈ (r.index (t + 1)).keys) : r.Knows t k := by
  rw [index, traffic_succ] at hk
  cases hmove : r.moves t with
  | advance n world pick =>
    rw [hmove, Traffic.step] at hk
    split at hk
    next => exact .inl hk
    next c hcall =>
      refine (Call.mem_keys_step r.setup world pick (r.index t) c hk).imp_right fun hcarries => ?_
      exact ⟨n, (carries_iff hcall).mpr hcarries⟩
  | dispose => exact absurd hmove (h.kept t)
  | snapshot =>
    have hsnapshot : (r.index t).snapshot.1.keys = (r.index t).keys := by
      rw [IndexState.snapshot]
      split <;> rfl
    rw [hmove] at hk
    exact .inl (hsnapshot ▸ hk)
  | _ =>
    rw [hmove] at hk
    exact .inl hk

theorem begins_of_none (h : r.call? n t = none) (hnext : r.call? n (t + 1) = some c) :
    ∃ request, r.moves t = .start request ∧ request.call = c := by
  rw [call?, traffic_succ] at hnext
  cases hmove : r.moves t with
  | start request =>
    have hlength := List.getElem?_eq_none_iff.mp h
    rw [hmove, Traffic.step, List.getElem?_append_right hlength] at hnext
    exact ⟨request, rfl, (List.mem_singleton.mp (List.mem_of_getElem? hnext)).symm⟩
  | advance m world pick =>
    rw [hmove, Traffic.step] at hnext
    split at hnext
    next => cases h.symm.trans hnext
    next =>
      rw [List.getElem?_eq_none] at hnext
      · cases hnext
      · rw [List.length_set]
        exact List.getElem?_eq_none_iff.mp h
  | _ =>
    rw [hmove] at hnext
    cases h.symm.trans hnext

theorem Carries.of_succ (h : r.ChecksFirst) (hk : r.Carries n (t + 1) k) :
    r.Carries n t k ∨ (r.inForce t).accepts k = true := by
  obtain ⟨d, hd, hcarries⟩ := (Option.any_eq_true _ _).mp hk
  cases hcall : r.call? n t with
  | none =>
    obtain ⟨request, hmove, rfl⟩ := begins_of_none hcall hd
    obtain rfl := IndexRequest.eq_scanFile_of_carries hcarries
    exact .inr (h.checked t k hmove)
  | some c =>
    rcases stays_or_steps hcall with hsame | ⟨world, steps⟩
    · rw [Option.some.inj (hd.symm.trans hsame)] at hcarries
      exact .inl ((carries_iff hcall).mpr hcarries)
    · obtain ⟨pick, -, hnext⟩ := steps.next
      rw [Option.some.inj (hd.symm.trans hnext)] at hcarries
      rw [carries_iff hcall, ← h.compiledFilter_eq t]
      exact Call.carries_step r.setup world pick (r.index t) c hcarries

/-- A path that the globs do not accept is not known anew. -/
theorem Knows.of_succ (h : r.ChecksFirst) (hk : r.Knows (t + 1) k) (hrejects : (r.inForce t).accepts k = false) :
    r.Knows t k := by
  rcases hk with hkey | ⟨n, hcarries⟩
  · exact knows_of_mem_keys h hkey
  · rcases hcarries.of_succ h with hcarries | haccepts
    · exact .inr ⟨n, hcarries⟩
    · rw [hrejects] at haccepts
      cases haccepts

theorem GlobsStand.mono (h : r.GlobsStand d t) (hdu : d ≤ u) (hut : u ≤ t) : r.GlobsStand d u :=
  fun v hdv hvu => (h v hdv (Nat.le_trans hvu hut)).trans (h u hdu hut).symm

theorem GlobsStand.inForce_eq (h : r.GlobsStand d t) (hdu : d ≤ u) (hut : u ≤ t) : r.inForce u = r.inForce t := by
  rw [inForce, h u hdu hut, inForce]

/-- While the globs stay the same, a path that they do not accept has been known all along. -/
theorem Knows.before (h : r.ChecksFirst) (hk : r.Knows t k) (hdt : d ≤ t) (hstand : r.GlobsStand d t)
    (hrejects : (r.inForce t).accepts k = false) : r.Knows d k := by
  induction t, hdt using Nat.le_induction with
  | base => exact hk
  | succ t hdt ih =>
    have hsame := hstand.inForce_eq hdt (Nat.le_succ t)
    rw [← hsame] at hrejects
    exact ih (hk.of_succ h hrejects) (hstand.mono hdt (Nat.le_succ t)) hrejects

theorem ChecksFirst.not_knows_zero (h : r.ChecksFirst) : ¬r.Knows 0 k := by
  obtain ⟨globs, hstart⟩ := h.start
  have hindex : r.index 0 = .new globs := hstart
  rintro (hkey | ⟨n, hcarries⟩)
  · rw [hindex] at hkey
    cases hkey
  · cases hcarries

/-! ### The rescan that follows a change -/

theorem due_of_asks (h : r.ChecksFirst) (hasks : r.Asks t ∨ (r.index t).rescanPending = true) : r.Due (t + 1) := by
  have hlive := h.live t
  cases r.course t with
  | quiet idle stays passing running pending live =>
    exact .noted (pending.trans (hasks.resolve_left idle.1))
  | disposes move stays gone passing running pending => exact absurd move (h.kept t)
  | refused stays gone index passing => simp [hlive] at gone
  | joins asks stays live running index passing => exact .noted (by rw [index])
  | takesOff n begins live idle index passing => exact .owed n .starting begins.2 trivial
  | again n ends begins live pending index passing => exact .owed n .starting begins.2 trivial
  | stops n ends stays satisfied index passing =>
    rcases hasks with hasks | hpending
    · obtain ⟨world, steps⟩ := ends
      cases steps.asks_iff.mp hasks
    · simp [hlive, hpending] at satisfied

theorem Due.succ (h : r.ChecksFirst) (hdue : r.Due t) (hglobs : (r.index (t + 1)).globs = (r.index t).globs) :
    r.Due (t + 1) ∨ r.FailsToList t ∨ ∃ n, r.Purges n t := by
  cases hdue with
  | asked n hcall =>
    rcases stays_or_steps hcall with hsame | ⟨world, steps⟩
    · exact .inl (.asked n hsame)
    · exact .inl (due_of_asks h (.inl ⟨n, world, steps⟩))
  | noted hpending => exact .inl (due_of_asks h (.inr hpending))
  | owed n p hcall owes =>
    have hinForce : r.inForce (t + 1) = r.inForce t := by rw [inForce, hglobs, inForce]
    rcases stays_or_steps hcall with hsame | ⟨world, steps⟩
    · exact .inl (.owed n p hsame (by rwa [hinForce]))
    · obtain ⟨pick, -, hnext⟩ := steps.next
      have howes := owes
      rw [← h.compiledFilter_eq t] at howes
      rcases Pass.owes_step world pick (h.live t) howes with
        ⟨files, rfl⟩ | ⟨filter, e, rfl, hlist⟩ | ⟨q, hq, hqowes⟩
      · exact .inr (.inr ⟨n, files, world, steps, owes⟩)
      · exact .inr (.inl ⟨n, world, filter, e, steps, hlist⟩)
      · rw [h.compiledFilter_eq t] at hqowes
        exact .inl (.owed n q (hnext.trans (congrArg some hq)) (by rwa [hinForce]))

/-- Where the globs change, the call that has set them is to ask for a rescan. -/
theorem due_of_globs_ne (hchange : (r.index (t + 1)).globs ≠ (r.index t).globs) : r.Due (t + 1) := by
  obtain ⟨n, globs, world, steps⟩ : ∃ n globs, r.Configures n t globs := by
    by_contra hnone
    push Not at hnone
    exact hchange (globs_succ hnone)
  have hglobs := Configures.globs_succ ⟨world, steps⟩
  obtain ⟨pick, -, hnext⟩ := steps.next
  have hset : (r.index t).setGlobs globs = ({ r.index t with globs := globs, filter := none }, true) := by
    rw [setGlobs, if_neg]
    exact fun heq => hchange (hglobs.trans heq.symm)
  simp only [Call.step, hset] at hnext
  exact .asked n hnext

/-- After a change of the globs, a rescan is due until one purges the index or cannot list the files. -/
theorem due_or_purges (h : r.ChecksFirst) (hchange : (r.index (u + 1)).globs ≠ (r.index u).globs) (hut : u < t)
    (hstand : r.GlobsStand (u + 1) t) :
    r.Due t ∨ ∃ d, u < d ∧ d < t ∧ (r.FailsToList d ∨ ∃ n, r.Purges n d) := by
  induction t, hut using Nat.le_induction with
  | base => exact .inl (due_of_globs_ne hchange)
  | succ t hut ih =>
    rcases ih (hstand.mono hut (Nat.le_succ t)) with hdue | ⟨d, hud, hdt, hdone⟩
    · rcases hdue.succ h (hstand t hut (Nat.le_succ t)).symm with hdue | hdone
      · exact .inl hdue
      · exact .inr ⟨t, hut, Nat.lt_succ_self t, hdone⟩
    · exact .inr ⟨d, hud, Nat.lt_succ_of_lt hdt, hdone⟩

theorem Due.isRescanning (hdue : r.Due t) (hr : r.Coordinated t) : r.IsRescanning t := by
  cases hdue with
  | asked n hcall => exact ⟨n, _, hcall, .inl rfl⟩
  | noted hpending =>
    obtain ⟨n, c, hcall, hpassing⟩ := hr.taken (hr.pending hpending)
    exact ⟨n, c, hcall, .inr hpassing⟩
  | owed n p hcall owes => exact ⟨n, _, hcall, .inr rfl⟩

/-- The globs have been the same from the beginning, or since some change. -/
theorem globsStand_or_change (r : Run α) (t : Nat) :
    r.GlobsStand 0 t ∨ ∃ u < t, (r.index (u + 1)).globs ≠ (r.index u).globs ∧ r.GlobsStand (u + 1) t := by
  have hself : ∀ t, r.GlobsStand t t := fun t v htv hvt => by rw [Nat.le_antisymm hvt htv]
  induction t with
  | zero => exact .inl (hself 0)
  | succ t ih =>
    by_cases hglobs : (r.index (t + 1)).globs = (r.index t).globs
    · have hextend : ∀ {d}, r.GlobsStand d t → r.GlobsStand d (t + 1) := fun hstand v hdv hvt => by
        rcases Nat.lt_succ_iff_lt_or_eq.mp (Nat.lt_succ_of_le hvt) with hvt | rfl
        · exact (hstand v hdv (Nat.le_of_lt_succ hvt)).trans hglobs.symm
        · rfl
      rcases ih with hstand | ⟨u, hut, hchange, hstand⟩
      · exact .inl (hextend hstand)
      · exact .inr ⟨u, Nat.lt_succ_of_lt hut, hchange, hextend hstand⟩
    · exact .inr ⟨t, Nat.lt_succ_self t, hglobs, hself (t + 1)⟩

/-- What the globs do not accept is not known any more after a purge, unless another call carries it. -/
theorem Purges.carries (hpurges : r.Purges n d) (hk : r.Knows (d + 1) k)
    (hrejected : ∀ p, p.same k = true → (r.inForce d).accepts p ≠ true) : ∃ m, m ≠ n ∧ r.Carries m (d + 1) k := by
  obtain ⟨files, world, steps, hfiles⟩ := hpurges
  obtain ⟨pick, hindex, hnext⟩ := steps.next
  obtain ⟨hkept, hown⟩ := Call.step_dropping r.setup world pick (r.index d) files k
  rcases hk with hkey | ⟨m, hcarries⟩
  · rw [hindex, hkept] at hkey
    obtain ⟨p, hp, hsame⟩ := List.any_eq_true.mp (mem_keys_keepFiles hkey).2
    exact absurd (hfiles p hp) (hrejected p hsame)
  · refine ⟨m, fun hmn => ?_, hcarries⟩
    subst hmn
    rw [carries_iff hnext, hown, List.contains_iff_mem] at hcarries
    exact absurd (hfiles k hcarries) (hrejected k (Path.same_refl k))

/-- Where files are entered only after their path has been checked, a change of the globs takes full effect
once no rescan is asked for or under way: every tracked path is, in some spelling of it, accepted by the filter
of the current globs. What keeps it from doing so is a rescan that could not list the files, or a call that had
found the path to belong to the corpus before the globs were replaced: it may outrun the rescan, which drops
what is tracked and leaves alone what is still being read. -/
theorem globs_take_effect_unless_outrun (h : r.ChecksFirst) (hidle : ¬r.IsRescanning t)
    (hk : k ∈ (r.index t).keys) :
    (∃ p, p.same k = true ∧ (r.inForce t).accepts p = true) ∨ r.Outruns k t := by
  by_contra hneither
  push Not at hneither
  obtain ⟨hrejected, houtruns⟩ := hneither
  have hrejects : (r.inForce t).accepts k = false := Bool.eq_false_iff.mpr (hrejected k (Path.same_refl k))
  rcases r.globsStand_or_change t with hstand | ⟨u, hut, hchange, hstand⟩
  · exact h.not_knows_zero (Knows.before h (.inl hk) (Nat.zero_le t) hstand hrejects)
  rcases due_or_purges h hchange hut hstand with hdue | ⟨d, hud, hdt, hdone⟩
  · obtain ⟨globs, hstart⟩ := h.start
    exact hidle (hdue.isRescanning (coordinated hstart t))
  have hsince : ∀ {v}, d ≤ v → r.GlobsStand v t := fun hdv w hvw hwt =>
    hstand w (Nat.le_trans hud (Nat.le_trans hdv hvw)) hwt
  refine houtruns ⟨d, hdt, hsince le_rfl, hdone, fun n v hdv hvt hpurges => ?_⟩
  -- the path was known right after the purge, since it has not become known anew
  have hknown : r.Knows (v + 1) k :=
    Knows.before h (.inl hk) hvt (hsince (Nat.le_succ_of_le hdv)) hrejects
  refine hpurges.carries hknown fun p hsame => ?_
  rw [(hsince hdv).inForce_eq le_rfl (Nat.le_of_lt hvt)]
  exact hrejected p hsame

/-- The feature file is scanned, and at moment `u` the globs are replaced; at the other moments one of the two
calls takes a step. -/
def narrowing (globs : Selection) (u : Nat) (turn : Nat → Nat) : Run Occurrence where
  setup := (UsageIndex.new ⟨"/w".toList⟩ ⟨["*.feature".toList], []⟩ 1 5).setup
  start := .new ⟨["*.feature".toList], []⟩
  moves t :=
    if t = 0 then .start (.scanFile ⟨"/w/a.feature".toList⟩)
    else if t = u then .start (.setGlobs globs)
    else .advance (turn t) featureWorld 0

theorem narrowing_checksFirst (globs : Selection) (u : Nat) (turn : Nat → Nat) :
    (narrowing globs u turn).ChecksFirst := by
  refine ⟨⟨_, rfl⟩, fun t hmove => ?_, fun t p hmove => ?_⟩
  · simp only [narrowing] at hmove
    split at hmove
    next => cases hmove
    next => split at hmove <;> cases hmove
  · simp only [narrowing] at hmove
    split at hmove
    next ht =>
      cases hmove
      subst ht
      show (CorpusFilter.ofGlobs ⟨"/w".toList⟩ ⟨["*.feature".toList], []⟩).accepts ⟨"/w/a.feature".toList⟩ = true
      decide +kernel
    next => split at hmove <;> cases hmove

theorem narrowing_world {globs : Selection} {turn : Nat → Nat} {pick : Nat}
    (hmove : (narrowing globs u turn).moves t = .advance n world pick) : world = featureWorld := by
  simp only [narrowing] at hmove
  split at hmove
  next => cases hmove
  next => split at hmove <;> cases hmove; rfl

theorem eq_ended_of_calls (hcalls : (r.traffic t).calls = [.ended false, .ended false])
    (hcall : r.call? n t = some c) : c = .ended false := by
  have hmem := List.mem_of_getElem? hcall
  rw [hcalls] at hmem
  simpa using hmem

/-- The file has been scanned when the globs are replaced by others that accept it as well. -/
def narrowedAfterScan : Run Occurrence :=
  narrowing ⟨["a.*".toList], []⟩ 6 fun t => if t < 6 then 0 else 1

theorem not_outruns_narrowedAfterScan : ¬narrowedAfterScan.Outruns ⟨"/w/a.feature".toList⟩ 20 := by
  have hlength : ∀ d < 22, (narrowedAfterScan.traffic d).calls.length ≤ 2 := by decide +kernel
  have hnumber : ∀ {n d c}, d < 22 → narrowedAfterScan.call? n d = some c → n < 2 := fun hd hcall =>
    Nat.lt_of_lt_of_le (List.getElem?_eq_some_iff.mp hcall).1 (hlength _ hd)
  have hpassing : ∀ d < 20, ∀ n < 2, (narrowedAfterScan.call? n d).any Call.isPassing = true → n = 1 ∧ 9 ≤ d := by
    decide +kernel
  have hended : ∀ d < 20, 9 ≤ d → (narrowedAfterScan.call? 0 (d + 1)).any
      (Call.carries ⟨"/w/a.feature".toList⟩) = false := by
    decide +kernel
  have hlists : ∀ filter, ∃ files, featureWorld.list narrowedAfterScan.setup.root filter = .ok files :=
    fun filter => ⟨_, rfl⟩
  rintro ⟨d, hd, -, ⟨n, world, filter, e, ⟨-, pick, hmove⟩, hlist⟩ | ⟨n, hpurges⟩, hcarried⟩
  · obtain rfl := narrowing_world hmove
    obtain ⟨files, hfiles⟩ := hlists filter
    cases hfiles.symm.trans hlist
  · obtain ⟨m, hmn, hm⟩ := hcarried n d le_rfl hd hpurges
    obtain ⟨files, world, ⟨hcall, -⟩, -⟩ := hpurges
    obtain ⟨rfl, hlate⟩ := hpassing d hd n (hnumber (by omega) hcall) (by rw [hcall]; rfl)
    obtain ⟨c, hc, -⟩ := (Option.any_eq_true _ _).mp hm
    have hsecond := hnumber (by omega) hc
    obtain rfl : m = 0 := by omega
    rw [Carries, hended d hd hlate] at hm
    cases hm

theorem globs_take_effect_unless_outrun_narrowedAfterScan :
    let r := narrowedAfterScan
    let p : Path := ⟨"/w/a.feature".toList⟩
    r.ChecksFirst ∧ ¬r.IsRescanning 20 ∧ p ∈ (r.index 20).keys ∧ ¬r.Outruns p 20 ∧
      ∃ q, q.same p = true ∧ (r.inForce 20).accepts q = true := by
  intro r p
  have hchecks : r.ChecksFirst := narrowing_checksFirst _ _ _
  have hidle : ¬r.IsRescanning 20 := by
    rintro ⟨n, c, hcall, hc⟩
    obtain rfl := eq_ended_of_calls (by decide +kernel) hcall
    rcases hc with hc | hc <;> cases hc
  have htracked : p ∈ (r.index 20).keys := by decide +kernel
  exact ⟨hchecks, hidle, htracked, not_outruns_narrowedAfterScan,
    (globs_take_effect_unless_outrun hchecks hidle htracked).resolve_right not_outruns_narrowedAfterScan⟩

/-- The globs are replaced while the file is being read, and the rescan is over before the read. -/
def narrowedMidRead : Run Occurrence :=
  narrowing ⟨["*.story".toList], []⟩ 2 fun t => if t < 2 then 0 else if t < 11 then 1 else 0

/-- In the end all calls are over, and the file is tracked although the globs do not accept it: its scan was
still to commit it when the rescan dropped what was tracked. -/
theorem not_globs_take_effect_narrowedMidRead :
    let r := narrowedMidRead
    let p : Path := ⟨"/w/a.feature".toList⟩
    r.ChecksFirst ∧ r.Purges 1 8 ∧ r.Carries 0 9 p ∧
      ¬∀ t, (∀ n c, r.call? n t = some c → c.isEnded = true) →
        ∀ k ∈ (r.index t).keys, (r.inForce t).accepts k = true := by
  intro r p
  have hdropping : r.call? 1 8 = some (.passing (.dropping [])) := by decide +kernel
  have hcarries : (r.call? 0 9).any (Call.carries p) = true := by decide +kernel
  have hpurges : r.Purges 1 8 := ⟨[], featureWorld, ⟨hdropping, 0, rfl⟩, List.forall_mem_nil _⟩
  refine ⟨narrowing_checksFirst _ _ _, hpurges, hcarries, fun hclaim => ?_⟩
  have hover : ∀ n c, r.call? n 15 = some c → c.isEnded = true := fun n c hcall => by
    obtain rfl := eq_ended_of_calls (by decide +kernel) hcall
    rfl
  have haccepts := hclaim 15 hover p (by decide +kernel)
  have hrejects : (r.inForce 15).accepts p = false := by decide +kernel
  rw [hrejects] at haccepts
  cases haccepts

end Run

end StepLink
