import Mathlib.Data.List.Perm.Basic
import StepLink.Proofs.Index.Cache

/-! What a step of a call tells. A change owes a telling to each subscriber of its moment. The call that has made
it carries the notice on, in a batch with the scan that has made it, and each further step of that part tells the
next subscriber. So the books of a step balance: what it tells and what the part carries afterwards is what the
part has carried before, and what the step comes to owe. -/

namespace StepLink

open IndexState

variable {α : Type} {setup : IndexSetup α} {s t : IndexState α}

/-- A subscriber is told of a version, and of the path whose change led to it. -/
structure Telling where
  subscriber : Nat
  version : Nat
  path : Option Path
  deriving DecidableEq

def Observation.telling? : Observation → Option Telling
  | told id version path => some ⟨id, version, path⟩
  | warned _ => none

def Observation.tellings (seen : List Observation) : List Telling :=
  seen.filterMap telling?

/-- What is still to be told of a change. -/
def Notice.tellings (n : Notice) : List Telling :=
  n.waiting.map fun id => ⟨id, n.version, n.path⟩

/-- What the notices say, if any, that a call carries. -/
def Scan.pending (c : Scan) : List Telling :=
  match c.stage with
  | .telling _ notice => notice.tellings
  | _ => []

def Pass.pending : Pass → List Telling
  | telling _ notice => notice.tellings
  | scanning running _ => running.flatMap Scan.pending
  | _ => []

def Call.pending : Call → List Telling
  | scan c => c.pending
  | removed notice => notice.tellings
  | pass p => p.pending
  | passing p => p.pending
  | _ => []

/-- What the notice says, if any, with which the next step of a full scan goes on: its own, or that of a scan in
flight. -/
def Pass.carried (pick : Nat) : Pass → List Telling
  | telling _ notice => notice.tellings
  | scanning running _ => running[pick]?.elim [] Scan.pending
  | _ => []

def Call.carried (pick : Nat) : Call → List Telling
  | scan c => c.pending
  | removed notice => notice.tellings
  | pass p => p.carried pick
  | passing p => p.carried pick
  | _ => []

/-- The path of the change that a full scan may make with its next step: that of a scan in flight, or none when
it drops what is not listed. -/
def Pass.change? (pick : Nat) : Pass → Option (Option Path)
  | dropping _ => some none
  | scanning running _ => running[pick]?.map fun c => some c.path
  | _ => none

/-- The path of the change that a call may make with its next step, if it may make one. -/
def Call.change? (pick : Nat) : Call → Option (Option Path)
  | scan c => some (some c.path)
  | removing p => some (some p)
  | pass p => p.change? pick
  | passing p => p.change? pick
  | _ => none

/-- The move is a step of a call that the scan at a place takes, if the call has several in flight. -/
def Move.turns (n pick : Nat) : Move → Bool
  | .advance m _ q => m == n && q == pick
  | _ => false

/-- What is owed where the first state turns into the second: if the version is raised, a telling to each
subscriber of that moment. -/
def IndexState.due (s t : IndexState α) (path : Option Path) : List Telling :=
  if t.version = s.version then [] else s.subscribers.map fun id => ⟨id, t.version, path⟩

theorem due_eq_nil (h : t.version = s.version) (path : Option Path) : s.due t path = [] :=
  if_pos h

theorem due_revise (files : List (Path × List α)) (path : Option Path) :
    s.due (s.revise files) path = Notice.tellings ⟨s.version + 1, path, s.subscribers⟩ :=
  if_neg (Nat.succ_ne_self s.version)

/-- The books of a step: what it has told, and what the part of the call that takes it carries before and after. -/
structure Balanced (change : Option (Option Path)) (s t : IndexState α) (before after told : List Telling) :
    Prop where
  balance : told ++ after = before ++ s.due t change.join
  next : told = before.take 1
  unchanged : change = none ∨ before ≠ [] → t.version = s.version

theorem Balanced.quiet {change : Option (Option Path)} (h : t.version = s.version) :
    Balanced change s t [] [] [] where
  balance := by rw [due_eq_nil h]
  next := rfl
  unchanged := fun _ => h

theorem Balanced.tell {change : Option (Option Path)} (notice : Notice) :
    Balanced change s s notice.tellings (notice.tell.1.elim [] Notice.tellings)
      (Observation.tellings notice.tell.2) := by
  obtain ⟨version, path, ids⟩ := notice
  cases ids with
  | nil => exact .quiet rfl
  | cons id ids => exact ⟨by rw [due_eq_nil rfl, List.append_nil]; rfl, rfl, fun _ => rfl⟩

/-- A change that nothing has been told of yet. -/
theorem Balanced.owe {path : Option Path} {after : List Telling} (h : after = s.due t path) :
    Balanced (some path) s t [] after [] where
  balance := by rw [h, List.nil_append, List.nil_append, Option.join_some]
  next := rfl
  unchanged := fun hnone => hnone.elim (fun heq => by cases heq) (absurd rfl)

theorem commit_due (same : α → α → Bool) (s : IndexState α) (p : Path) (items : List α) :
    (s.commit same p items).2.elim [] Notice.tellings = s.due (s.commit same p items).1 (some p) := by
  have hentered := due_revise (s := s) (enterFile s.files p items) (some p)
  cases hd : s.isDisposed with
  | true => simp [commit, hd, due_eq_nil]
  | false =>
    cases hi : s.items? p with
    | none =>
      simp only [commit, hd, hi, Bool.false_eq_true, if_false]
      exact hentered.symm
    | some previous =>
      cases ha : agree same previous items with
      | true => simp [commit, hd, hi, ha, due_eq_nil]
      | false =>
        simp only [commit, hd, hi, ha, Bool.false_eq_true, if_false]
        exact hentered.symm

theorem keepFiles_due (s : IndexState α) (test : Path → Bool) (path : Option Path) :
    (s.keepFiles test path).2.elim [] Notice.tellings = s.due (s.keepFiles test path).1 path := by
  have hdropped := due_revise (s := s) (s.files.filter fun entry => test entry.1) path
  rw [keepFiles]
  split
  next => exact (due_eq_nil rfl path).symm
  next => exact hdropped.symm

theorem dropBelow_due (s : IndexState α) (p : Path) (again : Bool) :
    (s.dropBelow p again).2.elim [] Notice.tellings = s.due (s.dropBelow p again).1 (some p) := by
  have hkeep := keepFiles_due (if again then s.requeue fun q => q.startsWith p else s)
    (fun q => !q.startsWith p) (some p)
  cases again <;> exact hkeep

theorem compiledFilter_version (root : Path) (s : IndexState α) : (s.compiledFilter root).1.version = s.version := by
  rw [compiledFilter]
  split <;> rfl

theorem Scan.pending_afterCommit (c : Scan) (replays : Nat) (notice : Option Notice) :
    (c.afterCommit replays notice).pending = notice.elim [] Notice.tellings := by
  cases notice <;> rfl

theorem Scan.balanced (setup : IndexSetup α) (world : World) (s : IndexState α) (c : Scan) :
    Balanced (some (some c.path)) s (c.step setup world s).1 c.pending (c.step setup world s).2.1.pending
      (Observation.tellings (c.step setup world s).2.2) := by
  obtain ⟨p, stage⟩ := c
  cases stage with
  | entering =>
    have hversion : (s.enterScan p).1.version = s.version := by
      rw [enterScan]
      split
      · rfl
      · split <;> rfl
    rcases henter : s.enterScan p with ⟨s', _ | _⟩ <;> simp only [Scan.step, henter] <;>
      exact .quiet (by simpa [henter] using hversion)
  | reading replays => exact .quiet rfl
  | holding replays found =>
    cases found with
    | ok text =>
      have hwarned : Observation.tellings ((setup.report p text).map fun u => .warned (.skippedDefinition u)) =
          [] := by
        rw [Observation.tellings, List.filterMap_map]
        exact List.filterMap_none _
      simp only [Scan.step, hwarned, pending_afterCommit]
      exact .owe (commit_due ..)
    | error e =>
      simp only [Scan.step, pending_afterCommit]
      exact .owe (dropBelow_due ..)
  | telling replays notice =>
    simp only [Scan.step, pending_afterCommit]
    exact .tell notice
  | deciding replays =>
    have hversion : (s.decideReplay setup.maxReplays p replays).1.version = s.version := by
      rw [decideReplay]
      split <;> rfl
    rcases hdecide : s.decideReplay setup.maxReplays p replays with ⟨s', _ | _ | _⟩ <;>
      simp only [Scan.step, hdecide] <;> exact .quiet (by simpa [hdecide] using hversion)
  | ended givenUp => exact .quiet rfl

theorem Scan.pending_of_isEnded {c : Scan} (h : c.isEnded = true) : c.pending = [] := by
  obtain ⟨p, stage⟩ := c
  cases stage with
  | ended givenUp => rfl
  | _ => cases h

/-- What a part carries, the whole carries. -/
theorem Pass.carried_subset (p : Pass) (pick : Nat) : p.carried pick ⊆ p.pending := by
  cases p with
  | telling files notice => exact List.Subset.refl _
  | scanning running waiting =>
    intro τ hτ
    rw [carried] at hτ
    cases hc : running[pick]? with
    | none => simp [hc] at hτ
    | some c =>
      rw [hc] at hτ
      exact List.mem_flatMap.mpr ⟨c, List.mem_of_getElem? hc, hτ⟩
  | _ => exact List.nil_subset _

theorem Pass.carried_eq_nil {p : Pass} (h : p.pending = []) (pick : Nat) : p.carried pick = [] :=
  List.subset_nil.mp (h ▸ p.carried_subset pick)

theorem Pass.pending_of_all_isEnded {running : List Scan} (h : running.all Scan.isEnded = true)
    (waiting : List Path) : (scanning running waiting).pending = [] :=
  List.flatMap_eq_nil_iff.mpr fun c hc => Scan.pending_of_isEnded (List.all_eq_true.mp h c hc)

theorem Pass.pending_entering (files waiting : List Path) :
    (scanning (files.map fun p => ⟨p, .entering⟩) waiting).pending = [] := by
  rw [pending, List.flatMap_map, List.flatMap_eq_nil_iff]
  exact fun p _ => rfl

theorem Pass.balanced (setup : IndexSetup α) (world : World) (pick : Nat) (s : IndexState α) (p : Pass) :
    Balanced (p.change? pick) s (p.step setup world pick s).1 (p.carried pick)
      ((p.step setup world pick s).2.1.carried pick) (Observation.tellings (p.step setup world pick s).2.2) := by
  cases p with
  | starting =>
    simp only [Pass.step]
    split <;> exact .quiet rfl
  | filtering => exact .quiet (compiledFilter_version setup.root s)
  | listing filter =>
    simp only [Pass.step]
    split <;> exact .quiet rfl
  | dropping files =>
    have hdue := keepFiles_due s (fun q => files.any fun p => p.same q) none
    rcases hkeep : s.keepListed files with ⟨s', _ | notice⟩ <;> simp only [Pass.step, hkeep] <;>
      rw [keepListed] at hkeep <;> rw [hkeep] at hdue <;> exact .owe hdue
  | telling files notice =>
    have htell : Balanced none s s _ _ _ := .tell notice
    rcases hnext : notice.tell with ⟨_ | notice', told⟩ <;> simp only [Pass.step, hnext] <;>
      rw [hnext] at htell <;> exact htell
  | scanning running waiting =>
    simp only [Pass.step]
    split
    next hended =>
      rw [carried_eq_nil (pending_of_all_isEnded hended waiting)]
      split
      next => exact .quiet rfl
      next =>
        rw [carried_eq_nil (pending_entering ..)]
        exact .quiet rfl
    next =>
      split
      next hnone =>
        have hcarried : (scanning running waiting).carried pick = [] := by rw [carried, hnone]; rfl
        rw [hcarried]
        exact .quiet rfl
      next c hc =>
        obtain ⟨hlt, -⟩ := List.getElem?_eq_some_iff.mp hc
        have hscan := Scan.balanced setup world s c
        simp only [change?, carried, hc, List.getElem?_set_self hlt]
        exact hscan
  | ended => exact .quiet rfl

theorem Call.balanced (setup : IndexSetup α) (world : World) (pick : Nat) (s : IndexState α) (c : Call) :
    Balanced (c.change? pick) s (c.step setup world pick s).1 (c.carried pick)
      ((c.step setup world pick s).2.1.carried pick) (Observation.tellings (c.step setup world pick s).2.2) := by
  cases c with
  | scan c =>
    have hscan := Scan.balanced setup world s c
    simp only [Call.step]
    split
    next hended =>
      rw [Scan.pending_of_isEnded hended] at hscan
      exact hscan
    next => exact hscan
  | removing p =>
    have hdue := dropBelow_due s p true
    rcases hdrop : s.dropBelow p true with ⟨s', _ | notice⟩ <;> simp only [Call.step, hdrop] <;>
      rw [hdrop] at hdue <;> exact .owe hdue
  | removed notice =>
    have htell : Balanced none s s _ _ _ := .tell notice
    rcases hnext : notice.tell with ⟨_ | notice', told⟩ <;> simp only [Call.step, hnext] <;>
      rw [hnext] at htell <;> exact htell
  | pass p =>
    have hpass := Pass.balanced setup world pick s p
    rcases hstep : p.step setup world pick s with ⟨s', p', seen⟩
    rw [hstep] at hpass
    cases p' <;> simp only [Call.step, hstep] <;> exact hpass
  | requesting =>
    have hversion : s.requestRescan.1.version = s.version := by
      rw [requestRescan]
      split
      · rfl
      · split <;> rfl
    rcases hrequest : s.requestRescan with ⟨s', _ | _⟩ <;> simp only [Call.step, hrequest] <;>
      exact .quiet (by simpa [hrequest] using hversion)
  | passing p =>
    have hpass := Pass.balanced setup world pick s p
    rcases hstep : p.step setup world pick s with ⟨s', p', seen⟩
    rw [hstep] at hpass
    cases p' <;> simp only [Call.step, hstep] <;> exact hpass
  | closing =>
    have hversion : s.finishPass.1.version = s.version := by
      rw [finishPass]
      split <;> rfl
    rcases hfinish : s.finishPass with ⟨s', _ | _⟩ <;> simp only [Call.step, hfinish] <;>
      exact .quiet (by simpa [hfinish] using hversion)
  | routing p =>
    simp only [Call.step]
    split <;> exact .quiet (compiledFilter_version setup.root s)
  | tracking p =>
    simp only [Call.step]
    split <;> exact .quiet rfl
  | configuring globs =>
    have hversion : (s.setGlobs globs).1.version = s.version := by
      rw [setGlobs]
      split <;> rfl
    rcases hset : s.setGlobs globs with ⟨s', _ | _⟩ <;> simp only [Call.step, hset] <;>
      exact .quiet (by simpa [hset] using hversion)
  | activating =>
    have hversion : s.activate.1.version = s.version := by
      rw [IndexState.activate]
      split <;> rfl
    rcases hactivate : s.activate with ⟨s', _ | _⟩ <;> simp only [Call.step, hactivate] <;>
      exact .quiet (by simpa [hactivate] using hversion)
  | ended dropped => exact .quiet rfl

/-- From the place that takes a step to the others: in a batch each of them keeps what it carries, and where there
is one part only, it is the same at every place. -/
structure Spares (pick : Nat) (before after : Nat → List Telling) (pending pending' : List Telling) : Prop where
  others : ∃ others, pending.Perm (before pick ++ others) ∧ pending'.Perm (after pick ++ others)
  aside : ∀ q, before q ≠ [] → after q = before q ∨ before q = before pick ∧ after q = after pick

theorem Spares.whole {pick : Nat} {before after : Nat → List Telling} {pending pending' : List Telling}
    (h : ∀ q, before q = pending) (h' : ∀ q, after q = pending') : Spares pick before after pending pending' where
  others := ⟨[], by rw [h, List.append_nil], by rw [h', List.append_nil]⟩
  aside q _ := .inr ⟨(h q).trans (h pick).symm, (h' q).trans (h' pick).symm⟩

theorem Pass.spares (setup : IndexSetup α) (world : World) (pick : Nat) (s : IndexState α) (p : Pass) :
    Spares pick (fun q => p.carried q) (fun q => (p.step setup world pick s).2.1.carried q) p.pending
      (p.step setup world pick s).2.1.pending := by
  cases p with
  | starting =>
    simp only [Pass.step]
    split <;> exact .whole (fun _ => rfl) fun _ => rfl
  | filtering => exact .whole (fun _ => rfl) fun _ => rfl
  | listing filter =>
    simp only [Pass.step]
    split <;> exact .whole (fun _ => rfl) fun _ => rfl
  | dropping files =>
    simp only [Pass.step]
    split <;> exact .whole (fun _ => rfl) fun _ => rfl
  | telling files notice =>
    simp only [Pass.step]
    split <;> exact .whole (fun _ => rfl) fun _ => rfl
  | scanning running waiting =>
    simp only [Pass.step]
    split
    next hended =>
      have hnone := pending_of_all_isEnded hended waiting
      rw [hnone]
      split
      next => exact .whole (carried_eq_nil hnone) fun _ => rfl
      next =>
        rw [pending_entering]
        exact .whole (carried_eq_nil hnone) (carried_eq_nil (pending_entering ..))
    next =>
      split
      next hnone =>
        have hcarried : (scanning running waiting).carried pick = [] := by rw [carried, hnone]; rfl
        exact ⟨⟨_, by rw [hcarried]; exact .refl _, by rw [hcarried]; exact .refl _⟩, fun q _ => .inl rfl⟩
      next c hc =>
        obtain ⟨hlt, hget⟩ := List.getElem?_eq_some_iff.mp hc
        generalize (c.step setup world s).2.1 = d
        refine ⟨⟨(running.eraseIdx pick).flatMap Scan.pending, ?_, ?_⟩, fun q _ => ?_⟩
        · have hperm := (List.getElem_cons_eraseIdx_perm hlt).symm.flatMap_right Scan.pending
          rw [hget] at hperm
          simp only [carried, hc]
          exact hperm
        · simp only [carried, List.getElem?_set_self hlt]
          exact (List.set_perm_cons_eraseIdx hlt d).flatMap_right Scan.pending
        · by_cases hq : pick = q
          · subst hq
            exact .inr ⟨rfl, rfl⟩
          · refine .inl ?_
            simp only [carried, List.getElem?_set_ne hq]
  | ended => exact .whole (fun _ => rfl) fun _ => rfl

theorem Call.spares (setup : IndexSetup α) (world : World) (pick : Nat) (s : IndexState α) (c : Call) :
    Spares pick (fun q => c.carried q) (fun q => (c.step setup world pick s).2.1.carried q) c.pending
      (c.step setup world pick s).2.1.pending := by
  cases c with
  | pass p =>
    have hpass := Pass.spares setup world pick s p
    rcases hstep : p.step setup world pick s with ⟨s', p', seen⟩
    rw [hstep] at hpass
    cases p' <;> simp only [Call.step, hstep] <;> exact hpass
  | passing p =>
    have hpass := Pass.spares setup world pick s p
    rcases hstep : p.step setup world pick s with ⟨s', p', seen⟩
    rw [hstep] at hpass
    cases p' <;> simp only [Call.step, hstep] <;> exact hpass
  | ended dropped => exact .whole (fun _ => rfl) fun _ => rfl
  | _ =>
    simp only [Call.step]
    split <;> exact .whole (fun _ => rfl) fun _ => rfl

end StepLink
