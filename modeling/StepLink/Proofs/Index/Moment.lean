import StepLink.Proofs.Index.Freshness

/-! The moments of any run of an index. Whatever calls there are, at a moment a call begins, or one of them
takes a step, or the index is disposed of, or nothing happens that scans and rescans take notice of. -/

namespace StepLink

open IndexState

variable {α : Type} {setup : IndexSetup α} {world : World} {s t u : IndexState α}

/-- The states agree in the lifecycle, in the globs and in where a rescan stands. -/
structure SameCourse (s t : IndexState α) : Prop where
  lifecycle : t.lifecycle = s.lifecycle
  globs : t.globs = s.globs
  running : t.rescanRunning = s.rescanRunning
  pending : t.rescanPending = s.rescanPending

namespace SameCourse

theorem refl (s : IndexState α) : SameCourse s s :=
  ⟨rfl, rfl, rfl, rfl⟩

theorem trans (hst : SameCourse s t) (htu : SameCourse t u) : SameCourse s u where
  lifecycle := htu.lifecycle.trans hst.lifecycle
  globs := htu.globs.trans hst.globs
  running := htu.running.trans hst.running
  pending := htu.pending.trans hst.pending

theorem isDisposed (h : SameCourse s t) : t.isDisposed = s.isDisposed := by
  rw [IndexState.isDisposed, h.lifecycle, IndexState.isDisposed]

theorem keepFiles (s : IndexState α) (test : Path → Bool) (path : Option Path) :
    SameCourse s (s.keepFiles test path).1 := by
  rw [keepFiles_fst]
  split <;> exact ⟨rfl, rfl, rfl, rfl⟩

theorem dropBelow (s : IndexState α) (p : Path) (again : Bool) : SameCourse s (s.dropBelow p again).1 := by
  have hkeep := keepFiles (if again then s.requeue fun q => q.startsWith p else s)
    (fun q => !q.startsWith p) (some p)
  rw [dropBelow_fst]
  cases again <;> exact ⟨hkeep.lifecycle, hkeep.globs, hkeep.running, hkeep.pending⟩

theorem compiledFilter (root : Path) (s : IndexState α) : SameCourse s (s.compiledFilter root).1 := by
  rw [IndexState.compiledFilter]
  split <;> exact ⟨rfl, rfl, rfl, rfl⟩

/-- Scans have no part in the lifecycle and in rescans. -/
theorem scan (setup : IndexSetup α) (world : World) (s : IndexState α) (c : Scan) :
    SameCourse s (c.step setup world s).1 := by
  obtain ⟨p, stage⟩ := c
  cases stage with
  | entering =>
    have henter : SameCourse s (s.enterScan p).1 := by
      rw [enterScan]
      split
      · exact refl s
      · split <;> exact ⟨rfl, rfl, rfl, rfl⟩
    simp only [Scan.step]
    split <;> simp_all
  | reading replays => exact refl s
  | holding replays found =>
    cases found with
    | ok text =>
      have hcommit : SameCourse s (s.commit setup.same p (setup.parse p text)).1 := by
        rw [commit_fst]
        split <;> exact ⟨rfl, rfl, rfl, rfl⟩
      exact hcommit
    | error e => exact dropBelow s p false
  | telling replays notice => exact refl s
  | deciding replays =>
    have hdecide : SameCourse s (s.decideReplay setup.maxReplays p replays).1 := by
      rw [decideReplay]
      split <;> exact ⟨rfl, rfl, rfl, rfl⟩
    simp only [Scan.step]
    split <;> simp_all
  | ended givenUp => exact refl s

theorem pass (setup : IndexSetup α) (world : World) (pick : Nat) (s : IndexState α) (p : Pass) :
    SameCourse s (p.step setup world pick s).1 := by
  cases p with
  | starting => exact refl s
  | filtering => exact compiledFilter setup.root s
  | listing filter =>
    simp only [Pass.step]
    split <;> exact refl s
  | dropping files =>
    have hkeep : SameCourse s (s.keepListed files).1 := keepFiles s _ none
    simp only [Pass.step]
    split <;> simp_all
  | telling files notice =>
    simp only [Pass.step]
    split <;> exact refl s
  | scanning running waiting =>
    simp only [Pass.step]
    split
    · split <;> exact refl s
    · split
      · exact refl s
      · exact scan setup world s _
  | ended => exact refl s

end SameCourse

/-- The next step of the call may change the lifecycle, the globs or where a rescan stands. -/
def Call.steers : Call → Bool
  | .requesting => true
  | .closing => true
  | .configuring _ => true
  | .activating => true
  | _ => false

theorem Call.step_course (setup : IndexSetup α) (world : World) (pick : Nat) (s : IndexState α) {c : Call}
    (h : c.steers = false) : SameCourse s (c.step setup world pick s).1 := by
  cases c with
  | scan c => exact .scan setup world s c
  | removing p =>
    have hdrop := SameCourse.dropBelow s p true
    simp only [Call.step]
    split <;> simp_all
  | removed notice =>
    simp only [Call.step]
    split <;> exact .refl s
  | pass p =>
    have hpass := SameCourse.pass setup world pick s p
    simp only [Call.step]
    split <;> simp_all
  | passing p =>
    have hpass := SameCourse.pass setup world pick s p
    simp only [Call.step]
    split <;> simp_all
  | routing p => exact .compiledFilter setup.root s
  | tracking p => exact .refl s
  | ended dropped => exact .refl s
  | _ => cases h

namespace Run

variable {r : Run α} {n m t : Nat}

theorem section_succ (r : Run α) (t : Nat) : Section r.setup (r.index t) (r.index (t + 1)) :=
  Traffic.step_section r.setup (r.traffic t) (r.moves t)

/-- What happens at one moment of a run. -/
inductive Happens (r : Run α) (t : Nat) : Prop where
  | begins (request : IndexRequest) (quiet : ∀ n c world, ¬r.Steps n t c world)
    (index : r.index (t + 1) = r.index t)
    (calls : ∀ n, r.call? n (t + 1) = r.call? n t ∨
      r.call? n t = none ∧ r.call? n (t + 1) = some request.call)
  | steps (n : Nat) (c : Call) (world : World) (pick : Nat) (move : r.moves t = .advance n world pick)
    (call : r.call? n t = some c) (index : r.index (t + 1) = (c.step r.setup world pick (r.index t)).1)
    (calls : ∀ m, r.call? m (t + 1) =
      if n = m then some (c.step r.setup world pick (r.index t)).2.1 else r.call? m t)
  | disposes (move : r.moves t = .dispose) (quiet : ∀ n c world, ¬r.Steps n t c world)
    (index : r.index (t + 1) = (r.index t).dispose) (calls : ∀ n, r.call? n (t + 1) = r.call? n t)
  | rests (quiet : ∀ n c world, ¬r.Steps n t c world) (course : SameCourse (r.index t) (r.index (t + 1)))
    (scanning : (r.index (t + 1)).scanning = (r.index t).scanning)
    (calls : ∀ n, r.call? n (t + 1) = r.call? n t)

theorem next_of_same_calls (h : r.traffic (t + 1) = ⟨s, (r.traffic t).calls⟩) :
    r.index (t + 1) = s ∧ ∀ n, r.call? n (t + 1) = r.call? n t :=
  ⟨congrArg Traffic.index h, fun n => congrArg (·.calls[n]?) h⟩

theorem happens (r : Run α) (t : Nat) : r.Happens t := by
  have hquiet : (∀ n world pick, r.moves t ≠ .advance n world pick) → ∀ n c world, ¬r.Steps n t c world :=
    fun hmove n c world ⟨_, pick, hadvance⟩ => hmove n world pick hadvance
  cases hmove : r.moves t with
  | start request =>
    have hnext : r.traffic (t + 1) = ⟨r.index t, (r.traffic t).calls ++ [request.call]⟩ := by
      rw [traffic_succ, hmove]
      rfl
    refine .begins request (hquiet fun n world pick h => by cases hmove.symm.trans h) ?_ fun n => ?_
    · rw [index, hnext]
    · have hcall : r.call? n (t + 1) = ((r.traffic t).calls ++ [request.call])[n]? := by rw [call?, hnext]
      rcases Nat.lt_trichotomy n (r.traffic t).calls.length with hlt | heq | hgt
      · exact .inl (hcall.trans (List.getElem?_append_left hlt))
      · refine .inr ⟨List.getElem?_eq_none (Nat.le_of_eq heq.symm), hcall.trans ?_⟩
        rw [heq, List.getElem?_concat_length]
      · refine .inl (hcall.trans ?_)
        rw [call?, List.getElem?_eq_none (Nat.le_of_lt hgt), List.getElem?_eq_none]
        rw [List.length_append]
        exact hgt
  | advance n world pick =>
    cases hcall : r.call? n t with
    | none =>
      have hnext : r.traffic (t + 1) = ⟨r.index t, (r.traffic t).calls⟩ := by
        rw [call?] at hcall
        rw [traffic_succ, hmove, Traffic.step, hcall]
        rfl
      obtain ⟨hindex, hcalls⟩ := next_of_same_calls hnext
      refine .rests ?_ (hindex ▸ .refl _) (congrArg IndexState.scanning hindex) hcalls
      rintro m c other ⟨hm, pick', hadvance⟩
      obtain ⟨rfl, -, -⟩ := Move.advance.inj (hmove.symm.trans hadvance)
      rw [hcall] at hm
      cases hm
    | some c =>
      have hnext : r.traffic (t + 1) = ⟨(c.step r.setup world pick (r.index t)).1,
          (r.traffic t).calls.set n (c.step r.setup world pick (r.index t)).2.1⟩ := by
        rw [call?] at hcall
        rw [traffic_succ, hmove, Traffic.step, hcall]
        rfl
      refine .steps n c world pick hmove hcall (by rw [index, hnext]) fun m => ?_
      obtain ⟨hn, -⟩ := List.getElem?_eq_some_iff.mp hcall
      rw [call?, hnext, List.getElem?_set, if_pos hn]
      rfl
  | dispose =>
    obtain ⟨hindex, hcalls⟩ := next_of_same_calls (r := r) (by rw [traffic_succ, hmove]; rfl)
    exact .disposes hmove (hquiet fun n world pick h => by cases hmove.symm.trans h) hindex hcalls
  | snapshot =>
    obtain ⟨hindex, hcalls⟩ := next_of_same_calls (r := r) (by rw [traffic_succ, hmove]; rfl)
    have hsnapshot : SameCourse (r.index t) (r.index t).snapshot.1 ∧
        (r.index t).snapshot.1.scanning = (r.index t).scanning := by
      rw [IndexState.snapshot]
      split <;> exact ⟨⟨rfl, rfl, rfl, rfl⟩, rfl⟩
    exact .rests (hquiet fun n world pick h => by cases hmove.symm.trans h) (hindex ▸ hsnapshot.1)
      (hindex ▸ hsnapshot.2) hcalls
  | subscribe =>
    obtain ⟨hindex, hcalls⟩ := next_of_same_calls (r := r) (by rw [traffic_succ, hmove]; rfl)
    exact .rests (hquiet fun n world pick h => by cases hmove.symm.trans h)
      (hindex ▸ ⟨rfl, rfl, rfl, rfl⟩) (hindex ▸ rfl) hcalls
  | unsubscribe id =>
    obtain ⟨hindex, hcalls⟩ := next_of_same_calls (r := r) (by rw [traffic_succ, hmove]; rfl)
    exact .rests (hquiet fun n world pick h => by cases hmove.symm.trans h)
      (hindex ▸ ⟨rfl, rfl, rfl, rfl⟩) (hindex ▸ rfl) hcalls

/-- A call that is advanced takes its next step. -/
theorem step_of_move {c : Call} {pick : Nat} (hmove : r.moves t = .advance n world pick)
    (hcall : r.call? n t = some c) :
    r.index (t + 1) = (c.step r.setup world pick (r.index t)).1 ∧
      r.call? n (t + 1) = some (c.step r.setup world pick (r.index t)).2.1 := by
  cases r.happens t with
  | steps m d other choice move call index calls =>
    obtain ⟨rfl, rfl, rfl⟩ := Move.advance.inj (hmove.symm.trans move)
    obtain rfl := Option.some.inj (hcall.symm.trans call)
    exact ⟨index, (calls n).trans (if_pos rfl)⟩
  | begins request quiet index calls => exact absurd ⟨hcall, pick, hmove⟩ (quiet n c world)
  | disposes move quiet index calls => exact absurd ⟨hcall, pick, hmove⟩ (quiet n c world)
  | rests quiet course scanning calls => exact absurd ⟨hcall, pick, hmove⟩ (quiet n c world)

theorem stays_or_steps {c : Call} (h : r.call? n t = some c) :
    r.call? n (t + 1) = some c ∨ ∃ world, r.Steps n t c world := by
  cases r.happens t with
  | begins request quiet index calls =>
    rcases calls n with hsame | ⟨hnone, -⟩
    · exact .inl (hsame.trans h)
    · cases hnone.symm.trans h
  | disposes move quiet index calls => exact .inl ((calls n).trans h)
  | rests quiet course scanning calls => exact .inl ((calls n).trans h)
  | steps m c' world pick move call index calls =>
    by_cases hmn : m = n
    · subst hmn
      exact .inr ⟨world, h, pick, move⟩
    · exact .inl ((calls n).trans ((if_neg hmn).trans h))

theorem Steps.next {c : Call} (steps : r.Steps n t c world) :
    ∃ pick, r.index (t + 1) = (c.step r.setup world pick (r.index t)).1 ∧
      r.call? n (t + 1) = some (c.step r.setup world pick (r.index t)).2.1 := by
  obtain ⟨hcall, pick, hmove⟩ := steps
  exact ⟨pick, step_of_move hmove hcall⟩

end Run

end StepLink
