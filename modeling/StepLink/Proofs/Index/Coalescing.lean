import StepLink.Proofs.Index.Moment
import Mathlib.Data.Nat.Init
import Mathlib.Data.Nat.Find

/-! Rescans. Of all the calls that ask for a rescan one runs its passes; a request that comes in while a pass
is running is answered by one further pass, which begins where that pass ends. No request is lost unless the
index is disposed of first, and a pass lists the files by the globs that were set last before it began. -/

namespace StepLink

open IndexState

variable {α : Type} {setup : IndexSetup α} {world : World} {s t : IndexState α}

/-- The call runs the passes of a rescan. -/
def Call.isPassing : Call → Bool
  | .passing _ => true
  | .closing => true
  | _ => false

/-- The globs that the next step of the call sets. -/
def Call.globs? : Call → Option Selection
  | .configuring globs => some globs
  | _ => none

/-- The steps of calls, where rescans are concerned. -/
inductive Call.Rescans (setup : IndexSetup α) (s : IndexState α) : Call → IndexState α → Call → Prop where
  | refused (gone : s.isDisposed = true) : Call.Rescans setup s .requesting s (.ended false)
  | joins (live : s.isDisposed = false) (running : s.rescanRunning = true) :
    Call.Rescans setup s .requesting { s with rescanPending := true } (.ended false)
  | takesOff (live : s.isDisposed = false) (idle : s.rescanRunning = false) :
    Call.Rescans setup s .requesting { s with rescanRunning := true } (.passing .starting)
  | goesOn (p : Pass) (t : IndexState α) (d : Call) (course : SameCourse s t) (passing : d.isPassing = true)
    (listing : ∀ filter, d = .passing (.listing filter) → filter = (s.compiledFilter setup.root).2) :
    Call.Rescans setup s (.passing p) t d
  | again (live : s.isDisposed = false) (pending : s.rescanPending = true) :
    Call.Rescans setup s .closing { s with rescanPending := false } (.passing .starting)
  | stops (satisfied : s.isDisposed = true ∨ s.rescanPending = false) :
    Call.Rescans setup s .closing { s with rescanPending := false, rescanRunning := false } (.ended false)
  | aside (c : Call) (t : IndexState α) (d : Call) (before : c.isPassing = false ∧ c ≠ .requesting)
    (after : d.isPassing = false) (live : s.isDisposed = false → t.isDisposed = false)
    (running : t.rescanRunning = s.rescanRunning) (pending : t.rescanPending = s.rescanPending) :
    Call.Rescans setup s c t d

theorem Pass.step_listing {pick : Nat} {p : Pass} {filter : CorpusFilter}
    (h : (p.step setup world pick s).2.1 = .listing filter) :
    filter = (s.compiledFilter setup.root).2 := by
  cases p with
  | filtering => exact (Pass.listing.inj h).symm
  | ended => cases h
  | _ =>
    simp only [Pass.step] at h
    repeat' split at h
    all_goals cases h

theorem Call.step_passing (setup : IndexSetup α) (world : World) (pick : Nat) (s : IndexState α) (p : Pass) :
    ((Call.passing p).step setup world pick s).2.1 = .closing ∨
      ((Call.passing p).step setup world pick s).2.1 = .passing (p.step setup world pick s).2.1 := by
  simp only [Call.step]
  generalize p.step setup world pick s = x
  obtain ⟨u, q, seen⟩ := x
  cases q <;> first | exact .inl rfl | exact .inr rfl

theorem Call.isPassing_step {pick : Nat} {c : Call} (h : c.isPassing = false) (hask : c ≠ .requesting) :
    (c.step setup world pick s).2.1.isPassing = false := by
  cases c with
  | requesting => exact absurd rfl hask
  | passing p => cases h
  | closing => cases h
  | ended dropped => rfl
  | _ =>
    simp only [Call.step]
    split <;> rfl

theorem Call.step_rescans (setup : IndexSetup α) (world : World) (pick : Nat) (s : IndexState α) (c : Call) :
    Call.Rescans setup s c (c.step setup world pick s).1 (c.step setup world pick s).2.1 := by
  have haside : c.isPassing = false → c.steers = false →
      Call.Rescans setup s c (c.step setup world pick s).1 (c.step setup world pick s).2.1 := by
    intro hpassing hsteers
    have hask : c ≠ .requesting := fun hc => by rw [hc] at hsteers; cases hsteers
    have hcourse := Call.step_course setup world pick s hsteers
    exact .aside _ _ _ ⟨hpassing, hask⟩ (Call.isPassing_step hpassing hask)
      (fun hlive => hcourse.isDisposed.trans hlive) hcourse.running hcourse.pending
  cases c with
  | requesting =>
    cases hlive : s.isDisposed with
    | true =>
      have hrequest : s.requestRescan = (s, false) := by rw [requestRescan, if_pos hlive]
      simp only [Call.step, hrequest]
      exact .refused hlive
    | false =>
      cases hrunning : s.rescanRunning with
      | true =>
        have hrequest : s.requestRescan = ({ s with rescanPending := true }, false) := by
          rw [requestRescan, hlive, if_neg Bool.false_ne_true, if_pos hrunning]
        simp only [Call.step, hrequest]
        exact .joins hlive hrunning
      | false =>
        have hrequest : s.requestRescan = ({ s with rescanRunning := true }, true) := by
          rw [requestRescan, hlive, if_neg Bool.false_ne_true, if_neg (Bool.eq_false_iff.mp hrunning)]
        simp only [Call.step, hrequest]
        exact .takesOff hlive hrunning
  | passing p =>
    refine .goesOn p _ _ (Call.step_course setup world pick s rfl) ?_ fun filter hlisting => ?_
    · rcases Call.step_passing setup world pick s p with hnext | hnext <;> rw [hnext] <;> rfl
    · rcases Call.step_passing setup world pick s p with hnext | hnext
      · rw [hnext] at hlisting
        cases hlisting
      · exact Pass.step_listing (Call.passing.inj (hnext.symm.trans hlisting))
  | closing =>
    by_cases hagain : (s.rescanPending && !s.isDisposed) = true
    · have hfinish : s.finishPass = ({ s with rescanPending := false }, true) := by
        rw [finishPass, if_pos hagain]
      simp only [Bool.and_eq_true, Bool.not_eq_true'] at hagain
      simp only [Call.step, hfinish]
      exact .again hagain.2 hagain.1
    · have hfinish : s.finishPass = ({ s with rescanPending := false, rescanRunning := false }, false) := by
        rw [finishPass, if_neg hagain]
      simp only [Call.step, hfinish]
      refine .stops ?_
      cases hpending : s.rescanPending <;> simp_all
  | configuring globs =>
    simp only [Call.step, setGlobs]
    split
    next heq =>
      split at heq <;> cases heq
      exact .aside _ _ _ ⟨rfl, fun h => by cases h⟩ rfl id rfl rfl
    next heq =>
      split at heq <;> cases heq
      exact .aside _ _ _ ⟨rfl, fun h => by cases h⟩ rfl id rfl rfl
  | activating =>
    simp only [Call.step, activate]
    split
    next heq =>
      split at heq <;> cases heq
      exact .aside _ _ _ ⟨rfl, fun h => by cases h⟩ rfl (fun _ => rfl) rfl rfl
    next heq =>
      split at heq <;> cases heq
      exact .aside _ _ _ ⟨rfl, fun h => by cases h⟩ rfl id rfl rfl
  | _ => exact haside rfl rfl

theorem Call.step_globs (setup : IndexSetup α) (world : World) (pick : Nat) (s : IndexState α) (c : Call) :
    (c.step setup world pick s).1.globs = c.globs?.getD s.globs := by
  cases c with
  | configuring globs =>
    simp only [Call.step, setGlobs]
    split
    next heq => split at heq <;> cases heq; rfl
    next heq =>
      split at heq <;> cases heq
      next hsame => exact hsame
  | requesting =>
    have hrequest : s.requestRescan.1.globs = s.globs := by
      rw [requestRescan]
      split
      · rfl
      · split <;> rfl
    simp only [Call.step]
    split <;> simp_all [Call.globs?]
  | closing =>
    have hfinish : s.finishPass.1.globs = s.globs := by
      rw [finishPass]
      split <;> rfl
    simp only [Call.step]
    split <;> simp_all [Call.globs?]
  | activating =>
    have hactivate : s.activate.1.globs = s.globs := by
      rw [activate]
      split <;> rfl
    simp only [Call.step]
    split <;> simp_all [Call.globs?]
  | _ => exact (Call.step_course setup world pick s rfl).globs

theorem IndexRequest.isPassing_call (request : IndexRequest) : request.call.isPassing = false := by
  cases request with
  | fileEvent e => cases e <;> rfl
  | _ => rfl

namespace Run

variable {r : Run α} {n m t b e : Nat} {c : Call}

/-- The call runs a pass at the moment. -/
def IsPassing (r : Run α) (n t : Nat) : Prop :=
  ∃ c, r.call? n t = some c ∧ c.isPassing = true

/-- A rescan is asked for at the moment. -/
def Asks (r : Run α) (t : Nat) : Prop :=
  ∃ n world, r.Steps n t .requesting world

/-- At the moment the call begins a pass: the first of a rescan, or the one that follows its last pass. -/
def BeginsPass (r : Run α) (n t : Nat) : Prop :=
  (∃ c world, r.Steps n t c world ∧ (c = .requesting ∨ c = .closing)) ∧
    r.call? n (t + 1) = some (.passing .starting)

/-- A pass of the call is over at the moment. -/
def EndsPass (r : Run α) (n t : Nat) : Prop :=
  ∃ world, r.Steps n t .closing world

/-- A pass of the call begins at the first moment and is over at the second. -/
structure PassSpans (r : Run α) (n b e : Nat) : Prop where
  begins : r.BeginsPass n b
  ends : r.EndsPass n e
  order : b < e
  whole : ∀ u, b < u → u < e → ¬r.EndsPass n u

/-- At the moment the globs are set. -/
def Configures (r : Run α) (n t : Nat) (globs : Selection) : Prop :=
  ∃ world, r.Steps n t (.configuring globs) world

/-- Calls that are to ask for a rescan do so, and passes come to their end. -/
structure Completes (r : Run α) : Prop where
  asks : ∀ n t, r.call? n t = some .requesting → ∃ u world, t ≤ u ∧ r.Steps n u .requesting world
  ends : ∀ n t, r.IsPassing n t → ∃ u, t ≤ u ∧ r.EndsPass n u

/-- What happens at one moment, where rescans are concerned. -/
inductive Course (r : Run α) (t : Nat) : Prop where
  | quiet (idle : ¬r.Asks t ∧ ∀ n, ¬r.EndsPass n t) (stays : ∀ n, ¬r.BeginsPass n t)
    (passing : ∀ n, r.IsPassing n (t + 1) ↔ r.IsPassing n t)
    (running : (r.index (t + 1)).rescanRunning = (r.index t).rescanRunning)
    (pending : (r.index (t + 1)).rescanPending = (r.index t).rescanPending)
    (live : (r.index t).isDisposed = false → (r.index (t + 1)).isDisposed = false)
  | disposes (move : r.moves t = .dispose) (stays : ∀ n, ¬r.BeginsPass n t)
    (gone : (r.index (t + 1)).isDisposed = true) (passing : ∀ n, r.IsPassing n (t + 1) ↔ r.IsPassing n t)
    (running : (r.index (t + 1)).rescanRunning = (r.index t).rescanRunning)
    (pending : (r.index (t + 1)).rescanPending = true → (r.index t).rescanPending = true)
  | refused (stays : ∀ n, ¬r.BeginsPass n t) (gone : (r.index t).isDisposed = true)
    (index : r.index (t + 1) = r.index t) (passing : ∀ n, r.IsPassing n (t + 1) ↔ r.IsPassing n t)
  | joins (asks : r.Asks t) (stays : ∀ n, ¬r.BeginsPass n t) (live : (r.index t).isDisposed = false)
    (running : (r.index t).rescanRunning = true)
    (index : r.index (t + 1) = { r.index t with rescanPending := true })
    (passing : ∀ n, r.IsPassing n (t + 1) ↔ r.IsPassing n t)
  | takesOff (n : Nat) (begins : r.BeginsPass n t) (live : (r.index t).isDisposed = false)
    (idle : (r.index t).rescanRunning = false)
    (index : r.index (t + 1) = { r.index t with rescanRunning := true })
    (passing : ∀ m, r.IsPassing m (t + 1) ↔ m = n ∨ r.IsPassing m t)
  | again (n : Nat) (ends : r.EndsPass n t) (begins : r.BeginsPass n t)
    (live : (r.index t).isDisposed = false) (pending : (r.index t).rescanPending = true)
    (index : r.index (t + 1) = { r.index t with rescanPending := false })
    (passing : ∀ m, r.IsPassing m (t + 1) ↔ r.IsPassing m t)
  | stops (n : Nat) (ends : r.EndsPass n t) (stays : ∀ m, ¬r.BeginsPass m t)
    (satisfied : (r.index t).isDisposed = true ∨ (r.index t).rescanPending = false)
    (index : r.index (t + 1) = { r.index t with rescanPending := false, rescanRunning := false })
    (passing : ∀ m, r.IsPassing m (t + 1) ↔ m ≠ n ∧ r.IsPassing m t)

theorem isPassing_iff (h : r.call? n t = some c) : r.IsPassing n t ↔ c.isPassing = true := by
  refine ⟨?_, fun hc => ⟨c, h, hc⟩⟩
  rintro ⟨d, hd, hpassing⟩
  rwa [Option.some.inj (h.symm.trans hd)]

theorem isPassing_congr (h : r.call? n (t + 1) = r.call? n t) : r.IsPassing n (t + 1) ↔ r.IsPassing n t := by
  rw [IsPassing, h, IsPassing]

theorem Steps.asks_iff (steps : r.Steps n t c world) : r.Asks t ↔ c = .requesting := by
  refine ⟨?_, fun hc => ⟨n, world, hc ▸ steps⟩⟩
  rintro ⟨m, other, steps'⟩
  exact (steps.unique steps').2.1

theorem Steps.endsPass_iff (steps : r.Steps n t c world) : r.EndsPass m t ↔ n = m ∧ c = .closing := by
  refine ⟨?_, ?_⟩
  · rintro ⟨other, steps'⟩
    obtain ⟨hn, hc, -⟩ := steps.unique steps'
    exact ⟨hn, hc⟩
  · rintro ⟨rfl, rfl⟩
    exact ⟨world, steps⟩

theorem Steps.not_beginsPass (steps : r.Steps n t c world)
    (h : c = .requesting ∨ c = .closing → r.call? n (t + 1) ≠ some (.passing .starting)) (m : Nat) :
    ¬r.BeginsPass m t := by
  rintro ⟨⟨d, other, steps', hd⟩, hnext⟩
  obtain ⟨rfl, rfl, -⟩ := steps.unique steps'
  exact h hd hnext

/-- Without a step of a call, no rescan is asked for and no pass begins or is over. -/
theorem idle_of_not_steps (h : ∀ n c world, ¬r.Steps n t c world) :
    (¬r.Asks t ∧ ∀ n, ¬r.EndsPass n t) ∧ ∀ n, ¬r.BeginsPass n t :=
  ⟨⟨fun ⟨n, world, steps⟩ => h n _ world steps, fun n ⟨world, steps⟩ => h n _ world steps⟩,
    fun n ⟨⟨c, world, steps, _⟩, _⟩ => h n c world steps⟩

theorem course (r : Run α) (t : Nat) : r.Course t := by
  cases r.happens t with
  | begins request quiet index calls =>
    obtain ⟨idle, stays⟩ := idle_of_not_steps quiet
    refine .quiet idle stays (fun n => ?_) (by rw [index]) (by rw [index])
      fun hlive => by rw [index]; exact hlive
    rcases calls n with hsame | ⟨hnone, hnext⟩
    · exact isPassing_congr hsame
    · rw [isPassing_iff hnext, IndexRequest.isPassing_call, IsPassing, hnone]
      simp
  | disposes move quiet index calls =>
    refine .disposes move (idle_of_not_steps quiet).2 ?_ (fun n => isPassing_congr (calls n)) ?_ ?_
    all_goals rw [index, IndexState.dispose]
    · split
      next hgone => exact hgone
      next => rfl
    · split
      · rfl
      · split <;> rfl
    · split
      · exact id
      · exact fun h => by cases h
  | rests quiet course scanning calls =>
    obtain ⟨idle, stays⟩ := idle_of_not_steps quiet
    exact .quiet idle stays (fun n => isPassing_congr (calls n)) course.running course.pending
      fun hlive => course.isDisposed.trans hlive
  | steps n c world pick move call index calls =>
    have steps : r.Steps n t c world := ⟨call, pick, move⟩
    have hself : ∀ {d}, (c.step r.setup world pick (r.index t)).2.1 = d → r.call? n (t + 1) = some d :=
      fun hd => by rw [calls, if_pos rfl, hd]
    have hother : ∀ {m}, m ≠ n → (r.IsPassing m (t + 1) ↔ r.IsPassing m t) :=
      fun hm => isPassing_congr (by rw [calls, if_neg (Ne.symm hm)])
    -- the call itself runs a pass afterwards exactly if it did before
    have hsame : ∀ {d}, (c.step r.setup world pick (r.index t)).2.1 = d → d.isPassing = c.isPassing →
        ∀ m, r.IsPassing m (t + 1) ↔ r.IsPassing m t := by
      intro d hd hpassing m
      by_cases hm : m = n
      · rw [hm, isPassing_iff (hself hd), isPassing_iff call, hpassing]
      · exact hother hm
    have hrescans := Call.step_rescans r.setup world pick (r.index t) c
    rw [← index] at hrescans
    generalize hd : (c.step r.setup world pick (r.index t)).2.1 = d at hrescans
    generalize hs : r.index (t + 1) = s at hrescans
    cases hrescans with
    | refused gone =>
      exact .refused (steps.not_beginsPass fun _ h => by cases (hself hd).symm.trans h) gone hs (hsame hd rfl)
    | joins live running =>
      exact .joins (steps.asks_iff.mpr rfl) (steps.not_beginsPass fun _ h => by cases (hself hd).symm.trans h)
        live running hs (hsame hd rfl)
    | takesOff live idle =>
      refine .takesOff n ⟨⟨_, world, steps, .inl rfl⟩, hself hd⟩ live idle hs fun m => ?_
      by_cases hm : m = n
      · simp [hm, isPassing_iff (hself hd), Call.isPassing]
      · simp [hm, hother hm]
    | goesOn p _ _ course passing listing =>
      refine .quiet ⟨?_, fun m => ?_⟩ (steps.not_beginsPass fun h _ => by rcases h with h | h <;> cases h)
        (hsame hd passing) ?_ ?_ ?_
      · rw [steps.asks_iff]
        exact fun h => by cases h
      · rw [steps.endsPass_iff]
        exact fun h => by cases h.2
      · rw [hs, course.running]
      · rw [hs, course.pending]
      · rw [hs, course.isDisposed]
        exact id
    | again live pending =>
      exact .again n ⟨world, steps⟩ ⟨⟨_, world, steps, .inr rfl⟩, hself hd⟩ live pending hs (hsame hd rfl)
    | stops satisfied =>
      refine .stops n ⟨world, steps⟩ (steps.not_beginsPass fun _ h => by cases (hself hd).symm.trans h)
        satisfied hs fun m => ?_
      by_cases hm : m = n
      · simp [hm, isPassing_iff (hself hd), Call.isPassing]
      · simp [hm, hother hm]
    | aside _ _ _ before after live running pending =>
      have hstays : c = .requesting ∨ c = .closing → r.call? n (t + 1) ≠ some (.passing .starting) := by
        rintro (rfl | rfl)
        · exact absurd rfl before.2
        · cases before.1
      refine .quiet ⟨?_, fun m => ?_⟩ (steps.not_beginsPass hstays) (hsame hd (after.trans before.1.symm)) ?_
        ?_ ?_
      · rw [steps.asks_iff]
        exact before.2
      · rw [steps.endsPass_iff]
        rintro ⟨-, rfl⟩
        cases before.1
      · rw [hs, running]
      · rw [hs, pending]
      · rw [hs]
        exact live

/-- What holds of rescans at every moment: one call runs passes if the index says so, and none otherwise. -/
structure Coordinated (r : Run α) (t : Nat) : Prop where
  taken : (r.index t).rescanRunning = true → ∃ n, r.IsPassing n t
  running : ∀ n, r.IsPassing n t → (r.index t).rescanRunning = true
  alone : ∀ n m, r.IsPassing n t → r.IsPassing m t → n = m
  pending : (r.index t).rescanPending = true → (r.index t).rescanRunning = true

theorem EndsPass.isPassing (h : r.EndsPass n t) : r.IsPassing n t := by
  obtain ⟨world, steps⟩ := h
  exact ⟨.closing, steps.1, rfl⟩

/-- While a pass goes on, no pass of another call ends either. -/
theorem Coordinated.not_endsPass (h : r.Coordinated t) (hpassing : r.IsPassing n t) (hends : ¬r.EndsPass n t)
    (m : Nat) : ¬r.EndsPass m t := by
  intro hm
  rw [h.alone m n hm.isPassing hpassing] at hm
  exact hends hm

/-- Where the calls that run passes stay the same, so does what holds of them. -/
theorem Coordinated.congr (h : r.Coordinated t) (passing : ∀ n, r.IsPassing n (t + 1) ↔ r.IsPassing n t)
    (running : (r.index (t + 1)).rescanRunning = (r.index t).rescanRunning)
    (pending : (r.index (t + 1)).rescanPending = true → (r.index t).rescanRunning = true) :
    r.Coordinated (t + 1) where
  taken hrunning := by
    obtain ⟨n, hn⟩ := h.taken (running ▸ hrunning)
    exact ⟨n, (passing n).mpr hn⟩
  running n hn := running ▸ h.running n ((passing n).mp hn)
  alone n m hn hm := h.alone n m ((passing n).mp hn) ((passing m).mp hm)
  pending hpending := running ▸ pending hpending

theorem Coordinated.succ (h : r.Coordinated t) : r.Coordinated (t + 1) := by
  cases r.course t with
  | quiet idle stays passing running pending live =>
    exact h.congr passing running fun hpending => h.pending (pending ▸ hpending)
  | disposes move stays gone passing running pending =>
    exact h.congr passing running fun hpending => h.pending (pending hpending)
  | refused stays gone index passing =>
    exact h.congr passing (by rw [index]) fun hpending => h.pending (index ▸ hpending)
  | joins asks stays live running index passing =>
    exact h.congr passing (by rw [index]) fun _ => running
  | takesOff n begins live idle index passing =>
    have hnone : ∀ m, ¬r.IsPassing m t := fun m hm => by
      rw [h.running m hm] at idle
      cases idle
    have heq : ∀ {m}, r.IsPassing m (t + 1) → m = n := fun hm =>
      ((passing _).mp hm).resolve_right (hnone _)
    refine ⟨fun _ => ⟨n, (passing n).mpr (.inl rfl)⟩, fun _ _ => by rw [index], fun k m hk hm => ?_,
      fun _ => by rw [index]⟩
    rw [heq hk, heq hm]
  | again n ends begins live pending index passing =>
    exact h.congr passing (by rw [index]) fun hpending => by rw [index] at hpending; cases hpending
  | stops n ends stays satisfied index passing =>
    have hnone : ∀ m, ¬r.IsPassing m (t + 1) := fun m hm => by
      obtain ⟨hne, hm⟩ := (passing m).mp hm
      exact hne (h.alone m n hm ends.isPassing)
    refine ⟨fun hrunning => ?_, fun m hm => absurd hm (hnone m), fun k m hk _ => absurd hk (hnone k),
      fun hpending => ?_⟩
    · rw [index] at hrunning
      cases hrunning
    · rw [index] at hpending
      cases hpending

theorem coordinated {globs : Selection} (hstart : r.start = .new globs) (t : Nat) : r.Coordinated t := by
  induction t with
  | zero =>
    have hindex : r.index 0 = .new globs := hstart
    refine ⟨fun h => ?_, fun n hn => ?_, fun n m hn => ?_, fun h => ?_⟩
    · rw [hindex] at h
      cases h
    · obtain ⟨c, hc, -⟩ := hn
      cases hc
    · obtain ⟨c, hc, -⟩ := hn
      cases hc
    · rw [hindex] at h
      cases h
  | succ t ih => exact ih.succ

/-- How far a pass that began at moment `b` has come: the index has noted a request exactly if one has come in
since. -/
structure Underway (r : Run α) (n b t : Nat) : Prop where
  passing : r.IsPassing n t
  live : (r.index t).isDisposed = false
  noted : (r.index t).rescanPending = true ↔ ∃ a, b < a ∧ a < t ∧ r.Asks a

theorem BeginsPass.underway (h : r.BeginsPass n b) (hb : r.Coordinated b) : r.Underway n b (b + 1) := by
  have hnone : ¬∃ a, b < a ∧ a < b + 1 ∧ r.Asks a := fun ⟨a, hba, hab, _⟩ => by omega
  have hpassing : r.IsPassing n (b + 1) := ⟨_, h.2, rfl⟩
  cases r.course b with
  | takesOff m begins live idle index passing =>
    refine ⟨hpassing, by rw [index]; exact live, iff_of_false ?_ hnone⟩
    rw [index]
    exact fun hpending => by simp [hb.pending hpending] at idle
  | again m ends begins live pending index passing =>
    refine ⟨hpassing, by rw [index]; exact live, iff_of_false ?_ hnone⟩
    rw [index]
    exact Bool.false_ne_true
  | quiet idle stays passing running pending live => exact absurd h (stays n)
  | disposes move stays gone passing running pending => exact absurd h (stays n)
  | refused stays gone index passing => exact absurd h (stays n)
  | joins asks stays live running index passing => exact absurd h (stays n)
  | stops m ends stays satisfied index passing => exact absurd h (stays n)

/-- A request that comes in is noted, and a moment without one changes nothing. -/
theorem noted_succ (h : (r.index t).rescanPending = true ↔ ∃ a, b < a ∧ a < t ∧ r.Asks a) (hbt : b < t)
    (hnext : (r.index (t + 1)).rescanPending = true ↔ r.Asks t ∨ (r.index t).rescanPending = true) :
    (r.index (t + 1)).rescanPending = true ↔ ∃ a, b < a ∧ a < t + 1 ∧ r.Asks a := by
  rw [hnext, h]
  refine ⟨?_, ?_⟩
  · rintro (hasks | ⟨a, hba, hat, hasks⟩)
    · exact ⟨t, hbt, Nat.lt_succ_self t, hasks⟩
    · exact ⟨a, hba, Nat.lt_succ_of_lt hat, hasks⟩
  · rintro ⟨a, hba, hat, hasks⟩
    rcases Nat.lt_succ_iff_lt_or_eq.mp hat with hat | rfl
    · exact .inr ⟨a, hba, hat, hasks⟩
    · exact .inl hasks

/-- A pass goes on until its end, and no other one begins meanwhile. -/
theorem Underway.succ (h : r.Underway n b t) (ht : r.Coordinated t) (hbt : b < t) (hends : ¬r.EndsPass n t)
    (hmove : r.moves t ≠ .dispose) : r.Underway n b (t + 1) ∧ ∀ m, ¬r.BeginsPass m t := by
  cases r.course t with
  | quiet idle stays passing running pending live =>
    refine ⟨⟨(passing n).mpr h.passing, live h.live, noted_succ h.noted hbt ?_⟩, stays⟩
    rw [pending, or_iff_right idle.1]
  | disposes move stays gone passing running pending => exact absurd move hmove
  | refused stays gone index passing => simp [h.live] at gone
  | joins asks stays live running index passing =>
    refine ⟨⟨(passing n).mpr h.passing, by rw [index]; exact live, noted_succ h.noted hbt ?_⟩, stays⟩
    exact iff_of_true (by rw [index]) (.inl asks)
  | takesOff m begins live idle index passing => simp [ht.running n h.passing] at idle
  | again m ends begins live pending index passing =>
    exact absurd ends (ht.not_endsPass h.passing hends m)
  | stops m ends stays satisfied index passing =>
    exact absurd ends (ht.not_endsPass h.passing hends m)

theorem PassSpans.underway (h : r.PassSpans n b e) (hr : ∀ t, r.Coordinated t)
    (hmoves : ∀ u, b < u → u < e → r.moves u ≠ .dispose) (hbt : b < t) (hte : t ≤ e) : r.Underway n b t := by
  induction t, hbt using Nat.le_induction with
  | base => exact h.begins.underway (hr b)
  | succ t hbt ih =>
    exact ((ih (by omega)).succ (hr t) hbt (h.whole t hbt (by omega)) (hmoves t hbt (by omega))).1

/-- Where a pass is over, another one begins if a request has been noted on a live index. -/
theorem EndsPass.beginsPass_iff (h : r.EndsPass n t) (ht : r.Coordinated t) :
    r.BeginsPass n t ↔ (r.index t).rescanPending = true ∧ (r.index t).isDisposed = false := by
  have hmove : r.moves t ≠ .dispose := fun hmove => by
    obtain ⟨world, -, pick, hadvance⟩ := h
    cases hmove.symm.trans hadvance
  have hasks : ¬r.Asks t := fun hasks => by
    obtain ⟨world, steps⟩ := h
    cases steps.asks_iff.mp hasks
  cases r.course t with
  | again m ends begins live pending index passing =>
    rw [ht.alone m n ends.isPassing h.isPassing] at begins
    exact iff_of_true begins ⟨pending, live⟩
  | stops m ends stays satisfied index passing =>
    refine iff_of_false (stays n) ?_
    rintro ⟨hpending, hlive⟩
    rcases satisfied with hgone | hsatisfied
    · simp [hlive] at hgone
    · simp [hpending] at hsatisfied
  | refused stays gone index passing => exact iff_of_false (stays n) fun ⟨_, hlive⟩ => by simp [hlive] at gone
  | takesOff m begins live idle index passing => simp [ht.running n h.isPassing] at idle
  | quiet idle stays passing running pending live => exact absurd h (idle.2 n)
  | disposes move stays gone passing running pending => exact absurd move hmove
  | joins asks stays live running index passing => exact absurd asks hasks

/-- Where a pass is over, another one begins if a request has come in meanwhile. -/
theorem PassSpans.beginsPass_iff (h : r.PassSpans n b e) (hr : ∀ t, r.Coordinated t)
    (hmoves : ∀ u, b < u → u < e → r.moves u ≠ .dispose) :
    r.BeginsPass n e ↔ ∃ a, b < a ∧ a < e ∧ r.Asks a := by
  have hunderway := h.underway hr hmoves h.order le_rfl
  rw [← hunderway.noted, h.ends.beginsPass_iff (hr e), and_iff_left hunderway.live]

/-- No pass of any call begins while one is running. -/
theorem PassSpans.not_beginsPass (h : r.PassSpans n b e) (hr : ∀ t, r.Coordinated t)
    (hmoves : ∀ u, b < u → u < e → r.moves u ≠ .dispose) (hbt : b < t) (hte : t < e) (m : Nat) :
    ¬r.BeginsPass m t :=
  ((h.underway hr hmoves hbt (by omega)).succ (hr t) hbt (h.whole t hbt hte) (hmoves t hbt hte)).2 m

/-! ### Every request is answered -/

/-- A call runs passes until one of them is over. -/
theorem IsPassing.succ (h : r.IsPassing n t) (ht : r.Coordinated t) (hends : ¬r.EndsPass n t) :
    r.IsPassing n (t + 1) := by
  cases r.course t with
  | takesOff m begins live idle index passing => exact (passing n).mpr (.inr h)
  | stops m ends stays satisfied index passing =>
    exact absurd ends (ht.not_endsPass h hends m)
  | quiet idle stays passing running pending live => exact (passing n).mpr h
  | disposes move stays gone passing running pending => exact (passing n).mpr h
  | refused stays gone index passing => exact (passing n).mpr h
  | joins asks stays live running index passing => exact (passing n).mpr h
  | again m ends begins live pending index passing => exact (passing n).mpr h

/-- A request that has been noted stays so until the pass is over or the index is disposed of. -/
theorem pending_succ (hpassing : r.IsPassing n t) (ht : r.Coordinated t) (hends : ¬r.EndsPass n t)
    (h : (r.index t).rescanPending = true) :
    (r.index (t + 1)).rescanPending = true ∨ (r.index (t + 1)).isDisposed = true := by
  cases r.course t with
  | quiet idle stays passing running pending live => exact .inl (pending.trans h)
  | disposes move stays gone passing running pending => exact .inr gone
  | refused stays gone index passing => exact .inl (by rw [index]; exact h)
  | joins asks stays live running index passing => exact .inl (by rw [index])
  | takesOff m begins live idle index passing => simp [ht.running n hpassing] at idle
  | again m ends begins live pending index passing =>
    exact absurd ends (ht.not_endsPass hpassing hends m)
  | stops m ends stays satisfied index passing =>
    exact absurd ends (ht.not_endsPass hpassing hends m)

/-- From some moment on the call runs a pass, which ends at the second one for the first time. -/
structure RunsUntil (r : Run α) (n a e : Nat) : Prop where
  passing : r.IsPassing n a
  order : a ≤ e
  ends : r.EndsPass n e
  whole : ∀ v, a ≤ v → v < e → ¬r.EndsPass n v

theorem Completes.runsUntil (h : r.Completes) (hpassing : r.IsPassing n t) : ∃ e, r.RunsUntil n t e := by
  classical
  have hexists := h.ends n t hpassing
  obtain ⟨horder, hends⟩ := Nat.find_spec hexists
  exact ⟨_, hpassing, horder, hends, fun v htv hv hend => Nat.find_min hexists hv ⟨htv, hend⟩⟩

theorem RunsUntil.isPassing {a v : Nat} (h : r.RunsUntil n a e) (hr : ∀ t, r.Coordinated t) (hav : a ≤ v)
    (hve : v ≤ e) : r.IsPassing n v := by
  induction v, hav using Nat.le_induction with
  | base => exact h.passing
  | succ v hav ih => exact (ih (by omega)).succ (hr v) (h.whole v hav hve)

theorem RunsUntil.not_endsPass {a v : Nat} (h : r.RunsUntil n a e) (hr : ∀ t, r.Coordinated t) (hav : a ≤ v)
    (hve : v < e) (m : Nat) : ¬r.EndsPass m v :=
  (hr v).not_endsPass (h.isPassing hr hav (by omega)) (h.whole v hav hve) m

theorem RunsUntil.pending {a v : Nat} (h : r.RunsUntil n a e) (hr : ∀ t, r.Coordinated t)
    (hnoted : (r.index (a + 1)).rescanPending = true) (hav : a + 1 ≤ v) (hve : v ≤ e) :
    (r.index v).rescanPending = true ∨ ∃ w, a ≤ w ∧ w ≤ v ∧ (r.index w).isDisposed = true := by
  induction v, hav using Nat.le_induction with
  | base => exact .inl hnoted
  | succ v hav ih =>
    rcases ih (by omega) with hpending | ⟨w, haw, hwv, hgone⟩
    · rcases pending_succ (h.isPassing hr (by omega) (by omega)) (hr v) (h.whole v (by omega) hve)
        hpending with hpending | hgone
      · exact .inl hpending
      · exact .inr ⟨v + 1, by omega, le_rfl, hgone⟩
    · exact .inr ⟨w, haw, by omega, hgone⟩

/-- A request is answered by a pass that begins no later than the one that is running ends, or the index is
disposed of meanwhile. -/
theorem Completes.answers {a : Nat} (h : r.Completes) (hr : ∀ t, r.Coordinated t)
    (steps : r.Steps n a .requesting world) :
    ∃ u, a ≤ u ∧ (∀ m v, a ≤ v → v < u → ¬r.EndsPass m v) ∧
      ((∃ m, r.BeginsPass m u) ∨ ∃ v, a ≤ v ∧ v ≤ u ∧ (r.index v).isDisposed = true) := by
  have hnone : ∀ m v, a ≤ v → v < a → ¬r.EndsPass m v := fun _ _ hav hva => absurd hva (Nat.not_lt.mpr hav)
  cases r.course a with
  | refused stays gone index passing => exact ⟨a, le_rfl, hnone, .inr ⟨a, le_rfl, le_rfl, gone⟩⟩
  | takesOff m begins live idle index passing => exact ⟨a, le_rfl, hnone, .inl ⟨m, begins⟩⟩
  | again m ends begins live pending index passing => exact ⟨a, le_rfl, hnone, .inl ⟨m, begins⟩⟩
  | joins asks stays live running index passing =>
    obtain ⟨m, hm⟩ := (hr a).taken running
    obtain ⟨e, he⟩ := h.runsUntil hm
    have hlt : a + 1 ≤ e := by
      refine Nat.lt_of_le_of_ne he.order fun heq => ?_
      have hends := he.ends
      rw [← heq, steps.endsPass_iff] at hends
      cases hends.2
    refine ⟨e, he.order, fun k v hav hve => he.not_endsPass hr hav hve k, ?_⟩
    rcases he.pending hr (by rw [index]) hlt le_rfl with hpending | hgone
    · cases hlive : (r.index e).isDisposed with
      | false => exact .inl ⟨m, (he.ends.beginsPass_iff (hr e)).mpr ⟨hpending, hlive⟩⟩
      | true => exact .inr ⟨e, he.order, le_rfl, hlive⟩
    · exact .inr hgone
  | quiet idle stays passing running pending live => exact absurd ⟨n, world, steps⟩ idle.1
  | disposes move stays gone passing running pending =>
    obtain ⟨-, pick, hadvance⟩ := steps
    cases move.symm.trans hadvance
  | stops m ends stays satisfied index passing => cases (steps.endsPass_iff.mp ends).2

theorem globs_succ (h : ∀ n globs, ¬r.Configures n t globs) :
    (r.index (t + 1)).globs = (r.index t).globs := by
  cases r.happens t with
  | begins request quiet index calls => rw [index]
  | disposes move quiet index calls =>
    rw [index, IndexState.dispose]
    split
    · rfl
    · split <;> rfl
  | rests quiet course scanning calls => exact course.globs
  | steps n c world pick move call index calls =>
    rw [index, Call.step_globs]
    cases c with
    | configuring globs => exact absurd ⟨world, call, pick, move⟩ (h n globs)
    | _ => rfl

theorem Configures.globs_succ {globs : Selection} (h : r.Configures n t globs) :
    (r.index (t + 1)).globs = globs := by
  obtain ⟨world, steps⟩ := h
  cases r.happens t with
  | steps m c other pick move call index calls =>
    obtain ⟨-, rfl, -⟩ := steps.unique ⟨call, pick, move⟩
    rw [index, Call.step_globs]
    rfl
  | begins request quiet index calls => exact absurd steps (quiet _ _ _)
  | disposes move quiet index calls => exact absurd steps (quiet _ _ _)
  | rests quiet course scanning calls => exact absurd steps (quiet _ _ _)

theorem Configures.globs {globs : Selection} {a : Nat} (h : r.Configures m a globs) (hat : a < t)
    (hlast : ∀ k v other, a < v → v < t → ¬r.Configures k v other) : (r.index t).globs = globs := by
  induction t, hat using Nat.le_induction with
  | base => exact h.globs_succ
  | succ t hat ih =>
    rw [Run.globs_succ fun k other => hlast k t other hat (Nat.lt_succ_self t)]
    exact ih fun k v other hav hvt => hlast k v other hav (by omega)

/-- A pass takes the filter that it lists by from the index as it stands at that moment. -/
theorem listing_succ {filter : CorpusFilter} (h : r.call? n (t + 1) = some (.passing (.listing filter))) :
    r.call? n t = some (.passing (.listing filter)) ∨
      filter = ((r.index t).compiledFilter r.setup.root).2 := by
  cases r.happens t with
  | begins request quiet index calls =>
    rcases calls n with hsame | ⟨-, hnext⟩
    · exact .inl (hsame.symm.trans h)
    · have hpassing := IndexRequest.isPassing_call request
      rw [Option.some.inj (hnext.symm.trans h)] at hpassing
      cases hpassing
  | disposes move quiet index calls => exact .inl ((calls n).symm.trans h)
  | rests quiet course scanning calls => exact .inl ((calls n).symm.trans h)
  | steps m c world pick move call index calls =>
    rw [calls] at h
    split at h
    next =>
      have hrescans := Call.step_rescans r.setup world pick (r.index t) c
      rw [Option.some.inj h] at hrescans
      generalize (c.step r.setup world pick (r.index t)).1 = s at hrescans
      cases hrescans with
      | goesOn p _ _ course passing listing => exact .inr (listing filter rfl)
      | aside _ _ _ before after live running pending => cases after
    next => exact .inl h

/-- A pass that begins after the globs were set last lists the files by them. -/
theorem Configures.listing_eq {globs : Selection} {filter : CorpusFilter} {a u : Nat}
    (h : r.Configures m a globs) (hfilter : ∀ t f, (r.index t).filter = some f →
      f = .ofGlobs r.setup.root (r.index t).globs)
    (hab : a < b) (begins : r.BeginsPass n b) (hbu : b < u)
    (hlast : ∀ k v other, a < v → v < u → ¬r.Configures k v other)
    (hlisting : r.call? n u = some (.passing (.listing filter))) :
    filter = .ofGlobs r.setup.root globs := by
  induction u, hbu using Nat.le_induction with
  | base => cases begins.2.symm.trans hlisting
  | succ u hbu ih =>
    have hbefore : ∀ k v other, a < v → v < u → ¬r.Configures k v other := fun k v other hav hvu =>
      hlast k v other hav (Nat.lt_succ_of_lt hvu)
    rcases listing_succ hlisting with hlisting | rfl
    · exact ih hbefore hlisting
    · rw [compiledFilter_snd (hfilter u), h.globs (Nat.lt_trans hab hbu) hbefore]

end Run

/-- At most one rescan runs passes at a time. The requests that come in during a pass are answered by exactly
one further pass, which begins where that one ends, unless the index is disposed of meanwhile. Where every call
comes to its end, every request is answered by a pass that begins no earlier than the request. The filter that
is kept is that of the current globs, and a pass that begins after they were set lists the files by it. -/
theorem rescans_coalesce (setup : IndexSetup α) (globs : Selection) (moves : Nat → Move) :
    let r : Run α := ⟨setup, .new globs, moves⟩
    (∀ n m t, r.IsPassing n t → r.IsPassing m t → n = m) ∧
    (∀ n b e, r.PassSpans n b e → (∀ u, b < u → u < e → moves u ≠ .dispose) →
      (∀ m u, b < u → u < e → ¬r.BeginsPass m u) ∧
      (r.BeginsPass n e ↔ ∃ a, b < a ∧ a < e ∧ r.Asks a)) ∧
    (r.Completes → ∀ n t, r.call? n t = some .requesting →
      ∃ a world, t ≤ a ∧ r.Steps n a .requesting world ∧
        ∃ u, a ≤ u ∧ (∀ m v, a ≤ v → v < u → ¬r.EndsPass m v) ∧
          ((∃ m, r.BeginsPass m u) ∨ ∃ v, a ≤ v ∧ v ≤ u ∧ (r.index v).isDisposed = true)) ∧
    (∀ t f, (r.index t).filter = some f → f = .ofGlobs setup.root (r.index t).globs) ∧
    ∀ m a g n b u f, r.Configures m a g → a < b → r.BeginsPass n b → b < u →
      (∀ k v g', a < v → v < u → ¬r.Configures k v g') →
      r.call? n u = some (.passing (.listing f)) → f = .ofGlobs setup.root g := by
  intro r
  have hr : ∀ t, r.Coordinated t := Run.coordinated rfl
  have hfilter : ∀ t f, (r.index t).filter = some f → f = .ofGlobs setup.root (r.index t).globs :=
    fun t => Reachable.filter_eq ⟨globs, moves, t, rfl⟩
  refine ⟨fun n m t => (hr t).alone n m, fun n b e hspans hmoves => ?_, fun hcompletes n t hcall => ?_,
    hfilter, ?_⟩
  · exact ⟨fun m u hbu hue => hspans.not_beginsPass hr hmoves hbu hue m, hspans.beginsPass_iff hr hmoves⟩
  · obtain ⟨a, world, hta, steps⟩ := hcompletes.asks n t hcall
    exact ⟨a, world, hta, steps, hcompletes.answers hr steps⟩
  · intro m a g n b u f hconfigures hab hbegins hbu hlast hlisting
    exact hconfigures.listing_eq hfilter hab hbegins hbu hlast hlisting

/-- The globs are set, and a rescan is asked for once more during the pass that follows. -/
def askedMidPass : Run Occurrence where
  setup := (UsageIndex.new ⟨"/w".toList⟩ ⟨[], []⟩ 1 5).setup
  start := .new ⟨[], []⟩
  moves
    | 0 => .start (.setGlobs ⟨["*.feature".toList], []⟩)
    | 4 => .start .rescan
    | 5 => .advance 1 oneStepWorld 0
    | _ => .advance 0 oneStepWorld 0

/-- After the second pass both calls are over, and nothing changes any more. -/
theorem askedMidPass_traffic {t : Nat} (h : 13 ≤ t) : askedMidPass.traffic t = askedMidPass.traffic 13 := by
  induction t, h using Nat.le_induction with
  | base => rfl
  | succ t h ih =>
    obtain ⟨k, rfl⟩ := Nat.exists_eq_add_of_le' h
    have hmove : askedMidPass.moves (k + 13) = .advance 0 oneStepWorld 0 := rfl
    rw [Run.traffic_succ, hmove, ih]
    rfl

theorem askedMidPass_call? {n t : Nat} {c : Call} (h : askedMidPass.call? n t = some c) :
    n < 2 ∧ ∃ u < 14, u ≤ t ∧ askedMidPass.call? n u = some c ∧ (u = t ∨ u = 13) := by
  have hlength : ∀ u < 14, (askedMidPass.traffic u).calls.length ≤ 2 := by decide +kernel
  have hearly : ∀ {u}, u < 14 → askedMidPass.call? n u = some c → n < 2 := fun hu hcall =>
    Nat.lt_of_lt_of_le (List.getElem?_eq_some_iff.mp hcall).1 (hlength _ hu)
  rcases Nat.lt_or_ge t 14 with ht | ht
  · exact ⟨hearly ht h, t, ht, le_rfl, h, .inl rfl⟩
  · rw [Run.call?, askedMidPass_traffic (by omega), ← Run.call?] at h
    exact ⟨hearly (by decide) h, 13, by decide, by omega, h, .inr rfl⟩

theorem askedMidPass_completes : askedMidPass.Completes where
  asks n t hcall := by
    have hasks : ∀ u < 14, ∀ n < 2, askedMidPass.call? n u = some .requesting →
        n = 0 ∧ u = 2 ∨ n = 1 ∧ u = 5 := by
      decide +kernel
    obtain ⟨hn, u, hu, -, hcall, hut⟩ := askedMidPass_call? hcall
    have hut : u = t := by
      rcases hasks u hu n hn hcall with h | h <;> omega
    subst hut
    rcases hasks u hu n hn hcall with ⟨rfl, rfl⟩ | ⟨rfl, rfl⟩
    · exact ⟨2, oneStepWorld, le_rfl, hcall, 0, rfl⟩
    · exact ⟨5, oneStepWorld, le_rfl, hcall, 0, rfl⟩
  ends n t hpassing := by
    have hpasses : ∀ u < 14, ∀ n < 2, (askedMidPass.call? n u).any Call.isPassing = true → n = 0 ∧ u ≤ 12 := by
      decide +kernel
    obtain ⟨c, hcall, hc⟩ := hpassing
    obtain ⟨hn, u, hu, -, hcall, hut⟩ := askedMidPass_call? hcall
    obtain ⟨rfl, hle⟩ := hpasses u hu n hn (by rw [hcall]; exact hc)
    have hclosing : askedMidPass.call? 0 12 = some .closing := by decide +kernel
    exact ⟨12, by omega, oneStepWorld, hclosing, 0, rfl⟩

/-- The request of moment 5 comes in during the first pass, so a second one begins where it ends. The first one
lists the files by the globs that have been set. -/
theorem rescans_coalesce_askedMidPass :
    let r := askedMidPass
    let globs : Selection := ⟨["*.feature".toList], []⟩
    r.Completes ∧ r.PassSpans 0 2 8 ∧ (∀ u, 2 < u → u < 8 → r.moves u ≠ .dispose) ∧ r.Asks 5 ∧
      r.call? 1 5 = some .requesting ∧ r.Configures 0 1 globs ∧
      ((∀ m u, 2 < u → u < 8 → ¬r.BeginsPass m u) ∧ r.BeginsPass 0 8) ∧
      (∃ a world, 5 ≤ a ∧ r.Steps 1 a .requesting world ∧
        ∃ u, a ≤ u ∧ (∀ m v, a ≤ v → v < u → ¬r.EndsPass m v) ∧
          ((∃ m, r.BeginsPass m u) ∨ ∃ v, a ≤ v ∧ v ≤ u ∧ (r.index v).isDisposed = true)) ∧
      ∃ f, r.call? 0 7 = some (.passing (.listing f)) ∧ f = .ofGlobs r.setup.root globs := by
  intro r globs
  have hrequesting : r.call? 0 2 = some .requesting := by decide +kernel
  have hclosing : r.call? 0 8 = some .closing := by decide +kernel
  have hjoining : r.call? 1 5 = some .requesting := by decide +kernel
  have hbegins : r.BeginsPass 0 2 :=
    ⟨⟨_, oneStepWorld, ⟨hrequesting, 0, rfl⟩, .inl rfl⟩, by decide +kernel⟩
  have hspans : r.PassSpans 0 2 8 := by
    have hwhole : ∀ u < 8, 2 < u → r.call? 0 u ≠ some .closing := by decide +kernel
    refine ⟨hbegins, ⟨oneStepWorld, hclosing, 0, rfl⟩, by decide, ?_⟩
    rintro u hbu hue ⟨world, steps⟩
    exact hwhole u hue hbu steps.1
  have hmoves : ∀ u, 2 < u → u < 8 → r.moves u ≠ .dispose := by
    intro u _ _ h
    simp only [r, askedMidPass] at h
    split at h <;> cases h
  have hasks : r.Asks 5 := ⟨1, oneStepWorld, hjoining, 0, rfl⟩
  have hconfigures : r.Configures 0 1 globs := by
    have hcall : r.call? 0 1 = some (.configuring globs) := by decide +kernel
    exact ⟨oneStepWorld, hcall, 0, rfl⟩
  have hlast : ∀ k v g, 1 < v → v < 7 → ¬r.Configures k v g := by
    have hnone : ∀ v < 14, 1 < v → ∀ k < 2, (r.call? k v).bind Call.globs? = none := by decide +kernel
    rintro k v g hav hvu ⟨world, steps⟩
    have hglobs := hnone v (by omega) hav k (askedMidPass_call? steps.1).1
    rw [steps.1] at hglobs
    cases hglobs
  obtain ⟨-, hpasses, hanswers, -, hlists⟩ := rescans_coalesce r.setup ⟨[], []⟩ r.moves
  obtain ⟨hnone, hagain⟩ := hpasses 0 2 8 hspans hmoves
  have hlisting : r.call? 0 7 = some (.passing (.listing (.ofGlobs r.setup.root globs))) := by decide +kernel
  refine ⟨askedMidPass_completes, hspans, hmoves, hasks, hjoining, hconfigures,
    ⟨hnone, hagain.mpr ⟨5, by decide, by decide, hasks⟩⟩, hanswers askedMidPass_completes 1 5 hjoining, _,
    hlisting, ?_⟩
  exact hlists 0 1 globs 0 2 7 _ hconfigures (by decide) hbegins (by decide) hlast hlisting

end StepLink
