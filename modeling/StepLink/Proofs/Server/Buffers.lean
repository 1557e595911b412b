import StepLink.Proofs.Index.Attendance
import StepLink.Proofs.Server.Occasion

/-! What the indexes hold of documents that are edited. Every report of a document is worked into the open documents
at once, while the indexes read it anew in a job of its own, which may see a later buffer or the disk. As long as a
job owes a path a read, or a scan of the path is not over, its entry may be out of date; when nothing is left to be
done, it is what a read gives. -/

namespace StepLink

open IndexState

variable {α : Type} {setup : IndexSetup α} {equal : α → α → Prop} {pathOf : α → Path} {world other : World}
  {s t : IndexState α} {p q : Path} {c d : Call} {calls others : List Call} {owed : Path → Prop}
  {asked : Option Path} {accepts : Path → Bool} {known told : Path → Prop} {seen : List Output} {x y : Indexes}
  {disk : Disk} {action : Action} {rest left job : Job} {connected : Bool}

namespace Action

/-- The call of an action on an index. -/
def callOn : Corpus → Action → Call
  | .steps, running definitions _ => definitions
  | .features, running _ usages => usages
  | _, _ => .ended false

/-- The path that an action reads anew for a corpus, if it belongs to it. -/
def asks : Corpus → Action → Option Path
  | .steps, syncSteps p => some p
  | .features, syncFeatures p => some p
  | _, _ => none

/-- The action reads a known document anew, or shows diagnostics. -/
def IsBrief (known : Path → Prop) : Action → Prop
  | syncSteps p => known p
  | syncFeatures p => known p
  | running _ _ => False
  | follow _ => False
  | _ => True

theorem known_of_asks {corpus : Corpus} (h : action.IsBrief known) (hp : action.asks corpus = some p) :
    known p := by
  cases corpus <;> cases action <;> cases hp <;> exact h

end Action

namespace Job

/-- The call of a job on an index. -/
def callOn (corpus : Corpus) : Job → Call
  | [] => .ended false
  | action :: _ => action.callOn corpus

/-- The job follows a known document: it reads the file anew, in one of the indexes after the other, and shows
diagnostics. -/
inductive Follows (known : Path → Prop) : Job → Prop where
  | rests (job : Job) (brief : ∀ action ∈ job, action.IsBrief known) : Follows known job
  | runs (definitions usages : Call) (rest : Job) (scans : definitions.scansOrRemoves = true)
    (looks : usages.scansOrRemoves = true) (brief : ∀ action ∈ rest, action.IsBrief known) :
    Follows known (.running definitions usages :: rest)

theorem callOn_of_brief (h : ∀ action ∈ job, action.IsBrief known) (corpus : Corpus) :
    job.callOn corpus = .ended false := by
  cases job with
  | nil => rfl
  | cons action rest =>
    have haction := h action List.mem_cons_self
    cases action <;> first | rfl | exact haction.elim | (cases corpus <;> rfl)

theorem Follows.of_running {definitions usages : Call} (h : Follows known (.running definitions usages :: rest)) :
    definitions.scansOrRemoves = true ∧ usages.scansOrRemoves = true := by
  cases h with
  | rests job brief => exact (brief _ List.mem_cons_self).elim
  | runs _ _ _ scans looks _ => exact ⟨scans, looks⟩

theorem Follows.sync (hp : known p) : Follows known (Action.sync p) :=
  .rests _ (List.forall_mem_cons.mpr ⟨hp, List.forall_mem_singleton.mpr hp⟩)

end Job

/-- What a step of a job does to an index and to the call of the job on it, where the step may be asked to read a
path anew. -/
inductive Served (setup : IndexSetup α) (world : World) (accepts : Path → Bool) (seen : List Output)
    (s : IndexState α) : Option Path → Call → IndexState α → Call → Prop where
  | aside (asked : Option Path) (t : IndexState α) (same : s.SameButCaches t)
    (rejected : ∀ p, asked = some p → accepts p = false) :
    Served setup world accepts seen s asked (.ended false) t (.ended false)
  | begins (p : Path) (t : IndexState α) (same : s.SameButCaches t) :
    Served setup world accepts seen s (some p) (.ended false) t (.scan ⟨p, .entering⟩)
  | turns (c : Call) (t : IndexState α) (d e : Call) (turn : Call.Turn setup world s c t d)
    (lasts : .logged .keepsChanging ∉ seen → ∀ q replays, c = .scan ⟨q, .deciding replays⟩ →
      s.scanning? q = some true → replays < setup.maxReplays)
    (after : e = d ∨ d.isPast = true ∧ e.isPast = true) :
    Served setup world accepts seen s none c t e
  | rests (c e : Call) (after : e = c ∨ c.isPast = true ∧ e.isPast = true) :
    Served setup world accepts seen s none c s e

theorem Served.isDisposed (h : Served setup world accepts seen s asked c t d) : t.isDisposed = s.isDisposed := by
  cases h with
  | aside asked t same rejected => exact same.isDisposed
  | begins p t same => exact same.isDisposed
  | turns c t d e turn lasts after => exact turn.sameSettings.isDisposed
  | rests c e after => rfl

theorem Served.globs (h : Served setup world accepts seen s asked c t d) : t.globs = s.globs := by
  cases h with
  | aside asked t same rejected => exact same.globs
  | begins p t same => exact same.globs
  | turns c t d e turn lasts after => exact turn.sameSettings.globs
  | rests c e after => rfl

/-- The known paths of a corpus on an index that is in use, each of which is attended. -/
structure Tended (setup : IndexSetup α) (equal : α → α → Prop) (world : World) (accepts : Path → Bool)
    (known owed : Path → Prop) (s : IndexState α) (calls : List Call) : Prop where
  live : s.isDisposed = false
  attends : ∀ p, known p → accepts p = true → Attends setup equal world p (owed p) s calls

namespace Tended

theorem perm (h : Tended setup equal world accepts known owed s calls) (hperm : calls.Perm others) :
    Tended setup equal world accepts known owed s others :=
  ⟨h.live, fun p hp haccepts => (h.attends p hp haccepts).perm hperm⟩

theorem mono (h : Tended setup equal world accepts known owed s calls) {later : Path → Prop}
    (howed : ∀ p, owed p → later p) (hread : ∀ p, known p → later p ∨ other.read p = world.read p) :
    Tended setup equal other accepts known later s calls :=
  ⟨h.live, fun p hp haccepts => (h.attends p hp haccepts).mono (howed p) (hread p hp)⟩

theorem past_cons_iff (hd : d.isPast = true) :
    Tended setup equal world accepts known owed s (d :: calls) ↔
      Tended setup equal world accepts known owed s calls :=
  ⟨fun h => ⟨h.live, fun p hp haccepts => (Attends.past_cons_iff hd).mp (h.attends p hp haccepts)⟩,
    fun h => ⟨h.live, fun p hp haccepts => (Attends.past_cons_iff hd).mpr (h.attends p hp haccepts)⟩⟩

/-- A step of a job keeps the known paths attended, as long as no scan gives up. -/
theorem served (law : Lawful setup equal pathOf) (hsound : Sound setup pathOf s)
    (hapart : ∀ p q, known p → known q → p.startsWith q = true → p = q) (hasked : ∀ p, asked = some p → known p)
    (h : Tended setup equal world accepts known (fun p => asked = some p ∨ owed p) s (c :: others))
    (hserved : Served setup world accepts seen s asked c t d) (hquiet : .logged .keepsChanging ∉ seen) :
    Tended setup equal world accepts known owed t (d :: others) := by
  refine ⟨hserved.isDisposed.trans h.live, fun p hp haccepts => ?_⟩
  have hattends := h.attends p hp haccepts
  -- where the step is not asked for the path, it still owes what it owed
  have howed : asked ≠ some p → Attends setup equal world p (owed p) s (c :: others) := fun hnot =>
    hattends.mono (fun howed => howed.resolve_left hnot) (.inr rfl)
  cases hserved with
  | aside asked t same rejected =>
    have hnot : asked ≠ some p := fun hp => by
      rw [rejected p hp] at haccepts
      cases haccepts
    exact (Attends.past_cons_iff rfl).mpr ((howed hnot).gone ⟨rfl, rfl⟩ (same.scanning? p) (same.items? p))
  | begins q t same =>
    have hgone := hattends.gone ⟨rfl, rfl⟩ (same.scanning? p) (same.items? p)
    by_cases hpq : p = q
    · subst hpq
      exact hgone.begin
    · have hnot : some q ≠ some p := fun hqp => hpq (Option.some.inj hqp).symm
      have hminds : (Call.scan ⟨q, .entering⟩).Minds p :=
        .inr ⟨q, _, rfl, rfl, fun hstarts => (hapart p q hp (hasked q rfl) hstarts).symm⟩
      exact ((howed hnot).gone ⟨rfl, rfl⟩ (same.scanning? p) (same.items? p)).cons hminds rfl
  | turns c t d e turn lasts after =>
    exact ((howed nofun).turn law hsound h.live turn (lasts hquiet)).exchange after
  | rests c e after => exact (howed nofun).exchange after

end Tended

/-! ### Both indexes -/

/-- A scan that may not read its file once more, although it has been asked to, reports this. -/
theorem Call.keepsChanging_of_many {told : List Observation} {pick replays : Nat}
    (hturned : (Call.scan ⟨p, .deciding replays⟩).step setup world pick s = (t, d, told))
    (hqueued : s.scanning? p = some true) (hmany : setup.maxReplays ≤ replays) :
    .logged .keepsChanging ∈ told.filterMap Output.ofObservation? := by
  simp only [Call.step, Scan.step, decideReplay, hqueued, Option.getD_some, Bool.true_and, decide_eq_true_eq,
    Nat.not_lt.mpr hmany, if_false, if_true, Prod.mk.injEq] at hturned
  rw [← hturned.2.2]
  exact List.mem_singleton.mpr rfl

/-- A turn of the call of a job, with what becomes of the call when both calls of the job are over. -/
theorem Served.of_step {told : List Observation} {pick : Nat} (hlive : s.isDisposed = false)
    (hc : c.scansOrRemoves = true) (hturned : c.step setup world pick s = (t, d, told)) {e : Call}
    (after : e = d ∨ d.isPast = true ∧ e.isPast = true) :
    Served setup world accepts (told.filterMap Output.ofObservation?) s none c t e ∧ d.scansOrRemoves = true := by
  have turn := Call.step_turn setup world pick hlive hc
  rw [hturned] at turn
  refine ⟨.turns c t d e turn (fun hquiet q replays hcall hqueued => ?_) after, turn.scansOrRemoves⟩
  by_contra hmany
  subst hcall
  exact hquiet (Call.keepsChanging_of_many hturned hqueued (Nat.not_lt.mp hmany))

namespace Action

/-- What a step of a job that follows documents does to the two indexes. -/
structure Serves (world : World) (known : Path → Prop) (action : Action) (rest left : Job) (seen : List Output)
    (x y : Indexes) : Prop where
  definitions : Served x.definitions.setup world x.stepFilter.accepts seen x.definitions.state
    (action.asks .steps) (Job.callOn .steps (action :: rest)) y.definitions.state (Job.callOn .steps (left ++ rest))
  usages : Served x.usages.setup world x.featureFilter.accepts seen x.usages.state
    (action.asks .features) (Job.callOn .features (action :: rest)) y.usages.state
    (Job.callOn .features (left ++ rest))
  follows : Job.Follows known (left ++ rest)

theorem callOn_continuing (hbrief : ∀ action ∈ rest, action.IsBrief known) (definitions usages : Call)
    (corpus : Corpus) :
    let before := (running definitions usages).callOn corpus
    let after := Job.callOn corpus (continuing definitions usages ++ rest)
    after = before ∨ before.isPast = true ∧ after.isPast = true := by
  intro before after
  cases hended : definitions.isEnded && usages.isEnded with
  | false =>
    left
    simp only [after, before, continuing, hended]
    rfl
  | true =>
    have hpast : ∀ {c : Call}, c.isEnded = true → c.isPast = true := fun {c} hc => by
      cases c <;> first | rfl | cases hc
    obtain ⟨hdefinitions, husages⟩ := Bool.and_eq_true_iff.mp hended
    refine .inr ⟨by cases corpus <;> exact hpast ‹_›, ?_⟩
    simp only [after, continuing, hended, if_true, List.nil_append, Job.callOn_of_brief hbrief]
    rfl

theorem follows_continuing {definitions usages : Call} (hbrief : ∀ action ∈ rest, action.IsBrief known)
    (hdefinitions : definitions.scansOrRemoves = true) (husages : usages.scansOrRemoves = true) :
    Job.Follows known (continuing definitions usages ++ rest) := by
  rw [continuing]
  split
  · exact .rests _ hbrief
  · exact .runs _ _ _ hdefinitions husages hbrief

/-- A step that reads nothing anew and turns no call. -/
theorem Serves.aside (hbrief : ∀ action ∈ rest, action.IsBrief known) (hsame : x.SameButCaches y)
    (hcalls : ∀ corpus, action.callOn corpus = .ended false) (hleft : ∀ action ∈ left, action.IsBrief known)
    (hsteps : ∀ p, action.asks .steps = some p → x.stepFilter.accepts p = false)
    (hfeatures : ∀ p, action.asks .features = some p → x.featureFilter.accepts p = false) :
    Serves world known action rest left seen x y := by
  have hafter : ∀ a ∈ left ++ rest, a.IsBrief known := List.forall_mem_append.mpr ⟨hleft, hbrief⟩
  have hcall := Job.callOn_of_brief hafter
  refine ⟨?_, ?_, .rests _ hafter⟩
  · rw [hcall, Job.callOn, hcalls]
    exact .aside _ _ hsame.definitions hsteps
  · rw [hcall, Job.callOn, hcalls]
    exact .aside _ _ hsame.usages hfeatures

theorem Acts.serves (hx : x.Current) (hdefinitions : x.definitions.state.isDisposed = false)
    (husages : x.usages.state.isDisposed = false) (hjob : Job.Follows known (action :: rest))
    (h : action.Acts connected world x y left seen) : Serves world known action rest left seen x y := by
  have hrest : ∀ a ∈ rest, a.IsBrief known := by
    cases hjob with
    | rests job brief => exact fun a ha => brief a (List.mem_cons_of_mem action ha)
    | runs definitions usages rest scans looks brief => exact brief
  cases h with
  | readsSteps p y same accepted =>
    refine ⟨.begins p _ same.definitions, .aside none _ same.usages nofun, .runs _ _ _ rfl rfl ?_⟩
    exact List.forall_mem_cons.mpr ⟨trivial, hrest⟩
  | leavesSteps p y same rejected =>
    refine .aside hrest same (fun corpus => by cases corpus <;> rfl) (List.forall_mem_nil _) (fun q hq => ?_) nofun
    cases hq
    exact rejected
  | readsFeatures p y same accepted =>
    refine ⟨.aside none _ same.definitions nofun, .begins p _ same.usages, .runs _ _ _ rfl rfl ?_⟩
    exact List.forall_mem_cons.mpr ⟨trivial, hrest⟩
  | leavesFeatures p y same rejected =>
    refine .aside hrest same (fun corpus => by cases corpus <;> rfl) (List.forall_mem_nil _) nofun fun q hq => ?_
    cases hq
    exact rejected
  | follows e =>
    cases hjob with
    | rests job brief => exact (brief _ List.mem_cons_self).elim
  | turnsDefinitions definitions usages pick t d told turned =>
    obtain ⟨hscans, hlooks⟩ := hjob.of_running
    obtain ⟨hserved, hd⟩ := Served.of_step hdefinitions hscans turned (callOn_continuing hrest d usages .steps)
    exact ⟨hserved, .rests _ _ (callOn_continuing hrest d usages .features), follows_continuing hrest hd hlooks⟩
  | turnsUsages definitions usages pick t d told turned =>
    obtain ⟨hscans, hlooks⟩ := hjob.of_running
    obtain ⟨hserved, hd⟩ := Served.of_step husages hlooks turned (callOn_continuing hrest definitions d .features)
    exact ⟨.rests _ _ (callOn_continuing hrest definitions d .steps), hserved, follows_continuing hrest hscans hd⟩
  | refreshes y same =>
    exact .aside hrest same (fun corpus => by cases corpus <;> rfl) (List.forall_mem_nil _) nofun nofun
  | checks version =>
    refine .aside hrest (.refl hx) (fun corpus => by cases corpus <;> rfl) ?_ nofun nofun
    split
    · exact List.forall_mem_nil _
    · exact List.forall_mem_singleton.mpr trivial
  | publishes p y same =>
    exact .aside hrest same (fun corpus => by cases corpus <;> rfl) (List.forall_mem_nil _) nofun nofun
  | clears p =>
    exact .aside hrest (.refl hx) (fun corpus => by cases corpus <;> rfl) (List.forall_mem_nil _) nofun nofun

end Action

/-- A document is reported, or a job takes a step. -/
def Occasion.Edits : Occasion → Prop
  | .told n => n.document?.isSome = true
  | .noticed _ => False
  | .works _ _ => True

/-- Some calls on new indexes and some queries lead to the indexes. -/
def Indexes.Reachable (x : Indexes) : Prop :=
  ∃ root definitions usages batchSize maxReplays acts t,
    ((Service.new root definitions usages batchSize maxReplays).after acts t).indexes = x

theorem Indexes.Reachable.current (hx : x.Reachable) : x.Current := by
  obtain ⟨root, definitions, usages, batchSize, maxReplays, acts, t, rfl⟩ := hx
  exact Service.current_after (Service.current_new ..) acts t

namespace Server

variable {s t : Server} {x₀ : Indexes} {occasions : List Occasion} {n : Notification} {o : Occasion}

/-- Some job is to read the path anew for a corpus. -/
def Owes (s : Server) (corpus : Corpus) (p : Path) : Prop :=
  ∃ job ∈ s.jobs, ∃ action ∈ job, action.asks corpus = some p

/-- What holds at every moment while documents are edited: the known paths are attended in both indexes, where a
path is owed a read if it is to be reported again. -/
structure Attentive (x₀ : Indexes) (disk : Disk) (known told : Path → Prop) (s : Server) (x : Indexes) : Prop where
  indexes : s.indexes = some x
  current : x.Current
  definitionSetup : x.definitions.setup = x₀.definitions.setup
  usageSetup : x.usages.setup = x₀.usages.setup
  definitionGlobs : x.definitions.state.globs = x₀.definitions.state.globs
  usageGlobs : x.usages.state.globs = x₀.usages.state.globs
  follows : ∀ job ∈ s.jobs, job.Follows known
  definitions : Tended x.definitions.setup Definition.Respells (s.world disk) x₀.stepFilter.accepts known
    (fun p => told p ∨ s.Owes .steps p) x.definitions.state (s.jobs.map (Job.callOn .steps))
  usages : Tended x.usages.setup Occurrence.Respells (s.world disk) x₀.featureFilter.accepts known
    (fun p => told p ∨ s.Owes .features p) x.usages.state (s.jobs.map (Job.callOn .features))

/-- The occasions that are left tell of a path. -/
def Tells (occasions : List Occasion) (p : Path) : Prop :=
  ∃ n, .told n ∈ occasions ∧ n.path? = some p

theorem Attentive.stepFilter (h : Attentive x₀ disk known told s x) : x.stepFilter = x₀.stepFilter := by
  rw [Indexes.stepFilter, h.definitionSetup, h.definitionGlobs, Indexes.stepFilter]

theorem Attentive.featureFilter (h : Attentive x₀ disk known told s x) : x.featureFilter = x₀.featureFilter := by
  rw [Indexes.featureFilter, h.usageSetup, h.usageGlobs, Indexes.featureFilter]

/-- A report of a known document keeps the known paths attended. -/
theorem Attentive.edited (hapart : ∀ p q, known p → known q → p.startsWith q = true → p = q)
    (h : Attentive x₀ disk known told s x) (hp : known p) {documents : Documents}
    (hedited : s.Edited p documents job) {later : Path → Prop} (hlater : ∀ q, told q → later q ∨ q = p) :
    Attentive x₀ disk known later { s with documents := documents, jobs := s.jobs ++ [job] } x := by
  have hjob : job = Action.sync p ∨ job = .clear p :: Action.sync p := hedited.job.imp And.left And.left
  have hbrief : ∀ action ∈ job, action.IsBrief known := by
    rcases hjob with rfl | rfl <;> simp [Action.sync, Action.IsBrief, hp]
  have howes : ∀ corpus, Owes { s with documents := documents, jobs := s.jobs ++ [job] } corpus p := by
    refine fun corpus => ⟨job, List.mem_append_right _ (List.mem_singleton.mpr rfl), ?_⟩
    rcases hjob with rfl | rfl <;> cases corpus <;> simp [Action.sync, Action.asks]
  have hread : ∀ corpus q, known q →
      (later q ∨ Owes { s with documents := documents, jobs := s.jobs ++ [job] } corpus q) ∨
        World.read ⟨documents, disk⟩ q = (s.world disk).read q := by
    intro corpus q hq
    cases hpq : p.same q with
    | false => exact .inr (by simp only [World.read, hedited.others q hpq, world])
    | true =>
      obtain rfl := hapart q p hq hp (Path.startsWith_of_same (Path.same_symm hpq))
      exact .inl (.inr (howes corpus))
  have howed : ∀ corpus q, told q ∨ s.Owes corpus q →
      later q ∨ Owes { s with documents := documents, jobs := s.jobs ++ [job] } corpus q := by
    rintro corpus q (htold | ⟨old, hold, hq⟩)
    · rcases hlater q htold with hq | rfl
      · exact .inl hq
      · exact .inr (howes corpus)
    · exact .inr ⟨old, List.mem_append_left _ hold, hq⟩
  have hcalls : ∀ corpus, (Call.ended false :: s.jobs.map (Job.callOn corpus)).Perm
      ((s.jobs ++ [job]).map (Job.callOn corpus)) := by
    intro corpus
    rw [List.map_append, List.map_singleton, Job.callOn_of_brief hbrief]
    exact (List.perm_append_singleton _ _).symm
  exact
    { h with
      follows := List.forall_mem_append.mpr ⟨h.follows, List.forall_mem_singleton.mpr (.rests _ hbrief)⟩
      definitions :=
        (((Tended.past_cons_iff rfl).mpr h.definitions).perm (hcalls .steps)).mono (howed .steps) (hread .steps)
      usages :=
        (((Tended.past_cons_iff rfl).mpr h.usages).perm (hcalls .features)).mono (howed .features)
          (hread .features) }

/-- A job that has nothing left to do may go. -/
theorem Attentive.ends (h : Attentive x₀ disk known told s x) {jobs others : List Job}
    (before : s.jobs.Perm ([] :: others)) (after : jobs.Perm others) :
    Attentive x₀ disk known told { s with jobs := jobs } x := by
  have hends : ∀ corpus, (s.jobs.map (Job.callOn corpus)).Perm
      (Call.ended false :: jobs.map (Job.callOn corpus)) := fun corpus =>
    (before.map _).trans ((after.symm.map _).cons _)
  have howed : ∀ corpus q, told q ∨ s.Owes corpus q → told q ∨ Owes { s with jobs := jobs } corpus q := by
    rintro corpus q (htold | ⟨job, hjob, action, haction, hq⟩)
    · exact .inl htold
    · rcases List.mem_cons.mp (before.mem_iff.mp hjob) with rfl | hjob
      · cases haction
      · exact .inr ⟨job, after.mem_iff.mpr hjob, action, haction, hq⟩
  refine { h with follows := fun job hjob => ?_, definitions := ?_, usages := ?_ }
  · exact h.follows job (before.mem_iff.mpr (List.mem_cons_of_mem _ (after.mem_iff.mp hjob)))
  · exact ((Tended.past_cons_iff rfl).mp (h.definitions.perm (hends .steps))).mono (howed _) fun _ _ => .inr rfl
  · exact ((Tended.past_cons_iff rfl).mp (h.usages.perm (hends .features))).mono (howed _) fun _ _ => .inr rfl

theorem Attentive.acts (hapart : ∀ p q, known p → known q → p.startsWith q = true → p = q)
    (h : Attentive x₀ disk known told s x) (acted : action.Acts s.connected (s.world disk) x y left seen)
    {jobs others : List Job} (before : s.jobs.Perm ((action :: rest) :: others))
    (after : jobs.Perm ((left ++ rest) :: others)) (hquiet : .logged .keepsChanging ∉ seen) :
    Attentive x₀ disk known told { s with indexes := some y, jobs := jobs } y := by
  have hjob : Job.Follows known (action :: rest) := h.follows _ (before.mem_iff.mpr List.mem_cons_self)
  obtain ⟨hcurrent, hdefinitionSetup, husageSetup⟩ := acted.current h.current
  have hserves := acted.serves h.current h.definitions.live h.usages.live hjob
  have hcalls : ∀ corpus, (s.jobs.map (Job.callOn corpus)).Perm
      (Job.callOn corpus (action :: rest) :: others.map (Job.callOn corpus)) := fun corpus => before.map _
  have hcalls' : ∀ corpus, (Job.callOn corpus (left ++ rest) :: others.map (Job.callOn corpus)).Perm
      (jobs.map (Job.callOn corpus)) := fun corpus => (after.map _).symm
  -- what the step does not do itself is still owed
  have howed : ∀ corpus q, told q ∨ s.Owes corpus q → action.asks corpus = some q ∨ told q ∨
      Owes { s with indexes := some y, jobs := jobs } corpus q := by
    rintro corpus q (htold | ⟨job, hjob, a, ha, hq⟩)
    · exact .inr (.inl htold)
    · rcases List.mem_cons.mp (before.mem_iff.mp hjob) with rfl | hjob
      · rcases List.mem_cons.mp ha with rfl | ha
        · exact .inl hq
        · exact .inr (.inr ⟨_, after.mem_iff.mpr List.mem_cons_self, a, List.mem_append_right _ ha, hq⟩)
      · exact .inr (.inr ⟨job, after.mem_iff.mpr (List.mem_cons_of_mem _ hjob), a, ha, hq⟩)
  have hasked : ∀ corpus q, action.asks corpus = some q → known q := by
    intro corpus q hq
    cases hjob with
    | rests job brief => exact Action.known_of_asks (brief action List.mem_cons_self) hq
    | runs definitions usages rest scans looks brief => cases corpus <;> cases hq
  have hdefinitions := hserves.definitions
  have husages := hserves.usages
  rw [h.stepFilter] at hdefinitions
  rw [h.featureFilter] at husages
  refine ⟨rfl, hcurrent, hdefinitionSetup.trans h.definitionSetup, husageSetup.trans h.usageSetup,
    hdefinitions.globs.trans h.definitionGlobs, husages.globs.trans h.usageGlobs, fun job hjob => ?_, ?_, ?_⟩
  · rcases List.mem_cons.mp (after.mem_iff.mp hjob) with rfl | hjob
    · exact hserves.follows
    · exact h.follows job (before.mem_iff.mpr (List.mem_cons_of_mem _ hjob))
  · have hnext := Tended.served h.current.definitions.kept.law h.current.definitions.kept.sound hapart
      (hasked .steps) ((h.definitions.perm (hcalls .steps)).mono (howed _) fun _ _ => .inr rfl)
      hdefinitions hquiet
    rw [hdefinitionSetup]
    exact hnext.perm (hcalls' .steps)
  · have hnext := Tended.served h.current.usages.kept.law h.current.usages.kept.sound hapart
      (hasked .features) ((h.usages.perm (hcalls .features)).mono (howed _) fun _ _ => .inr rfl)
      husages hquiet
    rw [husageSetup]
    exact hnext.perm (hcalls' .features)

/-- A step of a job keeps the known paths attended, as long as no scan gives up. -/
theorem Attentive.works (hapart : ∀ p q, known p → known q → p.startsWith q = true → p = q)
    (h : Attentive x₀ disk known told s x) (hworks : s.Works disk x t seen)
    (hquiet : .logged .keepsChanging ∉ seen) : ∃ y, Attentive x₀ disk known told t y := by
  cases hworks with
  | rests => exact ⟨x, h⟩
  | ends jobs others before after => exact ⟨x, h.ends before after⟩
  | acts action rest y left seen acted jobs others before after =>
    exact ⟨y, h.acts hapart acted before after hquiet⟩

/-- An occasion that tells of no path may be forgotten. -/
theorem Attentive.forget (h : Attentive x₀ disk known (Tells (o :: occasions)) s x)
    (hnone : ∀ n, o = .told n → n.path? = none) : Attentive x₀ disk known (Tells occasions) s x := by
  have htells : ∀ q, Tells (o :: occasions) q → Tells occasions q := by
    rintro q ⟨n, hn, hq⟩
    rcases List.mem_cons.mp hn with hno | hn
    · rw [hnone n hno.symm] at hq
      cases hq
    · exact ⟨n, hn, hq⟩
  exact { h with
    definitions := h.definitions.mono (fun q => Or.imp_left (htells q)) fun _ _ => .inr rfl
    usages := h.usages.mono (fun q => Or.imp_left (htells q)) fun _ _ => .inr rfl }

theorem Attentive.course (hapart : ∀ p q, known p → known q → p.startsWith q = true → p = q)
    (hknown : ∀ p, Tells occasions p → known p) (hedits : ∀ o ∈ occasions, o.Edits)
    (h : Attentive x₀ disk known (Tells occasions) s x)
    (hquiet : .logged .keepsChanging ∉ (s.course (occasions.map (disk, ·))).2) :
    ∃ y, Attentive x₀ disk known (Tells []) (s.course (occasions.map (disk, ·))).1 y := by
  induction occasions generalizing s x with
  | nil => exact ⟨x, h⟩
  | cons o occasions ih =>
    rw [List.map_cons, course_cons, List.mem_append, not_or] at hquiet
    have hknown' : ∀ p, Tells occasions p → known p := fun p ⟨n, hn, hp⟩ =>
      hknown p ⟨n, List.mem_cons_of_mem o hn, hp⟩
    have hongoing : o ≠ .told .initialized := by
      rintro rfl
      cases hedits _ List.mem_cons_self
    have hnext : ∃ y, Attentive x₀ disk known (Tells occasions) (s.meet disk o).1 y := by
      have hmeets := meets h.indexes h.current disk hongoing
      generalize s.meet disk o = next at hmeets hquiet
      obtain ⟨t, seen⟩ := next
      cases hmeets with
      | edits n p path documents job edited =>
        refine ⟨x, h.edited hapart (hknown p ⟨n, List.mem_cons_self, path⟩) edited ?_⟩
        rintro q ⟨m, hm, hq⟩
        rcases List.mem_cons.mp hm with hmn | hm
        · cases hmn
          exact .inr (Option.some.inj (hq.symm.trans path))
        · exact .inl ⟨m, hm, hq⟩
      | ignores n path => exact ⟨x, h.forget fun m hm => by cases hm; exact path⟩
      | configures settings source corpora => cases hedits _ List.mem_cons_self
      | notices e => exact (hedits _ List.mem_cons_self).elim
      | works number turn t seen worked => exact (h.forget nofun).works hapart worked hquiet.1
    obtain ⟨y, hy⟩ := hnext
    exact ih hknown' (fun o ho => hedits o (List.mem_cons_of_mem _ ho)) hy hquiet.2

/-- Documents are edited while nothing else happens. None of them lies above another one, each is spelled in one
way, and the jobs take their steps whenever they like. When no job is left and no scan has given up, the entry of
every reported document is that of its buffer, or of its file if it is not open, in each index that takes it. -/
theorem buffers_shown (hindexes : s.indexes = some x) (hx : x.Reachable)
    (hlive : x.definitions.state.isDisposed = false ∧ x.usages.state.isDisposed = false)
    (hidle : x.definitions.state.scanning = [] ∧ x.usages.state.scanning = []) (hjobs : s.jobs = [])
    (hedits : ∀ o ∈ occasions, o.Edits)
    (hapart : ∀ p q, Tells occasions p → Tells occasions q → p.startsWith q = true → p = q) :
    let run := s.course (occasions.map (disk, ·))
    run.1.jobs = [] → .logged .keepsChanging ∉ run.2 →
      ∃ y, run.1.indexes = some y ∧ ∀ p, Tells occasions p →
        let found := (run.1.world disk).read p
        (x.stepFilter.accepts p = true →
          y.definitions.state.Shows x.definitions.setup Definition.Respells p found) ∧
        (x.featureFilter.accepts p = true →
          y.usages.state.Shows x.usages.setup Occurrence.Respells p found) := by
  intro run hdone hquiet
  have hstart : Attentive x disk (Tells occasions) (Tells occasions) s x := by
    refine ⟨hindexes, hx.current, rfl, rfl, rfl, rfl, by rw [hjobs]; nofun, ⟨hlive.1, fun p hp _ => ?_⟩,
      ⟨hlive.2, fun p hp _ => ?_⟩⟩ <;> rw [hjobs]
    · exact .nil hidle.1 (.inl (.inl hp))
    · exact .nil hidle.2 (.inl (.inl hp))
  obtain ⟨y, hy⟩ := hstart.course hapart (fun p hp => hp) hedits hquiet
  have hdefinitions := hy.definitions.attends
  have husages := hy.usages.attends
  rw [hdone] at hdefinitions husages
  have howed : ∀ corpus p, ¬(Tells [] p ∨ run.1.Owes corpus p) := by
    rintro corpus p (⟨n, hn, -⟩ | ⟨job, hjob, -⟩)
    · cases hn
    · rw [hdone] at hjob
      cases hjob
  refine ⟨y, hy.indexes, fun p hp => ⟨fun haccepts => ?_, fun haccepts => ?_⟩⟩
  · rw [← hy.definitionSetup]
    exact (hdefinitions p hp haccepts).shows (howed _ p)
  · rw [← hy.usageSetup]
    exact (husages p hp haccepts).shows (howed _ p)

/-- The editor opens a feature file and changes it while the first text is being read. -/
def changedMidRead : List Occasion :=
  let document : Uri := ⟨none, some ["w".toList, "a.feature".toList]⟩
  let first : Occasion := .works 0 ⟨.features, 0⟩
  let second : Occasion := .works 1 ⟨.features, 0⟩
  [.told (.opened document "Given a".toList 1), first, first, first, first,
    .told (.changed document 2 ["When b".toList]), second, second, second, second, second,
    first, first, first, first, first, first, first, first, first]

theorem tells_changedMidRead : Tells changedMidRead p ↔ p = ⟨"/w/a.feature".toList⟩ := by
  constructor
  · rintro ⟨n, hn, hp⟩
    simp only [changedMidRead, List.mem_cons, Occasion.told.injEq, reduceCtorEq, List.not_mem_nil, or_false,
      false_or] at hn
    rcases hn with rfl | rfl <;> exact (Option.some.inj hp).symm
  · rintro rfl
    exact ⟨_, List.mem_cons_self, rfl⟩

/-- The course of that on a server that has indexed nothing yet. -/
def changedMidReadCourse : Server × List Output :=
  Server.course { indexes := some (.new ⟨"/w".toList⟩ ⟨["*.py".toList], []⟩ ⟨["*.feature".toList], []⟩ 1 5) }
    (changedMidRead.map (.empty, ·))

/-- The scan of the first text reads the file once more, since the job of the second one finds it in flight. -/
theorem buffers_shown_changedMidRead :
    changedMidReadCourse.1.jobs = [] ∧ ∃ y, changedMidReadCourse.1.indexes = some y ∧
      y.usages.state.Shows (UsageIndex.new ⟨"/w".toList⟩ ⟨["*.feature".toList], []⟩ 1 5).setup Occurrence.Respells
        ⟨"/w/a.feature".toList⟩ (.ok "When b".toList) := by
  have hreachable : (Indexes.new ⟨"/w".toList⟩ ⟨["*.py".toList], []⟩ ⟨["*.feature".toList], []⟩ 1 5).Reachable :=
    ⟨_, _, _, _, _, fun _ => .ask (.offered .given), 0, rfl⟩
  have hedits : ∀ o ∈ changedMidRead, o.Edits := by
    simp [changedMidRead, Occasion.Edits, Notification.document?]
  have hapart : ∀ p q, Tells changedMidRead p → Tells changedMidRead q → p.startsWith q = true → p = q :=
    fun p q hp hq _ => (tells_changedMidRead.mp hp).trans (tells_changedMidRead.mp hq).symm
  have hdone : changedMidReadCourse.1.jobs = [] := List.isEmpty_iff.mp (by decide +kernel)
  have hpublished : changedMidReadCourse.2.all (fun
      | .published _ => true
      | .logged _ => false) = true := by
    decide +kernel
  have hquiet : .logged .keepsChanging ∉ changedMidReadCourse.2 := fun hlogged => by
    cases List.all_eq_true.mp hpublished _ hlogged
  obtain ⟨y, hy, hshows⟩ := buffers_shown rfl hreachable ⟨rfl, rfl⟩ ⟨rfl, rfl⟩ rfl hedits hapart hdone hquiet
  have hread : (changedMidReadCourse.1.world .empty).read ⟨"/w/a.feature".toList⟩ = .ok "When b".toList := by
    decide +kernel
  have hfeature := (hshows ⟨"/w/a.feature".toList⟩ (tells_changedMidRead.mpr rfl)).2 (by decide +kernel)
  exact ⟨hdone, y, hy, by rw [← hread]; exact hfeature⟩

end Server

end StepLink
