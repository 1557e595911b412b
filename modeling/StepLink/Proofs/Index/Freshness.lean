import StepLink.Proofs.Index.Turn

/-! No request for a file is lost. While a scan of a path is in flight, whoever asks for that path again
only marks it, so the scan has to read once more; when it ends without having given up, its last read began
after every such request. The moments of a run are numbered, and what happens at a moment is observed from
the calls before and after it. -/

namespace StepLink

open IndexState

/-- A run of an index on which no call is under way at first. -/
structure Run (α : Type) where
  setup : IndexSetup α
  start : IndexState α
  moves : Nat → Move

namespace Run

variable {α : Type}

def traffic (r : Run α) (t : Nat) : Traffic α :=
  Traffic.after r.setup ⟨r.start, []⟩ r.moves t

def index (r : Run α) (t : Nat) : IndexState α :=
  (r.traffic t).index

/-- The call with a number, if it has begun before the moment. -/
def call? (r : Run α) (n t : Nat) : Option Call :=
  (r.traffic t).calls[n]?

/-- At the moment a call takes a step, in a world of that moment. -/
def Steps (r : Run α) (n t : Nat) (c : Call) (world : World) : Prop :=
  r.call? n t = some c ∧ ∃ pick, r.moves t = .advance n world pick

def isReading (r : Run α) (n t : Nat) : Bool :=
  (r.call? n t).any fun c => c.scans.any Scan.isReading

/-- A read of the call begins at the moment. -/
def startsRead (r : Run α) (n t : Nat) : Bool :=
  !r.isReading n t && r.isReading n (t + 1)

/-- The number of reads of the call that have begun before the moment. -/
def reads (r : Run α) (n t : Nat) : Nat :=
  (List.range t).countP (r.startsRead n)

/-- At the moment a call arrives that asks for the path to be read or dropped. -/
def Arrives (r : Run α) (p : Path) (t : Nat) : Prop :=
  ∃ n c world, r.Steps n t c world ∧ c.requests p = true

/-- A scan of the path takes off at the moment. -/
def Enters (r : Run α) (n : Nat) (p : Path) (t : Nat) : Prop :=
  ∃ world, r.Steps n t (.scan ⟨p, .entering⟩) world ∧ r.startsRead n t = true

/-- The read of a scan of the path returns at the moment. -/
def Returns (r : Run α) (n : Nat) (p : Path) (t : Nat) (found : Except ReadError Text) : Prop :=
  ∃ replays world, r.Steps n t (.scan ⟨p, .reading replays⟩) world ∧ world.read p = found

/-- A scan of the path that has been in flight is over after the moment. -/
def Ends (r : Run α) (n : Nat) (p : Path) (t : Nat) (givenUp : Bool) : Prop :=
  ∃ replays world, r.Steps n t (.scan ⟨p, .deciding replays⟩) world ∧
    (Scan.step r.setup world (r.index t) ⟨p, .deciding replays⟩).2.1.stage = .ended givenUp

/-- Files are only scanned and removed, on an index that is not disposed of and not being scanned at first,
and no path that is scanned lies strictly below another one. -/
structure ScansAndRemoves (r : Run α) : Prop where
  reachable : Reachable r.setup r.start
  live : r.start.isDisposed = false
  idle : r.start.scanning = []
  moves : ∀ t, (r.moves t).scansOrRemoves = true
  apart : ∀ {t u p q}, r.moves t = .start (.scanFile p) → r.moves u = .start (.scanFile q) →
    p.startsWith q = true → p.same q = true

variable {r : Run α} {n m t : Nat} {p q : Path} {stage : ScanStage} {c : Call} {world : World}

theorem traffic_succ (r : Run α) (t : Nat) : r.traffic (t + 1) = (r.traffic t).step r.setup (r.moves t) := rfl

theorem Steps.unique (h : r.Steps n t c world) {m : Nat} {d : Call} {other : World}
    (h' : r.Steps m t d other) : n = m ∧ c = d ∧ world = other := by
  obtain ⟨hcall, pick, hmove⟩ := h
  obtain ⟨hcall', pick', hmove'⟩ := h'
  obtain ⟨rfl, rfl, -⟩ := Move.advance.inj (hmove.symm.trans hmove')
  exact ⟨rfl, Option.some.inj (hcall.symm.trans hcall'), rfl⟩

/-- The call is that of a scan or of a removal that begins at the moment. -/
def Begins (r : Run α) (t : Nat) (c : Call) : Prop :=
  (∃ p, r.moves t = .start (.scanFile p) ∧ c = .scan ⟨p, .entering⟩) ∨ ∃ p, c = .removing p

/-- What happens at one moment of a run that scans and removes files. -/
inductive Moment (r : Run α) (t : Nat) : Prop where
  | waits (quiet : ∀ n c world, ¬r.Steps n t c world) (index : r.index (t + 1) = r.index t)
    (calls : ∀ n, r.call? n (t + 1) = r.call? n t ∨
      r.call? n t = none ∧ ∃ c, r.Begins t c ∧ r.call? n (t + 1) = some c)
  | turns (n : Nat) (world : World) (c d : Call) (steps : r.Steps n t c world)
    (turn : Call.Turn r.setup world (r.index t) c (r.index (t + 1)) d)
    (calls : ∀ m, r.call? m (t + 1) = if n = m then some d else r.call? m t)

/-- What holds of a run that scans and removes files at every moment: a path being scanned is marked, and
there is only one scan of it in flight. -/
structure Steady (r : Run α) (t : Nat) : Prop where
  live : (r.index t).isDisposed = false
  plain : ∀ {n c}, r.call? n t = some c → c.scansOrRemoves = true
  begun : ∀ {n p stage}, r.call? n t = some (.scan ⟨p, stage⟩) → ∃ u, r.moves u = .start (.scanFile p)
  marked : ∀ {n p stage}, r.call? n t = some (.scan ⟨p, stage⟩) → stage.replays?.isSome = true →
    ((r.index t).scanning? p).isSome = true
  alone : ∀ {n m p q stage other}, r.call? n t = some (.scan ⟨p, stage⟩) → stage.replays?.isSome = true →
    r.call? m t = some (.scan ⟨q, other⟩) → other.replays?.isSome = true → p.same q = true → n = m

theorem Steady.moment (hs : r.Steady t) (h : r.ScansAndRemoves) : r.Moment t := by
  cases hmove : r.moves t with
  | start request =>
    have hnext : r.traffic (t + 1) = ⟨r.index t, (r.traffic t).calls ++ [request.call]⟩ := by
      rw [traffic_succ, hmove]
      rfl
    have hbegins : r.Begins t request.call := by
      have hplain := h.moves t
      rw [hmove] at hplain
      cases request with
      | scanFile p => exact .inl ⟨p, hmove, rfl⟩
      | removeFile p => exact .inr ⟨p, rfl⟩
      | _ => cases hplain
    refine .waits ?_ (by rw [index, hnext]) fun n => ?_
    · rintro n c world ⟨-, pick, hadvance⟩
      rw [hmove] at hadvance
      cases hadvance
    · have hcall : r.call? n (t + 1) = ((r.traffic t).calls ++ [request.call])[n]? := by rw [call?, hnext]
      rcases Nat.lt_trichotomy n (r.traffic t).calls.length with hlt | heq | hgt
      · exact .inl (hcall.trans (List.getElem?_append_left hlt))
      · refine .inr ⟨List.getElem?_eq_none (Nat.le_of_eq heq.symm), _, hbegins, hcall.trans ?_⟩
        rw [heq, List.getElem?_concat_length]
      · refine .inl (hcall.trans ?_)
        rw [call?, List.getElem?_eq_none (Nat.le_of_lt hgt), List.getElem?_eq_none]
        rw [List.length_append]
        exact hgt
  | advance n world pick =>
    cases hcall : r.call? n t with
    | none =>
      have hnext : r.traffic (t + 1) = r.traffic t := by
        rw [call?] at hcall
        rw [traffic_succ, hmove, Traffic.step, hcall]
      refine .waits ?_ (by rw [index, hnext, index]) fun m => .inl (by rw [call?, hnext, call?])
      rintro m c other ⟨hm, pick', hadvance⟩
      obtain ⟨rfl, -, -⟩ := Move.advance.inj (hmove.symm.trans hadvance)
      rw [hcall] at hm
      cases hm
    | some c =>
      have hturn := Call.step_turn r.setup world pick hs.live (hs.plain hcall)
      have hnext : r.traffic (t + 1) = ⟨(c.step r.setup world pick (r.index t)).1,
          (r.traffic t).calls.set n (c.step r.setup world pick (r.index t)).2.1⟩ := by
        rw [call?] at hcall
        rw [traffic_succ, hmove, Traffic.step, hcall]
        rfl
      have hindex : r.index (t + 1) = (c.step r.setup world pick (r.index t)).1 := by rw [index, hnext]
      rw [← hindex] at hturn
      refine .turns n world c _ ⟨hcall, pick, hmove⟩ hturn fun m => ?_
      obtain ⟨hn, -⟩ := List.getElem?_eq_some_iff.mp hcall
      rw [call?, hnext, List.getElem?_set, if_pos hn]
      rfl
  | _ =>
    have hplain := h.moves t
    rw [hmove] at hplain
    cases hplain

theorem Steady.frame (hs : r.Steady t) (h : r.ScansAndRemoves) {m : Nat} {c d : Call} (hnm : n ≠ m)
    (hm : r.call? m t = some c) (turn : Call.Turn r.setup world (r.index t) c (r.index (t + 1)) d)
    (hn : r.call? n t = some (.scan ⟨p, stage⟩)) (hstage : stage.replays?.isSome = true) :
    c.requests p = false ∧ (r.index (t + 1)).scanning? p = (r.index t).scanning? p ∧
        (r.index (t + 1)).items? p = (r.index t).items? p ∨
      c.requests p = true ∧ (r.index (t + 1)).scanning? p = some true := by
  refine turn.frame (hs.marked hn hstage) (fun q other hc hother => ?_) fun q other hc hstarts => ?_
  · rw [hc] at hm
    rw [← Bool.not_eq_true, Path.same_comm]
    exact fun hsame => hnm (hs.alone hn hstage hm hother hsame)
  · rw [hc] at hm
    obtain ⟨u, hu⟩ := hs.begun hn
    obtain ⟨v, hv⟩ := hs.begun hm
    exact h.apart hu hv hstarts

theorem Steady.zero (h : r.ScansAndRemoves) : r.Steady 0 where
  live := h.live
  plain hcall := by cases hcall
  begun hcall := by cases hcall
  marked hcall := by cases hcall
  alone hcall := by cases hcall

/-- A turn keeps what holds at every moment: only a scan that finds no mark takes off. -/
theorem Steady.turns (hs : r.Steady t) (h : r.ScansAndRemoves) {c d : Call} (steps : r.Steps n t c world)
    (turn : Call.Turn r.setup world (r.index t) c (r.index (t + 1)) d)
    (calls : ∀ m, r.call? m (t + 1) = if n = m then some d else r.call? m t) : r.Steady (t + 1) := by
  -- what the scans in flight after the turn were before it
  have hbefore : ∀ {m p stage}, r.call? m (t + 1) = some (.scan ⟨p, stage⟩) → stage.replays?.isSome = true →
      ((r.index (t + 1)).scanning? p).isSome = true ∧
        ∃ before, r.call? m t = some (.scan ⟨p, before⟩) ∧
          (before.replays?.isSome = true ∨ n = m ∧ (r.index t).scanning? p = none) := by
    intro m p stage hm hstage
    by_cases hnm : n = m
    · subst hnm
      rw [calls, if_pos rfl] at hm
      obtain rfl := Option.some.inj hm
      obtain ⟨-, before, rfl, ⟨rfl, hfree, hmark⟩ | ⟨hflies, hmark⟩⟩ := turn.scan
      · exact ⟨by rw [hmark]; rfl, _, steps.1, .inr ⟨rfl, hfree⟩⟩
      · exact ⟨by rw [hmark]; exact hs.marked steps.1 hflies, _, steps.1, .inl hflies⟩
    · rw [calls, if_neg hnm] at hm
      refine ⟨?_, stage, hm, .inl hstage⟩
      rcases hs.frame h (Ne.symm hnm) steps.1 turn hm hstage with ⟨-, hmark, -⟩ | ⟨-, hmark⟩
      · rw [hmark]
        exact hs.marked hm hstage
      · rw [hmark]
        rfl
  refine ⟨?_, ?_, ?_, fun hm hstage => (hbefore hm hstage).1, ?_⟩
  · rw [turn.sameSettings.isDisposed]
    exact hs.live
  · intro m e hm
    rw [calls] at hm
    split at hm
    next =>
      obtain rfl := Option.some.inj hm
      exact turn.scansOrRemoves
    next => exact hs.plain hm
  · intro m p stage hm
    rw [calls] at hm
    split at hm
    next =>
      obtain rfl := Option.some.inj hm
      obtain ⟨-, before, rfl, -⟩ := turn.scan
      exact hs.begun steps.1
    next => exact hs.begun hm
  · intro m k p q stage other hm hstage hk hother hsame
    obtain ⟨-, before, hm, hflies⟩ := hbefore hm hstage
    obtain ⟨-, before', hk, hflies'⟩ := hbefore hk hother
    rcases hflies with hflies | ⟨rfl, hfree⟩ <;> rcases hflies' with hflies' | ⟨rfl, hfree'⟩
    · exact hs.alone hm hflies hk hflies' hsame
    · rw [← scanning?_congr hsame] at hfree'
      simpa [hfree'] using hs.marked hm hflies
    · rw [scanning?_congr hsame] at hfree
      simpa [hfree] using hs.marked hk hflies'
    · rfl

theorem Steady.waits (hs : r.Steady t) (index : r.index (t + 1) = r.index t)
    (calls : ∀ n, r.call? n (t + 1) = r.call? n t ∨
      r.call? n t = none ∧ ∃ c, r.Begins t c ∧ r.call? n (t + 1) = some c) : r.Steady (t + 1) := by
  have hcases : ∀ {m c}, r.call? m (t + 1) = some c → r.call? m t = some c ∨ r.Begins t c := by
    intro m c hm
    rcases calls m with hsame | ⟨-, d, hbegins, hnext⟩
    · exact .inl (hsame.symm.trans hm)
    · obtain rfl := Option.some.inj (hnext.symm.trans hm)
      exact .inr hbegins
  have hbefore : ∀ {m p stage}, r.call? m (t + 1) = some (.scan ⟨p, stage⟩) → stage.replays?.isSome = true →
      r.call? m t = some (.scan ⟨p, stage⟩) := by
    intro m p stage hm hstage
    rcases hcases hm with hm | ⟨q, -, hbegun⟩ | ⟨q, hbegun⟩
    · exact hm
    · cases hbegun
      cases hstage
    · cases hbegun
  refine ⟨by rw [index]; exact hs.live, ?_, ?_, ?_, ?_⟩
  · intro m c hm
    rcases hcases hm with hm | ⟨q, -, rfl⟩ | ⟨q, rfl⟩
    · exact hs.plain hm
    · rfl
    · rfl
  · intro m p stage hm
    rcases hcases hm with hm | ⟨q, hmove, hbegun⟩ | ⟨q, hbegun⟩
    · exact hs.begun hm
    · cases hbegun
      exact ⟨t, hmove⟩
    · cases hbegun
  · intro m p stage hm hstage
    rw [index]
    exact hs.marked (hbefore hm hstage) hstage
  · intro m k p q stage other hm hstage hk hother
    exact hs.alone (hbefore hm hstage) hstage (hbefore hk hother) hother

theorem ScansAndRemoves.steady (h : r.ScansAndRemoves) (t : Nat) : r.Steady t := by
  induction t with
  | zero => exact .zero h
  | succ t hs =>
    cases hs.moment h with
    | waits quiet index calls => exact hs.waits index calls
    | turns n world c d steps turn calls => exact hs.turns h steps turn calls

/-! ### The rounds of a scan -/

theorem isReading_of_call? (h : r.call? n t = some c) : r.isReading n t = c.scans.any Scan.isReading := by
  rw [isReading, h, Option.any_some]

theorem startsRead_eq_false (h : r.isReading n (t + 1) = true → r.isReading n t = true) :
    r.startsRead n t = false := by
  rw [startsRead]
  cases hnext : r.isReading n (t + 1) with
  | false => rw [Bool.and_false]
  | true => rw [h hnext]; rfl

theorem reads_succ (r : Run α) (n t : Nat) :
    r.reads n (t + 1) = r.reads n t + if r.startsRead n t then 1 else 0 := by
  rw [reads, List.range_succ, List.countP_append, List.countP_singleton, ← reads]

theorem reads_succ_of_not (h : r.startsRead n t = false) : r.reads n (t + 1) = r.reads n t := by
  rw [reads_succ, h, if_neg Bool.false_ne_true, Nat.add_zero]

theorem Steps.arrives_iff (steps : r.Steps n t c world) : r.Arrives p t ↔ c.requests p = true := by
  refine ⟨?_, fun hrequests => ⟨n, c, world, steps, hrequests⟩⟩
  rintro ⟨m, d, other, steps', hrequests⟩
  obtain ⟨-, rfl, -⟩ := steps.unique steps'
  exact hrequests

/-- A scan of the path has taken off at moment `e`, and its last read so far has begun at moment `b`. Its
mark tells whether someone has asked for the path since. -/
structure Round (r : Run α) (n : Nat) (p : Path) (replays e b t : Nat) : Prop where
  entered : r.Enters n p e
  order : e ≤ b ∧ b < t
  starts : r.startsRead n b = true
  last : ∀ u, b < u → u < t → r.startsRead n u = false
  count : r.reads n t = replays + 1
  few : replays ≤ r.setup.maxReplays
  fresh : (r.index t).scanning? p = some false → ∀ a, e < a → a < t → r.Arrives p a → a < b
  queued : (r.index t).scanning? p = some true → ∃ a, b < a ∧ a < t ∧ r.Arrives p a

/-- A round begins with a read, for which the mark is as if nobody had asked for the path yet. -/
theorem Round.begin {replays e : Nat} (entered : r.Enters n p e) (het : e ≤ t)
    (hread : r.startsRead n t = true) (hreads : r.reads n t = replays) (few : replays ≤ r.setup.maxReplays)
    (hmark : (r.index (t + 1)).scanning? p = some false) (hquiet : e < t → ¬r.Arrives p t) :
    r.Round n p replays e t (t + 1) := by
  refine ⟨entered, ⟨het, Nat.lt_succ_self t⟩, hread, fun u htu hut => ?_, ?_, few,
    fun _ a hea hat harrives => ?_, fun hqueued => ?_⟩
  · omega
  · rw [reads_succ, hread, if_pos rfl, hreads]
  · rcases Nat.lt_succ_iff_lt_or_eq.mp hat with hat | rfl
    · exact hat
    · exact absurd harrives (hquiet hea)
  · rw [hmark] at hqueued
    cases hqueued

/-- A round goes on over a moment that begins no read of it. -/
theorem Round.succ {replays e b : Nat} (round : r.Round n p replays e b t) (hread : r.startsRead n t = false)
    (hmark : ¬r.Arrives p t ∧ (r.index (t + 1)).scanning? p = (r.index t).scanning? p ∨
      r.Arrives p t ∧ (r.index (t + 1)).scanning? p = some true) : r.Round n p replays e b (t + 1) := by
  obtain ⟨heb, hbt⟩ := round.order
  refine ⟨round.entered, ⟨heb, by omega⟩, round.starts, fun u hbu hut => ?_, ?_, round.few, ?_, ?_⟩
  · rcases Nat.lt_succ_iff_lt_or_eq.mp hut with hut | rfl
    · exact round.last u hbu hut
    · exact hread
  · rw [reads_succ_of_not hread, round.count]
  · intro hnext a hea hat harrives
    rcases hmark with ⟨hquiet, hsame⟩ | ⟨-, hqueued⟩
    · rcases Nat.lt_succ_iff_lt_or_eq.mp hat with hat | rfl
      · exact round.fresh (hsame.symm.trans hnext) a hea hat harrives
      · exact absurd harrives hquiet
    · rw [hqueued] at hnext
      cases hnext
  · intro hnext
    rcases hmark with ⟨-, hsame⟩ | ⟨harrives, -⟩
    · obtain ⟨a, hba, hat, harrives⟩ := round.queued (hsame.symm.trans hnext)
      exact ⟨a, hba, by omega, harrives⟩
    · exact ⟨t, hbt, by omega, harrives⟩

/-- The read that has begun at moment `b` has returned. -/
def HasRead (r : Run α) (n : Nat) (p : Path) (b t : Nat) (found : Except ReadError Text) : Prop :=
  ∃ c, b < c ∧ c < t ∧ r.Returns n p c found

theorem HasRead.succ {b : Nat} {found : Except ReadError Text} (h : r.HasRead n p b t found) :
    r.HasRead n p b (t + 1) found := by
  obtain ⟨c, hbc, hct, hreturns⟩ := h
  exact ⟨c, hbc, by omega, hreturns⟩

/-- The round has committed what it has found, which is still there unless the path has been asked for. -/
def Committed (r : Run α) (equal : α → α → Prop) (n : Nat) (p : Path) (replays t : Nat) : Prop :=
  ∃ e b found, r.Round n p replays e b t ∧ r.HasRead n p b t found ∧
    ((r.index t).scanning? p = some false → (r.index t).Shows r.setup equal p found)

/-- How far a call has come. -/
def Progress (r : Run α) (equal : α → α → Prop) (n t : Nat) : Call → Prop
  | .scan ⟨_, .entering⟩ => r.reads n t = 0
  | .scan ⟨p, .reading replays⟩ => ∃ e b, r.Round n p replays e b t
  | .scan ⟨p, .holding replays found⟩ => ∃ e b, r.Round n p replays e b t ∧ r.HasRead n p b t found
  | .scan ⟨p, .telling replays _⟩ => r.Committed equal n p replays t
  | .scan ⟨p, .deciding replays⟩ => r.Committed equal n p replays t
  | _ => r.reads n t ≤ r.setup.maxReplays + 1

theorem progress_committed {equal : α → α → Prop} {replays : Nat}
    (past : stage.replays? = some replays ∧ stage.isCommitted = true) :
    r.Progress equal n t (.scan ⟨p, stage⟩) ↔ r.Committed equal n p replays t := by
  obtain ⟨hreplays, hcommitted⟩ := past
  cases stage with
  | telling again notice =>
    cases hreplays
    exact Iff.rfl
  | deciding again =>
    cases hreplays
    exact Iff.rfl
  | _ => cases hcommitted

theorem progress_isPast {equal : α → α → Prop} (past : c.isPast = true) :
    r.Progress equal n t c ↔ r.reads n t ≤ r.setup.maxReplays + 1 := by
  cases c <;> first | exact Iff.rfl | cases past

/-- A call has come as far as before when another one has taken a turn, or none has. -/
theorem Progress.keep {equal : α → α → Prop} (hplain : c.scansOrRemoves = true) (hc : r.Progress equal n t c)
    (hread : r.startsRead n t = false)
    (hframe : ∀ p stage, c = .scan ⟨p, stage⟩ → stage.replays?.isSome = true →
      ¬r.Arrives p t ∧ (r.index (t + 1)).scanning? p = (r.index t).scanning? p ∧
          (r.index (t + 1)).items? p = (r.index t).items? p ∨
        r.Arrives p t ∧ (r.index (t + 1)).scanning? p = some true) :
    r.Progress equal n (t + 1) c := by
  have hround : ∀ {p stage replays e b}, c = .scan ⟨p, stage⟩ → stage.replays?.isSome = true →
      r.Round n p replays e b t → r.Round n p replays e b (t + 1) := by
    intro p stage replays e b heq hstage round
    refine round.succ hread ((hframe p stage heq hstage).imp_left ?_)
    exact fun ⟨hquiet, hsame, _⟩ => ⟨hquiet, hsame⟩
  have hcommitted : ∀ {p stage replays}, c = .scan ⟨p, stage⟩ → stage.replays?.isSome = true →
      r.Committed equal n p replays t → r.Committed equal n p replays (t + 1) := by
    rintro p stage replays heq hstage ⟨e, b, found, round, hreturned, hshows⟩
    refine ⟨e, b, found, hround heq hstage round, hreturned.succ, fun hnext => ?_⟩
    rcases hframe p stage heq hstage with ⟨-, hsame, hitems⟩ | ⟨-, hqueued⟩
    · exact (hshows (hsame.symm.trans hnext)).congr hitems
    · rw [hqueued] at hnext
      cases hnext
  have hreads : r.reads n (t + 1) = r.reads n t := reads_succ_of_not hread
  match c, hplain, hc with
  | .scan ⟨p, .entering⟩, _, hc => exact hreads.trans hc
  | .scan ⟨p, .reading replays⟩, _, ⟨e, b, round⟩ => exact ⟨e, b, hround rfl rfl round⟩
  | .scan ⟨p, .holding replays found⟩, _, ⟨e, b, round, hreturned⟩ =>
    exact ⟨e, b, hround rfl rfl round, hreturned.succ⟩
  | .scan ⟨p, .telling replays notice⟩, _, hc => exact hcommitted rfl rfl hc
  | .scan ⟨p, .deciding replays⟩, _, hc => exact hcommitted rfl rfl hc
  | .removing p, _, hc =>
    show r.reads n (t + 1) ≤ r.setup.maxReplays + 1
    rw [hreads]
    exact hc
  | .removed notice, _, hc =>
    show r.reads n (t + 1) ≤ r.setup.maxReplays + 1
    rw [hreads]
    exact hc
  | .ended dropped, _, hc =>
    show r.reads n (t + 1) ≤ r.setup.maxReplays + 1
    rw [hreads]
    exact hc

/-- A call that takes a turn comes further. -/
theorem Progress.turn {equal : α → α → Prop} {pathOf : α → Path} (law : Lawful r.setup equal pathOf)
    (hsound : Sound r.setup pathOf (r.index t)) (hs : r.Steady t) {d : Call} (steps : r.Steps n t c world)
    (turn : Call.Turn r.setup world (r.index t) c (r.index (t + 1)) d) (hnext : r.call? n (t + 1) = some d)
    (hc : r.Progress equal n t c) : r.Progress equal n (t + 1) d := by
  have hbefore := isReading_of_call? steps.1
  have hafter := isReading_of_call? hnext
  have hrests : d.scans.any Scan.isReading = false → r.startsRead n t = false := by
    intro hd
    refine startsRead_eq_false fun h => ?_
    rw [hafter, hd] at h
    cases h
  generalize hindex : r.index (t + 1) = s at turn
  -- a turn after the scan has taken off asks for nothing, and it begins a read only when it decides for one
  have hround : ∀ {p stage replays e b}, c = .scan ⟨p, stage⟩ → stage.replays?.isSome = true →
      (r.isReading n (t + 1) = true → r.isReading n t = true) →
      s.scanning? p = (r.index t).scanning? p → r.Round n p replays e b t →
      r.Round n p replays e b (t + 1) := by
    intro p stage replays e b heq hstage hread hsame round
    refine round.succ (startsRead_eq_false hread) (.inl ⟨?_, hindex ▸ hsame⟩)
    rw [steps.arrives_iff, heq, ScanStage.requests_of_replays? hstage]
    exact Bool.false_ne_true
  cases turn with
  | enters p free =>
    have hread : r.startsRead n t = true := by
      rw [startsRead, hbefore, hafter]
      rfl
    have hmark : (r.index (t + 1)).scanning? p = some false := by
      rw [hindex, scanning?_eq_lookup, lookup_begun, ← scanning?_eq_lookup, free, Path.same_refl]
      rfl
    refine ⟨t, t, .begin ⟨world, steps, hread⟩ (Nat.le_refl t) hread hc (Nat.zero_le _) hmark fun htt => ?_⟩
    exact absurd htt (Nat.lt_irrefl t)
  | joins p marked =>
    have hread : r.startsRead n t = false := hrests rfl
    have hreads : r.reads n (t + 1) = 0 := (reads_succ_of_not hread).trans hc
    show r.reads n (t + 1) ≤ r.setup.maxReplays + 1
    omega
  | reads p replays =>
    obtain ⟨e, b, round⟩ := hc
    refine ⟨e, b, hround rfl rfl (fun _ => hbefore) rfl round, t, round.order.2, Nat.lt_succ_self t, ?_⟩
    exact ⟨replays, world, steps, rfl⟩
  | commits p replays text stage past =>
    obtain ⟨e, b, round, hreturned⟩ := hc
    refine (progress_committed past).mpr ⟨e, b, .ok text, ?_, hreturned.succ, fun _ => ?_⟩
    · refine hround rfl rfl (fun _ => hbefore) ?_ round
      exact scanning?_commit _ _ _ _ _
    · rw [hindex]
      exact hsound.commit_shows law hs.live p text
  | fails p replays e stage past =>
    obtain ⟨f, b, round, hreturned⟩ := hc
    refine (progress_committed past).mpr ⟨f, b, .error e, ?_, hreturned.succ, fun _ => ?_⟩
    · refine hround rfl rfl (fun _ => hbefore) ?_ round
      rw [scanning?_dropBelow]
      cases (r.index t).scanning? p <;> rfl
    · rw [hindex]
      exact dropBelow_shows r.setup equal (r.index t) p false e
  | tells p replays notice stage past =>
    obtain ⟨e, b, found, round, hreturned, hshows⟩ := hc
    have hread : r.isReading n (t + 1) = false := by
      rw [hafter, Call.scans, List.any_cons, ScanStage.isReading_of_isCommitted past.2]
      rfl
    refine (progress_committed past).mpr ⟨e, b, found, ?_, hreturned.succ, fun hfalse => ?_⟩
    · exact hround rfl rfl (fun h => by rw [hread] at h; cases h) rfl round
    · rw [hindex] at hfalse ⊢
      exact hshows hfalse
  | replays p replays queued few =>
    obtain ⟨e, b, found, round, -, -⟩ := hc
    obtain ⟨heb, hbt⟩ := round.order
    have hread : r.startsRead n t = true := by
      rw [startsRead, hbefore, hafter]
      rfl
    have hmark : (r.index (t + 1)).scanning? p = some false := by
      rw [hindex, scanning?_eq_lookup, lookup_replayed, ← scanning?_eq_lookup, queued, Path.same_refl]
      rfl
    refine ⟨e, t, .begin round.entered (by omega) hread round.count few hmark fun _ harrives => ?_⟩
    rw [steps.arrives_iff] at harrives
    cases harrives
  | ends p replays givenUp queued many =>
    obtain ⟨e, b, found, round, -, -⟩ := hc
    have hread : r.startsRead n t = false := hrests rfl
    have hfew := round.few
    show r.reads n (t + 1) ≤ r.setup.maxReplays + 1
    rw [reads_succ_of_not hread, round.count]
    omega
  | drops p d past =>
    have hread : r.startsRead n t = false := hrests (by rw [Call.scans_of_isPast past]; rfl)
    rw [progress_isPast past, reads_succ_of_not hread]
    exact hc
  | reports notice d past =>
    have hread : r.startsRead n t = false := hrests (by rw [Call.scans_of_isPast past]; rfl)
    rw [progress_isPast past, reads_succ_of_not hread]
    exact hc
  | rests dropped =>
    show r.reads n (t + 1) ≤ r.setup.maxReplays + 1
    rw [reads_succ_of_not (hrests rfl)]
    exact hc

theorem ScansAndRemoves.sound {equal : α → α → Prop} {pathOf : α → Path} (law : Lawful r.setup equal pathOf)
    (h : r.ScansAndRemoves) (t : Nat) : Sound r.setup pathOf (r.index t) := by
  induction t with
  | zero => exact h.reachable.sound law
  | succ t ih => exact ih.of_section law (Traffic.step_section r.setup _ (r.moves t))

theorem ScansAndRemoves.progress {equal : α → α → Prop} {pathOf : α → Path}
    (law : Lawful r.setup equal pathOf) (h : r.ScansAndRemoves) (t n : Nat) :
    (r.call? n t = none → r.reads n t = 0) ∧ ∀ c, r.call? n t = some c → r.Progress equal n t c := by
  induction t with
  | zero => exact ⟨fun _ => rfl, fun c hc => by cases hc⟩
  | succ t ih =>
    have hs := h.steady t
    cases hs.moment h with
    | waits quiet index calls =>
      have hquiet : ∀ p, ¬r.Arrives p t := fun p ⟨m, c, world, steps, _⟩ => quiet m c world steps
      rcases calls n with hsame | ⟨hnone, c, hbegins, hnext⟩
      · have hread : r.startsRead n t = false := startsRead_eq_false fun hnext => by
          rwa [isReading, hsame] at hnext
        refine ⟨fun hnone => ?_, fun c hc => ?_⟩
        · rw [reads_succ_of_not hread]
          exact ih.1 (hsame.symm.trans hnone)
        · rw [hsame] at hc
          refine (ih.2 c hc).keep (hs.plain hc) hread fun p stage _ _ => .inl ⟨hquiet p, ?_⟩
          rw [index]
          exact ⟨rfl, rfl⟩
      · have hread : r.startsRead n t = false := startsRead_eq_false fun hafter => by
          rw [isReading_of_call? hnext] at hafter
          rcases hbegins with ⟨p, -, rfl⟩ | ⟨p, rfl⟩ <;> cases hafter
        have hreads : r.reads n (t + 1) = 0 := (reads_succ_of_not hread).trans (ih.1 hnone)
        refine ⟨fun hnone => absurd (hnext.symm.trans hnone) (Option.some_ne_none c), fun d hd => ?_⟩
        obtain rfl := Option.some.inj (hnext.symm.trans hd)
        rcases hbegins with ⟨p, -, rfl⟩ | ⟨p, rfl⟩
        · exact hreads
        · show r.reads n (t + 1) ≤ r.setup.maxReplays + 1
          omega
    | turns m world c d steps turn calls =>
      have hnext := calls n
      split at hnext
      next heq =>
        subst heq
        refine ⟨fun hnone => absurd (hnext.symm.trans hnone) (Option.some_ne_none d), fun e he => ?_⟩
        obtain rfl := Option.some.inj (hnext.symm.trans he)
        exact (ih.2 c steps.1).turn law (h.sound law t) hs steps turn hnext
      next hne =>
        have hread : r.startsRead n t = false := startsRead_eq_false fun hafter => by
          rwa [isReading, hnext] at hafter
        refine ⟨fun hnone => ?_, fun e he => ?_⟩
        · rw [reads_succ_of_not hread]
          exact ih.1 (hnext.symm.trans hnone)
        · rw [hnext] at he
          refine (ih.2 e he).keep (hs.plain he) hread fun p stage heq hstage => ?_
          rw [heq] at he
          rw [steps.arrives_iff, Bool.not_eq_true]
          exact hs.frame h (Ne.symm hne) steps.1 turn he hstage

theorem Progress.reads_le {equal : α → α → Prop} (hplain : c.scansOrRemoves = true)
    (hc : r.Progress equal n t c) : r.reads n t ≤ r.setup.maxReplays + 1 := by
  have hround : ∀ {p replays e b}, r.Round n p replays e b t → r.reads n t ≤ r.setup.maxReplays + 1 := by
    intro p replays e b round
    have hfew := round.few
    rw [round.count]
    omega
  match c, hplain, hc with
  | .scan ⟨p, .entering⟩, _, hc =>
    have hreads : r.reads n t = 0 := hc
    omega
  | .scan ⟨p, .reading replays⟩, _, ⟨e, b, round⟩ => exact hround round
  | .scan ⟨p, .holding replays found⟩, _, ⟨e, b, round, _⟩ => exact hround round
  | .scan ⟨p, .telling replays notice⟩, _, ⟨e, b, found, round, _⟩ => exact hround round
  | .scan ⟨p, .deciding replays⟩, _, ⟨e, b, found, round, _⟩ => exact hround round
  | .removing p, _, hc => exact hc
  | .removed notice, _, hc => exact hc
  | .ended dropped, _, hc => exact hc

/-- The end of a scan leaves the entries of the index alone. -/
theorem Ends.items? (hs : r.Steady t) (h : r.ScansAndRemoves) {givenUp : Bool} (hends : r.Ends n p t givenUp)
    (q : Path) : (r.index (t + 1)).items? q = (r.index t).items? q := by
  obtain ⟨replays, world, steps, -⟩ := hends
  cases hs.moment h with
  | waits quiet index calls => rw [index]
  | turns m other c d steps' turn calls =>
    obtain ⟨-, rfl, -⟩ := steps.unique steps'
    rw [items?_eq_lookup, turn.files_of_deciding, ← items?_eq_lookup]

/-- Whenever a scan of a path that took off at moment `e` ends at moment `d` without giving up, its last
read began, at moment `b`, after every request for the path that arrived in between, and the entry of the
path is what that read returned. No scan reads more often than it may, and one that gives up has read that
often and is still asked for. -/
theorem no_lost_update {equal : α → α → Prop} (hindex : StepIndex r.setup equal) (h : r.ScansAndRemoves) :
    (∀ n p d, r.Ends n p d false → ∃ e b c found,
      (r.Enters n p e ∧ e ≤ b) ∧
      (r.startsRead n b = true ∧ ∀ u, b < u → u < d → r.startsRead n u = false) ∧
      (b < c ∧ c < d ∧ r.Returns n p c found) ∧
      (∀ a, e < a → a < d → r.Arrives p a → a < b) ∧
      (r.index (d + 1)).Shows r.setup equal p found) ∧
    (∀ n t, r.reads n t ≤ r.setup.maxReplays + 1) ∧
    ∀ n p d, r.Ends n p d true →
      r.reads n d = r.setup.maxReplays + 1 ∧ (r.index d).scanning? p = some true ∧
      ∃ a, a < d ∧ r.Arrives p a ∧ ∀ u, a < u → u < d → r.startsRead n u = false := by
  obtain ⟨pathOf, law⟩ := hindex.lawful
  have hlast : ∀ {n p d givenUp}, r.Ends n p d givenUp → ∃ replays,
      r.Committed equal n p replays d ∧ (r.index d).scanning? p = some givenUp ∧
        (givenUp = true → r.setup.maxReplays ≤ replays) := by
    intro n p d givenUp hends
    obtain ⟨replays, world, steps, hended⟩ := hends
    obtain ⟨hqueued, hmany⟩ := Scan.givenUp_of_ended hended
    obtain ⟨mark, hmark⟩ := Option.isSome_iff_exists.mp ((h.steady d).marked steps.1 rfl)
    rw [hmark, Option.getD_some] at hqueued
    exact ⟨replays, (h.progress law d n).2 _ steps.1, by rw [hmark, hqueued], hmany⟩
  refine ⟨fun n p d hends => ?_, fun n t => ?_, fun n p d hends => ?_⟩
  · obtain ⟨replays, ⟨e, b, found, round, ⟨c, hbc, hcd, hreturns⟩, hshows⟩, hmark, -⟩ := hlast hends
    refine ⟨e, b, c, found, ⟨round.entered, round.order.1⟩, ⟨round.starts, round.last⟩, ⟨hbc, hcd, hreturns⟩,
      round.fresh hmark, ?_⟩
    exact (hshows hmark).congr (hends.items? (h.steady d) h p)
  · cases hcall : r.call? n t with
    | none =>
      rw [(h.progress law t n).1 hcall]
      exact Nat.zero_le _
    | some c => exact ((h.progress law t n).2 c hcall).reads_le ((h.steady t).plain hcall)
  · obtain ⟨replays, ⟨e, b, found, round, -, -⟩, hmark, hmany⟩ := hlast hends
    have hfew := round.few
    have hreplays : replays = r.setup.maxReplays := Nat.le_antisymm hfew (hmany rfl)
    obtain ⟨a, hba, had, harrives⟩ := round.queued hmark
    refine ⟨by rw [round.count, hreplays], hmark, a, had, harrives, fun u hau hud => ?_⟩
    exact round.last u (Nat.lt_trans hba hau) hud

/-- A path is scanned, and asked for once more while it is being read. -/
def askedTwice : Run Occurrence where
  setup := (UsageIndex.new ⟨"/w".toList⟩ ⟨[], []⟩ 1 5).setup
  start := .new ⟨[], []⟩
  moves
    | 0 => .start (.scanFile ⟨"/w/a.feature".toList⟩)
    | 2 => .start (.scanFile ⟨"/w/a.feature".toList⟩)
    | 3 => .advance 1 oneStepWorld 0
    | _ => .advance 0 oneStepWorld 0

theorem askedTwice_scansAndRemoves : askedTwice.ScansAndRemoves where
  reachable := ⟨⟨[], []⟩, fun _ => .snapshot, 0, rfl⟩
  live := rfl
  idle := rfl
  moves t := by
    simp only [askedTwice]
    split <;> rfl
  apart {t u p q} ht hu _ := by
    have hmove : ∀ {t p}, askedTwice.moves t = .start (.scanFile p) → p = ⟨"/w/a.feature".toList⟩ := by
      intro t p h
      simp only [askedTwice] at h
      split at h <;> cases h <;> rfl
    rw [hmove ht, hmove hu]
    exact Path.same_refl _

/-- The request of moment 3 came in during the first read, so the scan has read the file again since. -/
theorem no_lost_update_askedTwice :
    let r := askedTwice
    let p : Path := ⟨"/w/a.feature".toList⟩
    r.ScansAndRemoves ∧ r.Arrives p 3 ∧ r.Ends 0 p 10 false ∧ r.reads 0 10 = 2 ∧ ∃ e b c found,
      (r.Enters 0 p e ∧ e ≤ b) ∧ (r.startsRead 0 b = true ∧ ∀ u, b < u → u < 10 → r.startsRead 0 u = false) ∧
      (b < c ∧ c < 10 ∧ r.Returns 0 p c found) ∧ (∀ a, e < a → a < 10 → r.Arrives p a → a < b) ∧
      (r.index 11).Shows r.setup Occurrence.Respells p found := by
  intro r p
  have hdeciding : r.call? 0 10 = some (.scan ⟨p, .deciding 1⟩) := by decide +kernel
  have hmark : (r.index 10).scanning? p = some false := by decide +kernel
  have hended : (Scan.step r.setup oneStepWorld (r.index 10) ⟨p, .deciding 1⟩).2.1.stage = .ended false := by
    simp only [Scan.step, decideReplay, hmark, Option.getD_some, Bool.false_and, Bool.false_eq_true, if_false]
  have hends : r.Ends 0 p 10 false := ⟨1, oneStepWorld, ⟨hdeciding, 0, rfl⟩, hended⟩
  have hjoins : r.call? 1 3 = some (.scan ⟨p, .entering⟩) := by decide +kernel
  have harrives : (Call.scan ⟨p, .entering⟩).requests p = true := Path.same_refl p
  refine ⟨askedTwice_scansAndRemoves, ⟨1, .scan ⟨p, .entering⟩, oneStepWorld, ⟨hjoins, 0, rfl⟩, harrives⟩,
    hends, ?_, ?_⟩
  · decide +kernel
  · exact (no_lost_update (.usages _ ⟨[], []⟩ _ _) askedTwice_scansAndRemoves).1 0 p 10 hends

end Run

end StepLink
