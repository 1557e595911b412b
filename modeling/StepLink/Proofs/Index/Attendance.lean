import StepLink.Proofs.Index.Exclusion

/-! One path of an index on which only files are scanned. As long as what is read of the path may have changed,
some call is to begin, to read once more, or to commit what it has read of late; and when none of these is left,
the entry is what a read gives now. Which calls there are and in what order they step does not matter. -/

namespace StepLink

open IndexState

variable {α : Type} {setup : IndexSetup α} {equal : α → α → Prop} {pathOf : α → Path} {world other : World}
  {s t : IndexState α} {p q : Path} {c d : Call} {calls others : List Call} {owed later : Prop}

namespace Call

/-- The call is a scan of the path between its start and its end. -/
def flies (p : Path) : Call → Bool
  | .scan c => c.flies p
  | _ => false

/-- The call scans a file, or is over. It is of the path itself, or of one that is not above it. -/
def Minds (p : Path) (c : Call) : Prop :=
  c.isPast = true ∨ ∃ q stage, c = .scan ⟨q, stage⟩ ∧ Scan.isEnded ⟨q, stage⟩ = false ∧
    (p.startsWith q = true → q = p)

/-- The call scans the path, and what it is about to show of it, or has shown, is what a read gives now. -/
def IsFresh (setup : IndexSetup α) (equal : α → α → Prop) (world : World) (s : IndexState α) (p : Path) :
    Call → Prop
  | .scan ⟨q, stage⟩ => q = p ∧ match stage with
    | .reading _ => True
    | .holding _ found => found = world.read p
    | .telling _ _ => s.Shows setup equal p (world.read p)
    | .deciding _ => s.Shows setup equal p (world.read p)
    | .entering => False
    | .ended _ => False
  | _ => False

theorem flies_of_isPast (h : c.isPast = true) (p : Path) : c.flies p = false := by
  cases c <;> first | rfl | cases h

theorem requests_of_isPast (h : c.isPast = true) (p : Path) : c.requests p = false := by
  cases c <;> first | rfl | cases h

theorem IsFresh.flies (h : c.IsFresh setup equal world s p) : c.flies p = true := by
  cases c with
  | scan c =>
    obtain ⟨q, stage⟩ := c
    obtain ⟨rfl, hstage⟩ := h
    cases stage <;> first | exact Path.same_refl q | exact hstage.elim
  | _ => exact h.elim

theorem IsFresh.congr (h : c.IsFresh setup equal world s p) (hitems : t.items? p = s.items? p)
    (hread : other.read p = world.read p) : c.IsFresh setup equal other t p := by
  cases c with
  | scan c =>
    obtain ⟨q, stage⟩ := c
    obtain ⟨rfl, hstage⟩ := h
    refine ⟨rfl, ?_⟩
    cases stage with
    | holding replays found => exact hstage.trans hread.symm
    | telling replays notice =>
      dsimp only
      rw [hread]
      exact hstage.congr hitems
    | deciding replays =>
      dsimp only
      rw [hread]
      exact hstage.congr hitems
    | _ => exact hstage
  | _ => exact h

theorem isFresh_of_isCommitted {stage : ScanStage} (hstage : stage.isCommitted = true) :
    IsFresh setup equal world s p (.scan ⟨p, stage⟩) ↔ s.Shows setup equal p (world.read p) := by
  cases stage <;> first | exact and_iff_right rfl | cases hstage

end Call

/-- What is still to be done for the entry of a path, or that nothing is. -/
inductive Promised (setup : IndexSetup α) (equal : α → α → Prop) (world : World) (p : Path) (owed : Prop)
    (s : IndexState α) (calls : List Call) : Prop where
  /-- A call is yet to be made. -/
  | owed (h : owed)
  | begins (c : Call) (hc : c ∈ calls) (requests : c.requests p = true)
  | again (queued : s.scanning? p = some true)
  | fresh (c : Call) (hc : c ∈ calls) (h : c.IsFresh setup equal world s p)
  | shown (free : s.scanning? p = none) (h : s.Shows setup equal p (world.read p))

/-- What holds at every moment of a path of an index on which only files are scanned. -/
structure Attends (setup : IndexSetup α) (equal : α → α → Prop) (world : World) (p : Path) (owed : Prop)
    (s : IndexState α) (calls : List Call) : Prop where
  minds : ∀ c ∈ calls, c.Minds p
  marked : (s.scanning? p).isSome = true ↔ ∃ c ∈ calls, c.flies p = true
  alone : calls.Pairwise fun c d => ¬(c.flies p = true ∧ d.flies p = true)
  promised : Promised setup equal world p owed s calls

namespace Attends

theorem perm (h : Attends setup equal world p owed s calls) (hperm : calls.Perm others) :
    Attends setup equal world p owed s others where
  minds c hc := h.minds c (hperm.mem_iff.mpr hc)
  marked := by
    rw [h.marked]
    exact ⟨fun ⟨c, hc, hflies⟩ => ⟨c, hperm.mem_iff.mp hc, hflies⟩,
      fun ⟨c, hc, hflies⟩ => ⟨c, hperm.mem_iff.mpr hc, hflies⟩⟩
  alone := hperm.pairwise h.alone fun hboth hswapped => hboth hswapped.symm
  promised := by
    cases h.promised with
    | owed h => exact .owed h
    | begins c hc requests => exact .begins c (hperm.mem_iff.mp hc) requests
    | again queued => exact .again queued
    | fresh c hc h => exact .fresh c (hperm.mem_iff.mp hc) h
    | shown free h => exact .shown free h

/-- Where more is owed, or what is read stays the same, nothing else has to change. -/
theorem mono (h : Attends setup equal world p owed s calls) (howed : owed → later)
    (hread : later ∨ other.read p = world.read p) : Attends setup equal other p later s calls where
  minds := h.minds
  marked := h.marked
  alone := h.alone
  promised := by
    rcases hread with hlater | hread
    · exact .owed hlater
    · cases h.promised with
      | owed h => exact .owed (howed h)
      | begins c hc requests => exact .begins c hc requests
      | again queued => exact .again queued
      | fresh c hc h => exact .fresh c hc (h.congr rfl hread)
      | shown free h => exact .shown free (by rw [hread]; exact h)

theorem nil (hidle : s.scanning = []) (h : owed ∨ s.Shows setup equal p (world.read p)) :
    Attends setup equal world p owed s [] := by
  have hfree : s.scanning? p = none := by rw [scanning?_eq_lookup, hidle]; rfl
  refine ⟨by nofun, by simp [hfree], .nil, ?_⟩
  rcases h with h | h
  · exact .owed h
  · exact .shown hfree h

/-- Without any calls the entry is what a read gives, unless a call is yet to be made. -/
theorem shows (h : Attends setup equal world p owed s []) (howed : ¬owed) :
    s.Shows setup equal p (world.read p) := by
  cases h.promised with
  | owed h => exact absurd h howed
  | begins c hc requests => cases hc
  | again queued =>
    obtain ⟨c, hc, -⟩ := h.marked.mp (by rw [queued]; rfl)
    cases hc
  | fresh c hc h => cases hc
  | shown free h => exact h

/-- A call that has nothing to do with the path may be left out, and the index may change where the path is not
concerned. -/
theorem gone (h : Attends setup equal world p owed s (c :: others)) (hc : c.flies p = false ∧ c.requests p = false)
    (hmark : t.scanning? p = s.scanning? p) (hitems : t.items? p = s.items? p) :
    Attends setup equal world p owed t others := by
  refine ⟨fun e he => h.minds e (List.mem_cons_of_mem c he), ?_, (List.pairwise_cons.mp h.alone).2, ?_⟩
  · rw [hmark, h.marked]
    simp [hc.1]
  · cases h.promised with
    | owed h => exact .owed h
    | begins e he requests =>
      rcases List.mem_cons.mp he with rfl | he
      · rw [hc.2] at requests
        cases requests
      · exact .begins e he requests
    | again queued => exact .again (hmark.trans queued)
    | fresh e he hfresh =>
      rcases List.mem_cons.mp he with rfl | he
      · have hflies := hfresh.flies
        rw [hc.1] at hflies
        cases hflies
      · exact .fresh e he (hfresh.congr hitems rfl)
    | shown free h => exact .shown (hmark.trans free) (h.congr hitems)

/-- A call that does not scan the path, or is yet to begin, may be added. -/
theorem cons (h : Attends setup equal world p owed s others) (hminds : d.Minds p) (hd : d.flies p = false) :
    Attends setup equal world p owed s (d :: others) := by
  refine ⟨List.forall_mem_cons.mpr ⟨hminds, h.minds⟩, ?_, ?_, ?_⟩
  · rw [h.marked]
    simp [hd]
  · exact List.pairwise_cons.mpr ⟨fun e _ hboth => by simp [hd] at hboth, h.alone⟩
  · cases h.promised with
    | owed h => exact .owed h
    | begins e he requests => exact .begins e (List.mem_cons_of_mem d he) requests
    | again queued => exact .again queued
    | fresh e he h => exact .fresh e (List.mem_cons_of_mem d he) h
    | shown free h => exact .shown free h

/-- A call that is over makes no difference. -/
theorem past_cons_iff (hd : d.isPast = true) :
    Attends setup equal world p owed s (d :: others) ↔ Attends setup equal world p owed s others :=
  ⟨fun h => h.gone ⟨Call.flies_of_isPast hd p, Call.requests_of_isPast hd p⟩ rfl rfl,
    fun h => h.cons (.inl hd) (Call.flies_of_isPast hd p)⟩

/-- Of two calls that are over, either will do. -/
theorem exchange (h : Attends setup equal world p owed s (c :: others))
    (hd : d = c ∨ c.isPast = true ∧ d.isPast = true) : Attends setup equal world p owed s (d :: others) := by
  rcases hd with rfl | ⟨hc, hd⟩
  · exact h
  · exact (past_cons_iff hd).mpr ((past_cons_iff hc).mp h)

/-- A call that is to scan the path makes good for one that was owed. -/
theorem begin (h : Attends setup equal world p owed s others) :
    Attends setup equal world p later s (.scan ⟨p, .entering⟩ :: others) := by
  have hminds : (Call.scan ⟨p, .entering⟩).Minds p := .inr ⟨p, _, rfl, rfl, fun _ => rfl⟩
  have hnext := h.cons hminds rfl
  exact ⟨hnext.minds, hnext.marked, hnext.alone, .begins _ List.mem_cons_self (Path.same_refl p)⟩

/-- A scan of another path, which is not above, leaves the path alone. -/
theorem turn_aside {stage : ScanStage} (turn : Call.Turn setup world s (.scan ⟨q, stage⟩) t d)
    (hpq : p.startsWith q = false) : t.scanning? p = s.scanning? p ∧ t.items? p = s.items? p ∧
      d.flies p = false ∧ d.Minds p := by
  have hqp : q.same p = false := by
    rw [← Bool.not_eq_true]
    intro hsame
    rw [Path.startsWith_of_same (Path.same_symm hsame)] at hpq
    cases hpq
  have hscan : ∀ {after : ScanStage}, after.replays?.isSome = true →
      (Call.scan ⟨q, after⟩).flies p = false ∧ (Call.scan ⟨q, after⟩).Minds p := by
    intro after hafter
    refine ⟨by simp [Call.flies, Scan.flies, hqp], .inr ⟨q, after, rfl, ?_, fun hstarts => ?_⟩⟩
    · exact ScanStage.isEnded_of_replays? hafter
    · rw [hpq] at hstarts
      cases hstarts
  cases turn with
  | enters q free =>
    refine ⟨?_, rfl, hscan rfl⟩
    rw [scanning?_eq_lookup, lookup_begun, hqp, scanning?_eq_lookup]
    exact Option.or_none
  | joins q marked =>
    refine ⟨?_, rfl, rfl, .inl rfl⟩
    rw [scanning?_requeue (fun h => Path.same_congr h q), Path.same_comm, hqp]
    cases s.scanning? p <;> rfl
  | reads q replays => exact ⟨rfl, rfl, hscan rfl⟩
  | commits q replays text stage past =>
    refine ⟨scanning?_commit .., ?_, hscan (by rw [past.1]; rfl)⟩
    rw [items?_commit, hqp]
    simp
  | fails q replays e stage past =>
    refine ⟨?_, ?_, hscan (by rw [past.1]; rfl)⟩
    · rw [scanning?_dropBelow]
      cases s.scanning? p <;> rfl
    · rw [items?_dropBelow, hpq]
      rfl
  | tells q replays notice stage past => exact ⟨rfl, rfl, hscan (by rw [past.1]; rfl)⟩
  | replays q replays queued few =>
    refine ⟨?_, rfl, hscan rfl⟩
    rw [scanning?_eq_lookup, lookup_replayed, Path.same_comm, hqp, scanning?_eq_lookup]
    cases lookup s.scanning p <;> rfl
  | ends q replays givenUp queued many =>
    refine ⟨?_, rfl, rfl, .inl rfl⟩
    rw [scanning?_eq_lookup, lookup_released, Path.same_comm, hqp]
    rfl

/-- A turn of a scan of the path that is in flight before and after it, under the same mark. -/
theorem flight (h : Attends setup equal world p owed s (c :: others)) (hc : c.flies p = true)
    (hminds : d.Minds p) (hd : d.flies p = true) (hmark : t.scanning? p = s.scanning? p)
    (hfresh : c.IsFresh setup equal world s p → d.IsFresh setup equal world t p) :
    Attends setup equal world p owed t (d :: others) := by
  have hothers : ∀ e ∈ others, e.flies p = false := fun e he =>
    Bool.eq_false_iff.mpr fun hflies => (List.pairwise_cons.mp h.alone).1 e he ⟨hc, hflies⟩
  refine ⟨List.forall_mem_cons.mpr ⟨hminds, fun e he => h.minds e (List.mem_cons_of_mem c he)⟩, ?_, ?_, ?_⟩
  · rw [hmark, h.marked]
    simp [hc, hd]
  · refine List.pairwise_cons.mpr ⟨fun e he hboth => ?_, (List.pairwise_cons.mp h.alone).2⟩
    rw [hothers e he] at hboth
    cases hboth.2
  · have hmarked : (s.scanning? p).isSome = true := h.marked.mpr ⟨c, List.mem_cons_self, hc⟩
    cases h.promised with
    | owed h => exact .owed h
    | begins e he requests =>
      rcases List.mem_cons.mp he with rfl | he
      · cases e with
        | scan e =>
          obtain ⟨q, stage⟩ := e
          cases stage <;> first | cases hc | cases requests
        | _ => cases hc
      · exact .begins e (List.mem_cons_of_mem d he) requests
    | again queued => exact .again (hmark.trans queued)
    | fresh e he hshows =>
      rcases List.mem_cons.mp he with rfl | he
      · exact .fresh d List.mem_cons_self (hfresh hshows)
      · have hflies := hshows.flies
        rw [hothers e he] at hflies
        cases hflies
    | shown free h =>
      rw [free] at hmarked
      cases hmarked

/-- A scan of the path that takes off, or begins another read, is about to show what a read gives. -/
theorem reading (h : Attends setup equal world p owed s (c :: others)) {replays : Nat}
    (halone : ∀ e ∈ others, e.flies p = false) (hmark : (t.scanning? p).isSome = true) :
    Attends setup equal world p owed t (.scan ⟨p, .reading replays⟩ :: others) := by
  have hflies : (Call.scan ⟨p, .reading replays⟩).flies p = true := Path.same_refl p
  refine ⟨List.forall_mem_cons.mpr ⟨.inr ⟨p, _, rfl, rfl, fun _ => rfl⟩, fun e he =>
    h.minds e (List.mem_cons_of_mem c he)⟩, ?_, ?_, .fresh _ List.mem_cons_self ⟨rfl, trivial⟩⟩
  · exact iff_of_true hmark ⟨_, List.mem_cons_self, hflies⟩
  · refine List.pairwise_cons.mpr ⟨fun e he hboth => ?_, (List.pairwise_cons.mp h.alone).2⟩
    rw [halone e he] at hboth
    cases hboth.2

/-- A scan of the path is over. -/
theorem finish (h : Attends setup equal world p owed s (c :: others))
    (hmarked : (t.scanning? p).isSome = true ↔ ∃ e ∈ others, e.flies p = true) (dropped : Bool)
    (hpromised : Promised setup equal world p owed t (.ended dropped :: others)) :
    Attends setup equal world p owed t (.ended dropped :: others) := by
  refine ⟨List.forall_mem_cons.mpr ⟨.inl rfl, fun e he => h.minds e (List.mem_cons_of_mem c he)⟩, ?_, ?_,
    hpromised⟩
  · rw [hmarked]
    simp [Call.flies]
  · exact List.pairwise_cons.mpr ⟨fun e _ hboth => absurd hboth.1 Bool.false_ne_true,
      (List.pairwise_cons.mp h.alone).2⟩

/-- A turn of a scan of the path itself. One that is over has not been asked to read once more. -/
theorem turn_own (law : Lawful setup equal pathOf) (hsound : Sound setup pathOf s) (hlive : s.isDisposed = false)
    {stage : ScanStage} (h : Attends setup equal world p owed s (.scan ⟨p, stage⟩ :: others))
    (turn : Call.Turn setup world s (.scan ⟨p, stage⟩) t d)
    (hdone : ∀ replays, stage = .deciding replays → s.scanning? p = some true → replays < setup.maxReplays) :
    Attends setup equal world p owed t (d :: others) := by
  have hself : ∀ {after : ScanStage}, after.replays?.isSome = true →
      (Call.scan ⟨p, after⟩).Minds p ∧ (Call.scan ⟨p, after⟩).flies p = true := by
    intro after hafter
    refine ⟨.inr ⟨p, after, rfl, ScanStage.isEnded_of_replays? hafter, fun _ => rfl⟩, ?_⟩
    simp [Call.flies, Scan.flies, Scan.isInFlight, hafter]
  have halone : (Call.scan ⟨p, stage⟩).flies p = true → ∀ e ∈ others, e.flies p = false := fun hc e he =>
    Bool.eq_false_iff.mpr fun hflies => (List.pairwise_cons.mp h.alone).1 e he ⟨hc, hflies⟩
  cases turn with
  | enters p free =>
    refine h.reading (fun e he => Bool.eq_false_iff.mpr fun hflies => ?_) ?_
    · have hmarked := h.marked.mpr ⟨e, List.mem_cons_of_mem _ he, hflies⟩
      rw [free] at hmarked
      cases hmarked
    · rw [scanning?_eq_lookup, lookup_begun, Path.same_refl]
      cases lookup s.scanning p <;> rfl
  | joins p marked =>
    -- the scan that has made the mark reads once more
    have hmark : (s.requeue fun k => k.same p).scanning? p = some true := by
      rw [scanning?_requeue (fun h => Path.same_congr h p), Path.same_refl]
      cases hmark : s.scanning? p with
      | none => simp [hmark] at marked
      | some queued => rfl
    refine h.finish ?_ false (.again hmark)
    rw [hmark]
    obtain ⟨e, he, hflies⟩ := h.marked.mp marked
    rcases List.mem_cons.mp he with rfl | he
    · cases hflies
    · exact iff_of_true rfl ⟨e, he, hflies⟩
  | reads p replays =>
    exact h.flight (hself rfl).2 (hself rfl).1 (hself rfl).2 rfl fun _ => ⟨rfl, rfl⟩
  | commits p replays text after past =>
    have hafter := hself (show after.replays?.isSome = true by rw [past.1]; rfl)
    refine h.flight (hself rfl).2 hafter.1 hafter.2 (scanning?_commit ..) fun hfresh => ?_
    rw [Call.isFresh_of_isCommitted past.2, ← hfresh.2]
    exact hsound.commit_shows law hlive p text
  | fails p replays e after past =>
    have hafter := hself (show after.replays?.isSome = true by rw [past.1]; rfl)
    refine h.flight (hself rfl).2 hafter.1 hafter.2 ?_ fun hfresh => ?_
    · rw [scanning?_dropBelow]
      cases s.scanning? p <;> rfl
    · rw [Call.isFresh_of_isCommitted past.2, ← hfresh.2]
      exact dropBelow_shows setup equal s p false e
  | tells p replays notice after past =>
    have hafter := hself (show after.replays?.isSome = true by rw [past.1]; rfl)
    refine h.flight (hself rfl).2 hafter.1 hafter.2 rfl fun hfresh => ?_
    exact (Call.isFresh_of_isCommitted past.2).mpr hfresh.2
  | replays p replays queued few =>
    refine h.reading (halone (hself rfl).2) ?_
    rw [scanning?_eq_lookup, lookup_replayed, Option.isSome_map, ← scanning?_eq_lookup, queued]
    rfl
  | ends p replays givenUp queued many =>
    have hfree : ({ s with scanning := s.scanning.filter fun entry => !entry.1.same p } :
        IndexState α).scanning? p = none := by
      rw [scanning?_eq_lookup, lookup_released, if_pos (Path.same_refl p)]
    refine h.finish ?_ false ?_
    · rw [hfree]
      refine iff_of_false Bool.false_ne_true ?_
      rintro ⟨e, he, hflies⟩
      rw [halone (hself rfl).2 e he] at hflies
      cases hflies
    · cases h.promised with
      | owed h => exact .owed h
      | begins e he requests =>
        rcases List.mem_cons.mp he with rfl | he
        · cases requests
        · exact .begins e (List.mem_cons_of_mem _ he) requests
      | again hmark =>
        rw [hmark, Option.getD_some] at queued
        exact absurd (hdone replays rfl hmark) (Nat.not_lt.mpr (many queued.symm))
      | fresh e he hfresh =>
        rcases List.mem_cons.mp he with rfl | he
        · exact .shown hfree (hfresh.2.congr rfl)
        · have hflies := hfresh.flies
          rw [halone (hself rfl).2 e he] at hflies
          cases hflies
      | shown free hshows => exact .shown hfree (hshows.congr rfl)

/-- Every turn keeps what holds of the path, as long as no scan of it gives up. -/
theorem turn (law : Lawful setup equal pathOf) (hsound : Sound setup pathOf s) (hlive : s.isDisposed = false)
    (h : Attends setup equal world p owed s (c :: others)) (turn : Call.Turn setup world s c t d)
    (hdone : ∀ q replays, c = .scan ⟨q, .deciding replays⟩ → s.scanning? q = some true →
      replays < setup.maxReplays) : Attends setup equal world p owed t (d :: others) := by
  rcases h.minds c List.mem_cons_self with hpast | ⟨q, stage, rfl, hlasts, hspelled⟩
  · have hidle := And.intro (Call.flies_of_isPast hpast p) (Call.requests_of_isPast hpast p)
    cases turn with
    | reports notice d past => exact (past_cons_iff past).mpr (h.gone hidle rfl rfl)
    | rests dropped => exact h
    | drops q d past => cases hpast
    | _ => cases hpast
  · cases hstarts : p.startsWith q with
    | true =>
      obtain rfl := hspelled hstarts
      exact h.turn_own law hsound hlive turn fun replays hstage => hdone q replays (by rw [hstage])
    | false =>
      obtain ⟨hmark, hitems, hflies, hminds⟩ := turn_aside turn hstarts
      have hqp : q.same p = false := by
        rw [← Bool.not_eq_true]
        intro hsame
        rw [Path.startsWith_of_same (Path.same_symm hsame)] at hstarts
        cases hstarts
      have hidle : (Call.scan ⟨q, stage⟩).flies p = false ∧ (Call.scan ⟨q, stage⟩).requests p = false := by
        refine ⟨by simp [Call.flies, Scan.flies, hqp], ?_⟩
        cases stage <;> first | rfl | exact hqp
      exact (h.gone hidle hmark hitems).cons hminds hflies

end Attends

end StepLink
