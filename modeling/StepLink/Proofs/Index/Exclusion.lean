import StepLink.Proofs.Index.Moment
import StepLink.Proofs.Index.Batch

/-! Scans of one path exclude one another, since a scan that takes off marks its path and one that finds a mark
does not take off. Only disposing of the index takes marks away from scans that are still in flight: a scan
begun after the index has been activated again then runs beside the old one, and whichever of the two commits
last leaves its result. -/

namespace StepLink

open IndexState

variable {α : Type} {setup : IndexSetup α} {world : World} {s t : IndexState α} {p q : Path}

namespace Scan

/-- The scan is one of the path, and between its start and its end. -/
def flies (p : Path) (c : Scan) : Bool :=
  c.isInFlight && c.path.same p

/-- The scan reads the path, or holds what it has read and not committed yet. -/
def reads (p : Path) (c : Scan) : Bool :=
  c.isReading && c.path.same p

/-- The scan has committed what it last read of the path. -/
def hasCommitted (p : Path) (c : Scan) : Bool :=
  c.stage.isCommitted && c.path.same p

theorem flies_of_reads {c : Scan} (h : c.reads p = true) : c.flies p = true := by
  obtain ⟨q, stage⟩ := c
  cases stage <;> first | exact h | cases h

theorem flies_of_hasCommitted {c : Scan} (h : c.hasCommitted p = true) : c.flies p = true := by
  obtain ⟨q, stage⟩ := c
  cases stage <;> first | exact h | cases h

theorem flies_of_isEnded {c : Scan} (h : c.isEnded = true) : c.flies p = false := by
  obtain ⟨q, stage⟩ := c
  cases stage <;> first | rfl | cases h

/-- How a step of a scan bears on the scans of a path: it leaves the mark alone, or the scan takes off and makes
it, or the scan is over and takes it away. -/
inductive Bears (p : Path) (s : IndexState α) (c : Scan) (t : IndexState α) (d : Scan) : Prop where
  | keeps (marks : (s.scanning? p).isSome = true → (t.scanning? p).isSome = true)
    (flies : d.flies p = true → c.flies p = true)
  | takesOff (free : s.scanning? p = none) (marked : (t.scanning? p).isSome = true)
  | lands (flew : c.flies p = true) (landed : d.flies p = false)

theorem flies_afterCommit (c : Scan) (replays : Nat) (notice : Option Notice) :
    (c.afterCommit replays notice).flies p = c.path.same p := by
  cases notice <;> rfl

theorem step_bears (setup : IndexSetup α) (world : World) (s : IndexState α) (c : Scan) (p : Path) :
    Bears p s c (c.step setup world s).1 (c.step setup world s).2.1 := by
  obtain ⟨q, stage⟩ := c
  cases stage with
  | entering =>
    cases hlive : s.isDisposed with
    | true =>
      simp only [step, enterScan, hlive, if_true]
      exact .keeps id fun h => by cases h
    | false =>
      cases hmark : s.scanning? q with
      | some queued =>
        simp only [step, enterScan, hlive, hmark, Option.isSome_some, Bool.false_eq_true, if_false, if_true]
        refine .keeps (fun h => ?_) fun h => by cases h
        rw [scanning?_requeue fun hsame => Path.same_congr hsame q, Option.isSome_map]
        exact h
      | none =>
        simp only [step, enterScan, hlive, hmark, Option.isSome_none, Bool.false_eq_true, if_false]
        by_cases hsame : q.same p = true
        · refine .takesOff ?_ ?_
          · rw [← scanning?_congr hsame, hmark]
          · rw [scanning?_eq_lookup, lookup_begun, if_pos hsame]
            cases lookup s.scanning p <;> rfl
        · refine .keeps (fun h => ?_) fun h => absurd h hsame
          rw [scanning?_eq_lookup, lookup_begun, if_neg hsame, Option.or_none]
          exact h
  | reading replays => exact .keeps id id
  | holding replays found =>
    cases found with
    | ok text =>
      refine .keeps (fun h => ?_) fun h => (flies_afterCommit _ _ _).symm.trans h
      simp only [step]
      rw [scanning?_commit]
      exact h
    | error e =>
      refine .keeps (fun h => ?_) fun h => (flies_afterCommit _ _ _).symm.trans h
      simp only [step]
      rw [scanning?_dropBelow, Option.isSome_map]
      exact h
  | telling replays notice => exact .keeps id fun h => (flies_afterCommit _ _ _).symm.trans h
  | deciding replays =>
    by_cases hagain : ((s.scanning? q).getD false && decide (replays < setup.maxReplays)) = true
    · simp only [step, decideReplay, hagain, if_true]
      refine .keeps (fun h => ?_) id
      rw [scanning?_eq_lookup, lookup_replayed, Option.isSome_map]
      exact h
    · have hmarks : ∀ other : Scan, other.isEnded = true → Bears p s ⟨q, .deciding replays⟩
          { s with scanning := s.scanning.filter fun entry => !entry.1.same q } other := by
        intro other hended
        by_cases hsame : q.same p = true
        · exact .lands hsame (flies_of_isEnded hended)
        · refine .keeps (fun h => ?_) fun h => by rw [flies_of_isEnded hended] at h; cases h
          rw [scanning?_eq_lookup, lookup_released, Path.same_comm, if_neg hsame]
          exact h
      simp only [step, decideReplay, hagain]
      cases (s.scanning? q).getD false <;> exact hmarks _ rfl
  | ended givenUp => exact .keeps id id

end Scan

/-- The scan at a place is one of the path, and in flight. -/
def fliesAt (p : Path) (i : Nat) (scans : List Scan) : Bool :=
  scans[i]?.any (Scan.flies p)

/-- How a step of a call bears on the scans of a path. -/
inductive ScansBear (p : Path) (s : IndexState α) (scans : List Scan) (t : IndexState α) (next : List Scan) :
    Prop where
  | keeps (marks : (s.scanning? p).isSome = true → (t.scanning? p).isSome = true)
      (flies : ∀ i, fliesAt p i next = true → fliesAt p i scans = true)
  | takesOff (i : Nat) (free : s.scanning? p = none) (marked : (t.scanning? p).isSome = true)
      (flies : ∀ j, fliesAt p j next = true → j = i ∨ fliesAt p j scans = true)
  | lands (i : Nat) (flew : fliesAt p i scans = true) (landed : fliesAt p i next = false)
      (flies : ∀ j, fliesAt p j next = true → fliesAt p j scans = true)

theorem fliesAt_nil (p : Path) (i : Nat) : fliesAt p i [] = false := rfl

theorem fliesAt_eq_false {scans : List Scan} (h : ∀ c ∈ scans, c.flies p = false) (i : Nat) :
    fliesAt p i scans = false := by
  rw [fliesAt]
  cases hi : scans[i]? with
  | none => rfl
  | some c => exact h c (List.mem_of_getElem? hi)

theorem fliesAt_set {scans : List Scan} {i : Nat} {c : Scan} (hi : scans[i]? = some c) (d : Scan) (j : Nat) :
    fliesAt p j (scans.set i d) = if i = j then d.flies p else fliesAt p j scans := by
  obtain ⟨hlt, -⟩ := List.getElem?_eq_some_iff.mp hi
  rw [fliesAt, List.getElem?_set, if_pos hlt]
  split <;> rfl

/-- Nothing is in flight after a step that leaves the marks alone. -/
theorem ScansBear.rests {scans next : List Scan}
    (marks : (s.scanning? p).isSome = true → (t.scanning? p).isSome = true)
    (h : ∀ c ∈ next, c.flies p = false) : ScansBear p s scans t next := by
  refine .keeps marks fun i hi => ?_
  rw [fliesAt_eq_false h i] at hi
  cases hi

theorem ScansBear.congr {scans next other : List Scan} (h : ScansBear p s scans t next)
    (hother : ∀ i, fliesAt p i next = fliesAt p i other) : ScansBear p s scans t other := by
  cases h with
  | keeps marks flies => exact .keeps marks fun i hi => flies i ((hother i).trans hi)
  | takesOff i free marked flies => exact .takesOff i free marked fun j hj => flies j ((hother j).trans hj)
  | lands i flew landed flies =>
    exact .lands i flew ((hother i).symm.trans landed) fun j hj => flies j ((hother j).trans hj)

theorem Scan.Bears.set {scans : List Scan} {i : Nat} {c d : Scan} (h : c.Bears p s t d)
    (hi : scans[i]? = some c) : ScansBear p s scans t (scans.set i d) := by
  have hflew : fliesAt p i scans = c.flies p := by rw [fliesAt, hi, Option.any_some]
  cases h with
  | keeps marks flies =>
    refine .keeps marks fun j hj => ?_
    rw [fliesAt_set hi] at hj
    split at hj
    next hij => rw [← hij, hflew, flies hj]
    next => exact hj
  | takesOff free marked =>
    refine .takesOff i free marked fun j hj => ?_
    rw [fliesAt_set hi] at hj
    split at hj
    next hij => exact .inl hij.symm
    next => exact .inr hj
  | lands flew landed =>
    refine .lands i (hflew.trans flew) ?_ fun j hj => ?_
    · rw [fliesAt_set hi, if_pos rfl, landed]
    · rw [fliesAt_set hi, landed] at hj
      split at hj
      next => cases hj
      next => exact hj

theorem Pass.step_bears (setup : IndexSetup α) (world : World) (pick : Nat) (s : IndexState α) (c : Pass)
    (p : Path) : ScansBear p s c.scans (c.step setup world pick s).1 (c.step setup world pick s).2.1.scans := by
  have hnone : ∀ {d : Scan}, d ∈ ([] : List Scan) → d.flies p = false := fun h => by cases h
  cases c with
  | starting =>
    simp only [step]
    split <;> exact .rests id fun d => hnone
  | filtering =>
    refine .rests (fun h => ?_) fun d => hnone
    simp only [step, compiledFilter]
    split <;> exact h
  | listing filter =>
    simp only [step]
    split <;> exact .rests id fun d => hnone
  | dropping files =>
    have hmarks : (s.scanning? p).isSome = true → ((s.keepListed files).1.scanning? p).isSome = true := by
      rw [scanning?_eq_lookup, scanning?_eq_lookup, keepListed, keepFiles_scanning]
      exact id
    simp only [step]
    split
    next t notice heq =>
      rw [heq] at hmarks
      exact .rests hmarks fun d => hnone
    next t heq =>
      rw [heq] at hmarks
      exact .rests hmarks fun d => hnone
  | telling files notice =>
    simp only [step]
    split <;> exact .rests id fun d => hnone
  | scanning running waiting =>
    simp only [step]
    split
    next =>
      split
      · exact .rests id fun d => hnone
      · refine .rests id fun d hd => ?_
        obtain ⟨q, -, rfl⟩ := List.mem_map.mp hd
        rfl
    next =>
      split
      next => exact .keeps id fun i => id
      next d hd => exact (d.step_bears setup world s p).set hd
  | ended => exact .rests id fun d => hnone

/-- The scans of a call that runs a full scan are those of the full scan, and over with it. -/
theorem Call.step_of_pass (setup : IndexSetup α) (world : World) (pick : Nat) (s : IndexState α) (c : Pass)
    {call : Call} (h : call = .pass c ∨ call = .passing c) :
    (call.step setup world pick s).1 = (c.step setup world pick s).1 ∧
      (call.step setup world pick s).2.1.scans = (c.step setup world pick s).2.1.scans := by
  rcases h with rfl | rfl
  all_goals
    simp only [step]
    generalize c.step setup world pick s = x
    obtain ⟨t, d, seen⟩ := x
    cases d <;> exact ⟨rfl, rfl⟩

/-- Where the lifecycle, the globs and rescans are concerned, scans are left alone. -/
theorem Call.step_of_steers (setup : IndexSetup α) (world : World) (pick : Nat) (s : IndexState α) {c : Call}
    (h : c.steers = true) :
    (c.step setup world pick s).1.scanning = s.scanning ∧ (c.step setup world pick s).2.1.scans = [] := by
  cases c with
  | requesting =>
    have hrequest : s.requestRescan.1.scanning = s.scanning := by
      rw [requestRescan]
      split
      · rfl
      · split <;> rfl
    simp only [step]
    split <;> simp_all [scans, Pass.scans]
  | closing =>
    have hfinish : s.finishPass.1.scanning = s.scanning := by
      rw [finishPass]
      split <;> rfl
    simp only [step]
    split <;> simp_all [scans, Pass.scans]
  | configuring globs =>
    have hconfigure : (s.setGlobs globs).1.scanning = s.scanning := by
      rw [setGlobs]
      split <;> rfl
    simp only [step]
    split <;> simp_all [scans]
  | activating =>
    have hactivate : s.activate.1.scanning = s.scanning := by
      rw [activate]
      split <;> rfl
    simp only [step]
    split <;> simp_all [scans]
  | _ => cases h

theorem Call.step_bears (setup : IndexSetup α) (world : World) (pick : Nat) (s : IndexState α) (c : Call)
    (p : Path) : ScansBear p s c.scans (c.step setup world pick s).1 (c.step setup world pick s).2.1.scans := by
  have hnone : ∀ d ∈ ([] : List Scan), d.flies p = false := fun d hd => by cases hd
  have hsteers : c.steers = true →
      ScansBear p s c.scans (c.step setup world pick s).1 (c.step setup world pick s).2.1.scans := by
    intro h
    obtain ⟨hscanning, hscans⟩ := Call.step_of_steers setup world pick s h
    rw [hscans]
    refine .rests (fun hmark => ?_) hnone
    rw [scanning?_eq_lookup, hscanning]
    exact hmark
  cases c with
  | scan c =>
    have hbears : ScansBear p s [c] (c.step setup world s).1 ([c].set 0 (c.step setup world s).2.1) :=
      (c.step_bears setup world s p).set rfl
    simp only [step]
    split
    next hended =>
      refine hbears.congr fun i => (fliesAt_eq_false ?_ i).trans (fliesAt_nil p i).symm
      intro d hd
      obtain rfl := List.mem_singleton.mp hd
      exact Scan.flies_of_isEnded hended
    next => exact hbears
  | removing q =>
    have hmarks : (s.scanning? p).isSome = true → ((s.dropBelow q true).1.scanning? p).isSome = true := by
      rw [scanning?_dropBelow, Option.isSome_map]
      exact id
    simp only [step]
    split
    next t notice heq =>
      rw [heq] at hmarks
      exact .rests hmarks hnone
    next t heq =>
      rw [heq] at hmarks
      exact .rests hmarks hnone
  | removed notice =>
    simp only [step]
    split <;> exact .rests id hnone
  | pass c =>
    obtain ⟨hindex, hscans⟩ := Call.step_of_pass setup world pick s c (.inl rfl)
    rw [hindex, hscans]
    exact c.step_bears setup world pick s p
  | passing c =>
    obtain ⟨hindex, hscans⟩ := Call.step_of_pass setup world pick s c (.inr rfl)
    rw [hindex, hscans]
    exact c.step_bears setup world pick s p
  | routing q =>
    refine .rests (fun hmark => ?_) ?_
    · simp only [step, compiledFilter]
      split <;> exact hmark
    · simp only [step]
      split
      · intro d hd
        obtain rfl := List.mem_singleton.mp hd
        rfl
      · exact hnone
  | tracking q =>
    simp only [step]
    split <;> exact .rests id hnone
  | ended dropped => exact .rests id hnone
  | _ => exact hsteers rfl

/-- No scan is in flight when a call begins. -/
theorem IndexRequest.fliesAt_call (request : IndexRequest) (p : Path) (i : Nat) :
    fliesAt p i request.call.scans = false := by
  refine fliesAt_eq_false (fun d hd => ?_) i
  cases request with
  | scanFile q =>
    obtain rfl := List.mem_singleton.mp hd
    rfl
  | fileEvent e => cases e <;> cases hd
  | _ => cases hd

namespace Run

variable {r : Run α} {n m i j t b c d : Nat}

/-- The scan at a place of a call. -/
def scan? (r : Run α) (n i t : Nat) : Option Scan :=
  (r.call? n t).bind fun c => c.scans[i]?

/-- At the moment the scan at a place of a call is one of the path, and in flight. -/
def Flies (r : Run α) (p : Path) (n i t : Nat) : Prop :=
  (r.scan? n i t).any (Scan.flies p) = true

/-- At the moment it reads the path, or holds what it has read. -/
def Reads (r : Run α) (p : Path) (n i t : Nat) : Prop :=
  (r.scan? n i t).any (Scan.reads p) = true

def BeginsRead (r : Run α) (p : Path) (n i t : Nat) : Prop :=
  ¬r.Reads p n i t ∧ r.Reads p n i (t + 1)

/-- A read of the path begins at the first moment, and what it has found is committed at the second. -/
structure ReadSpans (r : Run α) (p : Path) (n i b c : Nat) : Prop where
  begins : r.BeginsRead p n i b
  order : b < c
  whole : ∀ u, b < u → u ≤ c → r.Reads p n i u
  commits : (r.scan? n i (c + 1)).any (Scan.hasCommitted p) = true

/-- Before the moment the index was disposed of while a scan of the path was in flight. -/
def Orphans (r : Run α) (p : Path) (t : Nat) : Prop :=
  ∃ u < t, r.moves u = .dispose ∧ (r.index u).isDisposed = false ∧ ∃ n i, r.Flies p n i u

/-- What holds of the scans of a path at every moment until one of them loses its mark. -/
structure Exclusive (r : Run α) (p : Path) (t : Nat) : Prop where
  marked : ∀ n i, r.Flies p n i t → ((r.index t).scanning? p).isSome = true
  alone : ∀ n i m j, r.Flies p n i t → r.Flies p m j t → n = m ∧ i = j

theorem flies_iff {call : Call} (h : r.call? n t = some call) :
    r.Flies p n i t ↔ fliesAt p i call.scans = true := by
  rw [Flies, scan?, h]
  rfl

theorem flies_congr (h : r.call? n (t + 1) = r.call? n t) : r.Flies p n i (t + 1) ↔ r.Flies p n i t := by
  rw [Flies, scan?, h, Flies, scan?]

theorem Exclusive.keep (h : r.Exclusive p t)
    (marks : ((r.index t).scanning? p).isSome = true → ((r.index (t + 1)).scanning? p).isSome = true)
    (flies : ∀ n i, r.Flies p n i (t + 1) → r.Flies p n i t) : r.Exclusive p (t + 1) where
  marked n i hn := marks (h.marked n i (flies n i hn))
  alone n i m j hn hm := h.alone n i m j (flies n i hn) (flies m j hm)

theorem Exclusive.of_none (h : ∀ n i, ¬r.Flies p n i t) : r.Exclusive p t where
  marked n i hn := absurd hn (h n i)
  alone n i _ _ hn := absurd hn (h n i)

theorem Exclusive.succ (h : r.Exclusive p t) (hkeeps : ¬r.Orphans p (t + 1)) : r.Exclusive p (t + 1) := by
  cases r.happens t with
  | begins request quiet index calls =>
    refine h.keep (fun hmark => by rw [index]; exact hmark) fun n i hn => ?_
    rcases calls n with hsame | ⟨-, hnext⟩
    · exact (flies_congr hsame).mp hn
    · rw [flies_iff hnext, IndexRequest.fliesAt_call] at hn
      cases hn
  | disposes move quiet index calls =>
    cases hlive : (r.index t).isDisposed with
    | true =>
      have hindex : r.index (t + 1) = r.index t := by rw [index, IndexState.dispose, if_pos hlive]
      exact h.keep (fun hmark => by rw [hindex]; exact hmark) fun n i => (flies_congr (calls n)).mp
    | false =>
      refine .of_none fun n i hn => hkeeps ⟨t, Nat.lt_succ_self t, move, hlive, n, i, ?_⟩
      exact (flies_congr (calls n)).mp hn
  | rests quiet course scanning calls =>
    refine h.keep (fun hmark => ?_) fun n i => (flies_congr (calls n)).mp
    rw [scanning?_eq_lookup, scanning]
    exact hmark
  | steps n c world pick move call index calls =>
    have hbears := Call.step_bears r.setup world pick (r.index t) c p
    rw [← index] at hbears
    have hself : ∀ i, r.Flies p n i (t + 1) ↔
        fliesAt p i (c.step r.setup world pick (r.index t)).2.1.scans = true := fun i =>
      flies_iff (by rw [calls, if_pos rfl])
    have hother : ∀ m i, m ≠ n → (r.Flies p m i (t + 1) ↔ r.Flies p m i t) := fun m i hm =>
      flies_congr (by rw [calls, if_neg (Ne.symm hm)])
    -- where the call puts no scan of the path in flight, nothing does
    have hbefore : ∀ {m i}, (∀ i, fliesAt p i (c.step r.setup world pick (r.index t)).2.1.scans = true →
        fliesAt p i c.scans = true) → r.Flies p m i (t + 1) → r.Flies p m i t := by
      intro m i hflies hm
      by_cases hmn : m = n
      · subst hmn
        exact (flies_iff call).mpr (hflies i ((hself i).mp hm))
      · exact (hother m i hmn).mp hm
    cases hbears with
    | keeps marks flies => exact h.keep marks fun m i => hbefore flies
    | takesOff i free marked flies =>
      have hnone : ∀ m j, ¬r.Flies p m j t := fun m j hm => by simpa [free] using h.marked m j hm
      have honly : ∀ m j, r.Flies p m j (t + 1) → m = n ∧ j = i := by
        intro m j hm
        by_cases hmn : m = n
        · subst hmn
          rcases flies j ((hself j).mp hm) with hji | hj
          · exact ⟨rfl, hji⟩
          · exact absurd ((flies_iff call).mpr hj) (hnone m j)
        · exact absurd ((hother m j hmn).mp hm) (hnone m j)
      refine ⟨fun _ _ _ => marked, fun k a m b hk hm => ?_⟩
      obtain ⟨rfl, rfl⟩ := honly k a hk
      obtain ⟨rfl, rfl⟩ := honly m b hm
      exact ⟨rfl, rfl⟩
    | lands i flew landed flies =>
      refine .of_none fun m j hm => ?_
      obtain ⟨rfl, rfl⟩ := h.alone m j n i (hbefore flies hm) ((flies_iff call).mpr flew)
      rw [hself, landed] at hm
      cases hm

theorem Orphans.mono {u : Nat} (h : r.Orphans p t) (htu : t ≤ u) : r.Orphans p u := by
  obtain ⟨v, hv, rest⟩ := h
  exact ⟨v, Nat.lt_of_lt_of_le hv htu, rest⟩

theorem exclusive (h : ¬r.Orphans p t) : r.Exclusive p t := by
  induction t with
  | zero =>
    refine .of_none fun n i hn => ?_
    cases hn
  | succ t ih => exact (ih fun horphans => h (horphans.mono (Nat.le_succ t))).succ h

theorem flies_of_any {test : Scan → Bool} (htest : ∀ {a : Scan}, test a = true → a.flies p = true)
    (h : (r.scan? n i t).any test = true) : r.Flies p n i t := by
  rw [Flies]
  cases hscan : r.scan? n i t with
  | none => simp [hscan] at h
  | some a =>
    rw [hscan] at h
    exact htest h

/-- A scan is in flight from where its read has begun to where it has committed. -/
theorem ReadSpans.flies (h : r.ReadSpans p n i b c) {u : Nat} (hbu : b < u) (huc : u ≤ c + 1) :
    r.Flies p n i u := by
  rcases Nat.lt_or_ge c u with hcu | hcu
  · obtain rfl : u = c + 1 := by omega
    exact flies_of_any Scan.flies_of_hasCommitted h.commits
  · exact flies_of_any Scan.flies_of_reads (h.whole u hbu hcu)

/-- Where scans of the path exclude one another, a read that begins later begins after the commit. -/
theorem ReadSpans.commits_before (h : r.ReadSpans p n i b c) (hd : r.BeginsRead p m j d)
    (hexclusive : r.Exclusive p (d + 1)) (hbd : b < d) : c < d := by
  by_contra hcd
  obtain ⟨rfl, rfl⟩ := hexclusive.alone n i m j (h.flies (by omega) (by omega))
    (flies_of_any Scan.flies_of_reads hd.2)
  exact hd.1 (h.whole d hbd (by omega))

/-! ### After a scan has lost its mark -/

/-- The run that goes on in another way from some moment. -/
def redirect (r : Run α) (t : Nat) (moves : Nat → Move) : Run α where
  setup := r.setup
  start := r.start
  moves u := if u < t then r.moves u else moves (u - t)

theorem redirect_traffic (r : Run α) (moves : Nat → Move) {u : Nat} (hut : u ≤ t) :
    (r.redirect t moves).traffic u = r.traffic u := by
  induction u with
  | zero => rfl
  | succ u ih =>
    have hmove : (r.redirect t moves).moves u = r.moves u := if_pos hut
    rw [traffic_succ, ih (Nat.le_of_lt hut), hmove, traffic_succ]
    rfl

theorem redirect_traffic_add (r : Run α) (moves : Nat → Move) (k : Nat) :
    (r.redirect t moves).traffic (t + k) = Traffic.after r.setup (r.traffic t) moves k := by
  induction k with
  | zero => exact r.redirect_traffic moves le_rfl
  | succ k ih =>
    have hmove : (r.redirect t moves).moves (t + k) = moves k := by
      simp only [redirect]
      rw [if_neg (by omega), Nat.add_sub_cancel_left]
    rw [← Nat.add_assoc, traffic_succ, ih, hmove]
    rfl

/-- Dispose of an index with some calls, activate it again and scan a path. -/
def scanAnew (p : Path) (calls : Nat) : Nat → Move
  | 0 => .dispose
  | 1 => .start .activate
  | 2 => .advance calls oneStepWorld 0
  | 3 => .start (.scanFile p)
  | _ => .advance (calls + 1) oneStepWorld 0

theorem step_advance (setup : IndexSetup α) (s : IndexState α) (calls rest : List Call) (c : Call)
    (world : World) (pick : Nat) :
    (⟨s, calls ++ c :: rest⟩ : Traffic α).step setup (.advance calls.length world pick) =
      ⟨(c.step setup world pick s).1, calls ++ (c.step setup world pick s).2.1 :: rest⟩ := by
  have hget : (calls ++ c :: rest)[calls.length]? = some c := by
    rw [List.getElem?_append_right le_rfl, Nat.sub_self, List.getElem?_cons_zero]
  simp only [Traffic.step, hget, List.set_append_right _ _ le_rfl, Nat.sub_self, List.set_cons_zero]

/-- The new scan takes off, whatever was in flight before. -/
theorem after_scanAnew (setup : IndexSetup α) (calls : List Call) (p : Path) (hlive : s.isDisposed = false) :
    (Traffic.after setup ⟨s, calls⟩ (scanAnew p calls.length) 5).calls =
      calls ++ [.requesting, .scan ⟨p, .reading 0⟩] := by
  obtain ⟨u, hactivate, hactive, hidle⟩ : ∃ u : IndexState α, s.dispose.activate = (u, true) ∧
      u.isDisposed = false ∧ u.scanning = [] := by
    refine ⟨{ s.dispose with lifecycle := .active }, ?_, rfl, ?_⟩
    · have hgone : s.dispose.lifecycle ≠ .active := by
        rw [IndexState.dispose, hlive, if_neg Bool.false_ne_true]
        exact fun h => by cases h
      rw [IndexState.activate, if_neg hgone]
    · rw [IndexState.dispose, hlive, if_neg Bool.false_ne_true]
  have henter : u.enterScan p = ({ u with scanning := [(p, false)] }, true) := by
    have hfree : u.scanning? p = none := by
      rw [scanning?_eq_lookup, hidle]
      rfl
    rw [enterScan, hactive, if_neg Bool.false_ne_true, hfree, Option.isSome_none, if_neg Bool.false_ne_true,
      hidle, List.nil_append]
  have hafter : Traffic.after setup ⟨s, calls⟩ (scanAnew p calls.length) 4 =
      ⟨u, (calls ++ [.requesting]) ++ [.scan ⟨p, .entering⟩]⟩ := by
    calc Traffic.after setup ⟨s, calls⟩ (scanAnew p calls.length) 4
      _ = ((⟨s.dispose, calls ++ [.activating]⟩ : Traffic α).step setup
            (.advance calls.length oneStepWorld 0)).step setup (.start (.scanFile p)) := rfl
      _ = (⟨u, calls ++ [.requesting]⟩ : Traffic α).step setup (.start (.scanFile p)) := by
        rw [step_advance]
        simp only [Call.step, hactivate]
      _ = ⟨u, (calls ++ [.requesting]) ++ [.scan ⟨p, .entering⟩]⟩ := rfl
  have hmove : scanAnew p calls.length 4 = .advance (calls ++ [Call.requesting]).length oneStepWorld 0 := by
    rw [List.length_append]
    rfl
  rw [Traffic.after, hafter, hmove, step_advance]
  simp only [Call.step, Scan.step, henter, Scan.isEnded, Bool.false_eq_true, if_false, List.append_assoc,
    List.singleton_append]

/-- Once the index is disposed of while a scan is in flight and activated again, another scan of its path may
take off beside it. -/
theorem Flies.exists_other (h : r.Flies p n i t) (hlive : (r.index t).isDisposed = false) :
    ∃ moves m, m ≠ n ∧ (r.redirect t moves).Flies p n i (t + 5) ∧ (r.redirect t moves).Flies p m 0 (t + 5) := by
  have hcalls : ((r.redirect t (scanAnew p (r.traffic t).calls.length)).traffic (t + 5)).calls =
      (r.traffic t).calls ++ [.requesting, .scan ⟨p, .reading 0⟩] := by
    rw [redirect_traffic_add]
    exact after_scanAnew r.setup _ p hlive
  have hn : n < (r.traffic t).calls.length := by
    by_contra hn
    have hnone : r.call? n t = none := List.getElem?_eq_none (Nat.not_lt.mp hn)
    rw [Flies, scan?, hnone] at h
    cases h
  refine ⟨scanAnew p (r.traffic t).calls.length, (r.traffic t).calls.length + 1, by omega, ?_, ?_⟩
  · rw [Flies, scan?, call?, hcalls, List.getElem?_append_left hn]
    exact h
  · rw [Flies, scan?, call?, hcalls, List.getElem?_append_right (Nat.le_add_right _ 1),
      Nat.add_sub_cancel_left]
    exact Path.same_refl p

end Run

/-- Until the index is disposed of while a scan of the path is in flight, at most one scan of the path is in
flight at a time, and a read that begins later than another one begins after what that one has found is
committed. From any moment at which a scan is in flight, the run may go on so that there are two of its path. -/
theorem scans_exclude_unless_orphaned (r : Run α) (p : Path) :
    (∀ t, ¬r.Orphans p t →
      (∀ n i m j, r.Flies p n i t → r.Flies p m j t → n = m ∧ i = j) ∧
      ∀ n i b c m j d, r.ReadSpans p n i b c → r.BeginsRead p m j d → b < d → d < t → c < d) ∧
    ∀ t n i, (r.index t).isDisposed = false → r.Flies p n i t →
      ∃ moves m, m ≠ n ∧ (r.redirect t moves).Flies p n i (t + 5) ∧
        (r.redirect t moves).Flies p m 0 (t + 5) := by
  refine ⟨fun t horphans => ⟨(Run.exclusive horphans).alone, ?_⟩, fun t n i hlive h => h.exists_other hlive⟩
  intro n i b c m j d hspans hbegins hbd hdt
  exact hspans.commits_before hbegins (Run.exclusive fun h => horphans (h.mono hdt)) hbd

namespace Run

/-- While a path is being read again because of a request that came in meanwhile, no other scan of it is in
flight, and the second read has begun after what the first one has found was committed. If the index is now
disposed of, there may be two scans of the path in flight. -/
theorem scans_exclude_unless_orphaned_askedTwice :
    let r := askedTwice
    let p : Path := ⟨"/w/a.feature".toList⟩
    ¬r.Orphans p 8 ∧ r.Flies p 0 0 8 ∧ (r.index 8).isDisposed = false ∧ r.ReadSpans p 0 0 1 5 ∧
      r.BeginsRead p 0 0 7 ∧ (∀ n i, r.Flies p n i 8 → n = 0 ∧ i = 0) ∧ 5 < 7 ∧
      ∃ moves m, m ≠ 0 ∧ (r.redirect 8 moves).Flies p 0 0 (8 + 5) ∧
        (r.redirect 8 moves).Flies p m 0 (8 + 5) := by
  intro r p
  have hkept : ¬r.Orphans p 8 := by
    rintro ⟨u, -, hmove, -⟩
    simp only [r, askedTwice] at hmove
    split at hmove <;> cases hmove
  have hflies : r.Flies p 0 0 8 := by
    have hany : (r.scan? 0 0 8).any (Scan.flies p) = true := by decide +kernel
    exact hany
  have hlive : (r.index 8).isDisposed = false := by decide +kernel
  have hreads : ∀ u ≤ 8, (r.scan? 0 0 u).any (Scan.reads p) = true ↔ 2 ≤ u ∧ u ≤ 5 ∨ u = 8 := by
    decide +kernel
  have hcommitted : (r.scan? 0 0 6).any (Scan.hasCommitted p) = true := by decide +kernel
  have hspans : r.ReadSpans p 0 0 1 5 := by
    refine ⟨⟨?_, ?_⟩, by decide, fun u hbu huc => ?_, hcommitted⟩
    all_goals
      rw [Reads, hreads _ (by omega)]
      omega
  have hbegins : r.BeginsRead p 0 0 7 := by
    refine ⟨?_, ?_⟩
    all_goals
      rw [Reads, hreads _ (by omega)]
      omega
  obtain ⟨hexclude, hother⟩ := scans_exclude_unless_orphaned r p
  obtain ⟨halone, hordered⟩ := hexclude 8 hkept
  exact ⟨hkept, hflies, hlive, hspans, hbegins, fun n i hn => halone n i 0 0 hn hflies,
    hordered 0 0 1 5 0 0 7 hspans hbegins (by decide) (by decide), hother 8 0 0 hlive hflies⟩

/-- The feature file of `oneStepWorld` after a change. -/
def changedWorld : World :=
  ⟨⟨[(⟨"/w/a.feature".toList⟩, ⟨"Given b".toList, 2⟩)]⟩, .empty⟩

/-- A scan reads the file, the index is disposed of and activated again, and another scan reads the file, which
has changed meanwhile. -/
def disposedMidScan : Run Occurrence where
  setup := (UsageIndex.new ⟨"/w".toList⟩ ⟨[], []⟩ 1 5).setup
  start := .new ⟨[], []⟩
  moves
    | 0 => .start (.scanFile ⟨"/w/a.feature".toList⟩)
    | 3 => .dispose
    | 4 => .start .activate
    | 5 => .advance 1 oneStepWorld 0
    | 6 => .start (.scanFile ⟨"/w/a.feature".toList⟩)
    | 7 => .advance 2 changedWorld 0
    | 8 => .advance 2 changedWorld 0
    | 9 => .advance 2 changedWorld 0
    | _ => .advance 0 oneStepWorld 0

/-- Both scans are in flight at moment 9, and the result of the older read replaces that of the later one. -/
theorem not_scans_exclude_disposedMidScan :
    let r := disposedMidScan
    let p : Path := ⟨"/w/a.feature".toList⟩
    ¬(∀ t n i m j, r.Flies p n i t → r.Flies p m j t → n = m ∧ i = j) ∧
      ¬(∀ n i b c m j d, r.ReadSpans p n i b c → r.BeginsRead p m j d → b < d → c < d) ∧
      (r.index 10).items? p = some (Occurrence.ofText p "Given b".toList) ∧
      (r.index 11).items? p = some (Occurrence.ofText p "Given a".toList) := by
  intro r p
  have hfirst : ∀ u ≤ 11, (r.scan? 0 0 u).any (Scan.reads p) = true ↔ 2 ≤ u ∧ u ≤ 10 := by decide +kernel
  have hsecond : ∀ u ≤ 11, (r.scan? 2 0 u).any (Scan.reads p) = true ↔ 8 ≤ u ∧ u ≤ 9 := by decide +kernel
  have hcommitted : (r.scan? 0 0 11).any (Scan.hasCommitted p) = true := by decide +kernel
  have hspans : r.ReadSpans p 0 0 1 10 := by
    refine ⟨⟨?_, ?_⟩, by decide, fun u hbu huc => ?_, hcommitted⟩
    all_goals
      rw [Reads, hfirst _ (by omega)]
      omega
  have hbegins : r.BeginsRead p 2 0 7 := by
    refine ⟨?_, ?_⟩
    all_goals
      rw [Reads, hsecond _ (by omega)]
      omega
  refine ⟨fun h => ?_, fun h => ?_, by decide +kernel, by decide +kernel⟩
  · have hflies : r.Flies p 2 0 9 := flies_of_any Scan.flies_of_reads ((hsecond 9 (by decide)).mpr (by decide))
    exact absurd (h 9 0 0 2 0 (hspans.flies (by decide) (by decide)) hflies).1 (by decide)
  · exact absurd (h 0 0 1 10 2 0 7 hspans hbegins (by decide)) (by decide)

end Run

end StepLink
