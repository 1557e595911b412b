import Mathlib.Data.List.Nodup
import StepLink.Proofs.Index.Moment
import StepLink.Proofs.Index.Telling

/-! What the subscribers of an index are told. Between a change and its tellings, and between two of them, anything
may happen, new calls of those who are told included. The books of each call balance at every moment: what it has
told and what it still carries is what its changes have owed so far. -/

namespace StepLink

open IndexState

variable {α : Type} {setup : IndexSetup α} {s t : IndexState α}

/-- Subscribers have numbers of their own, below the next one. -/
structure Registered (s : IndexState α) : Prop where
  distinct : s.subscribers.Nodup
  below : ∀ id ∈ s.subscribers, id < s.nextSubscriber

theorem keepFiles_subscribers (s : IndexState α) (test : Path → Bool) (path : Option Path) :
    (s.keepFiles test path).1.subscribers = s.subscribers ∧
      (s.keepFiles test path).1.nextSubscriber = s.nextSubscriber := by
  rw [keepFiles_fst]
  split <;> exact ⟨rfl, rfl⟩

/-- A section adds the next subscriber, or adds none. -/
theorem Section.subscribers (h : Section setup s t) :
    t = s.subscribe.1 ∨ t.subscribers.Sublist s.subscribers ∧ t.nextSubscriber = s.nextSubscriber := by
  cases h with
  | idle => exact .inr ⟨.refl _, rfl⟩
  | enter p =>
    rw [enterScan]
    split
    · exact .inr ⟨.refl _, rfl⟩
    · split <;> exact .inr ⟨.refl _, rfl⟩
  | commit p text =>
    rw [commit_fst]
    split <;> exact .inr ⟨.refl _, rfl⟩
  | drop p again =>
    have hkeep := keepFiles_subscribers (if again then s.requeue fun q => q.startsWith p else s)
      (fun q => !q.startsWith p) (some p)
    rw [dropBelow_fst, hkeep.1, hkeep.2]
    cases again <;> exact .inr ⟨.refl _, rfl⟩
  | keep listed =>
    rw [keepListed, keepFiles_fst]
    split <;> exact .inr ⟨.refl _, rfl⟩
  | decide p replays =>
    rw [decideReplay]
    split <;> exact .inr ⟨.refl _, rfl⟩
  | filter =>
    rw [compiledFilter]
    split <;> exact .inr ⟨.refl _, rfl⟩
  | request =>
    rw [requestRescan]
    split
    · exact .inr ⟨.refl _, rfl⟩
    · split <;> exact .inr ⟨.refl _, rfl⟩
  | finish =>
    rw [finishPass]
    split <;> exact .inr ⟨.refl _, rfl⟩
  | configure globs =>
    rw [setGlobs]
    split <;> exact .inr ⟨.refl _, rfl⟩
  | activate =>
    rw [IndexState.activate]
    split <;> exact .inr ⟨.refl _, rfl⟩
  | dispose =>
    rw [IndexState.dispose]
    split
    · exact .inr ⟨.refl _, rfl⟩
    · split <;> exact .inr ⟨List.nil_sublist _, rfl⟩
  | snapshot =>
    rw [IndexState.snapshot]
    split <;> exact .inr ⟨.refl _, rfl⟩
  | subscribe => exact .inl rfl
  | unsubscribe id => exact .inr ⟨List.filter_sublist, rfl⟩

theorem Registered.of_section (hs : Registered s) (h : Section setup s t) : Registered t := by
  rcases h.subscribers with rfl | ⟨hsub, hnext⟩
  · refine ⟨?_, fun id hid => ?_⟩
    · refine List.nodup_append.mpr ⟨hs.distinct, List.pairwise_singleton _ _, fun id hid other hother => ?_⟩
      rw [List.mem_singleton.mp hother]
      exact Nat.ne_of_lt (hs.below id hid)
    · show id < s.nextSubscriber + 1
      rcases List.mem_append.mp hid with hid | hid
      · exact Nat.lt_succ_of_lt (hs.below id hid)
      · rw [List.mem_singleton.mp hid]
        exact Nat.lt_succ_self _
  · exact ⟨hs.distinct.sublist hsub, fun id hid => hnext ▸ hs.below id (hsub.subset hid)⟩

theorem Reachable.registered (h : Reachable setup s) : Registered s :=
  h.induct (fun globs => ⟨.nil, fun id hid => (by cases hid)⟩) fun hsection hs => hs.of_section hsection

theorem Section.version_le (h : Section setup s t) : s.version ≤ t.version := by
  cases h.revision with
  | kept files version flat => exact Nat.le_of_eq version.symm
  | entered p text fresh files version flat => omega
  | dropped test some files version flat => omega

namespace Run

variable {r : Run α} {n m u v : Nat} {t : Nat} {τ : Telling} {path : Option Path}

/-- What a call tells at a moment. -/
def toldBy (r : Run α) (n t : Nat) : List Telling :=
  match r.moves t with
  | .advance m world pick =>
    if m = n then
      (r.call? n t).elim [] fun c => Observation.tellings (c.step r.setup world pick (r.index t)).2.2
    else []
  | _ => []

/-- What the subscribers are told at a moment. -/
def told (r : Run α) (t : Nat) : List Telling :=
  match r.moves t with
  | .advance n _ _ => r.toldBy n t
  | _ => []

/-- What a call still has to tell. -/
def pending (r : Run α) (n t : Nat) : List Telling :=
  (r.call? n t).elim [] Call.pending

/-- What a call still has to tell with the scan at a place, or with its only part. -/
def carried (r : Run α) (n pick t : Nat) : List Telling :=
  (r.call? n t).elim [] (Call.carried pick)

/-- How many steps a call takes with the scan at a place after one moment and before another. -/
def turns (r : Run α) (n pick t u : Nat) : Nat :=
  (List.range u).countP fun w => t < w && (r.moves w).turns n pick

/-- What a call comes to owe at a moment. -/
def dueBy (r : Run α) (n t : Nat) : List Telling :=
  match r.moves t with
  | .advance m _ pick =>
    if m = n then (r.call? n t).elim [] fun c => (r.index t).due (r.index (t + 1)) (c.change? pick).join
    else []
  | _ => []

/-- At the moment a call commits the change that raises the version to `v`: a scan that of its path, a removal
that of its path, or a full scan one of many files, which has no path. -/
def Commits (r : Run α) (n t v : Nat) (path : Option Path) : Prop :=
  ∃ c world pick, r.call? n t = some c ∧ r.moves t = .advance n world pick ∧ c.change? pick = some path ∧
    (r.index t).version < v ∧ (r.index (t + 1)).version = v

theorem version_mono (r : Run α) (h : t ≤ u) : (r.index t).version ≤ (r.index u).version := by
  induction u, h using Nat.le_induction with
  | base => exact Nat.le_refl _
  | succ u _ ih => exact Nat.le_trans ih (r.section_succ u).version_le

/-- A version belongs to one change. -/
theorem Commits.unique {t' : Nat} {path' : Option Path} (h : r.Commits n t v path)
    (h' : r.Commits m t' v path') : t = t' ∧ n = m ∧ path = path' := by
  obtain ⟨c, world, pick, hcall, hmove, hpath, hbelow, hversion⟩ := h
  obtain ⟨c', world', pick', hcall', hmove', hpath', hbelow', hversion'⟩ := h'
  have heq : t = t' := by
    rcases Nat.lt_trichotomy t t' with hlt | heq | hgt
    · have hmono : (r.index (t + 1)).version ≤ (r.index t').version := r.version_mono hlt
      omega
    · exact heq
    · have hmono : (r.index (t' + 1)).version ≤ (r.index t).version := r.version_mono hgt
      omega
  subst heq
  obtain ⟨rfl, -, rfl⟩ := Move.advance.inj (hmove.symm.trans hmove')
  obtain rfl := Option.some.inj (hcall.symm.trans hcall')
  exact ⟨rfl, rfl, Option.some.inj (hpath.symm.trans hpath')⟩

theorem dueBy_of_move {world : World} {pick : Nat} {c : Call} (hmove : r.moves t = .advance n world pick)
    (hcall : r.call? n t = some c) :
    r.dueBy n t = (r.index t).due (r.index (t + 1)) (c.change? pick).join := by
  simp [dueBy, hmove, hcall]

theorem balanced_of_move {world : World} {pick : Nat} {c : Call} (hmove : r.moves t = .advance n world pick)
    (hcall : r.call? n t = some c) :
    Balanced (c.change? pick) (r.index t) (r.index (t + 1)) (r.carried n pick t) (r.carried n pick (t + 1))
      (r.toldBy n t) := by
  obtain ⟨hindex, hnext⟩ := step_of_move hmove hcall
  have htold : r.toldBy n t = Observation.tellings (c.step r.setup world pick (r.index t)).2.2 := by
    simp [toldBy, hmove, hcall]
  rw [carried, carried, hcall, hnext, hindex, htold]
  exact Call.balanced r.setup world pick (r.index t) c

theorem spares_of_move {world : World} {pick : Nat} {c : Call} (hmove : r.moves t = .advance n world pick)
    (hcall : r.call? n t = some c) :
    Spares pick (fun q => r.carried n q t) (fun q => r.carried n q (t + 1)) (r.pending n t)
      (r.pending n (t + 1)) := by
  simp only [carried, pending, hcall, (step_of_move hmove hcall).2]
  exact Call.spares r.setup world pick (r.index t) c

/-- A call that takes no step owes and tells nothing. -/
theorem dueBy_of_quiet (h : ∀ c world, ¬r.Steps n t c world) : r.dueBy n t = [] ∧ r.toldBy n t = [] := by
  rw [dueBy, toldBy]
  cases hmove : r.moves t with
  | advance m world pick =>
    by_cases hm : m = n
    · subst hm
      cases hcall : r.call? m t with
      | none => simp
      | some c => exact absurd ⟨hcall, pick, hmove⟩ (h c world)
    · simp [hm]
  | _ => exact ⟨rfl, rfl⟩

theorem pending_of_quiet (h : ∀ c world, ¬r.Steps n t c world) : r.pending n (t + 1) = r.pending n t := by
  rw [pending, pending]
  cases r.happens t with
  | begins request quiet index calls =>
    rcases calls n with hsame | ⟨hnone, hnew⟩
    · rw [hsame]
    · rw [hnone, hnew]
      cases request with
      | fileEvent e => cases e <;> rfl
      | _ => rfl
  | steps m c world pick move call index calls =>
    rw [calls n, if_neg]
    rintro rfl
    exact h c world ⟨call, pick, move⟩
  | disposes move quiet index calls => rw [calls n]
  | rests quiet course scanning calls => rw [calls n]

/-- The books of a call at one moment. -/
theorem balance_step (r : Run α) (n t : Nat) :
    (r.toldBy n t ++ r.pending n (t + 1)).Perm (r.pending n t ++ r.dueBy n t) ∧
      ∀ τ ∈ r.toldBy n t, τ ∈ r.pending n t := by
  by_cases hsteps : ∃ c world, r.Steps n t c world
  · obtain ⟨c, world, hcall, pick, hmove⟩ := hsteps
    have hbooks := balanced_of_move hmove hcall
    obtain ⟨others, hbefore, hafter⟩ := (spares_of_move hmove hcall).others
    refine ⟨?_, fun τ hτ => hbefore.mem_iff.mpr (List.mem_append_left _ ?_)⟩
    · have hbalance := hbooks.balance
      rw [← dueBy_of_move hmove hcall] at hbalance
      calc
        List.Perm (r.toldBy n t ++ r.pending n (t + 1)) (r.toldBy n t ++ (r.carried n pick (t + 1) ++ others)) :=
          hafter.append_left _
        List.Perm _ (r.carried n pick t ++ r.dueBy n t ++ others) :=
          .of_eq (by rw [← List.append_assoc, hbalance])
        List.Perm _ (r.carried n pick t ++ others ++ r.dueBy n t) := by
          rw [List.append_assoc, List.append_assoc]
          exact List.perm_append_comm.append_left _
        List.Perm _ (r.pending n t ++ r.dueBy n t) := hbefore.symm.append_right _
    · rw [hbooks.next] at hτ
      exact List.mem_of_mem_take hτ
  · have hquiet : ∀ c world, ¬r.Steps n t c world := fun c world h => hsteps ⟨c, world, h⟩
    obtain ⟨hdue, htold⟩ := dueBy_of_quiet hquiet
    rw [hdue, htold, pending_of_quiet hquiet, List.nil_append, List.append_nil]
    exact ⟨.refl _, fun τ hτ => (by cases hτ)⟩

theorem mem_dueBy : τ ∈ r.dueBy n t ↔
    r.Commits n t τ.version τ.path ∧ τ.subscriber ∈ (r.index t).subscribers := by
  constructor
  · intro h
    by_cases hsteps : ∃ c world, r.Steps n t c world
    · obtain ⟨c, world, hcall, pick, hmove⟩ := hsteps
      rw [dueBy_of_move hmove hcall, IndexState.due] at h
      split at h
      next => cases h
      next hraised =>
        obtain ⟨id, hid, rfl⟩ := List.mem_map.mp h
        have hle := (r.section_succ t).version_le
        refine ⟨⟨c, world, pick, hcall, hmove, ?_, Nat.lt_of_le_of_ne hle (Ne.symm hraised), rfl⟩, hid⟩
        cases hchange : c.change? pick with
        | none => exact absurd ((balanced_of_move hmove hcall).unchanged (.inl hchange)) hraised
        | some path => rfl
    · rw [(dueBy_of_quiet fun c world hstep => hsteps ⟨c, world, hstep⟩).1] at h
      cases h
  · rintro ⟨⟨c, world, pick, hcall, hmove, hchange, hbelow, hversion⟩, hid⟩
    rw [dueBy_of_move hmove hcall, IndexState.due, if_neg (by omega), hversion, hchange]
    exact List.mem_map.mpr ⟨τ.subscriber, hid, rfl⟩

theorem balance (r : Run α) (n u : Nat) :
    ((List.range u).flatMap (r.toldBy n) ++ r.pending n u).Perm ((List.range u).flatMap (r.dueBy n)) := by
  induction u with
  | zero => exact .refl []
  | succ u ih =>
    rw [List.range_succ, List.flatMap_append, List.flatMap_append, List.flatMap_singleton,
      List.flatMap_singleton, List.append_assoc]
    calc
      List.Perm _ ((List.range u).flatMap (r.toldBy n) ++ (r.pending n u ++ r.dueBy n u)) :=
        (r.balance_step n u).1.append_left _
      List.Perm _ (((List.range u).flatMap (r.toldBy n) ++ r.pending n u) ++ r.dueBy n u) :=
        .of_eq (List.append_assoc ..).symm
      List.Perm _ ((List.range u).flatMap (r.dueBy n) ++ r.dueBy n u) := ih.append_right _

/-- Only what is owed is told, and only after the change that it is owed for. -/
theorem exists_commits_of_toldBy (h : τ ∈ r.toldBy n u) :
    ∃ t < u, r.Commits n t τ.version τ.path ∧ τ.subscriber ∈ (r.index t).subscribers := by
  have hcarried : τ ∈ r.pending n u := (r.balance_step n u).2 τ h
  have howed := (r.balance n u).mem_iff.mp (List.mem_append_right _ hcarried)
  obtain ⟨t, ht, hdue⟩ := List.mem_flatMap.mp howed
  exact ⟨t, List.mem_range.mp ht, mem_dueBy.mp hdue⟩

theorem exists_toldBy_of_told (h : τ ∈ r.told u) : ∃ n, τ ∈ r.toldBy n u := by
  rw [told] at h
  split at h
  next n world pick _ => exact ⟨n, h⟩
  next => cases h

theorem mem_told_of_toldBy (h : τ ∈ r.toldBy n u) : τ ∈ r.told u := by
  have hby := h
  rw [toldBy] at h
  split at h
  next m world pick hmove =>
    split at h
    next heq =>
      rw [told, hmove]
      exact heq ▸ hby
    next => cases h
  next => cases h

/-- Where something occurs at one moment at most, it occurs up to a later one as often as at that moment. -/
theorem count_flatMap_range {f : Nat → List Telling} (h : ∀ w, τ ∈ f w → w = t) (u : Nat) :
    ((List.range u).flatMap f).count τ = if t < u then (f t).count τ else 0 := by
  induction u with
  | zero => rfl
  | succ u ih =>
    rw [List.range_succ, List.flatMap_append, List.flatMap_singleton, List.count_append, ih]
    by_cases hu : u = t
    · subst hu
      simp
    · have hnot : (f u).count τ = 0 := List.count_eq_zero_of_not_mem fun hmem => hu (h u hmem)
      have hiff : t < u + 1 ↔ t < u := by omega
      simp only [hnot, hiff, Nat.add_zero]

/-- A change owes its telling to a subscriber of its moment once. -/
theorem count_dueBy (hregistered : Registered (r.index t)) (h : r.Commits n t τ.version τ.path)
    (hid : τ.subscriber ∈ (r.index t).subscribers) : (r.dueBy n t).count τ = 1 := by
  have hmem : τ ∈ r.dueBy n t := mem_dueBy.mpr ⟨h, hid⟩
  obtain ⟨c, world, pick, hcall, hmove, -, hbelow, hversion⟩ := h
  refine List.count_eq_one_of_mem ?_ hmem
  rw [dueBy_of_move hmove hcall, IndexState.due, if_neg (by omega)]
  exact hregistered.distinct.map fun a b hab => congrArg Telling.subscriber hab

/-- Only the call that has made a change tells of it. -/
theorem count_toldBy (h : r.Commits n t τ.version τ.path) (u : Nat) :
    ((List.range u).flatMap r.told).count τ = ((List.range u).flatMap (r.toldBy n)).count τ := by
  have hothers : ∀ w m, m ≠ n → (r.toldBy m w).count τ = 0 := by
    intro w m hm
    refine List.count_eq_zero_of_not_mem fun hmem => hm ?_
    obtain ⟨t', -, hcommits, -⟩ := exists_commits_of_toldBy hmem
    exact (hcommits.unique h).2.1
  rw [List.count_flatMap, List.count_flatMap]
  congr 1
  refine List.map_congr_left fun w _ => ?_
  show (r.told w).count τ = (r.toldBy n w).count τ
  rw [told]
  split
  next m world pick hmove =>
    by_cases hm : m = n
    · rw [hm]
    · have hnone : r.toldBy n w = [] := by simp [toldBy, hmove, hm]
      rw [hothers w m hm, hnone, List.count_nil]
  next hidle =>
    rw [toldBy]
    split
    next m world pick hmove => exact absurd hmove (hidle m world pick)
    next => rfl

/-- What a change owes to a subscriber has been told once by then, unless the call still carries it. -/
theorem count_told (hregistered : Registered (r.index t)) (h : r.Commits n t τ.version τ.path)
    (hid : τ.subscriber ∈ (r.index t).subscribers) (u : Nat) :
    ((List.range u).flatMap r.told).count τ = if t < u ∧ τ ∉ r.pending n u then 1 else 0 := by
  have hdue : ((List.range u).flatMap (r.dueBy n)).count τ = if t < u then 1 else 0 := by
    rw [count_flatMap_range fun w hw => ((mem_dueBy.mp hw).1.unique h).1, count_dueBy hregistered h hid]
  have hbooks := (r.balance n u).count_eq τ
  rw [hdue, List.count_append] at hbooks
  rw [← count_toldBy h u] at hbooks
  by_cases hcarried : τ ∈ r.pending n u
  · have hpos := List.count_pos_iff.mpr hcarried
    rw [if_neg fun hpast => hpast.2 hcarried]
    split at hbooks <;> omega
  · rw [List.count_eq_zero_of_not_mem hcarried, Nat.add_zero] at hbooks
    simp only [hcarried, not_false_eq_true, and_true]
    exact hbooks

/-- What a part of a call carries stays with it, until a step of the part tells the first of it. -/
theorem carried_succ {pick : Nat} (h : r.carried n pick u ≠ []) :
    (∃ τ ∈ r.toldBy n u, r.carried n pick u = τ :: r.carried n pick (u + 1)) ∨
      r.carried n pick (u + 1) = r.carried n pick u ∧ (r.moves u).turns n pick = false := by
  obtain ⟨c, hcall⟩ : ∃ c, r.call? n u = some c := by
    rw [← Option.ne_none_iff_exists']
    intro hnone
    rw [carried, hnone] at h
    exact h rfl
  by_cases hmove : ∃ world q, r.moves u = .advance n world q
  · obtain ⟨world, q, hmove⟩ := hmove
    have hbooks := balanced_of_move hmove hcall
    have htells : r.carried n q u ≠ [] → ∃ τ ∈ r.toldBy n u, r.carried n q u = τ :: r.carried n q (u + 1) := by
      intro hcarried
      obtain ⟨τ, rest, hparts⟩ := List.exists_cons_of_ne_nil hcarried
      have hbalance := hbooks.balance
      rw [due_eq_nil (hbooks.unchanged (.inr hcarried)), List.append_nil, hbooks.next, hparts] at hbalance
      refine ⟨τ, ?_, hparts.trans hbalance.symm⟩
      rw [hbooks.next, hparts]
      exact List.mem_cons_self
    rcases (spares_of_move hmove hcall).aside pick h with hstays | ⟨hpart, hpart'⟩
    · by_cases hq : q = pick
      · subst hq
        exact .inl (htells h)
      · exact .inr ⟨hstays, by simp [hmove, Move.turns, hq]⟩
    · rw [hpart] at h
      rw [hpart, hpart']
      exact .inl (htells h)
  · refine .inr ⟨?_, ?_⟩
    · rcases stays_or_steps hcall with hsame | ⟨world, -, q, hstep⟩
      · rw [carried, carried, hsame, hcall]
      · exact absurd ⟨world, q, hstep⟩ hmove
    · cases hother : r.moves u with
      | advance m world q =>
        have hm : m ≠ n := fun heq => hmove ⟨world, q, heq ▸ hother⟩
        simp [Move.turns, hm]
      | _ => rfl

theorem turns_eq_zero {pick : Nat} (h : u ≤ t + 1) : r.turns n pick t u = 0 := by
  refine List.countP_eq_zero.mpr fun w hw => ?_
  have hle : ¬t < w := by
    have hlt := List.mem_range.mp hw
    omega
  simp [hle]

theorem turns_succ (r : Run α) (n pick : Nat) (h : t < u) :
    r.turns n pick t (u + 1) = r.turns n pick t u + if (r.moves u).turns n pick then 1 else 0 := by
  rw [turns, List.range_succ, List.countP_append, List.countP_singleton, decide_eq_true h, Bool.true_and]
  rfl

/-- As many steps of a part as it carries tellings tell them all. -/
theorem toldBy_of_turns {pick : Nat} (hu : t < u) (h : (r.carried n pick (t + 1)).length ≤ r.turns n pick t u) :
    ∀ τ ∈ r.carried n pick (t + 1), ∃ w < u, τ ∈ r.toldBy n w := by
  -- What is told by a moment and what is left then; until nothing is, it is what the part carries.
  have hsplit : ∃ done rest, r.carried n pick (t + 1) = done ++ rest ∧
      (∀ τ ∈ done, ∃ w < u, τ ∈ r.toldBy n w) ∧
      (rest = [] ∨ r.carried n pick u = rest ∧ r.turns n pick t u ≤ done.length) := by
    clear h
    induction u, hu using Nat.le_induction with
    | base =>
      have hnone : r.turns n pick t (t + 1) = 0 := turns_eq_zero (Nat.le_refl _)
      exact ⟨[], _, rfl, fun τ hτ => (by cases hτ), .inr ⟨rfl, Nat.le_of_eq hnone⟩⟩
    | succ u hu ih =>
      obtain ⟨done, rest, hparts, htold, hrest⟩ := ih
      have hbefore : ∀ τ ∈ done, ∃ w < u + 1, τ ∈ r.toldBy n w := by
        intro τ hτ
        obtain ⟨w, hw, hτ⟩ := htold τ hτ
        exact ⟨w, Nat.lt_succ_of_lt hw, hτ⟩
      by_cases hempty : rest = []
      · exact ⟨done, rest, hparts, hbefore, .inl hempty⟩
      · obtain ⟨hcarried, hturns⟩ := hrest.resolve_left hempty
        have hsucc := r.turns_succ n pick hu
        rcases carried_succ (hcarried ▸ hempty) with ⟨τ, hτ, hnext⟩ | ⟨hstays, hidle⟩
        · refine ⟨done ++ [τ], r.carried n pick (u + 1), ?_, fun σ hσ => ?_, .inr ⟨rfl, ?_⟩⟩
          · rw [hparts, ← hcarried, hnext, List.append_assoc, List.singleton_append]
          · rcases List.mem_append.mp hσ with hσ | hσ
            · exact hbefore σ hσ
            · obtain rfl := List.mem_singleton.mp hσ
              exact ⟨u, Nat.lt_succ_self u, hτ⟩
          · rw [hsucc, List.length_append, List.length_singleton]
            split <;> omega
        · refine ⟨done, rest, hparts, hbefore, .inr ⟨hstays.trans hcarried, ?_⟩⟩
          rw [hsucc, hidle]
          exact hturns
  obtain ⟨done, rest, hparts, htold, hrest⟩ := hsplit
  have hnone : rest = [] := by
    rcases hrest with hnone | ⟨-, hturns⟩
    · exact hnone
    · rw [hparts, List.length_append] at h
      exact List.eq_nil_of_length_eq_zero (by omega)
  rw [hparts, hnone, List.append_nil]
  exact htold

/-- Right after a change, the part of the call that has made it carries what the change owes. -/
theorem carried_of_commits {world : World} {pick : Nat} (hmove : r.moves t = .advance n world pick)
    (h : r.Commits n t v path) :
    r.carried n pick (t + 1) = (r.index t).subscribers.map fun id => ⟨id, v, path⟩ := by
  obtain ⟨c, world', pick', hcall, hmove', hchange, hbelow, rfl⟩ := h
  obtain ⟨-, rfl, rfl⟩ := Move.advance.inj (hmove.symm.trans hmove')
  have hbooks := balanced_of_move hmove hcall
  have hnone : r.carried n pick t = [] := by
    by_contra hcarried
    exact absurd (hbooks.unchanged (.inr hcarried)) (Nat.ne_of_gt hbelow)
  have hbalance := hbooks.balance
  rw [hbooks.next, hnone, hchange, IndexState.due, if_neg (Nat.ne_of_gt hbelow)] at hbalance
  exact hbalance

/-- Once the part of the call that has made a change has taken as many steps as there were subscribers, each of them
has been told of it. -/
theorem count_told_of_turns (hregistered : Registered (r.index t)) (h : r.Commits n t τ.version τ.path)
    (hid : τ.subscriber ∈ (r.index t).subscribers) {world : World} {pick : Nat}
    (hmove : r.moves t = .advance n world pick) (hturns : (r.index t).subscribers.length ≤ r.turns n pick t u) :
    ((List.range u).flatMap r.told).count τ = 1 := by
  have hcarried := carried_of_commits hmove h
  have hu : t < u := by
    by_contra hle
    rw [turns_eq_zero (by omega)] at hturns
    exact absurd (List.length_pos_of_mem hid) (Nat.not_lt.mpr hturns)
  have hmem : τ ∈ r.carried n pick (t + 1) := by
    rw [hcarried]
    exact List.mem_map.mpr ⟨τ.subscriber, hid, rfl⟩
  obtain ⟨w, hw, hτ⟩ := toldBy_of_turns hu (by rwa [hcarried, List.length_map]) τ hmem
  have htold : τ ∈ (List.range u).flatMap r.told :=
    List.mem_flatMap.mpr ⟨w, List.mem_range.mpr hw, mem_told_of_toldBy hτ⟩
  have hpos := List.count_pos_iff.mpr htold
  have hcount := count_told hregistered h hid u
  split at hcount <;> omega

theorem exists_commits_of_version_ne (h : (r.index (t + 1)).version ≠ (r.index t).version) :
    r.moves t = .dispose ∨ ∃ n path, r.Commits n t (r.index (t + 1)).version path := by
  have hnext : r.traffic (t + 1) = (r.traffic t).step r.setup (r.moves t) := rfl
  have hle := (r.section_succ t).version_le
  cases hmove : r.moves t with
  | dispose => exact .inl rfl
  | advance n world pick =>
    cases hcall : r.call? n t with
    | none =>
      rw [call?] at hcall
      rw [index, hnext, hmove, Traffic.step, hcall] at h
      exact absurd rfl h
    | some c =>
      cases hchange : c.change? pick with
      | none => exact absurd ((balanced_of_move hmove hcall).unchanged (.inl hchange)) h
      | some path =>
        exact .inr ⟨n, path, c, world, pick, hcall, hmove, hchange, Nat.lt_of_le_of_ne hle (Ne.symm h), rfl⟩
  | snapshot =>
    rw [index, hnext, hmove] at h
    exact absurd (snapshot_version (r.index t)) h
  | _ =>
    rw [index, hnext, hmove] at h
    exact absurd rfl h

/-- In every run of an index, whatever calls come between the change and the telling, from those who are told
or from others: only disposals, which nobody is told of, and changes that calls commit raise the version. Each
subscriber of the moment of a change is told of it once, with its version and path. It has been told as soon as the
call does not carry it any more, so when it is over, and at the latest when the part of the call that has made the
change has taken as many steps since as there were subscribers. Nobody is told of anything else, or before. From
the telling on, a snapshot is of the version of the change or a later one, and shows the files of that version. -/
theorem subscribers_told_once {equal : α → α → Prop} (hindex : StepIndex setup equal) (globs : Selection)
    (moves : Nat → Move) :
    let r : Run α := ⟨setup, .new globs, moves⟩
    (∀ t, (r.index (t + 1)).version ≠ (r.index t).version →
      moves t = .dispose ∨ ∃ n path, r.Commits n t (r.index (t + 1)).version path) ∧
    (∀ n t v path, r.Commits n t v path → ∀ id ∈ (r.index t).subscribers, ∀ u,
      let times := ((List.range u).flatMap r.told).count ⟨id, v, path⟩
      times = (if t < u ∧ ⟨id, v, path⟩ ∉ r.pending n u then 1 else 0) ∧
        ∀ world pick, moves t = .advance n world pick →
          (r.index t).subscribers.length ≤ r.turns n pick t u → times = 1) ∧
    (∀ n u c, r.call? n u = some c → c.isEnded = true → r.pending n u = []) ∧
    (∀ u, ∀ τ ∈ r.told u,
      ∃ n t, t < u ∧ r.Commits n t τ.version τ.path ∧ τ.subscriber ∈ (r.index t).subscribers) ∧
    ∀ u, ∀ τ ∈ r.told u, ∀ w, u ≤ w →
      let seen := (r.index w).snapshot
      τ.version ≤ seen.1.version ∧
        ∀ x, (r.index x).version = seen.1.version → seen.2 = (r.index x).files.flatMap (·.2) := by
  intro r
  obtain ⟨pathOf, law⟩ := hindex.lawful
  have hreachable : ∀ t, Reachable r.setup (r.index t) := fun t => ⟨globs, moves, t, rfl⟩
  have hcommitted : ∀ u, ∀ τ ∈ r.told u,
      ∃ n t, t < u ∧ r.Commits n t τ.version τ.path ∧ τ.subscriber ∈ (r.index t).subscribers := by
    intro u τ hτ
    obtain ⟨n, hby⟩ := exists_toldBy_of_told hτ
    obtain ⟨t, ht, hcommits, hid⟩ := exists_commits_of_toldBy hby
    exact ⟨n, t, ht, hcommits, hid⟩
  refine ⟨fun t => exists_commits_of_version_ne, fun n t v path hcommits id hid u => ?_,
    fun n u c hcall hended => ?_, hcommitted, fun u τ hτ w huw => ⟨?_, fun x hversion => ?_⟩⟩
  · exact ⟨count_told (hreachable t).registered hcommits hid u,
      fun world pick hmove => count_told_of_turns (hreachable t).registered hcommits hid hmove⟩
  · rw [pending, hcall]
    cases c with
    | ended dropped => rfl
    | _ => cases hended
  · obtain ⟨n, t, ht, ⟨c, world, pick, -, -, -, -, hversion⟩, -⟩ := hcommitted u τ hτ
    rw [snapshot_version, ← hversion]
    exact r.version_mono (Nat.le_trans ht huw)
  · rw [snapshot_version] at hversion
    have hfiles : (r.index w).files = (r.index x).files := by
      rcases Nat.le_total x w with hxw | hwx
      · exact ((files_eq_of_version_eq law.same_refl r.section_succ hxw).2 hversion).symm
      · exact (files_eq_of_version_eq law.same_refl r.section_succ hwx).2 hversion.symm
    rw [((hreachable w).sound law).snapshot_snd, allItems, hfiles]

/-- Between the change that a scan makes and the telling of it, the file is removed, and the subscriber leaves
and is told of the removal. The scan has one more step after that. -/
def removedMidTelling : Nat → Move
  | 0 => .subscribe
  | 1 => .start (.scanFile ⟨"/w/a.feature".toList⟩)
  | 5 => .start (.removeFile ⟨"/w/a.feature".toList⟩)
  | 7 => .subscribe
  | 8 => .unsubscribe 0
  | t => .advance (if t = 6 ∨ t = 9 ∨ t = 10 then 1 else 0) oneStepWorld 0

/-- The subscriber is told of both changes, of the later one first. -/
theorem subscribers_told_once_removedMidTelling :
    let setup := (UsageIndex.new ⟨"/w".toList⟩ ⟨[], []⟩ 1 5).setup
    let r : Run Occurrence := ⟨setup, .new ⟨[], []⟩, removedMidTelling⟩
    let p : Path := ⟨"/w/a.feature".toList⟩
    let toldBefore := fun u => (List.range u).flatMap r.told
    StepIndex setup Occurrence.Respells ∧ r.Commits 0 4 1 (some p) ∧ r.Commits 1 6 2 (some p) ∧
      toldBefore 12 = [⟨0, 2, some p⟩, ⟨0, 1, some p⟩] ∧
      (toldBefore 12).count ⟨0, 1, some p⟩ = 1 ∧ (toldBefore 10).count ⟨0, 1, some p⟩ = 0 ∧
      (r.index 9).snapshot.1.version = 2 ∧ (r.index 9).snapshot.2 = (r.index 7).files.flatMap (·.2) := by
  intro setup r p toldBefore
  have hcommit : r.Commits 0 4 1 (some p) := ⟨_, _, _, rfl, rfl, rfl, by decide, by decide⟩
  have htold : ⟨0, 2, some p⟩ ∈ r.told 9 := by decide
  obtain ⟨-, honce, -, -, hsnapshot⟩ :=
    subscribers_told_once (.usages ⟨"/w".toList⟩ ⟨[], []⟩ 1 5) ⟨[], []⟩ removedMidTelling
  have hcount := honce 0 4 1 (some p) hcommit 0 (by decide)
  refine ⟨.usages _ ⟨[], []⟩ _ _, hcommit, ⟨_, _, _, rfl, rfl, rfl, by decide, by decide⟩, by decide,
    (hcount 12).2 oneStepWorld 0 rfl (by decide), (hcount 10).1.trans (if_neg (by decide)), by decide,
    (hsnapshot 9 _ htold 9 (Nat.le_refl 9)).2 7 (by decide)⟩

end Run

end StepLink
