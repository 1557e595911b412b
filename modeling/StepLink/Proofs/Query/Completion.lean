import Mathlib.Data.Char
import Mathlib.Data.List.FinRange
import Mathlib.Data.List.Lex
import Mathlib.Data.Prod.Lex
import Mathlib.Order.WellFounded
import StepLink.Proofs.Query.Diagnostics

/-! What is offered for completion: of each pattern that contains what has been typed, the definition that comes
first, in the order of one rank. The two stable sorts of the selection, one before and one after its filter, leave the
places of the pool in that order. -/

namespace StepLink

namespace Text

theorem isWithin_iff_infix {needle t : Text} : isWithin needle t = true ↔ needle <:+: t := by
  induction t with
  | nil => rw [isWithin, List.isEmpty_iff, List.infix_nil]
  | cons c t ih => rw [isWithin, Bool.or_eq_true, List.isPrefixOf_iff_prefix, ih, List.infix_cons_iff]

end Text

/-- Sorting by a key leaves the elements with the same key in the order in which they stood. -/
theorem pairwise_mergeSort_key {α β : Type} [LinearOrder β] (key : α → β) {r : α → α → Prop} {l : List α}
    (h : l.Pairwise r) :
    (l.mergeSort fun a b => decide (key a ≤ key b)).Pairwise fun a b => key a < key b ∨ key a = key b ∧ r a b := by
  set sorted := l.mergeSort fun a b => decide (key a ≤ key b) with hsorted
  have htrans : ∀ a b c : α, decide (key a ≤ key b) = true → decide (key b ≤ key c) = true →
      decide (key a ≤ key c) = true := by
    simp only [decide_eq_true_eq]
    exact fun a b c => le_trans
  have htotal : ∀ a b : α, (decide (key a ≤ key b) || decide (key b ≤ key a)) = true := by
    simp only [Bool.or_eq_true, decide_eq_true_eq]
    exact fun a b => le_total _ _
  -- The elements with one key are, in the same order, those of the list that was sorted.
  have hclass (k : β) : l.filter (key · = k) = sorted.filter (key · = k) := by
    have hequal : (l.filter (key · = k)).Pairwise fun a b => decide (key a ≤ key b) = true := by
      refine List.pairwise_of_forall_mem_list fun a ha b hb => ?_
      have ha := of_decide_eq_true (List.mem_filter.mp ha).2
      have hb := of_decide_eq_true (List.mem_filter.mp hb).2
      exact decide_eq_true (ha.trans hb.symm).le
    have hsublist := (List.sublist_mergeSort htrans htotal hequal List.filter_sublist).filter (key · = k)
    simp only [List.filter_filter, Bool.and_self, ← hsorted] at hsublist
    exact hsublist.eq_of_length ((List.mergeSort_perm l _).symm.filter _).length_eq
  rw [List.pairwise_iff_forall_sublist]
  intro a b hab
  have hle : key a ≤ key b := by
    simpa using List.pairwise_iff_forall_sublist.mp (List.pairwise_mergeSort htrans htotal l) hab
  rcases hle.lt_or_eq with hlt | heq
  · exact .inl hlt
  · refine .inr ⟨heq, List.pairwise_iff_forall_sublist.mp h ?_⟩
    have hfiltered := hab.filter (key · = key b)
    simp only [← hclass, List.filter_cons, heq, decide_true, if_true, List.filter_nil] at hfiltered
    exact hfiltered.trans List.filter_sublist

/-- In a list in order, of two elements the one that cannot follow the other comes first. -/
theorem pair_sublist_of_pairwise {α : Type} {r : α → α → Prop} {l : List α} {a b : α} (h : l.Pairwise r)
    (ha : a ∈ l) (hb : b ∈ l) (hne : a ≠ b) (hnot : ¬r b a) : [a, b].Sublist l := by
  induction l with
  | nil => cases ha
  | cons c l ih =>
    obtain ⟨hfirst, hrest⟩ := List.pairwise_cons.mp h
    rw [List.mem_cons] at ha hb
    rcases ha with rfl | ha <;> rcases hb with rfl | hb
    · exact absurd rfl hne
    · exact (List.singleton_sublist.mpr hb).cons_cons _
    · exact absurd (hfirst a ha) hnot
    · exact (ih hrest ha hb).cons _

namespace Completion

variable {pool : List Definition} {needle : Text}

/-- The places of a pool whose patterns are not among those that have been seen and stand at no place before. -/
def firstPlaces (seen : List Text) (pool : List Definition) : List (Fin pool.length) :=
  (List.finRange pool.length).filter fun i =>
    (pool.get i).pattern ∉ seen ∧ ∀ j < i, (pool.get j).pattern ≠ (pool.get i).pattern

theorem firstPlaces_cons (seen : List Text) (d : Definition) (rest : List Definition) :
    firstPlaces seen (d :: rest) =
      if d.pattern ∈ seen then (firstPlaces seen rest).map Fin.succ
      else 0 :: (firstPlaces (d.pattern :: seen) rest).map Fin.succ := by
  simp only [firstPlaces, List.length_cons, List.finRange_succ, List.filter_cons, List.filter_map, Function.comp_def,
    Fin.forall_fin_succ, List.get_cons_zero, List.get_cons_succ', Fin.not_lt_zero, Fin.succ_pos, Fin.succ_lt_succ_iff,
    false_implies, implies_true, and_true, true_implies, List.mem_cons, not_or]
  by_cases hseen : d.pattern ∈ seen
  · simp only [hseen, not_true_eq_false, decide_false, Bool.false_eq_true, if_false, if_true]
    refine congrArg _ (List.filter_congr fun i _ => decide_eq_decide.mpr (and_congr_right fun hi => ?_))
    exact and_iff_right fun heq => hi (heq ▸ hseen)
  · simp only [hseen, not_false_eq_true, decide_true, if_false, if_true]
    refine congrArg (0 :: ·.map Fin.succ) (List.filter_congr fun i _ => decide_eq_decide.mpr ?_)
    rw [and_left_comm, ne_comm, and_assoc]

theorem firstOfEachPattern_eq_map (seen : List Text) (pool : List Definition) :
    firstOfEachPattern seen pool = (firstPlaces seen pool).map pool.get := by
  induction pool generalizing seen with
  | nil => rfl
  | cons d rest ih =>
    have hsucc (places : List (Fin rest.length)) :
        (places.map Fin.succ).map (d :: rest).get = places.map rest.get :=
      List.map_map
    rw [firstOfEachPattern, firstPlaces_cons]
    by_cases hseen : d.pattern ∈ seen
    · rw [if_pos (List.contains_iff_mem.mpr hseen), if_pos hseen, ih, hsucc]
    · rw [if_neg (mt List.contains_iff_mem.mp hseen), if_neg hseen, ih, List.map_cons, hsucc]
      rfl

/-- The lower-cased pattern at a place of a pool. -/
def loweredAt (pool : List Definition) (i : Fin pool.length) : Text :=
  Text.lowercase (pool.get i).pattern

def orderedPlaces (pool : List Definition) : List (Fin pool.length) :=
  (firstPlaces [] pool).mergeSort fun i j => decide (loweredAt pool i ≤ loweredAt pool j)

def chosenPlaces (pool : List Definition) (needle : Text) : List (Fin pool.length) :=
  ((orderedPlaces pool).filter fun i => needle <:+: loweredAt pool i).mergeSort fun i j =>
    decide (decide (¬needle <+: loweredAt pool i) ≤ decide (¬needle <+: loweredAt pool j))

theorem chosenPlaces_nil (pool : List Definition) : chosenPlaces pool [] = orderedPlaces pool := by
  have hsorted (places : List (Fin pool.length)) : (places.mergeSort fun i j =>
      decide (decide (¬[] <+: loweredAt pool i) ≤ decide (¬[] <+: loweredAt pool j))) = places := by
    refine List.mergeSort_of_pairwise (List.pairwise_of_forall fun i j => ?_)
    simp only [List.nil_prefix, le_refl, decide_true]
  rw [chosenPlaces, hsorted, List.filter_eq_self]
  exact fun i _ => decide_eq_true List.nil_infix

/-! The entries of the selection are those of the places. At each of its stages they stand in the order of theirs. -/

def entryAt (pool : List Definition) (i : Fin pool.length) : Text × Definition :=
  (loweredAt pool i, pool.get i)

theorem orderedEntries_eq_map (pool : List Definition) :
    ((firstOfEachPattern [] pool).map fun d => (Text.lowercase d.pattern, d)).mergeSort
      (fun a b => !decide (b.1 < a.1)) = (orderedPlaces pool).map (entryAt pool) := by
  rw [firstOfEachPattern_eq_map, List.map_map]
  refine (List.map_mergeSort fun i _ j _ => ?_).symm
  rw [← decide_not]
  exact decide_eq_decide.mpr not_lt.symm

theorem filterEntries_eq_map (needle : Text) (places : List (Fin pool.length)) :
    (places.map (entryAt pool)).filter (fun e => Text.isWithin needle e.1) =
      (places.filter fun i => needle <:+: loweredAt pool i).map (entryAt pool) := by
  rw [List.filter_map]
  refine congrArg _ (List.filter_congr fun i _ => ?_)
  exact Bool.eq_iff_iff.mpr (Text.isWithin_iff_infix.trans decide_eq_true_iff.symm)

theorem sortEntries_eq_map (needle : Text) (places : List (Fin pool.length)) :
    (places.map (entryAt pool)).mergeSort (fun a b => needle.isPrefixOf a.1 || !needle.isPrefixOf b.1) =
      (places.mergeSort fun i j =>
        decide (decide (¬needle <+: loweredAt pool i) ≤ decide (¬needle <+: loweredAt pool j))).map
        (entryAt pool) := by
  refine (List.map_mergeSort fun i _ j _ => ?_).symm
  have hprefix (t : Text) : needle.isPrefixOf t = decide (needle <+: t) :=
    Bool.eq_iff_iff.mpr (List.isPrefixOf_iff_prefix.trans decide_eq_true_iff.symm)
  simp only [entryAt, hprefix, decide_not]
  cases decide (needle <+: loweredAt pool i) <;> cases decide (needle <+: loweredAt pool j) <;> rfl

theorem select_eq_map (pool : List Definition) (typed : Text) :
    select pool typed = (chosenPlaces pool (Text.lowercase (Text.trim typed))).map pool.get := by
  have hplaces (places : List (Fin pool.length)) : (places.map (entryAt pool)).map (·.2) = places.map pool.get :=
    List.map_map
  rw [select]
  simp only [orderedEntries_eq_map]
  split
  next hempty => rw [List.isEmpty_iff.mp hempty, chosenPlaces_nil, hplaces]
  next => rw [filterEntries_eq_map, sortEntries_eq_map, hplaces, chosenPlaces]

theorem mem_chosenPlaces_iff {i : Fin pool.length} :
    i ∈ chosenPlaces pool needle ↔
      (∀ j < i, (pool.get j).pattern ≠ (pool.get i).pattern) ∧ needle <:+: loweredAt pool i := by
  simp [chosenPlaces, orderedPlaces, firstPlaces]

/-- Each pattern of the pool that contains the needle is offered. -/
theorem exists_mem_chosenPlaces_iff {p : Text} :
    (∃ i ∈ chosenPlaces pool needle, (pool.get i).pattern = p) ↔
      (∃ d ∈ pool, d.pattern = p) ∧ needle <:+: Text.lowercase p := by
  constructor
  · rintro ⟨i, hi, rfl⟩
    exact ⟨⟨_, pool.get_mem i, rfl⟩, (mem_chosenPlaces_iff.mp hi).2⟩
  · rintro ⟨⟨d, hd, rfl⟩, hwithin⟩
    obtain ⟨k, rfl⟩ := List.mem_iff_get.mp hd
    obtain ⟨i, hi, hfirst⟩ :=
      WellFounded.has_min wellFounded_lt {i : Fin pool.length | (pool.get i).pattern = (pool.get k).pattern} ⟨k, rfl⟩
    have hi : (pool.get i).pattern = (pool.get k).pattern := hi
    refine ⟨i, mem_chosenPlaces_iff.mpr ⟨fun j hj heq => hfirst j (heq.trans hi) hj, ?_⟩, hi⟩
    rwa [loweredAt, hi]

/-- What decides the order of a place: first whether the lower-cased pattern starts with the needle, then the
lower-cased pattern, then the place. -/
def rank (pool : List Definition) (needle : Text) (i : Fin pool.length) : Bool ×ₗ Text ×ₗ Fin pool.length :=
  toLex (decide ¬needle <+: loweredAt pool i, toLex (loweredAt pool i, i))

theorem rank_lt_of_prefix {i j : Fin pool.length} (hi : needle <+: loweredAt pool i)
    (hj : ¬needle <+: loweredAt pool j) : rank pool needle i < rank pool needle j := by
  rw [rank, rank, decide_eq_false (not_not_intro hi), decide_eq_true hj]
  exact Prod.Lex.toLex_lt_toLex.mpr (.inl Bool.false_lt_true)

theorem pairwise_chosenPlaces (pool : List Definition) (needle : Text) :
    (chosenPlaces pool needle).Pairwise fun i j => rank pool needle i < rank pool needle j := by
  have hfirst : (firstPlaces [] pool).Pairwise (· < ·) := (List.pairwise_lt_finRange _).filter _
  have hlowered : (orderedPlaces pool).Pairwise fun i j =>
      loweredAt pool i < loweredAt pool j ∨ loweredAt pool i = loweredAt pool j ∧ i < j :=
    pairwise_mergeSort_key (loweredAt pool) hfirst
  have hranked := pairwise_mergeSort_key (fun i => decide ¬needle <+: loweredAt pool i)
    (hlowered.filter fun i => needle <:+: loweredAt pool i)
  refine hranked.imp fun h => ?_
  simpa only [rank, Prod.Lex.toLex_lt_toLex] using h

theorem nodup_patterns_chosenPlaces (pool : List Definition) (needle : Text) :
    ((chosenPlaces pool needle).map fun i => (pool.get i).pattern).Nodup := by
  refine List.pairwise_map.mpr ((pairwise_chosenPlaces pool needle).imp_of_mem fun {i j} hi hj hrank heq => ?_)
  rcases lt_trichotomy i j with hlt | rfl | hlt
  · exact (mem_chosenPlaces_iff.mp hj).1 i hlt heq
  · exact lt_irrefl _ hrank
  · exact (mem_chosenPlaces_iff.mp hi).1 j hlt heq.symm

/-- Of two places the one with the lower rank comes first. -/
theorem sublist_chosenPlaces {i j : Fin pool.length} (hi : i ∈ chosenPlaces pool needle)
    (hj : j ∈ chosenPlaces pool needle) (hrank : rank pool needle i < rank pool needle j) :
    [i, j].Sublist (chosenPlaces pool needle) :=
  pair_sublist_of_pairwise (pairwise_chosenPlaces pool needle) hi hj (ne_of_apply_ne _ hrank.ne) hrank.asymm

end Completion

/-! ### Candidates -/

namespace Indexes

variable {x : Indexes} {keyword : Option StepKeyword} {typed : Text}

theorem Current.complete_eq_map (h : x.Current) (keyword : Option StepKeyword) (typed : Text) :
    let pool := Definition.offered x.definitions.state.allItems keyword
    (x.complete keyword typed).2 = (Completion.chosenPlaces pool (Text.lowercase (Text.trim typed))).map
      fun i => Candidate.ofDefinition (pool.get i) := by
  rw [(h.complete keyword typed).2, Candidate.offered, Completion.select_eq_map, List.map_map]
  rfl

theorem Current.nodup_patterns (h : x.Current) (keyword : Option StepKeyword) (typed : Text) :
    ((x.complete keyword typed).2.map (·.pattern)).Nodup := by
  rw [h.complete_eq_map, List.map_map]
  exact Completion.nodup_patterns_chosenPlaces _ _

/-- The patterns that are offered are those of the pool that contain in lower case what has been typed. -/
theorem Current.mem_patterns_iff (h : x.Current) {p : Text} :
    p ∈ (x.complete keyword typed).2.map (·.pattern) ↔
      p ∈ (Definition.offered x.definitions.state.allItems keyword).map (·.pattern) ∧
        Text.lowercase (Text.trim typed) <:+: Text.lowercase p := by
  rw [h.complete_eq_map, List.map_map, List.mem_map, List.mem_map]
  exact Completion.exists_mem_chosenPlaces_iff

end Indexes

/-- At every moment of every run, for every keyword and whatever has been typed, each pattern of the pool that contains
it in lower case is offered once. The candidate is the first definition of the pool with that pattern, and candidates
stand in the order of their ranks. Where nothing has been typed, ranks differ in the patterns and the places alone. -/
theorem Service.candidates_ranked (root : Path) (definitions usages : Selection) (batchSize maxReplays : Nat)
    (acts : Nat → Act) (t : Nat) (keyword : Option StepKeyword) (typed : Text) :
    let x := ((new root definitions usages batchSize maxReplays).after acts t).indexes
    let pool := Definition.offered (x.definitions.state.files.flatMap (·.2)) keyword
    let needle := Text.lowercase (Text.trim typed)
    let offered := (x.complete keyword typed).2
    (offered.map (·.pattern)).Nodup ∧
    (∀ p, p ∈ offered.map (·.pattern) ↔ p ∈ pool.map (·.pattern) ∧ needle <:+: Text.lowercase p) ∧
    ∃ places : List (Fin pool.length),
      offered = places.map (fun i => Candidate.ofDefinition (pool.get i)) ∧
      (∀ i ∈ places, ∀ j < i, (pool.get j).pattern ≠ (pool.get i).pattern) ∧
      places.Pairwise (fun i j => Completion.rank pool needle i < Completion.rank pool needle j) ∧
      (Text.trim typed = [] → ∀ i, (ofLex (Completion.rank pool needle i)).1 = false) := by
  intro x pool needle offered
  have hcurrent : x.Current := current_after (current_new root definitions usages batchSize maxReplays) acts t
  refine ⟨hcurrent.nodup_patterns keyword typed, fun p => hcurrent.mem_patterns_iff, Completion.chosenPlaces pool needle,
    hcurrent.complete_eq_map keyword typed, fun i hi => (Completion.mem_chosenPlaces_iff.mp hi).1,
    Completion.pairwise_chosenPlaces pool needle, fun htyped i => ?_⟩
  have hneedle : needle = [] := by
    show Text.lowercase (Text.trim typed) = []
    rw [htyped]
    rfl
  rw [hneedle]
  exact decide_eq_false (p := ¬[] <+: Completion.loweredAt pool i) (not_not_intro List.nil_prefix)

/-- A step module that stands open in the editor is scanned. -/
def scanOf (source : String) : Nat → Act
  | 0 => .definitions (.start (.scanFile ⟨"/w/steps.py".toList⟩))
  | _ => .definitions (.advance 0 ⟨⟨[(⟨"/w/steps.py".toList⟩, ⟨source.toList, 1⟩)]⟩, .empty⟩ 0)

/-- Of the two definitions of `b` the first is offered, and none is whose pattern does not contain the letter. -/
theorem Service.candidates_ranked_repetition :
    let source := "@given('ab')\n@when('B')\n@step('b')\n@given('b')\n@then('c')\ndef f():"
    let x := ((new ⟨"/w".toList⟩ ⟨[], []⟩ ⟨[], []⟩ 1 5).after (scanOf source) 6).indexes
    let offered := (x.complete none " b".toList).2
    (∃ c ∈ offered, c.pattern = ['b'] ∧ c.location.line = 2) ∧ ['c'] ∉ offered.map (·.pattern) := by
  intro source x offered
  obtain ⟨-, hpatterns, places, hoffered, hfirst, -⟩ :=
    candidates_ranked ⟨"/w".toList⟩ ⟨[], []⟩ ⟨[], []⟩ 1 5 (scanOf source) 6 none " b".toList
  let pool := Definition.offered (x.definitions.state.files.flatMap (·.2)) none
  have hpool : ['b'] ∈ pool.map (·.pattern) ∧
      ∀ i : Fin pool.length, (Candidate.ofDefinition (pool.get i)).pattern = ['b'] →
        (∀ j < i, (pool.get j).pattern ≠ (pool.get i).pattern) →
        (Candidate.ofDefinition (pool.get i)).location.line = 2 := by
    decide +kernel
  obtain ⟨hmem, hline⟩ := hpool
  constructor
  · obtain ⟨c, hc, hpattern⟩ := List.mem_map.mp ((hpatterns ['b']).mpr ⟨hmem, by decide +kernel⟩)
    refine ⟨c, hc, hpattern, ?_⟩
    rw [hoffered] at hc
    obtain ⟨i, hi, rfl⟩ := List.mem_map.mp hc
    exact hline i hpattern (hfirst i hi)
  · exact fun h => absurd ((hpatterns _).mp h).2 (by decide +kernel)

end StepLink
