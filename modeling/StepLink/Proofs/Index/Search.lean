import StepLink.Proofs.Index.Cache

/-! Searches for the steps that a pattern accepts, while the index goes on. A search is three sections of code,
each under a lock of its own: of the matchers, of the index, and of the occurrences that are kept sorted.
Other searches and all that happens to the index may come between them. What is kept may be of any earlier
moment, even of one before that of what was kept last; but what a search gives is always read off the files of
one moment of its own. -/

namespace StepLink

open IndexState

/-- A search as it goes on. -/
inductive Search where
  | matching (pattern : Text) (keyword : Option DefinitionKeyword)
  | viewing (m : Matcher) (keyword : Option DefinitionKeyword)
  /-- The items of a version have been read and are to be sorted. -/
  | sorting (m : Matcher) (keyword : Option DefinitionKeyword) (version : Nat) (items : List Occurrence)
  | ended (found : List Occurrence)

/-- The number of sections that a search still takes. -/
def Search.left : Search → Nat
  | matching _ _ => 3
  | viewing _ _ => 2
  | sorting _ _ _ _ => 1
  | ended _ => 0

/-- The texts of the occurrences that a search has found so far. -/
def Search.texts : Search → List Text
  | ended found => found.map (·.text)
  | _ => []

namespace UsageIndex

/-- One section of a search. -/
def advance (x : UsageIndex) : Search → UsageIndex × Search
  | .matching pattern keyword =>
    match x.matcher pattern with
    | (x, none, _) => (x, .ended [])
    | (x, some m, _) => (x, .viewing m keyword)
  | .viewing m keyword =>
    let (state, items) := x.state.snapshot
    ({ x with state := state }, .sorting m keyword state.version items)
  | .sorting m keyword version items =>
    let b := Buckets.refresh x.buckets keywords (·.effective) version items
    ({ x with buckets := some b }, .ended ((candidates b keyword).filter fun o => m.accepts (Text.trim o.text)))
  | .ended found => (x, .ended found)

/-- A search between whose sections nothing happens. -/
theorem advance_eq_accepted (x : UsageIndex) (pattern : Text) (keyword : Option DefinitionKeyword) :
    let first := x.advance (.matching pattern keyword)
    let second := first.1.advance first.2
    second.1.advance second.2 = ((x.accepted pattern keyword).1, .ended (x.accepted pattern keyword).2.1) := by
  rcases h : x.matcher pattern with ⟨y, _ | m, warnings⟩ <;>
    simp only [advance, accepted, sorted, h]

theorem left_advance (x : UsageIndex) (search : Search) : (x.advance search).2.left ≤ search.left - 1 := by
  cases search with
  | matching pattern keyword =>
    rcases h : x.matcher pattern with ⟨y, _ | m, warnings⟩ <;> simp [advance, h, Search.left]
  | viewing m keyword => exact Nat.le_refl _
  | sorting m keyword version items => exact Nat.le_refl _
  | ended found => exact Nat.le_refl _

/-- The look-up of a matcher changes nothing but the matchers. -/
theorem matcher_fst (x : UsageIndex) (pattern : Text) :
    ∃ matchers, (x.matcher pattern).1 = { x with matchers := matchers } := by
  rw [matcher]
  split
  next => exact ⟨_, rfl⟩
  next => split <;> exact ⟨_, rfl⟩

theorem advance_matching (x : UsageIndex) (pattern : Text) (keyword : Option DefinitionKeyword) :
    (x.advance (.matching pattern keyword)).1 = (x.matcher pattern).1 := by
  rcases h : x.matcher pattern with ⟨y, _ | m, warnings⟩ <;> simp [advance, h]

theorem advance_setup (x : UsageIndex) (search : Search) : (x.advance search).1.setup = x.setup := by
  cases search with
  | matching pattern keyword =>
    obtain ⟨matchers, hmatcher⟩ := matcher_fst x pattern
    rw [advance_matching, hmatcher]
  | viewing m keyword => rfl
  | sorting m keyword version items => rfl
  | ended found => rfl

theorem advance_section (x : UsageIndex) (search : Search) :
    Section x.setup x.state (x.advance search).1.state := by
  cases search with
  | matching pattern keyword =>
    obtain ⟨matchers, hmatcher⟩ := matcher_fst x pattern
    rw [advance_matching, hmatcher]
    exact .idle
  | viewing m keyword => exact .snapshot
  | sorting m keyword version items => exact .idle
  | ended found => exact .idle

end UsageIndex

/-- What happens at one moment: something to the index, a new search, or a section of one. -/
inductive SearchMove where
  | index (m : Move)
  | search (pattern : Text) (keyword : Option DefinitionKeyword)
  | advance (number : Nat)

/-- The index of usages with the calls on it and the searches, each in the order in which they began. -/
structure SearchTraffic where
  usages : UsageIndex
  calls : List Call
  searches : List Search

namespace SearchTraffic

def new (root : Path) (globs : Selection) (batchSize maxReplays : Nat) : SearchTraffic :=
  ⟨.new root globs batchSize maxReplays, [], []⟩

def traffic (x : SearchTraffic) : Traffic Occurrence :=
  ⟨x.usages.state, x.calls⟩

def step (x : SearchTraffic) : SearchMove → SearchTraffic
  | .index m =>
    let traffic := x.traffic.step x.usages.setup m
    { x with
      usages.state := traffic.index
      calls := traffic.calls }
  | .search pattern keyword => { x with searches := x.searches ++ [.matching pattern keyword] }
  | .advance number =>
    match x.searches[number]? with
    | none => x
    | some search =>
      let (usages, search) := x.usages.advance search
      { x with
        usages := usages
        searches := x.searches.set number search }

/-- What there is at a moment of the run of some moves. -/
def after (x : SearchTraffic) (moves : Nat → SearchMove) : Nat → SearchTraffic
  | 0 => x
  | t + 1 => (after x moves t).step (moves t)

theorem step_setup (x : SearchTraffic) (m : SearchMove) : (x.step m).usages.setup = x.usages.setup := by
  cases m with
  | index m => rfl
  | search pattern keyword => rfl
  | advance number =>
    rw [step]
    split
    · rfl
    · exact x.usages.advance_setup _

theorem step_section (x : SearchTraffic) (m : SearchMove) :
    Section x.usages.setup x.usages.state (x.step m).usages.state := by
  cases m with
  | index m => exact Traffic.step_section _ x.traffic m
  | search pattern keyword => exact .idle
  | advance number =>
    rw [step]
    split
    · exact .idle
    · exact x.usages.advance_section _

/-- How far a search has come that began at a moment: what it has read is that of a moment since. -/
def Traces (state : Nat → IndexState Occurrence) (pattern : Text) (keyword : Option DefinitionKeyword)
    (start now : Nat) : Search → Prop
  | .matching p k => p = pattern ∧ k = keyword
  | .viewing m k => Matcher.ofPattern pattern = .ok m ∧ k = keyword
  | .sorting m k version items => Matcher.ofPattern pattern = .ok m ∧ k = keyword ∧
      ∃ u, start < u ∧ u < now ∧ version = (state u).version ∧ items = (state u).allItems
  | .ended found =>
      ∃ u, start < u ∧ u < now ∧ found = Occurrence.searched (state u).allItems pattern keyword

/-- Along a run of the index the version never falls, and it tells the items. -/
def Identifies (state : Nat → IndexState Occurrence) : Prop :=
  ∀ u v, u ≤ v → (state u).version ≤ (state v).version ∧
    ((state u).version = (state v).version → (state u).allItems = (state v).allItems)

variable {state : Nat → IndexState Occurrence} {pattern : Text} {keyword : Option DefinitionKeyword}
  {start now later : Nat} {search : Search}

theorem Identifies.allItems (h : Identifies state) {u v : Nat} (hversion : (state u).version = (state v).version) :
    (state u).allItems = (state v).allItems := by
  rcases Nat.le_total u v with huv | hvu
  · exact (h u v huv).2 hversion
  · exact ((h v u hvu).2 hversion.symm).symm

theorem Traces.mono (h : Traces state pattern keyword start now search) (hle : now ≤ later) :
    Traces state pattern keyword start later search := by
  cases search with
  | matching p k => exact h
  | viewing m k => exact h
  | sorting m k version items =>
    obtain ⟨hm, hk, u, hstart, hu, hitems⟩ := h
    exact ⟨hm, hk, u, hstart, Nat.lt_of_lt_of_le hu hle, hitems⟩
  | ended found =>
    obtain ⟨u, hstart, hu, hfound⟩ := h
    exact ⟨u, hstart, Nat.lt_of_lt_of_le hu hle, hfound⟩

/-- The occurrences that are kept sorted, if any, are those of some moment so far. -/
def SortedFrom (state : Nat → IndexState Occurrence) (now : Nat) (x : UsageIndex) : Prop :=
  ∀ b, x.buckets = some b →
    ∃ u ≤ now, b = .ofItems UsageIndex.keywords (·.effective) (state u).version (state u).allItems

theorem SortedFrom.mono {x : UsageIndex} (h : SortedFrom state now x) (hle : now ≤ later) :
    SortedFrom state later x := by
  intro b hb
  obtain ⟨u, hu, hof⟩ := h b hb
  exact ⟨u, Nat.le_trans hu hle, hof⟩

/-- One section of a search keeps right what is kept, and takes the search on. -/
theorem Traces.advance {x : UsageIndex} (hidentifies : Identifies state) (hx : x.state = state now)
    (hcurrent : x.Current) (hsorted : SortedFrom state now x) (hstart : start < now)
    (h : Traces state pattern keyword start now search) :
    (x.advance search).1.Current ∧ SortedFrom state (now + 1) (x.advance search).1 ∧
      Traces state pattern keyword start (now + 1) (x.advance search).2 := by
  have hlater : SortedFrom state (now + 1) x := hsorted.mono (Nat.le_succ now)
  cases search with
  | matching p k =>
    obtain ⟨rfl, rfl⟩ := h
    obtain ⟨hkeeps, hmatcher⟩ := hcurrent.matcher p
    obtain ⟨matchers, hfst⟩ := x.matcher_fst p
    have hbuckets : (x.matcher p).1.buckets = x.buckets := by rw [hfst]
    rcases hlooked : x.matcher p with ⟨y, _ | m, warnings⟩ <;>
      rw [hlooked] at hkeeps hmatcher hbuckets <;> simp only [UsageIndex.advance, hlooked] <;>
      refine ⟨hkeeps.current, fun b hb => hlater b (hbuckets.symm.trans hb), ?_⟩
    · refine ⟨now, hstart, Nat.lt_succ_self now, ?_⟩
      rw [Occurrence.searched]
      cases hpattern : Matcher.ofPattern p with
      | error e => rfl
      | ok m => simp [hpattern, Except.toOption] at hmatcher
    · refine ⟨?_, rfl⟩
      cases hpattern : Matcher.ofPattern p with
      | error e => simp [hpattern, Except.toOption] at hmatcher
      | ok m' => simp_all [Except.toOption]
  | viewing m k =>
    obtain ⟨hm, hk⟩ := h
    refine ⟨hcurrent.of_section .snapshot, hlater, hm, hk, now, hstart, Nat.lt_succ_self now, ?_, ?_⟩
    · rw [← hx]
      exact snapshot_version x.state
    · rw [← hx]
      exact hcurrent.kept.sound.snapshot_snd
  | sorting m k version items =>
    obtain ⟨hm, rfl, u, hstart, hu, rfl, rfl⟩ := h
    -- What is kept under this version is of the items of some moment, so of those that were read.
    have hrefresh : Buckets.refresh x.buckets UsageIndex.keywords (·.effective) (state u).version
        (state u).allItems = .ofItems UsageIndex.keywords (·.effective) (state u).version (state u).allItems := by
      refine Buckets.refresh_eq fun b hb hversion => ?_
      obtain ⟨v, -, rfl⟩ := hsorted b hb
      rw [hidentifies.allItems (u := v) (v := u) hversion]
      rfl
    simp only [UsageIndex.advance, hrefresh]
    obtain ⟨hle, hsame⟩ := hidentifies u now (Nat.le_of_lt hu)
    refine ⟨⟨hcurrent.parse, ⟨hcurrent.kept.law, hcurrent.kept.sound, fun b hb => ?_⟩, hcurrent.matchers⟩,
      fun b hb => ⟨u, Nat.le_of_lt (Nat.lt_succ_of_lt hu), (Option.some.inj hb).symm⟩,
      u, hstart, Nat.lt_succ_of_lt hu, ?_⟩
    · obtain rfl := Option.some.inj hb
      refine ⟨hx ▸ hle, fun hversion => ?_⟩
      rw [hx, ← hsame (hversion.trans (congrArg IndexState.version hx))]
      rfl
    · rw [Occurrence.searched, hm, UsageIndex.candidates_ofItems]
  | ended found => exact ⟨hcurrent, hlater, h.mono (Nat.le_succ now)⟩

/-- The invariant of a run: each search reads what there is at moments of its own, and the occurrences that are
kept sorted are those of some earlier moment. -/
structure Upright (x : Nat → SearchTraffic) (moves : Nat → SearchMove) (t : Nat) : Prop where
  current : (x t).usages.Current
  sorted : SortedFrom (fun u => (x u).usages.state) t (x t).usages
  searches : ∀ number search, (x t).searches[number]? = some search → ∃ start < t, ∃ pattern keyword,
    moves start = .search pattern keyword ∧ (x start).searches.length = number ∧
      Traces (fun u => (x u).usages.state) pattern keyword start t search

theorem Upright.step {x : Nat → SearchTraffic} {moves : Nat → SearchMove} {t : Nat}
    (hidentifies : Identifies fun u => (x u).usages.state) (hstep : x (t + 1) = (x t).step (moves t))
    (h : Upright x moves t) : Upright x moves (t + 1) := by
  have hsorted : SortedFrom (fun u => (x u).usages.state) (t + 1) (x t).usages := h.sorted.mono (Nat.le_succ t)
  have hsearches : ∀ number search, (x t).searches[number]? = some search → ∃ start < t + 1, ∃ pattern keyword,
      moves start = .search pattern keyword ∧ (x start).searches.length = number ∧
        Traces (fun u => (x u).usages.state) pattern keyword start (t + 1) search := by
    intro number search hsearch
    obtain ⟨start, hstart, pattern, keyword, hmove, hnumber, htraces⟩ := h.searches number search hsearch
    exact ⟨start, Nat.lt_succ_of_lt hstart, pattern, keyword, hmove, hnumber, htraces.mono (Nat.le_succ t)⟩
  have hunmoved : x (t + 1) = x t → Upright x moves (t + 1) := fun heq =>
    ⟨heq ▸ h.current, heq ▸ hsorted, heq ▸ hsearches⟩
  cases hmove : moves t with
  | index m =>
    rw [hmove] at hstep
    refine ⟨?_, ?_, ?_⟩ <;> rw [hstep]
    · exact h.current.of_section (Traffic.step_section _ (x t).traffic m)
    · exact hsorted
    · exact hsearches
  | search pattern keyword =>
    rw [hmove] at hstep
    refine ⟨?_, ?_, fun number search hsearch => ?_⟩
    · rw [hstep]
      exact h.current
    · rw [hstep]
      exact hsorted
    · rw [hstep] at hsearch
      rcases Nat.lt_or_ge number (x t).searches.length with hlt | hge
      · exact hsearches number search ((List.getElem?_append_left hlt).symm.trans hsearch)
      · rw [SearchTraffic.step, List.getElem?_append_right hge, List.getElem?_singleton] at hsearch
        split at hsearch
        next hzero =>
          obtain rfl := Option.some.inj hsearch
          exact ⟨t, Nat.lt_succ_self t, pattern, keyword, hmove, by omega, rfl, rfl⟩
        next => cases hsearch
  | advance number =>
    rw [hmove, SearchTraffic.step] at hstep
    cases hadvanced : (x t).searches[number]? with
    | none =>
      rw [hadvanced] at hstep
      exact hunmoved hstep
    | some search =>
      rw [hadvanced] at hstep
      obtain ⟨start, hstart, pattern, keyword, hbegun, hnumber, htraces⟩ := h.searches number search hadvanced
      obtain ⟨hcurrent, hkept, hon⟩ := htraces.advance hidentifies rfl h.current h.sorted hstart
      refine ⟨?_, ?_, fun other search' hsearch' => ?_⟩
      · rw [hstep]
        exact hcurrent
      · rw [hstep]
        exact hkept
      · rw [hstep] at hsearch'
        by_cases hother : number = other
        · subst hother
          obtain ⟨hlt, -⟩ := List.getElem?_eq_some_iff.mp hadvanced
          obtain rfl := Option.some.inj ((List.getElem?_set_self hlt).symm.trans hsearch')
          exact ⟨start, Nat.lt_succ_of_lt hstart, pattern, keyword, hbegun, hnumber, hon⟩
        · exact hsearches other search' ((List.getElem?_set_ne hother).symm.trans hsearch')

theorem after_setup (x : SearchTraffic) (moves : Nat → SearchMove) (t : Nat) :
    (x.after moves t).usages.setup = x.usages.setup := by
  induction t with
  | zero => rfl
  | succ t ih => exact (step_setup _ _).trans ih

theorem after_identifies {x : SearchTraffic} (h : x.usages.Current) (moves : Nat → SearchMove) :
    Identifies fun u => (x.after moves u).usages.state := by
  intro u v huv
  have hsection : ∀ t, Section x.usages.setup (x.after moves t).usages.state
      (x.after moves (t + 1)).usages.state := fun t => by
    rw [← x.after_setup moves t]
    exact step_section _ _
  obtain ⟨hle, hfiles⟩ := files_eq_of_version_eq h.kept.law.same_refl hsection huv
  refine ⟨hle, fun hversion => ?_⟩
  rw [allItems, hfiles hversion, allItems]

theorem upright_new (root : Path) (globs : Selection) (batchSize maxReplays : Nat) (moves : Nat → SearchMove)
    (t : Nat) : Upright ((new root globs batchSize maxReplays).after moves) moves t := by
  have hnew : (new root globs batchSize maxReplays).usages.Current :=
    { parse := rfl
      kept := ⟨Occurrence.lawful root globs batchSize maxReplays, .new _ _ _, fun b h => by cases h⟩
      matchers := fun entry h => by cases h }
  induction t with
  | zero => exact ⟨hnew, fun b hb => (by cases hb), fun number search h => (by cases h)⟩
  | succ t ih => exact ih.step (after_identifies hnew moves) rfl

/-! ### The end of a search -/

/-- No search has more sections before it than it had, and one that takes a section has one fewer. -/
theorem left_step {x : SearchTraffic} {number : Nat} {search : Search} (h : x.searches[number]? = some search)
    (m : SearchMove) :
    ∃ search', (x.step m).searches[number]? = some search' ∧ search'.left ≤ search.left ∧
      (m = .advance number → search'.left ≤ search.left - 1) := by
  obtain ⟨hlt, -⟩ := List.getElem?_eq_some_iff.mp h
  cases m with
  | index m => exact ⟨search, h, Nat.le_refl _, fun heq => (by cases heq)⟩
  | search pattern keyword =>
    exact ⟨search, (List.getElem?_append_left hlt).trans h, Nat.le_refl _, fun heq => (by cases heq)⟩
  | advance other =>
    rw [step]
    by_cases hother : other = number
    · subst hother
      have hleft := x.usages.left_advance search
      rw [h]
      exact ⟨(x.usages.advance search).2, List.getElem?_set_self hlt, by omega, fun _ => hleft⟩
    · have hne : SearchMove.advance other ≠ .advance number := fun heq => hother (SearchMove.advance.inj heq)
      split
      · exact ⟨search, h, Nat.le_refl _, fun heq => absurd heq hne⟩
      · exact ⟨search, (List.getElem?_set_ne hother).trans h, Nat.le_refl _, fun heq => absurd heq hne⟩

theorem left_after {x : SearchTraffic} {moves : Nat → SearchMove} {number u v : Nat} {search : Search}
    (h : (x.after moves u).searches[number]? = some search) (huv : u ≤ v) :
    ∃ search', (x.after moves v).searches[number]? = some search' ∧ search'.left ≤ search.left := by
  induction v, huv using Nat.le_induction with
  | base => exact ⟨search, h, Nat.le_refl _⟩
  | succ v _ ih =>
    obtain ⟨search', hsearch', hle⟩ := ih
    obtain ⟨next, hnext, hleft, -⟩ := left_step hsearch' (moves v)
    exact ⟨next, hnext, Nat.le_trans hleft hle⟩

/-- After a moment at which it takes a section, a search has one fewer before it. -/
theorem left_after_advance {x : SearchTraffic} {moves : Nat → SearchMove} {number v w : Nat} {search : Search}
    (h : (x.after moves v).searches[number]? = some search) (hmove : moves v = .advance number) (hvw : v < w) :
    ∃ search', (x.after moves w).searches[number]? = some search' ∧ search'.left ≤ search.left - 1 := by
  obtain ⟨next, hnext, -, hleft⟩ := left_step h (moves v)
  obtain ⟨search', hsearch', hle⟩ := left_after (u := v + 1) (v := w) hnext hvw
  exact ⟨search', hsearch', Nat.le_trans hle (hleft hmove)⟩

theorem ended_of_advanced {x : SearchTraffic} {moves : Nat → SearchMove} {number u v w t : Nat}
    (hbegun : number < (x.after moves u).searches.length) (huv : u < v) (hvw : v < w) (hwt : w < t)
    (hu : moves u = .advance number) (hv : moves v = .advance number) (hw : moves w = .advance number) :
    ∃ found, (x.after moves t).searches[number]? = some (.ended found) := by
  obtain ⟨second, hsecond, hleft⟩ := left_after_advance (List.getElem?_eq_getElem hbegun) hu huv
  obtain ⟨third, hthird, hleft'⟩ := left_after_advance hsecond hv hvw
  obtain ⟨last, hlast, hleft''⟩ := left_after_advance hthird hw hwt
  have hthree : ∀ search : Search, search.left ≤ 3 := fun search => by cases search <;> simp [Search.left]
  have hnone : last.left = 0 := by
    have hfirst := hthree (x.after moves u).searches[number]
    omega
  cases last with
  | ended found => exact ⟨found, hlast⟩
  | _ => simp [Search.left] at hnone

/-- In every run of the index of usages, whatever has happened to it and has been searched for before: a search
between whose sections nothing happens gives the occurrences of the flat view that the pattern accepts, in
their order and under the keyword; one that other things come between gives those of a moment after its
beginning and before its end. Any search is over after three sections. -/
theorem searches_uncached (root : Path) (globs : Selection) (batchSize maxReplays : Nat)
    (moves : Nat → SearchMove) (t : Nat) :
    let x := (new root globs batchSize maxReplays).after moves
    let view := fun u => (x u).usages.state.snapshot.2
    (view t = (x t).usages.state.files.flatMap (·.2) ∧ ∀ pattern keyword,
      ((x t).usages.accepted pattern keyword).2.1 = Occurrence.searched (view t) pattern keyword) ∧
    (∀ number found, (x t).searches[number]? = some (.ended found) →
      ∃ start u pattern keyword, start < u ∧ u < t ∧ moves start = .search pattern keyword ∧
        (x start).searches.length = number ∧ found = Occurrence.searched (view u) pattern keyword) ∧
    ∀ number u v w, number < (x u).searches.length → u < v → v < w → w < t → moves u = .advance number →
      moves v = .advance number → moves w = .advance number →
      ∃ found, (x t).searches[number]? = some (.ended found) := by
  intro x view
  have hupright : ∀ u, Upright x moves u := upright_new root globs batchSize maxReplays moves
  have hview : ∀ u, view u = (x u).usages.state.allItems := fun u =>
    (hupright u).current.kept.sound.snapshot_snd
  simp only [hview]
  refine ⟨⟨rfl, fun pattern keyword => ((hupright t).current.accepted pattern keyword).2⟩,
    fun number found hended => ?_, fun number u v w hbegun huv hvw hwt => ended_of_advanced hbegun huv hvw hwt⟩
  obtain ⟨start, -, pattern, keyword, hmove, hnumber, u, hstart, hu, hfound⟩ :=
    (hupright t).searches number _ hended
  exact ⟨start, u, pattern, keyword, hstart, hu, hmove, hnumber, hfound⟩

/-- The file is scanned. A search reads it, and before it is over the index is disposed of and a second search
sorts what is left. -/
def overtakenSearch : Nat → SearchMove
  | 0 => .index (.start (.scanFile ⟨"/w/a.feature".toList⟩))
  | 6 => .search "a".toList (some (.only .given))
  | 7 => .advance 0
  | 8 => .advance 0
  | 9 => .index .dispose
  | 10 => .search "a".toList none
  | 14 => .advance 0
  | t => if t < 6 then .index (.advance 0 oneStepWorld 0) else .advance 1

/-- The first search gives what it has read, though nothing is left and the second one has found that out. -/
theorem searches_uncached_overtaken :
    let x := (new ⟨"/w".toList⟩ ⟨[], []⟩ 1 5).after overtakenSearch
    let view := fun u => (x u).usages.state.snapshot.2
    view 15 = [] ∧ (x 15).searches.map Search.texts = [["a".toList], []] ∧
      ∃ found, (x 15).searches[0]? = some (.ended found) ∧
        ∃ start u pattern keyword, start < u ∧ u < 15 ∧ overtakenSearch start = .search pattern keyword ∧
          (x start).searches.length = 0 ∧ found = Occurrence.searched (view u) pattern keyword := by
  intro x view
  obtain ⟨-, hread, hover⟩ := searches_uncached ⟨"/w".toList⟩ ⟨[], []⟩ 1 5 overtakenSearch 15
  obtain ⟨found, hfound⟩ :=
    hover 0 7 8 14 (by decide +kernel) (by decide) (by decide) (by decide) rfl rfl rfl
  exact ⟨by decide +kernel, by decide +kernel, found, hfound, hread 0 found hfound⟩

end SearchTraffic

end StepLink
