import StepLink.Proofs.Index.Mirror

/-! An index that is kept up to date event by event, against one that is built from nothing. The events of a
change tell of the places that it concerns and not of what lies below them, so of what comes to a new place an
index gets to know at most the file at that place. -/

namespace StepLink

open IndexState Disk DiskChange

variable {α : Type} {setup : IndexSetup α} {equal : α → α → Prop} {pathOf : α → Path} {world : World}
  {s t u : IndexState α} {globs : Selection} {d : Disk} {root : Path} {names below : List Text}

/-- What an index has after the events of a change: of what lies at the new place or below it, at most the file
at the new place itself, and that one even in a directory that the walk passes over. -/
def Disk.told (d : Disk) (root : Path) (names : List Text) (filter : CorpusFilter) (target : Option (List Text)) :
    List Text → Option Text :=
  match target with
  | none => d.corpus root names filter
  | some new =>
    Function.update (fun below => if new <+: below then none else d.corpus root names filter below) new
      (d.found root names filter new)

/-- Of what lies at the new place or below it, the walk lists the file at the new place itself if the globs
select it, and nothing else. -/
def Disk.ListsOnlyNamed (d : Disk) (root : Path) (names : List Text) (filter : CorpusFilter)
    (target : Option (List Text)) : Prop :=
  ∀ new, target = some new → ∀ below text, new <+: below → d.file? (names ++ below) = some (.text text) →
    (filter.lists root below = true ↔ below = new ∧ filter.accepts (pathBelow root new) = true)

section

variable {filter : CorpusFilter} {target : Option (List Text)} {new : List Text}

theorem Disk.told_self : d.told root names filter (some new) new = d.found root names filter new := by
  simp only [told, Function.update_self]

theorem Disk.told_below (hunder : new <+: below) (hne : below ≠ new) :
    d.told root names filter (some new) below = none := by
  simp only [told, Function.update_of_ne hne, if_pos hunder]

theorem Disk.told_aside (hunder : ¬new <+: below) :
    d.told root names filter (some new) below = d.corpus root names filter below := by
  have hne : below ≠ new := by
    rintro rfl
    exact hunder (List.prefix_refl below)
  simp only [told, Function.update_of_ne hne, if_neg hunder]

theorem Disk.ListsOnlyNamed.told_eq (h : d.ListsOnlyNamed root names filter target) (below : List Text) :
    d.told root names filter target below = d.corpus root names filter below := by
  cases target with
  | none => rfl
  | some new =>
    by_cases hprefix : new <+: below
    · have hlists := fun text htext => h new rfl below text hprefix (text?_eq_some_iff.mp htext)
      by_cases heq : below = new
      · subst heq
        rw [told_self, found, corpus]
        cases htext : d.text? (names ++ below) with
        | none => rw [ite_self, ite_self]
        | some text => simp [hlists text htext]
      · rw [told_below hprefix heq, corpus]
        cases htext : d.text? (names ++ below) with
        | none => rw [ite_self]
        | some text => simp [hlists text htext, heq]
    · exact told_aside hprefix

theorem Disk.listsOnlyNamed_of_isSome_eq (hd : d.IsTree) (hroot : d.IsRoot root names)
    (h : ∀ below, IsWay below →
      (d.told root names filter target below).isSome = (d.corpus root names filter below).isSome) :
    d.ListsOnlyNamed root names filter target := by
  rintro new rfl below text hprefix hfile
  have htext : d.text? (names ++ below) = some text := text?_eq_some_iff.mpr hfile
  have hsome := h below (hroot.isWay_of_file hd (by rw [hfile]; rfl))
  have hcorpus : (d.corpus root names filter below).isSome = filter.lists root below := by
    rw [corpus, htext]
    cases filter.lists root below <;> rfl
  rw [← hcorpus, ← hsome]
  by_cases heq : below = new
  · subst heq
    rw [told_self, found, htext]
    cases filter.accepts (pathBelow root below) <;> simp
  · simp [told_below hprefix heq, heq]

end

/-- An index that has nothing below a path, and has what the walk lists elsewhere, has what is told once the path
has been looked at, however often. -/
theorem Mirrors.told_of_events (law : Lawful setup equal pathOf) (hrest : AtRest setup pathOf globs s)
    {contents : List Text → Option Text} (hs : Mirrors setup equal contents s)
    (hroot : d.IsRoot setup.root names) {new : List Text} (way : IsWay new)
    (hnone : ∀ below, new <+: below → below ≠ new → contents below = none)
    (haside : ∀ below, ¬new <+: below →
      contents below = d.corpus setup.root names (.ofGlobs setup.root globs) below)
    {events : List FileEvent} (hne : events ≠ [])
    (hevents : ∀ e ∈ events, e = .created (pathBelow setup.root new) ∨ e = .modified (pathBelow setup.root new)) :
    Mirrors setup equal (d.told setup.root names (.ofGlobs setup.root globs) (some new))
      (events.foldl (IndexState.heed setup ⟨.empty, d⟩) s) := by
  induction events generalizing s contents with
  | nil => exact absurd rfl hne
  | cons e events ih =>
    have hbare := hs.isBareBelow hroot.isAbsolute way hnone
    have hfirst := hs.refreshed hroot way
      (hrest.refreshed law hbare ⟨.empty, d⟩ (hevents e List.mem_cons_self))
    cases events with
    | nil =>
      refine hfirst.congr fun below _ => ?_
      by_cases hprefix : new <+: below
      · by_cases heq : below = new
        · subst heq
          rw [told_self, Function.update_self]
        · rw [told_below hprefix heq, Function.update_of_ne heq, hnone below hprefix heq]
      · have hbelow : below ≠ new := by
          rintro rfl
          exact hprefix (List.prefix_refl below)
        rw [told_aside hprefix, Function.update_of_ne hbelow, haside below hprefix]
    | cons e' events =>
      refine ih (hrest.heed law _ e) hfirst (fun below hprefix hbelow => ?_) (fun below hprefix => ?_)
        (List.cons_ne_nil e' events) fun e' he' => hevents e' (List.mem_cons_of_mem e he')
      · rw [Function.update_of_ne hbelow]
        exact hnone below hprefix hbelow
      · rw [Function.update_of_ne]
        · exact haside below hprefix
        · rintro rfl
          exact hprefix (List.prefix_refl below)

section

variable (law : Lawful setup equal pathOf) (hrest : AtRest setup pathOf globs s)
  (hroot : d.IsRoot setup.root names)
  (hs : Mirrors setup equal (d.corpus setup.root names (.ofGlobs setup.root globs)) s)

include law hrest hroot hs

theorem Mirrors.told_write {new : List Text} {data : FileData} {events : List FileEvent} (way : IsWay new)
    (plain : d.isDirectory (names ++ new) = false) (hd : (d.write (pathBelow setup.root new) data).IsTree)
    (hroot' : (d.write (pathBelow setup.root new) data).IsRoot setup.root names) (hne : events ≠ [])
    (hevents : ∀ e ∈ events, e = .created (pathBelow setup.root new) ∨ e = .modified (pathBelow setup.root new)) :
    let after := d.write (pathBelow setup.root new) data
    Mirrors setup equal (after.told setup.root names (.ofGlobs setup.root globs) (some new))
      (events.foldl (IndexState.heed setup ⟨.empty, after⟩) s) := by
  intro after
  have hfile : ∀ below, after.file? (names ++ below) =
      if new = below then some data else d.file? (names ++ below) := by
    intro below
    simp only [after, file?_write (hroot.names?_below way) plain, List.append_cancel_left_eq]
  refine hs.told_of_events law hrest hroot' way (fun below hprefix hbelow => corpus_of_none ?_)
    (fun below hprefix => corpus_congr ?_) hne hevents
  · -- what is written is a file, so nothing lies below it
    obtain ⟨rest, rfl⟩ := hprefix
    have hself := hfile new
    have hrest := hfile (new ++ rest)
    rw [if_pos rfl] at hself
    rw [if_neg (Ne.symm hbelow)] at hrest
    by_contra hsome
    rw [← hrest, ← ne_eq, Option.ne_none_iff_isSome, ← List.append_assoc] at hsome
    have hnil := hd.eq_nil_of_file? (by rw [hself]; rfl) hsome
    rw [hnil, List.append_nil] at hbelow
    exact hbelow rfl
  · rw [hfile, if_neg]
    rintro rfl
    exact hprefix (List.prefix_refl new)

omit law hrest in
theorem Mirrors.told_delete {gone : List Text} (way : IsWay gone) (again : Bool) :
    Mirrors setup equal
      ((d.delete (pathBelow setup.root gone)).told setup.root names (.ofGlobs setup.root globs) none)
      (s.dropBelow (pathBelow setup.root gone) again).1 := by
  refine (hs.dropped hroot.isAbsolute way again).congr fun below _ => ?_
  have hfile : (d.delete (pathBelow setup.root gone)).file? (names ++ below) =
      if gone <+: below then none else d.file? (names ++ below) := by
    simp only [file?_delete (hroot.names?_below way), List.prefix_append_right_inj]
  split
  next hprefix => exact corpus_of_none (hfile.trans (if_pos hprefix))
  next hprefix => exact corpus_congr (hfile.trans (if_neg hprefix))

theorem Mirrors.told_rename {old new : List Text} (source : IsWay old) (target : IsWay new)
    (holds : d.holds (pathBelow setup.root old) = true) (apart : ¬old <+: new ∧ ¬new <+: old)
    (free : ∀ m, new <+: m → m ≠ new → d.file? (names ++ m) = none)
    (hroot' : (d.rename (pathBelow setup.root old) (pathBelow setup.root new)).IsRoot setup.root names) :
    let after := d.rename (pathBelow setup.root old) (pathBelow setup.root new)
    Mirrors setup equal (after.told setup.root names (.ofGlobs setup.root globs) (some new))
      ([.removed (pathBelow setup.root old), .created (pathBelow setup.root new)].foldl
        (IndexState.heed setup ⟨.empty, after⟩) s) := by
  intro after
  have hfile : ∀ below, ¬new <+: below →
      after.file? (names ++ below) = if old <+: below then none else d.file? (names ++ below) := by
    intro below hnew
    rw [file?_rename (hroot.names?_below source) (hroot.names?_below target) holds
      (not_same_of_apart hroot.isAbsolute source target apart), if_neg]
    · simp only [List.prefix_append_right_inj]
    · rwa [List.prefix_append_right_inj]
  have hdropped := hs.dropped hroot.isAbsolute source true
  have hrest' : AtRest setup pathOf globs (s.dropBelow (pathBelow setup.root old) true).1 :=
    hrest.heed law ⟨.empty, d⟩ (.removed (pathBelow setup.root old))
  refine hdropped.told_of_events law hrest' hroot' target (fun below hprefix hbelow => ?_)
    (fun below hprefix => ?_) (List.cons_ne_nil _ []) fun e he => .inl (List.mem_singleton.mp he)
  · rw [corpus_of_none (free below hprefix hbelow), ite_self]
  · have hbelow := hfile below hprefix
    by_cases hold : old <+: below
    · rw [if_pos hold] at hbelow ⊢
      exact (corpus_of_none hbelow).symm
    · rw [if_neg hold] at hbelow ⊢
      exact (corpus_congr hbelow).symm

/-- After the events of a change, the index has what is told of the disk after the change. -/
theorem Mirrors.told {c : DiskChange} {target : Option (List Text)} (hc : c.Possible d setup.root names target)
    (hd : (c.apply d).IsTree) {reports : List WatchReport} (hreports : Reported c reports) :
    Mirrors setup equal ((c.apply d).told setup.root names (.ofGlobs setup.root globs) target)
      ((eventsOf (c.apply d) reports).foldl (IndexState.heed setup ⟨.empty, c.apply d⟩) s) := by
  have hroot' := hc.isRoot hroot
  cases hc with
  | write data way plain =>
    obtain ⟨hne, hevents⟩ := hreports.eventsOf_write (DiskChange.apply d (.write _ data))
    exact hs.told_write law hrest hroot way plain hd hroot' hne hevents
  | delete way =>
    rw [hreports.eventsOf_delete]
    exact hs.told_delete hroot way true
  | @rename old new source target holds apart free =>
    have hevents : eventsOf (DiskChange.apply d (.rename (pathBelow setup.root old) (pathBelow setup.root new)))
        reports = [.removed (pathBelow setup.root old), .created (pathBelow setup.root new)] := by
      obtain ⟨hgone, hthere⟩ := holds_rename (hroot.names?_below source) (hroot.names?_below target) holds
        (not_same_of_apart hroot.isAbsolute source target apart)
        (List.append_ne_nil_of_right_ne_nil names source.ne)
        (by simpa only [List.prefix_append_right_inj] using apart)
      exact hreports.eventsOf_rename hgone hthere
    rw [hevents]
    exact hs.told_rename law hrest hroot source target holds apart free hroot'

end

/-- An index that agrees with a full scan agrees with one again after the events of a change exactly if, of what
the change brings to a new place, the walk lists the file at that place if the globs select it, and nothing else.
The events do come to their ends, and so does a full scan. A deletion brings nothing to a new place, so after its
events they always agree. -/
theorem events_match_rebuild_iff (hindex : StepIndex setup equal) (hs : Reachable setup s)
    (hlive : s.isDisposed = false) (hidle : s.scanning = []) (hd : d.IsTree) (hroot : d.IsRoot setup.root names)
    {c : DiskChange} {target : Option (List Text)} (hc : c.Possible d setup.root names target)
    (hd' : (c.apply d).IsTree) {reports : List WatchReport} (hreports : Reported c reports)
    (hkept : ∃ u, ScannedAnew setup ⟨.empty, d⟩ s.globs u ∧ SameFiles equal s u) :
    let world : World := ⟨.empty, c.apply d⟩
    let events := eventsOf world.disk reports
    (∃ t, Handles setup world s events t) ∧ (∃ u, ScannedAnew setup world s.globs u) ∧
      ∀ t u, Handles setup world s events t → ScannedAnew setup world s.globs u →
        (SameFiles equal t u ↔
          world.disk.ListsOnlyNamed setup.root names (.ofGlobs setup.root s.globs) target) := by
  intro world events
  obtain ⟨pathOf, law⟩ := hindex.lawful
  have hequal := hindex.equivalence
  have hrest : AtRest setup pathOf s.globs s := ⟨hs.sound law, hlive, hidle, rfl⟩
  have hroot' := hc.isRoot hroot
  obtain ⟨before, hbefore, hsame⟩ := hkept
  have hmirrors := Mirrors.of_sameFiles hequal (hbefore.mirrors hindex hd hroot) hsame
  refine ⟨⟨_, (hrest.handles_iff law world).mpr rfl⟩, ScannedAnew.exists_of_isTree hindex hd' s.globs,
    fun t u ht hu => ?_⟩
  obtain rfl := (hrest.handles_iff law world).mp ht
  have htold := hmirrors.told law hrest hroot hc hd' hreports
  have hscanned := hu.mirrors hindex hd' hroot'
  constructor
  · intro hagree
    exact listsOnlyNamed_of_isSome_eq hd' hroot' fun below way => htold.isSome_eq hscanned hagree way
  · intro hlists
    exact (htold.congr fun below _ => (hlists.told_eq below).symm).sameFiles hequal hscanned

/-- The disk of one feature file, with one step, and of the directories above it. -/
def stepDisk (names : List Text) : Disk :=
  ⟨[(names, .text "Given a".toList)], ancestors names⟩

theorem stepDisk_isTree (h : ∀ n ∈ names, IsEntryName n) : (stepDisk names).IsTree where
  named entry hentry n hn := by
    rw [List.mem_singleton.mp hentry] at hn
    exact h n hn
  leaves := List.pairwise_singleton _ _

theorem stepDisk_file? (names m : List Text) :
    (stepDisk names).file? m = if names = m then some (.text "Given a".toList) else none := by
  rw [stepDisk, file?_cons]
  rfl

theorem stepDisk_free {old new : List Text} (h : ¬new <+: old) :
    ∀ m, new <+: m → m ≠ new → (stepDisk (names ++ old)).file? (names ++ m) = none := by
  intro m hprefix _
  rw [stepDisk_file?, if_neg]
  intro heq
  rw [List.append_cancel_left heq] at h
  exact h hprefix

/-- The walk lists the file that has been renamed, and nothing is below it. -/
theorem events_match_rebuild_iff_fileRenamed :
    let setup := (UsageIndex.new ⟨"/w".toList⟩ ⟨["**/*.feature".toList], []⟩ 1 5).setup
    let globs : Selection := ⟨["**/*.feature".toList], []⟩
    let before := stepDisk ["w".toList, "a.feature".toList]
    let after := stepDisk ["w".toList, "b.feature".toList]
    let c : DiskChange := .rename ⟨"/w/a.feature".toList⟩ ⟨"/w/b.feature".toList⟩
    let s := (Pass.after setup ⟨.empty, before⟩ (fun _ => 0) (.new globs) 12).1
    let u := (Pass.after setup ⟨.empty, after⟩ (fun _ => 0) (.new globs) 12).1
    c.apply before = after ∧ ScannedAnew setup ⟨.empty, before⟩ globs s ∧
      ScannedAnew setup ⟨.empty, after⟩ globs u ∧ u.isTracked ⟨"/w/b.feature".toList⟩ = true ∧
      ∃ t, Handles setup ⟨.empty, after⟩ s
          [.removed ⟨"/w/a.feature".toList⟩, .created ⟨"/w/b.feature".toList⟩] t ∧
        SameFiles Occurrence.Respells t u := by
  intro setup globs before after c s u
  have hs : ScannedAnew setup ⟨.empty, before⟩ globs s := .of_ended (by decide +kernel)
  have hu : ScannedAnew setup ⟨.empty, after⟩ globs u := .of_ended (by decide +kernel)
  have hglobs : s.globs = globs := by decide +kernel
  have happly : c.apply before = after := by decide +kernel
  have hbefore : before.IsTree := stepDisk_isTree (by decide)
  have hafter : after.IsTree := stepDisk_isTree (by decide)
  have hroot : before.IsRoot setup.root ["w".toList] := ⟨rfl, by decide, by decide⟩
  have hold : pathBelow setup.root ["a.feature".toList] = ⟨"/w/a.feature".toList⟩ := by decide
  have hnew : pathBelow setup.root ["b.feature".toList] = ⟨"/w/b.feature".toList⟩ := by decide
  have hpossible : c.Possible before setup.root ["w".toList] (some ["b.feature".toList]) := by
    have hrename : (DiskChange.rename (pathBelow setup.root ["a.feature".toList])
        (pathBelow setup.root ["b.feature".toList])).Possible before setup.root ["w".toList]
          (some ["b.feature".toList]) :=
      .rename (by decide) (by decide) (by decide) (by decide) (stepDisk_free (by decide))
    rwa [hold, hnew] at hrename
  have hreported : Reported c [⟨.rename .both, [⟨"/w/a.feature".toList⟩, ⟨"/w/b.feature".toList⟩]⟩] :=
    .together _ _ .both (.inl rfl)
  have hindex : StepIndex setup Occurrence.Respells := .usages _ globs _ _
  have hkept : ∃ u, ScannedAnew setup ⟨.empty, before⟩ s.globs u ∧ SameFiles Occurrence.Respells s u :=
    ⟨s, by rw [hglobs]; exact hs, .refl hindex.equivalence s⟩
  have hlists : after.ListsOnlyNamed setup.root ["w".toList] (.ofGlobs setup.root globs)
      (some ["b.feature".toList]) := by
    rintro _ ⟨⟩ below text - hfile
    rw [stepDisk_file?, Option.ite_none_right_eq_some] at hfile
    obtain rfl := (List.cons.inj hfile.1).2
    exact iff_of_true (by decide +kernel) ⟨rfl, by decide +kernel⟩
  obtain ⟨⟨t, ht⟩, -, hiff⟩ := events_match_rebuild_iff hindex hs.reachable (by decide +kernel)
    (by decide +kernel) hbefore hroot hpossible (happly ▸ hafter) hreported hkept
  simp only [happly, hglobs] at ht hiff
  exact ⟨happly, hs, hu, by decide +kernel, t, ht, (hiff t u ht hu).mpr hlists⟩

/-- A directory that is given another name takes its files out of the index: the event of the new path looks at
that path alone. -/
theorem not_events_match_rebuild_directoryRenamed :
    let setup := (UsageIndex.new ⟨"/w".toList⟩ ⟨["**/*.feature".toList], []⟩ 1 5).setup
    let globs : Selection := ⟨["**/*.feature".toList], []⟩
    let before := stepDisk ["w".toList, "a".toList, "x.feature".toList]
    let after := stepDisk ["w".toList, "b".toList, "x.feature".toList]
    let c : DiskChange := .rename ⟨"/w/a".toList⟩ ⟨"/w/b".toList⟩
    let reports : List WatchReport := [⟨.rename .both, [⟨"/w/a".toList⟩, ⟨"/w/b".toList⟩]⟩]
    c.apply before = after ∧ c.Possible before setup.root ["w".toList] (some ["b".toList]) ∧ Reported c reports ∧
      ∃ s t u, Reachable setup s ∧ ScannedAnew setup ⟨.empty, before⟩ globs s ∧
        Handles setup ⟨.empty, after⟩ s (eventsOf after reports) t ∧ ScannedAnew setup ⟨.empty, after⟩ globs u ∧
        t.isTracked ⟨"/w/b/x.feature".toList⟩ = false ∧ u.isTracked ⟨"/w/b/x.feature".toList⟩ = true ∧
        ¬SameFiles Occurrence.Respells t u := by
  intro setup globs before after c reports
  let s := (Pass.after setup ⟨.empty, before⟩ (fun _ => 0) (.new globs) 12).1
  let gone := s.heed setup ⟨.empty, after⟩ (.removed ⟨"/w/a".toList⟩)
  let t := gone.heed setup ⟨.empty, after⟩ (.created ⟨"/w/b".toList⟩)
  let u := (Pass.after setup ⟨.empty, after⟩ (fun _ => 0) (.new globs) 12).1
  have hs : ScannedAnew setup ⟨.empty, before⟩ globs s := .of_ended (by decide +kernel)
  have hu : ScannedAnew setup ⟨.empty, after⟩ globs u := .of_ended (by decide +kernel)
  have hpossible : c.Possible before setup.root ["w".toList] (some ["b".toList]) := by
    have hold : pathBelow setup.root ["a".toList] = ⟨"/w/a".toList⟩ := by decide
    have hnew : pathBelow setup.root ["b".toList] = ⟨"/w/b".toList⟩ := by decide
    have hrename : (DiskChange.rename (pathBelow setup.root ["a".toList])
        (pathBelow setup.root ["b".toList])).Possible before setup.root ["w".toList] (some ["b".toList]) :=
      .rename (by decide) (by decide) (by decide) (by decide) (stepDisk_free (by decide))
    rwa [hold, hnew] at hrename
  have hhandles : Handles setup ⟨.empty, after⟩ s (eventsOf after reports) t :=
    .cons (Call.Ends.ofEvent setup _ (by decide +kernel) (by decide +kernel) _)
      (.cons (Call.Ends.ofEvent setup _ (by decide +kernel) (by decide +kernel) _) (.nil t))
  have hlost : t.isTracked ⟨"/w/b/x.feature".toList⟩ = false := by decide +kernel
  have hthere : u.isTracked ⟨"/w/b/x.feature".toList⟩ = true := by decide +kernel
  refine ⟨by decide +kernel, hpossible, .together _ _ .both (.inl rfl), s, t, u, hs.reachable, hs, hhandles, hu,
    hlost, hthere, fun hsame => ?_⟩
  have htracked := hsame.isSome_eq ⟨"/w/b/x.feature".toList⟩
  rw [← isTracked, hlost, ← isTracked, hthere] at htracked
  cases htracked

end StepLink
