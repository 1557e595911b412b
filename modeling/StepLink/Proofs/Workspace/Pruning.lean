import Mathlib.Data.List.Pairwise
import StepLink.Proofs.Glob.Trailing
import StepLink.Proofs.Text.Bytes
import StepLink.Proofs.Workspace.Relative

/-! The walk through a workspace and the test of a single path. The walk passes over a directory if an entry
with a made-up name would be excluded, so it lists the accepted files exactly if the excluding globs that
select such an entry select everything below the directory as well. -/

namespace StepLink

open Regex

namespace Path

theorem joinSegments_append {names more : List Text} (hnames : names ≠ []) (hmore : more ≠ []) :
    joinSegments (names ++ more) = joinSegments names ++ '/' :: joinSegments more := by
  induction names with
  | nil => exact absurd rfl hnames
  | cons n names ih =>
    cases names with
    | nil =>
      cases more with
      | nil => exact absurd rfl hmore
      | cons m more => rfl
    | cons k names =>
      have hrest := ih (List.cons_ne_nil k names)
      rw [List.cons_append] at hrest
      rw [List.cons_append, List.cons_append, joinSegments_cons_cons, hrest, joinSegments_cons_cons,
        List.append_assoc]
      rfl

theorem plain_of_mem_segmentsAfter {segment t s : Text} (hsegment : '/' ∉ segment)
    (h : s ∈ segmentsAfter segment t) : '/' ∉ s := by
  induction t generalizing segment with
  | nil =>
    rw [List.mem_singleton.mp h, List.mem_reverse]
    exact hsegment
  | cons c t ih =>
    rw [segmentsAfter] at h
    split at h
    next =>
      rcases List.mem_cons.mp h with rfl | h
      · rw [List.mem_reverse]
        exact hsegment
      · exact ih List.not_mem_nil h
    next hc =>
      refine ih ?_ h
      rw [List.mem_cons, not_or]
      exact ⟨Ne.symm hc, hsegment⟩

theorem isEntryName_of_componentOf? {t s n : Text} (hs : s ∈ segments t)
    (h : componentOf? s = some (.name n)) : IsEntryName n := by
  have hn : s = n := by
    have hname := h
    rw [componentOf?] at hname
    split at hname
    next => cases hname
    next =>
      split at hname
      next => cases hname
      next => exact Component.name.inj (Option.some.inj hname)
  subst hn
  exact ⟨h, plain_of_mem_segmentsAfter List.not_mem_nil hs⟩

/-- The names among the components of a path can name entries. -/
theorem isEntryName_of_mem_components {p : Path} {n : Text} (h : .name n ∈ p.components) : IsEntryName n := by
  have hmem : ∀ {t : Text} {all : List Text}, (∀ s ∈ all, s ∈ segments t) →
      Component.name n ∈ all.filterMap componentOf? → IsEntryName n := by
    intro t all hall hn
    obtain ⟨s, hs, hname⟩ := List.mem_filterMap.mp hn
    exact isEntryName_of_componentOf? (hall s hs) hname
  rw [components] at h
  split at h
  next t _ =>
    rcases List.mem_cons.mp h with heq | h
    · cases heq
    · exact hmem (fun s hs => hs) h
  next =>
    split at h
    next rest hrest =>
      rcases List.mem_cons.mp h with heq | h
      · cases heq
      · exact hmem (fun s hs => by rw [hrest]; exact List.mem_cons_of_mem _ hs) h
    next => exact hmem (fun s hs => hs) h

end Path

namespace Disk

variable {d : Disk} {root p : Path} {names : List Text} {filter : CorpusFilter}

theorem isEntryName_of_names? (h : names? root = some names) : ∀ n ∈ names, IsEntryName n := by
  rw [names?] at h
  split at h
  next rest hrest =>
    obtain rfl := Option.some.inj h
    have hnamed : ∀ n, Component.name n ∈ rest → IsEntryName n := by
      intro n hn
      refine Path.isEntryName_of_mem_components (p := root) ?_
      rw [hrest]
      exact List.mem_cons_of_mem _ hn
    refine List.foldlRecOn (motive := fun names => ∀ n ∈ names, IsEntryName n) rest _ (fun n hn => by cases hn) ?_
    intro init hinit c hc
    cases c with
    | name m =>
      intro n hn
      rcases List.mem_append.mp hn with hn | hn
      · exact hinit n hn
      · rw [List.mem_singleton.mp hn]
        exact hnamed m hc
    | parent => exact fun n hn => hinit n (List.mem_of_mem_dropLast hn)
    | root => exact hinit
    | current => exact hinit
  next => cases h

theorem pathBelow_append (root : Path) (ns ms : List Text) :
    pathBelow root (ns ++ ms) = pathBelow (pathBelow root ns) ms :=
  List.foldl_append

/-- The directories on the way to an entry are those of the names in front of some of its own. -/
theorem mem_pathsBetween {below : List Text} {q : Path} :
    q ∈ pathsBetween root below ↔ ∃ ns ms, ns ≠ [] ∧ ms ≠ [] ∧ below = ns ++ ms ∧ q = pathBelow root ns := by
  induction below generalizing root with
  | nil =>
    simp only [pathsBetween, List.not_mem_nil, false_iff]
    rintro ⟨ns, ms, hns, -, heq, -⟩
    exact hns (List.append_eq_nil_iff.mp heq.symm).1
  | cons n below ih =>
    cases below with
    | nil =>
      simp only [pathsBetween, List.not_mem_nil, false_iff]
      rintro ⟨ns, ms, hns, hms, heq, -⟩
      rcases List.singleton_eq_append_iff.mp heq with ⟨rfl, -⟩ | ⟨-, rfl⟩
      · exact hns rfl
      · exact hms rfl
    | cons m below =>
      have hpaths : pathsBetween root (n :: m :: below) =
          root.join n :: pathsBetween (root.join n) (m :: below) := rfl
      rw [hpaths, List.mem_cons, ih]
      constructor
      · rintro (rfl | ⟨ns, ms, hns, hms, heq, rfl⟩)
        · exact ⟨[n], m :: below, List.cons_ne_nil n [], List.cons_ne_nil m below, rfl, rfl⟩
        · exact ⟨n :: ns, ms, List.cons_ne_nil n ns, hms, by rw [heq, List.cons_append], rfl⟩
      · rintro ⟨ns, ms, hns, hms, heq, rfl⟩
        cases ns with
        | nil => exact absurd rfl hns
        | cons k ns =>
          obtain ⟨rfl, hrest⟩ := List.cons.inj heq
          cases ns with
          | nil => exact .inl rfl
          | cons l ns => exact .inr ⟨l :: ns, ms, List.cons_ne_nil l ns, hms, hrest, rfl⟩

/-- On the way down to an entry no directory is passed over. -/
def Unpruned (root : Path) (filter : CorpusFilter) (below : List Text) : Prop :=
  ∀ ns ms, ns ≠ [] → ms ≠ [] → below = ns ++ ms → filter.prunes (pathBelow root ns) = false

theorem unpruned_iff {below : List Text} :
    (pathsBetween root below).any filter.prunes = false ↔ Unpruned root filter below := by
  rw [List.any_eq_false]
  constructor
  · intro h ns ms hns hms heq
    exact Bool.eq_false_iff.mpr (h _ (mem_pathsBetween.mpr ⟨ns, ms, hns, hms, heq, rfl⟩))
  · intro h q hq
    obtain ⟨ns, ms, hns, hms, heq, rfl⟩ := mem_pathsBetween.mp hq
    exact Bool.eq_false_iff.mp (h ns ms hns hms heq)

/-- The path is that of a file below a directory, which has the given names. -/
def IsFileBelow (d : Disk) (root : Path) (names below : List Text) (p : Path) : Prop :=
  (d.file? (names ++ below)).isSome = true ∧ p = pathBelow root below

theorem file?_isSome_iff : (d.file? names).isSome = true ↔ ∃ data, (names, data) ∈ d.files := by
  rw [file?, Option.isSome_map, List.find?_isSome]
  constructor
  · rintro ⟨entry, hentry, heq⟩
    exact ⟨entry.2, by rw [← eq_of_beq heq]; exact hentry⟩
  · rintro ⟨data, hdata⟩
    exact ⟨_, hdata, beq_self_eq_true names⟩

/-- Nothing lies below a file. -/
theorem IsTree.eq_nil_of_file? (h : d.IsTree) {below : List Text} (hfile : (d.file? names).isSome = true)
    (hbelow : (d.file? (names ++ below)).isSome = true) : below = [] := by
  obtain ⟨data, hdata⟩ := file?_isSome_iff.mp hfile
  obtain ⟨other, hother⟩ := file?_isSome_iff.mp hbelow
  by_contra hne
  have : Std.Symm fun a b : List Text × FileData => ¬a.1 <+: b.1 ∧ ¬b.1 <+: a.1 := ⟨fun _ _ hab => hab.symm⟩
  have hapart := h.leaves.forall hdata hother fun heq =>
    hne (List.self_eq_append_right.mp (congrArg Prod.fst heq))
  exact hapart.1 (List.prefix_append names below)

/-- The walk lists the accepted files that no pruned directory hides. -/
theorem mem_list_iff (h : d.IsTree) (hnames : names? root = some names) (hroot : d.holds root = true)
    (filter : CorpusFilter) :
    ∃ listed, d.list root filter = .ok listed ∧ ∀ p, p ∈ listed ↔
      ∃ below, d.IsFileBelow root names below p ∧ filter.accepts p = true ∧ Unpruned root filter below := by
  rw [holds, hnames, Bool.or_eq_true] at hroot
  simp only [list, hnames]
  by_cases hdir : d.isDirectory names = true
  · rw [if_pos hdir]
    refine ⟨_, rfl, fun p => ?_⟩
    rw [List.mem_mergeSort, List.mem_filterMap]
    constructor
    · rintro ⟨⟨all, data⟩, hentry, hp⟩
      simp only [Option.ite_none_right_eq_some, List.isPrefixOf_iff_prefix, Bool.and_eq_true,
        Bool.not_eq_true', Option.some.injEq] at hp
      obtain ⟨⟨below, rfl⟩, ⟨haccepts, hunpruned⟩, rfl⟩ := hp
      rw [List.drop_left] at haccepts hunpruned ⊢
      exact ⟨below, ⟨file?_isSome_iff.mpr ⟨data, hentry⟩, rfl⟩, haccepts, unpruned_iff.mp hunpruned⟩
    · rintro ⟨below, ⟨hfile, rfl⟩, haccepts, hunpruned⟩
      obtain ⟨data, hdata⟩ := file?_isSome_iff.mp hfile
      refine ⟨_, hdata, ?_⟩
      rw [if_pos (List.isPrefixOf_iff_prefix.mpr (List.prefix_append names below)), List.drop_left,
        haccepts, unpruned_iff.mpr hunpruned]
      rfl
  · have hfile := hroot.resolve_right hdir
    rw [if_neg hdir, if_pos hfile]
    refine ⟨_, rfl, fun p => ?_⟩
    rw [List.mem_filter, List.mem_singleton]
    constructor
    · rintro ⟨rfl, haccepts⟩
      refine ⟨[], ⟨by rwa [List.append_nil], rfl⟩, haccepts, fun ns ms hns _ heq => ?_⟩
      exact absurd (List.append_eq_nil_iff.mp heq.symm).1 hns
    · rintro ⟨below, ⟨hbelow, rfl⟩, haccepts, -⟩
      obtain rfl := h.eq_nil_of_file? hfile hbelow
      exact ⟨rfl, haccepts⟩

end Disk

/-- Below the root, a glob selects by the names on the way or, if it has no separator, by the last one. -/
theorem RootedGlobs.selects_pathBelow {root : Path} (hroot : root.IsAbsolute) (patterns : List Text)
    {names : List Text} (hne : names ≠ []) (hnames : ∀ n ∈ names, IsEntryName n) :
    (RootedGlobs.ofPatterns root patterns).selects (Disk.pathBelow root names) = true ↔
      ∃ x ∈ patterns, ∃ items, Glob.items? x = some items ∧
        (Denotes ByteSet.holds (Glob.expression items) (Text.bytes (Path.joinSegments names)) ∨
          x.contains '/' = false ∧ ∃ n, names.getLast? = some n ∧
            Denotes ByteSet.holds (Glob.expression items) (Text.bytes n)) := by
  rw [selects, ofPatterns, Disk.relativeTo?_pathBelow hroot hne hnames, Option.getD_some, GlobGroup.selects,
    Path.fileName?_joinSegments hnames]
  simp only [GlobGroup.ofPatterns, Bool.or_eq_true, List.any_eq_true, Option.any_eq_true, List.mem_filterMap,
    List.mem_filter, Glob.ofText?, Option.map_eq_some_iff, Bool.not_eq_true', accepts_iff_denotes]
  constructor
  · rintro (⟨_, ⟨x, hx, items, hitems, rfl⟩, hdenotes⟩ | ⟨n, hn, _, ⟨x, ⟨hx, hbase⟩, items, hitems, rfl⟩, hdenotes⟩)
    · exact ⟨x, hx, items, hitems, .inl hdenotes⟩
    · exact ⟨x, hx, items, hitems, .inr ⟨hbase, n, hn, hdenotes⟩⟩
  · rintro ⟨x, hx, items, hitems, hdenotes | ⟨hbase, n, hn, hdenotes⟩⟩
    · exact .inl ⟨_, ⟨x, hx, items, hitems, rfl⟩, hdenotes⟩
    · exact .inr ⟨n, hn, _, ⟨x, ⟨hx, hbase⟩, items, hitems, rfl⟩, hdenotes⟩

/-- Where every glob that is one ends in a doubled star after a separator, a directory with a selected entry is
selected with everything below it. -/
theorem RootedGlobs.selects_below {root : Path} (hroot : root.IsAbsolute) {patterns : List Text}
    (hends : ∀ x ∈ patterns, ∀ items, Glob.items? x = some items → Glob.endsInTrailing items)
    {ns ms : List Text} (hns : ns ≠ []) (hms : ms ≠ []) (hnames : ∀ n ∈ ns ++ ms, IsEntryName n)
    (h : (RootedGlobs.ofPatterns root patterns).selects (Disk.pathBelow root (ns ++ [['_']])) = true) :
    (RootedGlobs.ofPatterns root patterns).selects (Disk.pathBelow root (ns ++ ms)) = true := by
  have hentry : IsEntryName ['_'] := ⟨rfl, by decide⟩
  have hentries : ∀ n ∈ ns ++ [['_']], IsEntryName n := by
    intro n hn
    rcases List.mem_append.mp hn with hn | hn
    · exact hnames n (List.mem_append_left ms hn)
    · rw [List.mem_singleton.mp hn]
      exact hentry
  have hslash : (0x2f : UInt8) ∉ Text.bytes ['_'] := by decide
  obtain ⟨x, hx, items, hitems, hdenotes⟩ :=
    (selects_pathBelow hroot patterns (List.append_ne_nil_of_left_ne_nil hns _) hentries).mp h
  have htrailing := hends x hx items hitems
  rw [selects_pathBelow hroot patterns (List.append_ne_nil_of_left_ne_nil hns _) hnames]
  rcases hdenotes with hdenotes | ⟨-, n, hn, hdenotes⟩
  · refine ⟨x, hx, items, hitems, .inl ?_⟩
    rw [Path.joinSegments_append hns (List.cons_ne_nil _ _), Text.bytes_append, Text.bytes_slash_cons] at hdenotes
    rw [Path.joinSegments_append hns hms, Text.bytes_append, Text.bytes_slash_cons]
    exact Glob.denotes_below htrailing hdenotes hslash
  · rw [List.getLast?_concat] at hn
    obtain rfl := Option.some.inj hn
    exact absurd hdenotes (Glob.not_denotes_of_plain htrailing hslash)

/-- Nothing accepted lies below a directory that is pruned. -/
def CorpusFilter.PrunesCovered (filter : CorpusFilter) (root : Path) : Prop :=
  ∀ ns ms, ns ≠ [] → ms ≠ [] → (∀ n ∈ ns ++ ms, IsEntryName n) →
    filter.prunes (Disk.pathBelow root ns) = true → filter.accepts (Disk.pathBelow root (ns ++ ms)) = false

/-- Where every excluding glob ends in a doubled star after a separator, a directory is only pruned if all that
lies below it is excluded. -/
theorem CorpusFilter.prunesCovered_of_endsInTrailing {root : Path} (hroot : root.IsAbsolute) {globs : Selection}
    (hends : ∀ x ∈ globs.excludes, ∀ items, Glob.items? x = some items → Glob.endsInTrailing items) :
    (CorpusFilter.ofGlobs root globs).PrunesCovered root := by
  intro ns ms hns hms hnames hprunes
  have hexcluded := RootedGlobs.selects_below hroot hends hns hms hnames (by rwa [Disk.pathBelow_append])
  rw [CorpusFilter.accepts, Bool.and_eq_false_iff]
  exact .inr (by rw [Bool.not_eq_false']; exact hexcluded)

namespace Disk

variable {d : Disk} {root : Path} {names : List Text} {filter : CorpusFilter}

/-- The walk lists the files below the root that are accepted. -/
def ListsAccepted (d : Disk) (root : Path) (names : List Text) (filter : CorpusFilter) : Prop :=
  ∃ listed, d.list root filter = .ok listed ∧
    ∀ p, p ∈ listed ↔ ∃ below, d.IsFileBelow root names below p ∧ filter.accepts p = true

theorem isEntryName_of_isFileBelow (h : d.IsTree) {below : List Text} {p : Path}
    (hfile : d.IsFileBelow root names below p) : ∀ n ∈ below, IsEntryName n := by
  obtain ⟨data, hdata⟩ := file?_isSome_iff.mp hfile.1
  exact fun n hn => h.named _ hdata n (List.mem_append_right names hn)

theorem unpruned_of_covered (h : filter.PrunesCovered root) {below : List Text}
    (hentries : ∀ n ∈ below, IsEntryName n) (haccepts : filter.accepts (pathBelow root below) = true) :
    Unpruned root filter below := by
  rintro ns ms hns hms rfl
  by_contra hprunes
  have hcovered := h ns ms hns hms hentries ((Bool.not_eq_false _).mp hprunes)
  rw [haccepts] at hcovered
  cases hcovered

/-- The walk lists the accepted files if no pruned directory hides one. -/
theorem IsTree.listsAccepted (h : d.IsTree) (hnames : names? root = some names) (hroot : d.holds root = true)
    (hcovered : filter.PrunesCovered root) : d.ListsAccepted root names filter := by
  obtain ⟨listed, hlist, hlisted⟩ := mem_list_iff h hnames hroot filter
  refine ⟨listed, hlist, fun p => (hlisted p).trans ?_⟩
  constructor
  · rintro ⟨below, hfile, haccepts, -⟩
    exact ⟨below, hfile, haccepts⟩
  · rintro ⟨below, hfile, haccepts⟩
    refine ⟨below, hfile, haccepts, unpruned_of_covered hcovered (isEntryName_of_isFileBelow h hfile) ?_⟩
    rwa [hfile.2] at haccepts

/-- The disk of one file below a directory. -/
def single (names below : List Text) : Disk :=
  ⟨[(names ++ below, .text [])], [names]⟩

theorem single_isTree (hnames : names? root = some names) {below : List Text}
    (hbelow : ∀ n ∈ below, IsEntryName n) : (single names below).IsTree where
  named entry hentry n hn := by
    rw [List.mem_singleton.mp hentry] at hn
    rcases List.mem_append.mp hn with hn | hn
    · exact isEntryName_of_names? hnames n hn
    · exact hbelow n hn
  leaves := List.pairwise_singleton _ _

theorem single_holds (hnames : names? root = some names) (below : List Text) :
    (single names below).holds root = true := by
  simp [holds, hnames, isDirectory, single]

/-- The walk lists, of the files below the root, those that are accepted and that no pruned directory hides. It
lists the accepted ones on every disk exactly if nothing accepted lies below a pruned directory; and it does so
where every excluding glob ends in a doubled star after a separator. -/
theorem listsAccepted_iff_prunesCovered (root : Path) (globs : Selection) {names : List Text}
    (hnames : names? root = some names) :
    let filter := CorpusFilter.ofGlobs root globs
    (∀ d : Disk, d.IsTree → d.holds root = true → ∃ listed, d.list root filter = .ok listed ∧ ∀ p,
      p ∈ listed ↔ ∃ below, d.IsFileBelow root names below p ∧ filter.accepts p = true ∧
        Unpruned root filter below) ∧
    ((∀ d : Disk, d.IsTree → d.holds root = true → d.ListsAccepted root names filter) ↔
      filter.PrunesCovered root) ∧
    ((∀ x ∈ globs.excludes, ∀ items, Glob.items? x = some items → Glob.endsInTrailing items) →
      ∀ d : Disk, d.IsTree → d.holds root = true → d.ListsAccepted root names filter) := by
  intro filter
  refine ⟨fun d hd hroot => mem_list_iff hd hnames hroot filter,
    ⟨fun h ns ms hns hms hentries hprunes => ?_, fun h d hd hroot => hd.listsAccepted hnames hroot h⟩,
    fun hends d hd hroot => hd.listsAccepted hnames hroot ?_⟩
  · by_contra haccepts
    rw [Bool.not_eq_false] at haccepts
    -- on the disk of this file alone, the walk passes over the directory that it lies in
    have htree := single_isTree hnames hentries
    have hroot := single_holds hnames (ns ++ ms)
    have hfile : (single names (ns ++ ms)).IsFileBelow root names (ns ++ ms) (pathBelow root (ns ++ ms)) :=
      ⟨file?_isSome_iff.mpr ⟨.text [], List.mem_singleton_self _⟩, rfl⟩
    obtain ⟨listed, hlist, hlisted⟩ := mem_list_iff htree hnames hroot filter
    obtain ⟨other, hother, haccepted⟩ := h _ htree hroot
    obtain rfl := Except.ok.inj (hlist.symm.trans hother)
    obtain ⟨below, hbelow, -, hunpruned⟩ := (hlisted _).mp ((haccepted _).mpr ⟨_, hfile, haccepts⟩)
    obtain ⟨data, hdata⟩ := file?_isSome_iff.mp hbelow.1
    have heq : below = ns ++ ms := List.append_cancel_left (congrArg Prod.fst (List.mem_singleton.mp hdata))
    rw [hunpruned ns ms hns hms heq] at hprunes
    cases hprunes
  · exact CorpusFilter.prunesCovered_of_endsInTrailing (isAbsolute_of_names? hnames) hends

/-- Two feature files, one of them among the dependencies. -/
def dependencyDisk : Disk :=
  ⟨[(["w".toList, "features".toList, "a.feature".toList], .text []),
    (["w".toList, "node_modules".toList, "p".toList, "b.feature".toList], .text [])], [["w".toList]]⟩

theorem dependencyDisk_isTree : dependencyDisk.IsTree where
  named entry hentry n hn := by
    simp only [dependencyDisk, List.mem_cons, List.not_mem_nil, or_false] at hentry
    rcases hentry with rfl | rfl <;> simp only [List.mem_cons, List.not_mem_nil, or_false] at hn
    · rcases hn with rfl | rfl | rfl <;> exact ⟨by decide, by decide⟩
    · rcases hn with rfl | rfl | rfl | rfl <;> exact ⟨by decide, by decide⟩
  leaves := by decide

theorem listsAccepted_iff_prunesCovered_dependencies :
    let root : Path := ⟨"/w".toList⟩
    let globs : Selection := ⟨["**/*.feature".toList], ["**/node_modules/**".toList]⟩
    names? root = some ["w".toList] ∧ dependencyDisk.IsTree ∧ dependencyDisk.holds root = true ∧
      (∀ x ∈ globs.excludes, ∀ items, Glob.items? x = some items → Glob.endsInTrailing items) ∧
      dependencyDisk.ListsAccepted root ["w".toList] (.ofGlobs root globs) ∧
      dependencyDisk.list root (.ofGlobs root globs) = .ok [⟨"/w/features/a.feature".toList⟩] := by
  intro root globs
  have hends : ∀ x ∈ globs.excludes, ∀ items, Glob.items? x = some items → Glob.endsInTrailing items := by
    intro x hx items hitems
    obtain rfl := List.mem_singleton.mp hx
    have hread : (Glob.items? "**/node_modules/**".toList).map List.getLast? = some (some .trailing) := by
      decide +kernel
    rw [hitems] at hread
    exact Option.some.inj hread
  have hroot : dependencyDisk.holds root = true := by decide
  have hnames : names? root = some ["w".toList] := rfl
  have hall := listsAccepted_iff_prunesCovered root globs hnames
  exact ⟨hnames, dependencyDisk_isTree, hroot, hends,
    hall.2.2 hends dependencyDisk dependencyDisk_isTree hroot, by decide +kernel⟩

/-- A directory whose entries, but not what lies below them, are excluded is passed over altogether. -/
theorem not_listsAccepted_entriesExcluded :
    let root : Path := ⟨"/w".toList⟩
    let filter := CorpusFilter.ofGlobs root ⟨["**/*.feature".toList], ["features/*".toList]⟩
    let d : Disk := single ["w".toList] ["features".toList, "sub".toList, "a.feature".toList]
    d.holds root = true ∧ filter.accepts ⟨"/w/features/sub/a.feature".toList⟩ = true ∧
      filter.prunes ⟨"/w/features".toList⟩ = true ∧ d.list root filter = .ok [] ∧
      ¬d.ListsAccepted root ["w".toList] filter := by
  intro root filter d
  have haccepts : filter.accepts ⟨"/w/features/sub/a.feature".toList⟩ = true := by decide +kernel
  have hlist : d.list root filter = .ok [] := by decide +kernel
  refine ⟨by decide, haccepts, by decide +kernel, hlist, ?_⟩
  rintro ⟨listed, hlisted, hall⟩
  obtain rfl := Except.ok.inj (hlist.symm.trans hlisted)
  have hmem := (hall ⟨"/w/features/sub/a.feature".toList⟩).mpr
    ⟨["features".toList, "sub".toList, "a.feature".toList], ⟨by decide, by decide⟩, haccepts⟩
  cases hmem

end Disk

end StepLink
