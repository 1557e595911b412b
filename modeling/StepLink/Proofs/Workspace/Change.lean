import StepLink.Proofs.Workspace.Relative
import StepLink.Workspace.Change

/-! What a change of the disk does to its files. A file that is written is there afterwards and nothing else
has changed; what is deleted is gone with everything below it; and what is renamed is found below the new path
under the names that it had below the old one. -/

namespace StepLink

deriving instance DecidableEq for Disk

namespace Disk

variable {d : Disk} {root p q : Path} {names below : List Text}

/-- The names of a path below a directory are those of the directory and then the ones on the way. -/
theorem names?_pathBelow (h : names? root = some names) (hbelow : ∀ n ∈ below, IsEntryName n) :
    names? (pathBelow root below) = some (names ++ below) := by
  have hcomponents := components_pathBelow (isAbsolute_of_names? h) hbelow
  rw [names?] at h
  split at h
  next rest hrest =>
    rw [hrest, List.cons_append] at hcomponents
    rw [names?, hcomponents]
    simp only [List.foldl_append]
    rw [Option.some.inj h]
    congr 1
    generalize names = init
    clear h hcomponents hrest hbelow
    induction below generalizing init with
    | nil => rw [List.append_nil]; rfl
    | cons n below ih =>
      rw [List.map_cons, List.foldl_cons, ih, List.append_assoc]
      rfl
  next => cases h

theorem startsWith_pathBelow_iff (h : root.IsAbsolute) {ns ms : List Text} (hns : ∀ n ∈ ns, IsEntryName n)
    (hms : ∀ m ∈ ms, IsEntryName m) :
    (pathBelow root ms).startsWith (pathBelow root ns) = true ↔ ns <+: ms := by
  have hinj : Function.Injective Component.name := fun _ _ => Component.name.inj
  rw [Path.startsWith_iff, components_pathBelow h hns, components_pathBelow h hms,
    List.prefix_append_right_inj, List.prefix_map_iff_of_injective hinj]

theorem same_pathBelow_iff (h : root.IsAbsolute) {ns ms : List Text} (hns : ∀ n ∈ ns, IsEntryName n)
    (hms : ∀ m ∈ ms, IsEntryName m) : (pathBelow root ms).same (pathBelow root ns) = true ↔ ms = ns := by
  rw [Path.same_iff, components_pathBelow h hns, components_pathBelow h hms, List.append_cancel_left_eq,
    List.map_inj_right fun _ _ => Component.name.inj]

theorem isAbsolute_pathBelow (h : root.IsAbsolute) (names : List Text) : (pathBelow root names).IsAbsolute := by
  induction names generalizing root with
  | nil => exact h
  | cons n names ih => exact ih (h.join n)

/-- The path of an entry is not spelled as that of a directory. -/
theorem endsInSeparator_pathBelow (h : root.IsAbsolute) (hne : below ≠ [])
    (hbelow : ∀ n ∈ below, IsEntryName n) : endsInSeparator (pathBelow root below) = false := by
  obtain ⟨init, n, rfl⟩ := (List.eq_nil_or_concat' below).resolve_left hne
  have hn : IsEntryName n := hbelow n (List.mem_append_right init List.mem_cons_self)
  have hvoid := Path.isVoid_of_isEntryName hn
  have hspelling : (pathBelow root (init ++ [n])).spelling = (pathBelow root init).asDirectory ++ n := by
    rw [pathBelow, List.foldl_append]
    exact (isAbsolute_pathBelow h init).spelling_join n
  have hplain : ∀ c ∈ n.reverse, c ≠ '/' := by
    rintro c hc rfl
    exact hn.plain (List.mem_reverse.mp hc)
  rw [endsInSeparator, hspelling, List.reverse_append]
  cases hlast : n.reverse with
  | nil =>
    rw [List.reverse_eq_nil_iff.mp hlast] at hvoid
    cases hvoid
  | cons c rest =>
    rw [hlast] at hplain
    split
    next heq => exact absurd (List.cons.inj heq).1 (hplain c List.mem_cons_self)
    next heq =>
      obtain ⟨rfl, hrest⟩ := List.cons.inj heq
      cases rest with
      | nil =>
        rw [List.reverse_eq_cons_iff.mp hlast] at hvoid
        cases hvoid
      | cons c rest =>
        exact absurd (List.cons.inj hrest).1 (hplain c (List.mem_cons_of_mem _ List.mem_cons_self))
    next => rfl

/-- Reading an entry gives a text exactly if it is the file of that text. -/
theorem read_pathBelow_iff (h : names? root = some names) (hne : below ≠ [])
    (hbelow : ∀ n ∈ below, IsEntryName n) {text : Text} :
    d.read (pathBelow root below) = .ok text ↔ d.file? (names ++ below) = some (.text text) := by
  have hends := endsInSeparator_pathBelow (isAbsolute_of_names? h) hne hbelow
  rw [read, names?_pathBelow h hbelow]
  simp only
  cases d.file? (names ++ below) with
  | none =>
    simp only [reduceCtorEq, iff_false]
    split
    · exact fun h => by cases h
    · split <;> exact fun h => by cases h
  | some data =>
    simp only [hends, Bool.false_eq_true, if_false, Option.some.injEq]
    cases data with
    | text t => simp
    | undecodable => simp

theorem file?_cons (entry : List Text × FileData) (files : List (List Text × FileData)) (dirs : List (List Text))
    (m : List Text) :
    file? ⟨entry :: files, dirs⟩ m = if entry.1 = m then some entry.2 else file? ⟨files, dirs⟩ m := by
  simp only [file?, List.find?_cons, beq_eq_decide]
  by_cases h : entry.1 = m <;> simp [h]

theorem file?_append (files more : List (List Text × FileData)) (dirs : List (List Text)) (m : List Text) :
    file? ⟨files ++ more, dirs⟩ m = (file? ⟨files, dirs⟩ m).or (file? ⟨more, dirs⟩ m) := by
  simp only [file?, List.find?_append]
  cases files.find? fun entry => entry.1 == m <;> rfl

theorem file?_filter (test : List Text → Bool) (files : List (List Text × FileData)) (dirs : List (List Text))
    (m : List Text) :
    file? ⟨files.filter fun entry => test entry.1, dirs⟩ m = if test m then file? ⟨files, dirs⟩ m else none := by
  induction files with
  | nil => cases test m <;> rfl
  | cons entry files ih =>
    rw [List.filter_cons, file?_cons]
    by_cases h : entry.1 = m
    · subst h
      by_cases ht : test entry.1 = true
      · simp [ht, file?_cons]
      · rw [if_neg ht, ih, if_neg ht]
        simp [ht]
    · rw [if_neg h, ← ih]
      split
      next => rw [file?_cons, if_neg h]
      next => rfl

theorem file?_replaced (ns : List Text) (data : FileData) (files : List (List Text × FileData))
    (dirs : List (List Text)) (m : List Text) :
    file? ⟨files.map fun entry => if entry.1 == ns then (ns, data) else entry, dirs⟩ m =
      if ns = m then (file? ⟨files, dirs⟩ m).map fun _ => data else file? ⟨files, dirs⟩ m := by
  induction files with
  | nil => split <;> rfl
  | cons entry files ih =>
    rw [List.map_cons, file?_cons, file?_cons, ih]
    by_cases hentry : entry.1 = ns
    · by_cases hm : ns = m <;> simp [hentry, hm]
    · by_cases hm : ns = m
      · subst hm
        simp [hentry]
      · simp [hentry, hm]

/-- What is written is there, and nothing else has changed. -/
theorem file?_write {ns : List Text} (hp : names? p = some ns) (hns : d.isDirectory ns = false) (data : FileData)
    (m : List Text) : (d.write p data).file? m = if ns = m then some data else d.file? m := by
  rw [write, hp]
  simp only [hns, Bool.false_eq_true, if_false]
  split
  next hfile =>
    obtain ⟨old, hold⟩ := Option.isSome_iff_exists.mp hfile
    refine (file?_replaced ns data d.files _ m).trans ?_
    split
    next heq =>
      subst heq
      exact congrArg (Option.map fun _ => data) hold
    next => rfl
  next hfile =>
    have hnone := Option.not_isSome_iff_eq_none.mp hfile
    refine (file?_append d.files [(ns, data)] _ m).trans ?_
    rw [file?_cons]
    split
    next heq =>
      subst heq
      exact congrArg (Option.or · (some data)) hnone
    next => exact Option.or_none

/-- What is deleted is gone with everything below it. -/
theorem file?_delete {ns : List Text} (hp : names? p = some ns) (m : List Text) :
    (d.delete p).file? m = if ns <+: m then none else d.file? m := by
  rw [delete, hp]
  refine (file?_filter (fun names => !ns.isPrefixOf names) d.files _ m).trans ?_
  by_cases h : ns <+: m
  · rw [if_pos h, List.isPrefixOf_iff_prefix.mpr h]
    rfl
  · rw [if_neg h, Bool.eq_false_iff.mpr (mt List.isPrefixOf_iff_prefix.mp h)]
    rfl

theorem file?_moved (old new : List Text) (files : List (List Text × FileData)) (dirs : List (List Text))
    (m : List Text) :
    file? ⟨(files.filter fun entry => old.isPrefixOf entry.1).map fun entry =>
        (new ++ entry.1.drop old.length, entry.2), dirs⟩ m =
      if new <+: m then file? ⟨files, dirs⟩ (old ++ m.drop new.length) else none := by
  induction files with
  | nil => split <;> rfl
  | cons entry files ih =>
    obtain ⟨names, data⟩ := entry
    rw [file?_cons, List.filter_cons]
    split
    next hold =>
      obtain ⟨below, rfl⟩ := List.isPrefixOf_iff_prefix.mp hold
      rw [List.map_cons, file?_cons, ih, List.drop_left]
      by_cases hm : new <+: m
      · obtain ⟨rest, rfl⟩ := hm
        simp only [List.prefix_append, if_true, List.drop_left, List.append_cancel_left_eq]
      · rw [if_neg hm, if_neg hm, if_neg]
        rintro rfl
        exact hm (List.prefix_append new below)
    next hold =>
      have hne : names ≠ old ++ m.drop new.length := by
        rintro rfl
        exact hold (List.isPrefixOf_iff_prefix.mpr (List.prefix_append old _))
      rw [ih, if_neg hne]

/-- What is renamed is found below the new path under the names that it had below the old one. -/
theorem file?_rename {old new : List Text} (hp : names? p = some old) (hq : names? q = some new)
    (hholds : d.holds p = true) (hsame : p.same q = false) (m : List Text) :
    (d.rename p q).file? m =
      if new <+: m then d.file? (old ++ m.drop new.length) else if old <+: m then none else d.file? m := by
  have hdeleted : ((d.delete p).delete q).file? m =
      if new <+: m then none else if old <+: m then none else d.file? m := by
    rw [file?_delete hq, file?_delete hp]
  rw [rename, hp, hq]
  simp only [hholds, hsame, Bool.not_false, Bool.and_self, if_true]
  refine (file?_append ((d.delete p).delete q).files _ _ m).trans ?_
  rw [file?_moved old new d.files _ m]
  refine (congrArg (Option.or · _) hdeleted).trans ?_
  by_cases hnew : new <+: m
  · rw [if_pos hnew, if_pos hnew, if_pos hnew]
    exact Option.none_or
  · rw [if_neg hnew, if_neg hnew, if_neg hnew]
    exact Option.or_none

theorem mem_makeDirectory {ns m : List Text} (h : m ∈ d.directories) :
    m ∈ (d.makeDirectory ns).directories :=
  List.mem_append_left _ h

theorem prefix_of_mem_makeDirectory {ns m : List Text} (h : m ∈ (d.makeDirectory ns).directories) :
    m ∈ d.directories ∨ m <+: ns := by
  rcases List.mem_append.mp h with h | h
  · exact .inl h
  · refine .inr ?_
    rcases List.mem_append.mp (List.mem_of_mem_filter h) with h | h
    · obtain ⟨n, -, rfl⟩ := List.mem_map.mp h
      exact List.take_prefix n ns
    · obtain rfl := List.mem_singleton.mp h
      exact List.prefix_refl m

theorem isDirectory_iff {m : List Text} : d.isDirectory m = true ↔ m = [] ∨ m ∈ d.directories := by
  rw [isDirectory, Bool.or_eq_true, List.isEmpty_iff, List.contains_iff_mem]

theorem isDirectory_write {m : List Text} (h : d.isDirectory m = true) (p : Path) (data : FileData) :
    (d.write p data).isDirectory m = true := by
  rw [isDirectory_iff] at h ⊢
  refine h.imp_right fun h => ?_
  rw [write]
  split
  next => exact h
  next =>
    split
    next => exact h
    next =>
      split
      next => exact h
      next => exact mem_makeDirectory h

theorem isDirectory_delete {ns m : List Text} (hp : names? p = some ns) (h : d.isDirectory m = true)
    (hm : ¬ns <+: m) : (d.delete p).isDirectory m = true := by
  rw [isDirectory_iff] at h ⊢
  refine h.imp_right fun h => ?_
  rw [delete, hp]
  refine List.mem_filter.mpr ⟨h, ?_⟩
  rw [Bool.not_eq_true', ← Bool.not_eq_true, List.isPrefixOf_iff_prefix]
  exact hm

section Rename

variable {old new : List Text} (hp : names? p = some old) (hq : names? q = some new)
  (hholds : d.holds p = true) (hsame : p.same q = false)

include hp hq hholds hsame

theorem rename_directories : (d.rename p q).directories =
    (((d.delete p).delete q).makeDirectory new.dropLast).directories ++
      (d.directories.filter fun dir => old.isPrefixOf dir).map fun dir => new ++ dir.drop old.length := by
  rw [rename, hp, hq]
  simp only [hholds, hsame, Bool.not_false, Bool.and_self, if_true]

theorem isDirectory_rename {m : List Text} (h : d.isDirectory m = true) (hold : ¬old <+: m) (hnew : ¬new <+: m) :
    (d.rename p q).isDirectory m = true := by
  have hdeleted := isDirectory_delete hq (isDirectory_delete hp h hold) hnew
  rw [isDirectory_iff] at hdeleted ⊢
  refine hdeleted.imp_right fun h => ?_
  rw [rename_directories hp hq hholds hsame]
  exact List.mem_append_left _ (mem_makeDirectory h)

/-- After a renaming there is something at the new path and nothing at the old one. -/
theorem holds_rename (hne : old ≠ []) (hapart : ¬old <+: new ∧ ¬new <+: old) :
    (d.rename p q).holds p = false ∧ (d.rename p q).holds q = true := by
  constructor
  · have hfile : (d.rename p q).file? old = none := by
      rw [file?_rename hp hq hholds hsame, if_neg hapart.2, if_pos (List.prefix_refl old)]
    have hdir : (d.rename p q).isDirectory old = false := by
      rw [← Bool.not_eq_true, isDirectory_iff, rename_directories hp hq hholds hsame]
      rintro (rfl | hmem)
      · exact hne rfl
      · rcases List.mem_append.mp hmem with hmem | hmem
        · rcases prefix_of_mem_makeDirectory hmem with hmem | habove
          · rw [delete, hq, delete, hp] at hmem
            have hkept := (List.mem_filter.mp (List.mem_of_mem_filter hmem)).2
            rw [List.isPrefixOf_iff_prefix.mpr (List.prefix_refl old)] at hkept
            cases hkept
          · exact hapart.1 (habove.trans (List.dropLast_prefix new))
        · obtain ⟨dir, -, hmoved⟩ := List.mem_map.mp hmem
          exact hapart.2 ⟨_, hmoved⟩
    rw [holds, hp]
    simp only [hfile, hdir, Option.isSome_none, Bool.or_self]
  · have hthere : (d.file? old).isSome = true ∨ d.isDirectory old = true := by
      rwa [holds, hp, Bool.or_eq_true] at hholds
    rw [holds, hq, Bool.or_eq_true]
    refine hthere.imp (fun hfile => ?_) fun hdir => ?_
    · rwa [file?_rename hp hq hholds hsame, if_pos (List.prefix_refl new), List.drop_length, List.append_nil]
    · have hmem := (isDirectory_iff.mp hdir).resolve_left hne
      rw [isDirectory_iff, rename_directories hp hq hholds hsame]
      refine .inr (List.mem_append_right _ (List.mem_map.mpr ⟨old, ?_, ?_⟩))
      · exact List.mem_filter.mpr ⟨hmem, List.isPrefixOf_iff_prefix.mpr (List.prefix_refl old)⟩
      · rw [List.drop_length, List.append_nil]

end Rename

/-- The root is a directory of the disk, with its names from the root of the file system. -/
structure IsRoot (d : Disk) (root : Path) (names : List Text) : Prop where
  spelled : names? root = some names
  directory : d.isDirectory names = true
  plain : d.file? names = none

end Disk

open Disk

/-- The names are those on the way from a directory down to an entry. -/
structure IsWay (below : List Text) : Prop where
  ne : below ≠ []
  named : ∀ n ∈ below, IsEntryName n

instance (below : List Text) : Decidable (IsWay below) :=
  decidable_of_iff (below ≠ [] ∧ ∀ n ∈ below, IsEntryName n) ⟨fun h => ⟨h.1, h.2⟩, fun h => ⟨h.1, h.2⟩⟩

theorem Disk.IsRoot.isAbsolute {d : Disk} {root : Path} {names : List Text} (h : d.IsRoot root names) :
    root.IsAbsolute :=
  isAbsolute_of_names? h.spelled

theorem Disk.IsRoot.names?_below {d : Disk} {root : Path} {names below : List Text} (h : d.IsRoot root names)
    (way : IsWay below) : names? (pathBelow root below) = some (names ++ below) :=
  names?_pathBelow h.spelled way.named

namespace DiskChange

variable {d : Disk} {root : Path} {names : List Text} {c : DiskChange} {target : Option (List Text)}

/-- The change concerns an entry below a directory, and a file system can carry it out. Of what is written or
renamed, the new place is told. -/
inductive Possible (d : Disk) (root : Path) (names : List Text) : DiskChange → Option (List Text) → Prop
  | write {below : List Text} (data : FileData) (way : IsWay below)
    (plain : d.isDirectory (names ++ below) = false) :
    Possible d root names (.write (pathBelow root below) data) (some below)
  | delete {below : List Text} (way : IsWay below) : Possible d root names (.delete (pathBelow root below)) none
  | rename {old new : List Text} (source : IsWay old) (target : IsWay new)
    (holds : d.holds (pathBelow root old) = true) (apart : ¬old <+: new ∧ ¬new <+: old)
    (free : ∀ m, new <+: m → m ≠ new → d.file? (names ++ m) = none) :
    Possible d root names (.rename (pathBelow root old) (pathBelow root new)) (some new)

/-- What a watcher reports of a change. A file that is written is reported once or more often; of a directory
only its own paths are reported, and of a renamed entry both, in any of the modes. -/
inductive Reported : DiskChange → List WatchReport → Prop
  | written (p : Path) (data : FileData) (kinds : List WatchKind)
    (named : ∃ k ∈ kinds, k = .creation ∨ k = .modification)
    (others : ∀ k ∈ kinds, k ≠ .removal ∧ ∀ mode, k ≠ .rename mode) :
    Reported (.write p data) (kinds.map fun k => ⟨k, [p]⟩)
  | deleted (p : Path) : Reported (.delete p) [⟨.removal, [p]⟩]
  | together (p q : Path) (mode : RenameMode) (names : mode = .both ∨ mode = .unknown) :
    Reported (.rename p q) [⟨.rename mode, [p, q]⟩]
  | apart (p q : Path) (first second : RenameMode) (names : first = .source ∨ first = .unknown)
    (others : second = .target ∨ second = .unknown) :
    Reported (.rename p q) [⟨.rename first, [p]⟩, ⟨.rename second, [q]⟩]

/-- The events that reports stand for, where existence is that on a disk. -/
def eventsOf (d : Disk) (reports : List WatchReport) : List FileEvent :=
  reports.flatMap fun r => FileEvent.ofReport d.holds r.kind r.paths

variable {reports : List WatchReport} {p q : Path}

theorem Reported.eventsOf_write {data : FileData} (h : Reported (.write p data) reports) (d : Disk) :
    eventsOf d reports ≠ [] ∧ ∀ e ∈ eventsOf d reports, e = .created p ∨ e = .modified p := by
  cases h with
  | written p data kinds named others =>
    constructor
    · obtain ⟨k, hk, hkind⟩ := named
      have hevent : ∃ e, e ∈ FileEvent.ofReport d.holds k [p] := by
        rcases hkind with rfl | rfl
        · exact ⟨.created p, List.mem_singleton_self _⟩
        · exact ⟨.modified p, List.mem_singleton_self _⟩
      obtain ⟨e, he⟩ := hevent
      exact List.ne_nil_of_mem (List.mem_flatMap.mpr ⟨_, List.mem_map_of_mem hk, he⟩)
    · intro e he
      obtain ⟨r, hr, he⟩ := List.mem_flatMap.mp he
      obtain ⟨k, hk, rfl⟩ := List.mem_map.mp hr
      obtain ⟨hremoval, hrename⟩ := others k hk
      cases k with
      | creation => exact .inl (List.mem_singleton.mp he)
      | modification => exact .inr (List.mem_singleton.mp he)
      | removal => exact absurd rfl hremoval
      | rename mode => exact absurd rfl (hrename mode)
      | _ => cases he

theorem Reported.eventsOf_delete (h : Reported (.delete p) reports) (d : Disk) :
    eventsOf d reports = [.removed p] := by
  cases h with
  | deleted p => rfl

/-- In every mode, a renaming is the removal of the old path and then the creation of the new one. -/
theorem Reported.eventsOf_rename (h : Reported (.rename p q) reports) (hp : d.holds p = false)
    (hq : d.holds q = true) : eventsOf d reports = [.removed p, .created q] := by
  cases h with
  | together p q mode names =>
    rcases names with rfl | rfl
    · rfl
    · simp [eventsOf, FileEvent.ofReport, hp, hq]
  | apart p q first second names others =>
    rcases names with rfl | rfl <;> rcases others with rfl | rfl <;>
      simp [eventsOf, FileEvent.ofReport, hp, hq]

theorem not_same_of_apart (h : root.IsAbsolute) {old new : List Text} (hold : IsWay old) (hnew : IsWay new)
    (hapart : ¬old <+: new ∧ ¬new <+: old) : (pathBelow root old).same (pathBelow root new) = false := by
  rw [← Bool.not_eq_true, same_pathBelow_iff h hnew.named hold.named]
  rintro rfl
  exact hapart.1 (List.prefix_refl old)

/-- The root stays what it was. -/
theorem Possible.isRoot (h : c.Possible d root names target) (hroot : d.IsRoot root names) :
    (c.apply d).IsRoot root names := by
  have habove : ∀ {below : List Text}, IsWay below → ¬names ++ below <+: names := by
    intro below way hprefix
    have hlength := hprefix.length_le
    rw [List.length_append] at hlength
    exact way.ne (List.length_eq_zero_iff.mp (by omega))
  cases h with
  | write data way plain =>
    refine ⟨hroot.spelled, isDirectory_write hroot.directory _ data, ?_⟩
    rw [apply, file?_write (hroot.names?_below way) plain, if_neg]
    · exact hroot.plain
    · exact fun heq => habove way ⟨[], (List.append_nil _).trans heq⟩
  | delete way =>
    refine ⟨hroot.spelled, isDirectory_delete (hroot.names?_below way) hroot.directory (habove way), ?_⟩
    rw [apply, file?_delete (hroot.names?_below way), if_neg (habove way)]
    exact hroot.plain
  | rename source target holds apart free =>
    have hsame := not_same_of_apart hroot.isAbsolute source target apart
    refine ⟨hroot.spelled, ?_, ?_⟩
    · exact isDirectory_rename (hroot.names?_below source) (hroot.names?_below target) holds hsame
        hroot.directory (habove source) (habove target)
    · rw [apply, file?_rename (hroot.names?_below source) (hroot.names?_below target) holds hsame,
        if_neg (habove target), if_neg (habove source)]
      exact hroot.plain

end DiskChange

end StepLink
