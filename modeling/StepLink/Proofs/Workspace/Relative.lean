import StepLink.Proofs.Workspace.Listing

/-! Paths below a directory, seen from it: they are spelled as the names on the way, with a separator between
any two. -/

namespace StepLink

namespace Path

theorem isVoid_of_isEntryName {n : Text} (h : IsEntryName n) : isVoid n = false := by
  have hname := h.isName
  rw [componentOf?] at hname
  split at hname
  next => cases hname
  next hvoid => exact Bool.eq_false_iff.mpr hvoid

theorem isVoid_of_componentOf? {segment : Text} (h : componentOf? segment = none) : isVoid segment = true := by
  rw [componentOf?] at h
  split at h
  next hvoid => exact hvoid
  next => split at h <;> cases h

theorem filterMap_componentOf? {names : List Text} (h : ∀ n ∈ names, IsEntryName n) :
    names.filterMap componentOf? = names.map .name := by
  induction names with
  | nil => rfl
  | cons n names ih =>
    rw [List.filterMap_cons_some (h n List.mem_cons_self).isName,
      ih fun m hm => h m (List.mem_cons_of_mem n hm), List.map_cons]

theorem joinSegments_cons_cons (n m : Text) (names : List Text) :
    joinSegments (n :: m :: names) = n ++ '/' :: joinSegments (m :: names) := rfl

theorem segments_joinSegments {names : List Text} (hne : names ≠ []) (h : ∀ n ∈ names, '/' ∉ n) :
    segments (joinSegments names) = names := by
  induction names with
  | nil => exact absurd rfl hne
  | cons n names ih =>
    have hn : segments n = [n] := by rw [segments, segmentsAfter_name (h n List.mem_cons_self)]; rfl
    cases names with
    | nil => exact hn
    | cons m names =>
      rw [joinSegments_cons_cons, segments, segmentsAfter_append, ← segments, hn,
        ih (List.cons_ne_nil m names) fun k hk => h k (List.mem_cons_of_mem n hk)]
      rfl

/-- The spelling of a directory in front of its entries. -/
def asDirectory (p : Path) : Text :=
  if p.spelling.getLast? = some '/' then p.spelling else p.spelling ++ ['/']

theorem IsAbsolute.spelling_join {p : Path} (h : p.IsAbsolute) (n : Text) :
    (p.join n).spelling = p.asDirectory ++ n := by
  obtain ⟨t, ht⟩ := h
  rw [Path.join, asDirectory]
  split
  next hnone => simp [ht] at hnone
  next hlast => rw [if_pos hlast]
  next c hc hlast =>
    rw [if_neg fun hslash => hc (Option.some.inj (hlast.symm.trans hslash)), List.append_assoc]
    rfl

theorem IsAbsolute.asDirectory_join {p : Path} (h : p.IsAbsolute) {n : Text} (hn : IsEntryName n) :
    (p.join n).asDirectory = p.asDirectory ++ n ++ ['/'] := by
  have hlast : (p.asDirectory ++ n).getLast? ≠ some '/' := by
    intro hlast
    have hne : n ≠ [] := by
      rintro rfl
      cases hn.isName
    rw [List.getLast?_append_of_ne_nil _ hne] at hlast
    exact hn.plain (List.mem_of_getLast? hlast)
  rw [asDirectory, h.spelling_join, if_neg hlast]

/-- Entries are spelled after the separator that ends the spelling of the directory. -/
theorem IsAbsolute.segments_asDirectory {p : Path} (h : p.IsAbsolute) :
    ∃ t, p.asDirectory = '/' :: t ∧ ∀ u, ∃ pre, segments (t ++ u) = pre ++ segments u := by
  obtain ⟨t, ht⟩ := h
  rw [asDirectory]
  split
  next hlast =>
    rw [ht] at hlast
    refine ⟨t, ht, fun u => ?_⟩
    cases htail : t.getLast? with
    | none => exact ⟨[], by rw [List.getLast?_eq_none_iff.mp htail]; rfl⟩
    | some c =>
      obtain ⟨v, rfl⟩ := List.getLast?_eq_some_iff.mp htail
      rw [← List.cons_append, List.getLast?_concat] at hlast
      obtain rfl := Option.some.inj hlast
      refine ⟨segments v, ?_⟩
      rw [List.append_assoc, List.singleton_append, segments, segmentsAfter_append, ← segments]
  next =>
    refine ⟨t ++ ['/'], by rw [ht]; rfl, fun u => ⟨segments t, ?_⟩⟩
    rw [List.append_assoc, List.singleton_append, segments, segmentsAfter_append, ← segments]

end Path

namespace Disk

theorem spelling_pathBelow {root : Path} (h : root.IsAbsolute) {names : List Text} (hne : names ≠ [])
    (hnames : ∀ n ∈ names, IsEntryName n) :
    (pathBelow root names).spelling = root.asDirectory ++ Path.joinSegments names := by
  induction names generalizing root with
  | nil => exact absurd rfl hne
  | cons n names ih =>
    have hbelow : pathBelow root (n :: names) = pathBelow (root.join n) names := rfl
    cases names with
    | nil => exact h.spelling_join n
    | cons m names =>
      rw [hbelow, ih (h.join n) (List.cons_ne_nil m names) fun k hk => hnames k (List.mem_cons_of_mem n hk),
        h.asDirectory_join (hnames n List.mem_cons_self), Path.joinSegments_cons_cons, List.append_assoc,
        List.append_assoc]
      rfl

end Disk

namespace Path

theorem dropSegments_zero (all : List Text) : dropSegments 0 all = all := by
  cases all <;> rfl

/-- Dropping the segments of as many components leaves at most void segments in front of the others. -/
theorem dropSegments_append (pre names : List Text) :
    ∃ voids, (∀ s ∈ voids, isVoid s = true) ∧
      dropSegments (pre.filterMap componentOf?).length (pre ++ names) = voids ++ names := by
  induction pre with
  | nil => exact ⟨[], by simp, dropSegments_zero names⟩
  | cons s pre ih =>
    cases hs : componentOf? s with
    | some c =>
      rw [List.filterMap_cons_some hs, List.length_cons, List.cons_append, dropSegments]
      simp only [hs, Option.isSome_some, if_true]
      exact ih
    | none =>
      rw [List.filterMap_cons_none hs]
      cases hlength : (pre.filterMap componentOf?).length with
      | zero =>
        -- nothing is left to drop, so all of the segments before the names are void
        have hnone := List.filterMap_eq_nil_iff.mp (List.length_eq_zero_iff.mp hlength)
        refine ⟨s :: pre, ?_, dropSegments_zero _⟩
        exact List.forall_mem_cons.mpr ⟨isVoid_of_componentOf? hs, fun v hv => isVoid_of_componentOf? (hnone v hv)⟩
      | succ k =>
        rw [hlength] at ih
        rw [List.cons_append, dropSegments]
        simp only [hs, Option.isSome_none, Bool.false_eq_true, if_false]
        exact ih

theorem dropWhile_isVoid_append {voids names : List Text} (hvoids : ∀ s ∈ voids, isVoid s = true)
    (hnames : ∀ n ∈ names, IsEntryName n) : (voids ++ names).dropWhile isVoid = names := by
  rw [List.dropWhile_append_of_pos hvoids]
  cases names with
  | nil => rfl
  | cons n names =>
    rw [List.dropWhile_cons_of_neg]
    exact Bool.eq_false_iff.mp (isVoid_of_isEntryName (hnames n List.mem_cons_self))

theorem trimSegments_of_isEntryName {names : List Text} (h : ∀ n ∈ names, IsEntryName n) :
    trimSegments names = names := by
  have hreverse : ([] ++ names.reverse).dropWhile isVoid = names.reverse :=
    dropWhile_isVoid_append (fun s hs => by cases hs) fun n hn => h n (List.mem_reverse.mp hn)
  rw [trimSegments, ← List.nil_append names.reverse, hreverse, List.reverse_reverse]

end Path

namespace Disk

/-- Seen from the directory, a path below it is spelled as the names on the way. -/
theorem relativeTo?_pathBelow {root : Path} (h : root.IsAbsolute) {names : List Text} (hne : names ≠ [])
    (hnames : ∀ n ∈ names, IsEntryName n) :
    (pathBelow root names).relativeTo? root = some ⟨Path.joinSegments names⟩ := by
  have hcomponents := components_pathBelow h hnames
  have hstarts : (pathBelow root names).startsWith root = true := by
    rw [Path.startsWith_iff, hcomponents]
    exact List.prefix_append _ _
  obtain ⟨t, ht, hsegments⟩ := h.segments_asDirectory
  obtain ⟨pre, hpre⟩ := hsegments (Path.joinSegments names)
  rw [Path.segments_joinSegments hne fun n hn => (hnames n hn).plain] at hpre
  have hspelling : (pathBelow root names).spelling = '/' :: (t ++ Path.joinSegments names) := by
    rw [spelling_pathBelow h hne hnames, ht]
    rfl
  -- the segments before the names stand for the components of the root
  have hroot : root.components = .root :: pre.filterMap Path.componentOf? := by
    have happend : root.components ++ names.map .name =
        (.root :: pre.filterMap Path.componentOf?) ++ names.map .name := by
      rw [← hcomponents, ← Path.filterMap_componentOf? hnames, List.cons_append, ← List.filterMap_append, ← hpre,
        ← Path.components_absolute, ← hspelling]
    exact List.append_cancel_right happend
  obtain ⟨voids, hvoids, hdrop⟩ := Path.dropSegments_append pre names
  rw [Path.relativeTo?, if_pos hstarts, hroot, List.length_cons, Path.spellingAfter, hspelling]
  simp only [hpre, hdrop]
  rw [Path.dropWhile_isVoid_append hvoids hnames, Path.trimSegments_of_isEntryName hnames]

end Disk

namespace Path

theorem components_joinSegments {names : List Text} (hnames : ∀ n ∈ names, IsEntryName n) :
    components ⟨joinSegments names⟩ = names.map .name := by
  cases names with
  | nil => rfl
  | cons n names =>
    have hn := hnames n List.mem_cons_self
    have hsegments : segments (joinSegments (n :: names)) = n :: names :=
      segments_joinSegments (List.cons_ne_nil n names) fun m hm => (hnames m hm).plain
    rw [components]
    split
    next t ht =>
      -- a path of names does not begin with a separator
      simp only at ht
      rw [ht, segments, segmentsAfter, if_pos rfl] at hsegments
      have hvoid := isVoid_of_isEntryName hn
      rw [← (List.cons.inj hsegments).1] at hvoid
      cases hvoid
    next =>
      rw [hsegments]
      split
      next hdot =>
        have hvoid := isVoid_of_isEntryName hn
        rw [(List.cons.inj hdot).1] at hvoid
        cases hvoid
      next => exact filterMap_componentOf? hnames

theorem fileName?_joinSegments {names : List Text} (hnames : ∀ n ∈ names, IsEntryName n) :
    fileName? ⟨joinSegments names⟩ = names.getLast? := by
  rw [fileName?, components_joinSegments hnames, List.getLast?_map]
  cases names.getLast? <;> rfl

end Path

end StepLink
