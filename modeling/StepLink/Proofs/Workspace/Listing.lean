import Mathlib.Data.List.Perm.Basic
import StepLink.Proofs.Path
import StepLink.Workspace.Documents

/-! What is listed of a disk. A path below a directory has the components of that directory and then the
names on the way, so on a disk that is a tree no path is listed twice and none lies below another one. -/

namespace StepLink

namespace Path

theorem segmentsAfter_append (segment t u : Text) :
    segmentsAfter segment (t ++ '/' :: u) = segmentsAfter segment t ++ segments u := by
  induction t generalizing segment with
  | nil => simp [segmentsAfter, segments]
  | cons c t ih =>
    rw [List.cons_append, segmentsAfter, segmentsAfter]
    split
    next => rw [ih, List.cons_append]
    next => exact ih _

theorem segmentsAfter_name {t : Text} (ht : '/' ∉ t) (segment : Text) :
    segmentsAfter segment t = [segment.reverse ++ t] := by
  induction t generalizing segment with
  | nil => simp [segmentsAfter]
  | cons c t ih =>
    rw [List.mem_cons, not_or] at ht
    rw [segmentsAfter, if_neg (Ne.symm ht.1), ih ht.2]
    simp

/-- The path begins at the root. -/
def IsAbsolute (p : Path) : Prop :=
  ∃ t, p.spelling = '/' :: t

theorem components_absolute (t : Text) :
    components ⟨'/' :: t⟩ = .root :: (segments t).filterMap componentOf? := rfl

theorem root_ne_componentOf? (segment : Text) : componentOf? segment ≠ some .root := by
  rw [componentOf?]
  split
  next => exact fun h => by cases h
  next => split <;> exact fun h => by cases h

theorem isAbsolute_of_components {p : Path} {rest : List Component} (h : p.components = .root :: rest) :
    p.IsAbsolute := by
  obtain ⟨spelling⟩ := p
  have hroot : Component.root ∉ (segments spelling).filterMap componentOf? := by
    intro hmem
    obtain ⟨segment, -, hsegment⟩ := List.mem_filterMap.mp hmem
    exact root_ne_componentOf? segment hsegment
  rw [components] at h
  split at h
  next t ht => exact ⟨t, ht⟩
  next =>
    split at h
    next => cases h
    next =>
      rw [h] at hroot
      exact absurd (List.mem_cons_self) hroot

end Path

/-- The text can name an entry of a directory. -/
structure IsEntryName (n : Text) : Prop where
  isName : Path.componentOf? n = some (.name n)
  plain : '/' ∉ n

instance (n : Text) : Decidable (IsEntryName n) :=
  decidable_of_iff (Path.componentOf? n = some (.name n) ∧ '/' ∉ n) ⟨fun h => ⟨h.1, h.2⟩, fun h => ⟨h.1, h.2⟩⟩

namespace Path

theorem IsAbsolute.join {p : Path} (h : p.IsAbsolute) (n : Text) : (p.join n).IsAbsolute := by
  obtain ⟨t, ht⟩ := h
  rw [Path.join]
  split
  next hnone => simp [ht] at hnone
  next => exact ⟨t ++ n, by rw [ht]; rfl⟩
  next => exact ⟨t ++ '/' :: n, by rw [ht]; rfl⟩

/-- An entry of a directory has one component more. -/
theorem components_join {p : Path} (h : p.IsAbsolute) {n : Text} (hn : IsEntryName n) :
    (p.join n).components = p.components ++ [.name n] := by
  obtain ⟨spelling⟩ := p
  obtain ⟨t, rfl⟩ := h
  have hname : (segments n).filterMap componentOf? = [.name n] := by
    rw [segments, segmentsAfter_name hn.plain, List.reverse_nil, List.nil_append,
      List.filterMap_cons_some hn.isName, List.filterMap_nil]
  have hlonger : ∀ u : Text, components ⟨'/' :: (u ++ '/' :: n)⟩ = components ⟨'/' :: u⟩ ++ [.name n] := by
    intro u
    rw [components_absolute, segments, segmentsAfter_append, List.filterMap_append, hname]
    rfl
  rw [join]
  split
  next hnone => simp at hnone
  next hlast =>
    -- the separator at the end of the directory is the one in front of the entry
    obtain ⟨u, hu⟩ := List.getLast?_eq_some_iff.mp hlast
    cases u with
    | nil =>
      obtain rfl : t = [] := (List.cons.inj hu).2
      show components ⟨'/' :: n⟩ = _
      rw [components_absolute, hname]
      rfl
    | cons c u =>
      obtain rfl : t = u ++ ['/'] := (List.cons.inj hu).2
      have hvoid : components ⟨'/' :: (u ++ ['/'])⟩ = components ⟨'/' :: u⟩ := by
        rw [components_absolute, segments, segmentsAfter_append, List.filterMap_append]
        exact congrArg (List.cons _) (List.append_nil _)
      show components ⟨'/' :: (u ++ ['/'] ++ n)⟩ = _
      rw [List.append_assoc, List.singleton_append, hlonger, hvoid]
  next => exact hlonger t

end Path

namespace Disk

theorem components_pathBelow {root : Path} (h : root.IsAbsolute) {names : List Text}
    (hnames : ∀ n ∈ names, IsEntryName n) :
    (pathBelow root names).components = root.components ++ names.map .name := by
  induction names generalizing root with
  | nil => rw [pathBelow, List.foldl_nil, List.map_nil, List.append_nil]
  | cons n names ih =>
    have hbelow : pathBelow root (n :: names) = pathBelow (root.join n) names := rfl
    rw [hbelow, ih (h.join n) fun m hm => hnames m (List.mem_cons_of_mem n hm),
      Path.components_join h (hnames n List.mem_cons_self), List.append_assoc]
    rfl

/-- The disk is that of a file system: its entries have names, and no file is entered twice or below another
one. -/
structure IsTree (d : Disk) : Prop where
  named : ∀ entry ∈ d.files, ∀ n ∈ entry.1, IsEntryName n
  leaves : d.files.Pairwise fun a b => ¬a.1 <+: b.1 ∧ ¬b.1 <+: a.1

/-- Neither of the paths is the other one or lies below it. -/
def Apart (p q : Path) : Prop :=
  p.startsWith q = false ∧ q.startsWith p = false

theorem Apart.symm {p q : Path} (h : Apart p q) : Apart q p :=
  ⟨h.2, h.1⟩

theorem Apart.not_same {p q : Path} (h : Apart p q) : p.same q = false := by
  rw [← Bool.not_eq_true]
  intro hsame
  rw [Apart, Path.startsWith_of_same hsame] at h
  cases h.1

theorem isAbsolute_of_names? {root : Path} {names : List Text} (h : names? root = some names) :
    root.IsAbsolute := by
  rw [names?] at h
  split at h
  next rest hrest => exact Path.isAbsolute_of_components hrest
  next => cases h

/-- Files that are not below one another keep so when they are seen from a directory above both. -/
theorem apart_pathBelow {root : Path} (hroot : root.IsAbsolute) {names a b : List Text} (ha : names <+: a)
    (hb : names <+: b) (hna : ∀ n ∈ a, IsEntryName n) (hnb : ∀ n ∈ b, IsEntryName n)
    (hab : ¬a <+: b ∧ ¬b <+: a) :
    Apart (pathBelow root (a.drop names.length)) (pathBelow root (b.drop names.length)) := by
  obtain ⟨a, rfl⟩ := ha
  obtain ⟨b, rfl⟩ := hb
  have hinj : Function.Injective Component.name := fun _ _ => Component.name.inj
  have hstarts : ∀ {x y : List Text}, (∀ n ∈ x, IsEntryName n) → (∀ n ∈ y, IsEntryName n) →
      ¬names ++ y <+: names ++ x → (pathBelow root x).startsWith (pathBelow root y) = false := by
    intro x y hx hy hxy
    rw [← Bool.not_eq_true, Path.startsWith_iff, components_pathBelow hroot hx, components_pathBelow hroot hy,
      List.prefix_append_right_inj, List.prefix_map_iff_of_injective hinj]
    rwa [List.prefix_append_right_inj] at hxy
  rw [List.drop_left, List.drop_left]
  have hna' : ∀ n ∈ a, IsEntryName n := fun n hn => hna n (List.mem_append_right names hn)
  have hnb' : ∀ n ∈ b, IsEntryName n := fun n hn => hnb n (List.mem_append_right names hn)
  exact ⟨hstarts hna' hnb' hab.2, hstarts hnb' hna' hab.1⟩

/-- No path is listed twice, however it is spelled, and none lies below another one. -/
theorem IsTree.apart_list {d : Disk} (h : d.IsTree) {root : Path} {filter : CorpusFilter} {listed : List Path}
    (hlist : d.list root filter = .ok listed) : listed.Pairwise Apart := by
  rw [list] at hlist
  split at hlist
  next => cases hlist
  next names hnames =>
    have hroot := isAbsolute_of_names? hnames
    split at hlist
    next =>
      obtain rfl := Except.ok.inj hlist
      rw [(List.mergeSort_perm _ _).pairwise_iff Apart.symm, List.pairwise_filterMap]
      refine h.leaves.imp_of_mem fun {a b} ha hb hab p hp q hq => ?_
      simp only [Option.ite_none_right_eq_some, Option.some.injEq] at hp hq
      obtain ⟨hpa, -, rfl⟩ := hp
      obtain ⟨hqb, -, rfl⟩ := hq
      rw [ List.isPrefixOf_iff_prefix] at hpa hqb
      exact apart_pathBelow hroot hpa hqb (h.named a ha) (h.named b hb) hab
    next =>
      split at hlist
      next =>
        obtain rfl := Except.ok.inj hlist
        exact (List.pairwise_singleton _ _).filter _
      next => cases hlist

end Disk

end StepLink
