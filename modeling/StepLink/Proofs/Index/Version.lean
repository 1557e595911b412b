import Mathlib.Data.List.Pairwise
import Mathlib.Data.Nat.Init
import StepLink.Proofs.Index.Invariant

/-! The version of an index counts the changes of its files, and the view that it keeps is the one of the
current files. Together these let every cache be keyed by the version. -/

namespace StepLink

open IndexState

variable {α : Type} {setup : IndexSetup α} {equal : α → α → Prop} {s t : IndexState α}

/-- From the first state to the second, the version keeps count of the changes of the files. -/
structure Counts (s t : IndexState α) : Prop where
  changed : t.files ≠ s.files → t.version = s.version + 1 ∧ t.flat = none
  unchanged : t.files = s.files → t.version = s.version ∧ ∀ view, s.flat = some view → t.flat = some view

theorem agree_refl {same : α → α → Bool} (hsame : ∀ a, same a a = true) (items : List α) :
    agree same items items = true := by
  rw [agree_iff]
  exact List.forall₂_same.mpr fun a _ => hsame a

/-- Items that do count as a change leave other files behind: what is looked up under their path differs. -/
theorem enterFile_ne {same : α → α → Bool} (hsame : ∀ a, same a a = true) {p : Path} {items : List α}
    (h : s.settles same p items = false) : enterFile s.files p items ≠ s.files := by
  intro heq
  have hlookup := lookup_enterFile s.files p p items
  rw [heq, if_pos (Path.same_refl p), ← items?_eq_lookup] at hlookup
  simp [settles, hlookup, agree_refl hsame] at h

theorem Revision.counts (hsame : ∀ a, setup.same a a = true) (h : Revision setup s t) : Counts s t := by
  cases h with
  | kept files version flat =>
    refine ⟨fun hne => absurd files hne, fun _ => ⟨version, fun view hview => ?_⟩⟩
    rcases flat with hflat | ⟨hnone, -⟩
    · exact hflat.trans hview
    · rw [hnone] at hview
      cases hview
  | entered p text fresh files version flat =>
    refine ⟨fun _ => ⟨version, flat⟩, fun heq => absurd (files.symm.trans heq) ?_⟩
    exact enterFile_ne hsame fresh
  | dropped test some files version flat =>
    refine ⟨fun _ => ⟨version, flat⟩, fun heq => absurd ?_ some⟩
    rw [List.all_eq_true]
    exact List.filter_eq_self.mp (files.symm.trans heq)

/-- Files that stay tracked keep their order, and files that were not tracked before come after them. -/
def KeepsOrder (s t : IndexState α) : Prop :=
  ∃ fresh, t.keys = s.keys.filter t.isTracked ++ fresh ∧ ∀ p ∈ fresh, s.items? p = none

theorem isTracked_of_mem_keys {p : Path} (h : p ∈ s.keys) : s.isTracked p = true := by
  obtain ⟨entry, hentry, rfl⟩ := List.mem_map.mp h
  rw [isTracked, items?_eq_lookup, isSome_lookup_iff, List.any_eq_true]
  exact ⟨entry, hentry, Path.same_refl _⟩

theorem KeepsOrder.of_append {fresh : List Path} (hkeys : t.keys = s.keys ++ fresh)
    (hfresh : ∀ p ∈ fresh, s.items? p = none) : KeepsOrder s t := by
  refine ⟨fresh, ?_, hfresh⟩
  rw [List.filter_eq_self.mpr, hkeys]
  intro p hp
  refine isTracked_of_mem_keys ?_
  rw [hkeys]
  exact List.mem_append_left fresh hp

theorem Revision.keepsOrder (hs : s.keys.Pairwise fun p q => p.same q = false) (h : Revision setup s t) :
    KeepsOrder s t := by
  cases h with
  | kept files version flat =>
    refine @KeepsOrder.of_append _ s t [] ?_ fun _ hp => by cases hp
    rw [keys, files, List.append_nil, keys]
  | entered p text fresh files version flat =>
    have hkeys := keys_enterFile s.files p (setup.parse p text)
    rw [← files] at hkeys
    split at hkeys
    next => exact .of_append (hkeys.trans (List.append_nil _).symm) fun _ hp => by cases hp
    next hnone =>
      refine .of_append hkeys fun q hq => ?_
      rw [List.mem_singleton.mp hq]
      exact Option.not_isSome_iff_eq_none.mp hnone
  | dropped test some files version flat =>
    refine ⟨[], ?_, fun _ hp => by cases hp⟩
    have hkeys : t.keys = s.keys.filter test := by
      rw [keys, files, keys, List.filter_map]
      rfl
    rw [List.append_nil, hkeys]
    refine List.filter_congr fun p hp => ?_
    rw [Bool.eq_iff_iff]
    refine ⟨fun htest => isTracked_of_mem_keys ?_, fun htracked => ?_⟩
    · rw [hkeys]
      exact List.mem_filter.mpr ⟨hp, htest⟩
    · -- the file that is still tracked under the path is the one of this key
      obtain ⟨items, hitems⟩ := Option.isSome_iff_exists.mp htracked
      obtain ⟨key, hentry, hsame⟩ := mem_of_lookup hitems
      rw [files] at hentry
      obtain ⟨hentry, htest⟩ := List.mem_filter.mp hentry
      have hsymm : Std.Symm fun p q : Path => p.same q = false := ⟨fun p q h => (Path.same_comm q p).trans h⟩
      have hkey : key = p := by
        by_contra hne
        have hdiffer := hs.forall (List.mem_map_of_mem hentry) hp hne
        rw [hsame] at hdiffer
        cases hdiffer
      rwa [hkey] at htest

/-- The order is kept over two revisions if no file that the first one drops comes back with the second. -/
theorem KeepsOrder.trans {u : IndexState α} (hst : KeepsOrder s t) (htu : KeepsOrder t u)
    (hback : ∀ p, u.isTracked p = true → t.items? p = none → s.items? p = none) : KeepsOrder s u := by
  obtain ⟨fresh, hkeys, hfresh⟩ := hst
  obtain ⟨fresh', hkeys', hfresh'⟩ := htu
  refine ⟨fresh.filter u.isTracked ++ fresh', ?_, fun p hp => ?_⟩
  · rw [hkeys', hkeys, List.filter_append, List.filter_filter, List.append_assoc]
    congr 1
    refine List.filter_congr fun p hp => ?_
    cases hu : u.isTracked p with
    | false => rfl
    | true =>
      cases ht : t.items? p with
      | none =>
        have hs := isTracked_of_mem_keys hp
        rw [isTracked, hback p hu ht] at hs
        cases hs
      | some items =>
        rw [isTracked, ht]
        rfl
  · rcases List.mem_append.mp hp with hp | hp
    · exact hfresh p (List.mem_filter.mp hp).1
    · refine hback p (isTracked_of_mem_keys ?_) (hfresh' p hp)
      rw [hkeys']
      exact List.mem_append_right _ hp

/-- Over any number of sections the version never falls, and where it stays the same so do the files. -/
theorem files_eq_of_version_eq (hsame : ∀ a, setup.same a a = true) {state : Nat → IndexState α}
    (hstate : ∀ t, Section setup (state t) (state (t + 1))) {t u : Nat} (htu : t ≤ u) :
    (state t).version ≤ (state u).version ∧
      ((state t).version = (state u).version → (state t).files = (state u).files) := by
  induction u, htu using Nat.le_induction with
  | base => exact ⟨Nat.le_refl _, fun _ => rfl⟩
  | succ u _ ih =>
    obtain ⟨hle, heq⟩ := ih
    have hcounts := (hstate u).revision.counts hsame
    by_cases hfiles : (state (u + 1)).files = (state u).files
    · obtain ⟨hversion, -⟩ := hcounts.unchanged hfiles
      rw [hversion, hfiles]
      exact ⟨hle, heq⟩
    · obtain ⟨hversion, -⟩ := hcounts.changed hfiles
      rw [hversion]
      exact ⟨by omega, fun h => by omega⟩

theorem Sound.snapshot_snd {pathOf : α → Path} (hs : Sound setup pathOf s) : s.snapshot.2 = s.allItems := by
  rw [IndexState.snapshot]
  split
  next view hview => exact hs.view view hview
  next => rfl

/-- In every run of an index, each moment that changes the files raises the version by one and forgets the
view, and each other moment leaves both alone. A view that is kept is the concatenation of the items of the
files, which are in the order in which they were entered. So two views of one version show the same items.
-/
theorem version_identifies_items (hindex : StepIndex setup equal) (globs : Selection) (moves : Nat → Move) :
    let state := fun t => ((Traffic.new globs).after setup moves t).index
    (∀ t, Counts (state t) (state (t + 1))) ∧
    (∀ t, KeepsOrder (state t) (state (t + 1))) ∧
    (∀ t view, (state t).flat = some view → view = (state t).files.flatMap (·.2)) ∧
    ∀ t u, (state t).version = (state u).version → (state t).snapshot.2 = (state u).snapshot.2 := by
  intro state
  obtain ⟨pathOf, law⟩ := hindex.lawful
  have hstate : ∀ t, Section setup (state t) (state (t + 1)) := fun t =>
    Traffic.step_section setup _ (moves t)
  have hsound : ∀ t, Sound setup pathOf (state t) := fun t => Reachable.sound law ⟨globs, moves, t, rfl⟩
  have hsnapshot : ∀ {t u}, t ≤ u → (state t).version = (state u).version →
      (state t).snapshot.2 = (state u).snapshot.2 := by
    intro t u htu hversion
    have hfiles := (files_eq_of_version_eq law.same_refl hstate htu).2 hversion
    rw [(hsound t).snapshot_snd, (hsound u).snapshot_snd, allItems, allItems, hfiles]
  refine ⟨fun t => (hstate t).revision.counts law.same_refl,
    fun t => (hstate t).revision.keepsOrder (hsound t).distinct, fun t => (hsound t).view,
    fun t u hversion => ?_⟩
  rcases Nat.le_total t u with htu | hut
  · exact hsnapshot htu hversion
  · exact (hsnapshot hut hversion.symm).symm

/-- The file is scanned twice, and looked at after each time. -/
def twoScans : Nat → Move
  | 0 => .start (.scanFile ⟨"/w/a.feature".toList⟩)
  | 6 => .snapshot
  | 7 => .start (.scanFile ⟨"/w/a.feature".toList⟩)
  | 12 => .snapshot
  | t => .advance (if t < 7 then 0 else 1) oneStepWorld 0

/-- The scan that finds nothing new leaves the version and the view as they were. -/
theorem version_identifies_items_twoScans :
    let setup := (UsageIndex.new ⟨"/w".toList⟩ ⟨[], []⟩ 1 5).setup
    let state := fun t => ((Traffic.new ⟨[], []⟩).after setup twoScans t).index
    StepIndex setup Occurrence.Respells ∧ (state 3).version = 0 ∧ (state 4).version = 1 ∧
      (state 7).version = (state 13).version ∧ (state 7).snapshot.2 = (state 13).snapshot.2 := by
  refine ⟨.usages _ ⟨[], []⟩ _ _, by decide, by decide, by decide, ?_⟩
  exact (version_identifies_items (.usages _ ⟨[], []⟩ _ _) ⟨[], []⟩ twoScans).2.2.2 7 13 (by decide)

end StepLink
