import StepLink.Proofs.Index.Effect

/-! What holds of an index at every moment of every run, whatever calls are under way on it. -/

namespace StepLink

open IndexState

variable {α : Type} {setup : IndexSetup α} {equal : α → α → Prop} {pathOf : α → Path} {s t : IndexState α}

/-- The invariant of an index. -/
structure Sound (setup : IndexSetup α) (pathOf : α → Path) (s : IndexState α) : Prop where
  /-- A view that is kept is that of the current files. -/
  view : ∀ view, s.flat = some view → view = s.allItems
  /-- A filter that is kept is that of the current globs. -/
  filter : ∀ f, s.filter = some f → f = CorpusFilter.ofGlobs setup.root s.globs
  /-- No file is tracked twice. -/
  distinct : s.keys.Pairwise fun p q => p.same q = false
  /-- The items of a file carry its path. -/
  owned : ∀ entry ∈ s.files, ∀ a ∈ entry.2, (pathOf a).same entry.1 = true

theorem Revision.view (h : Revision setup s t) (hs : ∀ view, s.flat = some view → view = s.allItems) :
    ∀ view, t.flat = some view → view = t.allItems := by
  intro view hview
  cases h with
  | kept files version flat =>
    rcases flat with hflat | ⟨-, hflat⟩
    · rw [hflat] at hview
      rw [hs view hview, allItems, allItems, files]
    · exact Option.some.inj (hview.symm.trans hflat)
  | entered p text fresh files version flat =>
    rw [flat] at hview
    cases hview
  | dropped test some files version flat =>
    rw [flat] at hview
    cases hview

theorem Revision.distinct (h : Revision setup s t) (hs : s.keys.Pairwise fun p q => p.same q = false) :
    t.keys.Pairwise fun p q => p.same q = false := by
  cases h with
  | kept files version flat =>
    rw [keys, files]
    exact hs
  | entered p text fresh files version flat =>
    rw [keys, files, keys_enterFile]
    split
    next => exact hs
    next hnone =>
      refine List.pairwise_append.mpr ⟨hs, List.pairwise_singleton _ _, ?_⟩
      intro key hkey q hq
      rw [List.mem_singleton.mp hq]
      obtain ⟨entry, hentry, rfl⟩ := List.mem_map.mp hkey
      rw [isSome_lookup_iff, Bool.not_eq_true, List.any_eq_false] at hnone
      exact Bool.eq_false_iff.mpr (hnone entry hentry)
  | dropped test some files version flat =>
    rw [keys, files]
    exact hs.sublist (List.filter_sublist.map _)

theorem Revision.owned (law : Lawful setup equal pathOf) (h : Revision setup s t)
    (hs : ∀ entry ∈ s.files, ∀ a ∈ entry.2, (pathOf a).same entry.1 = true) :
    ∀ entry ∈ t.files, ∀ a ∈ entry.2, (pathOf a).same entry.1 = true := by
  intro entry hentry a ha
  cases h with
  | kept files version flat =>
    rw [files] at hentry
    exact hs entry hentry a ha
  | entered p text fresh files version flat =>
    rw [files] at hentry
    rcases mem_enterFile hentry with hold | ⟨hsame, hitems⟩
    · exact hs entry hold a ha
    · rw [hitems] at ha
      rw [law.pathOf_parse ha]
      exact Path.same_symm hsame
  | dropped test some files version flat =>
    rw [files] at hentry
    exact hs entry (List.mem_of_mem_filter hentry) a ha

theorem Section.filter_eq (h : Section setup s t)
    (hs : ∀ f, s.filter = some f → f = CorpusFilter.ofGlobs setup.root s.globs) :
    ∀ f, t.filter = some f → f = CorpusFilter.ofGlobs setup.root t.globs := by
  intro f hf
  rcases h.filter_globs with ⟨hfilter, hglobs⟩ | hnone | hcompiled
  · rw [hglobs]
    exact hs f (hfilter.symm.trans hf)
  · rw [hnone] at hf
    cases hf
  · exact Option.some.inj (hf.symm.trans hcompiled)

/-- A filter that is kept is that of the current globs, whatever the index is of. -/
theorem Reachable.filter_eq (h : Reachable setup s) :
    ∀ f, s.filter = some f → f = CorpusFilter.ofGlobs setup.root s.globs :=
  h.induct (fun _ f hf => by cases hf) fun hsection hs => hsection.filter_eq hs

theorem IndexState.compiledFilter_snd
    (hs : ∀ f, s.filter = some f → f = CorpusFilter.ofGlobs setup.root s.globs) :
    (s.compiledFilter setup.root).2 = .ofGlobs setup.root s.globs := by
  rw [compiledFilter]
  split
  next f hf => exact hs f hf
  next => rfl

namespace Sound

theorem new (setup : IndexSetup α) (pathOf : α → Path) (globs : Selection) :
    Sound setup pathOf (.new globs) where
  view _ h := by cases h
  filter _ h := by cases h
  distinct := .nil
  owned _ h := by cases h

theorem of_section (law : Lawful setup equal pathOf) (h : Section setup s t) (hs : Sound setup pathOf s) :
    Sound setup pathOf t where
  view := h.revision.view hs.view
  filter := h.filter_eq hs.filter
  distinct := h.revision.distinct hs.distinct
  owned := h.revision.owned law hs.owned

end Sound

theorem Reachable.sound (law : Lawful setup equal pathOf) (h : Reachable setup s) : Sound setup pathOf s :=
  h.induct (Sound.new setup pathOf) fun hsection hs => hs.of_section law hsection

/-- What the index holds for a path is what a read has found: the items of the text, but for how their path is
spelled, or nothing if there was no text. -/
def IndexState.Shows (setup : IndexSetup α) (equal : α → α → Prop) (s : IndexState α) (p : Path) :
    Except ReadError Text → Prop
  | .ok text => ∃ items, s.items? p = some items ∧ List.Forall₂ equal items (setup.parse p text)
  | .error _ => s.items? p = none

theorem IndexState.Shows.congr {p : Path} {found : Except ReadError Text} (h : s.Shows setup equal p found)
    (hitems : t.items? p = s.items? p) : t.Shows setup equal p found := by
  cases found with
  | ok text =>
    obtain ⟨items, hsome, hequal⟩ := h
    exact ⟨items, hitems.trans hsome, hequal⟩
  | error e => exact hitems.trans h

/-- Items that do not count as a change are those of the text. -/
theorem Sound.equal_of_agree (law : Lawful setup equal pathOf) (hs : Sound setup pathOf s) {p : Path}
    {text : Text} {items : List α} (hitems : s.items? p = some items)
    (hagree : agree setup.same items (setup.parse p text) = true) :
    List.Forall₂ equal items (setup.parse p text) := by
  obtain ⟨key, hkey, hsame⟩ := mem_of_lookup hitems
  rw [agree_iff, List.forall₂_iff_zip] at hagree
  refine List.forall₂_iff_zip.mpr ⟨hagree.1, fun hmem => ?_⟩
  obtain ⟨ha, hb⟩ := List.of_mem_zip hmem
  refine law.equal_of_same (hagree.2 hmem) ?_
  rw [law.pathOf_parse hb]
  exact Path.same_trans (hs.owned _ hkey _ ha) hsame

theorem Sound.commit_shows (law : Lawful setup equal pathOf) (hs : Sound setup pathOf s)
    (hlive : s.isDisposed = false) (p : Path) (text : Text) :
    (s.commit setup.same p (setup.parse p text)).1.Shows setup equal p (.ok text) := by
  have hitems := items?_commit setup.same s p p (setup.parse p text)
  cases hset : s.settles setup.same p (setup.parse p text) with
  | true =>
    rw [settles, hlive, Bool.false_or, Option.any_eq_true] at hset
    obtain ⟨previous, hprevious, hagree⟩ := hset
    refine ⟨previous, ?_, hs.equal_of_agree law hprevious hagree⟩
    rw [hitems, hprevious]
    simp_all [settles]
  | false =>
    rw [if_pos ⟨hset, Path.same_refl p⟩] at hitems
    refine ⟨_, hitems, List.forall₂_same.mpr fun a _ => ?_⟩
    exact law.equal_of_same (law.same_refl a) (Path.same_refl _)

theorem dropBelow_shows (setup : IndexSetup α) (equal : α → α → Prop) (s : IndexState α) (p : Path)
    (again : Bool) (e : ReadError) : (s.dropBelow p again).1.Shows setup equal p (.error e) := by
  show (s.dropBelow p again).1.items? p = none
  rw [items?_dropBelow, if_pos (Path.startsWith_of_same (Path.same_refl p))]

end StepLink
