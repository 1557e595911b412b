import StepLink.Proofs.Index.Version

/-! What the two indexes keep beside their files: items sorted by keyword, and the matchers of patterns. What is
made from the items carries the version of the index, so it says something about the items of that version. No
section of code can make it wrong: either the files stay the same, or the version leaves it behind.
-/

namespace StepLink

open IndexState

section

variable {α : Type} {setup : IndexSetup α} {equal : α → α → Prop} {pathOf : α → Path} {s t : IndexState α}
  {version : Nat} {fact : List α → Prop}

/-- A fact about the items that the index had at a version. It can be told from the state only as long as the
version is the current one. -/
structure Dated (s : IndexState α) (version : Nat) (fact : List α → Prop) : Prop where
  le : version ≤ s.version
  holds : version = s.version → fact s.allItems

theorem Dated.now (h : fact s.allItems) : Dated s s.version fact :=
  ⟨Nat.le_refl _, fun _ => h⟩

theorem Dated.of_section (law : Lawful setup equal pathOf) (h : Section setup s t) (hs : Dated s version fact) :
    Dated t version fact := by
  have hcounts := h.revision.counts law.same_refl
  have hle := hs.le
  by_cases hfiles : t.files = s.files
  · obtain ⟨hversion, -⟩ := hcounts.unchanged hfiles
    refine ⟨by omega, fun heq => ?_⟩
    rw [allItems, hfiles]
    exact hs.holds (heq.trans hversion)
  · obtain ⟨hversion, -⟩ := hcounts.changed hfiles
    exact ⟨by omega, fun heq => by omega⟩

theorem snapshot_version (s : IndexState α) : s.snapshot.1.version = s.version := by
  rw [snapshot]
  split <;> rfl

theorem snapshot_files (s : IndexState α) : s.snapshot.1.files = s.files := by
  rw [snapshot]
  split <;> rfl

end

namespace Buckets

variable {κ α : Type} [DecidableEq κ] {keys : List κ} {key : α → Option κ} {version : Nat} {items : List α}
  {k : κ}

theorem refresh_eq {cached : Option (Buckets κ α)}
    (h : ∀ b, cached = some b → b.version = version → b = ofItems keys key b.version items) :
    refresh cached keys key version items = ofItems keys key version items := by
  cases cached with
  | none => rfl
  | some b =>
    rw [refresh]
    split
    next hversion => rw [h b rfl hversion, hversion]
    next => rfl

theorem group_ofItems (hk : k ∈ keys) :
    (ofItems keys key version items).group k = items.filter fun item => key item = some k := by
  let sorted := fun k => items.filter fun item => key item = some k
  have hfind : ((keys.map fun k => (k, sorted k)).find? fun entry => entry.1 = k) = some (k, sorted k) := by
    induction keys with
    | nil => cases hk
    | cons l keys ih =>
      by_cases hl : l = k
      · subst hl
        simp
      · rw [List.map_cons, List.find?_cons_of_neg (by simpa using hl)]
        exact ih ((List.mem_cons.mp hk).resolve_left (Ne.symm hl))
  rw [group, ofItems, hfind]
  rfl

end Buckets

/-- The invariant of an index that keeps its items sorted: what is kept shows the items of its version. -/
structure Kept {α κ : Type} [DecidableEq κ] (setup : IndexSetup α) (equal : α → α → Prop) (pathOf : α → Path)
    (keys : List κ) (key : α → Option κ) (s : IndexState α) (cached : Option (Buckets κ α)) : Prop where
  law : Lawful setup equal pathOf
  sound : Sound setup pathOf s
  dated : ∀ b, cached = some b → Dated s b.version fun items => b = .ofItems keys key b.version items

namespace Kept

variable {α κ : Type} [DecidableEq κ] {setup : IndexSetup α} {equal : α → α → Prop} {pathOf : α → Path}
  {keys : List κ} {key : α → Option κ} {s t : IndexState α} {cached : Option (Buckets κ α)}

theorem of_section (h : Kept setup equal pathOf keys key s cached) (hs : Section setup s t) :
    Kept setup equal pathOf keys key t cached where
  law := h.law
  sound := h.sound.of_section h.law hs
  dated b hb := (h.dated b hb).of_section h.law hs

/-- Buckets that are refreshed with a snapshot show the current items. -/
theorem refresh_eq (h : Kept setup equal pathOf keys key s cached) :
    Buckets.refresh cached keys key s.snapshot.1.version s.snapshot.2 =
      .ofItems keys key s.version s.allItems := by
  rw [snapshot_version, h.sound.snapshot_snd]
  exact Buckets.refresh_eq fun b hb hversion => (h.dated b hb).holds hversion

theorem refresh (h : Kept setup equal pathOf keys key s cached) :
    Kept setup equal pathOf keys key s.snapshot.1
      (some (Buckets.refresh cached keys key s.snapshot.1.version s.snapshot.2)) where
  law := h.law
  sound := h.sound.of_section h.law .snapshot
  dated b hb := by
    rw [h.refresh_eq] at hb
    obtain rfl := Option.some.inj hb
    have hnow : Dated s s.version fun items =>
        Buckets.ofItems keys key s.version s.allItems = Buckets.ofItems keys key s.version items := .now rfl
    exact hnow.of_section h.law .snapshot

end Kept

namespace Lru

variable {κ β : Type} [DecidableEq κ] {c : Lru κ β} {k : κ} {b : β} {entry : κ × β}

theorem mem_of_find? (h : c.find? k = some b) : (k, b) ∈ c.entries := by
  obtain ⟨⟨l, d⟩, hentry, rfl⟩ := Option.map_eq_some_iff.mp h
  have hkey := List.find?_some hentry
  rw [decide_eq_true_eq] at hkey
  exact hkey ▸ List.mem_of_find?_eq_some hentry

theorem mem_of_mem_touch (h : entry ∈ (c.touch k).entries) : entry ∈ c.entries := by
  rw [touch] at h
  split at h
  next used hused =>
    rcases List.mem_cons.mp h with rfl | h
    · exact List.mem_of_find?_eq_some hused
    · exact (List.mem_filter.mp h).1
  next => exact h

theorem mem_of_mem_put (h : entry ∈ (c.put k b).entries) : entry = (k, b) ∨ entry ∈ c.entries := by
  rcases List.mem_cons.mp (List.mem_of_mem_take h) with rfl | h
  · exact .inl rfl
  · exact .inr (List.mem_filter.mp h).1

end Lru

/-- The definitions of a view for steps of a keyword: those registered under it, then those registered under
all; without a keyword, all of them. -/
def Definition.offered (view : List Definition) : Option StepKeyword → List Definition
  | some k => (view.filter fun d => d.keyword = .only k) ++ view.filter fun d => d.keyword = .any
  | none => view

/-- The definitions of a view that accept a step. -/
def Definition.fitting (view : List Definition) (keyword : Option StepKeyword) (text : Text) :
    List Definition :=
  (offered view keyword).filter fun d => d.accepts text

namespace DefinitionIndex

variable {x : DefinitionIndex} {s : IndexState Definition}

/-- What the index keeps is right. -/
structure Current (x : DefinitionIndex) : Prop where
  parse : x.setup.parse = Definition.ofText
  kept : Kept x.setup Definition.Respells Definition.path keywords (fun d => some d.keyword) x.state x.buckets

/-- A query leads to an index with the same files, in which what is kept is right again. -/
structure Keeps (x y : DefinitionIndex) : Prop where
  current : y.Current
  moved : Section x.setup x.state y.state
  files : y.state.files = x.state.files

theorem Current.of_section (h : x.Current) (hs : Section x.setup x.state s) : Current { x with state := s } :=
  ⟨h.parse, h.kept.of_section hs⟩

theorem Current.all (h : x.Current) : x.Keeps x.all.1 ∧ x.all.2 = x.state.allItems :=
  ⟨⟨h.of_section .snapshot, .snapshot, snapshot_files x.state⟩, h.kept.sound.snapshot_snd⟩

theorem Current.sorted (h : x.Current) : x.Keeps x.sorted.1 ∧
    x.sorted.2 = .ofItems keywords (fun d => some d.keyword) x.state.version x.state.allItems :=
  ⟨⟨⟨h.parse, h.kept.refresh⟩, .snapshot, snapshot_files x.state⟩, h.kept.refresh_eq⟩

theorem Current.forKeyword (h : x.Current) (k : StepKeyword) :
    x.Keeps (x.forKeyword k).1 ∧ (x.forKeyword k).2 = Definition.offered x.state.allItems (some k) := by
  obtain ⟨hkeeps, hsorted⟩ := h.sorted
  refine ⟨hkeeps, ?_⟩
  have honly : DefinitionKeyword.only k ∈ keywords := by cases k <;> decide
  have hany : DefinitionKeyword.any ∈ keywords := by decide
  show x.sorted.2.group (.only k) ++ x.sorted.2.group .any = _
  rw [hsorted, Buckets.group_ofItems honly, Buckets.group_ofItems hany, Definition.offered]
  simp only [Option.some.injEq]

theorem Current.pool (h : x.Current) (keyword : Option StepKeyword) :
    x.Keeps (x.pool keyword).1 ∧ (x.pool keyword).2 = Definition.offered x.state.allItems keyword := by
  cases keyword with
  | some k => exact h.forKeyword k
  | none => exact h.all

theorem Current.accepting (h : x.Current) (keyword : Option StepKeyword) (text : Text) :
    x.Keeps (x.accepting keyword text).1 ∧
      (x.accepting keyword text).2 = Definition.fitting x.state.allItems keyword text := by
  obtain ⟨hkeeps, hpool⟩ := h.pool keyword
  refine ⟨hkeeps, ?_⟩
  show (x.pool keyword).2.filter _ = _
  rw [hpool, Definition.fitting]

end DefinitionIndex

/-- The occurrences of a view among which a definition under a keyword finds its steps. -/
def Occurrence.among (view : List Occurrence) : Option DefinitionKeyword → List Occurrence
  | some (.only k) => view.filter fun o => o.effective = some k
  | _ => view

/-- The occurrences of a view that a pattern accepts; none if it cannot be compiled. -/
def Occurrence.searched (view : List Occurrence) (pattern : Text) (keyword : Option DefinitionKeyword) :
    List Occurrence :=
  match Matcher.ofPattern pattern with
  | .ok m => (among view keyword).filter fun o => m.accepts (Text.trim o.text)
  | .error _ => []

namespace UsageIndex

variable {x : UsageIndex} {s : IndexState Occurrence}

/-- What the index keeps is right. -/
structure Current (x : UsageIndex) : Prop where
  parse : x.setup.parse = Occurrence.ofText
  kept : Kept x.setup Occurrence.Respells Occurrence.path keywords (·.effective) x.state x.buckets
  matchers : ∀ entry ∈ x.matchers.entries, entry.2 = (Matcher.ofPattern entry.1).toOption

/-- A query leads to an index with the same files, in which what is kept is right again. -/
structure Keeps (x y : UsageIndex) : Prop where
  current : y.Current
  files : y.state.files = x.state.files

theorem Current.of_section (h : x.Current) (hs : Section x.setup x.state s) : Current { x with state := s } :=
  ⟨h.parse, h.kept.of_section hs, h.matchers⟩

theorem Current.sorted (h : x.Current) : x.Keeps x.sorted.1 ∧
    x.sorted.2 = .ofItems keywords (·.effective) x.state.version x.state.allItems :=
  ⟨⟨⟨h.parse, h.kept.refresh, h.matchers⟩, snapshot_files x.state⟩, h.kept.refresh_eq⟩

theorem Current.put (h : x.Current) {pattern : Text} {m : Option Matcher}
    (hm : m = (Matcher.ofPattern pattern).toOption) :
    x.Keeps { x with matchers := x.matchers.put pattern m } where
  current :=
    { parse := h.parse
      kept := h.kept
      matchers := fun entry hentry => by
        rcases Lru.mem_of_mem_put hentry with rfl | hentry
        · exact hm
        · exact h.matchers entry hentry }
  files := rfl

theorem Current.matcher (h : x.Current) (pattern : Text) : x.Keeps (x.matcher pattern).1 ∧
    (x.matcher pattern).2.1 = (Matcher.ofPattern pattern).toOption := by
  rw [UsageIndex.matcher]
  split
  next found hfound =>
    refine ⟨⟨⟨h.parse, h.kept, fun entry hentry => ?_⟩, rfl⟩, h.matchers _ (Lru.mem_of_find? hfound)⟩
    exact h.matchers entry (Lru.mem_of_mem_touch hentry)
  next =>
    split
    next m hm => exact ⟨h.put (by rw [hm]; rfl), by rw [hm]; rfl⟩
    next e he => exact ⟨h.put (by rw [he]; rfl), by rw [he]; rfl⟩

theorem candidates_ofItems {version : Nat} {view : List Occurrence} (keyword : Option DefinitionKeyword) :
    candidates (.ofItems keywords (·.effective) version view) keyword = Occurrence.among view keyword := by
  match keyword with
  | some (.only k) => exact Buckets.group_ofItems (by cases k <;> decide)
  | some .any => rfl
  | none => rfl

theorem Current.accepted (h : x.Current) (pattern : Text) (keyword : Option DefinitionKeyword) :
    x.Keeps (x.accepted pattern keyword).1 ∧
      (x.accepted pattern keyword).2.1 = Occurrence.searched x.state.allItems pattern keyword := by
  obtain ⟨hkeeps, hmatcher⟩ := h.matcher pattern
  rw [UsageIndex.accepted, Occurrence.searched]
  split
  next y warnings hy =>
    rw [hy] at hkeeps hmatcher
    cases hpattern : Matcher.ofPattern pattern with
    | error e => exact ⟨hkeeps, rfl⟩
    | ok m =>
      rw [hpattern] at hmatcher
      cases hmatcher
  next y m warnings hy =>
    rw [hy] at hkeeps hmatcher
    cases hpattern : Matcher.ofPattern pattern with
    | error e =>
      rw [hpattern] at hmatcher
      cases hmatcher
    | ok m' =>
      rw [hpattern] at hmatcher
      obtain rfl : m = m' := Option.some.inj hmatcher
      obtain ⟨hsorted, hitems⟩ := hkeeps.current.sorted
      refine ⟨⟨hsorted.current, hsorted.files.trans hkeeps.files⟩, ?_⟩
      show (candidates y.sorted.2 keyword).filter _ = _
      rw [hitems, candidates_ofItems, allItems, hkeeps.files]
      rfl

end UsageIndex

end StepLink
