import Mathlib.Data.List.Nodup
import StepLink.Proofs.Definition.Place
import StepLink.Proofs.Feature.Place
import StepLink.Proofs.Query.Block
import StepLink.Proofs.Query.Cache

/-! Navigation is symmetric. From a function one gets to the steps that its decorators accept, and from a step
to the definitions that accept it. Both ways come down to the same question, whether a definition of the block
accepts the step. Both rely on a place to stand for one item only, which it does as long as every line of the
texts has a number of its own. -/

namespace StepLink

open IndexState

section

variable {α : Type} {setup : IndexSetup α} {equal : α → α → Prop} {pathOf : α → Path} {s : IndexState α}
  {items as bs : List α} {a b : α} {p : Path} {f : α → Nat}

theorem mem_allItems_of_items? (hitems : s.items? p = some items) (ha : a ∈ items) : a ∈ s.allItems := by
  obtain ⟨key, hkey, -⟩ := mem_of_lookup hitems
  exact List.mem_flatMap.mpr ⟨_, hkey, ha⟩

theorem Sound.path_of_items? (hs : Sound setup pathOf s) (hitems : s.items? p = some items) (ha : a ∈ items) :
    (pathOf a).same p = true := by
  obtain ⟨key, hkey, hsame⟩ := mem_of_lookup hitems
  exact Path.same_trans (hs.owned _ hkey a ha) hsame

/-- An item that carries the path of a file is one of the items of the file. -/
theorem Sound.mem_of_mem_allItems (hs : Sound setup pathOf s) (hitems : s.items? p = some items)
    (ha : a ∈ s.allItems) (hpath : (pathOf a).same p = true) : a ∈ items := by
  obtain ⟨entry, hentry, hmem⟩ := List.mem_flatMap.mp ha
  obtain ⟨key, hkey, hsame⟩ := mem_of_lookup hitems
  have hdistinct : s.files.Pairwise fun e e' => e.1.same e'.1 = false := List.pairwise_map.mp hs.distinct
  have hsymm : Std.Symm fun e e' : Path × List α => e.1.same e'.1 = false :=
    ⟨fun e e' h => (Path.same_comm e'.1 e.1).trans h⟩
  have hboth : entry.1.same key = true :=
    Path.same_trans (Path.same_symm (hs.owned entry hentry a hmem))
      (Path.same_trans hpath (Path.same_symm hsame))
  have hentry' : entry = (key, items) := by
    by_contra hne
    have hdiffer := hdistinct.forall hentry hkey hne
    rw [hboth] at hdiffer
    cases hdiffer
  rw [hentry'] at hmem
  exact hmem

theorem exists_equal_left (h : List.Forall₂ equal as bs) (ha : a ∈ as) : ∃ b ∈ bs, equal a b := by
  induction h with
  | nil => cases ha
  | cons hab _ ih =>
    rcases List.mem_cons.mp ha with rfl | ha
    · exact ⟨_, List.mem_cons_self, hab⟩
    · obtain ⟨b, hb, hequal⟩ := ih ha
      exact ⟨b, List.mem_cons_of_mem _ hb, hequal⟩

theorem exists_equal_right (h : List.Forall₂ equal as bs) (hb : b ∈ bs) : ∃ a ∈ as, equal a b :=
  exists_equal_left h.flip hb

/-- Where the items of a text have a number each, items that are equal to them have so as well. -/
theorem eq_of_number_eq (hf : ∀ a b, equal a b → f a = f b) (h : List.Forall₂ equal as bs)
    (hbs : bs.Pairwise (f · < f ·)) (ha : a ∈ as) (hb : b ∈ as) (heq : f a = f b) : a = b := by
  have hmap : as.map f = bs.map f := by
    rw [← List.forall₂_eq_eq_eq]
    exact List.rel_map hf h
  have hnodup : (as.map f).Nodup := by
    rw [hmap, List.Nodup, List.pairwise_map]
    exact hbs.imp fun hlt => Nat.ne_of_lt hlt
  exact List.inj_on_of_nodup_map hnodup ha hb heq

end

theorem Definition.Respells.line {d e : Definition} (h : d.Respells e) : d.line = e.line := by
  rw [← h.1]

theorem Occurrence.Respells.line {a b : Occurrence} (h : a.Respells b) : a.line = b.line := by
  rw [← h.1]

/-- The places are the same but for how their paths are spelled. -/
def UsagePlace.Respells (u v : UsagePlace) : Prop :=
  u.path.same v.path = true ∧ u.line = v.line ∧ u.column = v.column ∧ u.length = v.length

namespace UsagePlace

variable {u v w : UsagePlace} {places : List UsagePlace}

theorem Respells.refl (u : UsagePlace) : u.Respells u :=
  ⟨Path.same_refl u.path, rfl, rfl, rfl⟩

theorem Respells.trans (huv : u.Respells v) (hvw : v.Respells w) : u.Respells w := by
  obtain ⟨hpath, hline, hcolumn, hlength⟩ := huv
  obtain ⟨hpath', hline', hcolumn', hlength'⟩ := hvw
  exact ⟨Path.same_trans hpath hpath', hline.trans hline', hcolumn.trans hcolumn', hlength.trans hlength'⟩

/-- The comparison by which repetitions are found. -/
def same (u v : UsagePlace) : Bool :=
  u.path.same v.path && u.line == v.line && u.column == v.column && u.length == v.length

theorem same_iff : u.same v = true ↔ u.Respells v := by
  simp only [same, Respells, Bool.and_eq_true, beq_iff_eq, and_assoc]

theorem dedup_cons (u : UsagePlace) (places : List UsagePlace) :
    dedup (u :: places) = u :: (dedup places).filter fun v => !u.same v :=
  rfl

theorem mem_of_mem_dedup (h : u ∈ dedup places) : u ∈ places := by
  induction places with
  | nil => cases h
  | cons v places ih =>
    rcases List.mem_cons.mp h with rfl | h
    · exact List.mem_cons_self
    · exact List.mem_cons_of_mem v (ih (List.mem_filter.mp h).1)

/-- Of equal places one is kept. -/
theorem exists_of_mem (h : u ∈ places) : ∃ v ∈ dedup places, v.Respells u := by
  induction places with
  | nil => cases h
  | cons first places ih =>
    rw [dedup_cons]
    rcases List.mem_cons.mp h with rfl | h
    · exact ⟨u, List.mem_cons_self, .refl u⟩
    · obtain ⟨v, hv, hrespells⟩ := ih h
      by_cases hsame : first.same v = true
      · exact ⟨first, List.mem_cons_self, (same_iff.mp hsame).trans hrespells⟩
      · refine ⟨v, List.mem_cons_of_mem _ (List.mem_filter.mpr ⟨hv, ?_⟩), hrespells⟩
        rw [Bool.eq_false_iff.mpr hsame, Bool.not_false]

end UsagePlace

theorem DefinitionKeyword.accepts_iff {keyword : DefinitionKeyword} {k : StepKeyword} :
    keyword.accepts k = true ↔ keyword = .only k ∨ keyword = .any := by
  cases keyword <;> simp [accepts]

theorem Definition.mem_fitting {view : List Definition} {k : StepKeyword} {text : Text} {d : Definition} :
    d ∈ fitting view (some k) text ↔ d ∈ view ∧ d.keyword.accepts k = true ∧ d.accepts text = true := by
  simp only [fitting, offered, List.mem_filter, List.mem_append, decide_eq_true_eq,
    DefinitionKeyword.accepts_iff, ← and_or_left, and_assoc]

namespace Occurrence

variable {view : List Occurrence} {lines : List Text} {l : Nat} {o : Occurrence} {pattern : Text}

theorem mem_of_mem_among {keyword : Option DefinitionKeyword} (h : o ∈ among view keyword) : o ∈ view := by
  match keyword, h with
  | some (.only k), h => exact (List.mem_filter.mp h).1
  | some .any, h => exact h
  | none, h => exact h

theorem mem_among {keyword : DefinitionKeyword} {k : StepKeyword} (heffective : o.effective = some k) :
    o ∈ among view (some keyword) ↔ o ∈ view ∧ keyword.accepts k = true := by
  cases keyword with
  | any => simp [among, DefinitionKeyword.accepts]
  | only l =>
    rw [among, List.mem_filter, heffective, decide_eq_true_eq, Option.some.injEq, DefinitionKeyword.accepts,
      beq_iff_eq, eq_comm]

theorem mem_searched {keyword : Option DefinitionKeyword} : o ∈ searched view pattern keyword ↔
    ∃ m, Matcher.ofPattern pattern = .ok m ∧ o ∈ among view keyword ∧ m.accepts (Text.trim o.text) = true := by
  rw [searched]
  split
  next m hm => simp [hm]
  next e he => simp [he]

/-- Where equal places are merged, an occurrence that has its place for itself is neither lost nor added. -/
theorem location_mem_dedup {found : List Occurrence}
    (halone : ∀ a ∈ found, a.location.Respells o.location → a = o) :
    o.location ∈ UsagePlace.dedup (found.map location) ↔ o ∈ found := by
  constructor
  · intro h
    obtain ⟨a, ha, heq⟩ := List.mem_map.mp (UsagePlace.mem_of_mem_dedup h)
    rw [← halone a ha (heq ▸ .refl a.location)]
    exact ha
  · intro h
    obtain ⟨v, hv, hrespells⟩ := UsagePlace.exists_of_mem (List.mem_map_of_mem (f := location) h)
    obtain ⟨a, ha, rfl⟩ := List.mem_map.mp (UsagePlace.mem_of_mem_dedup hv)
    rw [← halone a ha hrespells]
    exact hv

theorem exists_placesOf_iff (halone : ∀ a ∈ view, a.location.Respells o.location → a = o) :
    (∃ places, placesOf view lines l = .ok places ∧ o.location ∈ places) ↔
      ∃ dec ∈ decoratorsFor lines l, o ∈ searched view dec.pattern (some dec.keyword) := by
  rw [placesOf]
  cases decoratorsFor lines l with
  | nil =>
    constructor
    · rintro ⟨places, hplaces, -⟩
      cases hplaces
    · rintro ⟨dec, hdec, -⟩
      cases hdec
  | cons first rest =>
    let found := (first :: rest).flatMap fun dec => searched view dec.pattern (some dec.keyword)
    have hfound : ∀ a ∈ found, a.location.Respells o.location → a = o := by
      intro a ha
      obtain ⟨dec, -, hsearched⟩ := List.mem_flatMap.mp ha
      obtain ⟨m, -, hamong, -⟩ := mem_searched.mp hsearched
      exact halone a (mem_of_mem_among hamong)
    rw [← List.mem_flatMap, ← location_mem_dedup hfound]
    constructor
    · rintro ⟨places, hplaces, hmem⟩
      exact Except.ok.inj hplaces ▸ hmem
    · exact fun hmem => ⟨_, rfl, hmem⟩

end Occurrence

/-- The definitions of a step module whose decorators stand in the block of a line are those that the decorators
of the function give. -/
theorem Definition.exists_inBlock_iff {p : Path} {text : Text} {l : Nat}
    {P : DefinitionKeyword → Matcher → Prop} (hlines : (Text.lines text).length ≤ Text.maxPosition + 1) :
    (∃ d ∈ ofText p text, InBlock (Text.lines text) l d.line ∧ P d.keyword d.matcher) ↔
      ∃ dec ∈ decoratorsFor (Text.lines text) l, ∃ m, Matcher.ofPattern dec.pattern = .ok m ∧
        P dec.keyword m := by
  have hline : ∀ {i line}, (Text.lines text)[i]? = some line → Text.lineNumber i = i := by
    intro i line hline
    obtain ⟨hi, -⟩ := List.getElem?_eq_some_iff.mp hline
    exact Text.lineNumber_eq (by omega)
  constructor
  · rintro ⟨d, hd, hblock, hP⟩
    obtain ⟨i, line, dec, hget, hdec, hof⟩ := mem_ofText.mp hd
    obtain ⟨hkeyword, hpattern, hnumber⟩ := isOf_of_ofDecorator hof
    rw [hnumber, hline hget] at hblock
    refine ⟨dec, mem_decoratorsFor.mpr ⟨i, line, hget, hdec, hblock⟩, d.matcher, ?_, hkeyword ▸ hP⟩
    rw [← hpattern, d.compiles]
  · rintro ⟨dec, hmem, m, hm, hP⟩
    obtain ⟨i, line, hget, hdec, hblock⟩ := mem_decoratorsFor.mp hmem
    obtain ⟨d, hof⟩ := exists_of_compiles hm p i line ((Text.lines text).drop (i + 1))
    obtain ⟨hkeyword, hpattern, hnumber⟩ := isOf_of_ofDecorator hof
    have hmatcher : d.matcher = m := by
      have hcompiles := d.compiles
      rw [hpattern, hm] at hcompiles
      exact (Except.ok.inj hcompiles).symm
    refine ⟨d, mem_ofText.mpr ⟨i, line, dec, hget, hdec, hof⟩, ?_, ?_⟩
    · rwa [hnumber, hline hget]
    · rwa [hkeyword, hmatcher]

/-! ### Both ways -/

/-- The item is one of those that the index holds for a path. -/
def IndexState.Holds {α : Type} (s : IndexState α) (p : Path) (a : α) : Prop :=
  ∃ items, s.items? p = some items ∧ a ∈ items

namespace Indexes

variable {x : Indexes} {p q : Path} {S F : Text} {l : Nat} {o : Occurrence} {d : Definition} {k : StepKeyword}

/-- An occurrence of a text that the index holds is found under its line, and has its place for itself. -/
theorem Current.occurrence_spec (h : x.Current)
    (hF : x.usages.state.Shows x.usages.setup Occurrence.Respells q (.ok F))
    (hlines : (Text.lines F).length ≤ Text.maxPosition + 1) (ho : x.usages.state.Holds q o) :
    o ∈ x.usages.state.allItems ∧
      (∃ line step, (Text.lines F)[o.line]? = some line ∧ StepLine.ofLine? line = some step ∧
        step.text = o.text) ∧
      ∀ a ∈ x.usages.state.allItems, a.location.Respells o.location → a = o := by
  obtain ⟨os, hos, hequal⟩ := hF
  obtain ⟨_, hos', ho⟩ := ho
  obtain rfl := Option.some.inj (hos.symm.trans hos')
  rw [h.usages.parse] at hequal
  refine ⟨mem_allItems_of_items? hos ho, ?_, fun a ha hplace => ?_⟩
  · obtain ⟨b, hb, hrespells, -⟩ := exists_equal_left hequal ho
    obtain ⟨i, line, found, hline, hfound, rfl⟩ := Occurrence.mem_ofText.mp hb
    obtain ⟨hi, -⟩ := List.getElem?_eq_some_iff.mp hline
    have hnumber : o.line = i := (congrArg Occurrence.line hrespells).trans (Text.lineNumber_eq (by omega))
    have htext : o.text = found.step.text := congrArg Occurrence.text hrespells
    exact ⟨line, found.step, hnumber ▸ hline, (Scanner.feed_eq_some hfound).2.1, htext.symm⟩
  · obtain ⟨hpath, hline, -⟩ := hplace
    have hmem : a ∈ os := h.usages.kept.sound.mem_of_mem_allItems hos ha
      (Path.same_trans hpath (h.usages.kept.sound.path_of_items? hos ho))
    exact eq_of_number_eq (f := Occurrence.line) (fun _ _ => Occurrence.Respells.line) hequal
      (Occurrence.pairwise_ofText hlines q) hmem ho hline

/-- A definition of a text that the index holds has its place for itself. -/
theorem Current.definition_alone (h : x.Current)
    (hS : x.definitions.state.Shows x.definitions.setup Definition.Respells p (.ok S))
    (hlines : (Text.lines S).length ≤ Text.maxPosition + 1) (hd : x.definitions.state.Holds p d) :
    ∀ e ∈ x.definitions.state.allItems, e.location = d.location → e = d := by
  obtain ⟨ds, hds, hequal⟩ := hS
  obtain ⟨_, hds', hd⟩ := hd
  obtain rfl := Option.some.inj (hds.symm.trans hds')
  rw [h.definitions.parse] at hequal
  intro e he hplace
  have hpath : e.path = d.path := congrArg DefinitionPlace.path hplace
  have hline : e.line = d.line := congrArg DefinitionPlace.line hplace
  have hmem : e ∈ ds := h.definitions.kept.sound.mem_of_mem_allItems hds he
    (hpath ▸ h.definitions.kept.sound.path_of_items? hds hd)
  exact eq_of_number_eq (f := Definition.line) (fun _ _ => Definition.Respells.line) hequal
    (Definition.pairwise_ofText hlines p) hmem hd hline

/-- The definitions that the index holds for a text are those of the text, as far as their blocks, keywords and
matchers go. -/
theorem Current.exists_held_iff (h : x.Current)
    (hS : x.definitions.state.Shows x.definitions.setup Definition.Respells p (.ok S))
    {P : Nat → DefinitionKeyword → Matcher → Prop} :
    (∃ d ∈ Definition.ofText p S, P d.line d.keyword d.matcher) ↔
      ∃ d, x.definitions.state.Holds p d ∧ P d.line d.keyword d.matcher := by
  obtain ⟨ds, hds, hequal⟩ := hS
  rw [h.definitions.parse] at hequal
  have hfields : ∀ {d e : Definition}, d.Respells e → P d.line d.keyword d.matcher →
      P e.line e.keyword e.matcher := fun hrespells hP => hrespells.1 ▸ hP
  constructor
  · rintro ⟨e, he, hP⟩
    obtain ⟨d, hd, hrespells⟩ := exists_equal_right hequal he
    refine ⟨d, ⟨ds, hds, hd⟩, ?_⟩
    rw [← hrespells.1] at hP
    exact hP
  · rintro ⟨d, ⟨_, hds', hd⟩, hP⟩
    obtain rfl := Option.some.inj (hds.symm.trans hds')
    obtain ⟨e, he, hrespells⟩ := exists_equal_left hequal hd
    exact ⟨e, he, hfields hrespells hP⟩

end Indexes

/-- From a line of a step module one gets to an occurrence exactly if from the occurrence one gets to a
definition in the block of the line, at every moment of every run. The texts are those that the indexes hold
under the two paths, and the keyword that the occurrence is kept with is the one that is found from its
line. Line numbers have 32 bits and stop at the largest one, so the texts have no more lines than there are
numbers. -/
theorem Service.usagesAt_iff_definitionsAt (root : Path) (definitions usages : Selection)
    (batchSize maxReplays : Nat) (acts : Nat → Act) (t : Nat) {p q : Path} {S F : Text} (l : Nat)
    {o : Occurrence} {k : StepKeyword} :
    let x := ((new root definitions usages batchSize maxReplays).after acts t).indexes
    let linesOf := fun (text : Text) i => (Text.lines text)[i]?
    x.definitions.state.Shows x.definitions.setup Definition.Respells p (.ok S) →
    x.usages.state.Shows x.usages.setup Occurrence.Respells q (.ok F) →
    (Text.lines S).length ≤ Text.maxPosition + 1 → (Text.lines F).length ≤ Text.maxPosition + 1 →
    x.usages.state.Holds q o → o.effective = some k → effectiveKeyword (linesOf F) o.line = some k →
    ((∃ places, (x.usagesAt (Text.lines S) l).2.1 = .ok places ∧ o.location ∈ places) ↔
      ∃ d, x.definitions.state.Holds p d ∧ InBlock (Text.lines S) l d.line ∧
        d.location ∈ (x.definitionsAt (linesOf F) o.line).2) := by
  intro x linesOf hS hF hSlines hFlines ho heffective hkeyword
  have h : x.Current := current_after (current_new root definitions usages batchSize maxReplays) acts t
  obtain ⟨hview, ⟨line, step, hline, hstep, htext⟩, halone⟩ := h.occurrence_spec hF hFlines ho
  have hplaces : (x.definitionsAt (linesOf F) o.line).2 =
      (Definition.fitting x.definitions.state.allItems (some k) o.text).map Definition.location := by
    have hfound : (linesOf F o.line).bind StepLine.ofLine? = some step := by
      rw [← hstep]
      exact congrArg (Option.bind · StepLine.ofLine?) hline
    rw [(h.definitionsAt (linesOf F) o.line).2, Definition.placesAt, hfound]
    simp only [hkeyword, htext]
  rw [(h.usagesAt (Text.lines S) l).2, Occurrence.exists_placesOf_iff halone, hplaces]
  calc (∃ dec ∈ decoratorsFor (Text.lines S) l,
        o ∈ Occurrence.searched x.usages.state.allItems dec.pattern (some dec.keyword))
      ↔ ∃ dec ∈ decoratorsFor (Text.lines S) l, ∃ m, Matcher.ofPattern dec.pattern = .ok m ∧
          dec.keyword.accepts k = true ∧ m.accepts (Text.trim o.text) = true := by
        simp only [Occurrence.mem_searched, Occurrence.mem_among heffective, hview, true_and]
    _ ↔ ∃ d ∈ Definition.ofText p S, InBlock (Text.lines S) l d.line ∧
          d.keyword.accepts k = true ∧ d.matcher.accepts (Text.trim o.text) = true :=
        (Definition.exists_inBlock_iff hSlines (P := fun keyword m =>
          keyword.accepts k = true ∧ m.accepts (Text.trim o.text) = true)).symm
    _ ↔ ∃ d, x.definitions.state.Holds p d ∧ InBlock (Text.lines S) l d.line ∧
          d.keyword.accepts k = true ∧ d.matcher.accepts (Text.trim o.text) = true :=
        h.exists_held_iff hS (P := fun line keyword m => InBlock (Text.lines S) l line ∧
          keyword.accepts k = true ∧ m.accepts (Text.trim o.text) = true)
    _ ↔ ∃ d, x.definitions.state.Holds p d ∧ InBlock (Text.lines S) l d.line ∧
          d.location ∈ (Definition.fitting x.definitions.state.allItems (some k) o.text).map
            Definition.location := by
        refine exists_congr fun d => and_congr_right fun hd => and_congr_right fun _ => ?_
        rw [List.mem_map]
        constructor
        · rintro ⟨haccepts, hmatches⟩
          obtain ⟨ds, hds, hmem⟩ := hd
          exact ⟨d, Definition.mem_fitting.mpr ⟨mem_allItems_of_items? hds hmem, haccepts, hmatches⟩, rfl⟩
        · rintro ⟨e, he, hplace⟩
          obtain ⟨heview, haccepts, hmatches⟩ := Definition.mem_fitting.mp he
          rw [h.definition_alone hS hSlines hd e heview hplace] at haccepts hmatches
          exact ⟨haccepts, hmatches⟩

/-- A step module with one function and a feature file with one step of it, both open in the editor. -/
def pairWorld : World :=
  ⟨⟨[(⟨"/w/steps.py".toList⟩, ⟨"@given('a')\ndef f():".toList, 1⟩),
    (⟨"/w/a.feature".toList⟩, ⟨"Given a".toList, 1⟩)]⟩, .empty⟩

/-- Both files are scanned. -/
def pairScans : Nat → Act
  | 0 => .definitions (.start (.scanFile ⟨"/w/steps.py".toList⟩))
  | 6 => .usages (.start (.scanFile ⟨"/w/a.feature".toList⟩))
  | t => if t < 6 then .definitions (.advance 0 pairWorld 0) else .usages (.advance 0 pairWorld 0)

/-- From the line of the function one gets to the step, so from the step to a definition above the function. -/
theorem Service.usagesAt_iff_definitionsAt_pair :
    let x := ((new ⟨"/w".toList⟩ ⟨[], []⟩ ⟨[], []⟩ 1 5).after pairScans 12).indexes
    (x.usagesAt (Text.lines "@given('a')\ndef f():".toList) 1).2.1 = .ok [⟨⟨"/w/a.feature".toList⟩, 0, 6, 1⟩] ∧
      ∃ d, x.definitions.state.Holds ⟨"/w/steps.py".toList⟩ d ∧
        InBlock (Text.lines "@given('a')\ndef f():".toList) 1 d.line ∧
        d.location ∈ (x.definitionsAt (fun i => (Text.lines "Given a".toList)[i]?) 0).2 := by
  intro x
  have hitems : x.usages.state.items? ⟨"/w/a.feature".toList⟩ =
      some (Occurrence.ofText ⟨"/w/a.feature".toList⟩ "Given a".toList) := rfl
  have hS : x.definitions.state.Shows x.definitions.setup Definition.Respells ⟨"/w/steps.py".toList⟩
      (.ok "@given('a')\ndef f():".toList) :=
    ⟨_, rfl, List.forall₂_same.mpr fun d _ => ⟨rfl, Path.same_refl d.path⟩⟩
  have hF : x.usages.state.Shows x.usages.setup Occurrence.Respells ⟨"/w/a.feature".toList⟩
      (.ok "Given a".toList) :=
    ⟨_, hitems, List.forall₂_same.mpr fun a _ => ⟨rfl, Path.same_refl a.path⟩⟩
  let o : Occurrence := ⟨"Given".toList, .direct .given, ['a'], some .given, ⟨"/w/a.feature".toList⟩, 0, 6, 1⟩
  have ho : x.usages.state.Holds ⟨"/w/a.feature".toList⟩ o := ⟨_, hitems, by decide +kernel⟩
  have husages : (x.usagesAt (Text.lines "@given('a')\ndef f():".toList) 1).2.1 = .ok [o.location] := by
    decide +kernel
  have hiff := usagesAt_iff_definitionsAt ⟨"/w".toList⟩ ⟨[], []⟩ ⟨[], []⟩ 1 5 pairScans 12 1 hS hF
    (by decide +kernel) (by decide +kernel) ho rfl (by decide +kernel)
  exact ⟨husages, hiff.mp ⟨_, husages, List.mem_cons_self⟩⟩

end StepLink
