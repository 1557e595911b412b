import StepLink.Proofs.Index.Handling
import StepLink.Proofs.Index.Rebuild
import StepLink.Proofs.Workspace.Change
import StepLink.Proofs.Workspace.Pruning

/-! What an index tracks, told by the text that it has for each way down from the root. Indexes with the same
texts track the same files; a full scan of a new index has the text of each file that the walk lists; and an
event replaces the text of its own path, or takes away those below it. -/

namespace StepLink

open IndexState Disk

variable {α : Type} {setup : IndexSetup α} {equal : α → α → Prop} {pathOf : α → Path} {world : World}
  {s t u : IndexState α} {globs : Selection} {d : Disk} {root : Path} {names below : List Text}

/-- Both indexes track the same files with the same items, but for how the paths in these are spelled. -/
def SameFiles (equal : α → α → Prop) (s t : IndexState α) : Prop :=
  ∀ p, Option.Rel (List.Forall₂ equal) (s.items? p) (t.items? p)

namespace SameFiles

theorem refl (h : Equivalence equal) (s : IndexState α) : SameFiles equal s s := by
  intro p
  cases s.items? p with
  | none => exact .none
  | some items => exact .some (List.forall₂_same.mpr fun a _ => h.refl a)

theorem isSome_eq (h : SameFiles equal s t) (p : Path) : (s.items? p).isSome = (t.items? p).isSome := by
  have hrel := h p
  generalize s.items? p = a at hrel ⊢
  generalize t.items? p = b at hrel ⊢
  cases hrel <;> rfl

theorem of_none {p : Path} (h : SameFiles equal s t) (ht : t.items? p = none) : s.items? p = none := by
  rw [← Option.not_isSome_iff_eq_none, h.isSome_eq, ht]
  exact Bool.false_ne_true

theorem of_some {p : Path} {items : List α} (h : SameFiles equal s t) (ht : t.items? p = some items) :
    ∃ others, s.items? p = some others ∧ List.Forall₂ equal others items := by
  have hrel := h p
  rw [ht] at hrel
  generalize s.items? p = a at hrel ⊢
  cases hrel with
  | some hequal => exact ⟨_, rfl, hequal⟩

end SameFiles

theorem StepIndex.equivalence (h : StepIndex setup equal) : Equivalence equal := by
  cases h with
  | definitions root globs batchSize maxReplays =>
    refine ⟨fun d => ⟨rfl, Path.same_refl _⟩, fun {d e} h => ⟨?_, Path.same_symm h.2⟩,
      fun {d e f} hde hef => ⟨?_, Path.same_trans hde.2 hef.2⟩⟩
    · rw [← h.1]
    · rw [← hef.1, ← hde.1]
  | usages root globs batchSize maxReplays =>
    refine ⟨fun a => ⟨rfl, Path.same_refl _⟩, fun {a b} h => ⟨?_, Path.same_symm h.2⟩,
      fun {a b c} hab hbc => ⟨?_, Path.same_trans hab.2 hbc.2⟩⟩
    · rw [← h.1]
    · rw [← hbc.1, ← hab.1]

theorem forall₂_symm (h : Equivalence equal) {as bs : List α} (hab : List.Forall₂ equal as bs) :
    List.Forall₂ equal bs as :=
  List.Forall₂.flip (hab.imp fun _ _ => h.symm)

theorem forall₂_trans (h : Equivalence equal) {as bs cs : List α} (hab : List.Forall₂ equal as bs)
    (hbc : List.Forall₂ equal bs cs) : List.Forall₂ equal as cs := by
  induction hab generalizing cs with
  | nil => exact hbc
  | cons hhead htail ih =>
    cases hbc with
    | cons hhead' htail' => exact .cons (h.trans hhead hhead') (ih htail')

/-- The text of a file. -/
def Disk.text? (d : Disk) (names : List Text) : Option Text :=
  match d.file? names with
  | some (.text t) => some t
  | _ => none

/-- The walk through a workspace lists what is at the end of the way, if it is a file. -/
def CorpusFilter.lists (filter : CorpusFilter) (root : Path) (below : List Text) : Bool :=
  filter.accepts (pathBelow root below) && !(pathsBetween root below).any filter.prunes

theorem CorpusFilter.lists_iff {filter : CorpusFilter} : filter.lists root below = true ↔
    filter.accepts (pathBelow root below) = true ∧ Unpruned root filter below := by
  rw [lists, Bool.and_eq_true, Bool.not_eq_true', unpruned_iff]

/-- The texts of the files that the walk lists. -/
def Disk.corpus (d : Disk) (root : Path) (names : List Text) (filter : CorpusFilter) (below : List Text) :
    Option Text :=
  if filter.lists root below then d.text? (names ++ below) else none

/-- What an event finds at its path: the text of the file, if the globs select it. -/
def Disk.found (d : Disk) (root : Path) (names : List Text) (filter : CorpusFilter) (new : List Text) :
    Option Text :=
  if filter.accepts (pathBelow root new) then d.text? (names ++ new) else none

theorem Disk.text?_eq_some_iff {text : Text} : d.text? names = some text ↔ d.file? names = some (.text text) := by
  rw [text?]
  split <;> simp_all

theorem Disk.text?_congr {e : Disk} {ns ms : List Text} (h : d.file? ns = e.file? ms) :
    d.text? ns = e.text? ms := by
  rw [text?, h, text?]

theorem Disk.corpus_of_none {filter : CorpusFilter} (h : d.file? (names ++ below) = none) :
    d.corpus root names filter below = none := by
  rw [corpus, text?, h]
  exact ite_self none

theorem Disk.corpus_congr {e : Disk} {filter : CorpusFilter}
    (h : d.file? (names ++ below) = e.file? (names ++ below)) :
    d.corpus root names filter below = e.corpus root names filter below := by
  rw [corpus, text?_congr h, corpus]

theorem Disk.IsRoot.isWay_of_file (hroot : d.IsRoot root names) (hd : d.IsTree)
    (hfile : (d.file? (names ++ below)).isSome = true) : IsWay below where
  ne := by
    rintro rfl
    rw [List.append_nil, hroot.plain] at hfile
    cases hfile
  named := by
    have hbelow : d.IsFileBelow root names below (pathBelow root below) := ⟨hfile, rfl⟩
    exact isEntryName_of_isFileBelow hd hbelow

/-- What a read of an entry finds is its text, if it is the file of one. -/
theorem Disk.IsRoot.shows_of_read (hroot : d.IsRoot setup.root names) (way : IsWay below)
    (h : t.Shows setup equal (pathBelow setup.root below) (d.read (pathBelow setup.root below))) :
    (∀ text, d.text? (names ++ below) = some text → t.Shows setup equal (pathBelow setup.root below) (.ok text)) ∧
      (d.text? (names ++ below) = none → t.items? (pathBelow setup.root below) = none) := by
  have hread : ∀ text, d.read (pathBelow setup.root below) = .ok text ↔ d.text? (names ++ below) = some text :=
    fun text => (read_pathBelow_iff hroot.spelled way.ne way.named).trans text?_eq_some_iff.symm
  constructor
  · intro text htext
    rwa [(hread text).mpr htext] at h
  · intro hnone
    cases hfound : d.read (pathBelow setup.root below) with
    | ok text =>
      rw [(hread text).mp hfound] at hnone
      cases hnone
    | error e =>
      rw [hfound] at h
      exact h

/-- The index tracks exactly the paths for which there is a text, each with the items of that text. -/
structure Mirrors (setup : IndexSetup α) (equal : α → α → Prop) (contents : List Text → Option Text)
    (s : IndexState α) : Prop where
  present : ∀ below text, IsWay below → contents below = some text →
    s.Shows setup equal (pathBelow setup.root below) (.ok text)
  absent : ∀ below, IsWay below → contents below = none → s.items? (pathBelow setup.root below) = none
  foreign : ∀ p, (∀ below, IsWay below → (pathBelow setup.root below).same p = false) → s.items? p = none

namespace Mirrors

variable {contents others : List Text → Option Text}

/-- Indexes with the same texts track the same files. -/
theorem sameFiles (h : Equivalence equal) (hs : Mirrors setup equal contents s)
    (ht : Mirrors setup equal contents t) : SameFiles equal s t := by
  intro p
  by_cases hp : ∃ below, IsWay below ∧ (pathBelow setup.root below).same p = true
  · obtain ⟨below, way, hsame⟩ := hp
    rw [← items?_congr hsame s, ← items?_congr hsame t]
    cases hcontents : contents below with
    | none =>
      rw [hs.absent below way hcontents, ht.absent below way hcontents]
      exact .none
    | some text =>
      obtain ⟨items, hitems, hequal⟩ := hs.present below text way hcontents
      obtain ⟨others, hothers, hequal'⟩ := ht.present below text way hcontents
      rw [hitems, hothers]
      exact .some (forall₂_trans h hequal (forall₂_symm h hequal'))
  · have hforeign : ∀ below, IsWay below → (pathBelow setup.root below).same p = false := fun below way =>
      Bool.eq_false_iff.mpr fun hsame => hp ⟨below, way, hsame⟩
    rw [hs.foreign p hforeign, ht.foreign p hforeign]
    exact .none

theorem of_sameFiles (h : Equivalence equal) (ht : Mirrors setup equal contents t) (hsame : SameFiles equal s t) :
    Mirrors setup equal contents s where
  present below text way hcontents := by
    obtain ⟨items, hitems, hequal⟩ := ht.present below text way hcontents
    obtain ⟨others, hothers, hequal'⟩ := hsame.of_some hitems
    exact ⟨others, hothers, forall₂_trans h hequal' hequal⟩
  absent below way hcontents := hsame.of_none (ht.absent below way hcontents)
  foreign p hp := hsame.of_none (ht.foreign p hp)

theorem congr (hs : Mirrors setup equal contents s) (h : ∀ below, IsWay below → others below = contents below) :
    Mirrors setup equal others s where
  present below text way hothers := hs.present below text way ((h below way).symm.trans hothers)
  absent below way hothers := hs.absent below way ((h below way).symm.trans hothers)
  foreign := hs.foreign

theorem isSome_items? (hs : Mirrors setup equal contents s) (way : IsWay below) :
    (s.items? (pathBelow setup.root below)).isSome = (contents below).isSome := by
  cases hcontents : contents below with
  | none =>
    rw [hs.absent below way hcontents]
    rfl
  | some text =>
    obtain ⟨items, hitems, -⟩ := hs.present below text way hcontents
    rw [hitems]
    rfl

/-- Where the texts are not of the same files, other files are tracked. -/
theorem isSome_eq (hs : Mirrors setup equal contents s) (ht : Mirrors setup equal others t)
    (hsame : SameFiles equal s t) (way : IsWay below) : (contents below).isSome = (others below).isSome := by
  rw [← hs.isSome_items? way, ← ht.isSome_items? way]
  exact hsame.isSome_eq _

/-- Nothing is tracked below an entry if there is no text below it. -/
theorem isBareBelow (hs : Mirrors setup equal contents s) (hroot : setup.root.IsAbsolute) {new : List Text}
    (way : IsWay new) (hnone : ∀ below, new <+: below → below ≠ new → contents below = none) :
    s.IsBareBelow (pathBelow setup.root new) := by
  intro q hstarts hne
  by_cases hq : ∃ below, IsWay below ∧ (pathBelow setup.root below).same q = true
  · obtain ⟨below, hbelow, hsame⟩ := hq
    rw [← Path.startsWith_congr hsame, startsWith_pathBelow_iff hroot way.named hbelow.named] at hstarts
    rw [← items?_congr hsame]
    refine hs.absent below hbelow (hnone below hstarts ?_)
    rintro rfl
    rw [hsame] at hne
    cases hne
  · exact hs.foreign q fun below hbelow => Bool.eq_false_iff.mpr fun hsame => hq ⟨below, hbelow, hsame⟩

/-- What lies below a removed path is not tracked any more, and everything else is. -/
theorem dropped (hs : Mirrors setup equal contents s) (hroot : setup.root.IsAbsolute) {gone : List Text}
    (way : IsWay gone) (again : Bool) :
    Mirrors setup equal (fun below => if gone <+: below then none else contents below)
      (s.dropBelow (pathBelow setup.root gone) again).1 := by
  have hitems : ∀ below, IsWay below → (s.dropBelow (pathBelow setup.root gone) again).1.items?
      (pathBelow setup.root below) = if gone <+: below then none else s.items? (pathBelow setup.root below) := by
    intro below hbelow
    simp only [items?_dropBelow, startsWith_pathBelow_iff hroot way.named hbelow.named]
  refine ⟨fun below text hbelow hcontents => ?_, fun below hbelow hcontents => ?_, fun p hp => ?_⟩
  · split at hcontents
    next => cases hcontents
    next hgone => exact (hs.present below text hbelow hcontents).congr ((hitems below hbelow).trans (if_neg hgone))
  · rw [hitems below hbelow]
    split at hcontents
    next hgone => exact if_pos hgone
    next hgone => exact (if_neg hgone).trans (hs.absent below hbelow hcontents)
  · rw [items?_dropBelow]
    split
    next => rfl
    next => exact hs.foreign p hp

/-- An entry that has been looked at again is tracked with the text that was found. -/
theorem refreshed (hs : Mirrors setup equal contents s) (hroot : d.IsRoot setup.root names) {new : List Text}
    (way : IsWay new) (h : Refreshed setup equal ⟨.empty, d⟩ globs (pathBelow setup.root new) s t) :
    Mirrors setup equal
      (Function.update contents new (d.found setup.root names (.ofGlobs setup.root globs) new)) t := by
  have hothers : ∀ below, IsWay below → below ≠ new →
      t.items? (pathBelow setup.root below) = s.items? (pathBelow setup.root below) := by
    intro below hbelow hne
    refine h.others _ ?_
    rw [← Bool.not_eq_true, same_pathBelow_iff hroot.isAbsolute hbelow.named way.named]
    exact Ne.symm hne
  have hnew : (∀ text, d.found setup.root names (.ofGlobs setup.root globs) new = some text →
        t.Shows setup equal (pathBelow setup.root new) (.ok text)) ∧
      (d.found setup.root names (.ofGlobs setup.root globs) new = none →
        t.items? (pathBelow setup.root new) = none) := by
    unfold found
    split
    next haccepts => exact hroot.shows_of_read way (h.accepted haccepts)
    next hrejects =>
      refine ⟨fun text htext => ?_, fun _ => h.rejected (Bool.eq_false_iff.mpr hrejects)⟩
      cases htext
  refine ⟨fun below text hbelow hcontents => ?_, fun below hbelow hcontents => ?_, fun p hp => ?_⟩
  · by_cases heq : below = new
    · subst heq
      rw [Function.update_self] at hcontents
      exact hnew.1 text hcontents
    · rw [Function.update_of_ne heq] at hcontents
      exact (hs.present below text hbelow hcontents).congr (hothers below hbelow heq)
  · by_cases heq : below = new
    · subst heq
      rw [Function.update_self] at hcontents
      exact hnew.2 hcontents
    · rw [Function.update_of_ne heq] at hcontents
      exact (hothers below hbelow heq).trans (hs.absent below hbelow hcontents)
  · rw [h.others p (hp new way)]
    exact hs.foreign p hp

end Mirrors

/-! ### An index that is built from nothing -/

/-- A full scan of a new index leads to the state. -/
def ScannedAnew (setup : IndexSetup α) (world : World) (globs : Selection) (t : IndexState α) : Prop :=
  ∃ picks n, Pass.after setup world picks (.new globs) n = (t, .ended)

/-- The scan that steps next where nothing else interferes is one that is not over. -/
theorem Pass.heeds_nextPick (pass : Pass) : pass.Heeds (Call.pass pass).nextPick := by
  cases pass with
  | scanning running waiting =>
    by_cases hended : running.all Scan.isEnded = true
    · exact .inl hended
    · refine .inr ?_
      have hlive : ∃ c ∈ running, (!c.isEnded) = true := by
        simpa [List.all_eq_true] using hended
      unfold Call.nextPick
      simp only [Call.scans, Pass.scans]
      split
      next i hi =>
        obtain ⟨hlength, htest, -⟩ := List.findIdx?_eq_some_iff_getElem.mp hi
        refine ⟨_, List.getElem?_eq_getElem hlength, ?_⟩
        generalize running[i] = c at htest ⊢
        obtain ⟨p, stage⟩ := c
        cases stage <;> first | rfl | cases htest
      next hnone =>
        obtain ⟨i, hi⟩ := Option.isSome_iff_exists.mp (List.findIdx?_isSome.trans (List.any_eq_true.mpr hlive))
        obtain ⟨hlength, htest, -⟩ := List.findIdx?_eq_some_iff_getElem.mp hi
        rw [hi]
        exact ⟨_, List.getElem?_eq_getElem hlength, by simpa using htest⟩
  | _ => trivial

/-- A full scan whose next step is always that of a scan which is not over. -/
def Pass.led (setup : IndexSetup α) (world : World) (s : IndexState α) : Nat → IndexState α × Pass
  | 0 => (s, .starting)
  | n + 1 =>
    let (t, pass) := Pass.led setup world s n
    let (t, pass, _) := pass.step setup world (Call.pass pass).nextPick t
    (t, pass)

theorem Pass.after_led (setup : IndexSetup α) (world : World) (s : IndexState α) (n : Nat) :
    Pass.after setup world (fun n => (Call.pass (Pass.led setup world s n).2).nextPick) s n =
      Pass.led setup world s n := by
  induction n with
  | zero => rfl
  | succ n ih => rw [after, ih, led]

/-- The call of a full scan that has come so far. -/
def Pass.call (pass : Pass) : Call :=
  if pass = .ended then .ended false else .pass pass

/-- The moves of a run on which a full scan is the only call. -/
def aloneMoves (world : World) (picks : Nat → Nat) (n : Nat) : Move :=
  if n = 0 then .start .scanAll else .advance 0 world (picks (n - 1))

theorem Traffic.step_alone (pass : Pass) (pick : Nat) (s : IndexState α) :
    (Traffic.mk s [pass.call]).step setup (.advance 0 world pick) =
      ⟨(pass.step setup world pick s).1, [(pass.step setup world pick s).2.1.call]⟩ := by
  cases pass with
  | ended => rfl
  | _ =>
    simp only [Pass.call, reduceCtorEq, if_false, Traffic.step, List.getElem?_cons_zero, Call.step]
    generalize Pass.step setup world pick s _ = x
    obtain ⟨t, next, seen⟩ := x
    cases next <;> rfl

namespace ScannedAnew

theorem of_ended {picks : Nat → Nat} {n : Nat} (h : (Pass.after setup world picks (.new globs) n).2 = .ended) :
    ScannedAnew setup world globs (Pass.after setup world picks (.new globs) n).1 :=
  ⟨picks, n, Prod.ext rfl h⟩

/-- A full scan of a new index comes to its end. -/
theorem exists_of_isTree (hindex : StepIndex setup equal) (hdisk : world.disk.IsTree) (globs : Selection) :
    ∃ t, ScannedAnew setup world globs t := by
  obtain ⟨pathOf, law⟩ := hindex.lawful
  let picks n := (Call.pass (Pass.led setup world (.new globs) n).2).nextPick
  obtain ⟨n, hended⟩ := Pass.after_ends law (.new setup pathOf globs) rfl rfl hdisk picks fun n =>
    ⟨n, Nat.le_refl n, by
      rw [Pass.after_led]
      exact Pass.heeds_nextPick _⟩
  exact ⟨_, of_ended hended⟩

/-- What is built from nothing is reached by a run of which the full scan is the only call. -/
theorem reachable (h : ScannedAnew setup world globs t) : Reachable setup t := by
  obtain ⟨picks, n, hrun⟩ := h
  have hafter : ∀ k, (Traffic.new globs).after setup (aloneMoves world picks) (k + 1) =
      ⟨(Pass.after setup world picks (.new globs) k).1,
        [(Pass.after setup world picks (.new globs) k).2.call]⟩ := by
    intro k
    induction k with
    | zero => rfl
    | succ k ih =>
      rw [Traffic.after, ih, Pass.after]
      exact Traffic.step_alone _ (picks k) _
  refine ⟨globs, aloneMoves world picks, n + 1, ?_⟩
  rw [hafter, hrun]

/-- What is built from nothing tracks the texts of the files that the walk lists. -/
theorem mirrors (hindex : StepIndex setup equal) (hd : d.IsTree) (hroot : d.IsRoot setup.root names)
    (h : ScannedAnew setup ⟨.empty, d⟩ globs t) :
    Mirrors setup equal (d.corpus setup.root names (.ofGlobs setup.root globs)) t := by
  obtain ⟨pathOf, law⟩ := hindex.lawful
  obtain ⟨picks, n, hrun⟩ := h
  have hsound := Sound.new setup pathOf globs
  have hdisk : (⟨.empty, d⟩ : World).disk.IsTree := hd
  have hholds : d.holds setup.root = true := by
    simp only [holds, hroot.spelled, hroot.directory, Bool.or_true]
  obtain ⟨listed, hlist, hlisted⟩ := mem_list_iff hd hroot.spelled hholds (.ofGlobs setup.root globs)
  have hscan := Rebuilding.after law hsound rfl rfl hdisk picks n
  rw [hrun] at hscan
  have hrebuilt : Rebuilt setup equal ⟨.empty, d⟩ listed (.new globs) t := by
    rcases hscan with ⟨e, hcorpus, -⟩ | ⟨others, hcorpus, hidle, halfway⟩
    · cases hlist.symm.trans hcorpus
    · obtain rfl := Except.ok.inj (hlist.symm.trans hcorpus)
      exact halfway.rebuilt law hsound hidle
  have habsolute := hroot.isAbsolute
  have hunlisted : ∀ p, (∀ below, IsWay below → (d.file? (names ++ below)).isSome = true →
      (CorpusFilter.ofGlobs setup.root globs).lists setup.root below = true →
      (pathBelow setup.root below).same p = false) → t.items? p = none := by
    intro p hp
    refine hrebuilt.unlisted p fun q hq => ?_
    obtain ⟨below, hfile, haccepts, hunpruned⟩ := (hlisted q).mp hq
    rw [hfile.2] at haccepts ⊢
    exact hp below (hroot.isWay_of_file hd hfile.1) hfile.1 (CorpusFilter.lists_iff.mpr ⟨haccepts, hunpruned⟩)
  have hread : ∀ below, IsWay below → (d.file? (names ++ below)).isSome = true →
      (CorpusFilter.ofGlobs setup.root globs).lists setup.root below = true →
      t.Shows setup equal (pathBelow setup.root below) (d.read (pathBelow setup.root below)) := by
    intro below way hfile hlists
    obtain ⟨haccepts, hunpruned⟩ := CorpusFilter.lists_iff.mp hlists
    exact hrebuilt.read _ ((hlisted _).mpr ⟨below, ⟨hfile, rfl⟩, haccepts, hunpruned⟩)
  refine ⟨fun below text way hcorpus => ?_, fun below way hcorpus => ?_, fun p hp => ?_⟩
  · rw [corpus, Option.ite_none_right_eq_some] at hcorpus
    have hfile : (d.file? (names ++ below)).isSome = true := by rw [text?_eq_some_iff.mp hcorpus.2]; rfl
    exact (hroot.shows_of_read way (hread below way hfile hcorpus.1)).1 text hcorpus.2
  · by_cases hlists : (d.file? (names ++ below)).isSome = true ∧
        (CorpusFilter.ofGlobs setup.root globs).lists setup.root below = true
    · rw [corpus, if_pos hlists.2] at hcorpus
      exact (hroot.shows_of_read way (hread below way hlists.1 hlists.2)).2 hcorpus
    · refine hunlisted _ fun other hother hfile hlisted => ?_
      rw [← Bool.not_eq_true, same_pathBelow_iff habsolute way.named hother.named]
      rintro rfl
      exact hlists ⟨hfile, hlisted⟩
  · exact hunlisted p fun below way _ _ => hp below way

end ScannedAnew

end StepLink
