import StepLink.Proofs.Index.Handling

/-! What a scan of one file does to the entries of other files. A read that finds a text has no part in them. A read
that fails is taken in as a removal of the path, and a removal goes for what is tracked below the path as well. -/

namespace StepLink

open IndexState

variable {α : Type} {setup : IndexSetup α} {equal : α → α → Prop} {world : World} {s t u : IndexState α} {p : Path}

theorem Call.Ends.eq_iff {c : Call} (h : c.Ends setup world s t) (hc : c.isPlain = true) :
    c.Ends setup world s u ↔ u = t :=
  ⟨h.unique hc, fun heq => heq ▸ h⟩

/-- On an index that is in use and on which nothing else is going on, a scan of a path and a removal of it each
come to one state. The scan leaves the entry of the path as the read has found it. If a text was found, the other
entries stay as they are; if the read failed, the scan leaves the entries that the removal leaves, and the removal
takes away those of the path and of all that is below. So a scan keeps the other entries exactly if a text was found
or nothing else was tracked below the path. -/
theorem scan_keeps_others_iff (hindex : StepIndex setup equal) (hs : Reachable setup s)
    (hlive : s.isDisposed = false) (hidle : s.scanning = []) (world : World) (p : Path) :
    ∃ t r, (∀ u, (Call.scan ⟨p, .entering⟩).Ends setup world s u ↔ u = t) ∧
      (∀ u, (Call.removing p).Ends setup world s u ↔ u = r) ∧
      SameCourse s t ∧ t.Shows setup equal p (world.read p) ∧
      (∀ text, world.read p = .ok text → ∀ q, p.same q = false → t.items? q = s.items? q) ∧
      (∀ e, world.read p = .error e → ∀ q, t.items? q = r.items? q) ∧
      (∀ q, r.items? q = if q.startsWith p then none else s.items? q) ∧
      ((∀ q, p.same q = false → t.items? q = s.items? q) ↔
        (∃ text, world.read p = .ok text) ∨ s.IsBareBelow p) := by
  obtain ⟨pathOf, law⟩ := hindex.lawful
  have hrest : AtRest setup pathOf s.globs s := ⟨hs.sound law, hlive, hidle, rfl⟩
  have hscan := Call.Ends.entering setup world hlive hidle p
  have hremoval := Call.Ends.removing setup world s p
  have hremoved := items?_dropBelow s p true
  refine ⟨s.scanOnce setup world p, (s.dropBelow p true).1, fun u => hscan.eq_iff rfl, fun u => hremoval.eq_iff rfl,
    hscan.course rfl, hrest.shows_scanOnce law world p, fun text hread q => items?_scanOnce_of_ok hread,
    fun e hread q => ?_, hremoved, items?_scanOnce_eq_iff setup world s p⟩
  rw [hremoved, items?_scanOnce_of_error hread]

/-- Two documents are open, one of them below the path of the other. -/
def nestedWorld : World :=
  ⟨⟨[(⟨"/w/a.feature".toList⟩, ⟨"Given a".toList, 1⟩), (⟨"/w/a.feature/b.feature".toList⟩, ⟨"Given b".toList, 1⟩)]⟩,
    .empty⟩

/-- The lower one is scanned. -/
def nestedScan : Nat → Move
  | 0 => .start (.scanFile ⟨"/w/a.feature/b.feature".toList⟩)
  | _ => .advance 0 nestedWorld 0

/-- A scan of the upper document keeps the entry of the lower one, and a removal takes both away. -/
theorem scan_keeps_others_iff_bothOpen :
    let setup := (UsageIndex.new ⟨"/w".toList⟩ ⟨[], []⟩ 1 5).setup
    let s := ((Traffic.new ⟨[], []⟩).after setup nestedScan 6).index
    let upper : Path := ⟨"/w/a.feature".toList⟩
    let lower : Path := ⟨"/w/a.feature/b.feature".toList⟩
    Reachable setup s ∧ s.isDisposed = false ∧ s.scanning = [] ∧ s.isTracked lower = true ∧
      ∃ t r, (Call.scan ⟨upper, .entering⟩).Ends setup nestedWorld s t ∧
        (Call.removing upper).Ends setup nestedWorld s r ∧ t.items? lower = s.items? lower ∧
        t.isTracked upper = true ∧ r.isTracked lower = false := by
  intro setup s upper lower
  have hreachable : Reachable setup s := ⟨⟨[], []⟩, nestedScan, 6, rfl⟩
  have hlive : s.isDisposed = false := by decide +kernel
  have hidle : s.scanning = [] := by decide +kernel
  obtain ⟨t, r, hscan, hremoval, -, ⟨items, hitems, -⟩, hkeeps, -, hdrops, -⟩ :=
    scan_keeps_others_iff (.usages _ ⟨[], []⟩ _ _) hreachable hlive hidle nestedWorld upper
  refine ⟨hreachable, hlive, hidle, by decide +kernel, t, r, (hscan t).mpr rfl, (hremoval r).mpr rfl,
    hkeeps "Given a".toList rfl lower (by decide), ?_, ?_⟩
  · rw [isTracked, hitems]
    rfl
  · rw [isTracked, hdrops, if_pos (by decide)]
    rfl

/-- Of the two only the lower document is open, and nothing has been saved: a scan of the upper path finds no file
and takes away the entry of the lower one, which is a path of its own. -/
theorem not_scan_keeps_others_missingAbove :
    let setup := (UsageIndex.new ⟨"/w".toList⟩ ⟨[], []⟩ 1 5).setup
    let s := ((Traffic.new ⟨[], []⟩).after setup nestedScan 6).index
    let upper : Path := ⟨"/w/a.feature".toList⟩
    let lower : Path := ⟨"/w/a.feature/b.feature".toList⟩
    let world : World := ⟨nestedWorld.documents.close upper, .empty⟩
    Reachable setup s ∧ s.isDisposed = false ∧ s.scanning = [] ∧ world.read lower = .ok "Given b".toList ∧
      upper.same lower = false ∧ s.isTracked lower = true ∧
      ∃ t, (Call.scan ⟨upper, .entering⟩).Ends setup world s t ∧ t.isTracked lower = false ∧
        ¬∀ q, upper.same q = false → t.items? q = s.items? q := by
  intro setup s upper lower world
  have hlive : s.isDisposed = false := by decide +kernel
  have hidle : s.scanning = [] := by decide +kernel
  have hapart : upper.same lower = false := by decide
  have htracked : s.isTracked lower = true := by decide +kernel
  have hlost : (s.scanOnce setup world upper).isTracked lower = false := by decide +kernel
  refine ⟨⟨⟨[], []⟩, nestedScan, 6, rfl⟩, hlive, hidle, rfl, hapart, htracked, s.scanOnce setup world upper,
    .entering setup world hlive hidle upper, hlost, fun hkeeps => ?_⟩
  rw [isTracked, hkeeps lower hapart, ← isTracked, htracked] at hlost
  cases hlost

end StepLink
