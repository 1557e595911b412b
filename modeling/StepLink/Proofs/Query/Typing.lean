import StepLink.Proofs.Query.Completion
import StepLink.Proofs.Text.Lowercase

/-! Completion while a pattern is being typed. What has been typed is lower-cased alone and the patterns are lower-cased
whole, so a pattern that contains it is offered, and one that starts with it is ranked as such, unless a capital sigma
ends a word in the one and not in the other. A pattern can then disappear although every letter of it is right. -/

namespace StepLink

namespace Indexes

variable {x : Indexes} {keyword : Option StepKeyword} {typed : Text} {c c' : Candidate}

/-- A candidate whose lower-cased pattern starts with what has been typed comes before one whose pattern does not. -/
theorem Current.prefix_candidates_first (h : x.Current) (hc : c ∈ (x.complete keyword typed).2)
    (hc' : c' ∈ (x.complete keyword typed).2)
    (hstarts : Text.lowercase (Text.trim typed) <+: Text.lowercase c.pattern)
    (hnot : ¬Text.lowercase (Text.trim typed) <+: Text.lowercase c'.pattern) :
    [c, c'].Sublist (x.complete keyword typed).2 := by
  rw [h.complete_eq_map] at hc hc' ⊢
  obtain ⟨i, hi, rfl⟩ := List.mem_map.mp hc
  obtain ⟨j, hj, rfl⟩ := List.mem_map.mp hc'
  exact (Completion.sublist_chosenPlaces hi hj (Completion.rank_lt_of_prefix hstarts hnot)).map
    fun i => Candidate.ofDefinition (List.get _ i)

/-- A pattern that contains what has been typed is offered, if no sigma of it is turned there. -/
theorem Current.offered_of_not_turnsSigma (h : x.Current) {d : Definition}
    (hd : d ∈ Definition.offered x.definitions.state.allItems keyword) {before after : Text}
    (hpattern : d.pattern = before ++ Text.trim typed ++ after)
    (hturns : ¬Text.TurnsSigma before (Text.trim typed) after) :
    d.pattern ∈ (x.complete keyword typed).2.map (·.pattern) := by
  refine h.mem_patterns_iff.mpr ⟨List.mem_map_of_mem hd, ?_⟩
  rw [hpattern]
  exact Text.lowercase_infix_of_not_turnsSigma hturns

end Indexes

/-- At every moment of every run, for every keyword and whatever has been typed, a pattern is offered exactly if its
lower-case form contains that of what has been typed. It does if the pattern contains what has been typed at a place
where no sigma is turned. A pattern that starts with what has been typed comes before those that do not in lower case,
if no sigma is turned; otherwise those that do come before it. Without a capital sigma typing never hides a pattern. -/
theorem Service.typed_pattern_offered_iff (root : Path) (definitions usages : Selection) (batchSize maxReplays : Nat)
    (acts : Nat → Act) (t : Nat) (keyword : Option StepKeyword) (typed : Text) :
    let x := ((new root definitions usages batchSize maxReplays).after acts t).indexes
    let pool := Definition.offered (x.definitions.state.files.flatMap (·.2)) keyword
    let fragment := Text.trim typed
    let needle := Text.lowercase fragment
    let offered := (x.complete keyword typed).2
    (∀ d ∈ pool, d.pattern ∈ offered.map (·.pattern) ↔ needle <:+: Text.lowercase d.pattern) ∧
    (∀ d ∈ pool, ∀ before after, d.pattern = before ++ fragment ++ after →
      ¬Text.TurnsSigma before fragment after → d.pattern ∈ offered.map (·.pattern)) ∧
    (∀ c ∈ offered, ∀ c' ∈ offered, ∀ after, c.pattern = fragment ++ after →
      (¬Text.TurnsSigma [] fragment after → ¬needle <+: Text.lowercase c'.pattern → [c, c'].Sublist offered) ∧
      (Text.TurnsSigma [] fragment after → needle <+: Text.lowercase c'.pattern → [c', c].Sublist offered)) ∧
    ('Σ' ∉ fragment →
      (∀ d ∈ pool, fragment <:+: d.pattern → d.pattern ∈ offered.map (·.pattern)) ∧
      ∀ c ∈ offered, ∀ c' ∈ offered, fragment <+: c.pattern → ¬needle <+: Text.lowercase c'.pattern →
        [c, c'].Sublist offered) := by
  intro x pool fragment needle offered
  have hcurrent : x.Current := current_after (current_new root definitions usages batchSize maxReplays) acts t
  have hstarts {c : Candidate} {after : Text} (hpattern : c.pattern = fragment ++ after) :
      needle <+: Text.lowercase c.pattern ↔ ¬Text.TurnsSigma [] fragment after := by
    rw [hpattern]
    exact Text.lowercase_prefix_iff_not_turnsSigma
  refine ⟨fun d hd => ?_, fun d hd before after => hcurrent.offered_of_not_turnsSigma hd,
    fun c hc c' hc' after hpattern => ⟨fun hturns => ?_, fun hturns hstarts' => ?_⟩, fun hsigma => ⟨?_, ?_⟩⟩
  · exact hcurrent.mem_patterns_iff.trans (and_iff_right (List.mem_map_of_mem hd))
  · exact hcurrent.prefix_candidates_first hc hc' ((hstarts hpattern).mpr hturns)
  · exact hcurrent.prefix_candidates_first hc' hc hstarts' (fun h => (hstarts hpattern).mp h hturns)
  · rintro d hd ⟨before, after, hpattern⟩
    exact hcurrent.offered_of_not_turnsSigma hd hpattern.symm (Text.not_turnsSigma_of_not_mem hsigma)
  · rintro c hc c' hc' ⟨after, hpattern⟩
    exact hcurrent.prefix_candidates_first hc hc'
      ((hstarts hpattern.symm).mpr (Text.not_turnsSigma_of_not_mem hsigma))

/-- A blank behind the sigma leaves it at the end of its word, and the pattern is offered, before one with the word at
its end. A letter behind it does not, and the pattern is missing. -/
theorem Service.typed_pattern_offered_iff_endOfWord :
    let source := "@given('ΑΣΑ')\n@given('x ΑΣ')\n@given('ΑΣ x')\ndef f():"
    let x := ((new ⟨"/w".toList⟩ ⟨[], []⟩ ⟨[], []⟩ 1 5).after (scanOf source) 6).indexes
    let offered := (x.complete (some .given) "ΑΣ".toList).2
    (∃ c ∈ offered, ∃ c' ∈ offered, c.pattern = "ΑΣ x".toList ∧ c'.pattern = "x ΑΣ".toList ∧
      [c, c'].Sublist offered) ∧ "ΑΣΑ".toList ∉ offered.map (·.pattern) := by
  intro source x offered
  obtain ⟨hoffered, -, hstarts, -⟩ := typed_pattern_offered_iff ⟨"/w".toList⟩ ⟨[], []⟩ ⟨[], []⟩ 1 5 (scanOf source)
    6 (some .given) "ΑΣ".toList
  have hpatterns : (Definition.offered (x.definitions.state.files.flatMap (·.2)) (some .given)).map (·.pattern) =
      ["ΑΣΑ".toList, "x ΑΣ".toList, "ΑΣ x".toList] := by decide +kernel
  have hspace : ¬Text.TurnsSigma [] "ΑΣ".toList " x".toList :=
    Text.lowercaseBetween_eq_lowercase_iff.mp (by decide +kernel)
  have hmem {p : Text} (hp : p ∈ ["ΑΣΑ".toList, "x ΑΣ".toList, "ΑΣ x".toList]) :
      p ∈ offered.map (·.pattern) ↔ Text.lowercase "ΑΣ".toList <:+: Text.lowercase p := by
    obtain ⟨d, hd, rfl⟩ := List.mem_map.mp (hpatterns ▸ hp)
    exact hoffered d hd
  refine ⟨?_, fun hmissing => absurd ((hmem (by decide +kernel)).mp hmissing) (by decide +kernel)⟩
  obtain ⟨c, hc, hpattern⟩ := List.mem_map.mp ((hmem (p := "ΑΣ x".toList) (by decide +kernel)).mpr (by decide +kernel))
  obtain ⟨c', hc', hpattern'⟩ :=
    List.mem_map.mp ((hmem (p := "x ΑΣ".toList) (by decide +kernel)).mpr (by decide +kernel))
  refine ⟨c, hc, c', hc', hpattern, hpattern', (hstarts c hc c' hc' _ hpattern).1 hspace ?_⟩
  rw [hpattern']
  decide +kernel

/-- The only pattern starts with what has been typed, and nothing is offered: alone the sigma ends a word, in the
pattern it does not. -/
theorem Service.not_typed_pattern_offered_sigma :
    let x := ((new ⟨"/w".toList⟩ ⟨[], []⟩ ⟨[], []⟩ 1 5).after (scanOf "@given('ΑΣΑ')\ndef f():\n  pass\n") 6).indexes
    let pool := Definition.offered (x.definitions.state.files.flatMap (·.2)) (some .given)
    Text.trim "ΑΣ".toList = "ΑΣ".toList ∧ (∃ d ∈ pool, "ΑΣ".toList <+: d.pattern) ∧
      (x.complete (some .given) "ΑΣ".toList).2 = [] := by
  intro x pool
  have hcurrent : x.Current := current_after (current_new _ _ _ _ _) _ _
  have hpool : pool.map (·.pattern) = ["ΑΣΑ".toList] := by decide +kernel
  refine ⟨by decide +kernel, ?_, List.eq_nil_iff_forall_not_mem.mpr fun c hc => ?_⟩
  · obtain ⟨d, hd, hpattern⟩ := List.mem_map.mp (hpool ▸ List.mem_singleton_self "ΑΣΑ".toList)
    exact ⟨d, hd, by rw [hpattern]; decide +kernel⟩
  · obtain ⟨hpattern, hwithin⟩ := hcurrent.mem_patterns_iff.mp (List.mem_map_of_mem hc)
    have hpattern : c.pattern ∈ pool.map (·.pattern) := hpattern
    rw [hpool, List.mem_singleton] at hpattern
    rw [hpattern] at hwithin
    exact absurd hwithin (by decide +kernel)

end StepLink
