import Mathlib.Data.Char
import Mathlib.Data.List.Lex
import StepLink.Proofs.Server.Replacement

/-! The texts by which an editor sorts the entries of a completion list. The text of a rank has five digits, and more
only where five do not suffice. Texts of equal length sort as their ranks do, so the entries are sorted as they were
ranked as long as five digits suffice for all of them; behind the rank of five nines they are not. -/

namespace StepLink

namespace Text

variable {s t : Text} {m n : Nat}

/-- The number that a text of digits stands for, behind the digits of another one. -/
def decimal (before : Nat) (digits : Text) : Nat :=
  Nat.ofDigitChars 10 digits before

theorem toNat_sub_lt_ten {c : Char} (h : c.isDigit = true) : c.toNat - '0'.toNat < 10 := by
  have hle : c.toNat ≤ '9'.toNat := (Char.isDigit_iff_toNat.mp h).2
  have hnine : '9'.toNat = '0'.toNat + 9 := rfl
  omega

/-- The greater number in front of as many digits makes the greater number. -/
theorem decimal_lt_of_lt (hs : ∀ c ∈ s, c.isDigit = true) (hlength : s.length = t.length) (hmn : m < n) :
    decimal m s < decimal n t := by
  induction s generalizing t m n with
  | nil =>
    obtain rfl := List.length_eq_zero_iff.mp hlength.symm
    exact hmn
  | cons c s ih =>
    cases t with
    | nil => cases hlength
    | cons d t =>
      obtain ⟨hc, hs⟩ := List.forall_mem_cons.mp hs
      have hten := toNat_sub_lt_ten hc
      rw [decimal, decimal, Nat.ofDigitChars_cons, Nat.ofDigitChars_cons]
      refine ih hs (Nat.succ.inj hlength) ?_
      omega

theorem decimal_lt (hs : ∀ c ∈ s, c.isDigit = true) (ht : ∀ c ∈ t, c.isDigit = true)
    (hlength : s.length = t.length) (hlt : s < t) : decimal n s < decimal n t := by
  induction s generalizing t n with
  | nil =>
    obtain rfl := List.length_eq_zero_iff.mp hlength.symm
    exact absurd hlt (lt_irrefl _)
  | cons c s ih =>
    cases t with
    | nil => cases hlength
    | cons d t =>
      obtain ⟨hc, hs⟩ := List.forall_mem_cons.mp hs
      have ht := (List.forall_mem_cons.mp ht).2
      have hlength := Nat.succ.inj hlength
      rw [decimal, decimal, Nat.ofDigitChars_cons, Nat.ofDigitChars_cons]
      rcases List.cons_lt_cons_iff.mp hlt with hcd | ⟨heq, hst⟩
      · refine decimal_lt_of_lt hs hlength ?_
        have hcd : c.toNat < d.toNat := hcd
        have hzero := (Char.isDigit_iff_toNat.mp hc).1
        omega
      · rw [heq]
        exact ih hs ht hlength hst

/-- Texts of digits that are equally long stand in the order of their numbers. -/
theorem lt_iff_decimal_lt (hs : ∀ c ∈ s, c.isDigit = true) (ht : ∀ c ∈ t, c.isDigit = true)
    (hlength : s.length = t.length) : s < t ↔ decimal 0 s < decimal 0 t := by
  refine ⟨decimal_lt hs ht hlength, fun h => ?_⟩
  rcases lt_trichotomy s t with hlt | rfl | hgt
  · exact hlt
  · exact absurd h (lt_irrefl _)
  · exact absurd h (lt_asymm (decimal_lt ht hs hlength.symm hgt))

end Text

namespace CompletionItem

variable {i j rank : Nat} {replaced : Span} {candidates : List Candidate}

/-- The number of entries whose ranks have five digits at most. -/
def sortable : Nat :=
  100000

theorem isDigit_of_mem_sortTextOf {c : Char} (h : c ∈ sortTextOf rank) : c.isDigit = true := by
  rcases List.mem_append.mp h with hzero | hdigit
  · rw [List.eq_of_mem_replicate hzero]
    rfl
  · exact Nat.isDigit_of_mem_toDigits (by decide) (by decide) hdigit

theorem decimal_sortTextOf (rank : Nat) : Text.decimal 0 (sortTextOf rank) = rank := by
  rw [Text.decimal, sortTextOf, Nat.ofDigitChars_append, Nat.ofDigitChars_replicate_zero, Nat.mul_zero,
    Nat.ofDigitChars_toDigits (by decide) (by decide)]

theorem length_sortTextOf (h : rank < sortable) : (sortTextOf rank).length = 5 := by
  have hle : (Nat.toDigits 10 rank).length ≤ 5 := (Nat.length_toDigits_le_iff (by decide) (by decide)).mpr h
  rw [sortTextOf, List.length_append, List.length_replicate]
  omega

theorem sortTextOf_lt_iff (hi : i < sortable) (hj : j < sortable) : sortTextOf i < sortTextOf j ↔ i < j := by
  have hlength := (length_sortTextOf hi).trans (length_sortTextOf hj).symm
  rw [Text.lt_iff_decimal_lt (fun _ => isDigit_of_mem_sortTextOf) (fun _ => isDigit_of_mem_sortTextOf) hlength,
    decimal_sortTextOf, decimal_sortTextOf]

/-- The first rank for which five digits do not suffice sorts before the last one for which they do. -/
theorem sortTextOf_sortable_lt : sortTextOf sortable < sortTextOf (sortable - 1) := by
  decide

theorem map_sortText_ofCandidates (replaced : Span) (candidates : List Candidate) :
    (ofCandidates replaced candidates).map (·.sortText) = (List.range candidates.length).map sortTextOf := by
  rw [ofCandidates, List.map_map, List.range_eq_range', ← List.zipIdx_map_snd, List.map_map]
  rfl

/-- A relation that holds between the texts of as many ranks as five digits suffice for, and not at their end, relates
the entries of a list to those behind them exactly if there are no more of them. -/
theorem pairwise_sortText_iff {R : Text → Text → Prop}
    (hbelow : ∀ {i j}, i < j → j < sortable → R (sortTextOf i) (sortTextOf j))
    (hend : ¬R (sortTextOf (sortable - 1)) (sortTextOf sortable)) :
    (ofCandidates replaced candidates).Pairwise (fun a b => R a.sortText b.sortText) ↔
      candidates.length ≤ sortable := by
  rw [← List.pairwise_map, map_sortText_ofCandidates, List.pairwise_map]
  constructor
  · intro h
    by_contra hmore
    refine hend ?_
    have hlast := List.pairwise_iff_getElem.mp h (sortable - 1) sortable
    simp only [List.length_range, List.getElem_range] at hlast
    exact hlast (by omega) (by omega) (by decide)
  · intro h
    refine List.pairwise_lt_range.imp_of_mem fun _ hj hij => hbelow hij ?_
    exact Nat.lt_of_lt_of_le (List.mem_range.mp hj) h

/-- An editor that sorts entries by their texts shows them in this order. -/
structure ShownAs (items shown : List CompletionItem) : Prop where
  perm : shown.Perm items
  sorted : shown.Pairwise fun a b => a.sortText ≤ b.sortText

theorem pairwise_lt_iff : (ofCandidates replaced candidates).Pairwise (fun a b => a.sortText < b.sortText) ↔
    candidates.length ≤ sortable :=
  pairwise_sortText_iff (fun hij hj => (sortTextOf_lt_iff (hij.trans hj) hj).mpr hij)
    (not_lt_of_gt sortTextOf_sortable_lt)

theorem pairwise_le_iff : (ofCandidates replaced candidates).Pairwise (fun a b => a.sortText ≤ b.sortText) ↔
    candidates.length ≤ sortable :=
  pairwise_sortText_iff (fun hij hj => le_of_lt ((sortTextOf_lt_iff (hij.trans hj) hj).mpr hij))
    (not_le_of_gt sortTextOf_sortable_lt)

/-- Some order is shown. -/
theorem exists_shownAs (items : List CompletionItem) : ∃ shown, ShownAs items shown := by
  refine ⟨items.mergeSort fun a b => decide (a.sortText ≤ b.sortText), List.mergeSort_perm _ _, ?_⟩
  refine (List.pairwise_mergeSort (fun a b c hab hbc => ?_) (fun a b => ?_) items).imp of_decide_eq_true
  · exact decide_eq_true (le_trans (of_decide_eq_true hab) (of_decide_eq_true hbc))
  · rw [Bool.or_eq_true, decide_eq_true_iff, decide_eq_true_iff]
    exact le_total _ _

/-- Where the texts increase along the entries, only their own order is shown. -/
theorem ShownAs.eq {items shown : List CompletionItem} (h : ShownAs items shown)
    (hitems : items.Pairwise fun a b => a.sortText < b.sortText) : shown = items := by
  have hdistinct : (items.map (·.sortText)).Nodup := List.pairwise_map.mpr (hitems.imp ne_of_lt)
  refine List.Perm.eq_of_pairwise (fun a b ha hb hab hba => ?_) h.sorted (hitems.imp le_of_lt) h.perm
  exact List.inj_on_of_nodup_map hdistinct (h.perm.mem_iff.mp ha) hb (le_antisymm hab hba)

theorem shownAs_eq_iff : (∀ shown, ShownAs (ofCandidates replaced candidates) shown →
    shown = ofCandidates replaced candidates) ↔ candidates.length ≤ sortable := by
  constructor
  · intro h
    obtain ⟨shown, hshown⟩ := exists_shownAs (ofCandidates replaced candidates)
    have hsorted := hshown.sorted
    rw [h shown hshown] at hsorted
    exact pairwise_le_iff.mp hsorted
  · exact fun h shown hshown => hshown.eq (pairwise_lt_iff.mpr h)

end CompletionItem

/-- The texts of the entries for ranked candidates increase along the list exactly if there are no more than 100000 of
them, and just then an editor that sorts the entries by these texts is bound to show them in that order. Whenever a
server offers entries, they are those for the candidates of its indexes, in the order in which these are ranked. -/
theorem Server.completion_order_shown_iff (replaced : Span) (candidates : List Candidate) :
    (let items := CompletionItem.ofCandidates replaced candidates;
      (items.Pairwise (fun a b => a.sortText < b.sortText) ↔ candidates.length ≤ 100000) ∧
        ((∀ shown, CompletionItem.ShownAs items shown → shown = items) ↔ candidates.length ≤ 100000)) ∧
    ∀ (s : Server) (disk : Disk) (document : Uri) (cursor : Position) (items : List CompletionItem),
      (s.answer disk (.completion document cursor)).2.1 = .ok (.items items) →
      ∃ x p lineAt token typed replaced, s.indexes = some x ∧ items =
        CompletionItem.ofCandidates replaced ((x.hasFeatures p).1.completeAt lineAt cursor.line token typed).2 := by
  refine ⟨⟨CompletionItem.pairwise_lt_iff, CompletionItem.shownAs_eq_iff⟩, fun s disk document cursor items h => ?_⟩
  obtain ⟨p, x, -, hindexes, hitems⟩ := exists_indexes_of_answer h
  obtain ⟨text, line, typed, token, -, -, -, -, hcandidates⟩ := Indexes.exists_candidates_of_answerCompletion hitems
  exact ⟨x, p, _, _, _, _, hindexes, hcandidates⟩

/-- A candidate whose pattern is a number. -/
def Candidate.numbered (number : Nat) : Candidate :=
  let pattern := Nat.toDigits 10 number
  ⟨pattern, Snippet.ofPattern pattern, ⟨⟨"/w/steps.py".toList⟩, number, 0⟩, .any, none⟩

/-- What is offered behind a character of two units is one entry, and an editor has no choice but to show as many as
there are five digits for in the order in which they were ranked. -/
theorem Server.completion_order_shown_iff_astral :
    let answered := (typingServer.answer .empty (.completion ⟨none, some ["w".toList, "a.feature".toList]⟩ ⟨0, 10⟩)).2.1
    let entries := CompletionItem.ofCandidates ⟨⟨0, 8⟩, ⟨0, 10⟩⟩ ((List.range 100000).map Candidate.numbered)
    (∃ items replaced candidates, answered = .ok (.items items) ∧ items.length = 1 ∧
      items = CompletionItem.ofCandidates replaced candidates) ∧
    entries.Pairwise (fun a b => a.sortText < b.sortText) ∧
      ∀ shown, CompletionItem.ShownAs entries shown → shown = entries := by
  intro answered entries
  have hanswered : answered =
      .ok (.items [⟨"😀 b".toList, some ['f'], "00000".toList, ⟨⟨0, 8⟩, ⟨0, 10⟩⟩, "😀 b".toList⟩]) := by
    decide +kernel
  obtain ⟨⟨hincrease, hshown⟩, hoffered⟩ :=
    completion_order_shown_iff ⟨⟨0, 8⟩, ⟨0, 10⟩⟩ ((List.range 100000).map Candidate.numbered)
  obtain ⟨x, p, lineAt, token, typed, replaced, -, hitems⟩ := hoffered _ _ _ _ _ hanswered
  have hlength : ((List.range 100000).map Candidate.numbered).length ≤ 100000 := by
    rw [List.length_map, List.length_range]
  exact ⟨⟨_, _, _, hanswered, rfl, hitems⟩, hincrease.mpr hlength, hshown.mpr hlength⟩

/-- With one candidate more, the text of the last entry comes before that of the one in front of it, and an editor may
show them in another order. -/
theorem CompletionItem.not_order_shown_sixDigits :
    let entries := ofCandidates ⟨⟨0, 6⟩, ⟨0, 6⟩⟩ ((List.range 100001).map Candidate.numbered)
    ¬entries.Pairwise (fun a b => a.sortText < b.sortText) ∧ ∃ shown, ShownAs entries shown ∧ shown ≠ entries := by
  intro entries
  have hmore : ¬((List.range 100001).map Candidate.numbered).length ≤ sortable := by
    rw [List.length_map, List.length_range]
    decide
  refine ⟨mt pairwise_lt_iff.mp hmore, ?_⟩
  by_contra hnone
  have hall : ∀ shown, ShownAs entries shown → shown = entries := fun shown hshown => by
    by_contra hne
    exact hnone ⟨shown, hshown, hne⟩
  exact hmore (shownAs_eq_iff.mp hall)

end StepLink
