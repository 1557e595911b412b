import StepLink.Query.References

/-! Blocks of decorators. The lines that stand for one function follow each other without a gap: decorators,
comments and blank lines, down to the function itself. The decorators of the function at a line are those of the
block that the line belongs to, whichever line of the block it is. -/

namespace StepLink

/-- A line that may stand in a block above a function. -/
def isBlockLine (line : Text) : Bool :=
  isDecoratorLine line || isFillerLine line

/-- The line of the index is there and may stand in a block. -/
def IsBlockAt (lines : List Text) (i : Nat) : Prop :=
  ∃ line, lines[i]? = some line ∧ isBlockLine line = true

/-- The second line belongs to the block of the first: below both of them there is one line at which the block
ends, with nothing but lines of a block down to it. -/
def InBlock (lines : List Text) (l j : Nat) : Prop :=
  ∃ stop, l ≤ stop ∧ j < stop ∧ ¬IsBlockAt lines stop ∧ ∀ i, min l j ≤ i → i < stop → IsBlockAt lines i

variable {lines : List Text} {line : Text} {d : Decorator} {i j l m : Nat}

theorem not_isBlockAt_of_le (h : lines.length ≤ i) : ¬IsBlockAt lines i := by
  rintro ⟨line, hline, -⟩
  rw [List.getElem?_eq_none h] at hline
  cases hline

theorem isBlockAt_drop : IsBlockAt (lines.drop l) i ↔ IsBlockAt lines (l + i) := by
  rw [IsBlockAt, IsBlockAt, List.getElem?_drop]

/-- The lines that are counted may stand in a block, and the one behind them may not. -/
theorem blockLength_spec (lines : List Text) :
    ¬IsBlockAt lines (blockLength lines) ∧ ∀ i < blockLength lines, IsBlockAt lines i := by
  induction lines with
  | nil => exact ⟨not_isBlockAt_of_le (Nat.zero_le _), fun i hi => absurd hi (Nat.not_lt_zero i)⟩
  | cons line lines ih =>
    have hsucc : ∀ i, IsBlockAt (line :: lines) (i + 1) ↔ IsBlockAt lines i := fun i => Iff.rfl
    rw [blockLength]
    split
    next hline =>
      refine ⟨mt (hsucc _).mp ih.1, fun i hi => ?_⟩
      cases i with
      | zero => exact ⟨line, rfl, hline⟩
      | succ i => exact (hsucc i).mpr (ih.2 i (Nat.lt_of_succ_lt_succ hi))
    next hline =>
      refine ⟨?_, fun i hi => absurd hi (Nat.not_lt_zero i)⟩
      rintro ⟨_, hfirst, hblock⟩
      cases hfirst
      exact hline hblock

theorem isDecoratorLine_of_ofLine? (h : Decorator.ofLine? line = some d) : isDecoratorLine line = true := by
  obtain ⟨shape, -, hshape⟩ := List.exists_of_findSome?_eq_some h
  obtain ⟨found, hcaptures, -⟩ := Option.bind_eq_some_iff.mp hshape
  rw [Decorator.captures?] at hcaptures
  split at hcaptures
  next t hbody => rw [isDecoratorLine, hbody]; rfl
  next => cases hcaptures

theorem isFillerLine_of_ofLine? (h : Decorator.ofLine? line = some d) : isFillerLine line = false := by
  have hdecorator := isDecoratorLine_of_ofLine? h
  rw [isDecoratorLine] at hdecorator
  rw [isFillerLine]
  cases hbody : Text.trimStart line with
  | nil =>
    rw [hbody] at hdecorator
    cases hdecorator
  | cons c t =>
    rw [hbody] at hdecorator
    obtain rfl : c = '@' := by simpa using hdecorator
    rfl

/-- The line at which the block of a line ends, that of the function. -/
def blockEnd (lines : List Text) (l : Nat) : Nat :=
  l + blockLength (lines.drop l)

theorem not_isBlockAt_blockEnd (lines : List Text) (l : Nat) : ¬IsBlockAt lines (blockEnd lines l) :=
  mt isBlockAt_drop.mpr (blockLength_spec (lines.drop l)).1

theorem isBlockAt_of_lt_blockEnd (hl : l ≤ i) (hi : i < blockEnd lines l) : IsBlockAt lines i := by
  obtain ⟨n, rfl⟩ := Nat.exists_eq_add_of_le hl
  exact isBlockAt_drop.mp ((blockLength_spec (lines.drop l)).2 n (by rw [blockEnd] at hi; omega))

/-- A line with nothing but lines of a block down to it ends the block, unless it may stand in one itself. -/
theorem eq_blockEnd {stop : Nat} (hl : l ≤ stop) (hstop : ¬IsBlockAt lines stop)
    (hblock : ∀ i, l ≤ i → i < stop → IsBlockAt lines i) : stop = blockEnd lines l := by
  refine Nat.le_antisymm (Nat.le_of_not_lt fun hlt => ?_) (Nat.le_of_not_lt fun hlt => ?_)
  · exact not_isBlockAt_blockEnd lines l (hblock _ (Nat.le_add_right l _) hlt)
  · exact hstop (isBlockAt_of_lt_blockEnd hl hlt)

theorem inBlock_iff :
    InBlock lines l j ↔ j < blockEnd lines l ∧ ∀ i, j ≤ i → i < blockEnd lines l → IsBlockAt lines i := by
  constructor
  · rintro ⟨stop, hl, hj, hstop, hblock⟩
    obtain rfl : stop = blockEnd lines l :=
      eq_blockEnd hl hstop fun i hli => hblock i (Nat.le_trans (Nat.min_le_left l j) hli)
    exact ⟨hj, fun i hji hi => hblock i (Nat.le_trans (Nat.min_le_right l j) hji) hi⟩
  · rintro ⟨hj, hblock⟩
    refine ⟨blockEnd lines l, Nat.le_add_right l _, hj, not_isBlockAt_blockEnd lines l, fun i hmin hi => ?_⟩
    by_cases hji : j ≤ i
    · exact hblock i hji hi
    · exact isBlockAt_of_lt_blockEnd (by omega) hi

/-- The block of a line ends where that of a lower line ends, if nothing but lines of a block is between. -/
theorem blockEnd_eq_of_le (hle : l ≤ m) (hblock : ∀ i, l ≤ i → i < m → IsBlockAt lines i) :
    blockEnd lines l = blockEnd lines m := by
  refine (eq_blockEnd (Nat.le_trans hle (Nat.le_add_right m _)) (not_isBlockAt_blockEnd lines m) ?_).symm
  intro i hli hi
  by_cases him : i < m
  · exact hblock i hli him
  · exact isBlockAt_of_lt_blockEnd (Nat.le_of_not_lt him) hi

theorem InBlock.blockEnd_eq (h : InBlock lines l j) : blockEnd lines j = blockEnd lines l := by
  obtain ⟨hj, hblock⟩ := inBlock_iff.mp h
  exact (eq_blockEnd (Nat.le_of_lt hj) (not_isBlockAt_blockEnd lines l) hblock).symm

/-- The first line of the block that ends before a line. -/
def blockStart (lines : List Text) : Nat → Nat
  | 0 => 0
  | n + 1 => if lines[n]?.any isBlockLine then blockStart lines n else n + 1

theorem isBlockAt_iff_any : IsBlockAt lines i ↔ lines[i]?.any isBlockLine = true :=
  (Option.any_eq_true _ _).symm

theorem blockStart_le (lines : List Text) (n : Nat) : blockStart lines n ≤ n := by
  induction n with
  | zero => exact Nat.le_refl 0
  | succ n ih =>
    rw [blockStart]
    split
    · exact Nat.le_succ_of_le ih
    · exact Nat.le_refl _

theorem blockStart_le_iff {n : Nat} (hj : j < n) :
    blockStart lines n ≤ j ↔ ∀ i, j ≤ i → i < n → IsBlockAt lines i := by
  induction n with
  | zero => cases hj
  | succ n ih =>
    rw [blockStart]
    split
    next hlast =>
      rw [← isBlockAt_iff_any] at hlast
      rcases Nat.lt_succ_iff_lt_or_eq.mp hj with hj | rfl
      · rw [ih hj]
        refine ⟨fun h i hji hi => ?_, fun h i hji hi => h i hji (Nat.lt_succ_of_lt hi)⟩
        rcases Nat.lt_succ_iff_lt_or_eq.mp hi with hi | rfl
        · exact h i hji hi
        · exact hlast
      · refine ⟨fun _ i hji hi => ?_, fun _ => blockStart_le lines j⟩
        obtain rfl : i = j := by omega
        exact hlast
    next hlast =>
      rw [← isBlockAt_iff_any] at hlast
      refine ⟨fun h => by omega, fun h => absurd (h n (Nat.le_of_lt_succ hj) (Nat.lt_succ_self n)) hlast⟩

/-- The lines of a block follow each other without a gap. -/
theorem inBlock_iff_between :
    InBlock lines l j ↔ blockStart lines (blockEnd lines l) ≤ j ∧ j < blockEnd lines l := by
  rw [inBlock_iff, and_comm]
  exact and_congr_left fun hj => (blockStart_le_iff hj).symm

/-- The walk upwards comes across the lines of the block that ends where it starts. -/
theorem reverse_decoratorsAbove {n : Nat} (hn : n ≤ lines.length) :
    (decoratorsAbove (lines.take n).reverse).reverse =
      ((lines.take n).drop (blockStart lines n)).filterMap Decorator.ofLine? := by
  induction n with
  | zero => rfl
  | succ n ih =>
    have hlast : lines[n]? = some lines[n] := List.getElem?_eq_getElem hn
    have hdrop : (lines.take n ++ [lines[n]]).drop (blockStart lines n) =
        (lines.take n).drop (blockStart lines n) ++ [lines[n]] := by
      apply List.drop_append_of_le_length
      rw [List.length_take_of_le (Nat.le_of_succ_le hn)]
      exact blockStart_le lines n
    have htake : lines.take (n + 1) = lines.take n ++ [lines[n]] := (List.take_append_getElem hn).symm
    rw [htake, List.reverse_append, List.reverse_singleton, List.singleton_append, decoratorsAbove, blockStart, hlast,
      Option.any_some, isBlockLine]
    split
    next hfiller =>
      have hnone : Decorator.ofLine? lines[n] = none := by
        rw [Option.eq_none_iff_forall_ne_some]
        intro d hd
        rw [isFillerLine_of_ofLine? hd] at hfiller
        cases hfiller
      rw [hfiller, Bool.or_true, if_pos rfl, hdrop, List.filterMap_append, ih (Nat.le_of_succ_le hn)]
      simp [hnone]
    next hfiller =>
      split
      next hdecorator =>
        rw [hdecorator, Bool.true_or, if_pos rfl, hdrop, List.filterMap_append, List.reverse_append,
          ih (Nat.le_of_succ_le hn)]
        cases hd : Decorator.ofLine? lines[n] <;> simp [hd]
      next hdecorator =>
        have hlength : (lines.take n ++ [lines[n]]).length ≤ n + 1 := by
          rw [← htake]
          exact List.length_take_le _ _
        rw [Bool.eq_false_iff.mpr hfiller, Bool.eq_false_iff.mpr hdecorator, Bool.or_false,
          if_neg Bool.false_ne_true, List.drop_eq_nil_of_le hlength]
        rfl

/-- The decorators of the function at a line are those on the lines of its block, in the order of the lines. -/
theorem decoratorsFor_eq (lines : List Text) (l : Nat) : decoratorsFor lines l =
    ((lines.take (blockEnd lines l)).drop (blockStart lines (blockEnd lines l))).filterMap Decorator.ofLine? := by
  have hfor : decoratorsFor lines l = if blockEnd lines l ≤ lines.length then
      (decoratorsAbove (lines.take (blockEnd lines l)).reverse).reverse else [] := rfl
  rw [hfor]
  split
  next hle => exact reverse_decoratorsAbove hle
  next hgt =>
    have hlt : lines.length < blockEnd lines l := Nat.lt_of_not_le hgt
    have hstart : lines.length ≤ blockStart lines (blockEnd lines l) := by
      refine Nat.le_of_not_le fun hle => ?_
      exact not_isBlockAt_of_le (Nat.le_refl _) ((blockStart_le_iff hlt).mp hle _ (Nat.le_refl _) hlt)
    rw [List.drop_eq_nil_of_le (Nat.le_trans (List.length_take_le' _ _) hstart)]
    rfl

theorem decoratorsFor_congr (h : blockEnd lines l = blockEnd lines m) :
    decoratorsFor lines l = decoratorsFor lines m := by
  rw [decoratorsFor_eq, decoratorsFor_eq, h]

theorem mem_decoratorsFor : d ∈ decoratorsFor lines l ↔
    ∃ j line, lines[j]? = some line ∧ Decorator.ofLine? line = some d ∧ InBlock lines l j := by
  rw [decoratorsFor_eq, List.mem_filterMap]
  simp only [inBlock_iff_between]
  constructor
  · rintro ⟨line, hline, hd⟩
    obtain ⟨n, hn⟩ := List.mem_iff_getElem?.mp hline
    rw [List.getElem?_drop, List.getElem?_take] at hn
    split at hn
    next hlt => exact ⟨_, line, hn, hd, Nat.le_add_right _ n, hlt⟩
    next => cases hn
  · rintro ⟨j, line, hline, hd, hstart, hstop⟩
    refine ⟨line, List.mem_iff_getElem?.mpr ⟨j - blockStart lines (blockEnd lines l), ?_⟩, hd⟩
    rw [List.getElem?_drop, Nat.add_sub_cancel' hstart, List.getElem?_take_of_lt hstop, hline]

end StepLink
