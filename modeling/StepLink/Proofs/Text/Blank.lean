import Mathlib.Data.List.DropRight
import StepLink.Text.Blank
import StepLink.Text.Fold
import StepLink.Text.Word

/-! Blanks at the ends of texts. Trimming takes away all of them, so that it does nothing when it is repeated; and no
blank is a word character, or folds with another character. -/

namespace StepLink.Text

section

variable {α : Type} {p : α → Bool} {a : α} {l l' : List α}

theorem takeWhile_append_of_head (h : ∀ a ∈ l, p a = true) (hhead : ∀ a ∈ l'.head?, p a = false) :
    (l ++ l').takeWhile p = l := by
  rw [List.takeWhile_append_of_pos h]
  cases l' with
  | nil => exact List.append_nil l
  | cons b l' => rw [List.takeWhile_cons_of_neg (ne_true_of_eq_false (hhead b rfl)), List.append_nil]

theorem dropWhile_append_of_head (h : ∀ a ∈ l, p a = true) (hhead : ∀ a ∈ l'.head?, p a = false) :
    (l ++ l').dropWhile p = l' := by
  rw [List.dropWhile_append_of_pos h]
  cases l' with
  | nil => rfl
  | cons b l' => rw [List.dropWhile_cons_of_neg (ne_true_of_eq_false (hhead b rfl))]

theorem not_of_mem_head?_dropWhile (h : a ∈ (l.dropWhile p).head?) : p a = false := by
  have hnot := List.head?_dropWhile_not p l
  rw [Option.mem_def.mp h] at hnot
  simpa using hnot

end

theorem trimEnd_trimEnd (t : Text) : trimEnd (trimEnd t) = trimEnd t :=
  List.rdropWhile_idempotent isBlank t

theorem trimStart_trimStart (t : Text) : trimStart (trimStart t) = trimStart t :=
  List.dropWhile_idempotent isBlank t

/-- A text that starts with no blank still does so without the blanks at its end. -/
theorem trimStart_trimEnd {t : Text} (h : trimStart t = t) : trimStart (trimEnd t) = trimEnd t := by
  rw [trimStart, List.dropWhile_eq_self_iff] at h ⊢
  intro hlength
  have hprefix : trimEnd t <+: t := List.rdropWhile_prefix isBlank t
  have hlength' : 0 < t.length := Nat.lt_of_lt_of_le hlength hprefix.length_le
  have hhead : (trimEnd t)[0] = t[0] := hprefix.getElem hlength
  rw [hhead]
  exact h hlength'

theorem trim_trim (t : Text) : trim (trim t) = trim t := by
  rw [trim, trim, trimStart_trimEnd (trimStart_trimStart t), trimEnd_trimEnd]

theorem trimStart_cons {c : Char} (h : isBlank c = false) (t : Text) : trimStart (c :: t) = c :: t :=
  List.dropWhile_cons_of_neg (ne_true_of_eq_false h)

theorem trimStart_eq_self {t : Text} (h : ∀ c ∈ t.head?, isBlank c = false) : trimStart t = t := by
  cases t with
  | nil => rfl
  | cons c t => exact trimStart_cons (h c rfl) t

theorem not_isBlank_of_mem_head?_trimStart {t : Text} {c : Char} (h : c ∈ (trimStart t).head?) :
    isBlank c = false :=
  not_of_mem_head?_dropWhile h

theorem not_isBlank_of_mem_getLast?_trimEnd {t : Text} {c : Char} (h : c ∈ (trimEnd t).getLast?) :
    isBlank c = false := by
  rw [trimEnd, List.getLast?_reverse] at h
  exact not_isBlank_of_mem_head?_trimStart h

/-- A text without a blank is trimmed. -/
theorem trim_eq_self {t : Text} (h : ∀ c ∈ t, isBlank c = false) : trim t = t := by
  have hstart : trimStart t = t :=
    List.dropWhile_eq_self_iff.mpr fun hlength => ne_true_of_eq_false (h _ (List.getElem_mem hlength))
  have hend : trimEnd t = t :=
    List.rdropWhile_eq_self_iff.mpr fun hne => ne_true_of_eq_false (h _ (List.getLast_mem hne))
  rw [trim, hstart, hend]

def IsBlanks (t : Text) : Prop :=
  ∀ c ∈ t, isBlank c = true

theorem IsBlanks.trimStart_append {b : Text} (hb : IsBlanks b) (t : Text) : trimStart (b ++ t) = trimStart t :=
  List.dropWhile_append_of_pos hb

theorem exists_blanks (t : Text) : ∃ b, IsBlanks b ∧ t = b ++ trimStart t :=
  ⟨t.takeWhile isBlank, fun _ => List.mem_takeWhile_imp, List.takeWhile_append_dropWhile.symm⟩

theorem exists_blanks_behind (t : Text) : ∃ b, IsBlanks b ∧ t = trimEnd t ++ b :=
  ⟨t.rtakeWhile isBlank, fun _ => List.mem_rtakeWhile_imp, List.rdropWhile_append_rtakeWhile.symm⟩

def blankPoints : List Nat :=
  [9, 10, 11, 12, 13, 0x20, 0x85, 0xa0, 0x1680, 0x2000, 0x2001, 0x2002, 0x2003, 0x2004, 0x2005, 0x2006, 0x2007, 0x2008,
    0x2009, 0x200a, 0x2028, 0x2029, 0x202f, 0x205f, 0x3000]

variable {c : Char}

theorem toNat_mem_blankPoints (h : isBlank c = true) : c.toNat ∈ blankPoints := by
  simp only [isBlank, Bool.or_eq_true, Bool.and_eq_true, decide_eq_true_eq, beq_iff_eq] at h
  simp only [blankPoints, List.mem_cons, List.not_mem_nil, or_false]
  omega

theorem not_isWord_of_isBlank (h : isBlank c = true) : isWord c = false := by
  have hpoints : ∀ n ∈ blankPoints, inSpans wordSpans n = false := by decide +kernel
  exact hpoints _ (toNat_mem_blankPoints h)

theorem toLower_of_isBlank (h : isBlank c = true) : c.toLower = c := by
  have hpoints : ∀ n ∈ blankPoints, (Char.ofNat n).toLower = Char.ofNat n := by decide +kernel
  have hpoint := hpoints _ (toNat_mem_blankPoints h)
  rwa [Char.ofNat_toNat] at hpoint

theorem fold_of_isBlank (h : isBlank c = true) : fold c = c := by
  have hpoints : ∀ n ∈ blankPoints, mapRuns foldRuns n = n := by decide +kernel
  rw [fold, hpoints _ (toNat_mem_blankPoints h), Char.ofNat_toNat]

/-- What the code points of ASCII have, all characters of ASCII have. -/
theorem of_forall_ascii {p : Char → Prop} (h : ∀ n < 128, p (Char.ofNat n)) (hc : c.toNat < 128) : p c := by
  have hpoint := h _ hc
  rwa [Char.ofNat_toNat] at hpoint

theorem toNat_lt_of_isAlpha (h : c.isAlpha = true) : c.toNat < 128 := by
  have hcases : (c.isUpper || c.isLower) = true := h
  rcases Bool.or_eq_true_iff.mp hcases with hupper | hlower
  · have hle : c.val ≤ 'Z'.val := (of_decide_eq_true hupper).2
    exact Nat.lt_of_le_of_lt (UInt32.le_iff_toNat_le.mp hle) (by decide)
  · have hle : c.val ≤ 'z'.val := of_decide_eq_true (Bool.and_eq_true_iff.mp hlower).2
    exact Nat.lt_of_le_of_lt (UInt32.le_iff_toNat_le.mp hle) (by decide)

theorem isWord_of_isAlpha (h : c.isAlpha = true) : isWord c = true :=
  of_forall_ascii (p := fun c => c.isAlpha = true → isWord c = true) (by decide +kernel) (toNat_lt_of_isAlpha h) h

theorem not_isBlank_of_isAlpha (h : c.isAlpha = true) : isBlank c = false := by
  by_contra hblank
  rw [Bool.not_eq_false] at hblank
  exact absurd (isWord_of_isAlpha h) (ne_true_of_eq_false (not_isWord_of_isBlank hblank))

/-- On the letters of ASCII case folding is lower-casing. -/
theorem fold_eq_toLower (h : c.toLower.toNat < 128) : fold c = c.toLower := by
  have hc : c.toNat < 128 := by
    by_cases hupper : c.val ≥ 'A'.val ∧ c.val ≤ 'Z'.val
    · exact Nat.lt_of_le_of_lt (UInt32.le_iff_toNat_le.mp hupper.2) (by decide)
    · have hsame : c.toLower = c := dif_neg hupper
      rwa [hsame] at h
  exact of_forall_ascii (p := fun c => fold c = c.toLower) (by decide +kernel) hc

end StepLink.Text
