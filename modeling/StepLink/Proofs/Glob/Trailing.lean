import StepLink.Glob.Filter
import StepLink.Proofs.Regex.Matching

/-! What globs select. A glob that ends in a doubled star after a separator selects everything below the
directories that the part in front of it selects, whatever the entries are called. -/

namespace StepLink

open Regex

namespace Text

theorem bytes_slash_cons (t : Text) : bytes ('/' :: t) = 0x2f :: bytes t := rfl

end Text

namespace Glob

theorem denotes_sequence_cons {holds : ByteSet → UInt8 → Bool} {e : Expression} {es : List Expression}
    {t : List UInt8} : Denotes holds (sequence (e :: es)) t ↔
      ∃ u v, t = u ++ v ∧ Denotes holds e u ∧ Denotes holds (sequence es) v := by
  cases es with
  | nil =>
    simp only [sequence, denotes_empty_iff]
    constructor
    · exact fun h => ⟨t, [], (List.append_nil t).symm, h, rfl⟩
    · rintro ⟨u, v, rfl, he, rfl⟩
      rwa [List.append_nil]
  | cons f es => exact denotes_seq_iff

theorem denotes_sequence_concat {holds : ByteSet → UInt8 → Bool} {e : Expression} {es : List Expression}
    {t : List UInt8} : Denotes holds (sequence (es ++ [e])) t ↔
      ∃ u v, t = u ++ v ∧ Denotes holds (sequence es) u ∧ Denotes holds e v := by
  induction es generalizing t with
  | nil =>
    simp only [List.nil_append, sequence, denotes_empty_iff]
    constructor
    · exact fun h => ⟨[], t, rfl, rfl, h⟩
    · rintro ⟨_, v, rfl, rfl, he⟩
      exact he
  | cons f es ih =>
    rw [List.cons_append, denotes_sequence_cons]
    constructor
    · rintro ⟨u, v, rfl, hf, hrest⟩
      obtain ⟨u', v', rfl, hes, he⟩ := ih.mp hrest
      exact ⟨u ++ u', v', (List.append_assoc _ _ _).symm, denotes_sequence_cons.mpr ⟨u, u', rfl, hf, hes⟩, he⟩
    · rintro ⟨w, v', rfl, hw, he⟩
      obtain ⟨u, u', rfl, hf, hes⟩ := denotes_sequence_cons.mp hw
      exact ⟨u, u' ++ v', List.append_assoc _ _ _, hf, ih.mpr ⟨u', v', rfl, hes, he⟩⟩

theorem holds_slash_iff (b : UInt8) : ByteSet.holds (.byte 0x2f) b = true ↔ b = 0x2f := by
  have hall : ∀ n < 256, (ByteSet.holds (.byte 0x2f) (UInt8.ofNat n) = true ↔ UInt8.ofNat n = 0x2f) := by
    decide +kernel
  have hb := hall b.toNat b.toNat_lt
  rwa [UInt8.ofNat_toNat] at hb

theorem denotes_slash_iff {t : List UInt8} : Denotes ByteSet.holds slash t ↔ t = [0x2f] := by
  rw [slash, denotes_chars_iff, Repeat.Allows, List.length_eq_one_iff]
  constructor
  · rintro ⟨⟨b, rfl⟩, hb⟩
    rw [(holds_slash_iff b).mp (hb b List.mem_cons_self)]
  · rintro rfl
    exact ⟨⟨0x2f, rfl⟩, fun b hb => (holds_slash_iff b).mpr (List.mem_singleton.mp hb)⟩

theorem denotes_anything (t : List UInt8) : Denotes ByteSet.holds anything t :=
  denotes_chars_iff.mpr ⟨trivial, fun _ _ => rfl⟩

theorem denotes_trailing_iff {t : List UInt8} :
    Denotes ByteSet.holds Item.trailing.expression t ↔ ∃ u, t = 0x2f :: u := by
  simp only [Item.expression, denotes_seq_iff, denotes_slash_iff]
  constructor
  · rintro ⟨_, u, rfl, rfl, -⟩
    exact ⟨u, rfl⟩
  · rintro ⟨u, rfl⟩
    exact ⟨[0x2f], u, rfl, rfl, denotes_anything u⟩

/-- The glob ends in a doubled star after a separator. -/
def endsInTrailing (items : List Item) : Prop :=
  items.getLast? = some .trailing

theorem denotes_endsInTrailing {items : List Item} (h : endsInTrailing items) :
    ∃ front : Expression, ∀ t, Denotes ByteSet.holds (expression items) t ↔
      ∃ u v, t = u ++ 0x2f :: v ∧ Denotes ByteSet.holds front u := by
  obtain ⟨items, rfl⟩ := List.getLast?_eq_some_iff.mp h
  refine ⟨sequence (items.map Item.expression), fun t => ?_⟩
  have hexpression : expression (items ++ [.trailing]) =
      sequence (items.map Item.expression ++ [Item.trailing.expression]) := by
    rw [expression, List.map_append]
    · rfl
    · intro heq
      have hlast := congrArg List.getLast? heq
      rw [List.getLast?_concat] at hlast
      cases hlast
  rw [hexpression, denotes_sequence_concat]
  simp only [denotes_trailing_iff]
  constructor
  · rintro ⟨u, _, rfl, hu, v, rfl⟩
    exact ⟨u, v, rfl, hu⟩
  · rintro ⟨u, v, rfl, hu⟩
    exact ⟨u, _, rfl, hu, v, rfl⟩

/-- A glob that ends in a doubled star after a separator and selects one entry of a directory selects whatever
lies below that directory. -/
theorem denotes_below {items : List Item} (h : endsInTrailing items) {dir entry below : List UInt8}
    (hentry : Denotes ByteSet.holds (expression items) (dir ++ 0x2f :: entry)) (hplain : 0x2f ∉ entry) :
    Denotes ByteSet.holds (expression items) (dir ++ 0x2f :: below) := by
  obtain ⟨front, hfront⟩ := denotes_endsInTrailing h
  obtain ⟨u, v, heq, hu⟩ := (hfront _).mp hentry
  rw [hfront]
  rcases List.append_eq_append_iff.mp heq with ⟨w, rfl, hw⟩ | ⟨w, rfl, hw⟩
  · -- the separator that the doubled star begins with is the one in front of the entry
    cases w with
    | nil => exact ⟨dir, below, rfl, by rwa [List.append_nil] at hu⟩
    | cons b w =>
      have hmem : 0x2f ∈ entry := by
        rw [(List.cons.inj hw).2]
        exact List.mem_append_right w List.mem_cons_self
      exact absurd hmem hplain
  · -- it is an earlier one, and the doubled star takes the rest of the path from there on
    cases w with
    | nil => exact ⟨u, below, by rw [List.append_nil], hu⟩
    | cons b w =>
      obtain ⟨rfl, -⟩ := List.cons.inj hw
      exact ⟨u, w ++ 0x2f :: below, by rw [List.append_assoc]; rfl, hu⟩

theorem not_denotes_of_plain {items : List Item} (h : endsInTrailing items) {entry : List UInt8}
    (hplain : 0x2f ∉ entry) : ¬Denotes ByteSet.holds (expression items) entry := by
  obtain ⟨front, hfront⟩ := denotes_endsInTrailing h
  rw [hfront]
  rintro ⟨u, v, rfl, -⟩
  exact hplain (List.mem_append_right u List.mem_cons_self)

end Glob

end StepLink
