import StepLink.Proofs.Text.Blank
import StepLink.Text.Bytes

/-! The bytes of a text. A character of the ASCII range is one byte and no other character has a byte of that range in
it, so that properties which do not tell apart the characters beyond the range can be read off the bytes. -/

namespace StepLink.Text

variable {bytes : List UInt8} {offset : Nat} {s t : Text} {a c : Char} {b : UInt8} {p : Char → Bool}

theorem bytes_cons (c : Char) (t : Text) : Text.bytes (c :: t) = String.utf8EncodeChar c ++ Text.bytes t := rfl

theorem bytes_append (t u : Text) : Text.bytes (t ++ u) = Text.bytes t ++ Text.bytes u :=
  List.flatMap_append

theorem length_bytes (t : Text) : (Text.bytes t).length = utf8Length t := by
  induction t with
  | nil => rfl
  | cons c t ih => rw [bytes_cons, List.length_append, String.length_utf8EncodeChar, ih, utf8Length_cons]

theorem utf8Length_eq_zero : utf8Length t = 0 ↔ t = [] := by
  cases t with
  | nil => simp
  | cons c t => simp [(Char.utf8Size_pos c).ne']

theorem ofBytes?_bytes (t : Text) : ofBytes? (Text.bytes t) = some t := by
  have hbytes : ByteArray.mk (Text.bytes t).toArray = t.utf8Encode := ByteArray.ext List.data_toByteArray.symm
  have hstring : String.fromUTF8? t.utf8Encode = some (String.ofList t) := by
    rw [String.fromUTF8?, dif_pos ByteArray.isValidUTF8_utf8Encode]
    exact congrArg some (String.toByteArray_inj.mp String.toByteArray_ofList.symm)
  rw [ofBytes?, hbytes, hstring, Option.map_some, String.toList_ofList]

/-- The text behind a part of it starts where that part ends. -/
theorem fromByte?_utf8Length (s t : Text) : fromByte? (utf8Length s) (s ++ t) = some t := by
  induction s with
  | nil => rw [utf8Length_nil, List.nil_append, fromByte?]
  | cons c s ih =>
    obtain ⟨n, hn⟩ : ∃ n, utf8Length (c :: s) = n + 1 :=
      Nat.exists_eq_add_one.mpr (Nat.add_pos_left c.utf8Size_pos _)
    rw [List.cons_append, hn, fromByte?, ← hn, utf8Length_cons, if_pos (Nat.le_add_right _ _),
      Nat.add_sub_cancel_left, ih]

/-- A character beyond the ASCII range takes bytes beyond it. -/
theorem le_of_mem_utf8EncodeChar {c : Char} (hc : 0x80 ≤ c.toNat) {b : UInt8}
    (h : b ∈ String.utf8EncodeChar c) : 0x80 ≤ b.toNat := by
  obtain ⟨n, rfl, hn⟩ : ∃ n, b = UInt8.ofNat n ∧ 0x80 ≤ n ∧ n < 0x100 := by
    have hlarge : ¬c.val.toNat ≤ 0x7f := Nat.not_le.mpr hc
    simp only [String.utf8EncodeChar, if_neg hlarge] at h
    split at h
    next =>
      simp only [List.mem_cons, List.not_mem_nil, or_false] at h
      rcases h with rfl | rfl <;> exact ⟨_, rfl, by omega⟩
    next =>
      split at h
      next =>
        simp only [List.mem_cons, List.not_mem_nil, or_false] at h
        rcases h with rfl | rfl | rfl <;> exact ⟨_, rfl, by omega⟩
      next =>
        simp only [List.mem_cons, List.not_mem_nil, or_false] at h
        rcases h with rfl | rfl | rfl | rfl <;> exact ⟨_, rfl, by omega⟩
  rw [UInt8.toNat_ofNat']
  omega

theorem utf8EncodeChar_of_lt {c : Char} (hc : c.toNat < 0x80) :
    String.utf8EncodeChar c = [UInt8.ofNat c.toNat] := by
  have hsmall : c.val.toNat ≤ 0x7f := Nat.le_of_lt_succ hc
  simp only [String.utf8EncodeChar, if_pos hsmall]
  rfl

theorem toNat_ofUInt8 (b : UInt8) : (Char.ofUInt8 b).toNat = b.toNat := rfl

/-- The property tells apart characters of the ASCII range only. -/
def IsAsciiProperty (p : Char → Bool) : Prop :=
  ∀ c d : Char, 0x80 ≤ c.toNat → 0x80 ≤ d.toNat → p c = p d

/-- Each byte of a character shows whether the character has such a property. -/
theorem IsAsciiProperty.ofUInt8 (hp : IsAsciiProperty p) (hb : b ∈ String.utf8EncodeChar c) :
    p (Char.ofUInt8 b) = p c := by
  rcases Nat.lt_or_ge c.toNat 0x80 with hsmall | hlarge
  · rw [utf8EncodeChar_of_lt hsmall, List.mem_singleton] at hb
    subst hb
    refine congrArg p (Char.toNat_inj.mp ?_)
    rw [toNat_ofUInt8, UInt8.toNat_ofNat', Nat.mod_eq_of_lt (by omega)]
  · refine hp _ _ ?_ hlarge
    rw [toNat_ofUInt8]
    exact le_of_mem_utf8EncodeChar hlarge hb

theorem isAsciiProperty_of_lt (h : ∀ c, p c = true → c.toNat < 0x80) : IsAsciiProperty p := by
  have hfalse : ∀ c : Char, 0x80 ≤ c.toNat → p c = false := fun c hc =>
    Bool.eq_false_iff.mpr fun hp => absurd (h c hp) (Nat.not_lt.mpr hc)
  intro c d hc hd
  rw [hfalse c hc, hfalse d hd]

theorem isAsciiProperty_beq (ha : a.toNat < 0x80) : IsAsciiProperty (· == a) :=
  isAsciiProperty_of_lt fun _ hc => eq_of_beq hc ▸ ha

theorem IsAsciiProperty.not (hp : IsAsciiProperty p) : IsAsciiProperty fun c => !p c :=
  fun c d hc hd => congrArg Bool.not (hp c d hc hd)

/-- The longest run of characters with such a property is that of its bytes. -/
theorem takeWhile_bytes (hp : IsAsciiProperty p) (t : Text) :
    (Text.bytes t).takeWhile (fun b => p (Char.ofUInt8 b)) = Text.bytes (t.takeWhile p) := by
  induction t with
  | nil => rfl
  | cons c t ih =>
    rw [bytes_cons]
    cases hc : p c with
    | true =>
      have hall : ∀ b ∈ String.utf8EncodeChar c, p (Char.ofUInt8 b) = true := fun b hb => (hp.ofUInt8 hb).trans hc
      rw [List.takeWhile_append_of_pos hall, ih, List.takeWhile_cons_of_pos hc, bytes_cons]
    | false =>
      obtain ⟨b, bs, hbs⟩ := List.exists_cons_of_ne_nil (String.utf8EncodeChar_ne_nil (c := c))
      have hb : p (Char.ofUInt8 b) = false := (hp.ofUInt8 (hbs ▸ List.mem_cons_self)).trans hc
      rw [hbs, List.cons_append, List.takeWhile_cons_of_neg (by simp [hb]), List.takeWhile_cons_of_neg (by simp [hc])]
      rfl

/-- The first byte shows whether the first character has such a property. -/
theorem any_head?_bytes (hp : IsAsciiProperty p) (t : Text) :
    (Text.bytes t).head?.any (fun b => p (Char.ofUInt8 b)) = t.head?.any p := by
  cases t with
  | nil => rfl
  | cons c t =>
    obtain ⟨b, bs, hbs⟩ := List.exists_cons_of_ne_nil (String.utf8EncodeChar_ne_nil (c := c))
    rw [bytes_cons, hbs]
    exact hp.ofUInt8 (hbs ▸ List.mem_cons_self)

theorem ofUInt8_eq_iff (ha : a.toNat < 0x80) : Char.ofUInt8 b = a ↔ b = a.toUInt8 := by
  have hmod : a.toUInt8.toNat = a.toNat % 0x100 := rfl
  rw [← Char.toNat_inj, toNat_ofUInt8, ← UInt8.toNat_inj, hmod, Nat.mod_eq_of_lt (by omega)]

/-- A character of the ASCII range has a byte that is found in no other character. -/
theorem ne_toUInt8_of_mem (ha : a.toNat < 0x80) (hc : c ≠ a) (hb : b ∈ String.utf8EncodeChar c) :
    b ≠ a.toUInt8 := by
  intro heq
  have hsame : (Char.ofUInt8 b == a) = (c == a) := (isAsciiProperty_beq ha).ofUInt8 hb
  rw [beq_iff_eq.mpr ((ofUInt8_eq_iff ha).mpr heq)] at hsame
  exact hc (eq_of_beq hsame.symm)

theorem bytes_cons_of_lt (ha : a.toNat < 0x80) (t : Text) : Text.bytes (a :: t) = a.toUInt8 :: Text.bytes t := by
  rw [bytes_cons, utf8EncodeChar_of_lt ha]
  rfl

theorem head?_bytes_eq_iff (ha : a.toNat < 0x80) : (Text.bytes t).head? = some a.toUInt8 ↔ t.head? = some a := by
  cases t with
  | nil => simp [Text.bytes]
  | cons c t =>
    by_cases hc : c = a
    · rw [hc, bytes_cons_of_lt ha]
      simp
    · obtain ⟨b, bs, hbs⟩ := List.exists_cons_of_ne_nil (String.utf8EncodeChar_ne_nil (c := c))
      have hb : b ≠ a.toUInt8 := ne_toUInt8_of_mem ha hc (hbs ▸ List.mem_cons_self)
      rw [bytes_cons, hbs]
      simp [hb, hc]

/-- From the offset on, the bytes are those of the text. -/
structure StandsAt (bytes : List UInt8) (offset : Nat) (t : Text) : Prop where
  le : offset ≤ bytes.length
  drop_eq : bytes.drop offset = Text.bytes t

theorem standsAt_utf8Length (s t : Text) : StandsAt (Text.bytes (s ++ t)) (utf8Length s) t := by
  rw [bytes_append, ← length_bytes]
  exact ⟨by simp, List.drop_left⟩

theorem StandsAt.append (h : StandsAt bytes offset (s ++ t)) : StandsAt bytes (offset + utf8Length s) t := by
  have hdrop := h.drop_eq
  have hle := h.le
  have hlength := congrArg List.length hdrop
  rw [bytes_append, List.length_append, length_bytes, List.length_drop] at hlength
  refine ⟨by omega, ?_⟩
  rw [← List.drop_drop, hdrop, bytes_append, ← length_bytes, List.drop_left]

theorem StandsAt.dropWhile (h : StandsAt bytes offset t) (p : Char → Bool) :
    StandsAt bytes (offset + utf8Length (t.takeWhile p)) (t.dropWhile p) := by
  rw [← List.takeWhile_append_dropWhile (p := p) (l := t)] at h
  exact h.append

theorem StandsAt.getElem?_eq (h : StandsAt bytes offset t) : bytes[offset]? = (Text.bytes t).head? := by
  rw [← List.head?_drop, h.drop_eq]

theorem StandsAt.getElem?_eq_iff (h : StandsAt bytes offset t) (ha : a.toNat < 0x80) :
    bytes[offset]? = some a.toUInt8 ↔ t.head? = some a := by
  rw [h.getElem?_eq, head?_bytes_eq_iff ha]

theorem StandsAt.any_getElem? (h : StandsAt bytes offset t) (hp : IsAsciiProperty p) :
    bytes[offset]?.any (fun b => p (Char.ofUInt8 b)) = t.head?.any p := by
  rw [h.getElem?_eq, any_head?_bytes hp]

end StepLink.Text
