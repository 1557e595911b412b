import Mathlib.Data.List.Infix
import StepLink.Regex.Matching

/-! Matching decides what an expression denotes. The trail after an expression holds exactly the remainders of
the sequences that it denotes: each function on trails is described by the remainders that it gives, and
keeps a trail in order, on which `link` and `union` rely. -/

namespace StepLink.Regex

variable {σ α : Type} {p : α → Bool} {whole t : List α} {r : Rest α} {trail left right : List (Rest α)}

/-- The remainders of a trail, without their lengths. -/
def rests (trail : List (Rest α)) : List (List α) :=
  trail.map (·.items)

@[simp] theorem rests_nil : rests ([] : List (Rest α)) = [] := rfl

@[simp] theorem rests_cons (r : Rest α) (trail : List (Rest α)) : rests (r :: trail) = r.items :: rests trail :=
  rfl

/-- The trail holds remainders of one sequence, each with its length, in descending order. -/
structure IsTrail (whole : List α) (trail : List (Rest α)) : Prop where
  sized : ∀ r ∈ trail, r.size = r.items.length
  suffix : ∀ r ∈ trail, r.items <:+ whole
  descending : trail.Pairwise fun a b => b.size < a.size

namespace IsTrail

theorem nil (whole : List α) : IsTrail whole [] where
  sized _ h := by cases h
  suffix _ h := by cases h
  descending := .nil

theorem tail (h : IsTrail whole (r :: trail)) : IsTrail whole trail where
  sized q hq := h.sized q (List.mem_cons_of_mem r hq)
  suffix q hq := h.suffix q (List.mem_cons_of_mem r hq)
  descending := h.descending.tail

theorem lt_head (h : IsTrail whole (r :: trail)) : ∀ q ∈ trail, q.size < r.size :=
  (List.pairwise_cons.mp h.descending).1

theorem cons (hsized : r.size = r.items.length) (hsuffix : r.items <:+ whole)
    (hlt : ∀ q ∈ trail, q.size < r.size) (h : IsTrail whole trail) : IsTrail whole (r :: trail) where
  sized := List.forall_mem_cons.mpr ⟨hsized, h.sized⟩
  suffix := List.forall_mem_cons.mpr ⟨hsuffix, h.suffix⟩
  descending := List.pairwise_cons.mpr ⟨hlt, h.descending⟩

theorem singleton (t : List α) : IsTrail t [⟨t.length, t⟩] :=
  .cons rfl (List.suffix_refl t) (fun _ h => by cases h) (.nil t)

end IsTrail

/-- Remainders of one sequence that have the same length are the same. -/
theorem items_eq_of_size_eq {a b : Rest α} (ha : a.size = a.items.length) (hb : b.size = b.items.length)
    (hsa : a.items <:+ whole) (hsb : b.items <:+ whole) (hsize : a.size = b.size) : a.items = b.items := by
  have hlength : a.items.length = b.items.length := by rw [← ha, ← hb, hsize]
  exact (List.suffix_of_suffix_length_le hsa hsb (Nat.le_of_eq hlength)).eq_of_length hlength

theorem mem_rests_advance : t ∈ rests (advance p trail) ↔ ∃ c, p c = true ∧ c :: t ∈ rests trail := by
  induction trail with
  | nil => simp [advance]
  | cons r trail ih =>
    obtain ⟨n, items⟩ := r
    cases items with
    | nil => simp [advance, ih]
    | cons d u =>
      by_cases hd : p d = true
      · simp only [advance, if_pos hd, rests_cons, List.mem_cons, ih]
        constructor
        · rintro (rfl | ⟨c, hc, hmem⟩)
          · exact ⟨d, hd, .inl rfl⟩
          · exact ⟨c, hc, .inr hmem⟩
        · rintro ⟨c, hc, heq | hmem⟩
          · exact .inl (List.tail_eq_of_cons_eq heq)
          · exact .inr ⟨c, hc, hmem⟩
      · simp only [advance, if_neg hd, rests_cons, List.mem_cons, ih]
        refine ⟨fun ⟨c, hc, hmem⟩ => ⟨c, hc, .inr hmem⟩, fun ⟨c, hc, h⟩ => ?_⟩
        rcases h with heq | hmem
        · exact absurd (List.head_eq_of_cons_eq heq ▸ hc) hd
        · exact ⟨c, hc, hmem⟩

/-- A remainder after one symbol is shorter than one of those before it. -/
theorem exists_lt_of_mem_advance (h : r ∈ advance p trail) (hsized : ∀ q ∈ trail, q.size = q.items.length) :
    ∃ q ∈ trail, q.size = r.size + 1 ∧ r.size = r.items.length ∧ r.items <:+ q.items := by
  induction trail with
  | nil => cases h
  | cons q trail ih =>
    have htail := fun q hq => hsized q (List.mem_cons_of_mem _ hq)
    have hlift : (∃ q ∈ trail, q.size = r.size + 1 ∧ r.size = r.items.length ∧ r.items <:+ q.items) →
        ∃ u ∈ q :: trail, u.size = r.size + 1 ∧ r.size = r.items.length ∧ r.items <:+ u.items :=
      fun ⟨u, hu, hrest⟩ => ⟨u, List.mem_cons_of_mem q hu, hrest⟩
    obtain ⟨n, items⟩ := q
    cases items with
    | nil => exact hlift (ih h htail)
    | cons d u =>
      have hn : n = u.length + 1 := hsized ⟨n, d :: u⟩ List.mem_cons_self
      rw [advance] at h
      split at h
      · rcases List.mem_cons.mp h with rfl | hmem
        · refine ⟨⟨n, d :: u⟩, List.mem_cons_self, ?_, ?_, List.suffix_cons d u⟩
          · show n = n - 1 + 1
            omega
          · show n - 1 = u.length
            omega
        · exact hlift (ih hmem htail)
      · exact hlift (ih h htail)

theorem IsTrail.advance (h : IsTrail whole trail) : IsTrail whole (advance p trail) := by
  induction trail with
  | nil => exact .nil whole
  | cons q trail ih =>
    obtain ⟨n, items⟩ := q
    cases items with
    | nil => exact ih h.tail
    | cons d u =>
      rw [Regex.advance]
      split
      · have hn : n = u.length + 1 := h.sized ⟨n, d :: u⟩ List.mem_cons_self
        refine .cons ?_ ?_ (fun q hq => ?_) (ih h.tail)
        · show n - 1 = u.length
          omega
        · exact (List.suffix_cons d u).trans (h.suffix _ List.mem_cons_self)
        · obtain ⟨r, hr, hsize, -⟩ := exists_lt_of_mem_advance hq h.tail.sized
          have hlt : r.size < n := h.lt_head r hr
          show q.size < n - 1
          omega
      · exact ih h.tail

theorem IsTrail.link (hsized : r.size = r.items.length) (hsuffix : r.items <:+ whole)
    (hle : ∀ q ∈ trail, q.size ≤ r.size) (h : IsTrail whole trail) : IsTrail whole (link r trail) := by
  cases trail with
  | nil => exact .cons hsized hsuffix (fun _ hq => by cases hq) h
  | cons q trail =>
    rw [Regex.link]
    split
    · exact h
    next hne =>
      have hlt : q.size < r.size := Nat.lt_of_le_of_ne (hle q List.mem_cons_self) hne
      refine .cons hsized hsuffix (List.forall_mem_cons.mpr ⟨hlt, fun u hu => ?_⟩) h
      exact Nat.lt_trans (h.lt_head u hu) hlt

theorem mem_rests_link (hsized : r.size = r.items.length) (hsuffix : r.items <:+ whole)
    (h : IsTrail whole trail) : t ∈ rests (link r trail) ↔ t = r.items ∨ t ∈ rests trail := by
  cases trail with
  | nil => simp [link]
  | cons q trail =>
    by_cases hsize : q.size = r.size
    · have hitems : q.items = r.items :=
        items_eq_of_size_eq (h.sized q List.mem_cons_self) hsized (h.suffix q List.mem_cons_self) hsuffix hsize
      simp [link, hsize, hitems]
    · simp [link, hsize]

/-- The step of `spread` at a remainder whose first symbol passes the test leads to a trail again. -/
theorem IsTrail.link_tail {n : Nat} {c : α} {u : List α} (h : IsTrail whole (⟨n, c :: u⟩ :: trail)) :
    (⟨n - 1, u⟩ : Rest α).size = u.length ∧ u <:+ whole ∧ (∀ q ∈ trail, q.size ≤ n - 1) := by
  have hn : n = u.length + 1 := h.sized ⟨n, c :: u⟩ List.mem_cons_self
  refine ⟨?_, (List.suffix_cons c u).trans (h.suffix _ List.mem_cons_self), fun q hq => ?_⟩
  · show n - 1 = u.length
    omega
  · have hlt : q.size < n := h.lt_head q hq
    omega

/-- The first sequence remains of the second after any number of symbols that pass the test. -/
def Remains (p : α → Bool) (t whole : List α) : Prop :=
  ∃ s, (∀ c ∈ s, p c = true) ∧ s ++ t = whole

theorem remains_nil_iff : Remains p t [] ↔ t = [] := by
  constructor
  · rintro ⟨s, -, h⟩
    exact (List.append_eq_nil_iff.mp h).2
  · rintro rfl
    exact ⟨[], by simp, rfl⟩

theorem remains_cons_iff {c : α} {u : List α} :
    Remains p t (c :: u) ↔ t = c :: u ∨ p c = true ∧ Remains p t u := by
  constructor
  · rintro ⟨s, hs, h⟩
    cases s with
    | nil => exact .inl h
    | cons d s =>
      obtain ⟨rfl, hrest⟩ := List.cons.inj h
      exact .inr ⟨hs d List.mem_cons_self, s, (List.forall_mem_cons.mp hs).2, hrest⟩
  · rintro (rfl | ⟨hc, s, hs, rfl⟩)
    · exact ⟨[], by simp, rfl⟩
    · exact ⟨c :: s, List.forall_mem_cons.mpr ⟨hc, hs⟩, rfl⟩

theorem mem_rests_spread (h : IsTrail whole trail) :
    t ∈ rests (spread p trail) ↔ ∃ u ∈ rests trail, Remains p t u := by
  induction trail using spread.induct with
  | case1 => simp [spread]
  | case2 n trail ih =>
    simp only [spread, rests_cons, List.mem_cons, ih h.tail, exists_eq_or_imp, remains_nil_iff]
  | case3 n c u trail ihlink ih =>
    obtain ⟨hsized, hsuffix, hle⟩ := h.link_tail
    have hlink : ∀ v, v ∈ rests (link ⟨n - 1, u⟩ trail) ↔ v = u ∨ v ∈ rests trail := fun v =>
      mem_rests_link hsized hsuffix h.tail
    rw [spread, rests_cons, List.mem_cons, rests_cons]
    simp only [List.mem_cons, exists_eq_or_imp, remains_cons_iff, or_assoc]
    split
    next hc => simp only [ihlink (h.tail.link hsized hsuffix hle), hlink, exists_eq_or_imp, hc, true_and]
    next hc => simp only [ih h.tail, hc, Bool.false_eq_true, false_and, false_or]

theorem link_le {n : Nat} (hr : r.size ≤ n) (hle : ∀ q ∈ trail, q.size ≤ n) :
    ∀ q ∈ link r trail, q.size ≤ n := by
  cases trail with
  | nil => exact List.forall_mem_cons.mpr ⟨hr, hle⟩
  | cons q trail =>
    rw [link]
    split
    · exact hle
    · exact List.forall_mem_cons.mpr ⟨hr, hle⟩

theorem spread_le {n : Nat} (hle : ∀ q ∈ trail, q.size ≤ n) : ∀ q ∈ spread p trail, q.size ≤ n := by
  induction trail using spread.induct with
  | case1 => simp [spread]
  | case2 m trail ih =>
    obtain ⟨hm, htail⟩ := List.forall_mem_cons.mp hle
    rw [spread]
    exact List.forall_mem_cons.mpr ⟨hm, ih htail⟩
  | case3 m c u trail ihlink ih =>
    obtain ⟨hm, htail⟩ := List.forall_mem_cons.mp hle
    rw [spread]
    refine List.forall_mem_cons.mpr ⟨hm, ?_⟩
    split
    · exact ihlink (link_le (Nat.le_trans (Nat.sub_le m 1) hm) htail)
    · exact ih htail

theorem IsTrail.spread (h : IsTrail whole trail) : IsTrail whole (spread p trail) := by
  induction trail using spread.induct with
  | case1 => simpa only [Regex.spread] using h
  | case2 n trail ih =>
    have hn : n = 0 := h.sized _ List.mem_cons_self
    have hempty : trail = [] := by
      refine List.eq_nil_iff_forall_not_mem.mpr fun q hq => ?_
      have hlt : q.size < n := h.lt_head q hq
      omega
    rw [hempty] at h ⊢
    simpa only [Regex.spread] using h
  | case3 n c u trail ihlink ih =>
    obtain ⟨hsized, hsuffix, hle⟩ := h.link_tail
    have hn : n = u.length + 1 := h.sized _ List.mem_cons_self
    rw [Regex.spread]
    refine .cons hn (h.suffix _ List.mem_cons_self) (fun q hq => ?_) ?_
    · have hsize : q.size ≤ n - 1 := by
        split at hq
        · exact spread_le (link_le (Nat.le_refl _) hle) q hq
        · exact spread_le hle q hq
      show q.size < n
      omega
    · split
      · exact ihlink (h.tail.link hsized hsuffix hle)
      · exact ih h.tail

theorem mem_of_mem_union (h : r ∈ union left right) : r ∈ left ∨ r ∈ right := by
  induction left, right using union.induct with
  | case1 right => exact .inr (by rwa [union] at h)
  | case2 left hne => exact .inl (by rwa [union] at h; exact hne)
  | case3 a left b right hsize ih =>
    rw [union, if_pos hsize] at h
    rcases List.mem_cons.mp h with rfl | h
    · exact .inl List.mem_cons_self
    · exact (ih h).imp (List.mem_cons_of_mem a) (List.mem_cons_of_mem b)
  | case4 a left b right hsize hlt ih =>
    rw [union, if_neg hsize, if_pos hlt] at h
    rcases List.mem_cons.mp h with rfl | h
    · exact .inl List.mem_cons_self
    · exact (ih h).imp_left (List.mem_cons_of_mem a)
  | case5 a left b right hsize hlt ih =>
    rw [union, if_neg hsize, if_neg hlt] at h
    rcases List.mem_cons.mp h with rfl | h
    · exact .inr List.mem_cons_self
    · exact (ih h).imp_right (List.mem_cons_of_mem b)

theorem IsTrail.union (hl : IsTrail whole left) (hr : IsTrail whole right) :
    IsTrail whole (union left right) := by
  induction left, right using union.induct with
  | case1 right => rwa [Regex.union]
  | case2 left hne => rwa [Regex.union]; exact hne
  | case3 a left b right hsize ih =>
    rw [Regex.union, if_pos hsize]
    refine .cons (hl.sized a List.mem_cons_self) (hl.suffix a List.mem_cons_self) (fun q hq => ?_)
      (ih hl.tail hr.tail)
    rcases mem_of_mem_union hq with hq | hq
    · exact hl.lt_head q hq
    · exact hsize ▸ hr.lt_head q hq
  | case4 a left b right hsize hlt ih =>
    rw [Regex.union, if_neg hsize, if_pos hlt]
    refine .cons (hl.sized a List.mem_cons_self) (hl.suffix a List.mem_cons_self) (fun q hq => ?_)
      (ih hl.tail hr)
    rcases mem_of_mem_union hq with hq | hq
    · exact hl.lt_head q hq
    · rcases List.mem_cons.mp hq with rfl | hq
      · exact hlt
      · exact Nat.lt_trans (hr.lt_head q hq) hlt
  | case5 a left b right hsize hlt ih =>
    have hlt' : a.size < b.size := Nat.lt_of_le_of_ne (Nat.not_lt.mp hlt) hsize
    rw [Regex.union, if_neg hsize, if_neg hlt]
    refine .cons (hr.sized b List.mem_cons_self) (hr.suffix b List.mem_cons_self) (fun q hq => ?_)
      (ih hl hr.tail)
    rcases mem_of_mem_union hq with hq | hq
    · rcases List.mem_cons.mp hq with rfl | hq
      · exact hlt'
      · exact Nat.lt_trans (hl.lt_head q hq) hlt'
    · exact hr.lt_head q hq

theorem mem_rests_union (hl : IsTrail whole left) (hr : IsTrail whole right) :
    t ∈ rests (union left right) ↔ t ∈ rests left ∨ t ∈ rests right := by
  induction left, right using union.induct with
  | case1 right => simp [union]
  | case2 left hne => simp [union]
  | case3 a left b right hsize ih =>
    have hitems : b.items = a.items :=
      items_eq_of_size_eq (hr.sized b List.mem_cons_self) (hl.sized a List.mem_cons_self)
        (hr.suffix b List.mem_cons_self) (hl.suffix a List.mem_cons_self) hsize.symm
    rw [union, if_pos hsize, rests_cons, rests_cons, rests_cons, hitems]
    simp only [List.mem_cons, ih hl.tail hr.tail]
    tauto
  | case4 a left b right hsize hlt ih =>
    rw [union, if_neg hsize, if_pos hlt, rests_cons, rests_cons]
    simp only [List.mem_cons, ih hl.tail hr]
    tauto
  | case5 a left b right hsize hlt ih =>
    rw [union, if_neg hsize, if_neg hlt, rests_cons, rests_cons (r := b)]
    simp only [List.mem_cons, ih hl hr.tail]
    tauto

/-! ### Expressions -/

theorem IsTrail.take (count : Repeat) (h : IsTrail whole trail) : IsTrail whole (take p count trail) := by
  cases count with
  | once => exact h.advance
  | optional => exact h.union h.advance
  | oneOrMore => exact h.advance.spread
  | zeroOrMore => exact h.spread

theorem mem_rests_take (count : Repeat) (h : IsTrail whole trail) :
    t ∈ rests (take p count trail) ↔
      ∃ s, count.Allows s.length ∧ (∀ c ∈ s, p c = true) ∧ s ++ t ∈ rests trail := by
  cases count with
  | once =>
    simp only [take, mem_rests_advance, Repeat.Allows, List.length_eq_one_iff]
    constructor
    · rintro ⟨c, hc, hmem⟩
      exact ⟨[c], ⟨c, rfl⟩, by simpa using hc, hmem⟩
    · rintro ⟨s, ⟨c, rfl⟩, hs, hmem⟩
      exact ⟨c, hs c List.mem_cons_self, hmem⟩
  | optional =>
    simp only [take, mem_rests_union h h.advance, mem_rests_advance, Repeat.Allows]
    constructor
    · rintro (hmem | ⟨c, hc, hmem⟩)
      · exact ⟨[], by simp, by simp, hmem⟩
      · exact ⟨[c], by simp, by simpa using hc, hmem⟩
    · rintro ⟨s, hlength, hs, hmem⟩
      match s, hlength with
      | [], _ => exact .inl hmem
      | [c], _ => exact .inr ⟨c, hs c List.mem_cons_self, hmem⟩
  | oneOrMore =>
    simp only [take, mem_rests_spread h.advance, mem_rests_advance, Repeat.Allows]
    constructor
    · rintro ⟨u, ⟨c, hc, hmem⟩, s, hs, rfl⟩
      exact ⟨c :: s, by simp, List.forall_mem_cons.mpr ⟨hc, hs⟩, hmem⟩
    · rintro ⟨s, hlength, hs, hmem⟩
      cases s with
      | nil => cases hlength
      | cons c s =>
        obtain ⟨hc, hs⟩ := List.forall_mem_cons.mp hs
        exact ⟨s ++ t, ⟨c, hc, hmem⟩, s, hs, rfl⟩
  | zeroOrMore =>
    simp only [take, mem_rests_spread h, Repeat.Allows, true_and]
    constructor
    · rintro ⟨u, hmem, s, hs, rfl⟩
      exact ⟨s, hs, hmem⟩
    · rintro ⟨s, hs, hmem⟩
      exact ⟨s ++ t, hmem, s, hs, rfl⟩

variable {holds : σ → α → Bool}

theorem IsTrail.remainders (e : Regex σ) (h : IsTrail whole trail) :
    IsTrail whole (e.remainders holds trail) := by
  induction e generalizing trail with
  | empty => exact h
  | chars s count => exact h.take count
  | seq a b iha ihb => exact ihb (iha h)
  | alt a b iha ihb => exact (iha h).union (ihb h)

theorem denotes_empty_iff : Denotes holds .empty t ↔ t = [] :=
  ⟨fun h => by cases h; rfl, fun h => h ▸ .empty⟩

theorem denotes_chars_iff {s : σ} {count : Repeat} :
    Denotes holds (.chars s count) t ↔ count.Allows t.length ∧ ∀ c ∈ t, holds s c = true :=
  ⟨fun h => by cases h with | chars hcount hs => exact ⟨hcount, hs⟩, fun h => .chars h.1 h.2⟩

theorem denotes_seq_iff {a b : Regex σ} :
    Denotes holds (.seq a b) t ↔ ∃ u v, t = u ++ v ∧ Denotes holds a u ∧ Denotes holds b v := by
  constructor
  · rintro (_ | _ | ⟨ha, hb⟩)
    exact ⟨_, _, rfl, ha, hb⟩
  · rintro ⟨u, v, rfl, ha, hb⟩
    exact .seq ha hb

theorem denotes_alt_iff {a b : Regex σ} :
    Denotes holds (.alt a b) t ↔ Denotes holds a t ∨ Denotes holds b t := by
  constructor
  · intro h
    cases h with
    | left h => exact .inl h
    | right h => exact .inr h
  · exact fun h => h.elim .left .right

/-- The trail after an expression holds what remains of the trail before it after the sequences that the
expression denotes. -/
theorem mem_rests_remainders (e : Regex σ) (h : IsTrail whole trail) :
    t ∈ rests (e.remainders holds trail) ↔ ∃ s, Denotes holds e s ∧ s ++ t ∈ rests trail := by
  induction e generalizing trail t with
  | empty => simp [remainders, denotes_empty_iff]
  | chars s count => simp only [remainders, mem_rests_take count h, denotes_chars_iff, and_assoc]
  | seq a b iha ihb =>
    simp only [remainders, ihb (h.remainders a), iha h, denotes_seq_iff]
    constructor
    · rintro ⟨v, hv, u, hu, hmem⟩
      exact ⟨u ++ v, ⟨u, v, rfl, hu, hv⟩, by rwa [List.append_assoc]⟩
    · rintro ⟨_, ⟨u, v, rfl, hu, hv⟩, hmem⟩
      exact ⟨v, hv, u, hu, by rwa [← List.append_assoc]⟩
  | alt a b iha ihb =>
    simp only [remainders, mem_rests_union (h.remainders a) (h.remainders b), iha h, ihb h, denotes_alt_iff,
      or_and_right, exists_or]

/-- The matcher accepts exactly the sequences that the expression denotes. -/
theorem accepts_iff_denotes (e : Regex σ) (t : List α) : e.accepts holds t = true ↔ Denotes holds e t := by
  have hmem : [] ∈ rests (e.remainders holds [⟨t.length, t⟩]) ↔ _ :=
    mem_rests_remainders e (IsTrail.singleton t)
  have hany : e.accepts holds t = true ↔ [] ∈ rests (e.remainders holds [⟨t.length, t⟩]) := by
    simp only [accepts, rests, List.any_eq_true, List.mem_map, List.isEmpty_iff]
  rw [hany, hmem]
  simp [rests]

end StepLink.Regex
