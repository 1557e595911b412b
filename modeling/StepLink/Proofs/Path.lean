import StepLink.Path

/-! Paths are compared by their components: having the same components is an equivalence, and lying below a
path depends on the components alone. -/

namespace StepLink.Path

theorem same_iff {p q : Path} : p.same q = true ↔ p.components = q.components := by
  simp only [same, beq_iff_eq]

theorem startsWith_iff {p q : Path} : p.startsWith q = true ↔ q.components <+: p.components := by
  simp only [startsWith, List.isPrefixOf_iff_prefix]

@[simp] theorem same_refl (p : Path) : p.same p = true := by
  simp only [same_iff]

theorem same_symm {p q : Path} (h : p.same q = true) : q.same p = true := by
  rw [same_iff] at h ⊢
  exact h.symm

theorem same_trans {p q r : Path} (hpq : p.same q = true) (hqr : q.same r = true) : p.same r = true := by
  rw [same_iff] at hpq hqr ⊢
  exact hpq.trans hqr

theorem same_comm (p q : Path) : p.same q = q.same p := by
  rw [Bool.eq_iff_iff, same_iff, same_iff]
  exact eq_comm

/-- Paths with the same components cannot be told apart by comparison. -/
theorem same_congr {p q : Path} (h : p.same q = true) (r : Path) : p.same r = q.same r := by
  rw [same_iff] at h
  simp only [same, h]

theorem startsWith_congr {p q : Path} (h : p.same q = true) (r : Path) : p.startsWith r = q.startsWith r := by
  rw [same_iff] at h
  simp only [startsWith, h]

theorem startsWith_of_same {p q : Path} (h : p.same q = true) : p.startsWith q = true := by
  have hprefix : p.components <+: p.components := List.prefix_refl _
  exact startsWith_iff.mpr (same_iff.mp h ▸ hprefix)

end StepLink.Path
