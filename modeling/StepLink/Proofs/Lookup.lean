import StepLink.Index.State
import StepLink.Proofs.Path

/-! Entries by path. The tracked files of an index and the marks of its scans are both lists of entries of
which the first under a path counts, so their laws are stated once. -/

namespace StepLink

variable {β : Type}

/-- The value of the first entry under a path. -/
def lookup (entries : List (Path × β)) (p : Path) : Option β :=
  (entries.find? fun entry => entry.1.same p).map (·.2)

theorem lookup_cons (entry : Path × β) (entries : List (Path × β)) (p : Path) :
    lookup (entry :: entries) p = if entry.1.same p then some entry.2 else lookup entries p := by
  simp only [lookup, List.find?_cons]
  split <;> simp_all

theorem lookup_congr {p q : Path} (h : p.same q = true) (entries : List (Path × β)) :
    lookup entries p = lookup entries q := by
  have hpred : (fun entry : Path × β => entry.1.same p) = fun entry => entry.1.same q := by
    funext entry
    rw [Path.same_comm, Path.same_congr h, Path.same_comm]
  simp only [lookup, hpred]

theorem lookup_append (entries more : List (Path × β)) (p : Path) :
    lookup (entries ++ more) p = (lookup entries p).or (lookup more p) := by
  simp only [lookup, List.find?_append]
  cases entries.find? fun entry => entry.1.same p <;> rfl

theorem lookup_filter {test : Path → Bool} (htest : ∀ {p q : Path}, p.same q = true → test p = test q)
    (entries : List (Path × β)) (p : Path) :
    lookup (entries.filter fun entry => test entry.1) p = if test p then lookup entries p else none := by
  induction entries with
  | nil => simp [lookup]
  | cons entry entries ih =>
    simp only [List.filter_cons, lookup_cons]
    by_cases hp : entry.1.same p = true
    · rw [htest hp]
      by_cases ht : test p = true <;> simp_all [lookup_cons]
    · by_cases ht : test entry.1 = true <;> simp_all [lookup_cons]

theorem lookup_map {f : Path → β → β} (hf : ∀ {p q : Path}, p.same q = true → f p = f q)
    (entries : List (Path × β)) (p : Path) :
    lookup (entries.map fun entry => (entry.1, f entry.1 entry.2)) p = (lookup entries p).map (f p) := by
  induction entries with
  | nil => rfl
  | cons entry entries ih =>
    simp only [List.map_cons, lookup_cons]
    split
    next hp => rw [hf hp, Option.map_some]
    next => exact ih

theorem isSome_lookup_iff (entries : List (Path × β)) (p : Path) :
    (lookup entries p).isSome = entries.any fun entry => entry.1.same p := by
  rw [lookup, Option.isSome_map, List.isSome_find?]

theorem mem_of_lookup {entries : List (Path × β)} {p : Path} {b : β} (h : lookup entries p = some b) :
    ∃ key, (key, b) ∈ entries ∧ key.same p = true := by
  obtain ⟨entry, hfind, rfl⟩ := Option.map_eq_some_iff.mp h
  have hkey := List.find?_some hfind
  exact ⟨entry.1, List.mem_of_find?_eq_some hfind, hkey⟩

/-- The value that is entered for a path is found under it, and nothing else changes. -/
theorem lookup_entered (entries : List (Path × β)) (p q : Path) (b : β) :
    lookup (if entries.any fun entry => entry.1.same p then
        entries.map fun entry => if entry.1.same p then (entry.1, b) else entry
      else entries ++ [(p, b)]) q = if p.same q then some b else lookup entries q := by
  have hmap : (entries.map fun entry => if entry.1.same p then (entry.1, b) else entry) =
      entries.map fun entry => (entry.1, if entry.1.same p then b else entry.2) := by
    apply List.map_congr_left
    intro entry _
    split <;> rfl
  have hresp : ∀ {a c : Path}, a.same c = true →
      (fun old : β => if a.same p then b else old) = fun old => if c.same p then b else old := by
    intro a c hac
    rw [Path.same_congr hac]
  rw [← isSome_lookup_iff]
  split
  next htracked =>
    rw [hmap, lookup_map (f := fun k old => if k.same p then b else old) hresp]
    by_cases hpq : p.same q = true
    · rw [lookup_congr hpq] at htracked
      obtain ⟨old, hold⟩ := Option.isSome_iff_exists.mp htracked
      simp [hold, hpq, Path.same_comm q p]
    · simp [hpq, Path.same_comm q p]
  next huntracked =>
    rw [lookup_append, lookup_cons]
    by_cases hpq : p.same q = true
    · rw [lookup_congr hpq] at huntracked
      simp_all
    · simp [hpq, lookup]

theorem lookup_released (entries : List (Path × β)) (p q : Path) :
    lookup (entries.filter fun entry => !entry.1.same p) q = if q.same p then none else lookup entries q := by
  have hfilter : lookup (entries.filter fun entry => !entry.1.same p) q =
      if !q.same p then lookup entries q else none :=
    lookup_filter (fun h => congrArg not (Path.same_congr h p)) entries q
  rw [hfilter]
  cases q.same p <;> rfl

end StepLink
