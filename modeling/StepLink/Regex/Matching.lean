import StepLink.Regex.Basic

/-! Matching. What can remain after an expression has taken its part is kept as a trail: suffixes of one
sequence, each strictly shorter than the one before it. An expression maps trails to trails, and a whole
sequence is matched when nothing is among the remainders. A trail has at most one entry for each position of
the sequence, so the work is bounded by the product of the sizes of the expression and of the sequence. -/

namespace StepLink.Regex

variable {σ α : Type}

/-- What remains of a sequence, with its length. -/
structure Rest (α : Type) where
  size : Nat
  items : List α

def advance (p : α → Bool) : List (Rest α) → List (Rest α)
  | [] => []
  | ⟨_, []⟩ :: trail => advance p trail
  | ⟨n, c :: t⟩ :: trail => if p c then ⟨n - 1, t⟩ :: advance p trail else advance p trail

/-- Put a remainder in front of a trail that holds only itself or shorter ones. -/
def link (r : Rest α) : List (Rest α) → List (Rest α)
  | [] => [r]
  | q :: trail => if q.size = r.size then q :: trail else r :: q :: trail

/-- The number of steps left for `spread`. -/
def spreadMeasure : List (Rest α) → Nat
  | [] => 0
  | r :: trail => r.items.length + 1 + spreadMeasure trail

theorem spreadMeasure_link_le (r : Rest α) (trail : List (Rest α)) :
    spreadMeasure (link r trail) ≤ r.items.length + 1 + spreadMeasure trail := by
  cases trail with
  | nil => simp [link, spreadMeasure]
  | cons q trail =>
    by_cases h : q.size = r.size <;> simp [link, h, spreadMeasure]

/-- The remainders after any number of symbols that pass the test. -/
def spread (p : α → Bool) : List (Rest α) → List (Rest α)
  | [] => []
  | ⟨n, []⟩ :: trail => ⟨n, []⟩ :: spread p trail
  | ⟨n, c :: t⟩ :: trail =>
    ⟨n, c :: t⟩ :: if p c then spread p (link ⟨n - 1, t⟩ trail) else spread p trail
termination_by trail => spreadMeasure trail
decreasing_by
  · simp [spreadMeasure]
  · have := spreadMeasure_link_le ⟨n - 1, t⟩ trail
    simp only [spreadMeasure, List.length_cons] at *
    omega
  · simp only [spreadMeasure, List.length_cons]
    omega

/-- The union of two trails over one sequence. -/
def union : List (Rest α) → List (Rest α) → List (Rest α)
  | [], right => right
  | left, [] => left
  | a :: left, b :: right =>
    if a.size = b.size then a :: union left right
    else if b.size < a.size then a :: union left (b :: right)
    else b :: union (a :: left) right
termination_by left right => left.length + right.length

def take (p : α → Bool) : Repeat → List (Rest α) → List (Rest α)
  | .once, trail => advance p trail
  | .optional, trail => union trail (advance p trail)
  | .oneOrMore, trail => spread p (advance p trail)
  | .zeroOrMore, trail => spread p trail

/-- The remainders after a sequence that the expression denotes. -/
def remainders (holds : σ → α → Bool) : Regex σ → List (Rest α) → List (Rest α)
  | empty, trail => trail
  | chars s count, trail => take (holds s) count trail
  | seq a b, trail => remainders holds b (remainders holds a trail)
  | alt a b, trail => union (remainders holds a trail) (remainders holds b trail)

/-- The expression denotes the whole sequence. -/
def accepts (holds : σ → α → Bool) (r : Regex σ) (t : List α) : Bool :=
  (r.remainders holds [⟨t.length, t⟩]).any fun rest => rest.items.isEmpty

end StepLink.Regex
