/-! A cache of bounded size that forgets the entry that has not been used for the longest time. -/

namespace StepLink

/-- A bounded cache, the entry used last in front. -/
structure Lru (κ β : Type) where
  capacity : Nat
  entries : List (κ × β)

namespace Lru

variable {κ β : Type} [DecidableEq κ]

def empty (capacity : Nat) : Lru κ β :=
  ⟨capacity, []⟩

def find? (c : Lru κ β) (k : κ) : Option β :=
  (c.entries.find? fun entry => entry.1 = k).map (·.2)

/-- The cache after a use of a key. -/
def touch (c : Lru κ β) (k : κ) : Lru κ β :=
  match c.entries.find? fun entry => entry.1 = k with
  | some entry => { c with entries := entry :: c.entries.filter fun other => ¬other.1 = k }
  | none => c

/-- Enter a value; an entry that no longer fits is forgotten. -/
def put (c : Lru κ β) (k : κ) (b : β) : Lru κ β :=
  { c with entries := ((k, b) :: c.entries.filter fun other => ¬other.1 = k).take c.capacity }

def size (c : Lru κ β) : Nat :=
  c.entries.length

end Lru

end StepLink
