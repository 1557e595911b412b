/-! Items sorted by key, as of one version of an index. -/

namespace StepLink

/-- The items of one version, all of them and by key. -/
structure Buckets (κ α : Type) where
  version : Nat
  all : List α
  groups : List (κ × List α)

namespace Buckets

variable {κ α : Type} [DecidableEq κ]

/-- Sort items by key; an item without a key is in no group. -/
def ofItems (keys : List κ) (key : α → Option κ) (version : Nat) (items : List α) : Buckets κ α :=
  ⟨version, items, keys.map fun k => (k, items.filter fun item => key item = some k)⟩

def group (b : Buckets κ α) (k : κ) : List α :=
  ((b.groups.find? fun entry => entry.1 = k).map (·.2)).getD []

/-- Keep buckets that are of the given version, or sort anew. -/
def refresh (cached : Option (Buckets κ α)) (keys : List κ) (key : α → Option κ) (version : Nat)
    (items : List α) : Buckets κ α :=
  match cached with
  | some b => if b.version = version then b else ofItems keys key version items
  | none => ofItems keys key version items

end Buckets

end StepLink
