/-!
# Constants

A `Constant` holds a value and nothing else, and compares as what it holds. A record of constants
has the same fields as the record of what they hold.
-/

namespace PositionalRecord

/-- A value held constant. -/
structure Constant (α : Type) where
  inner : α
deriving DecidableEq, Inhabited, Ord

def Constant.map {α β : Type} (f : α → β) (constant : Constant α) : Constant β :=
  ⟨f constant.inner⟩

end PositionalRecord
