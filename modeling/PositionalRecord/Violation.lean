/-!
# Violated contracts

Whoever resolved the layout of a record turned field names into positions once, so the operations
on records trust the positions they are given. A call that breaks this trust does not answer: it
stops with a `Violation`, which keeps what the caller asked for and what the record had.
-/

namespace PositionalRecord

/-! ## What was asked for -/

/-- The operations that address fields by position. -/
inductive Access
  | get
  | set
  | overwrite
  | project
deriving DecidableEq

/-- The name under which a violation reports an access. -/
def Access.label : Access → String
  | .get => "get"
  | .set => "set"
  | .overwrite => "set_at_index"
  | .project => "project"

/-- The operations that pair two records field by field. -/
inductive Pairing
  | plain
  | effectful
  | suspended
  | effectfulSuspended
deriving DecidableEq

def Pairing.label : Pairing → String
  | .plain => "zip_with"
  | .effectful => "try_zip_with"
  | .suspended => "zip_with_async"
  | .effectfulSuspended => "try_zip_with_async"

/-! ## Violations -/

/-- How a caller can break a contract: a position past the end, or two records of different
lengths paired with each other. -/
inductive Violation
  | outOfBounds (access : Access) (index length : Nat)
  | shapeMismatch (pairing : Pairing) (left right : Nat)
deriving DecidableEq

namespace Violation

def message : Violation → String
  | .outOfBounds access index length =>
    "contract violation: " ++ access.label ++ ": index " ++ toString index ++
      " out of bounds for record of length " ++ toString length
  | .shapeMismatch pairing left right =>
    "contract violation: " ++ pairing.label ++ ": records of length " ++ toString left ++
      " and " ++ toString right ++ " do not have the same shape"

/-- Whether a list of positions is checked as a whole before any of them is used. A position is
checked in any case where it is used. -/
def areChecked : Bool := true

/-- Refuses a list of positions at its first one past the end. -/
def checkIndices (access : Access) (indices : List Nat) (length : Nat) :
    Except Violation Unit :=
  if areChecked then
    match indices.find? (length ≤ ·) with
    | some index => .error (.outOfBounds access index length)
    | none => .ok ()
  else .ok ()

theorem checkIndices_of_none {indices : List Nat} {length : Nat}
    (h : indices.find? (length ≤ ·) = none) (access : Access) :
    checkIndices access indices length = .ok () := by
  rw [checkIndices, areChecked, if_pos rfl, h]

theorem checkIndices_of_some {indices : List Nat} {length index : Nat}
    (h : indices.find? (length ≤ ·) = some index) (access : Access) :
    checkIndices access indices length = .error (.outOfBounds access index length) := by
  rw [checkIndices, areChecked, if_pos rfl, h]

/-- Refuses to pair records of different lengths. -/
def checkShape (pairing : Pairing) (left right : Nat) : Except Violation Unit :=
  if left = right then .ok () else .error (.shapeMismatch pairing left right)

end Violation

end PositionalRecord
