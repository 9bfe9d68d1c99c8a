import PositionalRecord.Record.Basic
import PositionalRecord.Row.Traverse
import PositionalRecord.Run

/-!
# Traversing records

Making pending changes is reported in the log before anything else happens. A traversal of a
record makes the changes first, so the function is called on the current fields only, and then
goes on like the traversal of a row.
-/

namespace PositionalRecord

variable {ν σ α β : Type}

/-- Builds a row from fields that nobody has checked, and reports a refusal. -/
def Row.admit (expected : Nat) (fields : List α) : Run ν σ (Except Refusal (Row α)) := do
  match Row.ofUnchecked expected fields with
  | .ok row => return .ok row
  | .error refusal =>
    Run.report (.refusedFields expected fields.length)
    return .error refusal

/-- What is reported before the changes are made on `row`. -/
def Pending.receipt (pending : Pending α) (row : Row α) : Entry :=
  .flush pending.overwrites.length pending.prepended row.length

/-- Reports the changes and makes them on `row`. -/
def Pending.commit (pending : Pending α) (row : Row α) : Run ν σ (Row α) := do
  Run.report (pending.receipt row)
  Run.ofExcept (pending.apply row)

namespace Record

/-- The row that the pending changes make. Nothing is reported for a clean record. -/
def commit (record : Record α) : Run ν σ (Row α) :=
  if record.isDirty then record.pending.commit record.row else pure record.row

def settle (record : Record α) : Run ν σ (Record α) :=
  ofRow <$> record.commit

/-- Flushes and calls `f` on every field; the clean record of its answers. -/
def mapM (f : α → Run ν σ β) (record : Record α) : Run ν σ (Record β) := do
  return ofRow (← (← record.commit).mapM f)

/-- Flushes and calls `f` on every field up to the first residual. -/
def traverse {F : Type → Type} {ρ : Type} [Effect F ρ] (f : α → Run ν σ (F β))
    (record : Record α) : Run ν σ (F (Row β)) := do
  (← record.commit).traverse f

end Record

end PositionalRecord
