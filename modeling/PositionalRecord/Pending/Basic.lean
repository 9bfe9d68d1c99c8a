import PositionalRecord.Pending.Overwrites
import PositionalRecord.Row.Basic

/-!
# Pending changes

A `Pending` collects changes of a row that have not been made yet: fields to be prepended, and
overwrites of the row's own fields. The prepended fields stand in a buffer with the first row at
its end, so that prepending is pushing. An overwrite is kept under the position that the field has
in the row itself, which later prepends do not move.
-/

namespace PositionalRecord

/-- Changes of a row that have not been made yet. -/
structure Pending (α : Type) where
  /-- Overwrites of the row's own fields, by their position in the row. -/
  overwrites : Overwrites α
  /-- Prepended fields, the last row first. -/
  buffer : Array α
deriving DecidableEq

namespace Pending

variable {α β : Type}

def empty : Pending α := ⟨.empty, #[]⟩

/-- The number of prepended fields. -/
def prepended (pending : Pending α) : Nat := pending.buffer.size

def isEmpty (pending : Pending α) : Bool :=
  pending.overwrites.isEmpty && pending.buffer.isEmpty

/-- The prepended fields in row order. -/
def fields (pending : Pending α) : List α := pending.buffer.toList.reverse

/-- Counted from the other end of the buffer, a position is one of the buffer. -/
theorem mirror_lt {size index : Nat} (h : index < size) : size - 1 - index < size := by omega

/-- The field at `index` of the record that the changes of `row` make. -/
def get (pending : Pending α) (row : Row α) (index : Nat) : Except Violation α :=
  if h : index < pending.buffer.size then
    have hmirror := mirror_lt h
    .ok pending.buffer[pending.buffer.size - 1 - index]
  else
    match pending.overwrites.find? (index - pending.buffer.size) with
    | some field => .ok field
    | none => row.get (index - pending.buffer.size)

/-- Overwrites the field at `index` of the record in the making. The caller knows the length of
that record; nothing is checked. -/
def set (pending : Pending α) (index : Nat) (field : α) : Pending α :=
  if _ : index < pending.buffer.size then
    { pending with buffer := pending.buffer.set (pending.buffer.size - 1 - index) field }
  else
    { pending with overwrites := pending.overwrites.put (index - pending.buffer.size) field }

/-- Prepends `fields`, already in row order. -/
def prepend (pending : Pending α) (fields : List α) : Pending α :=
  { pending with buffer := pending.buffer ++ fields.reverse.toArray }

/-- Makes the changes: one batch of overwrites, then one prepend. -/
def apply (pending : Pending α) (row : Row α) : Except Violation (Row α) := do
  return (← row.overwrite pending.overwrites.entries).prepend pending.fields

/-- The rows of the record that the changes of `row` make, overwrites past its end having no
effect. -/
def rows (pending : Pending α) (row : Row α) : List α :=
  pending.fields ++ pending.overwrites.overlay row.toList

/-- Acts on all values, also on those that another change hides. -/
def map (f : α → β) (pending : Pending α) : Pending β :=
  ⟨pending.overwrites.map f, pending.buffer.map f⟩

end Pending

end PositionalRecord
