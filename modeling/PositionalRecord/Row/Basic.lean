import PositionalRecord.Violation
import PositionalRecord.Refusal
import PositionalRecord.Constant

/-!
# Rows

A `Row` is a record without pending changes: its fields in order, in one flat array. It knows no
field names; a field is addressed by its position. Every operation gives a new row and leaves the
old one as it was. What an operation means is said through `Row.toList`.
-/

namespace PositionalRecord

/-- The fields of a record, laid out in row order. -/
structure Row (α : Type) where
  slots : Array α
deriving DecidableEq

namespace Row

variable {α β : Type}

/-! ## Building and viewing -/

def empty : Row α := ⟨#[]⟩

instance : Inhabited (Row α) := ⟨empty⟩

/-- The row of these fields, which are already in row order. -/
def ofList (fields : List α) : Row α := ⟨fields.toArray⟩

def toList (row : Row α) : List α := row.slots.toList

def length (row : Row α) : Nat := row.slots.size

def isEmpty (row : Row α) : Bool := row.slots.isEmpty

/-- The row of fields that nobody has checked, refused unless there are `expected` of them. -/
def ofUnchecked (expected : Nat) (fields : List α) : Except Refusal (Row α) :=
  if fields.length = expected then .ok (ofList fields)
  else .error (.wrongNumberOfFields expected fields.length)

/-! ## Access by position -/

/-- The field at `index`, which is refused past the end. -/
def get (row : Row α) (index : Nat) : Except Violation α :=
  match row.slots[index]? with
  | some field => .ok field
  | none => .error (.outOfBounds .get index row.length)

/-- Writes one field of a batch. -/
def write (row : Row α) (update : Nat × α) : Except Violation (Row α) :=
  if h : update.1 < row.slots.size then .ok ⟨row.slots.set update.1 update.2 h⟩
  else .error (.outOfBounds .overwrite update.1 row.length)

/-- Overwrites a batch of fields in the order of the batch, so the last update of an index wins. -/
def overwrite (row : Row α) (updates : List (Nat × α)) : Except Violation (Row α) :=
  updates.foldlM write row

/-- Overwrites a batch of fields of a copy and gives the copy. The row in hand is only read, and an
empty batch asks for nothing but the copy. -/
def overwriteCopy (updates : List (Nat × α)) : EStateM Violation (Row α) (Row α) := do
  let row ← getThe (Row α)
  if updates.isEmpty then return row
  match row.overwrite updates with
  | .ok copy => return copy
  | .error violation => throw violation

/-- The row with `fields`, already in row order, before its own. -/
def prepend (row : Row α) (fields : List α) : Row α := ⟨fields.toArray ++ row.slots⟩

/-- The row whose field `k` is the field at position `indices[k]`. All positions are checked
before any field is read. -/
def project (row : Row α) (indices : List Nat) : Except Violation (Row α) := do
  Violation.checkIndices .project indices row.length
  return ofList (← indices.mapM row.get)

/-! ## Field by field -/

def map (f : α → β) (row : Row α) : Row β := ⟨row.slots.map f⟩

def ofConstants (fields : List α) : Row (Constant α) := ofList (fields.map Constant.mk)

/-- The values that a row of constants holds. -/
def collapse (row : Row (Constant α)) : List α := row.toList.map Constant.inner

/-! ## Through the list of fields -/

@[simp]
theorem toList_ofList (fields : List α) : (ofList fields).toList = fields := rfl

@[simp]
theorem ofList_toList (row : Row α) : ofList row.toList = row := rfl

@[simp]
theorem toList_empty : (empty : Row α).toList = [] := rfl

theorem ext_toList {left right : Row α} (h : left.toList = right.toList) : left = right := by
  rw [← ofList_toList left, h, ofList_toList]

@[simp]
theorem length_toList (row : Row α) : row.toList.length = row.length := by
  simp [toList, length]

@[simp]
theorem toList_prepend (row : Row α) (fields : List α) :
    (row.prepend fields).toList = fields ++ row.toList := by
  simp [prepend, toList]

@[simp]
theorem toList_map (f : α → β) (row : Row α) : (row.map f).toList = row.toList.map f := by
  simp [map, toList]

@[simp]
theorem collapse_ofConstants (fields : List α) : (ofConstants fields).collapse = fields := by
  simp [ofConstants, collapse, Function.comp_def]

theorem collapse_map (f : α → β) (row : Row (Constant α)) :
    (row.map (Constant.map f)).collapse = row.collapse.map f := by
  simp only [collapse, toList_map, List.map_map]
  rfl

end Row

end PositionalRecord
