import PositionalRecord.Pending.Basic

/-!
# Records with pending changes

A `Record` is a row with changes that have not been made yet. Writing a field and prepending
fields only adds to the changes; reading goes through them. Making them is flushing, after which
the record is clean again.
-/

namespace PositionalRecord

/-- A row and the changes pending on it. -/
structure Record (α : Type) where
  row : Row α
  pending : Pending α
deriving DecidableEq

namespace Record

variable {α β : Type}

/-! ## Building and viewing -/

def ofRow (row : Row α) : Record α := ⟨row, .empty⟩

/-- The clean record of these fields, already in row order. -/
def ofList (fields : List α) : Record α := ofRow (.ofList fields)

def empty : Record α := ofRow .empty

/-- The number of fields, pending ones included. -/
def length (record : Record α) : Nat := record.row.length + record.pending.prepended

def isEmpty (record : Record α) : Bool := record.length == 0

/-- Whether there are changes that have not been flushed. -/
def isDirty (record : Record α) : Bool := !record.pending.isEmpty

/-- The current fields in row order. -/
def toList (record : Record α) : List α := record.pending.rows record.row

/-! ## Access by position -/

def get (record : Record α) (index : Nat) : Except Violation α :=
  if index < record.length then record.pending.get record.row index
  else .error (.outOfBounds .get index record.length)

def set (record : Record α) (index : Nat) (field : α) : Except Violation (Record α) :=
  if index < record.length then .ok { record with pending := record.pending.set index field }
  else .error (.outOfBounds .set index record.length)

def prepend (record : Record α) (fields : List α) : Record α :=
  { record with pending := record.pending.prepend fields }

/-- Reads the current fields one after the other through the pending changes. -/
def scan (record : Record α) : Except Violation (List α) :=
  (List.range record.length).mapM (record.pending.get record.row)

/-! ## Flushing -/

def toRow (record : Record α) : Except Violation (Row α) :=
  if record.isDirty then record.pending.apply record.row else .ok record.row

/-- The clean record whose field `k` is the current field at position `indices[k]`. A dirty
record is read through its changes, which stay pending on the source. -/
def project (record : Record α) (indices : List Nat) : Except Violation (Record α) :=
  if record.isDirty then ofList <$> indices.mapM record.get
  else ofRow <$> record.row.project indices

/-! ## Field by field -/

/-- Acts on all values, also on those that a pending change hides. -/
def mapStored (f : α → β) (record : Record α) : Record β :=
  ⟨record.row.map f, record.pending.map f⟩

theorem toList_mapStored (f : α → β) (record : Record α) :
    (record.mapStored f).toList = record.toList.map f := by
  simp only [toList, mapStored, Pending.map, Pending.rows, Pending.fields, Row.toList_map,
    Array.toList_map, ← List.map_reverse, Overwrites.overlay_map, List.map_append]

end Record

end PositionalRecord
