import PositionalRecord.Record.Basic
import PositionalRecord.Word

/-!
# Records by machine words

The operations on pending changes and on records as a machine computes them, with positions and
lengths in words: every sum, every difference and every access to the buffer of prepended fields is
checked. So is every hand-over of a position from a record to its pending changes, which would show
a position that the record does not have. Whether there is memory for a buffer is left to the
allocator.
-/

namespace PositionalRecord

variable {α : Type}

/-! ## Pending changes -/

namespace Pending

def prependedWord (pending : Pending α) : Word := .ofLength pending.buffer.size

/-- The place in the buffer of the prepended field at `index`, counted from the other end. -/
def mirror (pending : Pending α) (index : Word) : Except Trap Word := do
  Word.difference (← Word.difference pending.prependedWord 1) index

/-- The field at `index` of the record that the changes of `row` make. The prepended fields are
counted from the other end of the buffer; without them, what is left is a position of the row. -/
def getByWord (pending : Pending α) (row : Row α) (index : Word) : Except Trap α := do
  if index < pending.prependedWord then
    Word.fetch pending.buffer (← pending.mirror index)
  else
    let key ← Word.difference index pending.prependedWord
    match pending.overwrites.find? key.toNat with
    | some field => return field
    | none => Trap.ofExcept (row.get key.toNat)

/-- Overwrites the field at `index` of the record in the making. Only the arithmetic is checked. -/
def setByWord (pending : Pending α) (index : Word) (field : α) : Except Trap (Pending α) := do
  if index < pending.prependedWord then
    let buffer ← Word.store pending.buffer (← pending.mirror index) field
    return { pending with buffer }
  else
    let key ← Word.difference index pending.prependedWord
    return { pending with overwrites := pending.overwrites.put key.toNat field }

/-- Makes the changes, in a buffer that is to hold the prepended fields and those of the row. -/
def applyByWords (pending : Pending α) (row : Row α) : Except Trap (Row α) := do
  let overwritten ← Trap.ofExcept (row.overwrite pending.overwrites.entries)
  -- The sum is the size to ask for; nothing else is computed from it.
  let _ ← Word.sum pending.prependedWord (.ofLength overwritten.length)
  return overwritten.prepend pending.fields

end Pending

/-! ## Records -/

namespace Record

/-- The number of fields, pending ones included, as long as the sum is a word. -/
def lengthWord (record : Record α) : Except Trap Word :=
  Word.sum (.ofLength record.row.length) record.pending.prependedWord

/-- Hands a position of a record of `length` fields on to its pending changes. -/
def handOn (record : Record α) (length index : Word) : Except Trap α :=
  if index < length then record.pending.getByWord record.row index
  else .error (.handedPast index length)

def getByWord (record : Record α) (index : Word) : Except Trap α := do
  let length ← record.lengthWord
  if index < length then record.handOn length index
  else throw (.violation (.outOfBounds .get index.toNat length.toNat))

def setByWord (record : Record α) (index : Word) (field : α) : Except Trap (Record α) := do
  let length ← record.lengthWord
  if index < length then
    let pending ← record.pending.setByWord index field
    return { record with pending }
  else throw (.violation (.outOfBounds .set index.toNat length.toNat))

/-- Reads the current fields one after the other through the pending changes. The length is
computed once. -/
def scanByWords (record : Record α) : Except Trap (List α) := do
  let length ← record.lengthWord
  (Word.below length).mapM (record.handOn length)

/-- A dirty record is read field by field; a clean one leaves the positions to its row, which
compares them and does not compute with them. -/
def projectByWords (record : Record α) (indices : List Word) : Except Trap (Record α) :=
  if record.isDirty then ofList <$> indices.mapM record.getByWord
  else Trap.ofExcept (ofRow <$> record.row.project (indices.map UInt64.toNat))

def toRowByWords (record : Record α) : Except Trap (Row α) :=
  if record.isDirty then record.pending.applyByWords record.row else .ok record.row

def settleByWords (record : Record α) : Except Trap (Record α) :=
  ofRow <$> record.toRowByWords

end Record

end PositionalRecord
