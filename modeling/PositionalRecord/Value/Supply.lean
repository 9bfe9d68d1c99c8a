import PositionalRecord.Value.Basic

/-!
# New values

A new value is put into a cell that no value has been put into before. The supply counts the cells
that have been used.
-/

namespace PositionalRecord

/-- Computations that may make new values. The state is the next unused cell. -/
abbrev Supply := StateM Nat

namespace Supply

/-- Puts a content into a new cell. -/
def place (isSealed : Bool) (content : Content Value) : Supply Value := fun cell ↦
  (⟨cell, isSealed, content⟩, cell + 1)

/-- Puts a content that may be seen into a new cell. -/
def new (content : Content Value) : Supply Value := place false content

def scalar (s : Scalar) : Supply Value := new (.scalar s)

def int (n : Int) : Supply Value := scalar (.int .i64 n)

/-- The integers from `first` up to, but not including, `last`, each in a new cell. -/
def range (first last : Int) : Supply (List Value) :=
  (List.range (last - first).toNat).mapM fun (offset : Nat) ↦ int (first + offset)

end Supply

end PositionalRecord
