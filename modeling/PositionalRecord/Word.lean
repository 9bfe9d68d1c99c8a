import PositionalRecord.Violation

/-!
# Machine words

A machine keeps positions and lengths in words of 64 bits. Arithmetic on words is checked: a sum
that is too large and a difference below zero trap, and so does a place past the end of a buffer.
-/

namespace PositionalRecord

/-- A position or a length as a machine keeps it. -/
abbrev Word := UInt64

/-- Why a computation with words stops: arithmetic that leaves the words, a place past the end of a
buffer, a position handed on for a record of `length` fields that does not have it, or a violated
contract. -/
inductive Trap
  | overflow (left right : Word)
  | underflow (left right : Word)
  | pastBuffer (place : Word) (size : Nat)
  | handedPast (index length : Word)
  | violation (broken : Violation)
deriving DecidableEq

/-- The answer of a checked operation, its violation being a trap. -/
def Trap.ofExcept {α : Type} (outcome : Except Violation α) : Except Trap α :=
  outcome.mapError .violation

/-- No buffer is longer than an allocator can make it: all are shorter than `2 ^ 63`. -/
def storageLimit : Nat := 0x8000000000000000

namespace Word

variable {α : Type}

def ofLength (length : Nat) : Word := UInt64.ofNat length

/-- The sum, unless it is too large for a word. -/
def sum (left right : Word) : Except Trap Word :=
  if left.toNat + right.toNat < UInt64.size then .ok (left + right)
  else .error (.overflow left right)

/-- The difference, unless it is below zero. -/
def difference (left right : Word) : Except Trap Word :=
  if right ≤ left then .ok (left - right) else .error (.underflow left right)

def fetch (buffer : Array α) (place : Word) : Except Trap α :=
  match buffer[place.toNat]? with
  | some field => .ok field
  | none => .error (.pastBuffer place buffer.size)

/-- Writes one place of a buffer. -/
def store (buffer : Array α) (place : Word) (field : α) : Except Trap (Array α) :=
  if h : place.toNat < buffer.size then .ok (buffer.set place.toNat field h)
  else .error (.pastBuffer place buffer.size)

/-- The positions below a length, in order. -/
def below (length : Word) : List Word := (List.range length.toNat).map UInt64.ofNat

end Word

end PositionalRecord
