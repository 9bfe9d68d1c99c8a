import PositionalRecord.Value.Basic

/-!
# Asking for the content of a value

A value gives its content out only to someone who asks for the right kind. A seal does not matter
here: it hides the content from text and comparison, not from its owner.
-/

namespace PositionalRecord.Value

def is (value : Value) (kind : Kind) : Bool := value.kind == kind

def contentAs? (value : Value) (kind : Kind) : Option (Content Value) :=
  if value.is kind then some value.content else none

/-- The refusal of a value of another kind than the one asked for. -/
def mismatch (value : Value) (kind : Kind) : Refusal := .invalidType kind.label value.label

/-- The content, refused unless it is of this kind. -/
def contentAs (value : Value) (kind : Kind) : Except Refusal (Content Value) :=
  match value.contentAs? kind with
  | some content => .ok content
  | none => .error (value.mismatch kind)

/-! ## Kinds with a shape of their own -/

/-- The 64-bit integer in a value. An integer of another format is refused. -/
def toInt (value : Value) : Except Refusal Int :=
  match value.content with
  | .scalar (.int .i64 n) => .ok n
  | _ => .error (value.mismatch (.int .i64))

def toRow (value : Value) : Except Refusal (Row Value) :=
  match value.content with
  | .row r => .ok r
  | _ => .error (value.mismatch .row)

def toRecord (value : Value) : Except Refusal (Record Value) :=
  match value.content with
  | .record r => .ok r
  | _ => .error (value.mismatch .record)

def toValues (value : Value) : Except Refusal (List Value) :=
  match value.content with
  | .list vs => .ok vs
  | _ => .error (value.mismatch .list)

def toBoxed (value : Value) : Except Refusal Value :=
  match value.content with
  | .boxed v => .ok v
  | _ => .error (value.mismatch .boxed)

def toConstant (value : Value) : Except Refusal (Constant Value) :=
  match value.content with
  | .constant k => .ok k
  | _ => .error (value.mismatch .constant)

end PositionalRecord.Value
