import PositionalRecord.Decimal.Layout
import PositionalRecord.Refusal
import PositionalRecord.Text.Doc
import PositionalRecord.Value.Kind

/-!
# Scalars

A scalar is the content of a value that holds no further value.
-/

namespace PositionalRecord

/-- Contents without values inside. All tokens of one type are alike. -/
inductive Scalar
  | unit
  | bool (b : Bool)
  | char (c : Char)
  | int (format : IntFormat) (n : Int)
  | float (x : Binary64)
  | slice (text : String)
  | string (text : String)
  | ints (ns : List Int)
  | optInt (n : Option Int)
  | token (type : TokenType)
  | refusal (r : Refusal)
deriving DecidableEq

namespace Scalar

def kind : Scalar → Kind
  | .unit => .unit
  | .bool _ => .bool
  | .char _ => .char
  | .int format _ => .int format
  | .float _ => .float
  | .slice _ => .slice
  | .string _ => .string
  | .ints _ => .ints
  | .optInt _ => .optInt
  | .token type => .token type
  | .refusal _ => .refusal

/-- Equality of scalars: of floating-point numbers as numbers, of all others as they stand. -/
def equal : Scalar → Scalar → Bool
  | .float x, .float y => x.equal y
  | a, b => decide (a = b)

def intDoc (n : Int) : Doc := .atom (toString n)

def refusalDoc : Refusal → Doc
  | .invalidType expected provided =>
    .fields "InvalidType"
      [("expected", .string expected), ("provided", .string provided)]
  | .wrongNumberOfFields expected provided =>
    .fields "WrongNumberOfFields"
      [("expected", intDoc expected), ("provided", intDoc provided)]

def doc : Scalar → Doc
  | .unit => .atom "()"
  | .bool b => .atom (if b then "true" else "false")
  | .char c => .char c
  | .int _ n => intDoc n
  | .float x => .atom x.text
  | .slice text => .string text
  | .string text => .string text
  | .ints ns => .list (ns.map intDoc)
  | .optInt (some n) => .applied "Some" (intDoc n)
  | .optInt none => .atom "None"
  | .token type => .atom type.shown
  | .refusal r => refusalDoc r

end Scalar

end PositionalRecord
