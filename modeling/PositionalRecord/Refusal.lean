/-!
# Refusals

A refusal is the answer to data that has not been checked against the layout of a record: values
in the wrong number, or a value of another type than the one asked for. It is an ordinary result,
which the caller handles, and not a violated contract.
-/

namespace PositionalRecord

/-- Why unchecked data was refused. -/
inductive Refusal
  | invalidType (expected provided : String)
  | wrongNumberOfFields (expected provided : Nat)
deriving DecidableEq

namespace Refusal

def message : Refusal → String
  | .invalidType expected provided =>
    "invalid type: expected " ++ expected ++ ", provided " ++ provided
  | .wrongNumberOfFields expected provided =>
    "wrong number of fields: expected " ++ toString expected ++ ", provided " ++ toString provided

end Refusal

end PositionalRecord
