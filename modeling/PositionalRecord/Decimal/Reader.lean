import PositionalRecord.Decimal.Shortest

/-!
# Reading numbers

A number is read from an optional sign and either a name (of an infinity, or of what is not a
number, in any case) or decimal digits with an optional point and an optional exponent. At least
one digit stands before the exponent. The result is the nearest number.
-/

namespace PositionalRecord

namespace Decimal

def spanDigits (text : List Char) : List Char × List Char :=
  (text.takeWhile Char.isDigit, text.dropWhile Char.isDigit)

def ofDigits (digits : List Char) : Nat :=
  digits.foldl (fun value digit ↦ 10 * value + (digit.toNat - 48)) 0

/-- Splits off a sign; no sign is a plus. -/
def splitSign : List Char → Bool × List Char
  | '-' :: rest => (true, rest)
  | '+' :: rest => (false, rest)
  | text => (false, text)

/-- Reads an exponent, if the text is one: nothing at all, or `e` with a sign and digits. -/
def readExponent? : List Char → Option Int
  | [] => some 0
  | mark :: rest =>
    if mark = 'e' ∨ mark = 'E' then
      let (negative, digits) := splitSign rest
      if digits.isEmpty || !digits.all Char.isDigit then none
      else some (if negative then -ofDigits digits else ofDigits digits)
    else none

def read? (text : List Char) : Option Decimal :=
  let (whole, rest) := spanDigits text
  let (fraction, rest) :=
    match rest with
    | '.' :: rest => spanDigits rest
    | rest => ([], rest)
  if whole.isEmpty && fraction.isEmpty then none
  else
    (readExponent? rest).map fun exponent ↦
      ⟨ofDigits (whole ++ fraction), exponent - fraction.length⟩

/-- The number nearest to a decimal. Decimals far beyond the finite numbers, or far below the
least positive one, are not worked out. -/
def toBinary64 (negative : Bool) (decimal : Decimal) : Binary64 :=
  if decimal.digits = 0 then .ofMagnitude negative 0
  else
    let decade := digitCount decimal.digits + decimal.exponent
    if 400 < decade then .infinity negative
    else if decade < -400 then .ofMagnitude negative 0
    else
      .ofRatio negative (decimal.digits * Nat.pow 10 decimal.exponent.toNat)
        (Nat.pow 10 (-decimal.exponent).toNat)

end Decimal

def Binary64.read? (text : String) : Option Binary64 :=
  let (negative, unsigned) := Decimal.splitSign text.toList
  let name := String.ofList (unsigned.map Char.toLower)
  if name = "nan" then some notANumber
  else if name = "inf" ∨ name = "infinity" then some (infinity negative)
  else (Decimal.read? unsigned).map (Decimal.toBinary64 negative)

end PositionalRecord
