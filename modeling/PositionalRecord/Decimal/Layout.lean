import PositionalRecord.Decimal.Shortest

/-!
# The text of a number

A number is written with the digits of its shortest decimal: positionally, with at least one digit
after the point, or with an exponent if it is very large or very small.
-/

namespace PositionalRecord

namespace Decimal

/-- Which decimal orders of magnitude are written without an exponent. -/
structure Format where
  leastPositional : Int
  firstExponential : Int

/-- Numbers from `1e-4` up to, but not including, `1e16` are written without an exponent. -/
def Format.standard : Format := ⟨-4, 16⟩

def digitList (decimal : Decimal) : List Char := Nat.toDigits 10 decimal.digits

/-- The order of magnitude: the exponent of the first digit. -/
def order (decimal : Decimal) : Int := decimal.digitList.length - 1 + decimal.exponent

/-- The decimal written positionally, with at least one digit after the point. -/
def positional (decimal : Decimal) : List Char :=
  let digits := decimal.digitList
  let order := decimal.order
  if order < 0 then
    ['0', '.'] ++ List.replicate (-order - 1).toNat '0' ++ digits
  else
    let whole := order.toNat + 1
    let fraction := digits.drop whole
    digits.take whole ++ List.replicate (whole - digits.length) '0' ++ ['.'] ++
      (if fraction.isEmpty then ['0'] else fraction)

/-- The decimal written with one digit before the point and an exponent. The point is written only
before further digits. -/
def exponential (decimal : Decimal) : List Char :=
  let digits := decimal.digitList
  let fraction := digits.drop 1
  digits.take 1 ++ (if fraction.isEmpty then [] else '.' :: fraction) ++
    'e' :: (toString decimal.order).toList

def written (format : Format) (decimal : Decimal) : List Char :=
  if format.leastPositional ≤ decimal.order ∧ decimal.order < format.firstExponential then
    decimal.positional
  else decimal.exponential

end Decimal

namespace Binary64

def magnitudeText (x : Binary64) : String :=
  if x.isInfinite then "inf"
  else if x.isZero then "0.0"
  else String.ofList ((Decimal.shortest x).written .standard)

/-- The text of a number. A value that is not a number has no sign. -/
def text (x : Binary64) : String :=
  if x.isNaN then "NaN"
  else if x.isNegative then "-" ++ x.magnitudeText
  else x.magnitudeText

end Binary64

end PositionalRecord
