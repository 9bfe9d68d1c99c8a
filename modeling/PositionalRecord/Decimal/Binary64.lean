/-!
# Binary floating-point numbers of 64 bits

A number is kept as its bits: a sign, 11 bits of exponent and 52 bits of fraction. All arithmetic
on it is exact arithmetic on natural numbers: a finite magnitude is `significand * 2 ^ (shift -
1074)`, and `ofRatio` gives the number nearest to a ratio, a tie going to the even significand.
-/

namespace PositionalRecord

/-- A binary floating-point number of 64 bits. -/
structure Binary64 where
  bits : UInt64
deriving DecidableEq

namespace Binary64

/-! ## Parts -/

/-- The bit of the sign, `2 ^ 63`. -/
def signBit : Nat := 0x8000000000000000

/-- The hidden bit of a significand, `2 ^ 52`. It stands where the bits of the exponent begin. -/
def hiddenBit : Nat := 0x10000000000000

def isNegative (x : Binary64) : Bool := signBit ≤ x.bits.toNat

/-- The bits below the sign. -/
def magnitude (x : Binary64) : Nat := x.bits.toNat % signBit

/-- The bits below the sign of an infinity. -/
def infinite : Nat := 0x7FF * hiddenBit

def isNaN (x : Binary64) : Bool := infinite < x.magnitude

def isInfinite (x : Binary64) : Bool := x.magnitude == infinite

def isZero (x : Binary64) : Bool := x.magnitude == 0

/-- The power of two by which the significand of a finite number is shifted, counted from the
least one. Numbers without the hidden bit have the least power. -/
def shift (x : Binary64) : Nat := x.magnitude / hiddenBit - 1

/-- The significand of a finite number, with the hidden bit where there is one. -/
def significand (x : Binary64) : Nat := x.magnitude - x.shift * hiddenBit

/-- Equality of numbers: one that is not a number equals nothing, and the two zeros are equal. -/
def equal (x y : Binary64) : Bool :=
  !x.isNaN && !y.isNaN && (x.bits == y.bits || (x.isZero && y.isZero))

/-! ## Building -/

def ofMagnitude (negative : Bool) (magnitude : Nat) : Binary64 :=
  ⟨UInt64.ofNat (magnitude + if negative then signBit else 0)⟩

def infinity (negative : Bool) : Binary64 := ofMagnitude negative infinite

/-- The one value that is not a number and that reading gives. -/
def notANumber : Binary64 := ofMagnitude false (infinite + hiddenBit / 2)

/-- The nearest natural number to `numerator / denominator`, a tie going to the even one. -/
def roundEven (numerator denominator : Nat) : Nat :=
  let quotient := numerator / denominator
  let twice := 2 * (numerator % denominator)
  if twice < denominator then quotient
  else if denominator < twice then quotient + 1
  else quotient + quotient % 2

/-- The shift at which the significand of the positive `numerator / denominator` fills 53 bits, or
the least shift where even that leaves it shorter. -/
def shiftOf (numerator denominator : Nat) : Nat :=
  let guess := 1074 + numerator.log2 - denominator.log2 - 52
  if numerator <<< 1074 < denominator <<< (guess + 52) then guess - 1 else guess

/-- The number nearest to the positive `numerator / denominator`, an infinity past the largest
finite number. The bits of a magnitude count through all significands of one shift before the
next, so a significand that rounding carries into the next shift needs no attention. -/
def ofRatio (negative : Bool) (numerator denominator : Nat) : Binary64 :=
  let shift := shiftOf numerator denominator
  let significand := roundEven (numerator <<< 1074) (denominator <<< shift)
  ofMagnitude negative (min infinite (shift * hiddenBit + significand))

end Binary64

end PositionalRecord
