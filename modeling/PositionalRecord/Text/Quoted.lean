/-!
# Quoted text

A text is written between quotes, with backslash escapes for the quote itself, for the backslash,
and for control characters. A control character without an escape of its own is written as the
hexadecimal number of its code point in braces, and so is a character that cannot be printed, or
only together with the character before it. Which characters these are changes with the tables of
characters, so a predicate `isUnprintable` says it. Every other character stands for itself.
-/

namespace PositionalRecord.Quoted

def single : Char := '\x27'

def double : Char := '\x22'

def backslash : Char := '\x5c'

/-- The control characters: the 32 code points from zero, and the 33 from 127. -/
def isControl (c : Char) : Bool := c.toNat < 32 || (127 ≤ c.toNat && c.toNat < 160)

/-- The escape of a character by its number. -/
def numbered (c : Char) : List Char :=
  [backslash, 'u', '\x7b'] ++ Nat.toDigits 16 c.toNat ++ ['\x7d']

/-- What is written for a character between these quotes. An escape of its own goes before the
escape by number. -/
def escape (isUnprintable : Char → Bool) (quote c : Char) : List Char :=
  if c = quote ∨ c = backslash then [backslash, c]
  else if c = '\x00' then [backslash, '0']
  else if c = '\t' then [backslash, 't']
  else if c = '\n' then [backslash, 'n']
  else if c = '\r' then [backslash, 'r']
  else if isControl c || isUnprintable c then numbered c
  else [c]

def enclose (isUnprintable : Char → Bool) (quote : Char) (content : List Char) : String :=
  String.ofList (quote :: content.flatMap (escape isUnprintable quote) ++ [quote])

end PositionalRecord.Quoted
