import Lisplet.Number.Binary64

/-!
# Numerals

The grammar of number literals: an optional minus, digits, an optional fraction and an optional
exponent. `scan` takes the numeral at the front of a literal and leaves what follows it.
-/

namespace Lisplet

/-- The parts of a number literal. -/
structure Numeral where
  negative : Bool
  whole : List Char
  fraction : List Char
  exponent : Int
deriving DecidableEq, Repr

namespace Numeral

/-- The magnitude that a numeral denotes. -/
def toDecimal (n : Numeral) : Decimal :=
  ⟨Nat.ofDigitChars 10 (n.whole ++ n.fraction) 0, n.exponent - n.fraction.length⟩

/-- The double nearest to what a numeral denotes. -/
def toDouble (n : Numeral) : Float := Binary64.ofDecimal n.negative n.toDecimal

/-- Takes an optional minus. -/
def scanSign : List Char → Bool × List Char
  | '-' :: cs => (true, cs)
  | cs => (false, cs)

/-- Takes a point and the digits behind it, which may be none. -/
def scanFraction : List Char → List Char × List Char
  | '.' :: cs => (cs.takeWhile Char.isDigit, cs.dropWhile Char.isDigit)
  | cs => ([], cs)

/-- Takes the sign of an exponent. -/
def scanExponentSign : List Char → Bool × List Char
  | '+' :: cs => (false, cs)
  | cs => scanSign cs

/-- Takes an exponent if at least one digit follows its mark and sign. -/
def scanExponent? : List Char → Option (Int × List Char)
  | [] => none
  | c :: cs =>
    if c = 'e' ∨ c = 'E' then
      let (negative, behind) := scanExponentSign cs
      let digits := behind.takeWhile Char.isDigit
      if digits.isEmpty then none
      else
        let e := Nat.ofDigitChars 10 digits 0
        some (if negative then -(e : Int) else e, behind.dropWhile Char.isDigit)
    else none

/-- The numeral at the front of a literal and the characters behind it; `none` unless the literal
starts with an optional minus and a digit. -/
def scan (cs : List Char) : Option (Numeral × List Char) :=
  let (negative, unsigned) := scanSign cs
  let whole := unsigned.takeWhile Char.isDigit
  if whole.isEmpty then none
  else
    let (fraction, behind) := scanFraction (unsigned.dropWhile Char.isDigit)
    let (exponent, rest) := (scanExponent? behind).getD (0, behind)
    some (⟨negative, whole, fraction, exponent⟩, rest)

end Numeral

end Lisplet
