import Lisplet.Number.Numeral
import Lisplet.Number.Shortest

/-!
# Number text

The digits of a double laid out as text, with the point inside the digits where it is near them and
with an exponent elsewhere. Source text and the inspection form differ in where they change over;
`cutDigits` gets the digits and the point back out of either.
-/

namespace Lisplet

/-- How numbers are spelled. -/
structure NumberStyle where
  /-- Points above `least` and up to `greatest` are written without an exponent. -/
  least : Int
  greatest : Int
  /-- What follows the digits of a whole number written without an exponent. -/
  wholeEnd : List Char
  /-- Exponents are padded with zeros to this many digits. -/
  exponentWidth : Nat
  /-- Whether the sign of a negative zero is written. -/
  signedZero : Bool
  nan : List Char
  infinity : List Char

namespace NumberStyle

/-- Numbers in source text. -/
def source : NumberStyle where
  least := -6
  greatest := 21
  wholeEnd := []
  exponentWidth := 1
  signedZero := false
  nan := "NaN".toList
  infinity := "Infinity".toList

/-- Numbers as they are inspected. -/
def inspection : NumberStyle where
  least := -4
  greatest := 16
  wholeEnd := ".0".toList
  exponentWidth := 2
  signedZero := true
  nan := "nan".toList
  infinity := "inf".toList

/-- The digits with the point at `point` and no exponent. -/
def positional (style : NumberStyle) (digits : List Char) (point : Int) : List Char :=
  if digits.length ≤ point then
    digits ++ List.replicate (point - digits.length).toNat '0' ++ style.wholeEnd
  else if 0 < point then
    digits.take point.toNat ++ '.' :: digits.drop point.toNat
  else
    '0' :: '.' :: (List.replicate (-point).toNat '0' ++ digits)

/-- An exponent of ten with its sign. -/
def exponent (style : NumberStyle) (e : Int) : List Char :=
  let digits := Nat.toDigits 10 e.natAbs
  'e' :: (if 0 < e then '+' else '-')
    :: (List.replicate (style.exponentWidth - digits.length) '0' ++ digits)

/-- The digits with a point after the first one and an exponent. -/
def scientific (style : NumberStyle) (digits : List Char) (point : Int) : List Char :=
  digits.take 1 ++ (if digits.length ≤ 1 then [] else '.' :: digits.drop 1)
    ++ style.exponent (point - 1)

/-- A positive decimal without trailing zeros. -/
def decimal (style : NumberStyle) (d : Decimal) : List Char :=
  if style.least < d.point ∧ d.point ≤ style.greatest then style.positional d.digits d.point
  else style.scientific d.digits d.point

/-- A double. -/
def double (style : NumberStyle) (x : Float) : List Char :=
  if x.isNaN then style.nan
  else
    let code := Binary64.code x
    let sign := if Binary64.isNegative x ∧ (code ≠ 0 ∨ style.signedZero) then ['-'] else []
    if code = Binary64.infinity then sign ++ style.infinity
    else if code = 0 then sign ++ '0' :: style.wholeEnd
    else sign ++ style.decimal (Binary64.shortest code)

/-! ### Digits of a text -/

/-- Digits without the zeros at their ends, and where the point at `point` is then. -/
def stripZeros (digits : List Char) (point : Int) : List Char × Int :=
  let front := digits.dropWhile (· == '0')
  ((front.reverse.dropWhile (· == '0')).reverse, point - (digits.length - front.length : Nat))

/-- Cuts the digits and the point out of a text that has no exponent, but is scaled by one. -/
def cutMantissa (text : List Char) (exponent : Int) : List Char × Int :=
  let whole := text.takeWhile (· != '.')
  stripZeros (whole ++ (text.dropWhile (· != '.')).drop 1) (whole.length + exponent)

/-- Cuts the significant digits of a positive number out of its text, with the place of the point
before them. -/
def cutDigits (text : List Char) : List Char × Int :=
  let (negative, digits) := Numeral.scanExponentSign ((text.dropWhile (· != 'e')).drop 1)
  let e : Int := Nat.ofDigitChars 10 digits 0
  cutMantissa (text.takeWhile (· != 'e')) (if negative then -e else e)

end NumberStyle

end Lisplet
