/-!
# Decimals

A natural coefficient scaled by a power of ten: what a numeral denotes, and what a number is
printed from.
-/

namespace Lisplet

/-- The number `coefficient * 10 ^ exponent`. -/
structure Decimal where
  coefficient : Nat
  exponent : Int
deriving DecidableEq, Repr

namespace Decimal

/-- The digits of the coefficient, the most significant one first. -/
def digits (d : Decimal) : List Char := Nat.toDigits 10 d.coefficient

/-- The place of the decimal point relative to the first digit: the number is
`0.digits * 10 ^ point`. -/
def point (d : Decimal) : Int := d.exponent + d.digits.length

/-- Moves up to `k` trailing zeros of the coefficient `c` into the exponent. -/
def strip : (k c : Nat) → (e : Int) → Decimal
  | 0, c, e => ⟨c, e⟩
  | k + 1, c, e => if c % 10 = 0 then strip k (c / 10) (e + 1) else ⟨c, e⟩

/-- The same number without trailing zeros in its coefficient; zero stays as it is. -/
def trim (d : Decimal) : Decimal :=
  if d.coefficient = 0 then d else strip d.digits.length d.coefficient d.exponent

/-- The decimal as a quotient of naturals. -/
def ratio (d : Decimal) : Nat × Nat :=
  (d.coefficient * Nat.pow 10 d.exponent.toNat, Nat.pow 10 (-d.exponent).toNat)

end Decimal

end Lisplet
