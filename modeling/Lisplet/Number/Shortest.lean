import Lisplet.Number.Binary64

/-!
# Shortest decimals

The decimal with the fewest digits that reads back as a given magnitude, and of those with equally
many digits the one nearest to it.
-/

namespace Lisplet.Binary64

/-- The two decimals around `d` that lack its last `n` digits, the nearer one first; a tie prefers
the even one. -/
def neighbours (d : Decimal) (n : Nat) : List Decimal :=
  let unit := Nat.pow 10 n
  let floor := d.coefficient / unit
  let below : Decimal := ⟨floor, d.exponent + n⟩
  let above : Decimal := ⟨floor + 1, d.exponent + n⟩
  if roundDiv d.coefficient unit = floor then [below, above] else [above, below]

/-- The first decimal of at most 17 digits that reads back as `code`. -/
def shortest? (code : Nat) : Option Decimal :=
  let whole := exactDecimal code
  let count := whole.digits.length
  (List.range 17).findSome? fun k =>
    (neighbours whole (count - (k + 1))).find? fun d => nearestDecimal d = code

/-- The shortest decimal of a finite magnitude, without trailing zeros. -/
def shortest (code : Nat) : Decimal := ((shortest? code).getD (exactDecimal code)).trim

end Lisplet.Binary64
