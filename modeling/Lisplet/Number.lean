import Lisplet.Number.Layout
import Lisplet.Text.Digit

/-!
# Numbers

Numbers are doubles; integers of any size may come in from outside and stay integers as long as
only integers meet. A mixed operation converts to doubles, and has no result if an integer is too
large for that; a mixed comparison is exact.
-/

namespace Lisplet

inductive Number where
  | double (x : Float)
  | integer (n : Int)
deriving DecidableEq

namespace Number

/-- The nearest double, if that is finite or was a double before. -/
def toDouble? : Number → Option Float
  | double x => some x
  | integer n => Binary64.ofInt? n

/-- The result of an operation on doubles. -/
def convert (f : Float → Float → Float) (a b : Number) : Option Number :=
  match a.toDouble?, b.toDouble? with
  | some x, some y => some (double (f x y))
  | _, _ => none

def add : Number → Number → Option Number
  | integer m, integer n => some (integer (m + n))
  | a, b => convert (· + ·) a b

def sub : Number → Number → Option Number
  | integer m, integer n => some (integer (m - n))
  | a, b => convert (· - ·) a b

def mul : Number → Number → Option Number
  | integer m, integer n => some (integer (m * n))
  | a, b => convert (· * ·) a b

/-- The quotient as a double. Division by zero gives an infinity, or not a number for `0 / 0`; the
quotient of two integers is rounded once. -/
def div : Number → Number → Option Number
  | integer m, integer n =>
    if n = 0 then convert (· / ·) (integer m) (integer n)
    else (Binary64.ofRatio? (decide (m < 0) != decide (n < 0)) m.natAbs n.natAbs).map double
  | a, b => convert (· / ·) a b

/-- What is not a number. -/
def nan : Number := double (Binary64.ofNat 0 / Binary64.ofNat 0)

def isZero : Number → Bool
  | double x => x == Binary64.ofNat 0
  | integer n => n == 0

/-- The remainder with the sign of the dividend, and not a number where there is none. -/
def mod (a b : Number) : Option Number :=
  if b.isZero then some nan
  else
    match a.toDouble? with
    | none => none
    | some x =>
      if !x.isFinite then some nan
      else
        match b.toDouble? with
        | none => none
        | some y =>
          if y.isNaN then some nan
          else if y.isInf then some (double x)
          else some (double (Binary64.remainder x y))

def neg : Number → Number
  | double x => double (-x)
  | integer n => integer (-n)

/-- The square root as a double, and not a number below zero. -/
def sqrt : Number → Option Number
  | double x => some (double x.sqrt)
  | integer n => if n < 0 then some nan else (Binary64.ofInt? n).map fun x => double x.sqrt

/-- How two numbers compare; nothing compares with what is not a number. -/
def compare? : Number → Number → Option Ordering
  | integer m, integer n => some (compare m n)
  | integer m, double y => Binary64.compareInt m y
  | double x, integer n => (Binary64.compareInt n x).map Ordering.swap
  | double x, double y =>
    if x < y then some .lt
    else if x == y then some .eq
    else if y < x then some .gt
    else none

/-- Numeric equality; the two zeros are equal. -/
def eq (a b : Number) : Bool := compare? a b == some .eq

/-- An integer of too many digits has no text. -/
def isTooLong : Number → Bool
  | double _ => false
  | integer n => Text.isTooLong n

/-- A number in source text. -/
def text : Number → List Char
  | double x => NumberStyle.source.double x
  | integer n => (toString n).toList

/-- A number as it is inspected. -/
def inspect : Number → List Char
  | double x => NumberStyle.inspection.double x
  | integer n => (toString n).toList

end Number

end Lisplet
