import Lisplet.Text.Blank
import Lisplet.Text.Digit

/-!
# Integers in settings

An integer may be written in the digits of any script, with a sign, with single underscores between
digits and with blanks around it.
-/

namespace Lisplet.Text

/-- Continues a numeral of value `n`; `closed` if the character before is a digit. -/
def readDigits (closed : Bool) (n : Nat) : List Char → Option Nat
  | [] => if closed then some n else none
  | c :: cs =>
    match digit? c with
    | some d => readDigits true (10 * n + d) cs
    | none => if c = '_' ∧ closed then readDigits false n cs else none

/-- An integer without sign. -/
def readMagnitude (cs : List Char) : Option Nat :=
  if maxDigits < (cs.filter fun c => (digit? c).isSome).length then none else readDigits false 0 cs

/-- The integer that a text denotes. -/
def readInt (cs : List Char) : Option Int :=
  match trim cs with
  | '-' :: rest => (readMagnitude rest).map fun n => -(n : Int)
  | '+' :: rest => (readMagnitude rest).map Int.ofNat
  | rest => (readMagnitude rest).map Int.ofNat

end Lisplet.Text
