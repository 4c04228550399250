import Lisplet.Failure
import Lisplet.Json
import Lisplet.Number.Numeral
import Lisplet.Text.Digit

/-!
# Reading JSON

Each function takes a piece off the front of a text and gives what is left, or says what is wrong
with the text from left to right. Values are read with as much fuel as the text has characters,
since every step consumes one.

Strings are rows of characters. An escape for half of a surrogate pair without the other half stands for no
character, and is read as the replacement character, whichever half it is. So strings that differ only in such
halves are read as one string, here and in all that is built on this; on texts without them nothing is lost.
-/

namespace Lisplet.Json

/-- Why a text cannot be read. -/
inductive Fault where
  /-- The text denotes no value. -/
  | malformed
  /-- The value is larger than the reader can take. -/
  | beyond (failure : Failure)
deriving DecidableEq, Repr

def isSpace (c : Char) : Bool := c == ' ' || c == '\t' || c == '\n' || c == '\r'

def skipSpace (cs : List Char) : List Char := cs.dropWhile isSpace

def hexDigit? (c : Char) : Option Nat :=
  if '0' ≤ c ∧ c ≤ '9' then some (c.toNat - '0'.toNat)
  else if 'a' ≤ c ∧ c ≤ 'f' then some (c.toNat - 'a'.toNat + 10)
  else if 'A' ≤ c ∧ c ≤ 'F' then some (c.toNat - 'A'.toNat + 10)
  else none

/-- Four hexadecimal digits. -/
def unit? (a b c d : Char) : Option Nat := do
  return ((← hexDigit? a) * 16 + (← hexDigit? b)) * 256 + (← hexDigit? c) * 16 + (← hexDigit? d)

/-- The character of two units, the first of which opens a pair. -/
def joinUnits (high low : Nat) : Char :=
  Char.ofNat (0x10000 + (high - 0xD800) * 0x400 + (low - 0xDC00))

/-- The character of a unit by itself. Half a pair has none: all 2048 halves give the replacement character. -/
def loneUnit (n : Nat) : Char :=
  if 0xD800 ≤ n ∧ n ≤ 0xDFFF then '\uFFFD' else Char.ofNat n

/-- The character that a short escape stands for. -/
def shortEscape? (c : Char) : Option Char :=
  if c = '"' ∨ c = '\\' ∨ c = '/' then some c
  else if c = 'b' then some '\x08'
  else if c = 'f' then some '\x0c'
  else if c = 'n' then some '\n'
  else if c = 'r' then some '\r'
  else if c = 't' then some '\t'
  else none

/-- The rest of a string behind its opening quote; `held` has the characters so far, the latest
first, and `high` a unit that may open a pair. -/
def stringBody (held : List Char) (high : Option Nat) :
    List Char → Except Fault (String × List Char)
  | '\\' :: 'u' :: a :: b :: c :: d :: cs =>
    match unit? a b c d with
    | none => .error .malformed
    | some n =>
      match high with
      | some h =>
        if 0xDC00 ≤ n ∧ n ≤ 0xDFFF then stringBody (joinUnits h n :: held) none cs
        else if 0xD800 ≤ n ∧ n ≤ 0xDBFF then stringBody (loneUnit h :: held) (some n) cs
        else stringBody (loneUnit n :: loneUnit h :: held) none cs
      | none =>
        if 0xD800 ≤ n ∧ n ≤ 0xDBFF then stringBody held (some n) cs
        else stringBody (loneUnit n :: held) none cs
  | c :: cs =>
    let held := (high.map loneUnit).toList ++ held
    if c = '"' then .ok (String.ofList held.reverse, cs)
    else if c = '\\' then
      match cs with
      | e :: cs =>
        match shortEscape? e with
        | some x => stringBody (x :: held) none cs
        | none => .error .malformed
      | [] => .error .malformed
    else if c.toNat < 0x20 then .error .malformed
    else stringBody (c :: held) none cs
  | [] => .error .malformed

/-- The integer of a whole numeral, if it is not too long. -/
def integer (negative : Bool) (whole : List Char) : Except Fault Json :=
  if Text.maxDigits < whole.length then .error (.beyond .tooManyDigits)
  else
    let n := Nat.ofDigitChars 10 whole 0
    .ok (.int (if negative then -(n : Int) else n))

/-- A number: a numeral without needless zeros and with digits behind a point, whole if it has
neither fraction nor exponent. -/
def number (cs : List Char) : Except Fault (Json × List Char) :=
  let (negative, unsigned) := Numeral.scanSign cs
  let digits := unsigned.takeWhile Char.isDigit
  let whole := if digits.head? = some '0' then ['0'] else digits
  if whole.isEmpty then .error .malformed
  else
    let behind := unsigned.drop whole.length
    let (fraction, rest) :=
      match Numeral.scanFraction behind with
      | ([], _) => ([], behind)
      | taken => taken
    match fraction, Numeral.scanExponent? rest with
    | [], none => (integer negative whole).map (·, rest)
    | _, none => .ok (.float (Numeral.mk negative whole fraction 0).toDouble, rest)
    | _, some (exponent, rest) =>
      .ok (.float (Numeral.mk negative whole fraction exponent).toDouble, rest)

/-- A word that stands for a value. -/
def word? (cs : List Char) : Option (Json × List Char) :=
  let words : List (String × Json) :=
    [("null", .null), ("true", .bool true), ("false", .bool false),
     ("NaN", .float (0 / 0)), ("Infinity", .float (1 / 0)), ("-Infinity", .float (-1 / 0))]
  words.findSome? fun (word, item) =>
    if word.toList.isPrefixOf cs then some (item, cs.drop word.length) else none

mutual

/-- A value at the front of a text, in which at most `room` arrays and objects are nested. -/
def value : (fuel room : Nat) → List Char → Except Fault (Json × List Char)
  | 0, _, _ => .error .malformed
  | fuel + 1, room, cs =>
    match cs, room with
    | '"' :: rest, _ => do
      let (s, rest) ← stringBody [] none rest
      return (.string s, rest)
    | '[' :: _, 0 => .error (.beyond .exhausted)
    | '[' :: rest, room + 1 =>
      match skipSpace rest with
      | ']' :: rest => .ok (.array [], rest)
      | rest => items fuel room [] rest
    | '\x7b' :: _, 0 => .error (.beyond .exhausted)
    | '\x7b' :: rest, room + 1 =>
      match skipSpace rest with
      | '\x7d' :: rest => .ok (.object [], rest)
      | rest => members fuel room [] rest
    | _, _ =>
      match word? cs with
      | some found => .ok found
      | none => number cs

/-- The rest of an array whose elements so far are `held`, the latest first. -/
def items : (fuel room : Nat) → List Json → List Char → Except Fault (Json × List Char)
  | 0, _, _, _ => .error .malformed
  | fuel + 1, room, held, cs => do
    let (item, rest) ← value fuel room cs
    match skipSpace rest with
    | ',' :: rest => items fuel room (item :: held) (skipSpace rest)
    | ']' :: rest => return (.array (item :: held).reverse, rest)
    | _ => throw .malformed

/-- The rest of an object whose members so far are `held`. -/
def members : (fuel room : Nat) → List (String × Json) → List Char →
    Except Fault (Json × List Char)
  | 0, _, _, _ => .error .malformed
  | fuel + 1, room, held, cs => do
    let '"' :: rest := cs | throw .malformed
    let (name, rest) ← stringBody [] none rest
    let ':' :: rest := skipSpace rest | throw .malformed
    let (item, rest) ← value fuel room (skipSpace rest)
    let held := setMember held name item
    match skipSpace rest with
    | ',' :: rest => members fuel room held (skipSpace rest)
    | '\x7d' :: rest => return (.object held, rest)
    | _ => throw .malformed

end

/-- The value that a text denotes, if it nests at most `room` arrays and objects. -/
def parse (room : Nat) (text : String) : Except Fault Json := do
  let cs := text.toList
  let (v, rest) ← value (cs.length + 1) room (skipSpace cs)
  if (skipSpace rest).isEmpty then return v else throw .malformed

end Lisplet.Json
