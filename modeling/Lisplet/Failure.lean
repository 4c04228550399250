import Lisplet.Primitive
import Lisplet.Text.Quoted

/-!
# Failures

Why reading, evaluating or printing stopped, and the wording of each cause. Texts of the values
involved are part of the cause, so that a failure means the same at any later time.
-/

namespace Lisplet

/-- Why text cannot be read. -/
inductive ReadFault where
  | endOfInput (position : Nat)
  | unclosedString (start : Nat)
  | strayClose (position : Nat)
  | malformedNumber (literal : String) (start : Nat)
deriving DecidableEq, Repr

namespace ReadFault

/-- The offset a fault is reported at. -/
def position : ReadFault → Nat
  | endOfInput position => position
  | unclosedString start => start
  | strayClose position => position
  | malformedNumber _ start => start

def message : ReadFault → String
  | endOfInput _ => "unexpected end of input"
  | unclosedString start => s!"unexpected end of input in string starting at {start}"
  | strayClose position => s!"unexpected ')' at {position}"
  | malformedNumber literal start =>
    let shown := String.ofList (Text.quoted literal.toList)
    s!"malformed number {shown} at {start}"

/-- The fault of the same text that stands `n` characters further on. -/
def shift (n : Nat) : ReadFault → ReadFault
  | endOfInput position => endOfInput (position + n)
  | unclosedString start => unclosedString (start + n)
  | strayClose position => strayClose (position + n)
  | malformedNumber literal start => malformedNumber literal (start + n)

end ReadFault

/-- The kinds of operand that an operation insists on. -/
inductive Wanted where
  | numbers
  | string
  | pair
  | function
  | symbol
  | parameters
deriving DecidableEq, Repr

def Wanted.phrase : Wanted → String
  | numbers => "numbers"
  | string => "a string"
  | pair => "a pair"
  | function => "a function"
  | symbol => "a symbol"
  | parameters => "a parameter list"

/-- What takes a fixed number of operands. -/
inductive Callee where
  | form (f : SpecialForm)
  | primitive (p : Primitive)
  | closure
deriving DecidableEq, Repr

def Callee.title : Callee → String
  | form f => f.title
  | primitive p => s!"Function {p.name}"
  | closure => "Function"

/-- What can be nested too deeply. -/
inductive Stage where
  | reading
  | evaluating
deriving DecidableEq, Repr

inductive Failure where
  | unreadable (fault : ReadFault)
  | unbound (name : String)
  | wrongKind (operation : String) (wanted : Wanted) (got : String)
  | improperList (ending : String)
  | notDefinable (name : String)
  | undefinedText
  | foreignText (shown : String)
  | wrongArity (callee : Callee) (expected given : Nat)
  | notFunction (got : String)
  /-- An integer is too large to be a double, or a limit to be a limit. -/
  | outOfRange
  /-- An integer has too many digits to be read or written. -/
  | tooManyDigits
  /-- The depth allowed for nesting is used up. -/
  | exhausted
  /-- A session's report of `exhausted`. -/
  | tooDeep (stage : Stage) (limit : Nat)
deriving DecidableEq, Repr

namespace Failure

def message : Failure → String
  | unreadable fault => fault.message
  | unbound name => s!"Symbol {name} not recognized"
  | wrongKind operation wanted got => s!"{operation} expects {wanted.phrase}, got {got}"
  | improperList ending => s!"Expected a list, got a chain ending in {ending}"
  | notDefinable name => s!"Cannot define {name}: not a symbol"
  | undefinedText => "Can't format undefined value"
  | foreignText shown => s!"Cannot format list value {shown}"
  | wrongArity callee expected given => s!"{callee.title} takes {expected} args, but given {given}"
  | notFunction got => s!"First element in combo must be a function, got {got}"
  | outOfRange => "integer out of range"
  | tooManyDigits => "integer with too many digits"
  | exhausted => "nested too deeply"
  | tooDeep .reading limit => s!"Input nested too deeply (recursion limit {limit})"
  | tooDeep .evaluating limit => s!"Evaluation nested too deeply (recursion limit {limit})"

/-- Whether the means of the machine gave out. Such a failure is not the program's, so that nobody
reports it as the result of an expression. -/
def isBreakdown : Failure → Bool
  | outOfRange | tooManyDigits | exhausted => true
  | _ => false

end Failure

end Lisplet
