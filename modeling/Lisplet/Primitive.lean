/-!
# Primitives and special forms

The names that mean something before any program is read: the functions of the library with the
number of operands each takes, and the forms that receive their operands unevaluated.
-/

namespace Lisplet

/-- A function of the library. -/
inductive Primitive where
  | add | sub | mul | div | mod | negate | sqrt
  | less | greater | lessEqual | greaterEqual | equal | not
  | cons | head | tail
  | isNumber | isString | isBoolean | isSymbol | isCons | isPair | isFunction | isNull
  | symbol | arity | concat
  | log | slurp | spit
deriving DecidableEq, Repr

namespace Primitive

/-- All primitives, in the order in which they are listed to users. -/
def all : List Primitive :=
  [add, sub, mul, div, mod, negate, sqrt, less, greater, lessEqual, greaterEqual, equal, not,
   cons, head, tail, isNumber, isString, isBoolean, isSymbol, isCons, isPair, isFunction, isNull,
   symbol, arity, concat, log, slurp, spit]

/-- The name a primitive is bound to at first. -/
def name : Primitive → String
  | add => "+"
  | sub => "-"
  | mul => "*"
  | div => "/"
  | mod => "mod"
  | negate => "negate"
  | sqrt => "sqrt"
  | less => "<"
  | greater => ">"
  | lessEqual => "<="
  | greaterEqual => ">="
  | equal => "="
  | not => "not"
  | cons => "cons"
  | head => "head"
  | tail => "tail"
  | symbol => "symbol"
  | arity => "arity"
  | concat => "concat"
  | isNumber => "number?"
  | isString => "string?"
  | isBoolean => "boolean?"
  | isSymbol => "symbol?"
  | isCons => "cons?"
  | isPair => "pair?"
  | isFunction => "function?"
  | isNull => "null?"
  | log => "log"
  | slurp => "slurp"
  | spit => "spit"

/-- What the operands of a primitive are called. -/
def parameters : Primitive → List String
  | add | sub | mul | div => ["a", "b"]
  | mod => ["n", "d"]
  | less | greater | lessEqual | greaterEqual | equal | concat => ["a", "b"]
  | cons => ["head", "tail"]
  | head | tail => ["pair"]
  | symbol | slurp => ["name"]
  | arity => ["fn"]
  | spit => ["name", "text"]
  | negate | sqrt | not | log => ["x"]
  | isNumber | isString | isBoolean | isSymbol | isCons | isPair | isFunction | isNull => ["x"]

/-- The number of operands a primitive takes. -/
def operands (p : Primitive) : Nat := p.parameters.length

def ofName? (name : String) : Option Primitive := all.find? (·.name == name)

end Primitive

/-- A form whose operands are not evaluated before it is entered. -/
inductive SpecialForm where
  | condition
  | conjunction
  | disjunction
  | definition
  | binding
  | abstraction
deriving DecidableEq, Repr

namespace SpecialForm

/-- The symbol that heads the form. -/
def keyword : SpecialForm → String
  | condition => "if"
  | conjunction => "and"
  | disjunction => "or"
  | definition => "define"
  | binding => "let"
  | abstraction => "function"

/-- The form in messages. -/
def title : SpecialForm → String
  | condition => "If expression"
  | conjunction => "And expression"
  | disjunction => "Or expression"
  | definition => "Define expression"
  | binding => "Let expression"
  | abstraction => "Function expression"

/-- What the operands of a form are called. -/
def parameters : SpecialForm → List String
  | condition => ["condition", "then", "else"]
  | conjunction | disjunction => ["left", "right"]
  | definition => ["name", "value"]
  | binding => ["name", "value", "body"]
  | abstraction => ["(params...)", "body"]

/-- The number of operands a form takes. -/
def operands (f : SpecialForm) : Nat := f.parameters.length

/-- All forms, in the order in which they are listed to users. -/
def all : List SpecialForm :=
  [condition, conjunction, disjunction, definition, binding, abstraction]

def ofKeyword? (keyword : String) : Option SpecialForm := all.find? (·.keyword == keyword)

end SpecialForm

end Lisplet
