import Lisplet.Value.Same
import Lisplet.World

/-!
# The library

What each primitive does with operands that are evaluated already. Operands are checked from left to
right, and nothing is changed before all checks have passed.
-/

namespace Lisplet.Primitive

/-- The operand as a number. -/
def number (p : Primitive) : Value → Except Failure Number
  | .number n => .ok n
  | v => do throw (.wrongKind p.name .numbers (← v.text))

/-- The operand as a string. -/
def string (p : Primitive) : Value → Except Failure String
  | .string s => .ok s
  | v => do throw (.wrongKind p.name .string (← v.text))

/-- The two parts of an operand that is a pair. -/
def parts (p : Primitive) : Value → Except Failure (Value × Value)
  | .pair _ a b => .ok (a, b)
  | v => do throw (.wrongKind p.name .pair (← v.text))

/-- The result of an operation on numbers. -/
def computed : Option Number → Except Failure Value
  | some n => .ok (.number n)
  | none => .error .outOfRange

/-- An operation on two numbers. -/
def arithmetic (p : Primitive) (f : Number → Number → Option Number) (a b : Value) :
    Except Failure Value := do
  let m ← p.number a
  let n ← p.number b
  computed (f m n)

/-- Whether two strings, or else two numbers, stand in a given order. -/
def compare (p : Primitive) (holds : Ordering → Bool) : Value → Value → Except Failure Value
  | .string s, .string t => .ok (.bool (holds (Ord.compare s t)))
  | a, b => do
    let m ← p.number a
    let n ← p.number b
    return .bool ((m.compare? n).any holds)

/-- The number of operands that a function takes. -/
def countOperands (p : Primitive) : Value → Except Failure Value
  | .primitive _ q => .ok (.double (Binary64.ofNat q.operands))
  | .closure _ params _ _ => .ok (.double (Binary64.ofNat params.length))
  | v => do throw (.wrongKind p.name .function (← v.text))

/-- The result of a primitive that depends on its operands alone; `none` for the others. -/
def result? (p : Primitive) : List Value → Option (Except Failure Value)
  | [a] =>
    match p with
    | negate => some do return .number (← p.number a).neg
    | sqrt => some do computed (← p.number a).sqrt
    | not => some (.ok (.bool !a.isTruthy))
    | head => some do return (← p.parts a).1
    | tail => some do return (← p.parts a).2
    | symbol => some do return .symbol (← p.string a)
    | arity => some (p.countOperands a)
    | isNumber => some (.ok (.bool (a matches .number _)))
    | isString => some (.ok (.bool (a matches .string _)))
    | isBoolean => some (.ok (.bool (a matches .bool _)))
    | isSymbol => some (.ok (.bool (a matches .symbol _)))
    | isCons | isPair => some (.ok (.bool (a matches .pair ..)))
    | isFunction => some (.ok (.bool a.isFunction))
    | isNull => some (.ok (.bool (a matches .nil)))
    | _ => none
  | [a, b] =>
    match p with
    | add => some (p.arithmetic Number.add a b)
    | sub => some (p.arithmetic Number.sub a b)
    | mul => some (p.arithmetic Number.mul a b)
    | div => some (p.arithmetic Number.div a b)
    | mod => some (p.arithmetic Number.mod a b)
    | less => some (p.compare (· == .lt) a b)
    | greater => some (p.compare (· == .gt) a b)
    | lessEqual => some (p.compare (·.isLE) a b)
    | greaterEqual => some (p.compare (·.isGE) a b)
    | equal => some (.ok (.bool (a.equal b)))
    | concat => some do return .string ((← a.display) ++ (← b.display))
    | _ => none
  | _ => none

/-- The result of a primitive that makes a pair or works on the log or the files of its owner. -/
def perform (owner : Owner) : Primitive → List Value → Eval Value
  | cons, [a, b] => do return .pair (← Eval.identity) a b
  | log, [a] => do
    let line ← MonadExcept.ofExcept a.display
    modify (·.modifyRealm owner fun r => { r with log := r.log ++ [line] })
    return .nil
  | slurp, [a] => do
    let name ← MonadExcept.ofExcept (slurp.string a)
    match ((← get).realm owner).files.find? name with
    | some text => return .string text
    | none => return .nil
  | spit, [a, b] => do
    let name ← MonadExcept.ofExcept (spit.string a)
    let text ← MonadExcept.ofExcept (spit.string b)
    modify (·.modifyRealm owner fun r => { r with files := r.files.insert name text })
    return b
  | p, operands => throw (.wrongArity (.primitive p) p.operands operands.length)

/-- Applies a primitive to evaluated operands. -/
def apply (owner : Owner) (p : Primitive) (operands : List Value) : Eval Value :=
  match p.result? operands with
  | some result => MonadExcept.ofExcept result
  | none => p.perform owner operands

end Lisplet.Primitive
