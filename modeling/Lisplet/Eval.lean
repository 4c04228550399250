import Lisplet.Library

/-!
# Evaluation

Symbols mean what they are bound to, pairs are special forms or applications, and everything else is
its own value. Evaluation is defined by the depth to which expressions may nest: `step` is one
level, which leaves the evaluation of parts to its first argument. The depth counts evaluations within
evaluations. A host with a stack may spend several frames on one, more on some forms than on others, and so
give up at other depths than these.
-/

namespace Lisplet

/-- How the parts of an expression are evaluated. -/
abbrev Evaluator := Scope → Value → Eval Value

namespace Eval

/-- The form that a pair with this head is. -/
def form? : Value → Option SpecialForm
  | .symbol name => SpecialForm.ofKeyword? name
  | _ => none

/-- The name that an operand of a form gives. -/
def nameOperand (form : SpecialForm) : Value → Except Failure String
  | .symbol name => .ok name
  | v => do throw (.wrongKind form.keyword .symbol (← v.text))

/-- The parameter names that an operand of a form gives. -/
def parameters (v : Value) : Except Failure (List String) :=
  if v.isList then v.items.mapM (nameOperand .abstraction)
  else do throw (.wrongKind SpecialForm.abstraction.keyword .parameters (← v.text))

/-- Evaluates a special form with the given operands. -/
def enter (evaluate : Evaluator) (scope : Scope) : SpecialForm → List Value → Eval Value
  | .condition, [test, yes, no] => do
    if (← evaluate scope test).isTruthy then evaluate scope yes else evaluate scope no
  | .conjunction, [a, b] => do
    if (← evaluate scope a).isTruthy then evaluate scope b else return .bool false
  | .disjunction, [a, b] => do
    if (← evaluate scope a).isTruthy then return .bool true else evaluate scope b
  | .definition, [name, e] => do
    let name ← MonadExcept.ofExcept (nameOperand .definition name)
    define scope.owner name (← evaluate scope e)
  | .binding, [name, e, body] => do
    let name ← MonadExcept.ofExcept (nameOperand .binding name)
    evaluate (scope.extend [name] [← evaluate scope e]) body
  | .abstraction, [params, body] => do
    let names ← MonadExcept.ofExcept (parameters params)
    return .closure (← identity) names body scope
  | form, operands => throw (.wrongArity (.form form) form.operands operands.length)

/-- Applies a function to evaluated operands. -/
def apply (evaluate : Evaluator) (f : Value) (operands : List Value) : Eval Value :=
  match f with
  | .primitive owner p => p.apply owner operands
  | .closure _ params body scope =>
    if params.length = operands.length then evaluate (scope.extend params operands) body
    else throw (.wrongArity .closure params.length operands.length)
  | v => do throw (.notFunction (← MonadExcept.ofExcept v.text))

/-- Evaluates an expression, given how its parts are evaluated. -/
def step (evaluate : Evaluator) : Evaluator := fun scope e =>
  match e with
  | .symbol name => lookup scope name
  | .pair _ head tail => do
    let operands ← MonadExcept.ofExcept tail.elements
    match form? head with
    | some form => enter evaluate scope form operands
    | none =>
      let f ← evaluate scope head
      let operands ← operands.mapM (evaluate scope)
      apply evaluate f operands
  | v => pure v

end Eval

/-- Evaluates an expression that nests at most `depth` deep. -/
def eval : (depth : Nat) → Evaluator
  | 0 => fun _ _ => throw .exhausted
  | depth + 1 => Eval.step (eval depth)

end Lisplet
