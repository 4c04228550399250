import Lisplet.Failure
import Lisplet.Value

/-!
# The text of values

`render` writes a value as source text and `inspect` as messages show it: the texts as they are where the
stack has room for the calls. `fault?` tells why a value has no text, which happens only to values that came
in from outside, and `writeDepth` how many calls deep the writing of a source text goes.
-/

namespace Lisplet

/-- What follows the elements of a chain that does not end in `nil`. -/
def dotted (inTail : Bool) (text : List Char) : List Char :=
  if inTail then " . ".toList ++ text ++ [')'] else text

/-- The text of a function form. -/
def functionText (params : List String) (body : List Char) : List Char :=
  "(function (".toList ++ (" ".intercalate params).toList ++ ") ".toList ++ body ++ [')']

/-- A text inside a form that binds one name. -/
def letText (name : String) (value body : List Char) : List Char :=
  "(let ".toList ++ name.toList ++ ' ' :: value ++ ' ' :: body ++ [')']

mutual

/-- Writes a value: as the rest of a list whose beginning is written already if `inTail`, and
with the bindings that functions captured if `bindings`. -/
def Value.write (bindings inTail : Bool) : Value → List Char
  | .nil => if inTail then [')'] else "null".toList
  | .bool b => dotted inTail (if b then "true" else "false").toList
  | .number n => dotted inTail n.text
  | .string s => dotted inTail ('"' :: s.toList ++ ['"'])
  | .symbol name => dotted inTail name.toList
  | .pair _ head tail =>
    (if inTail then ' ' else '(') :: head.write bindings false ++ tail.write bindings true
  | .primitive _ p => dotted inTail p.name.toList
  | .closure _ params body scope =>
    let function := functionText params (body.write false false)
    dotted inTail (if bindings then scope.wrap function else function)
  | .absent => []
  | .sequence _ _ => []

/-- Writes a text inside the bindings of a scope, the outermost binding outermost. -/
def Scope.wrap (text : List Char) : Scope → List Char
  | .global _ => text
  | .enter outer => outer.wrap text
  | .bind name value rest => rest.wrap (letText name (value.write true false) text)

end

mutual

/-- How many calls deep a value is written. Each list takes two calls for its elements, the writer of
lists and that of values, and so does each function for its body. -/
def Value.writeDepth (bindings inTail : Bool) : Value → Nat
  | .pair _ head tail => max (head.writeDepth bindings false + 2) (tail.writeDepth bindings true)
  | .closure _ _ body scope =>
    (if inTail then 2 else 0) +
      max (body.writeDepth false false + 2) (if bindings then scope.writeDepth else 0)
  | _ => 0

/-- How many calls deep the bindings of a scope are written. -/
def Scope.writeDepth : Scope → Nat
  | .global _ => 0
  | .enter outer => outer.writeDepth
  | .bind _ value rest => max rest.writeDepth (value.writeDepth true false + 2)

end

namespace Value

/-- The source text of a value. -/
def render (v : Value) : List Char := v.write false false

mutual

/-- A value as messages show it. -/
def inspect : Value → List Char
  | .nil => "null".toList
  | .bool b => (if b then "True" else "False").toList
  | .number n => n.inspect
  | .string s => Text.quoted s.toList
  | .symbol name => "Symbol(".toList ++ Text.quoted name.toList ++ [')']
  | .pair id head tail => (Value.pair id head tail).render
  | .primitive _ p => s!"<Primitive {p.name}/{p.operands}>".toList
  | .closure id params body scope => (Value.closure id params body scope).render
  | .absent => "None".toList
  | .sequence _ items => '[' :: (inspectItems items ++ [']'])

/-- The elements of a foreign list, separated by commas. -/
def inspectItems : Value → List Char
  | .pair _ head .nil => head.inspect
  | .pair _ head tail => head.inspect ++ ", ".toList ++ tail.inspectItems
  | _ => []

end

/-- How a value is looked at for its text. -/
inductive Manner where
  /-- As source text, with captured bindings or without. -/
  | source (bindings : Bool)
  /-- As messages show it. -/
  | inspection
  /-- As the chain of elements of a foreign list. -/
  | elements
deriving DecidableEq

end Value

mutual

/-- The reason why a value has no text, the first one in the order of writing. -/
def Value.fault? (manner : Value.Manner) : Value → Option Failure
  | .pair _ head tail =>
    match manner with
    | .elements => (head.fault? .inspection).or (tail.fault? .elements)
    | .inspection => (head.fault? (.source false)).or (tail.fault? (.source false))
    | .source bindings => (head.fault? (.source bindings)).or (tail.fault? (.source bindings))
  | .number n => if n.isTooLong then some .tooManyDigits else none
  | .closure _ _ body scope =>
    (if manner = .source true then scope.fault? else none).or (body.fault? (.source false))
  | .absent =>
    match manner with
    | .source _ => some .undefinedText
    | _ => none
  | .sequence _ items =>
    match manner with
    | .source _ =>
      (items.fault? .elements).or
        (some (.foreignText (String.ofList ('[' :: (items.inspectItems ++ [']'])))))
    | _ => items.fault? .elements
  | _ => none

/-- The first reason why a binding of a scope cannot be written, from the outermost one on. -/
def Scope.fault? : Scope → Option Failure
  | .global _ => none
  | .enter outer => outer.fault?
  | .bind _ value rest => rest.fault?.or (value.fault? (.source true))

end

namespace Value

/-- The source text of a value, with captured bindings if asked for. -/
def format (v : Value) (bindings : Bool) : Except Failure String :=
  match v.fault? (.source bindings) with
  | some failure => .error failure
  | none => .ok (String.ofList (v.write bindings false))

/-- The source text of a value. -/
def text (v : Value) : Except Failure String := v.format false

theorem inspect_sequence (id : Identity) (items : Value) :
    (sequence id items).inspect = '[' :: (items.inspectItems ++ [']']) := rfl

/-- A foreign list has no text; the failure shows the list. -/
theorem text_sequence {id : Identity} {items : Value} (h : items.fault? .elements = none) :
    (sequence id items).text = .error (.foreignText (String.ofList (sequence id items).inspect)) := by
  rw [text, format, fault?, inspect_sequence]
  simp only [h, Option.none_or]

/-- The text of a value in messages. -/
def shown (v : Value) : Except Failure String :=
  match v.fault? .inspection with
  | some failure => .error failure
  | none => .ok (String.ofList v.inspect)

/-- The text that is logged or joined: strings as they are, all else as source. -/
def display : Value → Except Failure String
  | .string s => .ok s
  | v => v.text

/-- The text of a value by itself: names of symbols and primitives, all else as messages show it. -/
def plain : Value → Except Failure String
  | .symbol name => .ok name
  | .primitive _ p => .ok p.name
  | .string s => .ok s
  | v => v.shown

/-- The elements of a list. -/
def elements (v : Value) : Except Failure (List Value) :=
  if v.isList then .ok v.items else do throw (.improperList (← v.ending.shown))

end Value

end Lisplet
