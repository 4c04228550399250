import Lisplet.Number.Layout
import Lisplet.Text.Quoted

/-!
# JSON

JSON values and their text in pure ASCII. Whole numbers keep all their digits, and an object keeps
its members in the order in which their names first came.
-/

namespace Lisplet

inductive Json where
  | null
  | bool (b : Bool)
  | int (n : Int)
  | float (x : Float)
  | string (s : String)
  | array (items : List Json)
  | object (members : List (String × Json))

namespace Json

instance : Inhabited Json := ⟨.null⟩

/-- Numbers in JSON text. -/
def numberStyle : NumberStyle :=
  { NumberStyle.inspection with nan := "NaN".toList, infinity := "Infinity".toList }

/-- A sixteen-bit unit as an escape. -/
def escapeUnit (n : Nat) : List Char := '\\' :: 'u' :: Text.hex 4 n

/-- A character of a string: in ASCII as itself or as an escape, beyond it as one unit or two. -/
def escapeChar (c : Char) : List Char :=
  if c = '"' ∨ c = '\\' then ['\\', c]
  else if c = '\n' then ['\\', 'n']
  else if c = '\r' then ['\\', 'r']
  else if c = '\t' then ['\\', 't']
  else if c = '\x08' then ['\\', 'b']
  else if c = '\x0c' then ['\\', 'f']
  else if 0x20 ≤ c.toNat ∧ c.toNat < 0x7F then [c]
  else if c.toNat < 0x10000 then escapeUnit c.toNat
  else
    let n := c.toNat - 0x10000
    escapeUnit (0xD800 + n / 0x400) ++ escapeUnit (0xDC00 + n % 0x400)

/-- A string in JSON text. -/
def stringText (s : String) : List Char := '"' :: (s.toList.flatMap escapeChar ++ ['"'])

mutual

/-- The text of a value, with a blank behind each comma and colon. -/
def render : Json → List Char
  | .null => "null".toList
  | .bool b => (if b then "true" else "false").toList
  | .int n => (toString n).toList
  | .float x => numberStyle.double x
  | .string s => stringText s
  | .array items => '[' :: (renderItems items ++ [']'])
  | .object members => '\x7b' :: (renderMembers members ++ ['\x7d'])

def renderItems : List Json → List Char
  | [] => []
  | [item] => item.render
  | item :: items => item.render ++ ", ".toList ++ renderItems items

def renderMembers : List (String × Json) → List Char
  | [] => []
  | [(name, item)] => stringText name ++ ": ".toList ++ item.render
  | (name, item) :: members =>
    stringText name ++ ": ".toList ++ item.render ++ ", ".toList ++ renderMembers members

end

mutual

/-- A value as messages show it. -/
def inspect : Json → List Char
  | .null => "None".toList
  | .bool b => (if b then "True" else "False").toList
  | .int n => (toString n).toList
  | .float x => NumberStyle.inspection.double x
  | .string s => Text.quoted s.toList
  | .array items => '[' :: (inspectItems items ++ [']'])
  | .object members => '\x7b' :: (inspectMembers members ++ ['\x7d'])

def inspectItems : List Json → List Char
  | [] => []
  | [item] => item.inspect
  | item :: items => item.inspect ++ ", ".toList ++ inspectItems items

def inspectMembers : List (String × Json) → List Char
  | [] => []
  | [(name, item)] => Text.quoted name.toList ++ ": ".toList ++ item.inspect
  | (name, item) :: members =>
    Text.quoted name.toList ++ ": ".toList ++ item.inspect ++ ", ".toList
      ++ inspectMembers members

end

/-- A value by itself in a message: a string without quotes, all else as messages show it. -/
def plain : Json → String
  | .string s => s
  | v => String.ofList v.inspect

/-- Sets a member, in its place if there is one of that name. -/
def setMember (members : List (String × Json)) (name : String) (item : Json) :
    List (String × Json) :=
  if members.any (·.1 == name) then
    members.map fun m => if m.1 == name then (name, item) else m
  else members ++ [(name, item)]

/-- The member of that name. -/
def member? (members : List (String × Json)) (name : String) : Option Json :=
  (members.find? (·.1 == name)).map (·.2)

end Json

end Lisplet
