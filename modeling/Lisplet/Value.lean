import Lisplet.Number
import Lisplet.Primitive

/-!
# Values

Programs and data are the same values. A list is a chain of pairs that ends in `nil`, and a scope
is what a function closes over: frames of bindings over the global table of its owner.
-/

namespace Lisplet

/-- What tells pairs and functions apart that look alike. A pair that was read from text has no
identity of its own. -/
abbrev Identity := Option Nat

/-- Whether two objects are known to be one and the same. -/
def Identity.shared (i j : Identity) : Bool := i.isSome && i == j

/-- Whose global table a scope ends in, and whose files and log a primitive works on. -/
inductive Owner where
  /-- The session that is running. -/
  | session
  /-- The bare library, to which functions from outside a session belong. -/
  | library
deriving DecidableEq, Repr

mutual

inductive Value where
  /-- The empty list, and the value of nothing. -/
  | nil
  | bool (b : Bool)
  | number (n : Number)
  | string (s : String)
  | symbol (name : String)
  | pair (id : Identity) (head tail : Value)
  | primitive (owner : Owner) (p : Primitive)
  | closure (id : Identity) (params : List String) (body : Value) (scope : Scope)
  /-- No value at all; it has no text. -/
  | absent
  /-- A foreign list, its elements held as a chain; it has no text. -/
  | sequence (id : Identity) (items : Value)

inductive Scope where
  /-- No frame: every name is global. -/
  | global (owner : Owner)
  /-- A new frame, still empty. -/
  | enter (outer : Scope)
  /-- One more binding in the innermost frame. -/
  | bind (name : String) (value : Value) (rest : Scope)

end

deriving instance DecidableEq for Value, Scope

instance : Inhabited Value := ⟨.nil⟩

namespace Value

/-- A double as a value. -/
abbrev double (x : Float) : Value := .number (.double x)

/-- The chain of the given elements onto `tail`. -/
def chain (items : List Value) (tail : Value) : Value := items.foldr (.pair none) tail

/-- The list of the given elements. -/
abbrev ofList (items : List Value) : Value := chain items .nil

/-- The heads of a chain of pairs. -/
def items : Value → List Value
  | .pair _ head tail => head :: tail.items
  | _ => []

/-- What a chain of pairs ends in; a value that is no pair ends in itself. -/
def ending : Value → Value
  | .pair _ _ tail => tail.ending
  | v => v

/-- A chain that ends in `nil`. -/
def isList (v : Value) : Bool := v.ending matches .nil

theorem items_ofList (vs : List Value) : (ofList vs).items = vs := by
  induction vs with
  | nil => rfl
  | cons v vs ih => exact congrArg (v :: ·) ih

theorem isList_ofList (vs : List Value) : (ofList vs).isList = true := by
  induction vs with
  | nil => rfl
  | cons v vs ih => exact ih

/-- Only `nil` and `false` count as false. -/
def isTruthy : Value → Bool
  | .nil => false
  | .bool b => b
  | _ => true

def isFunction : Value → Bool
  | .primitive .. | .closure .. => true
  | _ => false

def isPrimitive : Value → Bool
  | .primitive .. => true
  | _ => false

end Value

namespace Scope

/-- Whose globals the scope falls back on. -/
def owner : Scope → Owner
  | .global owner => owner
  | .enter outer => outer.owner
  | .bind _ _ rest => rest.owner

/-- The value of the innermost binding of a name. -/
def find? (name : String) : Scope → Option Value
  | .global _ => none
  | .enter outer => outer.find? name
  | .bind x v rest => if x = name then some v else rest.find? name

/-- The bindings of each frame, the innermost frame first. -/
def frames : Scope → List (List (String × Value))
  | .global _ => []
  | .enter outer => [] :: outer.frames
  | .bind x v rest =>
    match rest.frames with
    | [] => [[(x, v)]]
    | frame :: outer => ((x, v) :: frame) :: outer

/-- Adds bindings to the innermost frame. -/
def bindAll (bindings : List (String × Value)) (scope : Scope) : Scope :=
  bindings.foldr (fun (x, v) rest => .bind x v rest) scope

end Scope

end Lisplet
