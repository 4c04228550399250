import Lisplet.Value

/-!
# Equality of values

`same` compares structure; `equal` is what programs observe, where pairs and functions are equal
only to themselves.
-/

namespace Lisplet.Value

/-- How strictly two values are compared. -/
inductive Likeness where
  /-- Booleans equal only booleans, as inside pairs. -/
  | strict
  /-- Booleans also equal the numbers 0 and 1. -/
  | loose
  /-- The values are the elements of two foreign lists, each compared loosely. -/
  | elements
deriving DecidableEq

/-- A boolean counted as a number. -/
def count (b : Bool) : Number := .integer b.toNat

/-- Structural equality; numbers are compared by value and functions by identity. -/
def same (likeness : Likeness) : Value → Value → Bool
  | .nil, .nil => true
  | .bool a, .bool b => a == b
  | .bool a, .number n => likeness == .loose && (count a).eq n
  | .number m, .bool b => likeness == .loose && m.eq (count b)
  | .number m, .number n => m.eq n
  | .string s, .string t => s == t
  | .symbol x, .symbol y => x == y
  | .pair i head tail, .pair j head' tail' =>
    match likeness with
    | .elements => head.same .loose head' && tail.same .elements tail'
    | _ => Identity.shared i j || (head.same .strict head' && tail.same .strict tail')
  | .primitive o p, .primitive o' p' => o == o' && p == p'
  | .closure i _ _ _, .closure j _ _ _ => Identity.shared i j
  | .absent, .absent => true
  | .sequence i items, .sequence j items' =>
    Identity.shared i j || items.same .elements items'
  | _, _ => false

/-- Equality as programs see it: by value for atoms, by identity for pairs and functions. -/
def equal : Value → Value → Bool
  | .pair i _ _, .pair j _ _ => Identity.shared i j
  | v, w => v.same .strict w

end Lisplet.Value
