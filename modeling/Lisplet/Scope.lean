import Lisplet.NameMap
import Lisplet.Value.Printer

/-!
# Scopes

Extending a scope by a frame, and the text of a scope.
-/

namespace Lisplet.Scope

/-- The scope with one more frame that pairs `names` with `values` as far as both go; of a name
that is repeated the last value counts. Without names there is no frame. -/
def extend (scope : Scope) (names : List String) (values : List Value) : Scope :=
  if names.isEmpty then scope
  else bindAll (NameMap.ofList (names.zip values)).entries (.enter scope)

theorem find?_bindAll (bindings : List (String × Value)) (scope : Scope) (x : String) :
    (bindAll bindings scope).find? x =
      ((bindings.find? (·.1 == x)).map (·.2)).or (scope.find? x) := by
  induction bindings with
  | nil => rfl
  | cons b bs ih =>
    have hfind : (bindAll (b :: bs) scope).find? x =
        if b.1 = x then some b.2 else (bindAll bs scope).find? x := rfl
    by_cases hx : b.1 = x <;> simp [hfind, hx, ih]

/-- A name means in an extended scope what the new frame says, else what it meant before. -/
theorem find?_extend (scope : Scope) (names : List String) (values : List Value) (x : String) :
    (scope.extend names values).find? x =
      ((NameMap.ofList (names.zip values)).find? x).or (scope.find? x) := by
  unfold extend
  split
  · next h =>
    have hnil : names = [] := by simpa using h
    subst hnil
    rfl
  · rw [find?_bindAll]
    rfl

/-- The text of one frame. -/
def frameText (frame : List (String × Value)) : Except Failure String := do
  let bindings ← frame.mapM fun (name, value) => do
    let shown ← value.shown
    return s!"{name}: {shown}"
  return "\x7b" ++ ", ".intercalate bindings ++ "\x7d"

/-- The innermost frame, and a mark if there are more. -/
def summary (scope : Scope) : Except Failure String := do
  match scope.frames with
  | [] => return "\x7b\x7d"
  | [frame] => frameText frame
  | frame :: _ => return (← frameText frame) ++ " -> ..."

/-- All frames, and the number of global names. -/
def outline (scope : Scope) (globals : Nat) : Except Failure String := do
  let frames ← scope.frames.mapM frameText
  let chain := " -> ".intercalate (frames ++ [s!"<GlobalTable {globals} bindings>"])
  return s!"<Environment chain: {chain}>"

end Lisplet.Scope
