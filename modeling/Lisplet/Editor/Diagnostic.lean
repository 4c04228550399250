import Lisplet.Editor.Index

/-!
# Diagnostics

What an editor marks in a document.
-/

namespace Lisplet.Editor

open Text (Position)

inductive Severity where
  | error
  | warning
deriving DecidableEq, Repr

/-- The number by which editors know a severity. -/
def Severity.code : Severity → Nat
  | .error => 1
  | .warning => 2

/-- A mark on the one character at a position. -/
structure Diagnostic where
  position : Position
  message : String
  severity : Severity
deriving DecidableEq, Repr

namespace Diagnostic

/-- Where all diagnostics say they come from. -/
def source : String := "ripple-ls"

/-- The diagnostics of an index: the problem if there is one, else a warning about parentheses. -/
def ofIndex (index : Index) : List Diagnostic :=
  match index.problem with
  | some problem => [⟨problem.position, problem.message, .error⟩]
  | none =>
    if index.balance = 0 then []
    else [⟨⟨0, 0⟩, "Unmatched parentheses detected", .warning⟩]

end Diagnostic

end Lisplet.Editor
