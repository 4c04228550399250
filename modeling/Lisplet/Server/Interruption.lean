import Lisplet.Failure

/-!
# Interruptions

What ends a connection instead of being answered.
-/

namespace Lisplet.Server

/-- Why a request gets no answer. -/
inductive Interruption where
  /-- The code is neither text nor a collection of items. -/
  | scalarCode
  /-- The items of the code have names and no order. -/
  | namedItems
  /-- An item of the code stands for part of a literal, which only text can hold. -/
  | literalItem
  /-- An item of the code stands for no character at all. -/
  | strangeItem
  /-- A failure that no answer can tell of. -/
  | failure (failure : Failure)
deriving DecidableEq, Repr

end Lisplet.Server
