/-!
# Lines and positions

Editors address a text by line and column. Offsets are turned into positions by newlines alone;
looking up a line also ends lines at the other marks that end a line.
-/

namespace Lisplet.Text

/-- A place in a text, both parts counted from zero. -/
structure Position where
  line : Nat
  column : Nat
deriving DecidableEq, Repr

/-- The position behind a character. -/
def Position.advance (p : Position) (c : Char) : Position :=
  if c = '\n' then ⟨p.line + 1, 0⟩ else ⟨p.line, p.column + 1⟩

/-- The position of an offset. An offset beyond the text counts on in the last line. -/
def positionOf (text : List Char) (offset : Nat) : Position :=
  let p := (text.take offset).foldl Position.advance ⟨0, 0⟩
  ⟨p.line, p.column + (offset - text.length)⟩

/-- The characters that end a line. -/
def isLineEnd (c : Char) : Bool :=
  let n := c.toNat
  (0x0A ≤ n && n ≤ 0x0D) || (0x1C ≤ n && n ≤ 0x1E) || n == 0x85 || n == 0x2028 || n == 0x2029

/-- The lines of a text with what ends them, given the beginning of the first one, its latest
character first. -/
def linesFrom (held : List Char) : List Char → List (List Char)
  | [] => if held.isEmpty then [] else [held.reverse]
  | '\r' :: '\n' :: cs => ('\n' :: '\r' :: held).reverse :: linesFrom [] cs
  | c :: cs =>
    if isLineEnd c then (c :: held).reverse :: linesFrom [] cs else linesFrom (c :: held) cs

/-- The lines of a text, each with the mark that ends it. -/
def lines (text : List Char) : List (List Char) := linesFrom [] text

end Lisplet.Text
