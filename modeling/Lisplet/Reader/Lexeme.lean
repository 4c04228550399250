import Lisplet.Text.Blank

/-!
# Lexemes

Text is cut into lexemes by an automaton that is fed one character at a time: parentheses stand for
themselves, a quote starts a string that runs to the next quote, and any other run of characters up
to a blank or a parenthesis is a literal. Blanks only separate.
-/

namespace Lisplet

inductive Token where
  | opening
  | closing
  | quoted (body : List Char)
  /-- A string that the text ends in before its closing quote. -/
  | unclosed (body : List Char)
  | literal (cs : List Char)
deriving DecidableEq, Repr

/-- The characters that a token was cut from. -/
def Token.text : Token → List Char
  | opening => ['(']
  | closing => [')']
  | quoted body => '"' :: (body ++ ['"'])
  | unclosed body => '"' :: body
  | literal cs => cs

/-- A token with the offsets of its first character and of the one behind its last. -/
structure Lexeme where
  token : Token
  start : Nat
  stop : Nat
deriving DecidableEq, Repr

namespace Lexeme

/-- What the cut is in the middle of; characters are held with the latest first. -/
inductive Mode where
  | between
  | inLiteral (start : Nat) (held : List Char)
  | inString (start : Nat) (held : List Char)
deriving DecidableEq, Repr

/-- The characters that end a literal. -/
def isDelimiter (c : Char) : Bool := c == '(' || c == ')' || Text.isBlank c

/-- A cut in progress: the lexemes so far, the latest first, and the offset reached. -/
structure Cut where
  done : List Lexeme
  mode : Mode
  position : Nat
deriving DecidableEq, Repr

namespace Cut

/-- The lexemes after a character that begins anew. -/
def restart (done : List Lexeme) (position : Nat) (c : Char) : Cut :=
  if c = '(' then ⟨⟨.opening, position, position + 1⟩ :: done, .between, position + 1⟩
  else if c = ')' then ⟨⟨.closing, position, position + 1⟩ :: done, .between, position + 1⟩
  else if Text.isBlank c then ⟨done, .between, position + 1⟩
  else if c = '"' then ⟨done, .inString position [], position + 1⟩
  else ⟨done, .inLiteral position [c], position + 1⟩

/-- The lexemes after one more character. -/
def feed (cut : Cut) (c : Char) : Cut :=
  match cut.mode with
  | .between => restart cut.done cut.position c
  | .inLiteral start held =>
    if isDelimiter c then
      restart (⟨.literal held.reverse, start, cut.position⟩ :: cut.done) cut.position c
    else ⟨cut.done, .inLiteral start (c :: held), cut.position + 1⟩
  | .inString start held =>
    if c = '"' then
      ⟨⟨.quoted held.reverse, start, cut.position + 1⟩ :: cut.done, .between, cut.position + 1⟩
    else ⟨cut.done, .inString start (c :: held), cut.position + 1⟩

/-- The lexemes when the text ends, the first one first. -/
def finish (cut : Cut) : List Lexeme :=
  match cut.mode with
  | .between => cut.done.reverse
  | .inLiteral start held => (⟨.literal held.reverse, start, cut.position⟩ :: cut.done).reverse
  | .inString start held => (⟨.unclosed held.reverse, start, cut.position⟩ :: cut.done).reverse

end Cut

/-- The lexemes of a text whose first character has the offset `start`. -/
def cut (start : Nat) (text : List Char) : List Lexeme :=
  (text.foldl Cut.feed ⟨[], .between, start⟩).finish

end Lexeme

end Lisplet
