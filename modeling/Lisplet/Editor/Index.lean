import Lisplet.Reader
import Lisplet.Text.Lines

/-!
# The index of a document

What an editor knows of a document without evaluating it: the names that forms at top level define,
the balance of its parentheses and the first thing that cannot be read.
-/

namespace Lisplet.Editor

open Text (Position positionOf)

/-- A piece of a text with its place. -/
structure Piece where
  text : List Char
  start : Nat
  position : Position
deriving DecidableEq, Repr

/-- The length of the piece at the front of a text, and zero if none starts there. A string without
a closing quote runs to the end. -/
def pieceLength : List Char → Nat
  | [] => 0
  | c :: cs =>
    if c = '(' ∨ c = ')' then 1
    else if c = '"' then
      let closing := if (cs.dropWhile (· != '"')).isEmpty then 0 else 1
      1 + (cs.takeWhile (· != '"')).length + closing
    else ((c :: cs).takeWhile fun c => !Lexeme.isDelimiter c).length

/-- The pieces of a text, each as long as possible, after `skip` characters that belong to the
piece before. -/
def piecesFrom (offset : Nat) (position : Position) (skip : Nat) : List Char → List Piece
  | [] => []
  | c :: cs =>
    let behind := position.advance c
    match skip with
    | skip + 1 => piecesFrom (offset + 1) behind skip cs
    | 0 =>
      match pieceLength (c :: cs) with
      | 0 => piecesFrom (offset + 1) behind 0 cs
      | n + 1 =>
        ⟨(c :: cs).take (n + 1), offset, position⟩ :: piecesFrom (offset + 1) behind n cs

/-- The pieces of a text. -/
def pieces (text : List Char) : List Piece := piecesFrom 0 ⟨0, 0⟩ 0 text

/-- What a name is defined as. -/
inductive SymbolKind where
  | variable
  | function
deriving DecidableEq, Repr

def SymbolKind.text : SymbolKind → String
  | .variable => "var"
  | .function => "function"

/-- A name with the place of its definition. -/
structure SymbolEntry where
  name : String
  kind : SymbolKind
  position : Position
deriving DecidableEq, Repr

/-- What keeps a document from being read, and where. -/
structure Problem where
  message : String
  position : Position
deriving DecidableEq, Repr

structure Index where
  /-- Defined names in the order of their first definition, each with its last definition. -/
  symbols : List SymbolEntry
  balance : Int
  problem : Option Problem
deriving DecidableEq, Repr

/-- Enters a definition, in the place of an earlier one of the same name. -/
def putSymbol (symbols : List SymbolEntry) (entry : SymbolEntry) : List SymbolEntry :=
  if symbols.any (·.name == entry.name) then
    symbols.map fun s => if s.name == entry.name then entry else s
  else symbols ++ [entry]

/-- The name defined by a form, and what as, given the pieces behind its parenthesis. -/
def definedName? : List Piece → Option (Piece × SymbolKind)
  | keyword :: name :: rest =>
    if keyword.text = "define".toList ∧ name.text ≠ ['('] ∧ name.text ≠ [')']
        ∧ name.text.head? ≠ some '"' then
      match rest with
      | opening :: head :: _ =>
        if opening.text = ['('] ∧ head.text = "function".toList then some (name, .function)
        else some (name, .variable)
      | _ => some (name, .variable)
    else none
  | _ => none

/-- The names defined at top level by pieces that start at a given depth. -/
def definedNames (depth : Nat) : List Piece → List (Piece × SymbolKind)
  | [] => []
  | piece :: rest =>
    if piece.text = ['('] then
      let later := definedNames (depth + 1) rest
      if depth = 0 then (definedName? rest).toList ++ later else later
    else if piece.text = [')'] then definedNames (depth - 1) rest
    else definedNames depth rest

/-- Opening parentheses less closing ones. -/
def parenBalance (pieces : List Piece) : Int :=
  (pieces.countP (·.text = ['(']) : Int) - pieces.countP (·.text = [')'])

/-- The first thing in a text that cannot be read: the fault that the reader reports, or too many lists within
lists, at the place where it gives up. -/
def problem? (options : ReadOptions) (text : List Char) : Option Problem :=
  let readings := Reader.all ⟨text, 0, options⟩
  match readings.failure with
  | none => none
  | some (.unreadable fault) => some ⟨fault.message, positionOf text fault.position⟩
  | some _ => some ⟨"input nested too deeply", positionOf text readings.position⟩

namespace Index

/-- The index of a document that does not exist. -/
def empty : Index := ⟨[], 0, none⟩

/-- The index of a text. -/
def build (options : ReadOptions) (text : List Char) : Index :=
  let pieces := pieces text
  let entries := (definedNames 0 pieces).map fun (name, kind) =>
    SymbolEntry.mk (String.ofList name.text) kind name.position
  ⟨entries.foldl putSymbol [], parenBalance pieces, problem? options text⟩

/-- The entry of a name. -/
def find? (index : Index) (name : String) : Option SymbolEntry :=
  index.symbols.find? (·.name == name)

end Index

end Lisplet.Editor
