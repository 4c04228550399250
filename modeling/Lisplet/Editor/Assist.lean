import Lisplet.Editor.Index

/-!
# Help at the cursor

The word under the cursor, what is known about a name, the names that can complete a word, and the
outline of a document.
-/

namespace Lisplet.Editor

open Text (Position)

/-- The text of a form or call with the names of its operands. -/
def signature (name : String) (parameters : List String) : String :=
  "(" ++ " ".intercalate (name :: parameters) ++ ")"

/-! ### Words -/

/-- The characters that end a word in an editor. -/
def isWordEnd (c : Char) : Bool :=
  c == ' ' || c == '\t' || c == '(' || c == ')' || c == '\n' || c == '\r'

/-- Why there is no word to look for. -/
inductive WordFault where
  | beyondLine
deriving DecidableEq, Repr

/-- The longest word of a line that touches a column. -/
def wordIn (line : List Char) (column : Nat) : List Char :=
  ((line.take column).reverse.takeWhile fun c => !isWordEnd c).reverse
    ++ (line.drop column).takeWhile fun c => !isWordEnd c

/-- The word at a position; there is none between two delimiters or beyond the last line. -/
def wordAt (text : List Char) (position : Position) : Except WordFault (Option String) :=
  match (Text.lines text)[position.line]? with
  | none => .ok none
  | some line =>
    if line.length < position.column then .error .beyondLine
    else
      let word := wordIn line position.column
      .ok (if word.isEmpty then none else some (String.ofList word))

/-! ### Hover -/

/-- What is shown for a name: forms first, then the library, then the document. -/
def hover? (index : Index) (word : String) : Option String :=
  match SpecialForm.ofKeyword? word with
  | some form => some (signature form.keyword form.parameters ++ " (special form)")
  | none =>
    match Primitive.ofName? word with
    | some p => some (signature p.name p.parameters)
    | none =>
      (index.find? word).map fun entry =>
        let kind := entry.kind.text
        let line := entry.position.line + 1
        let column := entry.position.column + 1
        s!"{word}: {kind} (defined at {line}:{column})"

/-! ### Completion -/

inductive CompletionKind where
  | keyword
  | function
  | variable
deriving DecidableEq, Repr

/-- The number by which editors know a kind of completion. -/
def CompletionKind.code : CompletionKind → Nat
  | .function => 3
  | .variable => 6
  | .keyword => 14

structure Completion where
  label : String
  kind : CompletionKind
  detail : Option String
deriving DecidableEq, Repr

/-- Everything that can be completed: forms, the library, and the names of the document. -/
def completions (index : Index) : List Completion :=
  SpecialForm.all.map (fun f => ⟨f.keyword, .keyword, some (signature f.keyword f.parameters)⟩)
    ++ Primitive.all.map (fun p => ⟨p.name, .function, some (signature p.name p.parameters)⟩)
    ++ index.symbols.map fun entry =>
      ⟨entry.name, if entry.kind = .function then .function else .variable, none⟩

/-! ### Outline -/

/-- The number by which editors know a kind of symbol. -/
def SymbolKind.code : SymbolKind → Nat
  | .function => 12
  | .variable => 13

/-- A name with the stretch of its line that it takes up. -/
structure OutlineItem where
  name : String
  kind : SymbolKind
  start : Position
  stop : Position
deriving DecidableEq, Repr

/-- The names that a document defines. -/
def outline (index : Index) : List OutlineItem :=
  index.symbols.map fun entry =>
    ⟨entry.name, entry.kind, entry.position,
     ⟨entry.position.line, entry.position.column + entry.name.length⟩⟩

end Lisplet.Editor
