import Lisplet.Editor.Assist
import Lisplet.Editor.Diagnostic
import Lisplet.NameMap

/-!
# The documents of an editor

Each open document is kept with its index. Every notification of the editor publishes diagnostics
for the document concerned.
-/

namespace Lisplet.Editor

open Text (Position)

structure Document where
  text : List Char
  index : Index
deriving DecidableEq, Repr

/-- The open documents by address, and how they are read. -/
structure Workspace where
  options : ReadOptions
  documents : NameMap Document

/-- What an editor reports. -/
inductive Notification where
  | opened (uri : String) (text : List Char)
  /-- A list of changes, each of which is the whole text. -/
  | changed (uri : String) (texts : List (List Char))
  | closed (uri : String)

/-- Diagnostics for one document. -/
structure Publication where
  uri : String
  diagnostics : List Diagnostic
deriving DecidableEq, Repr

namespace Workspace

def empty (options : ReadOptions) : Workspace := ⟨options, ∅⟩

/-- Takes a new text for a document. -/
def update (w : Workspace) (uri : String) (text : List Char) : Workspace × Publication :=
  let index := Index.build w.options text
  ({ w with documents := w.documents.insert uri ⟨text, index⟩ }, ⟨uri, Diagnostic.ofIndex index⟩)

/-- The text of a document after changes: the last one, or the text as it was. -/
def changedText (w : Workspace) (uri : String) (texts : List (List Char)) : List Char :=
  match texts.getLast? with
  | some text => text
  | none => ((w.documents.find? uri).map Document.text).getD []

/-- The workspace after a notification, with the diagnostics that this publishes. -/
def notify (w : Workspace) : Notification → Workspace × Publication
  | .opened uri text => w.update uri text
  | .changed uri texts => w.update uri (w.changedText uri texts)
  | .closed uri => ({ w with documents := w.documents.erase uri }, ⟨uri, []⟩)

/-- What is shown at a position of a document. -/
def hover (w : Workspace) (uri : String) (position : Position) :
    Except WordFault (Option String) :=
  match w.documents.find? uri with
  | none => .ok none
  | some document => (wordAt document.text position).map (·.bind (hover? document.index))

/-- What can be completed in a document. -/
def completions (w : Workspace) (uri : String) : List Completion :=
  Editor.completions (((w.documents.find? uri).map Document.index).getD .empty)

/-- The outline of an open document. -/
def outline? (w : Workspace) (uri : String) : Option (List OutlineItem) :=
  (w.documents.find? uri).map fun document => Editor.outline document.index

end Workspace

end Lisplet.Editor
