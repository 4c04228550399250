import Lisplet.Json
import Lisplet.Server.Interruption
import Lisplet.Session

/-!
# Code as items

Code may be sent as an array of items that stand for characters: parentheses, quotes and blanks. It
is read like text, and positions count items. A literal cannot be put together from items, and a
quoted run of items is a foreign list, which has no value in a program.
-/

namespace Lisplet.Server

/-- What an item stands for. -/
inductive Sign where
  | opening
  | closing
  | quote
  | blank
deriving DecidableEq, Repr

/-- What an item stands for outside of quotes. -/
def Sign.ofItem : Json → Except Interruption Sign
  | .string s =>
    if s = "(" then .ok .opening
    else if s = ")" then .ok .closing
    else if s = "\"" then .ok .quote
    else if !s.isEmpty && s.toList.all Text.isBlank then .ok .blank
    else .error .literalItem
  | _ => .error .strangeItem

/-- The item that ends a quoted run. -/
def isQuote : Json → Bool
  | .string s => s == "\""
  | _ => false

/-- What items are read to. -/
inductive Form where
  | list (parts : List Form)
  | quoted (items : List Json)

namespace Form

mutual

/-- The value of a form, if no part of it is quoted. -/
def value : Form → Except Failure Value
  | .list parts => (values parts).map .ofList
  | .quoted items => .error (.foreignText (String.ofList (Json.array items).inspect))

def values : List Form → Except Failure (List Value)
  | [] => .ok []
  | form :: forms => do
    let v ← form.value
    return v :: (← values forms)

end

end Form

/-- A reading of items in progress. -/
structure Reading where
  /-- The forms that are complete, the latest first. -/
  done : List Form
  /-- The lists that are open, the innermost first, each with its latest part first. -/
  opened : List (List Form)
  /-- The quote that is open: where it stands and the items behind it, the latest first. -/
  quote : Option (Nat × List Json)
  /-- The number of items read. -/
  position : Nat
  /-- How many more lists may be opened. -/
  room : Nat

namespace Reading

def start (room : Nat) : Reading := ⟨[], [], none, 0, room⟩

/-- Adds a form to the innermost list. -/
def deliver (r : Reading) (form : Form) : Reading :=
  match r.opened with
  | [] => { r with done := form :: r.done }
  | top :: below => { r with opened := (form :: top) :: below }

/-- Takes an item that stands outside of quotes. -/
def accept (r : Reading) : Sign → Except Interruption Reading
  | .blank => .ok r
  | .quote => .ok { r with quote := some (r.position, []) }
  | .opening =>
    match r.room with
    | 0 => .error (.failure .exhausted)
    | room + 1 => .ok { r with opened := [] :: r.opened, room }
  | .closing =>
    match r.opened with
    | [] => .error (.failure (.unreadable (.strayClose r.position)))
    | top :: below =>
      .ok ({ r with opened := below, room := r.room + 1 }.deliver (.list top.reverse))

/-- Takes one item. -/
def feed (r : Reading) (item : Json) : Except Interruption Reading := do
  let r ←
    match r.quote with
    | none => r.accept (← Sign.ofItem item)
    | some (start, held) =>
      if isQuote item then pure ({ r with quote := none }.deliver (.quoted held.reverse))
      else pure { r with quote := some (start, item :: held) }
  return { r with position := r.position + 1 }

/-- The forms when the items end. -/
def finish (r : Reading) : Except Interruption (List Form) :=
  match r.quote, r.opened with
  | some (start, _), _ => .error (.failure (.unreadable (.unclosedString start)))
  | none, _ :: _ => .error (.failure (.unreadable (.endOfInput r.position)))
  | none, [] => .ok r.done.reverse

end Reading

/-- The forms of code that is sent as items. -/
def readItems (room : Nat) (items : List Json) : Except Interruption (List Form) := do
  (← items.foldlM Reading.feed (.start room)).finish

/-- Evaluates forms as a batch, which ends at the first form without a value. -/
def runForms (forms : List Form) : SessionM (List Outcome) := do
  if forms.isEmpty then return []
  Session.remember
  forms.mapM fun form => do Session.record (← MonadExcept.ofExcept form.value)

end Lisplet.Server
