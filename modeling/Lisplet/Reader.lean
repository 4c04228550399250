import Lisplet.Failure
import Lisplet.Number.Numeral
import Lisplet.Reader.Lexeme
import Lisplet.Value

/-!
# Reading values

Lexemes are put together to values over a stack of open lists. A reader is a cursor in a text; it
reads one value or all of them, and after a failure stands behind the lexeme that failed.
-/

namespace Lisplet

/-- How text is read. -/
structure ReadOptions where
  /-- Refuse literals that start as a number and go on as something else. -/
  strict : Bool
  /-- How deeply lists may be nested. -/
  room : Nat

/-- The value of a literal. -/
def readLiteral (strict : Bool) (cs : List Char) (start : Nat) : Except Failure Value :=
  match Numeral.scan cs with
  | some (numeral, rest) =>
    if strict && !rest.isEmpty then
      .error (.unreadable (.malformedNumber (String.ofList cs) start))
    else .ok (.double numeral.toDouble)
  | none =>
    if cs = "true".toList then .ok (.bool true)
    else if cs = "false".toList then .ok (.bool false)
    else if cs = "null".toList then .ok .nil
    else .ok (.symbol (String.ofList cs))

/-- The lists that are open, the innermost first, each with its latest element first, and how many
more may be opened. -/
structure Nesting where
  room : Nat
  opened : List (List Value)

/-- What a lexeme leads to: a value that is complete, or lists that are open. -/
inductive Progress where
  | value (v : Value)
  | pending (nesting : Nesting)

namespace Nesting

/-- Adds a value to the innermost list. -/
def deliver (nesting : Nesting) (v : Value) : Progress :=
  match nesting.opened with
  | [] => .value v
  | top :: below => .pending ⟨nesting.room, (v :: top) :: below⟩

/-- Takes one lexeme. -/
def accept (strict : Bool) (nesting : Nesting) (l : Lexeme) : Except Failure Progress :=
  match l.token with
  | .opening =>
    match nesting.room with
    | 0 => .error .exhausted
    | room + 1 => .ok (.pending ⟨room, [] :: nesting.opened⟩)
  | .closing =>
    match nesting.opened with
    | [] => .error (.unreadable (.strayClose l.start))
    | top :: below => .ok (deliver ⟨nesting.room + 1, below⟩ (.ofList top.reverse))
  | .quoted body => .ok (nesting.deliver (.string (String.ofList body)))
  | .unclosed _ => .error (.unreadable (.unclosedString l.start))
  | .literal cs => (readLiteral strict cs l.start).map nesting.deliver

end Nesting

/-- Reads one value off lexemes of a text that ends at `finish`; also gives the offset reached. -/
def readOne (options : ReadOptions) (finish : Nat) :
    Nesting → List Lexeme → Except Failure Value × Nat
  | _, [] => (.error (.unreadable (.endOfInput finish)), finish)
  | nesting, l :: ls =>
    match nesting.accept options.strict l with
    | .error failure => (.error failure, l.stop)
    | .ok (.value v) => (.ok v, l.stop)
    | .ok (.pending nesting) => readOne options finish nesting ls

/-- The values read one after the other, the failure that stopped them if any, and the offset
reached. -/
structure Readings where
  values : List Value
  failure : Option Failure
  position : Nat

/-- Reads all values off lexemes of a text that ends at `finish`. -/
def readAll (options : ReadOptions) (finish : Nat) : Nesting → List Lexeme → Readings
  | nesting, [] =>
    if nesting.opened.isEmpty then ⟨[], none, finish⟩
    else ⟨[], some (.unreadable (.endOfInput finish)), finish⟩
  | nesting, l :: ls =>
    match nesting.accept options.strict l with
    | .error failure => ⟨[], some failure, l.stop⟩
    | .ok (.value v) =>
      let later := readAll options finish ⟨options.room, []⟩ ls
      { later with values := v :: later.values }
    | .ok (.pending nesting) => readAll options finish nesting ls

/-- A cursor in a text. -/
structure Reader where
  text : List Char
  position : Nat
  options : ReadOptions

namespace Reader

/-- Where the text ends; a cursor beyond it stays where it is. -/
def finish (r : Reader) : Nat := max r.position r.text.length

/-- The lexemes from the cursor on. -/
def lexemes (r : Reader) : List Lexeme := Lexeme.cut r.position (r.text.drop r.position)

def atEnd (r : Reader) : Bool := r.text.length ≤ r.position

/-- The character at the cursor. -/
def current? (r : Reader) : Option Char := r.text[r.position]?

/-- Moves the cursor over blanks. -/
def skipBlanks (r : Reader) : Reader :=
  { r with position := r.position + ((r.text.drop r.position).takeWhile Text.isBlank).length }

/-- Reads the next value. -/
def one (r : Reader) : Except Failure Value × Reader :=
  let (outcome, position) := readOne r.options r.finish ⟨r.options.room, []⟩ r.lexemes
  (outcome, { r with position })

/-- Reads every value up to the end. -/
def all (r : Reader) : Readings :=
  readAll r.options r.finish ⟨r.options.room, []⟩ r.lexemes

end Reader

/-- Reads every value of a text. -/
def readText (options : ReadOptions) (text : String) : Except Failure (List Value) :=
  let readings := Reader.all ⟨text.toList, 0, options⟩
  match readings.failure with
  | some failure => .error failure
  | none => .ok readings.values

/-- Reads the first value of a text. -/
def readFirst (options : ReadOptions) (text : String) : Except Failure Value :=
  (Reader.one ⟨text.toList, 0, options⟩).1

end Lisplet
