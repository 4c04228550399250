import Lisplet.Eval
import Lisplet.Reader
import Lisplet.Settings

/-!
# Sessions

A session keeps a global table between pieces of code, and the tables from before each batch, to
which `undo` goes back. Its limit stands for the stack of a host: it counts lists within lists that are
read, evaluations within evaluations, and calls within calls that write a text. How many frames of its
stack a host spends on each of these is its own affair, so that the depths at which it gives up are not
the same.
-/

namespace Lisplet

structure Session where
  world : World
  /-- The tables from before the batches that can be undone, the latest first. -/
  history : List Globals
  /-- How deeply expressions may be nested, in text and in evaluation. -/
  limit : Nat
  strict : Bool

/-- A step of a session that may fail; what it changed before stays changed. -/
abbrev SessionM := EStateM Failure Session

/-- The result of one expression of a batch, with the text of the expression. -/
structure Outcome where
  text : String
  result : Except Failure Value

namespace Outcome

def isOk (o : Outcome) : Bool := o.result matches .ok _

/-- The text of the value, whether there is room to write it or not, or the message. -/
def display (o : Outcome) : Except Failure String :=
  match o.result with
  | .ok v => v.text
  | .error failure => .ok failure.message

end Outcome

/-- A session's report of a failure. -/
def Failure.report (stage : Stage) (limit : Nat) : Failure → Failure
  | exhausted => tooDeep stage limit
  | failure => failure

namespace Session

/-- The least limit on nesting. -/
def leastLimit : Nat := 1000

/-- The greatest limit on nesting. -/
def greatestLimit : Nat := 2147483647

/-- What a session wants its limit to be, or what the settings say if it does not want any. -/
def wantedLimit (settings : Settings) : Option Int → Int
  | none | some 0 => settings.recursionLimit
  | some n => n

/-- The limit after one more session was asked for: what it wants, but never lower than before. -/
def raiseLimit (settings : Settings) (current : Nat) (wanted : Option Int) : Except Failure Nat :=
  let limit := max current (wantedLimit settings wanted).toNat
  if current < limit ∧ greatestLimit < limit then .error .outOfRange else .ok limit

/-- A session that knows the primitives and nothing else. -/
def fresh (limit : Nat) (strict : Bool) (files : NameMap String) : Session :=
  ⟨.ofRealm (.fresh .session files) 0, [], limit, strict⟩

/-- How text is read where there is no session. -/
def readOptions (settings : Settings) : ReadOptions := ⟨settings.strictNumbers, leastLimit⟩

def globals (s : Session) : Globals := s.world.session.globals

def files (s : Session) : NameMap String := s.world.session.files

def log (s : Session) : List String := s.world.session.log

/-- The session with another global table. -/
def withGlobals (s : Session) (globals : Globals) : Session :=
  { s with world := s.world.modifyRealm .session fun r => { r with globals } }

/-- Whether there is room for the calls by which a value is written. -/
def Writes (s : Session) (v : Value) : Prop := v.writeDepth false false ≤ s.limit

instance (s : Session) (v : Value) : Decidable (s.Writes v) := inferInstanceAs (Decidable (_ ≤ _))

/-- Writes the source text of a value. -/
def write (s : Session) (v : Value) : Except Failure String :=
  if s.Writes v then v.text else .error .exhausted

/-- Writes the source text of a value with the bindings that functions captured. -/
def writeCaptured (s : Session) (v : Value) : Except Failure String :=
  if v.writeDepth true false ≤ s.limit then v.format true else .error .exhausted

/-- Writes the value of an outcome, or gives the message. -/
def display (s : Session) (o : Outcome) : Except Failure String :=
  match o.result with
  | .ok v => s.write v
  | .error failure => .ok failure.message

/-- The expressions of a piece of code. -/
def parse (s : Session) (code : String) : Except Failure (List Value) :=
  (readText ⟨s.strict, s.limit⟩ code).mapError (·.report .reading s.limit)

/-- Evaluates an expression at top level. -/
def evalExpr (e : Value) : SessionM Value := fun s =>
  match eval s.limit (.global .session) e s.world with
  | .ok v world => .ok v { s with world }
  | .error failure world => .error (failure.report .evaluating s.limit) { s with world }

/-- Evaluates every expression of a piece of code up to the first failure. -/
def eval (code : String) : SessionM (List Value) := do
  let es ← MonadExcept.ofExcept ((← get).parse code)
  es.mapM evalExpr

/-- Writes the text of an expression, then evaluates it and records its value or its failure. It breaks
down if there is no room for the text, or with the evaluation. -/
def record (e : Value) : SessionM Outcome := fun s =>
  if s.Writes e then
    let text := String.ofList e.render
    match evalExpr e s with
    | .ok v s => .ok ⟨text, .ok v⟩ s
    | .error failure s =>
      if failure.isBreakdown then .error failure s else .ok ⟨text, .error failure⟩ s
  else .error .exhausted s

/-- Keeps the global table, so that `undo` can go back to it. -/
def remember : SessionM Unit := modify fun s => { s with history := s.globals :: s.history }

/-- Evaluates a batch: every expression, also after failures, unless one breaks down. A batch of at least
one expression can be undone; code that cannot be read fails as a whole and changes nothing. -/
def run (code : String) : SessionM (List Outcome) := do
  let es ← MonadExcept.ofExcept ((← get).parse code)
  if es.isEmpty then return []
  remember
  es.mapM record

/-- Goes back to the table from before the last batch, if there is one. -/
def undo (s : Session) : Bool × Session :=
  match s.history with
  | [] => (false, s)
  | globals :: history => (true, { s.withGlobals globals with history })

/-- What the user defined, in the order of the names. -/
def userDefines (s : Session) : List (String × Value) := s.globals.userDefines

/-- Code that defines the given names. -/
def definitions (defines : List (String × Value)) : Except Failure String := do
  let lines ← defines.mapM fun (name, v) => do
    let text ← v.text
    return s!"(define {name} {text})"
  return "\n".intercalate lines

/-- Code that defines what the user defined, as it is where there is room to write the values. -/
def dump (s : Session) : Except Failure String := definitions s.userDefines

/-- The value that stands for the results of a piece of code. -/
def summary : List Value → Value
  | [] => .nil
  | [v] => v
  | vs => .sequence none (.ofList vs)

theorem summary_eq (vs : List Value) :
    (vs = [] → summary vs = .nil) ∧ (∀ v, vs = [v] → summary vs = v) ∧
      (1 < vs.length → summary vs = .sequence none (.ofList vs)) := by
  refine ⟨by rintro rfl; rfl, by rintro v rfl; rfl, fun hlen => ?_⟩
  match vs, hlen with
  | _ :: _ :: _, _ => rfl

/-- Creates a session that wants a limit and evaluates the code that it starts with. -/
def create (settings : Settings) (wanted : Option Int) (files : NameMap String) (code : String) :
    Except Failure Session :=
  match raiseLimit settings leastLimit wanted with
  | .error failure => .error failure
  | .ok limit =>
    match eval code (fresh limit settings.strictNumbers files) with
    | .ok _ s => .ok s
    | .error failure _ => .error failure

/-- Evaluates the dump in a fresh session, which logs to the log of this one, and dumps that. -/
def replay (settings : Settings) : SessionM String := do
  let s ← get
  let limit ← MonadExcept.ofExcept (raiseLimit settings s.limit none)
  set { s with limit }
  let code ← MonadExcept.ofExcept s.dump
  let (outcome, other) :=
    match eval code (fresh limit s.strict ∅) with
    | .ok _ other => (other.dump, other)
    | .error failure other => (.error failure, other)
  modify fun s =>
    { s with world := s.world.modifyRealm .session fun r => { r with log := r.log ++ other.log } }
  MonadExcept.ofExcept outcome

end Session

end Lisplet
