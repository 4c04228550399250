import Lisplet.Server.Items

/-!
# The server

Requests are JSON objects that work on one session. Each is answered by one object, unless its
handling breaks off, which ends the connection.
-/

namespace Lisplet.Server

/-- The code of a request. -/
inductive Code where
  | text (code : String)
  | items (items : List Json)
  /-- Items under names. -/
  | named
  /-- Neither text nor a collection. -/
  | scalar

/-- The code that a request holds. No code is empty text, and an empty object has no items. -/
def Code.ofMember : Option Json → Code
  | none => .text ""
  | some (.string s) => .text s
  | some (.array parts) => .items parts
  | some (.object []) => .items []
  | some (.object _) => .named
  | some _ => .scalar

/-- What a client asks for. -/
inductive Request where
  | eval (code : Code)
  | defines
  | undo
  | unknown (command : String)

def Request.ofMembers (members : List (String × Json)) : Request :=
  match Json.member? members "cmd" with
  | some (.string "eval") => .eval (.ofMember (Json.member? members "code"))
  | some (.string "defines") => .defines
  | some (.string "undo") => .undo
  | some other => .unknown other.plain
  | none => .unknown Json.null.plain

/-- One result of a batch. -/
structure Result where
  ok : Bool
  text : String
  display : String
deriving DecidableEq, Repr

inductive Response where
  | results (results : List Result) (output : List String)
  | defines (entries : List (String × String))
  | undone (undone : Bool)
  | failed (message : String)
deriving DecidableEq, Repr

namespace Response

def resultJson (r : Result) : Json :=
  .object [("ok", .bool r.ok), ("text", .string r.text),
    (if r.ok then "value" else "error", .string r.display)]

def toJson : Response → Json
  | .results rs output =>
    .object [("ok", .bool true), ("results", .array (rs.map resultJson)),
      ("output", .array (output.map Json.string))]
  | .defines entries =>
    .object [("ok", .bool true),
      ("defines", .object (entries.map fun (name, text) => (name, Json.string text)))]
  | .undone done => .object [("ok", .bool true), ("undone", .bool done)]
  | .failed message => .object [("ok", .bool false), ("error", .string message)]

end Response

/-- The session that a server starts with. -/
def session (settings : Settings) : Except Failure Session := do
  let limit ← Session.raiseLimit settings Session.leastLimit none
  return .fresh limit settings.strictNumbers ∅

/-- Handling a request; what it changed before breaking off stays changed. -/
abbrev ServerM := EStateM Interruption Session

namespace ServerM

/-- A text that is needed for an answer. -/
def ofExcept {α : Type} : Except Failure α → ServerM α
  | .ok a => pure a
  | .error failure => throw (.failure failure)

/-- A step of the session. -/
def ofSession {α : Type} (step : SessionM α) : ServerM α := fun s =>
  match step s with
  | .ok a s => .ok a s
  | .error failure s => .error (.failure failure) s

end ServerM

/-- Runs code as a batch. -/
def Code.run : Code → ServerM (List Outcome)
  | .text code => .ofSession (Session.run code)
  | .items parts => do
    let limit := (← get).limit
    match readItems limit parts with
    | .ok forms => .ofSession (runForms forms)
    | .error (.failure failure) => throw (.failure (failure.report .reading limit))
    | .error interruption => throw interruption
  | .named => throw .namedItems
  | .scalar => throw .scalarCode

/-- The results of a batch, written by a session. -/
def results (s : Session) (outcomes : List Outcome) : Except Failure (List Result) :=
  outcomes.mapM fun o => do return Result.mk o.isOk o.text (← s.display o)

/-- Runs code and collects what it logs. -/
def evalCode (code : Code) : ServerM Response := fun s =>
  match code.run s with
  | .ok outcomes s' =>
    (do return .results (← .ofExcept (results s' outcomes)) (s'.log.drop s.log.length) :
      ServerM Response) s'
  | .error (.failure failure) s' =>
    if failure.isBreakdown then .error (.failure failure) s' else .ok (.failed failure.message) s'
  | .error interruption s' => .error interruption s'

/-- The definitions with their texts, written by the session. -/
def definitions (s : Session) : Except Failure (List (String × String)) :=
  s.userDefines.mapM fun (name, v) => do return (name, ← s.write v)

/-- Lists the definitions. -/
def listDefines : ServerM Response := do
  return .defines (← .ofExcept (definitions (← get)))

/-- Answers a request. -/
def handle : Request → ServerM Response
  | .eval code => evalCode code
  | .defines => listDefines
  | .undo => modifyGet fun s => let (undone, s) := s.undo; (.undone undone, s)
  | .unknown command => return .failed s!"Unknown cmd: {command}"

end Lisplet.Server
