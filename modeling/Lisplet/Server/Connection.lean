import Lisplet.Json.Parser
import Lisplet.Server

/-!
# Connections

Bytes come in chunks and are cut into lines; each line that is not blank is a request and gets one
line of answer. What follows the last newline waits for the next chunk.
-/

namespace Lisplet.Server

/-- The newline that ends a request. -/
def newline : UInt8 := 10

/-- The bytes trimmed from a line. -/
def isBlankByte (b : UInt8) : Bool := b == 32 || (9 ≤ b && b ≤ 13)

/-- The line without the blanks at its two ends. -/
def trimLine (line : List UInt8) : List UInt8 :=
  ((line.dropWhile isBlankByte).reverse.dropWhile isBlankByte).reverse

/-- The lines completed by some bytes and the beginning of the next one, given the beginning of the
first one, its latest byte first. -/
def frames (held : List UInt8) : List UInt8 → List (List UInt8) × List UInt8
  | [] => ([], held)
  | b :: bs =>
    if b = newline then
      let (lines, rest) := frames [] bs
      (held.reverse :: lines, rest)
    else frames (b :: held) bs

/-- What a line asks for. -/
inductive Line where
  | blank
  /-- Not the text of a JSON value. -/
  | malformed
  /-- A JSON value that is no object. -/
  | misplaced
  /-- A JSON value too large to be read. -/
  | beyond (failure : Failure)
  | request (request : Request)

/-- Reads a line, in which at most `room` arrays and objects may be nested. -/
def Line.ofBytes (room : Nat) (bytes : List UInt8) : Line :=
  match trimLine bytes with
  | [] => .blank
  | trimmed =>
    match String.fromUTF8? ⟨trimmed.toArray⟩ with
    | none => .malformed
    | some text =>
      match Json.parse room text with
      | .ok (.object members) => .request (.ofMembers members)
      | .ok _ => .misplaced
      | .error .malformed => .malformed
      | .error (.beyond failure) => .beyond failure

/-- The answer to a line, if it gets one. -/
def answer? : Line → ServerM (Option Response)
  | .blank => return none
  | .malformed => return some (.failed "Invalid request: *")
  | .misplaced => return some (.failed "Invalid request: expected an object")
  | .beyond failure => throw (.failure failure)
  | .request request => do return some (← handle request)

/-- One end of a connection: what was sent, the line that is incomplete, and why the connection
ended, if it did. -/
structure Connection where
  session : Session
  held : List UInt8
  sent : List String
  ended : Option Interruption

namespace Connection

def start (session : Session) : Connection := ⟨session, [], [], none⟩

/-- Answers a line unless the connection has ended. -/
def take (c : Connection) (line : List UInt8) : Connection :=
  if c.ended.isSome then c
  else
    match answer? (.ofBytes c.session.limit line) c.session with
    | .ok none session => { c with session }
    | .ok (some response) session =>
      { c with session, sent := c.sent ++ [String.ofList response.toJson.render] }
    | .error interruption session => { c with session, ended := some interruption }

/-- Receives a chunk. -/
def receive (c : Connection) (chunk : List UInt8) : Connection :=
  let (lines, held) := frames c.held chunk
  { lines.foldl take c with held }

/-- Serves a client that sends the given chunks; an empty one is the end of what it sends. -/
def serve (session : Session) (chunks : List (List UInt8)) : Connection :=
  (chunks.takeWhile fun chunk => !chunk.isEmpty).foldl receive (start session)

end Connection

end Lisplet.Server
