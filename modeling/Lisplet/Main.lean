import Lisplet.Server.Connection

/-!
# The program

Serves one client on standard input and output.
-/

namespace Lisplet

/-- The variables that settings are read from. -/
def settingNames : List String :=
  ["RIPPLE_RECURSION_LIMIT", "RIPPLE_STRICT_NUMBERS", "RIPPLE_REPL_HOST", "RIPPLE_REPL_PORT"]

/-- Answers lines until the input or the connection ends. -/
partial def serveLines (input output : IO.FS.Stream) (c : Server.Connection) : IO Unit := do
  let line ← input.getLine
  if line.isEmpty then return
  let c := { c with sent := [] }.receive line.toUTF8.toList
  for answer in c.sent do
    output.putStrLn answer
  output.flush
  if c.ended.isNone then serveLines input output c

end Lisplet

open Lisplet in
def main : IO Unit := do
  let mut vars : Variables := ∅
  for name in settingNames do
    if let some value ← IO.getEnv name then
      vars := vars.insert name value
  match Server.session (.ofVariables vars) with
  | .ok session => serveLines (← IO.getStdin) (← IO.getStdout) (.start session)
  | .error failure => throw (IO.userError failure.message)
