import Lisplet.NameMap
import Lisplet.Text.Integer

/-!
# Settings

What the variables of the surroundings decide. A variable that is unset, or that does not make
sense, leaves the default.
-/

namespace Lisplet

/-- Variables with their values. -/
abbrev Variables := NameMap String

namespace Variables

/-- An integer setting. -/
def int (vars : Variables) (name : String) (default : Int) : Int :=
  ((vars.find? name).bind fun raw => Text.readInt raw.toList).getD default

/-- The words that switch a flag on; any other word switches it off. -/
def affirmatives : List String := ["1", "true", "yes", "on"]

/-- A flag. -/
def flag (vars : Variables) (name : String) (default : Bool) : Bool :=
  match vars.find? name with
  | some raw => affirmatives.contains (String.ofList ((Text.trim raw.toList).map Char.toLower))
  | none => default

/-- A text setting that must not be empty. -/
def text (vars : Variables) (name : String) (default : String) : String :=
  match vars.find? name with
  | some raw => if raw.isEmpty then default else raw
  | none => default

end Variables

structure Settings where
  recursionLimit : Int
  strictNumbers : Bool
  host : String
  port : Int
deriving DecidableEq, Repr

def Settings.ofVariables (vars : Variables) : Settings where
  recursionLimit := vars.int "RIPPLE_RECURSION_LIMIT" 10000
  strictNumbers := vars.flag "RIPPLE_STRICT_NUMBERS" false
  host := vars.text "RIPPLE_REPL_HOST" "127.0.0.1"
  port := vars.int "RIPPLE_REPL_PORT" 8765

/-- The address to serve at: what is asked for, else what the settings say. An empty host and the
port zero ask for nothing. -/
def Settings.address (settings : Settings) (host : String) (port : Int) : String × Int :=
  (if host.isEmpty then settings.host else host, if port = 0 then settings.port else port)

end Lisplet
