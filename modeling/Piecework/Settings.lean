import Piecework.Expr.Operator
import Piecework.Text.Integer

/-!
# Settings

What can be set from outside, the defaults, and how a set of named variables
turns into settings.  A variable that is not set, is blank, or does not hold a
number of the right range leaves the default in force; nothing is refused.
-/

namespace Piecework

/-- The value of each named variable that is set. -/
abbrev Variables := String → Option String

namespace Variables

/-- The natural number below `bound` that a variable holds, white space around it
aside. -/
def natural? (vars : Variables) (bound : Nat) (name : String) : Option Nat :=
  (vars name).bind fun raw => Text.natural? bound (Text.trim raw.toList)

/-- A word of 64 bits, or the default. -/
def word (vars : Variables) (name : String) (default : UInt64) : UInt64 :=
  ((vars.natural? UInt64.size name).map UInt64.ofNat).getD default

/-- A count, or the default. -/
def count (vars : Variables) (name : String) (default : Nat) : Nat :=
  (vars.natural? UInt64.size name).getD default

/-- A port number, or the default. -/
def port (vars : Variables) (name : String) (default : UInt16) : UInt16 :=
  ((vars.natural? UInt16.size name).map UInt16.ofNat).getD default

end Variables

/-- How long each operation takes, in milliseconds. -/
structure OperationTimes where
  addition : UInt64
  subtraction : UInt64
  multiplication : UInt64
  division : UInt64
deriving DecidableEq, Repr

namespace OperationTimes

/-- What an operation takes when nothing else is said. -/
def standard : UInt64 := 1000

/-- The standard time for every operation. -/
def default : OperationTimes := ⟨standard, standard, standard, standard⟩

/-- No time for any operation. -/
def instant : OperationTimes := ⟨0, 0, 0, 0⟩

/-- The times that the variables set. -/
def ofVariables (vars : Variables) : OperationTimes where
  addition := vars.word "TIME_ADDITION_MS" standard
  subtraction := vars.word "TIME_SUBTRACTION_MS" standard
  multiplication := vars.word "TIME_MULTIPLICATION_MS" standard
  division := vars.word "TIME_DIVISION_MS" standard

/-- The time of an operator. -/
def of (times : OperationTimes) : Operator → UInt64
  | .add => times.addition
  | .sub => times.subtraction
  | .mul => times.multiplication
  | .div => times.division

/-- The time of an operator given by its symbol; any other text takes the standard
time. -/
def ofSymbol (times : OperationTimes) (symbol : String) : UInt64 :=
  ((Operator.ofSymbol? symbol).map times.of).getD standard

end OperationTimes

/-- How rescheduling passes are run after completions. -/
structure DispatchSettings where
  /-- Passes that may be under way at once. -/
  workers : Nat
  /-- How often a completion is attempted before it counts as failed. -/
  maxAttempts : Nat
  /-- Milliseconds between two attempts. -/
  retryDelay : UInt64
deriving DecidableEq, Repr

/-- Four workers, three attempts, a fifth of a second between them. -/
def DispatchSettings.default : DispatchSettings := ⟨4, 3, 200⟩

/-- The settings of a server. -/
structure ServerSettings where
  databasePath : String
  port : UInt16
  /-- Seconds that an idle worker is told to wait. -/
  retryAfter : UInt64
  dispatch : DispatchSettings
  /-- Workers inside the server itself. -/
  localAgents : Nat
  times : OperationTimes
deriving DecidableEq, Repr

namespace ServerSettings

/-- The settings of a server when no variable is set. -/
def default : ServerSettings :=
  ⟨"./data/calc.db", 8080, 5, .default, 0, .default⟩

/-- The settings that the variables give.  The database path is taken as it stands,
and there is always a worker for the passes. -/
def ofVariables (vars : Variables) : ServerSettings where
  databasePath :=
    ((vars "CALC_DB_PATH").filter fun path => !Text.blankText path).getD default.databasePath
  port := vars.port "CALC_HTTP_PORT" default.port
  retryAfter := vars.word "CALC_RETRY_AFTER_SECS" default.retryAfter
  dispatch :=
    { default.dispatch with
      workers := max 1 (vars.count "CALC_DISPATCH_WORKERS" default.dispatch.workers) }
  localAgents := vars.count "CALC_LOCAL_AGENTS" default.localAgents
  times := .ofVariables vars

end ServerSettings

/-- A text without the slashes at its end. -/
def trimSlashes (s : String) : String :=
  String.ofList (s.toList.reverse.dropWhile (· == '/')).reverse

/-- The settings of a worker process. -/
structure AgentSettings where
  /-- Where the server is reached. -/
  serverUrl : String
  /-- Workers that run side by side. -/
  power : Nat
  /-- Milliseconds to wait after an error. -/
  errorBackoff : UInt64
deriving DecidableEq, Repr

namespace AgentSettings

/-- The settings of a worker process when no variable is set. -/
def default : AgentSettings := ⟨"http://127.0.0.1:8080", 2, 1000⟩

/-- The settings that the variables give.  The address loses white space around it
and then slashes at its end, and there is always one worker. -/
def ofVariables (vars : Variables) : AgentSettings where
  serverUrl :=
    (((vars "CALC_ORCHESTRATOR_URL").map fun url => trimSlashes (Text.trimText url)).filter
      fun url => !url.isEmpty).getD default.serverUrl
  power := max 1 (vars.count "COMPUTING_POWER" default.power)
  errorBackoff := default.errorBackoff

end AgentSettings

end Piecework
