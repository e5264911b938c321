/-
Actions that can be invoked: bodies written in the action language, the built-in operations that write
to the log, and native operations, which go by a name. A log operation looks at its arguments only if the
log shows its line.
-/
import ObjectAction.Body.Tree
import ObjectAction.Population.Error
import ObjectAction.Value

namespace ObjectAction

inductive Severity where
  | error
  | info
  deriving DecidableEq, Repr

/-- Which lines the log shows. -/
inductive Verbosity where
  | off
  | errors
  | all
  deriving DecidableEq, Repr

def Verbosity.shows : Verbosity → Severity → Bool
  | off, _ => false
  | errors, s => s = .error
  | all, _ => true

inductive LogOperation where
  | info
  | success
  | failure
  | integer
  | real
  deriving DecidableEq, Repr

namespace LogOperation

def severity : LogOperation → Severity
  | failure => .error
  | _ => .info

/-- The line that the operation writes. -/
def line (op : LogOperation) (arguments : Arguments) : Except PopulationError String :=
  match Table.value? arguments "message" with
  | none => .error (.missingArgument "message")
  | some message => .ok <| match op with
    | success => s!"SUCCESS: {message.text}"
    | failure => s!"FAILURE: {message.text}"
    | real => message.text ++ " " ++ ((Table.value? arguments "r").getD .null).text
    | _ => message.text

/-- The line that the log shows, if it shows any. -/
def perform (verbosity : Verbosity) (op : LogOperation) (arguments : Arguments) :
    Except PopulationError (Option String) :=
  if verbosity.shows op.severity then (op.line arguments).map some else .ok none

end LogOperation

inductive Action where
  | written (label : String) (body : Body)
  | log (op : LogOperation)
  | native (name : String)

/-- The external entity that every population has. -/
def logEntity : Table Action :=
  [("LogFailure", .log .failure), ("LogInfo", .log .info), ("LogInteger", .log .integer),
    ("LogReal", .log .real), ("LogSuccess", .log .success)]

end ObjectAction
