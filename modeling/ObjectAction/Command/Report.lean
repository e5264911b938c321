/-
What the command does: it loads model files into one population, finds a function and runs it or
shows its tree. All that is printed, and the exit status, make up the report.
-/
import ObjectAction.Body.Outline
import ObjectAction.Command.Files
import ObjectAction.Command.Options
import ObjectAction.Document.Reading
import ObjectAction.Model.Load
import ObjectAction.Model.Shape
import ObjectAction.Run.Evaluation

namespace ObjectAction.Command

structure Report where
  exitCode : UInt32
  output : String
  errors : String
  deriving DecidableEq, Repr

inductive CommandError where
  | options (e : OptionError)
  /-- A file cannot be read. -/
  | unreadable (path : String) (e : ReadError)
  /-- The text of a file is not a model. -/
  | notModel (path : String)
  /-- A model cannot be added to those before it. -/
  | load (path : String) (e : PopulationError)
  | syntaxErrors (function : String)
  | unresolved (function : String) (e : PopulationError)
  | noBody (function : String)
  | unfinished (function : String)
  deriving DecidableEq, Repr

/-- A message and what caused it, each line of which is indented. -/
def withCause (message cause : String) : String :=
  message ++ "\n\nCaused by:\n    "
    ++ String.ofList (cause.toList.flatMap fun ch => if ch = '\n' then "\n    ".toList else [ch])
    ++ "\n"

/-- What is printed about an error. -/
def CommandError.text : CommandError → String
  | options e => s!"Error: {e.message}\n"
  | unreadable path e => withCause s!"Error: Reading {path}" e.message
  | notModel path => s!"Error: Loading model {path}\n\nCaused by:\n    0: Parsing model YAML"
  | load path e => withCause s!"Error: Loading {path}" e.message
  | syntaxErrors function => s!"Error: Function '{function}' has syntax errors\n"
  | unresolved function e => withCause s!"Error: Resolving function '{function}'" e.message
  | noBody function => s!"Error: Function '{function}' has no OAL body\n"
  | unfinished function => s!"Error: Function '{function}' does not end\n"

/-- The model in a file. -/
def readModel (readFile : String → Except ReadError String) (path : String) :
    Except CommandError Model := do
  let text ← (readFile path).mapError (.unreadable path)
  match (Document.read text).bind Model.ofDocument? with
  | some m => return m
  | none => .error (.notModel path)

/-- Adds the models in the files to a population, and collects the bodies left out. With a component
given, models of other components are passed over once they are read. -/
def loadFiles (readFile : String → Except ReadError String) (component : Option String) :
    Population → List String → Except CommandError (Population × List RejectedBody)
  | p, [] => .ok (p, [])
  | p, path :: rest => do
    let m ← readModel readFile path
    if component.isSome ∧ m.component ≠ component then
      loadFiles readFile component p rest
    else
      match p.load m with
      | (_, .error e) => .error (.load path e)
      | (p, .ok rejected) =>
        let (p, later) ← loadFiles readFile component p rest
        return (p, rejected ++ later)

/-- Texts as lines. -/
def lines (texts : List String) : String := String.join (texts.map (· ++ "\n"))

/-- The tree of a function, or the value that it returns and what went wrong in it. -/
def runRequest (o : Options) (p : Population) : Except CommandError (String × List String) := do
  let action ← (p.findFunction o.function).mapError (.unresolved o.function)
  if o.dumpTree then
    match action with
    | .written _ body => return (body.dump, [])
    | .log _ | .native _ => .error (.noBody o.function)
  else
    match runAction (.bare .off) p action none o.arguments with
    | some r => return (lines [r.value.text], r.journal.diagnostics.map Diagnostic.text)
    | none => .error (.unfinished o.function)

/-- The report on options; files are read by `readFile`. -/
def runOptions (readFile : String → Except ReadError String) (o : Options) : Report :=
  match loadFiles readFile o.component .initial o.models with
  | .error e => ⟨1, "", e.text⟩
  | .ok (p, rejected) =>
    let left := lines (rejected.map fun r => s!"{r.label}: {r.error.message}")
    if rejected.any (·.label = o.function) then
      ⟨1, "", left ++ (CommandError.syntaxErrors o.function).text⟩
    else
      match runRequest o p with
      | .error e => ⟨1, "", left ++ e.text⟩
      | .ok (output, said) => ⟨0, output, left ++ lines said⟩

/-- The report on an argument list. -/
def run (readFile : String → Except ReadError String) (args : List String) : Report :=
  match readOptions .initial args with
  | .error e => ⟨1, "", (CommandError.options e).text⟩
  | .ok .help => ⟨0, lines [usage], ""⟩
  | .ok (.run o) => runOptions readFile o

end ObjectAction.Command
