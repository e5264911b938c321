/-
The options of the command line. Values of arguments are typed by their spelling.
-/
import ObjectAction.Number.Reading
import ObjectAction.Value

namespace ObjectAction.Command

structure Options where
  component : Option String
  function : String
  arguments : Arguments
  dumpTree : Bool
  models : List String

/-- What is assumed without options. -/
def Options.initial : Options := ⟨none, "main", [], false, []⟩

def usage : String :=
  "Usage: oalparse [--component NAME] [--function NAME] [--arg name=value]... [--dump-ast] "
    ++ "MODEL.yaml..."

/-- What is wrong with an argument list. -/
inductive OptionError where
  /-- Nothing follows an option that takes something. -/
  | missing (what option : String)
  | malformedArgument (pair : String)
  | unknown (option : String)
  | noModels
  deriving DecidableEq, Repr

def OptionError.message : OptionError → String
  | missing what option => s!"Missing {what} after {option}"
  | malformedArgument pair => s!"Argument '{pair}' is not of the form name=value"
  | unknown option => s!"Unknown option '{option}'\n{usage}"
  | noModels => s!"No model files given\n{usage}"

/-- What an argument list asks for. -/
inductive Request where
  | help
  | run (o : Options)

/-- An integer, a real or a truth value if the text is spelled like one, or else the text. -/
def argumentValue (text : String) : Value :=
  match Number.readInteger text.toList, Number.readReal text.toList with
  | some n, _ => .integer n
  | none, some x => .real x
  | none, none =>
    if text = "true" then .boolean true
    else if text = "false" then .boolean false
    else .string text

/-- The name before the first equals sign, and the value after it. -/
def argument? (pair : String) : Option (String × Value) :=
  match pair.toList.dropWhile (· ≠ '=') with
  | [] => none
  | _ :: value =>
    some (String.ofList (pair.toList.takeWhile (· ≠ '=')), argumentValue (String.ofList value))

/-- The options that take the argument after them. -/
inductive Setting where
  | component
  | function
  | argument
  deriving DecidableEq, Repr

namespace Setting

def ofOption? (option : String) : Option Setting :=
  if option = "--component" ∨ option = "-c" then some component
  else if option = "--function" ∨ option = "-f" then some function
  else if option = "--arg" ∨ option = "-a" then some argument
  else none

/-- What a setting takes. -/
def what : Setting → String
  | component => "component name"
  | function => "function name"
  | argument => "name=value"

/-- The options with a setting changed. -/
def apply (setting : Setting) (o : Options) (value : String) : Except OptionError Options :=
  match setting with
  | component => .ok { o with component := some value }
  | function => .ok { o with function := value }
  | argument =>
    match argument? value with
    | some (name, v) => .ok { o with arguments := Table.put o.arguments name v }
    | none => .error (.malformedArgument value)

end Setting

/-- Reads arguments from left to right. Help is given at once, whatever follows. -/
def readOptions (o : Options) : List String → Except OptionError Request
  | [] => if o.models.isEmpty then .error .noModels else .ok (.run o)
  | arg :: rest =>
    match Setting.ofOption? arg, rest with
    | some setting, [] => .error (.missing setting.what arg)
    | some setting, value :: rest =>
      match setting.apply o value with
      | .ok o' => readOptions o' rest
      | .error e => .error e
    | none, rest =>
      if arg = "--dump-ast" then readOptions { o with dumpTree := true } rest
      else if arg = "--help" ∨ arg = "-h" then .ok .help
      else if arg.toList.head? = some '-' then .error (.unknown arg)
      else readOptions { o with models := o.models ++ [arg] } rest

end ObjectAction.Command
