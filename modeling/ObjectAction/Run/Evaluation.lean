/-
Running bodies. Evaluating, executing and activating call each other, with one unit of fuel less each
time. The entry points give enough fuel for every run that a machine can finish; they report what
went wrong in the journal and always give a value.
-/
import ObjectAction.Run.Statement

namespace ObjectAction

namespace Run

mutual

def eval (host : Host) : Nat → Expression → Run Value
  | 0, _ => exhausted
  | fuel + 1, e => evalStep host (eval host fuel) (activate host fuel) e

def exec (host : Host) : Nat → Statement → Run Signal
  | 0, _ => exhausted
  | fuel + 1, s =>
    execStep host fuel (eval host fuel) (exec host fuel) (activate host fuel) s

/-- Runs a body in an activation of its own. -/
def activate (host : Host) : Nat → Activation → Body → Run Value
  | 0, _, _ => exhausted
  | fuel + 1, a, b => within a (execBody (exec host fuel) b)

end

end Run

/-- What a run gives. -/
structure RunResult where
  value : Value
  population : Population
  journal : Journal

namespace Run

/-- The value of a step; a fault that is left is reported on a line of the running body. -/
def settle (line : Nat) (x : Run Value) : Run Value :=
  recover x (fun _ => true) fun f => do
    report line f
    return .null

/-- Performs a step from the start of an activation. There is no result if the fuel does not
suffice. -/
def start (p : Population) (a : Activation) (x : Run Value) : Option RunResult :=
  match x ⟨p, .empty, a, #[]⟩ with
  | .done v s => some ⟨v, s.population, s.journal⟩
  | _ => none

/-- Runs a body in an activation with at most that fuel. -/
def bodyWithin (host : Host) (fuel : Nat) (p : Population) (a : Activation) (b : Body) :
    Option RunResult :=
  start p a (settle b.extent.start.line (execBody (exec host fuel) b))

/-- Invokes an action with at most that fuel. -/
def actionWithin (host : Host) (fuel : Nat) (p : Population) (action : Action)
    (receiver : Option InstanceRef) (arguments : Arguments) : Option RunResult :=
  let label := match action with
    | .written label _ => label
    | .log _ | .native _ => "<native>"
  start p (.start label none [])
    (settle 0 (callAction host (activate host fuel) action receiver arguments))

/-- More fuel than any run uses up. -/
def plenty : Nat := Nat.pow 2 62

end Run

/-- Runs a body as a function. -/
def runFunction (host : Host) (p : Population) (label : String) (b : Body)
    (arguments : Arguments) : Option RunResult :=
  Run.bodyWithin host Run.plenty p (.start label none arguments) b

/-- Runs a body as an operation of an instance. -/
def runOperation (host : Host) (p : Population) (label : String) (b : Body)
    (arguments : Arguments) (receiver : InstanceRef) : Option RunResult :=
  Run.bodyWithin host Run.plenty p (.start label (some receiver) arguments) b

/-- Runs a body that computes the attribute `name` of an instance. -/
def runDerivedAttribute (host : Host) (p : Population) (label : String) (b : Body)
    (name : String) (receiver : InstanceRef) : Option RunResult :=
  Run.bodyWithin host Run.plenty p (.derive label name receiver) b

/-- Invokes an action. -/
def runAction (host : Host) (p : Population) (action : Action)
    (receiver : Option InstanceRef) (arguments : Arguments) : Option RunResult :=
  Run.actionWithin host Run.plenty p action receiver arguments

end ObjectAction
