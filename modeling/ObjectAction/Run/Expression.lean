/-
Evaluating an expression, given how its parts are evaluated (`eval`) and how a body is run in an
activation of its own (`activate`). A fault of the population is reported at the expression and
counts as null; every other fault ends the statement around it.
-/
import ObjectAction.Run.Operators
import ObjectAction.Run.Place

namespace ObjectAction.Run

/-! ## Actions -/

section

/-- Performs a log operation. -/
def performLog (verbosity : Verbosity) (op : LogOperation) (arguments : Arguments) : Run Value := do
  match ← ask fun _ => op.perform verbosity arguments with
  | some text => note (.log op.severity text)
  | none => pure ()
  return .null

/-- Performs a native operation. Its requests are done before its result or its error counts. -/
def performNative (native : Native) (receiver : Option InstanceRef) (arguments : Arguments) :
    Run Value := do
  let call ← ask fun p => .ok (native p receiver arguments)
  change fun p => .ok (p.grantAll call.requests)
  ask fun _ => call.result

variable (host : Host) (activate : Activation → Body → Run Value)

/-- Invokes an action. -/
def callAction (action : Action) (receiver : Option InstanceRef) (arguments : Arguments) :
    Run Value :=
  match action with
  | .written label body => activate (.start label receiver arguments) body
  | .log op => performLog host.verbosity op arguments
  | .native name => performNative (host.natives name) receiver arguments

/-- Computes a derived attribute. -/
def computeDerived (action : Action) (r : InstanceRef) (name : String) : Run Value :=
  match action with
  | .written label body => activate (.derive label name r) body
  | .log op => performLog host.verbosity op []
  | .native name => performNative (host.natives name) (some r) []

end

/-! ## Operators that look at the run -/

/-- Whether the innermost loop over a variable is in its first or last pass. -/
def loopPosition (operator : String) (test : LoopCursor → Bool) : Expression → Run Value
  | .var _ name => do
    match ← look (·.activation.loops.find? (·.set = name)) with
    | some c => return .boolean (test c)
    | none => fail (.noLoop operator name)
  | e => fail (.needsSetVariable operator e.extent.text)

section

variable (host : Host) (eval : Expression → Run Value)
  (activate : Activation → Body → Run Value)

def evalUnary (op : UnaryOperator) (operand : Expression) : Run Value :=
  match op with
  | .first => loopPosition "first" (·.index = 0) operand
  | .last => loopPosition "last" (fun c => c.index + 1 = c.length) operand
  | .minus => do ofExcept (negate (← eval operand))
  | .plus => do ofExcept (affirm (← eval operand))
  | .not | .empty => return .boolean !(← eval operand).isTruthy
  | .notEmpty => return .boolean (← eval operand).isTruthy
  | .cardinality => return .integer (Int64.ofNat (← eval operand).cardinality)

/-- The instance that an expression denotes. -/
def evalRef (e : Expression) : Run InstanceRef := do
  expectRef (← eval e)

/-- The arguments by name; of two with one name the later is kept. -/
def evalArguments : Arguments → List Argument → Run Arguments
  | done, [] => return done
  | done, .mk _ name value :: rest => do
    let v ← eval value
    evalArguments (Table.put done name v) rest

/-- The index that a value is. -/
def expectIndex : Value → Run Nat
  | .integer n => if n < 0 then fail (.negativeIndex n) else return n.toInt.toNat
  | v => fail (.typeMismatch "integer" v.typeName)

/-- Whether a field is the attribute of `self` that the running body computes. -/
def isComputed (target : Expression) (name : String) : Run Bool :=
  match target with
  | .self _ => look (·.activation.derived.any (·.name = name))
  | _ => return false

/-- The place that an expression denotes. -/
def place : Expression → Run Place
  | .var _ name => return .var name
  | .field _ target name => do
    if ← isComputed target name then return .derived
    else return .field (← evalRef eval target) name
  | .index _ target position => do
    let base ← place target
    return .index base (← expectIndex (← eval position))
  | e => return .value (← eval e)

/-- The action that an invocation names, and the instance it is invoked on. -/
def resolve (callee : Callee) (name : String) : Run (Action × Option InstanceRef) := do
  match callee with
  | .function => return (← ask (·.findFunction name), none)
  | .unmarked owner =>
    let findIn (p : Population) := match p.findGlobal owner with
      | .ok (.ofClass _) => p.findClassOperation owner name
      | _ => p.findBridge owner name
    return (← ask findIn, none)
  | .bridge entity => return (← ask (·.findBridge entity name), none)
  | .ofClass className => return (← ask (·.findClassOperation className name), none)
  | .port port => return (← ask (·.findPortOperation port name), none)
  | .receiver target =>
    let r ← evalRef eval target
    return (← ask (·.findInstanceOperation r name), some r)

/-- Finds the action first and evaluates the arguments afterwards. -/
def invoke (callee : Callee) (name : String) (arguments : List Argument) : Run Value := do
  let (action, receiver) ← resolve eval callee name
  let evaluated ← evalArguments eval [] arguments
  callAction host activate action receiver evaluated

/-- The value of an expression, or the fault that it ends in. -/
def evalForm (e : Expression) : Run Value :=
  match e with
  | .integer _ n => return .integer n
  | .real _ x => return .real x
  | .string _ content => return .string content
  | .boolean _ b => return .boolean b
  | .enumerator _ enumeration name => ask (·.findEnumerator enumeration name)
  | .self _ => return .ref (← receiver)
  | .selected _ => return .ref (← selected)
  | .parameter _ name _ => do
    match ← look fun s => Table.value? s.activation.arguments name with
    | some v => return v
    | none => fail (.unknownParameter name)
  | .var _ _ | .field _ _ _ | .index _ _ _ => do
    get (computeDerived host activate) (← place eval e)
  | .unary _ op operand => evalUnary eval op operand
  | .binary _ left op right => do
    let l ← eval left
    let r ← eval right
    ofExcept (binary op l r)
  | .invoke _ callee name arguments => invoke host eval activate callee name arguments

def isPopulationFault : Fault → Bool
  | .population _ => true
  | _ => false

/-- The value of an expression, null where the population fails. -/
def evalStep (e : Expression) : Run Value :=
  recover (evalForm host eval activate e) isPopulationFault fun f => do
    report e.extent.start.line f
    return .null

end

end ObjectAction.Run
