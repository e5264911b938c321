/-
Executing a statement, given how expressions are evaluated (`eval`), how the statements of its
blocks are executed (`exec`) and how a body is run in an activation of its own (`activate`). A
recoverable fault is reported at the statement, and the next statement goes on.
-/
import ObjectAction.Run.Expression

namespace ObjectAction

/-- How a statement ends: normally, or by leaving the loop, the pass or the body around it. -/
inductive Signal where
  | normal
  | returned (v : Value)
  | broke
  | continued
  | stopped

namespace Run

/-! ## Sequences and loops -/

/-- Executes statements in order, up to the first that does not end normally. -/
def execAll (exec : Statement → Run Signal) : List Statement → Run Signal
  | [] => return .normal
  | s :: rest => do
    match ← exec s with
    | .normal => execAll exec rest
    | signal => return signal

def execBlock (exec : Statement → Run Signal) (b : Block) : Run Signal :=
  inBlock (execAll exec b.statements)

/-- Goes on with a loop after a pass, unless the pass left the loop. -/
def afterPass (signal : Signal) (rest : Run Signal) : Run Signal :=
  match signal with
  | .normal | .continued => rest
  | .broke => return .normal
  | signal => return signal

/-- The passes of a `for each`, from the one with that index on. -/
def passes (item : String) (body : Run Signal) : Nat → List InstanceRef → Run Signal
  | _, [] => return .normal
  | index, r :: rest => do
    setPass index
    install item (.ref r)
    afterPass (← body) (passes item body (index + 1) rest)

/-- Goes over the instances that the variable holds now, whatever the passes do to it. -/
def forEach (item set : String) (body : Run Signal) : Run Signal := do
  let refs ← expectInstances "instance set" (← readVariable set)
  withLoop ⟨set, 0, refs.length⟩ (passes item body 0 refs)

/-- At most `fuel` passes of a loop with a condition. -/
def whileTrue (condition : Run Value) (body : Run Signal) : Nat → Run Signal
  | 0 => exhausted
  | fuel + 1 => do
    if (← condition).isTruthy then afterPass (← body) (whileTrue condition body fuel)
    else return .normal

/-! ## Selections -/

section

variable (eval : Expression → Run Value)

/-- Whether a candidate satisfies a condition, which is evaluated in a block of its own. -/
def satisfies (condition : Expression) (r : InstanceRef) : Run Bool :=
  return (← inBlock (withCandidate r (eval condition))).isTruthy

/-- The candidates that satisfy a condition, or only the first of them. -/
def filter (condition : Expression) (single : Bool) : List InstanceRef → Run (List InstanceRef)
  | [] => return []
  | r :: rest => do
    if ← satisfies eval condition r then
      if single then return [r]
      else return r :: (← filter condition single rest)
    else filter condition single rest

/-- Keeps what a selection asks for: the candidates that satisfy the condition, at most one of them
unless many are asked for. -/
def keep (cardinality : Cardinality) (condition : Option Expression)
    (candidates : List InstanceRef) : Run (List InstanceRef) :=
  let single := cardinality ≠ .many
  match condition with
  | none => return if single then candidates.take 1 else candidates
  | some c => filter eval c single candidates

/-- Binds what was selected: a set, or one instance or null. -/
def bindSelection (name : String) (cardinality : Cardinality) (refs : List InstanceRef) :
    Run Unit :=
  install name <| match cardinality, refs with
    | .many, refs => .set refs
    | _, [] => .null
    | _, r :: _ => .ref r

/-- The instances of a class that a selection looks at: one suffices if only one is asked for. -/
def candidatesOf (cardinality : Cardinality) (condition : Option Expression)
    (className : String) : Run (List InstanceRef) :=
  if cardinality = .many ∨ condition.isSome then ask (·.selectMany className)
  else return (← ask (·.selectOne className)).toList

/-- Where a navigation starts. -/
def startInstances : NavigationStart → Run (List InstanceRef)
  | .self => return [← receiver]
  | .selected => return [← selected]
  | .var name => do expectInstances "instance or instance set" (← readVariable name)

/-- One hop from each instance, in order. -/
def hop (step : NavigationStep) : List InstanceRef → Run (List InstanceRef)
  | [] => return []
  | r :: rest => do
    let reached ← ask (·.navigate r step.className step.relationship.id step.relationship.phrase)
    return reached ++ (← hop step rest)

/-- All hops of a chain; after each, an instance is kept where it was reached first. -/
def followChain : List NavigationStep → List InstanceRef → Run (List InstanceRef)
  | [], refs => return refs
  | step :: rest, refs => do
    followChain rest (Population.distinct (← hop step refs))

end

/-! ## Relating -/

/-- Applies an operation on two instances across a relationship, or with a link instance from the
first to the link and from the link to the second. A phrase names the second end both times. -/
def acrossLink (operation : Population → InstanceRef → InstanceRef → String → Option String →
    Except PopulationError Population) (source target : String) (relationship : Relationship)
    (link : Option String) : Run Unit := do
  let a ← readRef source
  let b ← readRef target
  match link with
  | none => change (operation · a b relationship.id relationship.phrase)
  | some name =>
    let l ← readRef name
    change (operation · a l relationship.id relationship.phrase)
    change (operation · l b relationship.id relationship.phrase)

/-! ## Statements -/

section

variable (host : Host) (fuel : Nat) (eval : Expression → Run Value)
  (exec : Statement → Run Signal) (activate : Activation → Body → Run Value)

/-- Whom a target stands for. -/
def recipientOf : EventTarget → Run Recipient
  | .ofClass className => return .ofClass className
  | .creator className => return .creator className
  | .receiver e => return .receiver (← evalRef eval e)

/-- The event that a specification and its target describe; its arguments are evaluated first. -/
def buildEvent (spec : EventSpec) (target : EventTarget) : Run Event := do
  let arguments ← evalArguments eval [] spec.arguments
  let recipient ← recipientOf eval target
  return ⟨spec.label, spec.meaning, arguments, recipient⟩

/-- The first clause whose condition holds, or else the last block. -/
def execElifs (otherwise : Option Block) : List Elif → Run Signal
  | [] =>
    match otherwise with
    | some b => execBlock exec b
    | none => return .normal
  | .mk _ condition b :: rest => do
    if (← eval condition).isTruthy then execBlock exec b else execElifs otherwise rest

/-- How a statement ends, or the fault that it ends in. -/
def execForm : Statement → Run Signal
  | .breakLoop _ => return .broke
  | .continueLoop _ => return .continued
  | .stop _ => return .stopped
  | .returnValue _ none => return .returned .null
  | .returnValue _ (some e) => return .returned (← eval e)
  | .assign _ target value => do
    let v ← eval value
    set (computeDerived host activate) (← place eval target) v
    return .normal
  | .invoke _ invocation => do
    let _ ← eval invocation
    return .normal
  | .create _ name className => do
    let r ← perform (·.create className)
    match name with
    | some name => install name (.ref r)
    | none => pure ()
    return .normal
  | .delete _ name => do
    let r ← readRef name
    change (·.delete r)
    return .normal
  | .relate _ source target relationship link => do
    acrossLink Population.relate source target relationship link
    return .normal
  | .unrelate _ source target relationship link => do
    acrossLink Population.unrelate source target relationship link
    return .normal
  | .selectFrom _ cardinality name className condition => do
    let candidates ← candidatesOf cardinality condition className
    bindSelection name cardinality (← keep eval cardinality condition candidates)
    return .normal
  | .selectRelated _ cardinality name start chain condition => do
    let reached ← followChain chain (← startInstances start)
    bindSelection name cardinality (← keep eval cardinality condition reached)
    return .normal
  | .forEach _ item set b => forEach item set (execBlock exec b)
  | .whileLoop _ condition b => whileTrue (eval condition) (execBlock exec b) fuel
  | .branch _ condition b elifs otherwise => do
    if (← eval condition).isTruthy then execBlock exec b
    else execElifs eval exec otherwise elifs
  | .generate _ spec target => do
    let e ← buildEvent eval spec target
    change (·.generate e)
    return .normal
  | .createEvent _ name spec target => do
    install name (.event (← buildEvent eval spec target))
    return .normal
  | .generateCreated _ name => do
    match ← readVariable name with
    | .event e => change (·.generate e)
    | v => fail (.typeMismatch "event" v.typeName)
    return .normal

/-- How a statement ends; after a recoverable fault it ends normally. -/
def execStep (s : Statement) : Run Signal :=
  recover (execForm host fuel eval exec activate s) Fault.isRecoverable fun f => do
    report s.extent.start.line f
    return .normal

/-- Runs a body in the activation at hand. The result is what it returns; in an activation that
computes an attribute, what was assigned to the attribute counts if nothing or null is returned. -/
def execBody (b : Body) : Run Value := do
  let v := match ← inScope (execBlock exec b.block) with
    | .returned v => v
    | _ => .null
  match v, ← look (·.activation.derived) with
  | .null, some cell => return cell.result
  | v, _ => return v

end

end Run

end ObjectAction
