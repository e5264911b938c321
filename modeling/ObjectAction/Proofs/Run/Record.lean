/-
What happens in a run, beside what it gives: the states that its steps leave, the values of its bodies, the
statements that begin and end, the passes of its loops, and the nodes whose evaluation fails where that is reported. A
body that is called is part of the record, so a record says for every fault in which body it arose.

A record belongs to a step of the evaluator by its type (`Record x`), and each definition here follows the one whose
steps it records. So there is nothing to erase: the evaluator itself is what the records are about. A record that
looks less closely is made of the same definitions, with parts that are not looked into (`Record.step`,
`Record.closedIf`).
-/
import ObjectAction.Proofs.Run.Evaluation

namespace ObjectAction

/-! ## The nodes of a body -/

/-- A part of a body that is evaluated by itself. -/
inductive Node where
  | statement (st : Statement)
  | expression (e : Expression)

def Argument.value : Argument → Expression
  | mk _ _ e => e

def Elif.condition : Elif → Expression
  | mk _ e _ => e

def Elif.block : Elif → Block
  | mk _ _ b => b

def Callee.expressions : Callee → List Expression
  | receiver target => [target]
  | _ => []

def EventTarget.expressions : EventTarget → List Expression
  | receiver target => [target]
  | _ => []

/-- The expressions right below an expression. -/
def Expression.expressions : Expression → List Expression
  | field _ target _ => [target]
  | index _ target position => [target, position]
  | unary _ _ operand => [operand]
  | binary _ left _ right => [left, right]
  | invoke _ callee _ arguments => callee.expressions ++ arguments.map Argument.value
  | _ => []

/-- The expressions right below a statement. -/
def Statement.expressions : Statement → List Expression
  | returnValue _ value => value.toList
  | assign _ target value => [target, value]
  | invoke _ invocation => [invocation]
  | selectFrom _ _ _ _ condition => condition.toList
  | selectRelated _ _ _ _ _ condition => condition.toList
  | whileLoop _ condition _ => [condition]
  | branch _ condition _ elifs _ => condition :: elifs.map Elif.condition
  | generate _ spec target => spec.arguments.map Argument.value ++ target.expressions
  | createEvent _ _ spec target => spec.arguments.map Argument.value ++ target.expressions
  | _ => []

/-- The blocks of a statement. -/
def Statement.blocks : Statement → List Block
  | forEach _ _ _ b | whileLoop _ _ b => [b]
  | branch _ _ b elifs otherwise => b :: elifs.map Elif.block ++ otherwise.toList
  | _ => []

namespace Node

/-- The line that a node begins on. -/
def line : Node → Nat
  | statement st => st.extent.start.line
  | expression e => e.extent.start.line

/-- The nodes right below a node. -/
def parts : Node → List Node
  | statement st =>
    st.expressions.map expression ++ (st.blocks.flatMap Block.statements).map statement
  | expression e => e.expressions.map expression

end Node

/-- The nodes of a body: the statements of its block, and all that is below them. -/
inductive Body.Contains (b : Body) : Node → Prop
  | statement {st : Statement} (h : st ∈ b.block.statements) : Contains b (.statement st)
  | part {n m : Node} (h : Contains b n) (hm : m ∈ n.parts) : Contains b m

/-- A body and the label that it runs under. -/
structure Origin where
  label : String
  body : Body

namespace Run

/-! ## Records -/

inductive Moment where
  /-- A step has left this state. -/
  | state (s : RunState)
  /-- A body has given a value in this activation. -/
  | result (a : Activation) (v : Value)
  /-- The evaluation of a node of this body began in the first state and failed in the second; this is reported next. -/
  | fault (origin : Origin) (node : Node) (f : Fault) (s s' : RunState)
  | begins (st : Statement)
  /-- A loop turns to its next pass, or looks whether there is one. -/
  | pass
  /-- A statement has ended with this signal in this state. -/
  | ends (st : Statement) (signal : Signal) (s : RunState)

/-- The state that a step has left, if it ended. -/
def left {α : Type} : Outcome α → List Moment
  | .done _ s | .failed _ s => [.state s]
  | .exhausted => []

/-- The state after a fault on a line of the running body was reported. -/
def noted (line : Nat) (f : Fault) (s : RunState) : RunState :=
  { s with journal := s.journal.push (.fault s.activation.label line f) }

/-- The second state differs from the first in one part at most; in the journal only by a line for the log. -/
inductive Changes (s : RunState) : RunState → Prop
  | population (p : Population) : Changes s { s with population := p }
  | scopes (t : Scopes) : Changes s { s with scopes := t }
  | activation (a : Activation) : Changes s { s with activation := a }
  | log (severity : Severity) (text : String) : Changes s { s with journal := s.journal.push (.log severity text) }

theorem Changes.refl (s : RunState) : Changes s s := .population s.population

/-- The moments lead from one state to another, and no change between the two is left out: from each state to the
next one part changes at most, and a fault arises in the state at hand, where it is noted. -/
inductive Leads : RunState → List Moment → RunState → Prop
  | nil (s : RunState) : Leads s [] s
  | state {s s₁ s' : RunState} {ms : List Moment} (h : Changes s s₁) (rest : Leads s₁ ms s') :
    Leads s (.state s₁ :: ms) s'
  | result {s s' : RunState} {ms : List Moment} (v : Value) (rest : Leads s ms s') :
    Leads s (.result s.activation v :: ms) s'
  | fault {s s' : RunState} {ms : List Moment} (origin : Origin) (node : Node) (f : Fault) (began : RunState)
    (rest : Leads (noted node.line f s) ms s') :
    Leads s (.fault origin node f began s :: .state (noted node.line f s) :: ms) s'
  | begins {s s' : RunState} {ms : List Moment} (st : Statement) (rest : Leads s ms s') : Leads s (.begins st :: ms) s'
  | pass {s s' : RunState} {ms : List Moment} (rest : Leads s ms s') : Leads s (.pass :: ms) s'
  | ends {s s' : RunState} {ms : List Moment} (st : Statement) (signal : Signal) (rest : Leads s ms s') :
    Leads s (.ends st signal s :: ms) s'

theorem Leads.append {s s₁ s' : RunState} {ms ms' : List Moment} (h : Leads s ms s₁) (h' : Leads s₁ ms' s') :
    Leads s (ms ++ ms') s' := by
  induction h with
  | nil => exact h'
  | state hchange _ ih => exact .state hchange (ih h')
  | result v _ ih => exact .result v (ih h')
  | fault origin node f began _ ih => exact .fault origin node f began (ih h')
  | begins st _ ih => exact .begins st (ih h')
  | pass _ ih => exact .pass (ih h')
  | ends st signal _ ih => exact .ends st signal (ih h')

/-- What happens in a step, from whatever state it begins. -/
structure Record {α : Type} (x : Run α) where
  moments : RunState → List Moment

namespace Record

variable {α β : Type}

/-- Nothing happens in a value that is there. -/
def done (a : α) : Record (pure a : Run α) := ⟨fun _ => []⟩

/-- A step that is not looked into. -/
def step (x : Run α) : Record x := ⟨fun s => left (x s)⟩

/-- A step that is not looked into if `c`. -/
def closedIf (c : Bool) {x : Run α} (r : Record x) : Record x := ⟨fun s => bif c then left (x s) else r.moments s⟩

def bind {x : Run α} {f : α → Run β} (rx : Record x) (rf : ∀ a, Record (f a)) : Record (x >>= f) :=
  ⟨fun s => rx.moments s ++ match x s with
    | .done a s' => (rf a).moments s'
    | _ => []⟩

theorem moments_bind_done {x : Run α} {f : α → Run β} {rx : Record x} {rf : ∀ a, Record (f a)} {s s' : RunState}
    {a : α} (h : x s = .done a s') : (rx.bind rf).moments s = rx.moments s ++ (rf a).moments s' := by
  simp only [bind, h]

theorem moments_bind_other {x : Run α} {f : α → Run β} {rx : Record x} {rf : ∀ a, Record (f a)} {s : RunState}
    (h : ∀ a s', x s ≠ .done a s') : (rx.bind rf).moments s = rx.moments s := by
  cases hx : x s with
  | done a s' => exact absurd hx (h a s')
  | failed | exhausted => simp only [bind, hx, List.append_nil]

/-- One of two steps. -/
def either (c : Bool) {x y : Run α} (rx : Record x) (ry : Record y) : Record (if c = true then x else y) :=
  ⟨fun s => if c = true then rx.moments s else ry.moments s⟩

/-- A node whose faults are reported if they satisfy `p`; what comes instead of the value is `a`. -/
def reporting (origin : Origin) (node : Node) (p : Fault → Bool) (a : α) {x : Run α} (rx : Record x) :
    Record (recover x p fun f => do report node.line f; return a) :=
  ⟨fun s => rx.moments s ++ match x s with
    | .failed f s' => if p f then [.fault origin node f s s', .state (noted node.line f s')] else []
    | _ => []⟩

section

variable {origin : Origin} {node : Node} {p : Fault → Bool} {a : α} {x : Run α} {rx : Record x} {s s' : RunState}
  {f : Fault}

theorem moments_reporting (h : x s = .failed f s') (hp : p f = true) :
    (rx.reporting origin node p a).moments s =
      rx.moments s ++ [.fault origin node f s s', .state (noted node.line f s')] := by
  simp only [reporting, h, hp, if_true]

theorem moments_reporting_other (h : ∀ f s', x s = .failed f s' → p f = false) :
    (rx.reporting origin node p a).moments s = rx.moments s := by
  cases hx : x s with
  | failed f s' => simp only [reporting, hx, h f s' hx, Bool.false_eq_true, if_false, List.append_nil]
  | done | exhausted => simp only [reporting, hx, List.append_nil]

end

/-- A step between two changes of the activation. -/
def between (enter leave : Activation → Activation) {x : Run α} (rx : Record x) :
    Record (Run.between enter leave x) :=
  ⟨fun s =>
    let entered := { s with activation := enter s.activation }
    .state entered :: rx.moments entered ++ left (Run.between enter leave x s)⟩

def within (a : Activation) {x : Run α} (rx : Record x) : Record (Run.within a x) :=
  ⟨fun s => (rx.between (fun _ => a) fun _ => s.activation).moments s⟩

def withCandidate (r : InstanceRef) {x : Run α} (rx : Record x) : Record (Run.withCandidate r x) :=
  rx.between _ _

def withLoop (c : LoopCursor) {x : Run α} (rx : Record x) : Record (Run.withLoop c x) := rx.between _ _

def inBlock {x : Run α} (rx : Record x) : Record (Run.inBlock x) :=
  ⟨fun s =>
    (match s.scopes.enterBlock with
      | .ok t => .state { s with scopes := t } :: rx.moments { s with scopes := t }
      | .error _ => []) ++ left (Run.inBlock x s)⟩

def inScope {x : Run α} (rx : Record x) : Record (Run.inScope x) :=
  ⟨fun s =>
    let entered := { s with scopes := s.scopes.enterScope }
    .state entered :: rx.moments entered ++ left (Run.inScope x s)⟩

/-- A body, whose value is recorded when it is there. -/
def valued {x : Run Value} (rx : Record x) : Record x :=
  ⟨fun s => rx.moments s ++ match x s with
    | .done v s' => [.result s'.activation v]
    | _ => []⟩

/-- The execution of a statement, from where it begins to where it ends. -/
def statement (st : Statement) {x : Run Signal} (rx : Record x) : Record x :=
  ⟨fun s => .begins st :: rx.moments s ++ match x s with
    | .done signal s' => [.ends st signal s']
    | _ => []⟩

theorem moments_statement {st : Statement} {x : Run Signal} {rx : Record x} {s s' : RunState} {signal : Signal}
    (h : x s = .done signal s') :
    (rx.statement st).moments s = .begins st :: rx.moments s ++ [.ends st signal s'] := by
  simp only [statement, h]

theorem moments_statement_other {st : Statement} {x : Run Signal} {rx : Record x} {s : RunState}
    (h : ∀ signal s', x s ≠ .done signal s') : (rx.statement st).moments s = .begins st :: rx.moments s := by
  cases hx : x s with
  | done signal s' => exact absurd hx (h signal s')
  | failed | exhausted => simp only [statement, hx, List.append_nil]

/-- What a loop does from where it turns to a pass. -/
def turning {x : Run Signal} (rx : Record x) : Record x := ⟨fun s => .pass :: rx.moments s⟩

/-! ## Records of expressions -/

def arraySlot (name : String) : Record (Run.arraySlot name) :=
  (step _).bind fun _ => (step _).bind fun _ => (step _).bind fun _ => (step _).bind fun _ => done _

section

variable {derive : Action → InstanceRef → String → Run Value} (rd : ∀ a r name, Record (derive a r name))

/-- An index of something that is read before. -/
def element {base : Run Value} (rb : Record base) (position : Nat) : Record (do
    let items ← ofExcept (elements (← base))
    return items.getD position .null) :=
  rb.bind fun _ => (step _).bind fun _ => done _

def get : ∀ p, Record (Run.get derive p)
  | .value _ => done _
  | .var _ => step _
  | .field r name => (step _).bind fun content =>
    match content with
    | .stored _ => done _
    | .derived a => rd a r name
  | .index (.var name) _ => (arraySlot name).bind fun slot =>
    match slot with
    | (_, _) => (step _).bind fun _ => (step _).bind fun _ => done _
  | .index (.value v) position => element (get (.value v)) position
  | .index (.field r name) position => element (get (.field r name)) position
  | .index (.index base i) position => element (get (.index base i)) position
  | .index .derived position => element (get .derived) position
  | .derived => step _

/-- An index of something that is read before and written after. -/
def update {base : Run Value} (rb : Record base) {write : Value → Run Unit} (rw : ∀ v, Record (write v))
    (position : Nat) (v : Value) : Record (do
    let items ← ofExcept (elements (← base))
    write (.array (← ofExcept (store items position v)))) :=
  rb.bind fun _ => (step _).bind fun _ => (step _).bind fun _ => rw _

def set : ∀ p v, Record (Run.set derive p v)
  | .value _, _ => step _
  | .var _, _ => step _
  | .field _ _, _ => step _
  | .index (.var name) _, _ => (arraySlot name).bind fun slot =>
    match slot with
    | (_, _) => (step _).bind fun _ => step _
  | .index (.value w) position, v => update (get rd (.value w)) (set (.value w)) position v
  | .index (.field r name) position, v => update (get rd (.field r name)) (set (.field r name)) position v
  | .index (.index base i) position, v => update (get rd (.index base i)) (set (.index base i)) position v
  | .index .derived position, v => update (get rd .derived) (set .derived) position v
  | .derived, _ => step _

end

section

variable (host : Host) {eval : Expression → Run Value} {activate : Activation → Body → Run Value}
  (re : ∀ e, Record (eval e)) (ra : ∀ a b, Record (activate a b))

def callAction : ∀ action receiver arguments, Record (Run.callAction host activate action receiver arguments)
  | .written _ body, _, _ => ra _ body
  | .log _, _, _ | .native _, _, _ => step _

def computeDerived : ∀ action r name, Record (Run.computeDerived host activate action r name)
  | .written _ body, _, _ => ra _ body
  | .log _, _, _ | .native _, _, _ => step _

def evalUnary (op : UnaryOperator) (operand : Expression) : Record (Run.evalUnary eval op operand) :=
  match op with
  | .first | .last => step _
  | .minus | .plus => (re operand).bind fun _ => step _
  | .not | .empty | .notEmpty | .cardinality => (re operand).bind fun _ => done _

def evalRef (e : Expression) : Record (Run.evalRef eval e) := (re e).bind fun _ => step _

def evalArguments : ∀ done arguments, Record (Run.evalArguments eval done arguments)
  | _, [] => .done _
  | _, .mk _ _ value :: rest => (re value).bind fun _ => evalArguments _ rest

def place : ∀ e, Record (Run.place eval e)
  | .var _ _ => done _
  | .field _ target _ => (step _).bind fun computed =>
    either computed (done _) ((evalRef re target).bind fun _ => done _)
  | .index _ target position =>
    (place target).bind fun _ => (re position).bind fun _ => (step _).bind fun _ => done _
  | .integer _ _ | .real _ _ | .string _ _ | .boolean _ _ | .enumerator _ _ _ | .self _ | .selected _
  | .parameter _ _ _ | .unary _ _ _ | .binary _ _ _ _ | .invoke _ _ _ _ => (re _).bind fun _ => done _

def resolve (callee : Callee) (name : String) : Record (Run.resolve eval callee name) :=
  match callee with
  | .function | .unmarked _ | .bridge _ | .ofClass _ | .port _ => (step _).bind fun _ => done _
  | .receiver target => (evalRef re target).bind fun _ => (step _).bind fun _ => done _

def invoke (callee : Callee) (name : String) (arguments : List Argument) :
    Record (Run.invoke host eval activate callee name arguments) :=
  (resolve re callee name).bind fun found =>
    match found with
    | (action, receiver) =>
      (evalArguments re [] arguments).bind fun evaluated => callAction host ra action receiver evaluated

def evalForm (e : Expression) : Record (Run.evalForm host eval activate e) :=
  match e with
  | .integer _ _ | .real _ _ | .string _ _ | .boolean _ _ => done _
  | .enumerator _ _ _ => step _
  | .self _ | .selected _ => (step _).bind fun _ => done _
  | .parameter _ _ _ => (step _).bind fun argument =>
    match argument with
    | some _ => done _
    | none => step _
  | .var _ _ | .field _ _ _ | .index _ _ _ => (place re _).bind fun p => get (computeDerived host ra) p
  | .unary _ op operand => evalUnary re op operand
  | .binary _ left _ right => (re left).bind fun _ => (re right).bind fun _ => step _
  | .invoke _ callee name arguments => invoke host re ra callee name arguments

def evalStep (origin : Origin) (e : Expression) : Record (Run.evalStep host eval activate e) :=
  (evalForm host re ra e).reporting origin (.expression e) isPopulationFault Value.null

end

/-! ## Records of statements -/

section

variable {exec : Statement → Run Signal} (rx : ∀ st, Record (exec st))

def execAll : ∀ sts, Record (Run.execAll exec sts)
  | [] => done _
  | st :: rest => (rx st).bind fun signal =>
    match signal with
    | .normal => execAll rest
    | .returned _ | .broke | .continued | .stopped => done _

def execBlock (b : Block) : Record (Run.execBlock exec b) := (execAll rx b.statements).inBlock

end

def afterPass (signal : Signal) {rest : Run Signal} (rr : Record rest) : Record (Run.afterPass signal rest) :=
  match signal with
  | .normal | .continued => rr
  | .broke | .returned _ | .stopped => done _

section

variable {body : Run Signal} (rb : Record body)

def passes (item : String) : ∀ index refs, Record (Run.passes item body index refs)
  | _, [] => done _
  | index, _ :: rest =>
    turning <| (step _).bind fun _ => (step _).bind fun _ => rb.bind fun signal =>
      afterPass signal (passes item (index + 1) rest)

def forEach (item set : String) : Record (Run.forEach item set body) :=
  (step _).bind fun _ => (step _).bind fun refs => (passes rb item 0 refs).withLoop _

def whileTrue {condition : Run Value} (rc : Record condition) : ∀ fuel, Record (Run.whileTrue condition body fuel)
  | 0 => step _
  | fuel + 1 => turning <| rc.bind fun v =>
    either v.isTruthy (rb.bind fun signal => afterPass signal (whileTrue rc fuel)) (done _)

end

section

variable {eval : Expression → Run Value} (re : ∀ e, Record (eval e))

def satisfies (condition : Expression) (r : InstanceRef) : Record (Run.satisfies eval condition r) :=
  ((re condition).withCandidate r).inBlock.bind fun _ => done _

def filter (condition : Expression) (single : Bool) : ∀ refs, Record (Run.filter eval condition single refs)
  | [] => done _
  | r :: rest => (satisfies re condition r).bind fun holds =>
    either holds (either single (done _) ((filter condition single rest).bind fun _ => done _))
      (filter condition single rest)

def keep (cardinality : Cardinality) (condition : Option Expression) (candidates : List InstanceRef) :
    Record (Run.keep eval cardinality condition candidates) :=
  match condition with
  | none => done _
  | some c => filter re c _ candidates

end

/-- Every change to the population is a step of its own. -/
def acrossLink (operation : Population → InstanceRef → InstanceRef → String → Option String →
    Except PopulationError Population) (source target : String) (relationship : Relationship)
    (link : Option String) : Record (Run.acrossLink operation source target relationship link) :=
  (step _).bind fun _ => (step _).bind fun _ =>
    match link with
    | none => step _
    | some _ => (step _).bind fun _ => (step _).bind fun _ => step _

section

variable (host : Host) (fuel : Nat) {eval : Expression → Run Value} {exec : Statement → Run Signal}
  {activate : Activation → Body → Run Value} (re : ∀ e, Record (eval e)) (rx : ∀ st, Record (exec st))
  (ra : ∀ a b, Record (activate a b))

def recipientOf (target : EventTarget) : Record (Run.recipientOf eval target) :=
  match target with
  | .ofClass _ | .creator _ => done _
  | .receiver e => (evalRef re e).bind fun _ => done _

def buildEvent (spec : EventSpec) (target : EventTarget) : Record (Run.buildEvent eval spec target) :=
  (evalArguments re [] spec.arguments).bind fun _ => (recipientOf re target).bind fun _ => done _

def execElifs (otherwise : Option Block) : ∀ elifs, Record (Run.execElifs eval exec otherwise elifs)
  | [] =>
    match otherwise with
    | some b => execBlock rx b
    | none => done _
  | .mk _ condition b :: rest => (re condition).bind fun v =>
    either v.isTruthy (execBlock rx b) (execElifs otherwise rest)

/-- A step after which a statement ends normally. -/
def normally {α : Type} {x : Run α} (r : Record x) : Record (do let _ ← x; return Signal.normal) :=
  r.bind fun _ => done _

def execForm (st : Statement) : Record (Run.execForm host fuel eval exec activate st) :=
  match st with
  | .breakLoop _ | .continueLoop _ | .stop _ | .returnValue _ none => done _
  | .returnValue _ (some e) => (re e).bind fun _ => done _
  | .assign _ target value => (re value).bind fun v => (place re target).bind fun p =>
    normally (set (computeDerived host ra) p v)
  | .invoke _ invocation => normally (re invocation)
  | .create _ name _ => (step _).bind fun _ =>
    match name with
    | some _ => normally (step _)
    | none => done _
  | .delete _ _ => (step _).bind fun _ => normally (step _)
  | .relate _ source target relationship link =>
    normally (acrossLink Population.relate source target relationship link)
  | .unrelate _ source target relationship link =>
    normally (acrossLink Population.unrelate source target relationship link)
  | .selectFrom _ cardinality _ _ condition => (step _).bind fun candidates =>
    (keep re cardinality condition candidates).bind fun _ => normally (step _)
  | .selectRelated _ cardinality _ _ _ condition => (step _).bind fun _ => (step _).bind fun reached =>
    (keep re cardinality condition reached).bind fun _ => normally (step _)
  | .forEach _ item set b => forEach (execBlock rx b) item set
  | .whileLoop _ condition b => whileTrue (execBlock rx b) (re condition) fuel
  | .branch _ condition b elifs otherwise => (re condition).bind fun v =>
    either v.isTruthy (execBlock rx b) (execElifs re rx otherwise elifs)
  | .generate _ spec target => (buildEvent re spec target).bind fun _ => normally (step _)
  | .createEvent _ _ spec target => (buildEvent re spec target).bind fun _ => normally (step _)
  | .generateCreated _ _ => (step _).bind fun v =>
    match v with
    | .event _ => normally (step _)
    | .null | .boolean _ | .integer _ | .real _ | .string _ | .enumerator _ _ | .ref _ | .set _ | .array _
    | .global _ => normally (step _)

/-- A statement that is not looked into between its begin and its end if `closed`. -/
def execStep (closed : Bool) (origin : Origin) (st : Statement) :
    Record (Run.execStep host fuel eval exec activate st) :=
  (((execForm host fuel re rx ra st).closedIf closed).reporting origin (.statement st) Fault.isRecoverable
    Signal.normal).statement st

def execBody (b : Body) : Record (Run.execBody exec b) :=
  valued <| (execBlock rx b.block).inScope.bind fun _ => (step _).bind fun _ => step _

end

end Record

/-! ## Records of runs -/

mutual

/-- What happens in the evaluation of an expression of a body. -/
def recordEval (host : Host) : (fuel : Nat) → Origin → (e : Expression) → Record (eval host fuel e)
  | 0, _, _ => .step _
  | fuel + 1, origin, e =>
    Record.evalStep host (recordEval host fuel origin) (recordActivate host fuel) origin e

/-- What happens in the execution of a statement of a body. -/
def recordExec (host : Host) : (fuel : Nat) → Origin → (st : Statement) → Record (exec host fuel st)
  | 0, _, _ => .step _
  | fuel + 1, origin, st =>
    Record.execStep host fuel (recordEval host fuel origin) (recordExec host fuel origin)
      (recordActivate host fuel) false origin st

/-- What happens in a body that is run in an activation of its own. -/
def recordActivate (host : Host) :
    (fuel : Nat) → (a : Activation) → (b : Body) → Record (activate host fuel a b)
  | 0, _, _ => .step _
  | fuel + 1, a, b => (Record.execBody (recordExec host fuel ⟨a.label, b⟩) b).within a

end

end Run

end ObjectAction
