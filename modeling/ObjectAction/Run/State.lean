/-
The state of a run and the steps that change it. A step is done, or failed, or it did not end within
its fuel; the first two leave a state behind, so what was changed before a fault stays changed.
-/
import ObjectAction.Population.Native
import ObjectAction.Run.Journal

namespace ObjectAction

/-- A running `for each`: the variable it goes over, and the pass it is in. -/
structure LoopCursor where
  set : String
  index : Nat
  length : Nat
  deriving DecidableEq, Repr

/-- The result of a derived attribute while its body computes it. -/
structure DerivedCell where
  name : String
  result : Value

/-- One activation of a body. Candidates of conditions and loops stand innermost first. -/
structure Activation where
  label : String
  receiver : Option InstanceRef
  arguments : Arguments
  derived : Option DerivedCell
  candidates : List InstanceRef
  loops : List LoopCursor

namespace Activation

def start (label : String) (receiver : Option InstanceRef) (arguments : Arguments) : Activation :=
  ⟨label, receiver, arguments, none, [], []⟩

/-- An activation that computes the attribute `name` of `receiver`. -/
def derive (label name : String) (receiver : InstanceRef) : Activation :=
  ⟨label, some receiver, [], some ⟨name, .null⟩, [], []⟩

end Activation

structure RunState where
  population : Population
  scopes : Scopes
  activation : Activation
  journal : Journal

inductive Outcome (α : Type) where
  | done (a : α) (s : RunState)
  | failed (f : Fault) (s : RunState)
  /-- The fuel did not suffice. -/
  | exhausted

/-- A step of a run. -/
def Run (α : Type) : Type := RunState → Outcome α

namespace Run

variable {α β : Type}

@[always_inline, inline]
protected def pure (a : α) : Run α := fun s => .done a s

@[always_inline, inline]
protected def bind (x : Run α) (f : α → Run β) : Run β := fun s =>
  match x s with
  | .done a s' => f a s'
  | .failed e s' => .failed e s'
  | .exhausted => .exhausted

@[always_inline]
instance : Monad Run where
  pure := Run.pure
  bind := Run.bind

/-- The step whose fuel did not suffice. -/
def exhausted : Run α := fun _ => .exhausted

def fail (f : Fault) : Run α := fun s => .failed f s

/-- Looks at the state. -/
def look (f : RunState → α) : Run α := fun s => .done (f s) s

def modify (f : RunState → RunState) : Run Unit := fun s => .done () (f s)

/-- A result or a fault. -/
def ofExcept : Except Fault α → Run α
  | .ok a => pure a
  | .error f => fail f

/-- Asks the population. -/
def ask (f : Population → Except PopulationError α) : Run α := fun s =>
  match f s.population with
  | .ok a => .done a s
  | .error e => .failed (.population e) s

/-- Changes the population and gives a result, unless that fails. -/
def perform (f : Population → Except PopulationError (α × Population)) : Run α := fun s =>
  match f s.population with
  | .ok (a, p) => .done a { s with population := p }
  | .error e => .failed (.population e) s

/-- Changes the population, unless that fails. -/
def change (f : Population → Except PopulationError Population) : Run Unit :=
  perform fun p => (f p).map ((), ·)

/-- Changes the variables, unless that fails. -/
def changeScopes (f : Scopes → Except ScopeError (α × Scopes)) : Run α := fun s =>
  match f s.scopes with
  | .ok (a, t) => .done a { s with scopes := t }
  | .error e => .failed (.scope e) s

/-- Binds a variable. -/
def install (name : String) (v : Value) : Run Unit :=
  changeScopes fun t => (t.install name v).map ((), ·)

def note (n : Notice) : Run Unit := modify fun s => { s with journal := s.journal.push n }

/-- Notes a fault on a line of the running body. -/
def report (line : Nat) (f : Fault) : Run Unit := do
  note (.fault (← look (·.activation.label)) line f)

/-- Goes on with `rest` after a fault that satisfies `p`. -/
def recover (x : Run α) (p : Fault → Bool) (rest : Fault → Run α) : Run α := fun s =>
  match x s with
  | .failed f s' => if p f then rest f s' else .failed f s'
  | o => o

/-! ## Steps inside something that is left again -/

/-- Runs a step between two changes of the activation; the second happens after a fault too. -/
def between (enter leave : Activation → Activation) (x : Run α) : Run α := fun s =>
  match x { s with activation := enter s.activation } with
  | .done a s' => .done a { s' with activation := leave s'.activation }
  | .failed f s' => .failed f { s' with activation := leave s'.activation }
  | .exhausted => .exhausted

/-- Runs a step in another activation. -/
def within (a : Activation) (x : Run α) : Run α := fun s =>
  between (fun _ => a) (fun _ => s.activation) x s

/-- Runs a step with `selected` bound to a candidate. -/
def withCandidate (r : InstanceRef) (x : Run α) : Run α :=
  between (fun a => { a with candidates := r :: a.candidates })
    (fun a => { a with candidates := a.candidates.tail }) x

/-- Runs a step inside a loop. -/
def withLoop (c : LoopCursor) (x : Run α) : Run α :=
  between (fun a => { a with loops := c :: a.loops })
    (fun a => { a with loops := a.loops.tail }) x

/-- Notes in which pass the innermost loop is. -/
def setPass (index : Nat) : Run Unit := modify fun s =>
  match s.activation.loops with
  | [] => s
  | c :: outer =>
    { s with activation := { s.activation with loops := { c with index := index } :: outer } }

/-- Runs a step in a new block, which is left after a fault too. -/
def inBlock (x : Run α) : Run α := fun s =>
  match s.scopes.enterBlock with
  | .error e => .failed (.scope e) s
  | .ok t =>
    match x { s with scopes := t } with
    | .exhausted => .exhausted
    | .done a s' =>
      match s'.scopes.leaveBlock with
      | .ok (_, t') => .done a { s' with scopes := t' }
      | .error e => .failed (.scope e) s'
    | .failed f s' =>
      match s'.scopes.leaveBlock with
      | .ok (_, t') => .failed f { s' with scopes := t' }
      | .error e => .failed (.scope e) s'

/-- Runs a step in a new scope, which is left after a fault too. -/
def inScope (x : Run α) : Run α := fun s =>
  match x { s with scopes := s.scopes.enterScope } with
  | .exhausted => .exhausted
  | .done a s' =>
    match s'.scopes.leaveScope with
    | .ok (_, t) => .done a { s' with scopes := t }
    | .error e => .failed (.scope e) s'
  | .failed f s' =>
    match s'.scopes.leaveScope with
    | .ok (_, t) => .failed f { s' with scopes := t }
    | .error _ => .failed f s'

/-! ## Names and references -/

/-- The value of a variable, or else what the model defines by that name. -/
def resolveName (t : Scopes) (p : Population) (name : String) : Except PopulationError Value :=
  match t.lookup name with
  | some v => .ok v
  | none => (p.findGlobal name).map .global

def readVariable (name : String) : Run Value := do
  let t ← look (·.scopes)
  ask (resolveName t · name)

/-- The reference in a value. -/
def expectRef : Value → Run InstanceRef
  | .ref r => return r
  | v => fail (.typeMismatch "instance" v.typeName)

/-- The references in a value, which should be what `expected` says. -/
def expectInstances (expected : String) (v : Value) : Run (List InstanceRef) :=
  match v.instances? with
  | some refs => return refs
  | none => fail (.typeMismatch expected v.typeName)

/-- The instance in a variable. -/
def readRef (name : String) : Run InstanceRef := do
  expectRef (← readVariable name)

/-- The instance whose operation or attribute runs. -/
def receiver : Run InstanceRef := do
  match ← look (·.activation.receiver) with
  | some r => return r
  | none => fail .noSelf

/-- The candidate of the innermost condition. -/
def selected : Run InstanceRef := do
  match ← look (·.activation.candidates.head?) with
  | some r => return r
  | none => fail .noSelected

end Run

end ObjectAction
