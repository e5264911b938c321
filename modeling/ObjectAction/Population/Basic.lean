/-
Populations: what a model defines, the instances there are, the links between them and the events
that were generated. Instances stand in the order of their creation and ids are never reused.
-/
import ObjectAction.Population.Action
import ObjectAction.Population.Association

namespace ObjectAction

inductive AttributeType where
  | boolean | integer | real | string | uniqueId | ref
  deriving DecidableEq, Repr

def AttributeType.name : AttributeType → String
  | boolean => "boolean"
  | integer => "integer"
  | real => "real"
  | string => "string"
  | uniqueId => "unique_id"
  | ref => "instance"

/-- What an attribute holds at first. A unique id is the id of the instance. -/
def AttributeType.initialValue (id : Nat) : AttributeType → Value
  | boolean => .boolean false
  | integer => .integer 0
  | real => .real 0.0
  | string => .string ""
  | uniqueId => .integer (Int64.ofNat id)
  | ref => .null

/-- The value as an attribute of that type holds it: an integer becomes a real where a real is
expected, and otherwise the type has to fit. -/
def AttributeType.coerce? : AttributeType → Value → Option Value
  | boolean, .boolean b => some (.boolean b)
  | integer, .integer n => some (.integer n)
  | uniqueId, .integer n => some (.integer n)
  | real, .real x => some (.real x)
  | real, .integer n => some (.real (Number.ofInt64 n))
  | string, .string s => some (.string s)
  | ref, .ref r => some (.ref r)
  | ref, .null => some .null
  | _, _ => none

/-- What is defined for a class. Attributes stand in the order of their declaration. -/
structure ClassDef where
  attributes : List (String × AttributeType)
  derived : Table Action
  operations : Table Action
  classOperations : Table Action

structure Instance where
  className : String
  id : Nat
  attributes : Table Value

def Instance.ref (i : Instance) : InstanceRef := ⟨i.className, i.id⟩

/-- What reading an attribute gives: a value, or the action that computes one. -/
inductive Attribute where
  | stored (v : Value)
  | derived (a : Action)

structure Population where
  classes : Table ClassDef
  legs : List Leg
  throughs : List Through
  links : List Link
  instances : List Instance
  nextId : Nat
  functions : Table Action
  entities : Table (Table Action)
  ports : Table (Table Action)
  enumerations : Table (List String)
  events : List Event

namespace Population

/-- Only the external entity of the log. -/
def initial : Population where
  classes := []
  legs := []
  throughs := []
  links := []
  instances := []
  nextId := 1
  functions := []
  entities := [("LOG", logEntity)]
  ports := []
  enumerations := []
  events := []

def classDef (p : Population) (name : String) : Except PopulationError ClassDef :=
  match Table.value? p.classes name with
  | some c => .ok c
  | none => .error (.unknownClass name)

/-- The instance with that class and id. -/
def tracked (p : Population) (r : InstanceRef) : Except PopulationError Instance :=
  match p.instances.find? (·.ref = r) with
  | some i => .ok i
  | none => .error (.notTracked r.text)

/-! ## Definitions -/

def defineClass (p : Population) (name : String) (attributes : List (String × AttributeType)) :
    Except PopulationError Population :=
  if Table.has p.classes name then .error (.definedTwice name)
  else .ok { p with classes := Table.put p.classes name ⟨attributes, [], [], []⟩ }

/-- An association between two classes. With one class at both ends, the ends need distinct
phrases. -/
def defineAssociation (p : Population) (id : String) (first second : End) :
    Except PopulationError Population := do
  let _ ← p.classDef first.className
  let _ ← p.classDef second.className
  if first.className = second.className ∧
      (first.phrase.isNone ∨ second.phrase.isNone ∨ first.phrase = second.phrase) then
    .error (.reflexiveWithoutPhrases id)
  else .ok { p with legs := p.legs ++ [⟨id, first, second⟩] }

/-- The leg from one end of an association to its link class: one instance of the end's class, and
the phrase and the multiplicity of the end opposite to it. -/
def linkLeg (id link : String) (near far : End) : Leg :=
  ⟨id, ⟨near.className, near.phrase, false⟩, ⟨link, far.phrase, far.many⟩⟩

/-- An association between two different classes by way of a link class. -/
def defineLinkedAssociation (p : Population) (id : String) (first second : End) (link : String) :
    Except PopulationError Population := do
  let _ ← p.classDef first.className
  let _ ← p.classDef second.className
  let _ ← p.classDef link
  if first.className = second.className then .error (.reflexiveWithLink id)
  else .ok { p with
    legs := p.legs ++ [linkLeg id link first second, linkLeg id link second first]
    throughs := p.throughs ++ [⟨id, first, second, link⟩] }

def defineFunction (p : Population) (name : String) (action : Action) : Population :=
  { p with functions := Table.put p.functions name action }

/-- The operations of one owner in a table of owners. -/
def operationsOf (owners : Table (Table Action)) (owner : String) : Table Action :=
  (Table.value? owners owner).getD []

def defineBridge (p : Population) (entity name : String) (action : Action) : Population :=
  { p with entities :=
    Table.put p.entities entity (Table.put (operationsOf p.entities entity) name action) }

def definePortOperation (p : Population) (port name : String) (action : Action) : Population :=
  { p with ports := Table.put p.ports port (Table.put (operationsOf p.ports port) name action) }

def defineEnumeration (p : Population) (name : String) (enumerators : List String) : Population :=
  { p with enumerations := Table.put p.enumerations name enumerators }

/-! ## Finding what is defined -/

/-- What a name stands for that is no variable. -/
def findGlobal (p : Population) (name : String) : Except PopulationError Global :=
  if Table.has p.classes name then .ok (.ofClass name)
  else if Table.has p.functions name then .ok (.function name)
  else if Table.has p.entities name then .ok (.entity name)
  else .error (.unknownSymbol name)

def findFunction (p : Population) (name : String) : Except PopulationError Action :=
  match Table.value? p.functions name with
  | some a => .ok a
  | none => .error (.unknownFunction name)

/-- An operation in a table, where `owner` is blamed if there is none. -/
def findOperation (operations : Table Action) (owner name : String) :
    Except PopulationError Action :=
  match Table.value? operations name with
  | some a => .ok a
  | none => .error (.unknownOperation owner name)

def findClassOperation (p : Population) (className name : String) :
    Except PopulationError Action := do
  findOperation (← p.classDef className).classOperations className name

def findInstanceOperation (p : Population) (r : InstanceRef) (name : String) :
    Except PopulationError Action := do
  let i ← p.tracked r
  findOperation (← p.classDef i.className).operations i.className name

def findBridge (p : Population) (entity name : String) : Except PopulationError Action :=
  findOperation (operationsOf p.entities entity) entity name

def findPortOperation (p : Population) (port name : String) : Except PopulationError Action :=
  findOperation (operationsOf p.ports port) port name

def findEnumerator (p : Population) (enumeration name : String) : Except PopulationError Value :=
  if ((Table.value? p.enumerations enumeration).getD []).contains name then
    .ok (.enumerator enumeration name)
  else .error (.unknownEnumerator enumeration name)

/-! ## Instances -/

/-- The attributes of a new instance. -/
def initialAttributes (c : ClassDef) (id : Nat) : Table Value :=
  c.attributes.foldl (fun t a => Table.put t a.1 (AttributeType.initialValue id a.2)) []

def create (p : Population) (className : String) :
    Except PopulationError (InstanceRef × Population) := do
  let c ← p.classDef className
  let i : Instance := ⟨className, p.nextId, initialAttributes c p.nextId⟩
  return (i.ref, { p with instances := p.instances ++ [i], nextId := p.nextId + 1 })

/-- Removes an instance and its links. -/
def delete (p : Population) (r : InstanceRef) : Except PopulationError Population := do
  let _ ← p.tracked r
  return { p with
    instances := p.instances.filter (·.ref ≠ r)
    links := p.links.filter (!·.touches r) }

/-- All instances of a class, oldest first. -/
def selectMany (p : Population) (className : String) :
    Except PopulationError (List InstanceRef) := do
  let _ ← p.classDef className
  return (p.instances.filter (·.className = className)).map Instance.ref

/-- The oldest instance of a class. -/
def selectOne (p : Population) (className : String) :
    Except PopulationError (Option InstanceRef) := do
  return (← p.selectMany className).head?

/-! ## Attributes -/

def readAttribute (p : Population) (r : InstanceRef) (name : String) :
    Except PopulationError Attribute := do
  let i ← p.tracked r
  let c ← p.classDef i.className
  match Table.value? c.derived name, Table.value? i.attributes name with
  | some a, _ => return .derived a
  | none, some v => return .stored v
  | none, none => .error (.unknownAttribute i.className name)

/-- Sets an attribute of the instance with that class and id. -/
def setAttribute (p : Population) (r : InstanceRef) (name : String) (v : Value) : Population :=
  { p with instances := p.instances.map fun i =>
    if i.ref = r then { i with attributes := Table.put i.attributes name v } else i }

def writeAttribute (p : Population) (r : InstanceRef) (name : String) (v : Value) :
    Except PopulationError Population := do
  let i ← p.tracked r
  let c ← p.classDef i.className
  if Table.has c.derived name then .error (.readOnlyAttribute i.className name)
  else match c.attributes.lookup name with
    | none => .error (.unknownAttribute i.className name)
    | some type =>
      match AttributeType.coerce? type v with
      | none => .error (.attributeType i.className name type.name v.typeName)
      | some w => return p.setAttribute r name w

/-! ## Events -/

/-- Queues an event for a class that is defined or an instance that exists. -/
def generate (p : Population) (e : Event) : Except PopulationError Population := do
  match e.recipient with
  | .ofClass className => let _ ← p.classDef className
  | .creator className => let _ ← p.classDef className
  | .receiver r => let _ ← p.tracked r
  return { p with events := p.events ++ [e] }

/-- Takes all events from the queue. -/
def takeEvents (p : Population) : List Event × Population :=
  (p.events, { p with events := [] })

end Population

end ObjectAction
