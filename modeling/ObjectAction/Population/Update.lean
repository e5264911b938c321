/-
The operations on a population as updates in place. An update reads and writes the one population there is,
check by check and write by write, and what was written before an error stays written.
-/
import ObjectAction.Model.Load
import ObjectAction.Population.Navigation

namespace ObjectAction

open Model

/-- A computation on a population that it can change, and that can end in an error. -/
abbrev Update := EStateM PopulationError Population

namespace Update

variable {α : Type}

/-- What the population answers. -/
def ask (f : Population → Except PopulationError α) : Update α := fun p =>
  match f p with
  | .ok a => .ok a p
  | .error e => .error e p

/-- Ends in the error if the condition holds of the population. -/
def refuse (c : Population → Bool) (e : PopulationError) : Update Unit := fun p =>
  if c p then .error e p else .ok () p

/-! ## Definitions -/

def defineClass (name : String) (attributes : List (String × AttributeType)) : Update Unit := do
  refuse (fun p => Table.has p.classes name) (.definedTwice name)
  modify fun p => { p with classes := Table.put p.classes name ⟨attributes, [], [], []⟩ }

def addLeg (leg : Leg) : Update Unit := modify fun p => { p with legs := p.legs ++ [leg] }

def defineAssociation (id : String) (first second : End) : Update Unit := do
  let _ ← ask (·.classDef first.className)
  let _ ← ask (·.classDef second.className)
  if first.className = second.className ∧
      (first.phrase.isNone ∨ second.phrase.isNone ∨ first.phrase = second.phrase) then
    throw (.reflexiveWithoutPhrases id)
  else addLeg ⟨id, first, second⟩

def defineLinkedAssociation (id : String) (first second : End) (link : String) : Update Unit := do
  let _ ← ask (·.classDef first.className)
  let _ ← ask (·.classDef second.className)
  let _ ← ask (·.classDef link)
  if first.className = second.className then throw (.reflexiveWithLink id)
  else
    addLeg (Population.linkLeg id link first second)
    addLeg (Population.linkLeg id link second first)
    modify fun p => { p with throughs := p.throughs ++ [⟨id, first, second, link⟩] }

/-! ## Instances -/

def create (className : String) : Update InstanceRef := do
  let id := (← get).nextId
  let c ← ask (·.classDef className)
  modify fun p => { p with nextId := p.nextId + 1 }
  let i : Instance := ⟨className, id, Population.initialAttributes c id⟩
  modify fun p => { p with instances := p.instances ++ [i] }
  return i.ref

def delete (r : InstanceRef) : Update Unit := do
  let _ ← ask (·.tracked r)
  modify fun p => { p with instances := p.instances.filter (·.ref ≠ r) }
  modify fun p => { p with links := p.links.filter (!·.touches r) }

def relate (a b : InstanceRef) (id : String) (phrase : Option String) : Update Unit := do
  let _ ← ask (·.tracked a)
  let _ ← ask (·.tracked b)
  let r ← ask (·.reading a.className b.className id phrase)
  refuse (·.links.any (r.joins a b)) (.alreadyRelated a.text b.text id)
  refuse (fun p => (!r.target.many && p.links.any (r.leaves a))
    || (!r.source.many && p.links.any (r.arrives b))) (.alreadyRelated a.text b.text id)
  modify fun p => { p with links := p.links ++ [r.link a b] }

def unrelate (a b : InstanceRef) (id : String) (phrase : Option String) : Update Unit := do
  let _ ← ask (·.tracked a)
  let _ ← ask (·.tracked b)
  let r ← ask (·.reading a.className b.className id phrase)
  match (← get).links.findIdx? (r.joins a b) with
  | some i => modify fun p => { p with links := p.links.eraseIdx i }
  | none => throw (.notRelated a.text b.text id)

def writeAttribute (r : InstanceRef) (name : String) (v : Value) : Update Unit := do
  let i ← ask (·.tracked r)
  let c ← ask (·.classDef i.className)
  if Table.has c.derived name then throw (.readOnlyAttribute i.className name)
  else match c.attributes.lookup name with
    | none => throw (.unknownAttribute i.className name)
    | some type =>
      match AttributeType.coerce? type v with
      | none => throw (.attributeType i.className name type.name v.typeName)
      | some w => modify (·.setAttribute r name w)

def generate (e : Event) : Update Unit := do
  match e.recipient with
  | .ofClass className => let _ ← ask (·.classDef className)
  | .creator className => let _ ← ask (·.classDef className)
  | .receiver r => let _ ← ask (·.tracked r)
  modify fun p => { p with events := p.events ++ [e] }

/-! ## Models -/

def declareAssociation (d : AssociationDecl) : Update Unit :=
  match d.link with
  | some link => defineLinkedAssociation d.id d.first d.second link
  | none => defineAssociation d.id d.first d.second

/-- Compiles the bodies of a class into its definition. -/
def compileClass (d : ClassDecl) : Update (List RejectedBody) := do
  let c ← ask (·.classDef d.name)
  let (c', rejected) := c.compile d
  modify fun p => { p with classes := Table.put p.classes d.name c' }
  return rejected

def compileClasses : List ClassDecl → Update (List RejectedBody)
  | [] => return []
  | d :: ds => do
    let rejected ← compileClass d
    let later ← compileClasses ds
    return rejected ++ later

def load (m : Model) : Update (List RejectedBody) := do
  m.enumerations.forM fun e => modify (·.defineEnumeration e.1 e.2)
  m.classes.forM fun d => defineClass d.name d.attributes
  let ofClasses ← compileClasses m.classes
  m.associations.forM declareAssociation
  let (functions, ofFunctions) := compile id (← get).functions m.functions
  modify fun p => { p with functions }
  let (entities, ofEntities) := compileOwners (← get).entities m.entities
  modify fun p => { p with entities }
  let (ports, ofPorts) := compileOwners (← get).ports m.ports
  modify fun p => { p with ports }
  return ofClasses ++ ofFunctions ++ ofEntities ++ ofPorts

end Update

end ObjectAction
