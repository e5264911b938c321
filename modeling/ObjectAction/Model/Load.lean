/-
Adding a model to a population. A body that does not parse is left out and reported; a class or
association that cannot be defined ends the load, and what was defined before it stays.
-/
import ObjectAction.Body.StatementParser
import ObjectAction.Model.Basic

namespace ObjectAction

open Model

/-- A body that was left out, and why. -/
structure RejectedBody where
  label : String
  error : SyntaxError
  deriving DecidableEq, Repr

/-- Enters the bodies that parse into a table, and collects the others. -/
def compile (label : String → String) : Table Action → List BodyDecl →
    Table Action × List RejectedBody
  | t, [] => (t, [])
  | t, d :: ds =>
    match parse d.text with
    | .ok body => compile label (Table.put t d.name (.written (label d.name) body)) ds
    | .error e =>
      let (t', rejected) := compile label t ds
      (t', ⟨label d.name, e⟩ :: rejected)

/-- Compiles the operations of entities or ports. -/
def compileOwners : Table (Table Action) → List OwnerDecl →
    Table (Table Action) × List RejectedBody
  | t, [] => (t, [])
  | t, d :: ds =>
    let (operations, rejected) :=
      compile (fun name => s!"{d.name}::{name}") (Population.operationsOf t d.name) d.operations
    let (t', later) := compileOwners (Table.put t d.name operations) ds
    (t', rejected ++ later)

/-- Compiles the bodies of a class. -/
def ClassDef.compile (c : ClassDef) (d : ClassDecl) : ClassDef × List RejectedBody :=
  let ofInstance (name : String) : String := s!"{d.name}.{name}"
  let ofClass (name : String) : String := s!"{d.name}::{name}"
  let (derived, r₁) := ObjectAction.compile ofInstance c.derived d.derived
  let (operations, r₂) := ObjectAction.compile ofInstance c.operations d.operations
  let (classOperations, r₃) := ObjectAction.compile ofClass c.classOperations d.classOperations
  (⟨c.attributes, derived, operations, classOperations⟩, r₁ ++ r₂ ++ r₃)

/-- Compiles the bodies of classes that are defined. -/
def compileClasses : Table ClassDef → List ClassDecl → Table ClassDef × List RejectedBody
  | t, [] => (t, [])
  | t, d :: ds =>
    match Table.value? t d.name with
    | none => compileClasses t ds
    | some c =>
      let (c', rejected) := c.compile d
      let (t', later) := compileClasses (Table.put t d.name c') ds
      (t', rejected ++ later)

namespace Population

/-- Applies a step to one item after another, up to the first that fails. -/
def untilError {α : Type} (step : Population → α → Except PopulationError Population) :
    Population → List α → Population × Option PopulationError
  | p, [] => (p, none)
  | p, a :: rest =>
    match step p a with
    | .ok p' => untilError step p' rest
    | .error e => (p, some e)

def declareClass (p : Population) (d : ClassDecl) : Except PopulationError Population :=
  p.defineClass d.name d.attributes

def declareAssociation (p : Population) (d : AssociationDecl) :
    Except PopulationError Population :=
  match d.link with
  | some link => p.defineLinkedAssociation d.id d.first d.second link
  | none => p.defineAssociation d.id d.first d.second

/-- Adds everything a model declares: enumerations, classes with their bodies, associations, then
functions, entities and ports. -/
def load (p : Population) (m : Model) :
    Population × Except PopulationError (List RejectedBody) :=
  let p := m.enumerations.foldl (fun p e => p.defineEnumeration e.1 e.2) p
  match p.untilError declareClass m.classes with
  | (p, some e) => (p, .error e)
  | (p, none) =>
    let (classes, ofClasses) := compileClasses p.classes m.classes
    let p := { p with classes }
    match p.untilError declareAssociation m.associations with
    | (p, some e) => (p, .error e)
    | (p, none) =>
      let (functions, ofFunctions) := compile id p.functions m.functions
      let (entities, ofEntities) := compileOwners p.entities m.entities
      let (ports, ofPorts) := compileOwners p.ports m.ports
      ({ p with functions, entities, ports },
        .ok (ofClasses ++ ofFunctions ++ ofEntities ++ ofPorts))

/-- A new population with only what the model declares. -/
def ofModel (m : Model) : Except PopulationError (Population × List RejectedBody) :=
  match initial.load m with
  | (p, .ok rejected) => .ok (p, rejected)
  | (_, .error e) => .error e

end Population

end ObjectAction
