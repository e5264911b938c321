/-
Models from documents. A record has only fields that are known, each at most once, and what a field
holds has the type of the field.
-/
import ObjectAction.Document.Basic
import ObjectAction.Model.Basic

namespace ObjectAction.Model

variable {α : Type}

/-! ## Fields -/

/-- The fields of a record by name. -/
abbrev Fields := List (String × Document)

/-- A field that has to be there. -/
def Fields.required (fields : Fields) (name : String) (read : Document → Option α) : Option α :=
  (fields.lookup name).bind read

/-- A field that counts as `default` if it is not there. -/
def Fields.getD (fields : Fields) (name : String) (default : α) (read : Document → Option α) :
    Option α :=
  match fields.lookup name with
  | some d => read d
  | none => some default

/-- A list of which each item can be read. -/
def listOf (read : Document → Option α) (d : Document) : Option (List α) := do
  (← d.list?).mapM read

/-! ## Declarations -/

/-- An attribute type by its name. -/
def attributeType? (d : Document) : Option AttributeType := do
  let name ← d.choice?
  [.boolean, .integer, .real, .string, .uniqueId, .ref].find? (AttributeType.name · = name)

def attribute? (d : Document) : Option (String × AttributeType) := do
  let fields : Fields ← d.fields? ["name", "type"]
  return (← fields.required "name" Document.text?, ← fields.required "type" attributeType?)

def bodyDecl? (d : Document) : Option BodyDecl := do
  let fields : Fields ← d.fields? ["name", "body"]
  return ⟨← fields.required "name" Document.text?, ← fields.required "body" Document.text?⟩

def classDecl? (d : Document) : Option ClassDecl := do
  let fields : Fields ←
    d.fields? ["name", "attributes", "derived", "operations", "class_operations"]
  return ⟨← fields.required "name" Document.text?,
    ← fields.getD "attributes" [] (listOf attribute?),
    ← fields.getD "derived" [] (listOf bodyDecl?),
    ← fields.getD "operations" [] (listOf bodyDecl?),
    ← fields.getD "class_operations" [] (listOf bodyDecl?)⟩

def end? (d : Document) : Option End := do
  let fields : Fields ← d.fields? ["class", "phrase", "many"]
  return ⟨← fields.required "class" Document.text?,
    ← fields.getD "phrase" none Document.optionalText?,
    ← fields.getD "many" false Document.boolean?⟩

/-- Two ends. -/
def ends? (d : Document) : Option (End × End) := do
  match ← listOf end? d with
  | [first, second] => return (first, second)
  | _ => none

def associationDecl? (d : Document) : Option AssociationDecl := do
  let fields : Fields ← d.fields? ["id", "ends", "link"]
  let (first, second) ← fields.required "ends" ends?
  return ⟨← fields.required "id" Document.text?, first, second,
    ← fields.getD "link" none Document.optionalText?⟩

def ownerDecl? (d : Document) : Option OwnerDecl := do
  let fields : Fields ← d.fields? ["name", "operations"]
  return ⟨← fields.required "name" Document.text?,
    ← fields.getD "operations" [] (listOf bodyDecl?)⟩

/-- Names of enumerators by enumeration; of two entries with one key the later is kept. -/
def enumerations? (d : Document) : Option (Table (List String)) := do
  let entries ← (← d.entries?).mapM fun (name, names) =>
    (listOf Document.text? names).map (name, ·)
  return Table.putAll [] entries

/-- The model that a document describes. -/
def ofDocument? (d : Document) : Option Model := do
  let fields : Fields ← d.fields? ["component", "enumerations", "classes", "associations",
    "functions", "entities", "ports"]
  return {
    component := ← fields.getD "component" none Document.optionalText?
    enumerations := ← fields.getD "enumerations" [] enumerations?
    classes := ← fields.getD "classes" [] (listOf classDecl?)
    associations := ← fields.getD "associations" [] (listOf associationDecl?)
    functions := ← fields.getD "functions" [] (listOf bodyDecl?)
    entities := ← fields.getD "entities" [] (listOf ownerDecl?)
    ports := ← fields.getD "ports" [] (listOf ownerDecl?) }

end ObjectAction.Model
