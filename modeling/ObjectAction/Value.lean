/-
Values of the action language: plain values, references to instances, sets, arrays, events, and
global names. Every value has a type name, a truth value and a text.
-/
import ObjectAction.Number.Layout
import ObjectAction.Table

namespace ObjectAction

/-- An instance by its class and its id. -/
structure InstanceRef where
  className : String
  id : Nat
  deriving DecidableEq, Repr, Inhabited

def InstanceRef.text (r : InstanceRef) : String := s!"{r.className}#{r.id}"

/-- A name that a model defines. -/
inductive Global where
  | ofClass (name : String)
  | function (name : String)
  | entity (name : String)
  deriving DecidableEq, Repr

def Global.text : Global → String
  | ofClass name => s!"<class {name}>"
  | function name => s!"<function {name}>"
  | entity name => s!"<external entity {name}>"

/-- Where an event goes. -/
inductive Recipient where
  | ofClass (className : String)
  | creator (className : String)
  | receiver (ref : InstanceRef)
  deriving DecidableEq, Repr, Inhabited

/-- An event whose arguments are values of type `α`. -/
structure EventOf (α : Type) where
  label : String
  meaning : Option String
  arguments : List (String × α)
  recipient : Recipient
  deriving Inhabited

def EventOf.text {α : Type} (e : EventOf α) : String :=
  let meaning := match e.meaning with
    | some m => s!":{m}"
    | none => ""
  let recipient := match e.recipient with
    | .ofClass className => s!"{className} class"
    | .creator className => s!"{className} creator"
    | .receiver ref => ref.text
  s!"<event {e.label}{meaning} to {recipient}>"

inductive Value where
  | null
  | boolean (b : Bool)
  | integer (n : Int64)
  | real (x : Float)
  | string (s : String)
  | enumerator (enumeration name : String)
  | ref (r : InstanceRef)
  /-- Instances in the order in which they were found. -/
  | set (refs : List InstanceRef)
  | array (items : List Value)
  | event (e : EventOf Value)
  | global (g : Global)
  deriving Inhabited

abbrev Event := EventOf Value

/-- Arguments by the names of their parameters. -/
abbrev Arguments := Table Value

namespace Value

/-- The type of a value in messages. -/
def typeName : Value → String
  | null => "null"
  | boolean _ => "boolean"
  | integer _ => "integer"
  | real _ => "real"
  | string _ => "string"
  | enumerator _ _ => "enumerator"
  | ref _ => "instance"
  | set _ => "instance set"
  | array _ => "array"
  | event _ => "event"
  | global _ => "symbol"

/-- Null, zero and what is empty are false. -/
def isTruthy : Value → Bool
  | null => false
  | boolean b => b
  | integer n => n ≠ 0
  | real x => !(x == 0.0)
  | string s => s ≠ ""
  | set refs => !refs.isEmpty
  | array items => !items.isEmpty
  | _ => true

def integer? : Value → Option Int64
  | integer n => some n
  | _ => none

/-- A number as a real. -/
def real? : Value → Option Float
  | integer n => some (Number.ofInt64 n)
  | real x => some x
  | _ => none

/-- The instances that a value refers to; null refers to none. -/
def instances? : Value → Option (List InstanceRef)
  | null => some []
  | ref r => some [r]
  | set refs => some refs
  | _ => none

/-- How many things a value holds. -/
def cardinality : Value → Nat
  | null => 0
  | set refs => refs.length
  | array items => items.length
  | _ => 1

end Value

/-! ## Equality -/

mutual

/-- Whether two values of one type agree; reals agree as numbers. -/
def Value.same : Value → Value → Bool
  | .null, .null => true
  | .boolean a, .boolean b => a == b
  | .integer a, .integer b => a == b
  | .real a, .real b => a == b
  | .string a, .string b => a == b
  | .enumerator e a, .enumerator f b => e == f && a == b
  | .ref a, .ref b => a == b
  | .set a, .set b => a == b
  | .array a, .array b => Value.sameAll a b
  | .event ⟨label, meaning, arguments, recipient⟩, .event f =>
    label == f.label && meaning == f.meaning && Value.sameEntries arguments f.arguments
      && recipient == f.recipient
  | .global a, .global b => a == b
  | _, _ => false

def Value.sameAll : List Value → List Value → Bool
  | [], [] => true
  | a :: as, b :: bs => a.same b && Value.sameAll as bs
  | _, _ => false

def Value.sameEntries : List (String × Value) → List (String × Value) → Bool
  | [], [] => true
  | (k, a) :: as, (l, b) :: bs => k == l && a.same b && Value.sameEntries as bs
  | _, _ => false

end

/-! ## Text -/

/-- Texts with a comma between each two. -/
def joined (texts : List String) : String := ", ".intercalate texts

mutual

/-- How a value is written. -/
def Value.text : Value → String
  | .null => "null"
  | .boolean b => if b then "true" else "false"
  | .integer n => toString n.toInt
  | .real x => Number.Layout.value.write x
  | .string s => s
  | .enumerator enumeration name => s!"{enumeration}::{name}"
  | .ref r => r.text
  | .set refs => "\x7b" ++ joined (refs.map InstanceRef.text) ++ "\x7d"
  | .array items => "[" ++ joined (Value.texts items) ++ "]"
  | .event e => e.text
  | .global g => g.text

def Value.texts : List Value → List String
  | [] => []
  | v :: vs => v.text :: Value.texts vs

end

end ObjectAction
