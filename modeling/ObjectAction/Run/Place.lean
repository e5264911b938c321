/-
Places: what an expression denotes when it is read or written. Reading or writing an index of a
variable makes the variable an array if it is unbound or null, and grows the array up to that index.
-/
import ObjectAction.Run.State

namespace ObjectAction

inductive Place where
  /-- A value that is kept nowhere. -/
  | value (v : Value)
  | var (name : String)
  | field (ref : InstanceRef) (name : String)
  | index (base : Place) (position : Nat)
  /-- The attribute that the running body computes. -/
  | derived

/-- The most elements that an array can have. -/
def maxArrayLength : Nat := 16777216

namespace Run

/-! ## Arrays -/

/-- The array with nulls added up to an index. -/
def growTo (items : List Value) (position : Nat) : Except Fault (List Value) :=
  if position < items.length then .ok items
  else if position < maxArrayLength then
    .ok (items ++ List.replicate (position + 1 - items.length) .null)
  else .error (.indexOutOfRange position)

/-- The array with one element written, grown before if it is too short. -/
def store (items : List Value) (position : Nat) (v : Value) : Except Fault (List Value) :=
  (growTo items position).map (·.set position v)

/-- The elements of an array; null has none. -/
def elements : Value → Except Fault (List Value)
  | .null => .ok []
  | .array items => .ok items
  | v => .error (.typeMismatch "array" v.typeName)

/-- The slot of a variable that is used as an array, and its elements. An unbound or null variable
becomes an empty array. -/
def arraySlot (name : String) : Run (Slot × List Value) := do
  let x ← changeScopes (·.slot name (.array []))
  let items ← ofExcept (elements (← look (·.scopes.read x)))
  modify fun s => { s with scopes := s.scopes.write x (.array items) }
  return (x, items)

/-- Writes an array into a slot. -/
def writeArray (x : Slot) (items : List Value) : Run Unit :=
  modify fun s => { s with scopes := s.scopes.write x (.array items) }

/-! ## Reading and writing -/

/-- Reads a place. Derived attributes are computed by `derive`. -/
def get (derive : Action → InstanceRef → String → Run Value) : Place → Run Value
  | .value v => return v
  | .var name => readVariable name
  | .field r name => do
    match ← ask (·.readAttribute r name) with
    | .stored v => return v
    | .derived a => derive a r name
  | .index (.var name) position => do
    let (x, items) ← arraySlot name
    let grown ← ofExcept (growTo items position)
    writeArray x grown
    return grown.getD position .null
  | .index base position => do
    let items ← ofExcept (elements (← get derive base))
    return items.getD position .null
  | .derived => look fun s => (s.activation.derived.map (·.result)).getD .null

/-- Writes a place. -/
def set (derive : Action → InstanceRef → String → Run Value) : Place → Value → Run Unit
  | .value current, _ => fail (.notAssignable current.text)
  | .var name, v => install name v
  | .field r name, v => change (·.writeAttribute r name v)
  | .index (.var name) position, v => do
    let (x, items) ← arraySlot name
    writeArray x (← ofExcept (store items position v))
  | .index base position, v => do
    let items ← ofExcept (elements (← get derive base))
    set derive base (.array (← ofExcept (store items position v)))
  | .derived, v => modify fun s =>
    { s with activation := { s.activation with
      derived := s.activation.derived.map ({ · with result := v }) } }

end Run

end ObjectAction
