/-
The tree of an action body. Every node carries its extent: where it stands in the source and the
text it covers.
-/
import ObjectAction.Text.Mark

namespace ObjectAction

open Text (Mark)

/-- Where a node stands, and the source text from `start` up to `stop`. -/
structure Extent where
  start : Mark
  stop : Mark
  text : String
  deriving DecidableEq, Repr

/-! ## Expressions -/

inductive UnaryOperator where
  | minus | plus | not | cardinality | empty | notEmpty | first | last
  deriving DecidableEq, Repr

inductive BinaryOperator where
  | add | sub | mul | div | rem
  | less | lessEq | greater | greaterEq | equal | notEqual
  | and | or
  deriving DecidableEq, Repr

/-- How the operator is written. -/
def BinaryOperator.text : BinaryOperator → String
  | add => "+"
  | sub => "-"
  | mul => "*"
  | div => "/"
  | rem => "%"
  | less => "<"
  | lessEq => "<="
  | greater => ">"
  | greaterEq => ">="
  | equal => "=="
  | notEqual => "!="
  | and => "and"
  | or => "or"

mutual

inductive Expression where
  | integer (extent : Extent) (n : Int64)
  | real (extent : Extent) (x : Float)
  | string (extent : Extent) (content : String)
  | boolean (extent : Extent) (b : Bool)
  | enumerator (extent : Extent) (enumeration name : String)
  | self (extent : Extent)
  | selected (extent : Extent)
  /-- An argument of the running body, written as one of a call or as one of an event. -/
  | parameter (extent : Extent) (name : String) (ofEvent : Bool)
  | var (extent : Extent) (name : String)
  | field (extent : Extent) (target : Expression) (name : String)
  | index (extent : Extent) (target position : Expression)
  | unary (extent : Extent) (op : UnaryOperator) (operand : Expression)
  | binary (extent : Extent) (left : Expression) (op : BinaryOperator) (right : Expression)
  | invoke (extent : Extent) (callee : Callee) (name : String) (arguments : List Argument)

/-- Whose operation an invocation names. -/
inductive Callee where
  | function
  /-- Written without a marker: a class of that name, or else an external entity. -/
  | unmarked (owner : String)
  | bridge (entity : String)
  | ofClass (className : String)
  | port (port : String)
  | receiver (target : Expression)

inductive Argument where
  | mk (extent : Extent) (name : String) (value : Expression)

end

def Expression.extent : Expression → Extent
  | integer e _ | real e _ | string e _ | boolean e _ | enumerator e _ _ | self e | selected e
  | parameter e _ _ | var e _ | field e _ _ | index e _ _ | unary e _ _ | binary e _ _ _
  | invoke e _ _ _ => e

/-- Whether the expression names a place that can be written. -/
def Expression.isAssignable : Expression → Bool
  | var _ _ | field _ _ _ | index _ _ _ => true
  | _ => false

def Expression.isInvocation : Expression → Bool
  | invoke _ _ _ _ => true
  | _ => false

/-! ## Statements -/

/-- How many instances a selection binds: at most one, or a set. -/
inductive Cardinality where
  | one | any | many
  deriving DecidableEq, Repr

/-- An association by its id, and the phrase that tells its ends apart. -/
structure Relationship where
  id : String
  phrase : Option String
  deriving DecidableEq, Repr

/-- One hop of a navigation: to instances of a class across a relationship. -/
structure NavigationStep where
  extent : Extent
  className : String
  relationship : Relationship
  deriving DecidableEq, Repr

inductive NavigationStart where
  | self
  | selected
  | var (name : String)
  deriving DecidableEq, Repr

structure EventSpec where
  label : String
  meaning : Option String
  arguments : List Argument

inductive EventTarget where
  | ofClass (className : String)
  | creator (className : String)
  | receiver (target : Expression)

mutual

inductive Statement where
  | breakLoop (extent : Extent)
  | continueLoop (extent : Extent)
  | stop (extent : Extent)
  | returnValue (extent : Extent) (value : Option Expression)
  | assign (extent : Extent) (target value : Expression)
  | invoke (extent : Extent) (invocation : Expression)
  | create (extent : Extent) (name : Option String) (className : String)
  | delete (extent : Extent) (name : String)
  | relate (extent : Extent) (source target : String) (relationship : Relationship)
      (link : Option String)
  | unrelate (extent : Extent) (source target : String) (relationship : Relationship)
      (link : Option String)
  | selectFrom (extent : Extent) (cardinality : Cardinality) (name className : String)
      (condition : Option Expression)
  | selectRelated (extent : Extent) (cardinality : Cardinality) (name : String)
      (start : NavigationStart) (chain : List NavigationStep) (condition : Option Expression)
  | forEach (extent : Extent) (item set : String) (block : Block)
  | whileLoop (extent : Extent) (condition : Expression) (block : Block)
  | branch (extent : Extent) (condition : Expression) (block : Block) (elifs : List Elif)
      (otherwise : Option Block)
  | generate (extent : Extent) (event : EventSpec) (target : EventTarget)
  | createEvent (extent : Extent) (name : String) (event : EventSpec) (target : EventTarget)
  /-- Generates an event that was created before. -/
  | generateCreated (extent : Extent) (name : String)

inductive Block where
  | mk (extent : Extent) (statements : List Statement)

inductive Elif where
  | mk (extent : Extent) (condition : Expression) (block : Block)

end

def Block.extent : Block → Extent
  | mk e _ => e

def Block.statements : Block → List Statement
  | mk _ ss => ss

def Statement.extent : Statement → Extent
  | breakLoop e | continueLoop e | stop e | returnValue e _ | assign e _ _ | invoke e _
  | create e _ _ | delete e _ | relate e _ _ _ _ | unrelate e _ _ _ _ | selectFrom e _ _ _ _
  | selectRelated e _ _ _ _ _ | forEach e _ _ _ | whileLoop e _ _ | branch e _ _ _ _
  | generate e _ _ | createEvent e _ _ _ | generateCreated e _ => e

/-- A whole body: one block. -/
structure Body where
  extent : Extent
  block : Block

end ObjectAction
