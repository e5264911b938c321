/-
Variables. Each activation of a body has a scope, a stack of blocks with bindings, and only the
newest scope is visible. A write goes to the nearest block that binds the name, so a name is never
bound twice in one scope.
-/
import ObjectAction.Value

namespace ObjectAction

inductive ScopeError where
  | noScope
  | noBlock
  deriving DecidableEq, Repr

def ScopeError.message : ScopeError → String
  | noScope => "no scope to leave"
  | noBlock => "no block to leave in the current scope"

/-- The values of names in one block. -/
abbrev Bindings := Table Value

/-- The open blocks of one activation, innermost first. -/
abbrev Scope := List Bindings

namespace Scope

/-- How many blocks lie inside the nearest one that binds `name`. -/
def depth? (s : Scope) (name : String) : Option Nat := s.findIdx? (Table.has · name)

/-- The value of the nearest binding. -/
def value? (s : Scope) (name : String) : Option Value := s.findSome? (Table.value? · name)

/-- Writes the nearest binding of `name`, if there is one. -/
def overwrite? : Scope → String → Value → Option Scope
  | [], _, _ => none
  | b :: bs, name, v =>
    if Table.has b name then some (Table.put b name v :: bs)
    else (overwrite? bs name v).map (b :: ·)

/-- All bindings in one table; an inner block goes before an outer one. -/
def flatten (s : Scope) : Bindings := s.foldr (fun b t => Table.putAll t b) []

end Scope

/-- The scopes of all running activations, newest first. -/
structure Scopes where
  stack : List Scope

/-- A binding of the newest scope: its name and how many blocks lie inside its block. -/
structure Slot where
  depth : Nat
  name : String
  deriving DecidableEq, Repr

namespace Scopes

def empty : Scopes := ⟨[]⟩

def scopeDepth (t : Scopes) : Nat := t.stack.length

/-- The number of open blocks of the newest scope. -/
def blockDepth (t : Scopes) : Nat := (t.stack.head?.map List.length).getD 0

def enterScope (t : Scopes) : Scopes := ⟨[] :: t.stack⟩

/-- Drops the newest scope and gives all of its bindings. -/
def leaveScope (t : Scopes) : Except ScopeError (Bindings × Scopes) :=
  match t.stack with
  | [] => .error .noScope
  | s :: outer => .ok (s.flatten, ⟨outer⟩)

def enterBlock (t : Scopes) : Except ScopeError Scopes :=
  match t.stack with
  | [] => .error .noScope
  | s :: outer => .ok ⟨([] :: s) :: outer⟩

/-- Drops the innermost block and gives its bindings. -/
def leaveBlock (t : Scopes) : Except ScopeError (Bindings × Scopes) :=
  match t.stack with
  | [] => .error .noScope
  | [] :: _ => .error .noBlock
  | (b :: bs) :: outer => .ok (b, ⟨bs :: outer⟩)

/-- Writes the nearest binding of `name`, or makes one in the innermost block. -/
def install (t : Scopes) (name : String) (v : Value) : Except ScopeError Scopes :=
  match t.stack with
  | [] => .error .noScope
  | s :: outer =>
    match s.overwrite? name v, s with
    | some s', _ => .ok ⟨s' :: outer⟩
    | none, [] => .error .noBlock
    | none, b :: bs => .ok ⟨(Table.put b name v :: bs) :: outer⟩

def lookup (t : Scopes) (name : String) : Option Value :=
  t.stack.head?.bind (Scope.value? · name)

/-- The binding of `name`; without one, `default` is bound in the innermost block first. -/
def slot (t : Scopes) (name : String) (default : Value) : Except ScopeError (Slot × Scopes) :=
  match t.stack with
  | [] => .error .noScope
  | [] :: _ => .error .noBlock
  | s :: outer =>
    let depth := (s.depth? name).getD 0
    .ok (⟨depth, name⟩, ⟨s.modify depth (Table.putNew · name default) :: outer⟩)

/-- The value in a slot. -/
def read (t : Scopes) (x : Slot) : Value :=
  ((t.stack.head?.bind (·[x.depth]?)).bind (Table.value? · x.name)).getD .null

/-- Writes through a slot. -/
def write (t : Scopes) (x : Slot) (v : Value) : Scopes :=
  match t.stack with
  | [] => t
  | s :: outer => ⟨s.modify x.depth (Table.put · x.name v) :: outer⟩

end Scopes

end ObjectAction
