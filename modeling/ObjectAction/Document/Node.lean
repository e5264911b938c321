/-
Nodes as they are written. A node may have an anchor, and an alias stands for a node with an anchor.
-/
import ObjectAction.Document.Basic

namespace ObjectAction.Document

inductive Node where
  | scalar (s : Scalar)
  | list (items : List Node)
  | mapping (entries : List (Node × Node))
  /-- Stands for the node whose anchor has that number. -/
  | alias (number : Nat)
  deriving Inhabited

namespace Node

/-- The node where nothing is written. -/
def nothing : Node := scalar .nothing

/-! ## Size -/

mutual

/-- How many marks a node is made of: a collection has one at its start and one at its end. -/
def size : Node → Nat
  | .scalar _ => 1
  | .alias _ => 1
  | .list items => itemsSize items + 2
  | .mapping entries => entriesSize entries + 2

def itemsSize : List Node → Nat
  | [] => 0
  | n :: rest => n.size + itemsSize rest

def entriesSize : List (Node × Node) → Nat
  | [] => 0
  | e :: rest => entrySize e + entriesSize rest

def entrySize : Node × Node → Nat
  | (key, value) => key.size + value.size

end

end Node

/-- A document with the nodes that its aliases stand for. -/
structure Graph where
  root : Node
  /-- Nodes by the numbers of their anchors; the first of a number counts. -/
  anchored : List (Nat × Node)

/-- The document in which nothing is written. -/
def Graph.nothing : Graph := ⟨.nothing, []⟩

end ObjectAction.Document
