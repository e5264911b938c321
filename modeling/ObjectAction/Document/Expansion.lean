/-
Documents without aliases: each alias is replaced by what it stands for. Main function:
`Graph.expand?`.
-/
import ObjectAction.Document.Node

namespace ObjectAction.Document

/-- Makes something while aliases are followed; the state is the number that may still be. -/
abbrev Expanding (α : Type) := StateT Nat Option α

/-- Counts one alias. -/
def Expanding.count : Expanding Unit := do
  match ← get with
  | 0 => failure
  | n + 1 => set n

namespace Node

mutual

/-- A node in which aliases are expanded by `follow`. A key has to be a scalar. -/
def expand (follow : Nat → Expanding Document) : Node → Expanding Document
  | .scalar s => pure (.scalar s)
  | .alias i => follow i
  | .list items => return .list (← expandItems follow items)
  | .mapping entries => return .mapping (← expandEntries follow entries)

def expandItems (follow : Nat → Expanding Document) : List Node → Expanding (List Document)
  | [] => pure []
  | n :: rest => return (← n.expand follow) :: (← expandItems follow rest)

def expandEntries (follow : Nat → Expanding Document) :
    List (Node × Node) → Expanding (List (String × Document))
  | [] => pure []
  | e :: rest => return (← expandEntry follow e) :: (← expandEntries follow rest)

def expandEntry (follow : Nat → Expanding Document) : Node × Node → Expanding (String × Document)
  | (key, value) => do
    match (← key.expand follow).text? with
    | some name => return (name, ← value.expand follow)
    | none => failure

end

end Node

namespace Graph

/-- The expanded node of an anchor. Inside it, aliases are followed `depth` levels down. -/
def follow (g : Graph) : (depth : Nat) → Nat → Expanding Document
  | 0, _ => failure
  | depth + 1, i => do
    Expanding.count
    match g.anchored.lookup i with
    | some n => n.expand (g.follow depth)
    | none => failure

/-- How many aliases may be followed for each mark of a document. -/
def aliasesPerMark : Nat := 100

/-- The document of a graph. A node that holds an alias for itself has none: deeper than there are
anchors, an alias is inside what it stands for. -/
def expand? (g : Graph) : Option Document :=
  (g.root.expand (g.follow (g.anchored.length + 1))).run' (aliasesPerMark * g.root.size)

end Graph

end ObjectAction.Document
