/-
Outlines: the tree of a body with only the name, the extent and the children of each node, in source
order, and its rendering with one line per node.
-/
import ObjectAction.Body.Tree
import ObjectAction.Text.Blank

namespace ObjectAction

inductive Outline where
  | node (name : String) (extent : Extent) (children : List Outline)

namespace Outline

def name : Outline → String
  | node n _ _ => n

def extent : Outline → Extent
  | node _ e _ => e

def children : Outline → List Outline
  | node _ _ cs => cs

end Outline

/-! ## Names of nodes -/

def Callee.nodeName : Callee → String
  | function => "FunctionInvocation"
  | unmarked _ => "ImplicitInvocation"
  | bridge _ => "BridgeInvocation"
  | ofClass _ => "ClassInvocation"
  | port _ => "PortInvocation"
  | receiver _ => "InstanceInvocation"

def Expression.nodeName : Expression → String
  | integer _ _ => "IntegerLiteral"
  | real _ _ => "RealLiteral"
  | string _ _ => "StringLiteral"
  | boolean _ _ => "BooleanLiteral"
  | enumerator _ _ _ => "Enumerator"
  | self _ => "SelfAccess"
  | selected _ => "SelectedAccess"
  | parameter _ _ _ => "ParamAccess"
  | var _ _ => "VariableAccess"
  | field _ _ _ => "FieldAccess"
  | index _ _ _ => "IndexAccess"
  | unary _ _ _ => "UnaryOperation"
  | binary _ _ _ _ => "BinaryOperation"
  | invoke _ callee _ _ => callee.nodeName

def Statement.nodeName : Statement → String
  | breakLoop _ => "Break"
  | continueLoop _ => "Continue"
  | stop _ => "ControlStop"
  | returnValue _ _ => "Return"
  | assign _ _ _ => "Assign"
  | invoke _ _ => "InvocationStatement"
  | create _ (some _) _ => "CreateObject"
  | create _ none _ => "CreateObjectNoVariable"
  | delete _ _ => "DeleteObject"
  | relate _ _ _ _ none => "Relate"
  | relate _ _ _ _ (some _) => "RelateUsing"
  | unrelate _ _ _ _ none => "Unrelate"
  | unrelate _ _ _ _ (some _) => "UnrelateUsing"
  | selectFrom _ _ _ _ none => "SelectFrom"
  | selectFrom _ _ _ _ (some _) => "SelectFromWhere"
  | selectRelated _ _ _ _ _ none => "SelectRelated"
  | selectRelated _ _ _ _ _ (some _) => "SelectRelatedWhere"
  | forEach _ _ _ _ => "ForEach"
  | whileLoop _ _ _ => "While"
  | branch _ _ _ _ _ => "If"
  | generate _ _ _ => "GenerateEvent"
  | createEvent _ _ _ _ => "CreateEvent"
  | generateCreated _ _ => "GeneratePrecreatedEvent"

/-! ## Outlines of nodes -/

mutual

def Expression.outline : Expression → Outline
  | e@(.field x target _) => .node e.nodeName x [target.outline]
  | e@(.index x target position) => .node e.nodeName x [target.outline, position.outline]
  | e@(.unary x _ operand) => .node e.nodeName x [operand.outline]
  | e@(.binary x left _ right) => .node e.nodeName x [left.outline, right.outline]
  | e@(.invoke x callee _ arguments) =>
    .node e.nodeName x (callee.outlines ++ Argument.outlines arguments)
  | e => .node e.nodeName e.extent []

/-- The receiver, if the callee has one. -/
def Callee.outlines : Callee → List Outline
  | .receiver target => [target.outline]
  | _ => []

def Argument.outlines : List Argument → List Outline
  | [] => []
  | .mk x _ value :: rest => .node "Argument" x [value.outline] :: Argument.outlines rest

end

def Expression.optionalOutline (e : Option Expression) : List Outline :=
  e.toList.map Expression.outline

def NavigationStep.outline (s : NavigationStep) : Outline :=
  .node "NavigationStep" s.extent []

def EventTarget.outlines : EventTarget → List Outline
  | receiver target => [target.outline]
  | _ => []

mutual

def Statement.outline : Statement → Outline
  | s@(.returnValue x value) => .node s.nodeName x (Expression.optionalOutline value)
  | s@(.assign x target value) => .node s.nodeName x [target.outline, value.outline]
  | s@(.invoke x invocation) => .node s.nodeName x [invocation.outline]
  | s@(.selectFrom x _ _ _ condition) => .node s.nodeName x (Expression.optionalOutline condition)
  | s@(.selectRelated x _ _ _ chain condition) =>
    .node s.nodeName x (chain.map NavigationStep.outline ++ Expression.optionalOutline condition)
  | s@(.forEach x _ _ block) => .node s.nodeName x [block.outline]
  | s@(.whileLoop x condition block) => .node s.nodeName x [condition.outline, block.outline]
  | s@(.branch x condition block elifs none) =>
    .node s.nodeName x (condition.outline :: block.outline :: Elif.outlines elifs)
  | s@(.branch x condition block elifs (some otherwise)) =>
    .node s.nodeName x
      (condition.outline :: block.outline :: Elif.outlines elifs ++ [otherwise.outline])
  | s@(.generate x event target) =>
    .node s.nodeName x (Argument.outlines event.arguments ++ target.outlines)
  | s@(.createEvent x _ event target) =>
    .node s.nodeName x (Argument.outlines event.arguments ++ target.outlines)
  | s => .node s.nodeName s.extent []

def Block.outline : Block → Outline
  | .mk x statements => .node "Block" x (Statement.outlines statements)

def Statement.outlines : List Statement → List Outline
  | [] => []
  | s :: rest => s.outline :: Statement.outlines rest

def Elif.outlines : List Elif → List Outline
  | [] => []
  | .mk x condition block :: rest =>
    .node "ElifClause" x [condition.outline, block.outline] :: Elif.outlines rest

end

def Body.outline (b : Body) : Outline :=
  .node "Body" b.extent [b.block.outline]

/-! ## Rendering -/

/-- The line of one node: its name, where it begins, and the first line of its text. -/
def Outline.line (depth : Nat) (name : String) (extent : Extent) : String :=
  let indent := String.ofList (List.replicate (2 * depth) ' ')
  let text := String.ofList (Text.headline extent.text.toList)
  s!"{indent}{name} @{extent.start.line}:{extent.start.column} `{text}`\n"

mutual

/-- The lines of a node and its descendants, each level indented by two more blanks. -/
def Outline.render (depth : Nat) : Outline → String
  | .node name extent children => line depth name extent ++ renderAll (depth + 1) children

def Outline.renderAll (depth : Nat) : List Outline → String
  | [] => ""
  | o :: rest => o.render depth ++ renderAll depth rest

end

def Body.dump (b : Body) : String := b.outline.render 0

end ObjectAction
