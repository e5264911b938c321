/-
The grammar of action bodies, as a relation between trees and words of terminals: one production for each
form of a tree. Where nodes stand in the source plays no part in it.

The places of an expression ask for a level, by which operators group and comparisons do not chain. The only
terminals that leave no trace in a tree are the ones of `Expression.Derives.enclosed`, of an `assign` before
an assignment, of an event's empty argument list and of a semicolon between statements.
-/
import ObjectAction.Proofs.Body.Writing

namespace ObjectAction

/-! ## Terminals -/

/-- The source text that a token covers. -/
def Token.sourceText (source : List Char) (t : Token) : String :=
  String.ofList (Text.slice source t.start.offset t.stop.offset)

/-- What a production asks for in one place. -/
inductive Terminal where
  /-- A token of this kind. -/
  | kind (k : Token.Kind)
  /-- A word with this spelling that is not reserved. -/
  | name (w : String)

namespace Terminal

def keyword (k : Keyword) : Terminal := .kind (.keyword k)

def symbol (s : Symbol) : Terminal := .kind (.symbol s)

def qualifier (owner : String) : Terminal := .kind (.qualifier owner)

def phrase (content : String) : Terminal := .kind (.phrase content)

/-- Whether a token of `source` is what is asked for. -/
def Matches (source : List Char) : Terminal → Token → Prop
  | .kind k, t => t.kind = k
  | .name w, t => ((∃ n, t.kind = .identifier n) ∨ ∃ k, t.kind = .keyword k ∧ k ∉ Keyword.reserved) ∧
    t.sourceText source = w

/-- Whether a word begins with a sign. -/
def Signed (w : List Terminal) : Prop := w.head? = some (.symbol .minus) ∨ w.head? = some (.symbol .plus)

end Terminal

/-! ## Expressions -/

def UnaryOperator.terminal (op : UnaryOperator) : Terminal := .kind op.lexeme.kind

def BinaryOperator.terminal (op : BinaryOperator) : Terminal := .kind op.lexeme.kind

mutual

/-- The words of an expression in a place that asks for a level. -/
inductive Expression.Derives : Nat → Expression → List Terminal → Prop
  /-- What binds tightly can stand where less is asked for. -/
  | looser {n m : Nat} {e : Expression} {w : List Terminal} (h : n ≤ m) (he : e.Derives m w) : e.Derives n w
  | enclosed {e : Expression} {w : List Terminal} (he : e.Derives 0 w) :
    e.Derives 6 (.symbol .leftParen :: (w ++ [.symbol .rightParen]))
  | integer {x : Extent} {n : Int64} : (Expression.integer x n).Derives 6 [.kind (.integer n)]
  | real {x : Extent} {r : Float} : (Expression.real x r).Derives 6 [.kind (.real r)]
  | string {x : Extent} {content : String} : (Expression.string x content).Derives 6 [.kind (.string content)]
  | boolean {x : Extent} {b : Bool} :
    (Expression.boolean x b).Derives 6 [.keyword (if b then .«true» else .«false»)]
  | enumerator {x : Extent} {enumeration name : String} :
    (Expression.enumerator x enumeration name).Derives 6 [.qualifier enumeration, .name name]
  | self {x : Extent} : (Expression.self x).Derives 6 [.keyword .self]
  | selected {x : Extent} : (Expression.selected x).Derives 6 [.keyword .selected]
  | parameter {x : Extent} {name : String} {ofEvent : Bool} : (Expression.parameter x name ofEvent).Derives 6
    [.keyword (if ofEvent then .receivedEvent else .param), .symbol .dot, .name name]
  | var {x : Extent} {name : String} : (Expression.var x name).Derives 6 [.name name]
  | field {x : Extent} {target : Expression} {name : String} {w : List Terminal} (ht : target.Derives 6 w) :
    (Expression.field x target name).Derives 6 (w ++ [.symbol .dot, .name name])
  | index {x : Extent} {target position : Expression} {u w : List Terminal} (ht : target.Derives 6 u)
    (hp : position.Derives 0 w) : (Expression.index x target position).Derives 6
      (u ++ .symbol .leftBracket :: (w ++ [.symbol .rightBracket]))
  /-- After an operator that is also a name, a sign would belong to a sum. -/
  | unary {x : Extent} {op : UnaryOperator} {operand : Expression} {w : List Terminal} (h : operand.Derives 5 w)
    (hsign : op.isWord = true → ¬ Terminal.Signed w) : (Expression.unary x op operand).Derives 5 (op.terminal :: w)
  | binary {x : Extent} {left right : Expression} {op : BinaryOperator} {u w : List Terminal}
    (hl : left.Derives op.leftLevel u) (hr : right.Derives (op.level + 1) w) :
    (Expression.binary x left op right).Derives op.level (u ++ op.terminal :: w)
  | invoke {x : Extent} {callee : Callee} {name : String} {arguments : List Argument} {u w : List Terminal}
    (hc : callee.Derives u) (ha : Argument.DerivesList arguments w) :
    (Expression.invoke x callee name arguments).Derives 6 (u ++ .name name :: w)

/-- What stands before the name of an operation where there is no marker. -/
inductive Callee.Derives : Callee → List Terminal → Prop
  | function : Callee.function.Derives [.symbol .doubleColon]
  | unmarked {owner : String} : (Callee.unmarked owner).Derives [.qualifier owner]
  | receiver {target : Expression} {w : List Terminal} (ht : target.Derives 6 w) :
    (Callee.receiver target).Derives (w ++ [.symbol .dot])

inductive Argument.Derives : Argument → List Terminal → Prop
  | mk {x : Extent} {name : String} {value : Expression} {w : List Terminal} (hv : value.Derives 0 w) :
    (Argument.mk x name value).Derives (.name name :: .symbol .colon :: w)

/-- At least one argument, with commas between them and the closing parenthesis. -/
inductive Argument.DerivesUpTo : List Argument → List Terminal → Prop
  | last {a : Argument} {w : List Terminal} (ha : a.Derives w) :
    Argument.DerivesUpTo [a] (w ++ [.symbol .rightParen])
  | more {a : Argument} {rest : List Argument} {u w : List Terminal} (ha : a.Derives u)
    (hr : Argument.DerivesUpTo rest w) : Argument.DerivesUpTo (a :: rest) (u ++ .symbol .comma :: w)

/-- A list of arguments with its parentheses. -/
inductive Argument.DerivesList : List Argument → List Terminal → Prop
  | empty : Argument.DerivesList [] [.symbol .leftParen, .symbol .rightParen]
  | some {arguments : List Argument} {w : List Terminal} (h : Argument.DerivesUpTo arguments w) :
    Argument.DerivesList arguments (.symbol .leftParen :: w)

end

/-! ## Parts of statements -/

def Relationship.terminals (r : Relationship) : List Terminal :=
  .name r.id :: match r.phrase with
    | none => []
    | some p => [.symbol .dot, .phrase p]

/-- The relationship and the link of a `relate` or `unrelate`. -/
def Relationship.acrossTerminals (r : Relationship) (link : Option String) : List Terminal :=
  .keyword .across :: (r.terminals ++ match link with
    | none => []
    | some l => [.keyword .«using», .name l])

def Cardinality.terminal (c : Cardinality) : Terminal := .kind c.lexeme.kind

def NavigationStart.terminal : NavigationStart → Terminal
  | self => .keyword .self
  | selected => .keyword .selected
  | var name => .name name

def NavigationStep.terminals (s : NavigationStep) : List Terminal :=
  .symbol .arrow :: .name s.className :: .symbol .leftBracket ::
    (s.relationship.terminals ++ [.symbol .rightBracket])

/-- An optional condition. -/
inductive Expression.DerivesCondition : Option Expression → List Terminal → Prop
  | none : Expression.DerivesCondition none []
  | some {e : Expression} {w : List Terminal} (he : e.Derives 0 w) :
    Expression.DerivesCondition (some e) (.keyword .«where» :: w)

/-- An optional meaning: a name or a phrase. -/
inductive EventSpec.DerivesMeaning : Option String → List Terminal → Prop
  | none : EventSpec.DerivesMeaning none []
  | name {m : String} : EventSpec.DerivesMeaning (some m) [.symbol .colon, .name m]
  | phrase {m : String} : EventSpec.DerivesMeaning (some m) [.symbol .colon, .phrase m]

/-- An event without arguments needs no parentheses. -/
inductive EventSpec.DerivesArguments : List Argument → List Terminal → Prop
  | none : EventSpec.DerivesArguments [] []
  | list {arguments : List Argument} {w : List Terminal} (h : Argument.DerivesList arguments w) :
    EventSpec.DerivesArguments arguments w

inductive EventSpec.Derives : EventSpec → List Terminal → Prop
  | mk {label : String} {meaning : Option String} {arguments : List Argument} {u w : List Terminal}
    (hm : EventSpec.DerivesMeaning meaning u) (ha : EventSpec.DerivesArguments arguments w) :
    (EventSpec.mk label meaning arguments).Derives (.name label :: (u ++ w))

inductive EventTarget.Derives : EventTarget → List Terminal → Prop
  | ofClass {className : String} : (EventTarget.ofClass className).Derives [.name className, .keyword .«class»]
  | creator {className : String} : (EventTarget.creator className).Derives [.name className, .keyword .creator]
  | receiver {target : Expression} {w : List Terminal} (ht : target.Derives 0 w) :
    (EventTarget.receiver target).Derives w

/-- An invocation of a marked owner's operation. Its marker stands before the statement. -/
inductive Expression.DerivesMarked : Keyword → Expression → List Terminal → Prop
  | invoke {x : Extent} {k : Keyword} {callee : Callee} {owner name : String} {arguments : List Argument}
    {w : List Terminal} (hk : callee.marker = some k) (ho : callee.markedOwner = some owner)
    (ha : Argument.DerivesList arguments w) :
    Expression.DerivesMarked k (.invoke x callee name arguments) (.qualifier owner :: .name name :: w)

/-! ## Statements -/

mutual

inductive Statement.Derives : Statement → List Terminal → Prop
  | breakLoop {x : Extent} : (Statement.breakLoop x).Derives [.keyword .«break», .symbol .semicolon]
  | continueLoop {x : Extent} : (Statement.continueLoop x).Derives [.keyword .«continue», .symbol .semicolon]
  | stop {x : Extent} : (Statement.stop x).Derives [.keyword .control, .keyword .stop, .symbol .semicolon]
  | returnNothing {x : Extent} : (Statement.returnValue x none).Derives [.keyword .«return», .symbol .semicolon]
  | returnValue {x : Extent} {value : Expression} {w : List Terminal} (hv : value.Derives 0 w) :
    (Statement.returnValue x (some value)).Derives (.keyword .«return» :: (w ++ [.symbol .semicolon]))
  /-- Only variables, fields and indices are assigned to. -/
  | assign {x : Extent} {target value : Expression} {opening u w : List Terminal}
    (hopening : opening = [] ∨ opening = [.keyword .assign]) (hplace : target.isAssignable = true)
    (ht : target.Derives 6 u) (hv : value.Derives 0 w) :
    (Statement.assign x target value).Derives (opening ++ (u ++ .symbol .equal :: (w ++ [.symbol .semicolon])))
  /-- A qualifier right after a marker would belong to the invocation. -/
  | assignMarked {x : Extent} {k : Keyword} {target value : Expression} {u w : List Terminal}
    (hplace : target.isAssignable = true) (ht : target.Derives 6 u)
    (hfirst : ∀ owner, u.head? ≠ some (.qualifier owner)) (hv : Expression.DerivesMarked k value w) :
    (Statement.assign x target value).Derives
      (.keyword k :: (u ++ .symbol .equal :: (w ++ [.symbol .semicolon])))
  | invoke {x : Extent} {invocation : Expression} {w : List Terminal} (hinvoke : invocation.isInvocation = true)
    (hi : invocation.Derives 6 w) : (Statement.invoke x invocation).Derives (w ++ [.symbol .semicolon])
  | invokeMarked {x : Extent} {k : Keyword} {invocation : Expression} {w : List Terminal}
    (hi : Expression.DerivesMarked k invocation w) :
    (Statement.invoke x invocation).Derives (.keyword k :: (w ++ [.symbol .semicolon]))
  | create {x : Extent} {name : Option String} {className : String} : (Statement.create x name className).Derives
    (.keyword .create :: .keyword .object :: .keyword .«instance» ::
      (name.toList.map .name ++ [.keyword .of, .name className, .symbol .semicolon]))
  | delete {x : Extent} {name : String} : (Statement.delete x name).Derives
    [.keyword .delete, .keyword .object, .keyword .«instance», .name name, .symbol .semicolon]
  | relate {x : Extent} {source target : String} {relationship : Relationship} {link : Option String} :
    (Statement.relate x source target relationship link).Derives
      (.keyword .relate :: .name source :: .keyword .«to» :: .name target ::
        (relationship.acrossTerminals link ++ [.symbol .semicolon]))
  | unrelate {x : Extent} {source target : String} {relationship : Relationship} {link : Option String} :
    (Statement.unrelate x source target relationship link).Derives
      (.keyword .unrelate :: .name source :: .keyword .«from» :: .name target ::
        (relationship.acrossTerminals link ++ [.symbol .semicolon]))
  /-- Instances of a class are selected by `any` or `many`. -/
  | selectFrom {x : Extent} {cardinality : Cardinality} {name className : String} {condition : Option Expression}
    {w : List Terminal} (hone : cardinality ≠ .one) (hc : Expression.DerivesCondition condition w) :
    (Statement.selectFrom x cardinality name className condition).Derives
      (.keyword .select :: cardinality.terminal :: .name name :: .keyword .«from» :: .keyword .instances ::
        .keyword .of :: .name className :: (w ++ [.symbol .semicolon]))
  | selectRelated {x : Extent} {cardinality : Cardinality} {name : String} {start : NavigationStart}
    {chain : List NavigationStep} {condition : Option Expression} {w : List Terminal} (hchain : chain ≠ [])
    (hc : Expression.DerivesCondition condition w) :
    (Statement.selectRelated x cardinality name start chain condition).Derives
      (.keyword .select :: cardinality.terminal :: .name name :: .keyword .related :: .keyword .«by» ::
        start.terminal :: (chain.flatMap NavigationStep.terminals ++ (w ++ [.symbol .semicolon])))
  | forEach {x : Extent} {item set : String} {block : Block} {w : List Terminal} (hb : block.Derives w) :
    (Statement.forEach x item set block).Derives (.keyword .«for» :: .keyword .each :: .name item ::
      .keyword .«in» :: .name set :: (w ++ [.keyword .endFor, .symbol .semicolon]))
  | whileLoop {x : Extent} {condition : Expression} {block : Block} {u w : List Terminal}
    (hc : condition.Derives 0 u) (hb : block.Derives w) : (Statement.whileLoop x condition block).Derives
      (.keyword .«while» :: (u ++ (w ++ [.keyword .endWhile, .symbol .semicolon])))
  | branch {x : Extent} {condition : Expression} {block : Block} {elifs : List Elif} {otherwise : Option Block}
    {t u v w : List Terminal} (hc : condition.Derives 0 t) (hb : block.Derives u) (he : Elif.DerivesAll elifs v)
    (ho : Block.DerivesElse otherwise w) : (Statement.branch x condition block elifs otherwise).Derives
      (.keyword .«if» :: (t ++ (u ++ (v ++ (w ++ [.keyword .endIf, .symbol .semicolon])))))
  | generate {x : Extent} {event : EventSpec} {target : EventTarget} {u w : List Terminal} (he : event.Derives u)
    (ht : target.Derives w) : (Statement.generate x event target).Derives
      (.keyword .generate :: (u ++ .keyword .«to» :: (w ++ [.symbol .semicolon])))
  | createEvent {x : Extent} {name : String} {event : EventSpec} {target : EventTarget} {u w : List Terminal}
    (he : event.Derives u) (ht : target.Derives w) : (Statement.createEvent x name event target).Derives
      (.keyword .create :: .keyword .event :: .keyword .«instance» :: .name name :: .keyword .of ::
        (u ++ .keyword .«to» :: (w ++ [.symbol .semicolon])))
  | generateCreated {x : Extent} {name : String} : (Statement.generateCreated x name).Derives
    [.keyword .generate, .name name, .symbol .semicolon]

inductive Block.Derives : Block → List Terminal → Prop
  | mk {x : Extent} {statements : List Statement} {w : List Terminal} (h : Statement.DerivesAll statements w) :
    (Block.mk x statements).Derives w

/-- Statements one after another; further semicolons may stand before and after each. -/
inductive Statement.DerivesAll : List Statement → List Terminal → Prop
  | nil : Statement.DerivesAll [] []
  | semicolon {statements : List Statement} {w : List Terminal} (h : Statement.DerivesAll statements w) :
    Statement.DerivesAll statements (.symbol .semicolon :: w)
  | cons {s : Statement} {rest : List Statement} {u w : List Terminal} (hs : s.Derives u)
    (hr : Statement.DerivesAll rest w) : Statement.DerivesAll (s :: rest) (u ++ w)

inductive Elif.DerivesAll : List Elif → List Terminal → Prop
  | nil : Elif.DerivesAll [] []
  | cons {x : Extent} {condition : Expression} {block : Block} {rest : List Elif} {u v w : List Terminal}
    (hc : condition.Derives 0 u) (hb : block.Derives v) (hr : Elif.DerivesAll rest w) :
    Elif.DerivesAll (.mk x condition block :: rest) (.keyword .elif :: (u ++ (v ++ w)))

inductive Block.DerivesElse : Option Block → List Terminal → Prop
  | none : Block.DerivesElse none []
  | some {block : Block} {w : List Terminal} (hb : block.Derives w) :
    Block.DerivesElse (some block) (.keyword .«else» :: w)

end

/-- A body derives the words of its block. -/
def Body.Derives (b : Body) (w : List Terminal) : Prop := b.block.Derives w

theorem Statement.Derives.ne_nil {s : Statement} {w : List Terminal} (h : s.Derives w) : w ≠ [] := by
  cases h <;> simp

end ObjectAction
