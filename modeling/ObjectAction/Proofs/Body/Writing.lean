/-
Writing a body: the lexemes that its tree is spelled with, in the order of the grammar, joined by
blanks. An operand stands in parentheses where its operator binds more loosely than the place asks
for, where a prefix keyword would else be read as a name because a sign follows it, and where the
target of a marked assignment would else begin with the qualifier of an invocation. Conditions of
`if`, `elif` and `while` and the instances that events go to always stand in parentheses.

Two trees that differ only in where their nodes stand are equal without extents: `bare`.
-/
import ObjectAction.Body.StatementParser
import ObjectAction.Proofs.Body.Lexeme

namespace ObjectAction

open Lexeme

/-! ## Trees without extents -/

/-- The extent of a node that stands nowhere. -/
def Extent.nowhere : Extent := ⟨.start, .start, ""⟩

mutual

def Expression.bare : Expression → Expression
  | .integer _ n => .integer .nowhere n
  | .real _ x => .real .nowhere x
  | .string _ content => .string .nowhere content
  | .boolean _ b => .boolean .nowhere b
  | .enumerator _ enumeration name => .enumerator .nowhere enumeration name
  | .self _ => .self .nowhere
  | .selected _ => .selected .nowhere
  | .parameter _ name ofEvent => .parameter .nowhere name ofEvent
  | .var _ name => .var .nowhere name
  | .field _ target name => .field .nowhere target.bare name
  | .index _ target position => .index .nowhere target.bare position.bare
  | .unary _ op operand => .unary .nowhere op operand.bare
  | .binary _ left op right => .binary .nowhere left.bare op right.bare
  | .invoke _ callee name arguments => .invoke .nowhere callee.bare name (Argument.bareAll arguments)

def Callee.bare : Callee → Callee
  | .function => .function
  | .unmarked owner => .unmarked owner
  | .bridge entity => .bridge entity
  | .ofClass className => .ofClass className
  | .port port => .port port
  | .receiver target => .receiver target.bare

def Argument.bareAll : List Argument → List Argument
  | [] => []
  | .mk _ name value :: rest => .mk .nowhere name value.bare :: Argument.bareAll rest

end

def NavigationStep.bare (s : NavigationStep) : NavigationStep := { s with extent := .nowhere }

def EventSpec.bare (s : EventSpec) : EventSpec := { s with arguments := Argument.bareAll s.arguments }

def EventTarget.bare : EventTarget → EventTarget
  | .ofClass className => .ofClass className
  | .creator className => .creator className
  | .receiver target => .receiver target.bare

mutual

def Statement.bare : Statement → Statement
  | .breakLoop _ => .breakLoop .nowhere
  | .continueLoop _ => .continueLoop .nowhere
  | .stop _ => .stop .nowhere
  | .returnValue _ value => .returnValue .nowhere (value.map Expression.bare)
  | .assign _ target value => .assign .nowhere target.bare value.bare
  | .invoke _ invocation => .invoke .nowhere invocation.bare
  | .create _ name className => .create .nowhere name className
  | .delete _ name => .delete .nowhere name
  | .relate _ source target relationship link => .relate .nowhere source target relationship link
  | .unrelate _ source target relationship link => .unrelate .nowhere source target relationship link
  | .selectFrom _ cardinality name className condition =>
    .selectFrom .nowhere cardinality name className (condition.map Expression.bare)
  | .selectRelated _ cardinality name start chain condition =>
    .selectRelated .nowhere cardinality name start (chain.map NavigationStep.bare)
      (condition.map Expression.bare)
  | .forEach _ item set block => .forEach .nowhere item set block.bare
  | .whileLoop _ condition block => .whileLoop .nowhere condition.bare block.bare
  | .branch _ condition block elifs none =>
    .branch .nowhere condition.bare block.bare (Elif.bareAll elifs) none
  | .branch _ condition block elifs (some otherwise) =>
    .branch .nowhere condition.bare block.bare (Elif.bareAll elifs) (some otherwise.bare)
  | .generate _ event target => .generate .nowhere event.bare target.bare
  | .createEvent _ name event target => .createEvent .nowhere name event.bare target.bare
  | .generateCreated _ name => .generateCreated .nowhere name

def Block.bare : Block → Block
  | .mk _ statements => .mk .nowhere (Statement.bareAll statements)

def Statement.bareAll : List Statement → List Statement
  | [] => []
  | s :: rest => s.bare :: Statement.bareAll rest

def Elif.bareAll : List Elif → List Elif
  | [] => []
  | .mk _ condition block :: rest => .mk .nowhere condition.bare block.bare :: Elif.bareAll rest

end

def Body.bare (b : Body) : Body := ⟨.nowhere, b.block.bare⟩

/-! ## Levels -/

/-- How tightly an operator binds: the looser, the lower. -/
def BinaryOperator.level : BinaryOperator → Nat
  | or => 0
  | and => 1
  | less | lessEq | greater | greaterEq | equal | notEqual => 2
  | add | sub => 3
  | mul | div | rem => 4

/-- The level that the left operand has to have at least: comparisons do not chain, all other
operators group to the left. -/
def BinaryOperator.leftLevel (op : BinaryOperator) : Nat :=
  if op.level = 2 then 3 else op.level

/-- The level of the outermost operator: 5 is the one of prefix operators, 6 the one of selections
and of what has no operator. -/
def Expression.level : Expression → Nat
  | .binary _ _ op _ => op.level
  | .unary _ _ _ => 5
  | _ => 6

/-- Whether the operator is a keyword that is also a name. -/
def UnaryOperator.isWord : UnaryOperator → Bool
  | minus | plus | not => false
  | cardinality | empty | notEmpty | first | last => true

/-- Whether the expression begins with a sign. -/
def Expression.isSigned : Expression → Bool
  | .unary _ .minus _ | .unary _ .plus _ => true
  | _ => false

/-- The level that the operand of a prefix operator has to have at least. -/
def UnaryOperator.operandLevel (op : UnaryOperator) (operand : Expression) : Nat :=
  if op.isWord && operand.isSigned then 6 else 5

/-! ## Lexemes of expressions -/

def UnaryOperator.lexeme : UnaryOperator → Lexeme
  | minus => .symbol .minus
  | plus => .symbol .plus
  | not => .keyword .not
  | cardinality => .keyword .cardinality
  | empty => .keyword .empty
  | notEmpty => .keyword .notEmpty
  | first => .keyword .first
  | last => .keyword .last

def BinaryOperator.lexeme : BinaryOperator → Lexeme
  | add => .symbol .plus
  | sub => .symbol .minus
  | mul => .symbol .star
  | div => .symbol .slash
  | rem => .symbol .percent
  | less => .symbol .less
  | lessEq => .symbol .lessEq
  | greater => .symbol .greater
  | greaterEq => .symbol .greaterEq
  | equal => .symbol .equalEqual
  | notEqual => .symbol .notEqual
  | and => .keyword .and
  | or => .keyword .or

/-- Lexemes between parentheses. -/
def Lexeme.enclosed (ls : List Lexeme) : List Lexeme :=
  .symbol .leftParen :: ls ++ [.symbol .rightParen]

/-- Lexemes between parentheses if that is asked for. -/
def Lexeme.enclosedIf (asked : Bool) (ls : List Lexeme) : List Lexeme :=
  if asked then enclosed ls else ls

mutual

def Expression.lexemes : Expression → List Lexeme
  | .integer _ n => [.integer n]
  | .real _ x => [⟨.real x, Number.Layout.value.write x⟩]
  | .string _ content => [.string content]
  | .boolean _ b => [.keyword (if b then .«true» else .«false»)]
  | .enumerator _ enumeration name => [.qualifier enumeration, .name name]
  | .self _ => [.keyword .self]
  | .selected _ => [.keyword .selected]
  | .parameter _ name ofEvent =>
    [.keyword (if ofEvent then .receivedEvent else .param), .symbol .dot, .name name]
  | .var _ name => [.name name]
  | .field _ target name => enclosedIf (target.level < 6) target.lexemes ++ [.symbol .dot, .name name]
  | .index _ target position =>
    enclosedIf (target.level < 6) target.lexemes ++
      .symbol .leftBracket :: position.lexemes ++ [.symbol .rightBracket]
  | .unary _ op operand =>
    op.lexeme :: enclosedIf (operand.level < op.operandLevel operand) operand.lexemes
  | .binary _ left op right =>
    enclosedIf (left.level < op.leftLevel) left.lexemes ++
      op.lexeme :: enclosedIf (right.level < op.level + 1) right.lexemes
  | .invoke _ callee name arguments =>
    callee.lexemes ++ .name name :: .symbol .leftParen :: Argument.lexemes arguments

/-- What stands before the name of the operation; markers stand before the statement. -/
def Callee.lexemes : Callee → List Lexeme
  | .function => [.symbol .doubleColon]
  | .unmarked owner => [.qualifier owner]
  | .bridge entity => [.qualifier entity]
  | .ofClass className => [.qualifier className]
  | .port port => [.qualifier port]
  | .receiver target => enclosedIf (target.level < 6) target.lexemes ++ [.symbol .dot]

/-- Arguments with commas between them and the closing parenthesis. -/
def Argument.lexemes : List Argument → List Lexeme
  | [] => [.symbol .rightParen]
  | .mk _ name value :: rest =>
    .name name :: .symbol .colon :: value.lexemes ++
      if rest.isEmpty then [.symbol .rightParen] else .symbol .comma :: Argument.lexemes rest

end

/-- The lexemes of an expression in a place that asks for a level. -/
def Expression.lexemesAt (n : Nat) (e : Expression) : List Lexeme :=
  enclosedIf (e.level < n) e.lexemes

/-! ## Lexemes of statements -/

def Relationship.lexemes (r : Relationship) : List Lexeme :=
  .name r.id :: match r.phrase with
    | none => []
    | some p => [.symbol .dot, .phrase p]

/-- The rest of a `relate` or `unrelate` from `across` on. -/
def Relationship.acrossLexemes (r : Relationship) (link : Option String) : List Lexeme :=
  .keyword .across :: r.lexemes ++ (match link with
    | none => []
    | some l => [.keyword .«using», .name l]) ++ [.symbol .semicolon]

def Cardinality.lexeme : Cardinality → Lexeme
  | one => .keyword .one
  | any => .keyword .any
  | many => .keyword .many

def NavigationStart.lexeme : NavigationStart → Lexeme
  | self => .keyword .self
  | selected => .keyword .selected
  | var name => .name name

def NavigationStep.lexemes (s : NavigationStep) : List Lexeme :=
  .symbol .arrow :: .name s.className :: .symbol .leftBracket :: s.relationship.lexemes ++ [.symbol .rightBracket]

/-- The condition of a selection and the end of the statement. -/
def Expression.conditionLexemes : Option Expression → List Lexeme
  | none => [.symbol .semicolon]
  | some e => .keyword .«where» :: e.lexemes ++ [.symbol .semicolon]

/-- A meaning that is a name is written as one, any other as a phrase. -/
def EventSpec.meaningLexemes : Option String → List Lexeme
  | none => []
  | some m => [.symbol .colon, if isName m then .name m else .phrase m]

def EventSpec.lexemes (s : EventSpec) : List Lexeme :=
  .name s.label :: meaningLexemes s.meaning ++
    if s.arguments.isEmpty then [] else .symbol .leftParen :: Argument.lexemes s.arguments

def EventTarget.lexemes : EventTarget → List Lexeme
  | .ofClass className => [.name className, .keyword .«class»]
  | .creator className => [.name className, .keyword .creator]
  | .receiver target => enclosed target.lexemes

/-- An event, where it goes and the end of the statement. -/
def EventSpec.addressedLexemes (s : EventSpec) (target : EventTarget) : List Lexeme :=
  s.lexemes ++ .keyword .«to» :: target.lexemes ++ [.symbol .semicolon]

/-- The keyword before a statement that invokes an operation of a marked owner. -/
def Callee.marker : Callee → Option Keyword
  | .bridge _ => some .bridge
  | .ofClass _ => some .transform
  | .port _ => some .send
  | _ => none

def Expression.marker : Expression → Option Keyword
  | .invoke _ callee _ _ => callee.marker
  | _ => none

/-- Whether the lexemes begin with a qualifier. -/
def Lexeme.beginsQualified (ls : List Lexeme) : Bool :=
  match headKind ls with
  | .qualifier _ => true
  | _ => false

/-- The target of an assignment whose value has a marker: what it selects from stands in parentheses
if the target would else begin with a qualifier, since the marker's invocation begins with one. -/
def Expression.markedTargetLexemes (target : Expression) : List Lexeme :=
  if beginsQualified target.lexemes then
    match target with
    | .field _ t name => enclosed t.lexemes ++ [.symbol .dot, .name name]
    | .index _ t position =>
      enclosed t.lexemes ++ .symbol .leftBracket :: position.lexemes ++ [.symbol .rightBracket]
    | e => e.lexemes
  else target.lexemes

/-- An assignment, which the marker of its value goes before. -/
def Expression.assignLexemes (target value : Expression) : List Lexeme :=
  (match value.marker with
    | some k => .keyword k :: target.markedTargetLexemes
    | none => target.lexemes) ++
  .symbol .equal :: value.lexemes ++ [.symbol .semicolon]

mutual

def Statement.lexemes : Statement → List Lexeme
  | .breakLoop _ => [.keyword .«break», .symbol .semicolon]
  | .continueLoop _ => [.keyword .«continue», .symbol .semicolon]
  | .stop _ => [.keyword .control, .keyword .stop, .symbol .semicolon]
  | .returnValue _ none => [.keyword .«return», .symbol .semicolon]
  | .returnValue _ (some e) => .keyword .«return» :: e.lexemes ++ [.symbol .semicolon]
  | .assign _ target value => target.assignLexemes value
  | .invoke _ invocation =>
    (invocation.marker.toList.map .keyword) ++ invocation.lexemes ++ [.symbol .semicolon]
  | .create _ name className =>
    .keyword .create :: .keyword .object :: .keyword .«instance» ::
      (name.toList.map .name) ++ [.keyword .of, .name className, .symbol .semicolon]
  | .delete _ name =>
    [.keyword .delete, .keyword .object, .keyword .«instance», .name name, .symbol .semicolon]
  | .relate _ source target relationship link =>
    .keyword .relate :: .name source :: .keyword .«to» :: .name target :: relationship.acrossLexemes link
  | .unrelate _ source target relationship link =>
    .keyword .unrelate :: .name source :: .keyword .«from» :: .name target ::
      relationship.acrossLexemes link
  | .selectFrom _ cardinality name className condition =>
    .keyword .select :: cardinality.lexeme :: .name name :: .keyword .«from» :: .keyword .instances ::
      .keyword .of :: .name className :: Expression.conditionLexemes condition
  | .selectRelated _ cardinality name start chain condition =>
    .keyword .select :: cardinality.lexeme :: .name name :: .keyword .related :: .keyword .«by» ::
      start.lexeme :: chain.flatMap NavigationStep.lexemes ++ Expression.conditionLexemes condition
  | .forEach _ item set block =>
    .keyword .«for» :: .keyword .each :: .name item :: .keyword .«in» :: .name set ::
      block.lexemes ++ [.keyword .endFor, .symbol .semicolon]
  | .whileLoop _ condition block =>
    .keyword .«while» :: enclosed condition.lexemes ++ block.lexemes ++ [.keyword .endWhile, .symbol .semicolon]
  | .branch _ condition block elifs none =>
    .keyword .«if» :: enclosed condition.lexemes ++ block.lexemes ++ Elif.lexemes elifs ++
      [.keyword .endIf, .symbol .semicolon]
  | .branch _ condition block elifs (some otherwise) =>
    .keyword .«if» :: enclosed condition.lexemes ++ block.lexemes ++ Elif.lexemes elifs ++
      .keyword .«else» :: otherwise.lexemes ++ [.keyword .endIf, .symbol .semicolon]
  | .generate _ event target => .keyword .generate :: event.addressedLexemes target
  | .createEvent _ name event target =>
    .keyword .create :: .keyword .event :: .keyword .«instance» :: .name name :: .keyword .of ::
      event.addressedLexemes target
  | .generateCreated _ name => [.keyword .generate, .name name, .symbol .semicolon]

def Block.lexemes : Block → List Lexeme
  | .mk _ statements => Statement.lexemesOfAll statements

def Statement.lexemesOfAll : List Statement → List Lexeme
  | [] => []
  | s :: rest => s.lexemes ++ Statement.lexemesOfAll rest

def Elif.lexemes : List Elif → List Lexeme
  | [] => []
  | .mk _ condition block :: rest =>
    .keyword .elif :: enclosed condition.lexemes ++ block.lexemes ++ Elif.lexemes rest

end

/-- The text of a body: its lexemes with a blank between each two. -/
def Body.write (b : Body) : String := Lexeme.join b.block.lexemes

/-! ## Well-formed trees -/

/-- Whether a text can stand between these quotes. -/
def isQuotable (quote : Char) (content : String) : Bool :=
  content.toList.all fun c => c ≠ quote ∧ c ≠ '\n'

mutual

/-- Whether an expression can be written: names are names, no integer is negative, there is no real,
texts fit between their quotes, and no invocation has a marker. -/
def Expression.isWellFormed : Expression → Bool
  | .integer _ n => 0 ≤ n
  | .real _ _ => false
  | .string _ content => isQuotable '"' content
  | .boolean _ _ | .self _ | .selected _ => true
  | .enumerator _ enumeration name => isWord enumeration && isName name
  | .parameter _ name _ => isName name
  | .var _ name => isName name
  | .field _ target name => target.isWellFormed && isName name
  | .index _ target position => target.isWellFormed && position.isWellFormed
  | .unary _ _ operand => operand.isWellFormed
  | .binary _ left _ right => left.isWellFormed && right.isWellFormed
  | .invoke _ callee name arguments =>
    callee.isWellFormed && isName name && Argument.areWellFormed arguments

def Callee.isWellFormed : Callee → Bool
  | .function => true
  | .unmarked owner => isWord owner
  | .receiver target => target.isWellFormed
  | .bridge _ | .ofClass _ | .port _ => false

def Argument.areWellFormed : List Argument → Bool
  | [] => true
  | .mk _ name value :: rest => isName name && value.isWellFormed && Argument.areWellFormed rest

end

/-- The owner in a marked callee. -/
def Callee.markedOwner : Callee → Option String
  | .bridge owner | .ofClass owner | .port owner => some owner
  | _ => none

/-- Whether an expression can be written where an invocation with a marker can stand too. -/
def Expression.isWellFormedOrMarked : Expression → Bool
  | .invoke x callee name arguments =>
    match callee.markedOwner with
    | some owner => isWord owner && isName name && Argument.areWellFormed arguments
    | none => (Expression.invoke x callee name arguments).isWellFormed
  | e => e.isWellFormed

def Relationship.isWellFormed (r : Relationship) : Bool :=
  isName r.id && r.phrase.all (isQuotable '\'')

def NavigationStart.isWellFormed : NavigationStart → Bool
  | self | selected => true
  | var name => isName name

def NavigationStep.isWellFormed (s : NavigationStep) : Bool :=
  isName s.className && s.relationship.isWellFormed

def EventSpec.isWellFormed (s : EventSpec) : Bool :=
  isName s.label && s.meaning.all (fun m => isName m || isQuotable '\'' m) && Argument.areWellFormed s.arguments

def EventTarget.isWellFormed : EventTarget → Bool
  | .ofClass className | .creator className => isName className
  | .receiver target => target.isWellFormed

mutual

/-- Whether a statement can be written: what is assigned to is a variable, a field or an index, what
is invoked is an invocation, instances of a class are not selected by `one`, and a navigation has a
step. -/
def Statement.isWellFormed : Statement → Bool
  | .breakLoop _ | .continueLoop _ | .stop _ => true
  | .returnValue _ value => value.all Expression.isWellFormed
  | .assign _ target value => target.isAssignable && target.isWellFormed && value.isWellFormedOrMarked
  | .invoke _ invocation => invocation.isInvocation && invocation.isWellFormedOrMarked
  | .create _ name className => name.all isName && isName className
  | .delete _ name => isName name
  | .relate _ source target relationship link =>
    isName source && isName target && relationship.isWellFormed && link.all isName
  | .unrelate _ source target relationship link =>
    isName source && isName target && relationship.isWellFormed && link.all isName
  | .selectFrom _ cardinality name className condition =>
    cardinality ≠ .one && isName name && isName className && condition.all Expression.isWellFormed
  | .selectRelated _ _ name start chain condition =>
    isName name && start.isWellFormed && !chain.isEmpty && chain.all NavigationStep.isWellFormed &&
      condition.all Expression.isWellFormed
  | .forEach _ item set block => isName item && isName set && block.isWellFormed
  | .whileLoop _ condition block => condition.isWellFormed && block.isWellFormed
  | .branch _ condition block elifs none =>
    condition.isWellFormed && block.isWellFormed && Elif.areWellFormed elifs
  | .branch _ condition block elifs (some otherwise) =>
    condition.isWellFormed && block.isWellFormed && Elif.areWellFormed elifs && otherwise.isWellFormed
  | .generate _ event target => event.isWellFormed && target.isWellFormed
  | .createEvent _ name event target => isName name && event.isWellFormed && target.isWellFormed
  | .generateCreated _ name => isName name

def Block.isWellFormed : Block → Bool
  | .mk _ statements => Statement.areWellFormed statements

def Statement.areWellFormed : List Statement → Bool
  | [] => true
  | s :: rest => s.isWellFormed && Statement.areWellFormed rest

def Elif.areWellFormed : List Elif → Bool
  | [] => true
  | .mk _ condition block :: rest =>
    condition.isWellFormed && block.isWellFormed && Elif.areWellFormed rest

end

def Body.isWellFormed (b : Body) : Bool := b.block.isWellFormed

end ObjectAction
