/-
Statements, blocks and whole bodies. A keyword that is not reserved begins an expression statement
when `=`, `.` or `[` follows it: then it is a name.

Statements with blocks are built from a parser `inner` for the statements in these blocks. Each of
these begins at least one token later than the statement around it, so the nesting is bounded by the
number of tokens.
-/
import ObjectAction.Body.ExpressionParser

namespace ObjectAction.Parser

open Text (Mark)

/-- Builds a statement once its extent is known. -/
abbrev Form := Extent → Statement

/-! ## Assignments and invocations -/

/-- Fails unless `target` names a place that can be written. -/
def requireAssignable (target : Expression) : Parser Unit :=
  if target.isAssignable then return ()
  else throw ⟨s!"'{target.extent.text}'", "assignable expression", target.extent.start.line,
    target.extent.start.column⟩

/-- An assignment to an expression, or an invocation. -/
def expressionStatement : Parser Form := do
  let e ← operand
  if isSymbol .equal (← kind) then
    requireAssignable e
    advance
    let value ← expression
    semicolon
    return (.assign · e value)
  else if e.isInvocation then
    semicolon
    return (.invoke · e)
  else fail "'=' or an invocation"

/-- The target of an assignment with the `=` after it. -/
def assignmentTarget : Parser Expression := do
  let target ← operand
  requireAssignable target
  expectSymbol .equal "'='"
  return target

/-- What follows `assign`. -/
def assignment : Parser Form := do
  let target ← assignmentTarget
  let value ← expression
  semicolon
  return (.assign · target value)

/-- An owner's operation with its arguments, where a marker told what the owner is. -/
def markedInvocation (callee : String → Callee) : Parser Expression := do
  let start ← mark
  match ← kind with
  | .qualifier owner =>
    advance
    let operation ← name "operation name"
    let args ← arguments expression
    return .invoke (← extentFrom start) (callee owner) operation args
  | _ => fail "'Namespace::'"

/-- What follows `bridge`, `transform` or `send`: an invocation, or an assignment of its value. -/
def markedStatement (callee : String → Callee) : Parser Form := do
  match ← kind with
  | .qualifier _ =>
    let invocation ← markedInvocation callee
    semicolon
    return (.invoke · invocation)
  | _ =>
    let target ← assignmentTarget
    let invocation ← markedInvocation callee
    semicolon
    return (.assign · target invocation)

/-! ## Relationships and selections -/

/-- A relationship id with an optional phrase after a point. -/
def relationship : Parser Relationship := do
  let id ← name "relationship id"
  match ← kind, ← kindAt 1 with
  | .symbol .dot, .phrase phrase =>
    advance
    advance
    return ⟨id, some phrase⟩
  | _, _ => return ⟨id, none⟩

/-- The relationship, the optional link instance and the end of a `relate` or `unrelate`. -/
def across : Parser (Relationship × Option String) := do
  expectKeyword .across "'across'"
  let rel ← relationship
  let link ← if ← eatKeyword .«using» then some <$> name "link variable" else pure none
  semicolon
  return (rel, link)

/-- What follows `relate`. -/
def relate : Parser Form := do
  let source ← name "variable name"
  expectKeyword .«to» "'to'"
  let target ← name "variable name"
  let (rel, link) ← across
  return (.relate · source target rel link)

/-- What follows `unrelate`. -/
def unrelate : Parser Form := do
  let source ← name "variable name"
  expectKeyword .«from» "'from'"
  let target ← name "variable name"
  let (rel, link) ← across
  return (.unrelate · source target rel link)

/-- An optional condition on the candidates of a selection. -/
def condition : Parser (Option Expression) := do
  if ← eatKeyword .«where» then some <$> expression else return none

def navigationStart : Parser NavigationStart := do
  if ← eatKeyword .self then return .self
  else if ← eatKeyword .selected then return .selected
  else return .var (← name "navigation start")

/-- What follows the arrow that began at `start`. -/
def navigationStep (start : Mark) : Parser NavigationStep := do
  let className ← name "class name"
  expectSymbol .leftBracket "'['"
  let rel ← relationship
  expectSymbol .rightBracket "']'"
  return ⟨← extentFrom start, className, rel⟩

/-- At most `n` further steps. -/
def navigationSteps : Nat → Parser (List NavigationStep)
  | 0 => return []
  | n + 1 => do
    let start ← mark
    if ← eatSymbol .arrow then
      let step ← navigationStep start
      return step :: (← navigationSteps n)
    else return []

/-- At least one step. -/
def navigationChain : Parser (List NavigationStep) := do
  let start ← mark
  expectSymbol .arrow "'->'"
  let step ← navigationStep start
  return step :: (← navigationSteps (← remaining))

def cardinality : Parser Cardinality := do
  if ← eatKeyword .one then return .one
  else if ← eatKeyword .any then return .any
  else if ← eatKeyword .many then return .many
  else fail "'one', 'any' or 'many'"

/-- What follows `select`. Instances of a class are selected by `any` or `many` only. -/
def select : Parser Form := do
  let first := (← get).current
  let card ← cardinality
  let result ← name "variable name"
  if ← eatKeyword .«from» then
    if card = .one then failAt first "'any' or 'many'"
    expectKeyword .instances "'instances'"
    expectKeyword .of "'of'"
    let className ← name "class name"
    let filter ← condition
    semicolon
    return (.selectFrom · card result className filter)
  else
    expectKeyword .related "'from' or 'related'"
    expectKeyword .«by» "'by'"
    let start ← navigationStart
    let chain ← navigationChain
    let filter ← condition
    semicolon
    return (.selectRelated · card result start chain filter)

/-! ## Instances and events -/

/-- What follows `create object`. With `of`, a name and the end of the statement right ahead, the
instance is not bound to a variable. -/
def createInstance : Parser Form := do
  expectKeyword .«instance» "'instance'"
  let unbound := isKeyword .of (← kind) && isName (← kindAt 1) && isSymbol .semicolon (← kindAt 2)
  let result ← if unbound then pure none else some <$> name "variable name"
  expectKeyword .of "'of'"
  let className ← name "class name"
  semicolon
  return (.create · result className)

/-- What follows `delete`. -/
def delete : Parser Form := do
  expectKeyword .object "'object'"
  expectKeyword .«instance» "'instance'"
  let instanceName ← name "variable name"
  semicolon
  return (.delete · instanceName)

/-- The meaning after the label of an event, if a colon follows. -/
def eventMeaning : Parser (Option String) := do
  if ← eatSymbol .colon then
    match ← kind with
    | .phrase phrase =>
      advance
      return some phrase
    | _ => return some (← name "event meaning")
  else return none

def eventSpec : Parser EventSpec := do
  let label ← name "event label"
  let meaning ← eventMeaning
  let args ← if isSymbol .leftParen (← kind) then arguments expression else pure []
  return ⟨label, meaning, args⟩

def eventTarget : Parser EventTarget := do
  match isName (← kind), ← kindAt 1 with
  | true, .keyword .«class» =>
    let className ← name "class name"
    advance
    return .ofClass className
  | true, .keyword .creator =>
    let className ← name "class name"
    advance
    return .creator className
  | _, _ => return .receiver (← expression)

/-- An event and where it goes. -/
def addressedEvent : Parser (EventSpec × EventTarget) := do
  let event ← eventSpec
  expectKeyword .«to» "'to'"
  let target ← eventTarget
  semicolon
  return (event, target)

/-- What follows `create event`. -/
def createEvent : Parser Form := do
  expectKeyword .«instance» "'instance'"
  let result ← name "variable name"
  expectKeyword .of "'of'"
  let (event, target) ← addressedEvent
  return (.createEvent · result event target)

/-- What follows `create`. -/
def create : Parser Form := do
  if ← eatKeyword .object then createInstance
  else
    expectKeyword .event "'object' or 'event'"
    createEvent

/-- What follows `generate`: a name alone is an event created before. -/
def generate : Parser Form := do
  if isName (← kind) && isSymbol .semicolon (← kindAt 1) then
    let event ← name "event variable"
    semicolon
    return (.generateCreated · event)
  else
    let (event, target) ← addressedEvent
    return (.generate · event target)

/-- What follows `return`. -/
def returnValue : Parser Form := do
  if ← eatSymbol .semicolon then return (.returnValue · none)
  else
    let value ← expression
    semicolon
    return (.returnValue · (some value))

/-! ## Blocks -/

/-- Whether a token ends a block with these terminators; the end of input ends every block. -/
def endsBlock (terminators : List Keyword) : Token.Kind → Bool
  | .endOfInput => true
  | .keyword k => terminators.contains k
  | _ => false

/-- The statements up to a terminator, in at most `n` tokens or statements. Semicolons between
statements are skipped. -/
def statementsUpTo (inner : Parser Statement) (terminators : List Keyword) :
    Nat → Parser (List Statement)
  | 0 => return []
  | n + 1 => do
    if endsBlock terminators (← kind) then return []
    else if ← eatSymbol .semicolon then statementsUpTo inner terminators n
    else
      let statement ← inner
      return statement :: (← statementsUpTo inner terminators n)

def block (inner : Parser Statement) (terminators : List Keyword) : Parser Block := do
  let start ← mark
  let statements ← statementsUpTo inner terminators (← remaining)
  return .mk (← extentFrom start) statements

/-- What ends the block of an `if` or `elif`. -/
def branchEnds : List Keyword := [.elif, .«else», .endIf]

/-- At most `n` clauses `elif`. -/
def elifs (inner : Parser Statement) : Nat → Parser (List Elif)
  | 0 => return []
  | n + 1 => do
    let start ← mark
    if ← eatKeyword .elif then
      let test ← expression
      let body ← block inner branchEnds
      let clause := Elif.mk (← extentFrom start) test body
      return clause :: (← elifs inner n)
    else return []

/-- What follows `if`. -/
def branch (inner : Parser Statement) : Parser Form := do
  let test ← expression
  let body ← block inner branchEnds
  let clauses ← elifs inner (← remaining)
  let otherwise ← if ← eatKeyword .«else» then some <$> block inner [.endIf] else pure none
  expectKeyword .endIf "'end if'"
  semicolon
  return (.branch · test body clauses otherwise)

/-- What follows `for`. -/
def forEach (inner : Parser Statement) : Parser Form := do
  expectKeyword .each "'each'"
  let item ← name "loop variable"
  expectKeyword .«in» "'in'"
  let set ← name "set variable"
  let body ← block inner [.endFor]
  expectKeyword .endFor "'end for'"
  semicolon
  return (.forEach · item set body)

/-- What follows `while`. -/
def whileLoop (inner : Parser Statement) : Parser Form := do
  let test ← expression
  let body ← block inner [.endWhile]
  expectKeyword .endWhile "'end while'"
  semicolon
  return (.whileLoop · test body)

/-! ## Statements -/

/-- What follows the keyword of a statement, for the keywords that begin one. -/
def keywordForm (inner : Parser Statement) : Keyword → Option (Parser Form)
  | .«break» => some do
    semicolon
    return (.breakLoop ·)
  | .«continue» => some do
    semicolon
    return (.continueLoop ·)
  | .control => some do
    expectKeyword .stop "'stop'"
    semicolon
    return (.stop ·)
  | .«return» => some returnValue
  | .assign => some assignment
  | .bridge => some (markedStatement .bridge)
  | .transform => some (markedStatement .ofClass)
  | .send => some (markedStatement .port)
  | .create => some create
  | .delete => some delete
  | .relate => some relate
  | .unrelate => some unrelate
  | .select => some select
  | .«for» => some (forEach inner)
  | .«while» => some (whileLoop inner)
  | .«if» => some (branch inner)
  | .generate => some generate
  | _ => none

/-- Whether a keyword is used as a name, by the token after it. -/
def followsName : Token.Kind → Bool
  | .symbol .equal | .symbol .dot | .symbol .leftBracket => true
  | _ => false

/-- The part of a statement that follows its extent. -/
def form (inner : Parser Statement) : Parser Form := do
  match ← kind with
  | .keyword k =>
    if !k.isReserved && followsName (← kindAt 1) then expressionStatement
    else match keywordForm inner k with
      | some rest =>
        advance
        rest
      | none => expressionStatement
  | _ => expressionStatement

def statement (inner : Parser Statement) : Parser Statement := do
  let start ← mark
  let build ← form inner
  return build (← extentFrom start)

/-- A statement whose blocks are nested less than `n` deep. -/
def statementWithin : Nat → Parser Statement
  | 0 => fail "statement"
  | n + 1 => statement (statementWithin n)

/-- All statements up to the end of input. -/
def body : Parser Body := do
  let inner := statementWithin ((← remaining) + 1)
  let whole ← block inner []
  return ⟨whole.extent, whole⟩

end ObjectAction.Parser

namespace ObjectAction

/-- The body that a list of tokens of `source` spells, which ends in the end of input. -/
def parseTokens (source : String) (tokens : List Token) : Except SyntaxError Body :=
  Parser.body.run' (Stream.ofTokens source.toList tokens)

/-- The body that a text spells; a line end is added to it. -/
def parse (text : String) : Except SyntaxError Body :=
  parseTokens (text ++ "\n") (tokenize (text ++ "\n")).tokens

end ObjectAction
