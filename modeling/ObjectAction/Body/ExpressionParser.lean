/-
Expressions, by precedence from low to high: `or`, `and`, comparisons that do not chain, sums,
products, prefix operators, and selections by `.` and `[ ]`.

Every level is built from a parser `inner` for the expressions inside parentheses, brackets and
arguments. Each of these begins at least one token later than the expression around it, so the
nesting is bounded by the number of tokens.
-/
import ObjectAction.Body.Stream

namespace ObjectAction.Parser

open Text (Mark)

/-! ## Arguments -/

/-- The arguments up to the closing parenthesis, at least one and at most `n`. -/
def argumentsUpTo (inner : Parser Expression) : Nat → Parser (List Argument)
  | 0 => fail "parameter name"
  | n + 1 => do
    let start ← mark
    let parameter ← name "parameter name"
    expectSymbol .colon "':'"
    let value ← inner
    let argument := Argument.mk (← extentFrom start) parameter value
    if ← eatSymbol .comma then
      return argument :: (← argumentsUpTo inner n)
    else
      expectSymbol .rightParen "',' or ')'"
      return [argument]

/-- A parenthesised list of named arguments. -/
def arguments (inner : Parser Expression) : Parser (List Argument) := do
  expectSymbol .leftParen "'('"
  if ← eatSymbol .rightParen then return []
  argumentsUpTo inner (← remaining)

/-! ## Primary expressions -/

/-- A literal, an access, an invocation of a function or an owner's operation, or an expression in
parentheses, which keeps its own extent. -/
def primary (inner : Parser Expression) : Parser Expression := do
  let start ← mark
  match ← kind with
  | .integer n =>
    advance
    return .integer (← extentFrom start) n
  | .real x =>
    advance
    return .real (← extentFrom start) x
  | .string content =>
    advance
    return .string (← extentFrom start) content
  | .keyword .«true» =>
    advance
    return .boolean (← extentFrom start) true
  | .keyword .«false» =>
    advance
    return .boolean (← extentFrom start) false
  | .keyword .self =>
    advance
    return .self (← extentFrom start)
  | .keyword .selected =>
    advance
    return .selected (← extentFrom start)
  | .keyword .param =>
    advance
    expectSymbol .dot "'.'"
    let parameter ← name "parameter name"
    return .parameter (← extentFrom start) parameter false
  | .keyword .receivedEvent =>
    advance
    expectSymbol .dot "'.'"
    let parameter ← name "parameter name"
    return .parameter (← extentFrom start) parameter true
  | .symbol .leftParen =>
    advance
    let expression ← inner
    expectSymbol .rightParen "')'"
    return expression
  | .symbol .doubleColon =>
    advance
    let function ← name "function name"
    let args ← arguments inner
    return .invoke (← extentFrom start) .function function args
  | .qualifier owner =>
    advance
    let member ← name "name"
    if isSymbol .leftParen (← kind) then
      let args ← arguments inner
      return .invoke (← extentFrom start) (.unmarked owner) member args
    else
      return .enumerator (← extentFrom start) owner member
  | _ =>
    let variableName ← name "expression"
    return .var (← extentFrom start) variableName

/-! ## Attributes, operations and indices -/

/-- Goes on from an expression that began at `start` with at most `n` selections. -/
def selections (inner : Parser Expression) (start : Mark) : Nat → Expression → Parser Expression
  | 0, e => return e
  | n + 1, e => do
    if ← eatSymbol .dot then
      let member ← name "attribute or operation name"
      if isSymbol .leftParen (← kind) then
        let args ← arguments inner
        selections inner start n (.invoke (← extentFrom start) (.receiver e) member args)
      else
        selections inner start n (.field (← extentFrom start) e member)
    else if ← eatSymbol .leftBracket then
      let position ← inner
      expectSymbol .rightBracket "']'"
      selections inner start n (.index (← extentFrom start) e position)
    else return e

/-- A primary expression and the selections after it. -/
def selection (inner : Parser Expression) : Parser Expression := do
  let start ← mark
  let e ← primary inner
  selections inner start (← remaining) e

/-! ## Operators -/

/-- The prefix operator that a keyword can be when an operand follows it. -/
def unaryKeyword : Keyword → Option UnaryOperator
  | .cardinality => some .cardinality
  | .empty => some .empty
  | .notEmpty => some .notEmpty
  | .first => some .first
  | .last => some .last
  | _ => none

/-- Whether a token can begin the operand of a prefix keyword. -/
def startsOperand : Token.Kind → Bool
  | .identifier _ | .qualifier _ | .integer _ | .real _ | .string _ => true
  | .symbol .doubleColon | .symbol .leftParen => true
  | .keyword k => !k.isReserved ||
    [Keyword.«true», .«false», .self, .selected, .param, .receivedEvent, .not].contains k
  | _ => false

/-- The prefix operator ahead. `empty` alone is a name, `empty x` is the operator. -/
def prefixOperator : Parser (Option UnaryOperator) := do
  match ← kind with
  | .symbol .minus => return some .minus
  | .symbol .plus => return some .plus
  | .keyword .not => return some .not
  | .keyword k => return if startsOperand (← kindAt 1) then unaryKeyword k else none
  | _ => return none

/-- At most `n` prefix operators and their operand. -/
def prefixed (inner : Parser Expression) : Nat → Parser Expression
  | 0 => selection inner
  | n + 1 => do
    let start ← mark
    match ← prefixOperator with
    | none => selection inner
    | some op =>
      advance
      let operand ← prefixed inner n
      return .unary (← extentFrom start) op operand

def unary (inner : Parser Expression) : Parser Expression := do
  prefixed inner (← remaining)

def productOperator : Token.Kind → Option BinaryOperator
  | .symbol .star => some .mul
  | .symbol .slash => some .div
  | .symbol .percent => some .rem
  | _ => none

def sumOperator : Token.Kind → Option BinaryOperator
  | .symbol .plus => some .add
  | .symbol .minus => some .sub
  | _ => none

def comparisonOperator : Token.Kind → Option BinaryOperator
  | .symbol .less => some .less
  | .symbol .lessEq => some .lessEq
  | .symbol .greater => some .greater
  | .symbol .greaterEq => some .greaterEq
  | .symbol .equalEqual => some .equal
  | .symbol .notEqual => some .notEqual
  | _ => none

def conjunctionOperator : Token.Kind → Option BinaryOperator
  | .keyword .and => some .and
  | _ => none

def disjunctionOperator : Token.Kind → Option BinaryOperator
  | .keyword .or => some .or
  | _ => none

/-- Goes on from a left operand that began at `start` with at most `n` operators of a level. -/
def operations (operator : Token.Kind → Option BinaryOperator) (operand : Parser Expression)
    (start : Mark) : Nat → Expression → Parser Expression
  | 0, left => return left
  | n + 1, left => do
    match operator (← kind) with
    | none => return left
    | some op =>
      advance
      let right ← operand
      operations operator operand start n (.binary (← extentFrom start) left op right)

/-- Operands joined by operators of one level, grouped to the left. -/
def leftAssociative (operator : Token.Kind → Option BinaryOperator) (operand : Parser Expression) :
    Parser Expression := do
  let start ← mark
  let left ← operand
  operations operator operand start (← remaining) left

/-- Two operands joined by one operator, or one operand; a second operator is refused. -/
def nonAssociative (operator : Token.Kind → Option BinaryOperator) (operand : Parser Expression) :
    Parser Expression := do
  let start ← mark
  let left ← operand
  match operator (← kind) with
  | none => return left
  | some op =>
    advance
    let right ← operand
    if (operator (← kind)).isSome then fail "end of comparison"
    return .binary (← extentFrom start) left op right

def product (inner : Parser Expression) : Parser Expression :=
  leftAssociative productOperator (unary inner)

def sum (inner : Parser Expression) : Parser Expression :=
  leftAssociative sumOperator (product inner)

def comparison (inner : Parser Expression) : Parser Expression :=
  nonAssociative comparisonOperator (sum inner)

def conjunction (inner : Parser Expression) : Parser Expression :=
  leftAssociative conjunctionOperator (comparison inner)

def disjunction (inner : Parser Expression) : Parser Expression :=
  leftAssociative disjunctionOperator (conjunction inner)

/-! ## Whole expressions -/

/-- An expression whose parts are nested less than `n` deep. -/
def expressionWithin : Nat → Parser Expression
  | 0 => fail "expression"
  | n + 1 => disjunction (expressionWithin n)

def expression : Parser Expression := do
  expressionWithin ((← remaining) + 1)

/-- A primary expression and its selections, as statements begin with one. -/
def operand : Parser Expression := selection expression

end ObjectAction.Parser
