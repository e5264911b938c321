/-
Token streams and the steps that every part of the parser is made of: look at the tokens ahead, take
one, or fail with what was expected. A stream ends in its end of input, which is never taken.
-/
import ObjectAction.Body.Tree
import ObjectAction.Token.Lexing

namespace ObjectAction

open Text (Mark)

/-- What stood where something else was expected. -/
structure SyntaxError where
  found : String
  expected : String
  line : Nat
  column : Nat
  deriving DecidableEq, Repr

def SyntaxError.message (e : SyntaxError) : String :=
  s!"Syntax error at line {e.line}, column {e.column}: expected {e.expected}, got {e.found}"

/-- The tokens not taken yet, without the end of input `final` that follows them, and the place
where the token taken last ended. -/
structure Stream where
  source : List Char
  previous : Mark
  tokens : List Token
  final : Token

namespace Stream

/-- All tokens of a source; the last one is its end of input. -/
def ofTokens (source : List Char) (tokens : List Token) : Stream :=
  ⟨source, ⟨0, 0, 0⟩, tokens.dropLast, tokens.getLast?.getD (Token.atEnd (Mark.start.past source))⟩

/-- The token ahead. -/
def current (s : Stream) : Token := s.tokens.head?.getD s.final

/-- The kind of the token `n` after the one ahead; the end of input goes on forever. -/
def kindAt (s : Stream) (n : Nat) : Token.Kind :=
  ((s.tokens[n]?).getD s.final).kind

/-- Takes the token ahead. -/
def tail (s : Stream) : Stream :=
  match s.tokens with
  | [] => s
  | t :: rest => { s with previous := t.stop, tokens := rest }

/-- The extent from `start` up to the token taken last; an empty one if none was taken since. -/
def extentFrom (s : Stream) (start : Mark) : Extent :=
  if start.offset < s.previous.offset then
    ⟨start, s.previous, String.ofList (Text.slice s.source start.offset s.previous.offset)⟩
  else ⟨start, start, ""⟩

end Stream

/-- Takes tokens from a stream and makes something of them, or fails. -/
abbrev Parser (α : Type) := StateT Stream (Except SyntaxError) α

namespace Parser

/-- The number of tokens ahead, which bounds every repetition. -/
def remaining : Parser Nat := return (← get).tokens.length

/-- The kind of the token ahead. -/
def kind : Parser Token.Kind := return (← get).current.kind

/-- The kind of the token `n` after the one ahead. -/
def kindAt (n : Nat) : Parser Token.Kind := return (← get).kindAt n

/-- The place where the token ahead begins. -/
def mark : Parser Mark := return (← get).current.start

/-- The extent from `start` up to the token taken last. -/
def extentFrom (start : Mark) : Parser Extent := return (← get).extentFrom start

/-- Takes the token ahead. -/
def advance : Parser Unit := modify Stream.tail

/-- Fails at a given token. -/
def failAt {α : Type} (t : Token) (expected : String) : Parser α :=
  throw ⟨t.kind.text, expected, t.start.line, t.start.column⟩

/-- Fails at the token ahead. -/
def fail {α : Type} (expected : String) : Parser α := do
  failAt (← get).current expected

/-! ## Keywords and symbols -/

/-- Whether a token is the keyword `k`. -/
def isKeyword (k : Keyword) : Token.Kind → Bool
  | .keyword k' => k' = k
  | _ => false

/-- Whether a token is the symbol `s`. -/
def isSymbol (s : Symbol) : Token.Kind → Bool
  | .symbol s' => s' = s
  | _ => false

/-- Takes the token ahead if it satisfies `p`. -/
def eat (p : Token.Kind → Bool) : Parser Bool := do
  if p (← kind) then
    advance
    return true
  else return false

def eatKeyword (k : Keyword) : Parser Bool := eat (isKeyword k)

def eatSymbol (s : Symbol) : Parser Bool := eat (isSymbol s)

/-- Takes the token ahead, which has to satisfy `p`. -/
def expect (p : Token.Kind → Bool) (expected : String) : Parser Unit := do
  unless ← eat p do fail expected

def expectKeyword (k : Keyword) (expected : String) : Parser Unit := expect (isKeyword k) expected

def expectSymbol (s : Symbol) (expected : String) : Parser Unit := expect (isSymbol s) expected

def semicolon : Parser Unit := expectSymbol .semicolon "';'"

/-! ## Names -/

/-- Whether a token can be used as a name: an identifier, or a keyword that is not reserved. -/
def isName : Token.Kind → Bool
  | .identifier _ => true
  | .keyword k => !k.isReserved
  | _ => false

/-- Takes a name as it is spelled. -/
def name (expected : String) : Parser String := do
  let t := (← get).current
  expect isName expected
  return t.lexeme

end Parser

end ObjectAction
