/-
The tokens and lexical errors of a text, each with where it stands. The last token is always the end
of input, which covers no character.
-/
import ObjectAction.Text.Mark
import ObjectAction.Token.Piece

namespace ObjectAction

open Text (Mark)

/-- A token with its spelling, from `start` up to `stop`. -/
structure Token where
  kind : Token.Kind
  lexeme : String
  start : Mark
  stop : Mark

/-- Skipped characters: why, and where they begin. -/
structure LexicalError where
  flaw : Token.Flaw
  start : Mark
  deriving DecidableEq, Repr

def LexicalError.message (e : LexicalError) : String :=
  let what := match e.flaw with
    | .unexpectedCharacter c => s!"Unexpected character '{c}'"
    | .invalidNumber literal => s!"Invalid numeric literal '{literal}'"
    | .unterminatedString => "Unterminated string literal"
    | .unterminatedPhrase => "Unterminated phrase"
    | .unterminatedComment => "Unterminated comment"
  s!"{what} at line {e.start.line}, column {e.start.column}"

namespace Token

/-- The end of a text that ends at `m`. -/
def atEnd (m : Mark) : Token := ⟨.endOfInput, "", m, m⟩

/-- The tokens among pieces that begin at `m`, and the end of input. -/
def ofPieces (m : Mark) : List Piece → List Token
  | [] => [atEnd m]
  | p :: ps =>
    match p.kind with
    | .token k => ⟨k, String.ofList p.text, m, m.past p.text⟩ :: ofPieces (m.past p.text) ps
    | _ => ofPieces (m.past p.text) ps

/-- The lexical errors among pieces that begin at `m`. -/
def errorsOfPieces (m : Mark) : List Piece → List LexicalError
  | [] => []
  | p :: ps =>
    match p.kind with
    | .flaw f => ⟨f, m⟩ :: errorsOfPieces (m.past p.text) ps
    | _ => errorsOfPieces (m.past p.text) ps

/-- The tokens of pieces that begin at `m`, each with the number of lexical errors before it, when
`n` came before the pieces. -/
def counted (m : Mark) (n : Nat) : List Piece → List (Token × Nat)
  | [] => [(atEnd m, n)]
  | p :: ps =>
    match p.kind with
    | .token k => (⟨k, String.ofList p.text, m, m.past p.text⟩, n) :: counted (m.past p.text) n ps
    | .flaw _ => counted (m.past p.text) (n + 1) ps
    | _ => counted (m.past p.text) n ps

end Token

/-- Everything found in a text. -/
structure Lexing where
  tokens : List Token
  errors : List LexicalError

/-- Cuts a text into tokens. What is no token is skipped and reported. -/
def tokenize (text : String) : Lexing :=
  let ps := Token.pieces text.toList
  ⟨Token.ofPieces .start ps, Token.errorsOfPieces .start ps⟩

/-- The tokens of a text one after another, each with the number of lexical errors before it. -/
def tokenSteps (text : String) : List (Token × Nat) :=
  Token.counted .start 0 (Token.pieces text.toList)

end ObjectAction
