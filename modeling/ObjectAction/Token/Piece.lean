/-
Cutting a text into pieces: blanks, comments, tokens, and flaws that are skipped. Each piece holds
the characters it covers, and the pieces of a text put together are the text: `flatMap_pieces`.
-/
import ObjectAction.Number.Reading
import ObjectAction.Text.Blank
import ObjectAction.Token.Kind

namespace ObjectAction.Token

/-- Why some characters are no token. -/
inductive Flaw where
  | unexpectedCharacter (c : Char)
  | invalidNumber (literal : String)
  | unterminatedString
  | unterminatedPhrase
  | unterminatedComment
  deriving DecidableEq, Repr

/-- What a piece of text is. -/
inductive PieceKind where
  | blank
  | lineComment
  | blockComment
  | token (kind : Kind)
  | flaw (flaw : Flaw)

/-- Some characters of a text and what they are. -/
structure Piece where
  kind : PieceKind
  text : List Char

/-! ## Words -/

/-- Words begin with a letter or an underscore of ASCII. -/
def isWordStart (c : Char) : Bool := c.isAlpha || c = '_'

/-- Words go on with letters, digits and underscores of ASCII. -/
def isWordChar (c : Char) : Bool := c.isAlphanum || c = '_'

/-- How far a closing keyword goes on after its `end`: blanks, then the whole word `for`, `if` or
`while`. -/
def closingAfter (rest : List Char) : Option (Keyword × Nat) :=
  let gap := rest.takeWhile Text.isBlank
  let word := (rest.dropWhile Text.isBlank).takeWhile isWordChar
  if gap.isEmpty then none
  else (Keyword.closing? word).map fun k => (k, gap.length + word.length)

/-- The piece that begins with the letter `c`: a qualifier if `::` follows at once, else a keyword
or an identifier. -/
def word (c : Char) (cs : List Char) : PieceKind × Nat :=
  let tail := cs.takeWhile isWordChar
  let rest := cs.dropWhile isWordChar
  let name := c :: tail
  if [':', ':'].isPrefixOf rest then (.token (.qualifier (String.ofList name)), tail.length + 2)
  else match Keyword.ofWord? name with
    | some .«end» =>
      match closingAfter rest with
      | some (k, more) => (.token (.keyword k), tail.length + more)
      | none => (.token (.keyword .«end»), tail.length)
    | some k => (.token (.keyword k), tail.length)
    | none => (.token (.identifier (String.ofList name)), tail.length)

/-! ## Numbers -/

/-- The length of a point and the digits after it, zero if no digit follows the point. -/
def fractionLength : List Char → Nat
  | '.' :: cs => if cs.takeWhile Char.isDigit = [] then 0 else (cs.takeWhile Char.isDigit).length + 1
  | _ => 0

/-- The length of an optional sign and the digits after it, zero if there is no digit. -/
def signedDigitsLength : List Char → Nat
  | '+' :: cs => if cs.takeWhile Char.isDigit = [] then 0 else (cs.takeWhile Char.isDigit).length + 1
  | '-' :: cs => if cs.takeWhile Char.isDigit = [] then 0 else (cs.takeWhile Char.isDigit).length + 1
  | cs => (cs.takeWhile Char.isDigit).length

/-- The length of an exponent, zero if there is none. -/
def exponentLength : List Char → Nat
  | c :: cs =>
    if c.toLower = 'e' ∧ signedDigitsLength cs ≠ 0 then signedDigitsLength cs + 1 else 0
  | [] => 0

/-- The piece that begins with the digit `c`: a real if it has a fraction or an exponent. -/
def number (c : Char) (cs : List Char) : PieceKind × Nat :=
  let whole := (cs.takeWhile Char.isDigit).length
  let fraction := fractionLength (cs.drop whole)
  let exponent := exponentLength (cs.drop (whole + fraction))
  let length := whole + fraction + exponent
  let literal := c :: cs.take length
  let kind :=
    if fraction + exponent = 0 then (Number.int64? (Number.ofDigits literal)).map Kind.integer
    else (Number.readMagnitude literal).map Kind.real
  match kind with
  | some k => (.token k, length)
  | none => (.flaw (.invalidNumber (String.ofList literal)), length)

/-! ## Comments and quotes -/

/-- The length of a text up to the first `*/` and with it. -/
def commentLength : List Char → Option Nat
  | [] => none
  | '*' :: '/' :: _ => some 2
  | _ :: cs => (commentLength cs).map (· + 1)

/-- The content up to the closing quote, which has to stand on the same line. -/
def quoted (quote : Char) (cs : List Char) : Option (List Char) :=
  let content := cs.takeWhile fun c => c ≠ quote ∧ c ≠ '\n'
  if (cs.drop content.length).head? = some quote then some content else none

/-- The piece that begins with a quote: only the quote itself if it is never closed. -/
def quotation (quote : Char) (kind : String → Kind) (flaw : Flaw) (cs : List Char) :
    PieceKind × Nat :=
  match quoted quote cs with
  | some content => (.token (kind (String.ofList content)), content.length + 1)
  | none => (.flaw flaw, 0)

/-! ## Pieces -/

/-- The symbol that begins with `c`, and how many characters after `c` belong to it. Of two symbols
the longer one is taken. -/
def symbolAt (c : Char) (cs : List Char) : Option (Symbol × Nat) :=
  match c, cs.head? with
  | '-', some '>' => some (.arrow, 1)
  | '<', some '=' => some (.lessEq, 1)
  | '>', some '=' => some (.greaterEq, 1)
  | '=', some '=' => some (.equalEqual, 1)
  | ':', some ':' => some (.doubleColon, 1)
  | '!', some '=' => some (.notEqual, 1)
  | '+', _ => some (.plus, 0)
  | '-', _ => some (.minus, 0)
  | '*', _ => some (.star, 0)
  | '/', _ => some (.slash, 0)
  | '%', _ => some (.percent, 0)
  | '<', _ => some (.less, 0)
  | '>', _ => some (.greater, 0)
  | '=', _ => some (.equal, 0)
  | ':', _ => some (.colon, 0)
  | ';', _ => some (.semicolon, 0)
  | ',', _ => some (.comma, 0)
  | '.', _ => some (.dot, 0)
  | '(', _ => some (.leftParen, 0)
  | ')', _ => some (.rightParen, 0)
  | '[', _ => some (.leftBracket, 0)
  | ']', _ => some (.rightBracket, 0)
  | _, _ => none

/-- What the piece that begins with `c` is, and how many characters after `c` belong to it. -/
def pieceAt (c : Char) (cs : List Char) : PieceKind × Nat :=
  if Text.isBlank c then (.blank, 0)
  else if c = '/' ∧ cs.head? = some '/' then (.lineComment, (cs.takeWhile (· ≠ '\n')).length)
  else if c = '/' ∧ cs.head? = some '*' then
    match commentLength (cs.drop 1) with
    | some n => (.blockComment, n + 1)
    | none => (.flaw .unterminatedComment, cs.length)
  else if c = '"' then quotation '"' .string .unterminatedString cs
  else if c = '\'' then quotation '\'' .phrase .unterminatedPhrase cs
  else if isWordStart c then word c cs
  else if c.isDigit then number c cs
  else match symbolAt c cs with
    | some (s, n) => (.token (.symbol s), n)
    | none => (.flaw (.unexpectedCharacter c), 0)

/-- The pieces of a text, in order. -/
def pieces : List Char → List Piece
  | [] => []
  | c :: cs =>
    ⟨(pieceAt c cs).1, c :: cs.take (pieceAt c cs).2⟩ :: pieces (cs.drop (pieceAt c cs).2)
termination_by cs => cs.length
decreasing_by simp only [List.length_cons, List.length_drop]; omega

/-- No character is lost, invented or moved. -/
theorem flatMap_pieces (cs : List Char) : (pieces cs).flatMap Piece.text = cs := by
  fun_induction pieces cs with
  | case1 => rfl
  | case2 c cs ih => simp [ih]

end ObjectAction.Token
