/-
What a token can be, and its description in messages.
-/
import ObjectAction.Number.Layout
import ObjectAction.Token.Keyword

namespace ObjectAction

/-- Operators and punctuation. -/
inductive Symbol where
  | plus | minus | star | slash | percent
  | less | lessEq | greater | greaterEq | equalEqual | notEqual | equal
  | arrow | colon | doubleColon | semicolon | comma | dot
  | leftParen | rightParen | leftBracket | rightBracket
  deriving DecidableEq, Repr

/-- How the symbol is written. -/
def Symbol.text : Symbol → String
  | plus => "+"
  | minus => "-"
  | star => "*"
  | slash => "/"
  | percent => "%"
  | less => "<"
  | lessEq => "<="
  | greater => ">"
  | greaterEq => ">="
  | equalEqual => "=="
  | notEqual => "!="
  | equal => "="
  | arrow => "->"
  | colon => ":"
  | doubleColon => "::"
  | semicolon => ";"
  | comma => ","
  | dot => "."
  | leftParen => "("
  | rightParen => ")"
  | leftBracket => "["
  | rightBracket => "]"

namespace Token

inductive Kind where
  | identifier (name : String)
  | keyword (k : Keyword)
  /-- A word with `::` right after it; `name` is the word. -/
  | qualifier (name : String)
  | integer (n : Int64)
  | real (x : Float)
  | string (content : String)
  /-- A text between single quotes. -/
  | phrase (content : String)
  | symbol (s : Symbol)
  | endOfInput

/-- The description of a token in messages. -/
def Kind.text : Kind → String
  | identifier name => s!"identifier '{name}'"
  | keyword k => s!"keyword {k.name}"
  | qualifier name => s!"'{name}::'"
  | integer n => s!"integer {n.toInt}"
  | real x => s!"real {Number.Layout.token.write x}"
  | string content => s!"string \"{content}\""
  | phrase content => s!"phrase '{content}'"
  | symbol s => s!"'{s.text}'"
  | endOfInput => "end of input"

end Token

end ObjectAction
