/-
Reading a document text from left to right: the rest of the text and the place where it starts.
-/
namespace ObjectAction.Document

/-! ## Characters -/

/-- Whether a line ends with the character. -/
def isLineEnd (ch : Char) : Bool := ch = '\n' || ch = '\u2028' || ch = '\u2029'

/-- A space or a tab. -/
def isSpace (ch : Char) : Bool := ch = ' ' || ch = '\t'

/-- Whether a list of characters is empty or starts with a space, a tab or a line end. -/
def startsBlank : List Char → Bool
  | [] => true
  | ch :: _ => isSpace ch || isLineEnd ch

/-- Characters of names: letters and digits of ASCII, the hyphen and the underscore. -/
def isNameChar (ch : Char) : Bool := ch.isAlphanum || ch = '-' || ch = '_'

def hexDigit? (ch : Char) : Option Nat :=
  if '0' ≤ ch && ch ≤ '9' then some (ch.toNat - '0'.toNat)
  else if 'a' ≤ ch && ch ≤ 'f' then some (ch.toNat - 'a'.toNat + 10)
  else if 'A' ≤ ch && ch ≤ 'F' then some (ch.toNat - 'A'.toNat + 10)
  else none

/-! ## Cursors -/

structure Cursor where
  line : Nat
  column : Nat
  /-- The number of bytes before it. -/
  offset : Nat
  rest : List Char

namespace Cursor

def start (text : List Char) : Cursor := ⟨0, 0, 0, text⟩

/-- The cursor after one character. -/
def next (c : Cursor) : Cursor :=
  match c.rest with
  | [] => c
  | ch :: rest =>
    if isLineEnd ch then ⟨c.line + 1, 0, c.offset + ch.utf8Size, rest⟩
    else ⟨c.line, c.column + 1, c.offset + ch.utf8Size, rest⟩

def skip (c : Cursor) : Nat → Cursor
  | 0 => c
  | n + 1 => c.next.skip n

/-- The characters ahead for which `p` holds, and the cursor after them. -/
def takeWhile (c : Cursor) (p : Char → Bool) : List Char × Cursor :=
  let taken := c.rest.takeWhile p
  (taken, c.skip taken.length)

def dropWhile (c : Cursor) (p : Char → Bool) : Cursor := (c.takeWhile p).2

/-- Whether the cursor is at `mark` and a blank after it. -/
def isAt (c : Cursor) (mark : List Char) : Bool :=
  mark.isPrefixOf c.rest && startsBlank (c.rest.drop mark.length)

def atStartMark (c : Cursor) : Bool := c.column = 0 && c.isAt ['-', '-', '-']

def atEndMark (c : Cursor) : Bool := c.column = 0 && c.isAt ['.', '.', '.']

/-- Whether a line that starts or ends a document is ahead. -/
def atMark (c : Cursor) : Bool := c.atStartMark || c.atEndMark

/-- The start of the next line, if only spaces and a comment are left on this one. -/
def endLine? (c : Cursor) : Option Cursor :=
  let c := c.dropWhile isSpace
  let c := if c.rest.head? = some '#' then c.dropWhile (!isLineEnd ·) else c
  if c.rest.head?.all isLineEnd then some c.next else none

end Cursor

end ObjectAction.Document
