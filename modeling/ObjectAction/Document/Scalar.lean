/-
Scalars: plain, in single or double quotes, and indented blocks. Each reader gives the text and the
cursor after it. The fuel of a reader is more than the number of characters that are left.
-/
import ObjectAction.Document.Cursor

namespace ObjectAction.Document

/-! ## Blanks inside a scalar -/

/-- Blanks of a scalar: the spaces before the first line end, the line ends, and what follows. -/
structure Blanks where
  spaces : List Char
  lineEnds : List Char
  next : Cursor

/-- Passes over the spaces and line ends ahead. After a line end, a tab left of column `least` is not
passed. -/
def Blanks.pass (least : Nat) (b : Blanks) : List Char → Blanks
  | [] => b
  | ch :: rest =>
    if isLineEnd ch then
      Blanks.pass least { b with lineEnds := b.lineEnds ++ [ch], next := b.next.next } rest
    else if ch = ' ' || (ch = '\t' && (b.lineEnds.isEmpty || least ≤ b.next.column)) then
      let spaces := if b.lineEnds.isEmpty then b.spaces ++ [ch] else b.spaces
      Blanks.pass least { b with spaces, next := b.next.next } rest
    else b

def Cursor.blanks (c : Cursor) (least : Nat) : Blanks := Blanks.pass least ⟨[], [], c⟩ c.rest

/-- What blanks stand for: one line end is a space, and of more all but the first are kept. A first
line end with a character of its own is kept too. -/
def Blanks.folded (b : Blanks) : List Char :=
  match b.lineEnds with
  | [] => b.spaces
  | ['\n'] => [' ']
  | '\n' :: more => more
  | lineEnds => lineEnds

/-! ## Plain scalars -/

/-- Characters with a meaning of their own at the start of a node. -/
def indicators : List Char :=
  [',', '[', ']', '\x7b', '\x7d', '#', '&', '*', '!', '|', '>', '\'', '"', '%', '@', '`']

/-- Characters that delimit scalars between brackets. -/
def flowIndicators : List Char := [',', '[', ']', '\x7b', '\x7d']

/-- Whether a plain scalar can start here. -/
def startsPlain (inFlow : Bool) : List Char → Bool
  | [] => false
  | ch :: rest =>
    if ch = '-' then !startsBlank rest
    else if ch = '?' || ch = ':' then !inFlow && !startsBlank rest
    else !startsBlank [ch] && !indicators.contains ch

/-- The characters up to a blank or to what ends a plain scalar. Between brackets a colon cannot
stand right before a delimiter. -/
def plainWord (inFlow : Bool) : List Char → Option (List Char)
  | [] => some []
  | ch :: rest =>
    if startsBlank [ch] || (ch = ':' && startsBlank rest)
        || (inFlow && flowIndicators.contains ch) then some []
    else if inFlow && ch = ':' && (rest.head?.any fun d => d = '?' || flowIndicators.contains d)
    then none
    else (plainWord inFlow rest).map (ch :: ·)

/-- A plain scalar, whether a line ended after it, and what follows. -/
structure PlainRead where
  content : List Char
  lineEnded : Bool
  next : Cursor

/-- Reads words and the blanks after them, on lines that are indented to column `least`. -/
def plainWords (inFlow : Bool) (least : Nat) : Nat → Cursor → Option PlainRead
  | 0, _ => none
  | fuel + 1, c => do
    let word ← plainWord inFlow c.rest
    let b := (c.skip word.length).blanks least
    if b.next.rest.head? = some '\t' then none
    let goesOn := startsBlank (c.rest.drop word.length) && !b.next.atMark
      && b.next.rest.head? ≠ some '#' && (inFlow || least ≤ b.next.column)
    let more ← if goesOn then plainWord inFlow b.next.rest else some []
    if more.isEmpty then return ⟨word, !b.lineEnds.isEmpty, b.next⟩
    let r ← plainWords inFlow least fuel b.next
    return { r with content := word ++ b.folded ++ r.content }

/-- Reads a plain scalar, if one can start here. -/
def readPlain (inFlow : Bool) (least fuel : Nat) (c : Cursor) : Option PlainRead :=
  if startsPlain inFlow c.rest then plainWords inFlow least fuel c else none

/-! ## Quoted scalars -/

/-- Puts characters in front of a text that was read. -/
def prepend (chars : List Char) (r : List Char × Cursor) : List Char × Cursor :=
  (chars ++ r.1, r.2)

/-- Reads to the closing single quote; two quotes stand for one. -/
def singleQuoted : Nat → Cursor → Option (List Char × Cursor)
  | 0, _ => none
  | fuel + 1, c =>
    if c.atMark then none
    else match c.rest with
      | [] => none
      | '\'' :: '\'' :: _ => (singleQuoted fuel (c.skip 2)).map (prepend ['\''])
      | '\'' :: _ => some ([], c.next)
      | ch :: _ =>
        if startsBlank [ch] then
          let b := c.blanks 0
          (singleQuoted fuel b.next).map (prepend b.folded)
        else (singleQuoted fuel c.next).map (prepend [ch])

/-- What a character stands for after a backslash. -/
def escapes : List (Char × Nat) :=
  [('0', 0), ('a', 7), ('b', 8), ('t', 9), ('\t', 9), ('n', 10), ('v', 11), ('f', 12), ('r', 13),
    ('e', 27), (' ', 32), ('"', 34), ('/', 47), ('\\', 92), ('N', 0x85), ('_', 0xa0),
    ('L', 0x2028), ('P', 0x2029)]

/-- How many hexadecimal digits follow a character after a backslash. -/
def codeLengths : List (Char × Nat) := [('x', 2), ('u', 4), ('U', 8)]

/-- The character with that code, if it is one. -/
def character? (code : Nat) : Option Char :=
  if h : code.isValidChar then some (Char.ofNatAux code h) else none

/-- The character of an escape whose letter comes first, and its length. -/
def escape? : List Char → Option (Char × Nat)
  | [] => none
  | ch :: rest =>
    match escapes.lookup ch, codeLengths.lookup ch with
    | some code, _ => (character? code).map (·, 1)
    | none, some length => do
      let digits ← (rest.take length).mapM hexDigit?
      if digits.length = length then
        return (← character? (digits.foldl (16 * · + ·) 0), length + 1)
      else none
    | none, none => none

/-- Reads to the closing double quote. A line end after a backslash stands for nothing, and of the
line ends after it all are kept. -/
def doubleQuoted : Nat → Cursor → Option (List Char × Cursor)
  | 0, _ => none
  | fuel + 1, c =>
    if c.atMark then none
    else match c.rest with
      | [] => none
      | '"' :: _ => some ([], c.next)
      | '\\' :: rest =>
        if rest.head?.any isLineEnd then
          let b := (c.skip 2).blanks 0
          (doubleQuoted fuel b.next).map (prepend b.lineEnds)
        else do
          let (ch, length) ← escape? rest
          return prepend [ch] (← doubleQuoted fuel (c.skip (length + 1)))
      | ch :: _ =>
        if startsBlank [ch] then
          let b := c.blanks 0
          (doubleQuoted fuel b.next).map (prepend b.folded)
        else (doubleQuoted fuel c.next).map (prepend [ch])

/-- Reads a scalar in quotes, if one starts here. -/
def readQuoted (fuel : Nat) (c : Cursor) : Option (List Char × Cursor) :=
  match c.rest with
  | '\'' :: _ => singleQuoted fuel c.next
  | '"' :: _ => doubleQuoted fuel c.next
  | _ => none

/-! ## Indented blocks -/

/-- What happens to the line ends at the end of a block. -/
inductive Chomping where
  | strip
  | clip
  | keep
  deriving DecidableEq, Repr

/-- How a block is read: whether lines are folded, what is kept at its end, and by how much it is
indented, if that is said. -/
structure BlockHeader where
  folded : Bool
  chomping : Chomping
  indent : Option Nat

def chompingMark (c : Cursor) : Option Chomping × Cursor :=
  match c.rest.head? with
  | some '-' => (some .strip, c.next)
  | some '+' => (some .keep, c.next)
  | _ => (none, c)

/-- A digit from 1 to 9. -/
def indentMark (c : Cursor) : Option Nat × Cursor :=
  match c.rest.head? with
  | some ch =>
    if '1' ≤ ch && ch ≤ '9' then (some (ch.toNat - '0'.toNat), c.next) else (none, c)
  | none => (none, c)

/-- The marks of a header, in either order, and what follows them. -/
def blockHeader (folded : Bool) (c : Cursor) : BlockHeader × Cursor :=
  let (first, c) := indentMark c
  let (chomping, c) := chompingMark c
  let (second, c) := if first.isSome then (none, c) else indentMark c
  (⟨folded, chomping.getD .clip, first <|> second⟩, c)

/-- Empty lines before a line of a block: their ends, the widest indentation seen, and the cursor
after the indentation of the next line. -/
structure EmptyLines where
  lineEnds : List Char
  widest : Nat
  next : Cursor

/-- Passes over empty lines and over indentation up to column `indent`, or any if there is none
yet. A tab cannot be part of the indentation. -/
def EmptyLines.pass (indent : Option Nat) (e : EmptyLines) : List Char → Option EmptyLines
  | [] => some e
  | ch :: rest =>
    let inIndentation := indent.all (e.next.column < ·)
    if ch = ' ' && inIndentation then
      EmptyLines.pass indent
        { e with widest := max e.widest (e.next.column + 1), next := e.next.next } rest
    else if ch = '\t' && inIndentation then none
    else if isLineEnd ch then
      EmptyLines.pass indent { e with lineEnds := e.lineEnds ++ [ch], next := e.next.next } rest
    else some e

def Cursor.emptyLines (c : Cursor) (indent : Option Nat) : Option EmptyLines :=
  EmptyLines.pass indent ⟨[], c.column, c⟩ c.rest

/-- The lines of a block that are still to be read, after a line that ends in `lineEnd` and after
empty lines that end in `emptyEnds`. `wasIndented` tells whether the line before starts with a
blank: lines that do are not folded. -/
def blockLines (h : BlockHeader) (indent : Nat) :
    Nat → (lineEnd emptyEnds : List Char) → (wasIndented : Bool) → Cursor →
      Option (List Char × Cursor)
  | 0, _, _, _, _ => none
  | fuel + 1, lineEnd, emptyEnds, wasIndented, c =>
    if c.column ≠ indent || c.rest.isEmpty then
      let ending := match h.chomping with
        | .strip => []
        | .clip => lineEnd
        | .keep => lineEnd ++ emptyEnds
      some (ending, c)
    else do
      let isIndented := c.rest.head?.any isSpace
      let separator :=
        if h.folded && lineEnd = ['\n'] && !wasIndented && !isIndented then
          if emptyEnds.isEmpty then [' '] else []
        else lineEnd
      let (line, after) := c.takeWhile (!isLineEnd ·)
      let e ← after.next.emptyLines (some indent)
      let (content, next) ←
        blockLines h indent fuel (after.rest.take 1) e.lineEnds isIndented e.next
      return (separator ++ emptyEnds ++ line ++ content, next)

/-- Reads a block whose header starts here, inside something whose content stands right of column
`least - 1`. -/
def readBlock (folded : Bool) (least fuel : Nat) (c : Cursor) : Option (List Char × Cursor) := do
  let (h, c) := blockHeader folded c.next
  let content ← c.endLine?
  let stated := h.indent.map (least - 1 + ·)
  let e ← content.emptyLines stated
  let indent := stated.getD (max e.widest (max least 1))
  blockLines h indent fuel [] e.lineEnds false e.next

end ObjectAction.Document
