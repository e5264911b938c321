/-
The tokens of a text, with the lists, mappings and keys that only its layout shows. A collection
without brackets is open as long as the lines are indented to its column. A key is known by the colon
after it, when its tokens are there already: the token of the key is then put in front of them.
Main function: `tokens?`.
-/
import ObjectAction.Document.Scalar
import ObjectAction.Document.Token

namespace ObjectAction.Document

/-- A node that is a key if a colon follows. -/
structure KeyStart where
  /-- Whether it can be nothing else, because it stands where the keys of a mapping stand. -/
  required : Bool
  /-- The number of tokens before it. -/
  position : Nat
  start : Cursor

/-- A text that is read up to `next`. -/
structure Layout where
  next : Cursor
  tokens : Array Token
  /-- The columns of the open collections without brackets, innermost first. -/
  columns : List Nat
  /-- What may be a key, between the innermost brackets. -/
  key : Option KeyStart
  /-- What may be a key outside each of the open brackets, innermost first. -/
  outerKeys : List (Option KeyStart)
  /-- Whether a key may start here. -/
  keyAllowed : Bool

namespace Layout

def start (text : List Char) : Layout := ⟨.start text, #[], [], none, [], true⟩

/-- Whether brackets are open. -/
def inFlow (l : Layout) : Bool := !l.outerKeys.isEmpty

/-- The least column of what belongs to the innermost collection. -/
def least (l : Layout) : Nat := (l.columns.head?.map (· + 1)).getD 0

/-- Adds a token and goes on after it. -/
def add (l : Layout) (t : Token) (next : Cursor) : Layout :=
  { l with tokens := l.tokens.push t, next }

/-- Adds the token of the next `n` characters. -/
def addMark (l : Layout) (t : Token) (n : Nat) : Layout := l.add t (l.next.skip n)

/-! ## Gaps -/

/-- Passes over spaces, comments and line ends, and over a byte order mark at the start of a line. A
tab is not passed where a key may start, unless brackets are open. -/
def passGap (inFlow comment keyAllowed : Bool) (c : Cursor) : List Char → Bool × Cursor
  | [] => (keyAllowed, c)
  | ch :: rest =>
    if isLineEnd ch then passGap inFlow false (keyAllowed || !inFlow) c.next rest
    else if comment || ch = ' ' || (ch = '\t' && (inFlow || !keyAllowed))
        || (ch = '\ufeff' && c.column = 0) then passGap inFlow comment keyAllowed c.next rest
    else if ch = '#' then passGap inFlow true keyAllowed c.next rest
    else (keyAllowed, c)

/-- The layout after the gap that is ahead. -/
def afterGap (l : Layout) : Layout :=
  let (keyAllowed, next) := passGap l.inFlow false l.keyAllowed l.next l.next.rest
  { l with keyAllowed, next }

/-! ## Collections -/

/-- Opens a collection in a column right of those that are open, with its token at `position`. -/
def openAt (l : Layout) (t : Token) (column position : Nat) : Layout :=
  if l.inFlow || l.columns.head?.any (column ≤ ·) then l
  else { l with
    columns := column :: l.columns
    tokens := l.tokens.insertIdxIfInBounds position t }

/-- Closes the collections for whose column `p` holds. -/
def closeWhile (l : Layout) (p : Nat → Bool) : Layout :=
  if l.inFlow then l
  else { l with
    columns := l.columns.dropWhile p
    tokens := l.tokens ++ (l.columns.takeWhile p).map fun _ => Token.close }

/-- Closes the collections right of the next column. -/
def closeRight (l : Layout) : Layout := l.closeWhile (l.next.column < ·)

def closeAll (l : Layout) : Layout := l.closeWhile fun _ => true

/-! ## Keys -/

/-- How far the colon may be from the start of a key, in bytes. -/
def keyReach : Nat := 1024

/-- Gives up what may have been a key. -/
def forgetKey? (l : Layout) : Option Layout :=
  if l.key.any (·.required) then none else some { l with key := none }

/-- Notes that what comes next may be a key. -/
def noteKey? (l : Layout) : Option Layout :=
  if !l.keyAllowed then some l
  else do
    let l ← l.forgetKey?
    let required := !l.inFlow && l.columns.head? = some l.next.column
    return { l with key := some ⟨required, l.tokens.size, l.next⟩ }

/-- The key that a colon here would belong to: it is on the line, and not too far away. -/
def keyHere? (l : Layout) : Option (Option KeyStart) :=
  match l.key with
  | none => some none
  | some k =>
    if k.start.line = l.next.line && l.next.offset ≤ k.start.offset + keyReach then some (some k)
    else if k.required then none
    else some none

/-! ## Marks -/

/-- A line that starts or ends a document, or is about the text. -/
def betweenDocuments? (l : Layout) : Option Layout := do
  let l ← l.closeAll.forgetKey?
  return { l with keyAllowed := false }

def openFlow? (l : Layout) (t : Token) : Option Layout := do
  let l ← l.noteKey?
  return { l.addMark t 1 with key := none, outerKeys := l.key :: l.outerKeys, keyAllowed := true }

def closeFlow? (l : Layout) (t : Token) : Option Layout := do
  let l ← l.forgetKey?
  let l := { l.addMark t 1 with keyAllowed := false }
  match l.outerKeys with
  | [] => return l
  | key :: outerKeys => return { l with key, outerKeys }

def comma? (l : Layout) : Option Layout := do
  let l ← l.forgetKey?
  return { l.addMark .comma 1 with keyAllowed := true }

def item? (l : Layout) : Option Layout := do
  if !l.inFlow && !l.keyAllowed then none
  let l ← (l.openAt .listStart l.next.column l.tokens.size).forgetKey?
  return { l.addMark .item 1 with keyAllowed := true }

/-- A key behind a question mark. -/
def explicitKey? (l : Layout) : Option Layout := do
  if !l.inFlow && !l.keyAllowed then none
  let l ← (l.openAt .mappingStart l.next.column l.tokens.size).forgetKey?
  return { l.addMark .key 1 with keyAllowed := !l.inFlow }

/-- A colon: what is noted becomes a key, or a key behind a question mark came before. -/
def value? (l : Layout) : Option Layout := do
  match ← l.keyHere? with
  | some k =>
    let l := { l with tokens := l.tokens.insertIdxIfInBounds k.position .key }
    let l := l.openAt .mappingStart k.start.column k.position
    return { l.addMark .value 1 with key := none, keyAllowed := false }
  | none =>
    if !l.inFlow && !l.keyAllowed then none
    let l := l.openAt .mappingStart l.next.column l.tokens.size
    return { l.addMark .value 1 with keyAllowed := !l.inFlow }

/-! ## Nodes -/

def alias? (l : Layout) : Option Layout := do
  let l ← l.noteKey?
  let (name, next) ← readName l.next
  return { l.add (.alias name) next with keyAllowed := false }

def anchor? (l : Layout) : Option Layout := do
  let l ← l.noteKey?
  let (name, next) ← readName l.next
  return { l.add (.anchor name) next with keyAllowed := false }

def tag? (l : Layout) (fuel : Nat) : Option Layout := do
  let l ← l.noteKey?
  let ((handle, suffix), next) ← readTag l.inFlow fuel l.next
  return { l.add (.tag handle suffix) next with keyAllowed := false }

def block? (l : Layout) (folded : Bool) (fuel : Nat) : Option Layout := do
  let l ← l.forgetKey?
  let (content, next) ← readBlock folded l.least fuel l.next
  let style := if folded then .quoted else .literal
  return { l.add (.scalar style (String.ofList content)) next with keyAllowed := true }

def quoted? (l : Layout) (fuel : Nat) : Option Layout := do
  let l ← l.noteKey?
  let (content, next) ← readQuoted fuel l.next
  return { l.add (.scalar .quoted (String.ofList content)) next with keyAllowed := false }

/-- A plain scalar. After the end of a line, a key may start. -/
def plain? (l : Layout) (fuel : Nat) : Option Layout := do
  let l ← l.noteKey?
  let r ← readPlain l.inFlow l.least fuel l.next
  return { l.add (.scalar .plain (String.ofList r.content)) r.next with keyAllowed := r.lineEnded }

/-! ## Whole texts -/

/-- Reads the token that is ahead. -/
def step? (l : Layout) (fuel : Nat) : Option Layout :=
  let c := l.next
  if c.column = 0 && c.rest.head? = some '%' then do
    let l ← l.betweenDocuments?
    let (t, next) ← readDirective fuel c
    return l.add t next
  else if c.atStartMark then l.betweenDocuments?.map (·.addMark .documentStart 3)
  else if c.atEndMark then l.betweenDocuments?.map (·.addMark .documentEnd 3)
  else
    let apart := l.inFlow || startsBlank (c.rest.drop 1)
    match c.rest.head? with
    | some '[' => l.openFlow? .openBracket
    | some '\x7b' => l.openFlow? .openBrace
    | some ']' => l.closeFlow? .closeBracket
    | some '\x7d' => l.closeFlow? .closeBrace
    | some ',' => l.comma?
    | some '-' => if startsBlank (c.rest.drop 1) then l.item? else l.plain? fuel
    | some '?' => if apart then l.explicitKey? else l.plain? fuel
    | some ':' => if apart then l.value? else l.plain? fuel
    | some '*' => l.alias?
    | some '&' => l.anchor?
    | some '!' => l.tag? fuel
    | some '|' => if l.inFlow then none else l.block? false fuel
    | some '>' => if l.inFlow then none else l.block? true fuel
    | some '\'' => l.quoted? fuel
    | some '"' => l.quoted? fuel
    | _ => l.plain? fuel

/-- Reads tokens up to the end of the text. -/
def finish? : Nat → Layout → Option Layout
  | 0, _ => none
  | fuel + 1, l =>
    let l := l.afterGap
    if l.next.rest.isEmpty then l.closeAll.forgetKey?
    else (l.closeRight.step? (fuel + 1)).bind (finish? fuel)

end Layout

def tokens? (text : List Char) : Option (List Token) :=
  ((Layout.start text).finish? (text.length + 1)).map (·.tokens.toList)

end ObjectAction.Document
