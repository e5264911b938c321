/-
Tokens of a document text: its marks, names and scalars, and where lists, mappings and keys start
and end that are marked by indentation alone.
-/
import ObjectAction.Document.Basic
import ObjectAction.Document.Cursor

namespace ObjectAction.Document

inductive Token where
  /-- The version that the text says it is written in. -/
  | version (major minor : Nat)
  /-- A handle of tags, and what it stands for. -/
  | handle (name : String) (meaning : Tag)
  | documentStart
  | documentEnd
  /-- A list or mapping by indentation starts, or ends. -/
  | listStart
  | mappingStart
  | close
  | openBracket
  | closeBracket
  | openBrace
  | closeBrace
  | comma
  /-- An item of a list by indentation. -/
  | item
  | key
  | value
  | alias (name : String)
  | anchor (name : String)
  | tag (handle : String) (suffix : Tag)
  | scalar (style : ScalarStyle) (text : String)
  deriving DecidableEq, Repr

/-! ## Names of nodes -/

/-- The name after the sign of an anchor or alias. -/
def readName (c : Cursor) : Option (String × Cursor) :=
  let (name, next) := c.next.takeWhile isNameChar
  let ends := startsBlank next.rest
    || next.rest.head?.any ['?', ':', ',', ']', '\x7d', '%', '@', '`'].contains
  if name.isEmpty || !ends then none else some (String.ofList name, next)

/-! ## Tags -/

/-- A tag's handle: an exclamation mark, or a name between two. What is not closed by a second mark
is only the start of a tag. -/
def readHandle (c : Cursor) : Option (List Char × Cursor) :=
  if c.rest.head? ≠ some '!' then none
  else
    let (name, next) := c.next.takeWhile isNameChar
    if next.rest.head? = some '!' then some ('!' :: name ++ ['!'], next.next)
    else some ('!' :: name, next)

/-- Characters of a tag, besides those of names. -/
def tagChars : List Char :=
  [';', '/', '?', ':', '@', '&', '=', '+', '$', '.', '!', '~', '*', '\'', '(', ')']

/-- The number of bytes of a character by its first byte. -/
def byteCount? (first : Nat) : Option Nat :=
  if first < 0x80 then some 1
  else if 0xc0 ≤ first && first < 0xe0 then some 2
  else if 0xe0 ≤ first && first < 0xf0 then some 3
  else if 0xf0 ≤ first && first < 0xf8 then some 4
  else none

/-- Two hexadecimal digits after a percent sign. -/
def escapedByte? : List Char → Option Nat
  | '%' :: high :: low :: _ => do return 16 * (← hexDigit? high) + (← hexDigit? low)
  | _ => none

/-- The escaped bytes of a character. Only its first byte tells how many they are; the others have to
be bytes that go on. -/
def escapedBytes? (cs : List Char) : Option (List Nat) := do
  let first ← escapedByte? cs
  let count ← byteCount? first
  let later ← (List.range (count - 1)).mapM fun i => escapedByte? (cs.drop (3 * i + 3))
  if later.all (· / 64 = 2) then return first :: later else none

/-- Reads the characters of a tag, with commas and brackets among them if `inBrackets`. -/
def readTagText (inBrackets : Bool) : Nat → Cursor → Option (Tag × Cursor)
  | 0, _ => none
  | fuel + 1, c =>
    match c.rest with
    | [] => some ([], c)
    | '%' :: _ => do
      let bytes ← escapedBytes? c.rest
      let (text, next) ← readTagText inBrackets fuel (c.skip (3 * bytes.length))
      return (bytes.map UInt8.ofNat ++ text, next)
    | ch :: _ =>
      if isNameChar ch || tagChars.contains ch || (inBrackets && [',', '[', ']'].contains ch) then do
        let (text, next) ← readTagText inBrackets fuel c.next
        return (UInt8.ofNat ch.toNat :: text, next)
      else some ([], c)

/-- A tag ends before a byte that is zero. -/
def Tag.upToZero (t : Tag) : Tag := t.takeWhile (· ≠ 0)

/-- The handle and suffix of a tag, without what has to follow it. A lone exclamation mark is a tag
without a handle. -/
def readTagParts (fuel : Nat) (c : Cursor) : Option ((String × Tag) × Cursor) :=
  if ['!', '<'].isPrefixOf c.rest then do
    let (text, next) ← readTagText true fuel (c.skip 2)
    if text.isEmpty || next.rest.head? ≠ some '>' then none
    return (("", Tag.upToZero text), next.next)
  else do
    let (handle, next) ← readHandle c
    let (text, next) ← readTagText false fuel next
    if handle.length ≠ 1 && handle.getLast? = some '!' then
      if text.isEmpty then none
      return ((String.ofList handle, Tag.upToZero text), next)
    else
      let suffix := Tag.upToZero (Tag.ofText (String.ofList (handle.drop 1)) ++ text)
      return (if suffix.isEmpty then ("", .ofText "!") else ("!", suffix), next)

def readTag (inFlow : Bool) (fuel : Nat) (c : Cursor) : Option ((String × Tag) × Cursor) := do
  let (parts, next) ← readTagParts fuel c
  if startsBlank next.rest || (inFlow && next.rest.head? = some ',') then return (parts, next)
  else none

/-! ## Directives -/

/-- A decimal number of at most nine digits. -/
def readNumber (c : Cursor) : Option (Nat × Cursor) :=
  let (digits, next) := c.takeWhile Char.isDigit
  if digits.isEmpty || 9 < digits.length then none
  else some (digits.foldl (fun n d => 10 * n + (d.toNat - '0'.toNat)) 0, next)

def readVersion (c : Cursor) : Option (Token × Cursor) := do
  let (major, next) ← readNumber (c.dropWhile isSpace)
  if next.rest.head? ≠ some '.' then none
  let (minor, next) ← readNumber next.next
  return (.version major minor, next)

def readHandleMeaning (fuel : Nat) (c : Cursor) : Option (Token × Cursor) := do
  let (handle, next) ← readHandle (c.dropWhile isSpace)
  if handle.length ≠ 1 && handle.getLast? ≠ some '!' then none
  if !next.rest.head?.any isSpace then none
  let (text, next) ← readTagText true fuel (next.dropWhile isSpace)
  if text.isEmpty || !startsBlank next.rest then none
  return (.handle (String.ofList handle) (Tag.upToZero text), next)

/-- A line about the text itself. -/
def readDirective (fuel : Nat) (c : Cursor) : Option (Token × Cursor) := do
  let (name, next) := c.next.takeWhile isNameChar
  if !startsBlank next.rest then none
  let (token, next) ← match String.ofList name with
    | "YAML" => readVersion next
    | "TAG" => readHandleMeaning fuel next
    | _ => none
  return (token, ← next.endLine?)

end ObjectAction.Document
