/-
Reading a document from text. Main function: `read`.
-/
import ObjectAction.Document.Expansion
import ObjectAction.Document.Graph
import ObjectAction.Document.Layout

namespace ObjectAction.Document

/-- Characters that a text may hold. -/
def isPrintable (ch : Char) : Bool :=
  ch = '\t' || ch = '\n' || ch = '\r' || (' ' ≤ ch && ch ≤ '~') || ch = '\x85'
    || ('\xa0' ≤ ch && ch ≤ '\ufffd') || 0x10000 ≤ ch.toNat

/-- Line ends in one spelling, apart from the separators of lines and paragraphs. -/
def unifyLineEnds : List Char → List Char
  | [] => []
  | '\r' :: '\n' :: rest => '\n' :: unifyLineEnds rest
  | ch :: rest => (if ch = '\r' || ch = '\x85' then '\n' else ch) :: unifyLineEnds rest

/-- The document that a text holds; a text with several documents is refused. -/
def read (text : String) : Option Document := do
  let chars := text.toList
  if !chars.all isPrintable then none
  let ts ← tokens? (unifyLineEnds chars)
  let g ← Graph.ofTokens? ts
  g.expand?

end ObjectAction.Document
