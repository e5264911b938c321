/-
Documents: the tree of a model text before anything is known about models.
-/
namespace ObjectAction

/-- How a scalar is written. -/
inductive ScalarStyle where
  /-- Without quotes: a text, a truth value or null. -/
  | plain
  /-- In quotes, or in a block whose lines are folded. -/
  | quoted
  /-- In a block whose lines are kept. -/
  | literal
  deriving DecidableEq, Repr

/-- A tag by its bytes, which need not be those of a text. -/
abbrev Tag := List UInt8

structure Scalar where
  style : ScalarStyle
  tag : Option Tag
  text : String
  deriving DecidableEq, Repr

inductive Document where
  | null
  | boolean (b : Bool)
  | number
  | scalar (s : Scalar)
  | list (items : List Document)
  /-- A list that may also stand for a record, by its first fields in their order. -/
  | array (items : List Document)
  /-- Entries in the order of the text; a key may occur again. -/
  | mapping (entries : List (String × Document))
  deriving Inhabited

/-! ## Tags -/

namespace Tag

def ofText (text : String) : Tag := text.toUTF8.toList

def null : Tag := ofText "tag:yaml.org,2002:null"

def boolean : Tag := ofText "tag:yaml.org,2002:bool"

/-- The name of a tag of the document's own, which starts with an exclamation mark. -/
def ownName? : Tag → Option String
  | [] => none
  | first :: name => if first = 0x21 then String.fromUTF8? ⟨name.toArray⟩ else none

end Tag

/-! ## Scalars -/

namespace Scalar

/-- The scalar where nothing is written. -/
def nothing : Scalar := ⟨.plain, none, ""⟩

def isNothing (s : Scalar) : Bool := s.style = .plain && s.text = ""

/-- Whether the text is a spelling of null. -/
def spellsNull (s : Scalar) : Bool := ["~", "null", "Null", "NULL"].contains s.text

/-- A text or null. A scalar with a tag is null only if that is its tag. -/
def optionalText? (s : Scalar) : Option (Option String) :=
  match s.style, s.tag with
  | .plain, none => some (if s.text = "" || s.spellsNull then none else some s.text)
  | .plain, some tag =>
    if tag ≠ .null then some (some s.text) else if s.spellsNull then some none else none
  | _, _ => some (some s.text)

def boolean? (s : Scalar) : Option Bool :=
  if s.style = .plain || (s.style = .literal && s.tag = some .boolean) then
    if ["true", "True", "TRUE"].contains s.text then some true
    else if ["false", "False", "FALSE"].contains s.text then some false
    else none
  else none

/-- The name that a scalar gives to a choice: its text, or a tag of the document's own, after which
nothing or null is written. -/
def choice? (s : Scalar) : Option String :=
  match s.tag.bind Tag.ownName? with
  | some name => if s.isNothing || (s.style = .plain && s.spellsNull) then some name else none
  | none => some s.text

end Scalar

namespace Document

/-- A text that is no other value. -/
def text (s : String) : Document := scalar ⟨.quoted, none, s⟩

/-- The node where nothing is written. -/
def nothing : Document := scalar .nothing

/-! ## What a node stands for -/

def text? : Document → Option String
  | scalar s => some s.text
  | _ => none

/-- A text or null. -/
def optionalText? : Document → Option (Option String)
  | null => some none
  | scalar s => s.optionalText?
  | _ => none

def boolean? : Document → Option Bool
  | boolean b => some b
  | scalar s => s.boolean?
  | _ => none

/-- The name of a choice. A mapping may give it as the key of null. -/
def choice? : Document → Option String
  | scalar s => s.choice?
  | mapping [(name, null)] => some name
  | _ => none

/-- The items of a list; nothing is an empty list. -/
def list? : Document → Option (List Document)
  | list items => some items
  | array items => some items
  | scalar s => if s.isNothing then some [] else none
  | _ => none

/-- The entries of a mapping; nothing is an empty mapping. -/
def entries? : Document → Option (List (String × Document))
  | mapping entries => some entries
  | scalar s => if s.isNothing then some [] else none
  | _ => none

/-- The fields of a record, of which each name is known and occurs once. -/
def fields? (names : List String) : Document → Option (List (String × Document))
  | array items => if items.length ≤ names.length then some (names.zip items) else none
  | d => do
    let entries ← d.entries?
    let keys := entries.map (·.1)
    if keys.Nodup ∧ keys.all names.contains then some entries else none

end Document

end ObjectAction
