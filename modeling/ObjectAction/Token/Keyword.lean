/-
Keywords of the action language. A keyword is spelled in any letter case, and most keywords can
also be used as names: only the reserved ones cannot. The three closing keywords are spelled as two
words, so no single word denotes them.
-/
namespace ObjectAction

inductive Keyword where
  | across | and | any | assign | «break» | bridge | «by» | cardinality | «class» | «continue»
  | control | create | creator | delete | each | elif | «else» | empty | «end» | endFor | endIf
  | endWhile | event | «false» | first | «for» | «from» | generate | «if» | «in» | «instance»
  | instances | last | many | not | notEmpty | object | of | one | or | param | receivedEvent
  | relate | related | «return» | select | selected | self | send | stop | «to» | transform | «true»
  | unrelate | «using» | «where» | «while»
  deriving DecidableEq, Repr

namespace Keyword

/-- The keywords that a single word denotes, with their spelling in lower case. -/
def words : List (String × Keyword) :=
  [("across", across), ("and", and), ("any", any), ("assign", assign), ("break", «break»),
    ("bridge", bridge), ("by", «by»), ("cardinality", cardinality), ("class", «class»),
    ("continue", «continue»), ("control", control), ("create", create), ("creator", creator),
    ("delete", delete), ("each", each), ("elif", elif), ("else", «else»), ("empty", empty),
    ("end", «end»), ("event", event), ("false", «false»), ("first", first), ("for", «for»),
    ("from", «from»), ("generate", generate), ("if", «if»), ("in", «in»), ("instance", «instance»),
    ("instances", instances), ("last", last), ("many", many), ("not", not),
    ("not_empty", notEmpty), ("object", object), ("of", of), ("one", one), ("or", or),
    ("param", param), ("rcvd_evt", receivedEvent), ("relate", relate), ("related", related),
    ("return", «return»), ("select", select), ("selected", selected), ("self", self),
    ("send", send), ("stop", stop), ("to", «to»), ("transform", transform), ("true", «true»),
    ("unrelate", unrelate), ("using", «using»), ("where", «where»), ("while", «while»)]

/-- The keyword that a word denotes, in any letter case. -/
def ofWord? (word : List Char) : Option Keyword :=
  words.lookup (String.ofList (word.map Char.toLower))

/-- The closing keyword that `end` makes together with the word after it. -/
def closing? (word : List Char) : Option Keyword :=
  match String.ofList (word.map Char.toLower) with
  | "for" => some endFor
  | "if" => some endIf
  | "while" => some endWhile
  | _ => none

/-- The keywords that can never be used as names. -/
def reserved : List Keyword :=
  [and, or, not, «true», «false», self, selected, param, receivedEvent, «end», endFor, endIf,
    endWhile, elif, «else»]

def isReserved (k : Keyword) : Bool := reserved.contains k

/-- The name of the keyword in messages. -/
def name : Keyword → String
  | across => "Across"
  | and => "And"
  | any => "Any"
  | assign => "Assign"
  | «break» => "Break"
  | bridge => "Bridge"
  | «by» => "By"
  | cardinality => "Cardinality"
  | «class» => "Class"
  | «continue» => "Continue"
  | control => "Control"
  | create => "Create"
  | creator => "Creator"
  | delete => "Delete"
  | each => "Each"
  | elif => "Elif"
  | «else» => "Else"
  | empty => "Empty"
  | «end» => "End"
  | endFor => "EndFor"
  | endIf => "EndIf"
  | endWhile => "EndWhile"
  | event => "Event"
  | «false» => "False"
  | first => "First"
  | «for» => "For"
  | «from» => "From"
  | generate => "Generate"
  | «if» => "If"
  | «in» => "In"
  | «instance» => "Instance"
  | instances => "Instances"
  | last => "Last"
  | many => "Many"
  | not => "Not"
  | notEmpty => "NotEmpty"
  | object => "Object"
  | of => "Of"
  | one => "One"
  | or => "Or"
  | param => "Param"
  | receivedEvent => "RcvdEvt"
  | relate => "Relate"
  | related => "Related"
  | «return» => "Return"
  | select => "Select"
  | selected => "Selected"
  | self => "SelfRef"
  | send => "Send"
  | stop => "Stop"
  | «to» => "To"
  | transform => "Transform"
  | «true» => "True"
  | unrelate => "Unrelate"
  | «using» => "Using"
  | «where» => "Where"
  | «while» => "While"

end Keyword

end ObjectAction
