/-
The nodes that tokens describe. Main function: `Graph.ofTokens?`.
-/
import ObjectAction.Document.Node
import ObjectAction.Document.Token
import ObjectAction.Table

namespace ObjectAction.Document

/-- What is left of the tokens, and what the nodes so far leave behind. -/
structure Feed where
  tokens : List Token
  /-- What the handles of tags stand for. -/
  handles : List (String × Tag)
  /-- The numbers of the anchors, by name. -/
  names : Table Nat
  /-- The numbers of the anchors, in the order in which their nodes start, the last first. -/
  started : List Nat
  /-- The anchored nodes that are complete, each with the number of those that started before. -/
  completed : List (Nat × Node)

namespace Feed

def head? (f : Feed) : Option Token := f.tokens.head?

/-- The tokens after the first. -/
def rest (f : Feed) : Feed := { f with tokens := f.tokens.drop 1 }

/-- Whether the next token is one of `ts`. -/
def isAt (f : Feed) (ts : List Token) : Bool := f.head?.any ts.contains

/-! ## Properties of a node -/

/-- The tag that a handle and a suffix stand for. -/
def tag? (f : Feed) (handle : String) (suffix : Tag) : Option Tag :=
  if handle = "" then some suffix else (f.handles.lookup handle).map (· ++ suffix)

/-- The tag of a node, if it has one, and the number of anchored nodes before it, if it has an
anchor. -/
structure Properties where
  tag : Option Tag
  order : Option Nat

/-- Takes an anchor. Its number is the number of names so far: a name that is used again counts
once, and so the next new name gets the same number. -/
def anchor (f : Feed) (tag : Option Tag) (name : String) : Properties × Feed :=
  let number := f.names.length
  (⟨tag, some f.started.length⟩,
    { f with names := Table.put f.names name number, started := number :: f.started })

/-- An anchor, a tag, or both in either order. -/
def properties? (f : Feed) : Option (Properties × Feed) :=
  match f.tokens with
  | .anchor name :: .tag handle suffix :: _ => do
    return f.rest.rest.anchor (some (← f.tag? handle suffix)) name
  | .tag handle suffix :: .anchor name :: _ => do
    return f.rest.rest.anchor (some (← f.tag? handle suffix)) name
  | .anchor name :: _ => some (f.rest.anchor none name)
  | .tag handle suffix :: _ => do
    return (⟨some (← f.tag? handle suffix), none⟩, f.rest)
  | _ => some (⟨none, none⟩, f)

/-- Notes that a node is complete. -/
def complete (f : Feed) (p : Properties) (n : Node) : Node × Feed :=
  match p.order with
  | some order => (n, { f with completed := (order, n) :: f.completed })
  | none => (n, f)

/-- The nodes by the numbers of their anchors; of one number, the node that starts last is first. -/
def anchored (f : Feed) : List (Nat × Node) :=
  (f.started.zip (List.range f.started.length).reverse).filterMap fun (i, order) =>
    (f.completed.lookup order).map (i, ·)

end Feed

/-! ## Nodes -/

/-- Where a node stands, which decides which collections without brackets it may be. -/
inductive Place where
  /-- Between brackets: none. -/
  | flow
  /-- In a list or at the top: those that are indented further. -/
  | indented
  /-- In a mapping: also a list in the column of the keys. -/
  | ofMapping
  deriving DecidableEq, Repr

/-- Whether a node in this place may start with the token. Where it may not, the token belongs to
what follows the node. -/
def Place.allows : Place → Token → Bool
  | .flow, t => t ≠ .item && t ≠ .listStart && t ≠ .mappingStart
  | .indented, t => t ≠ .item
  | .ofMapping, _ => true

/-- Tokens before which an entry of a mapping has nothing more. -/
def entryEnds : List Token := [.key, .value, .close]

mutual

/-- A node and the feed after it. -/
def readNode : Nat → Place → Feed → Option (Node × Feed)
  | 0, _, _ => none
  | fuel + 1, place, f =>
    match f.head? with
    | some (.alias name) => (Table.value? f.names name).map (.alias ·, f.rest)
    | _ => do
      let (p, f) ← f.properties?
      let (n, f) ← match f.head?.filter place.allows with
        | some (.scalar style text) => pure (Node.scalar ⟨style, p.tag, text⟩, f.rest)
        | some .openBracket => (readFlowItems fuel true f.rest).map fun (ns, f) => (.list ns, f)
        | some .openBrace => (readFlowEntries fuel true f.rest).map fun (es, f) => (.mapping es, f)
        | some .item => (readItems fuel entryEnds f).map fun (ns, f) => (.list ns, f)
        | some .listStart => do
          let (ns, f) ← readItems fuel [.close] f.rest
          if f.isAt [.close] then pure (.list ns, f.rest) else none
        | some .mappingStart => (readEntries fuel f.rest).map fun (es, f) => (.mapping es, f)
        | _ =>
          if p.tag.isSome || p.order.isSome then pure (.scalar ⟨.plain, p.tag, ""⟩, f)
          else none
      return f.complete p n

/-- A node, or nothing before one of the tokens `ends`. -/
def readOptional : Nat → Place → List Token → Feed → Option (Node × Feed)
  | 0, _, _, _ => none
  | fuel + 1, place, ends, f =>
    if f.isAt ends then some (.nothing, f) else readNode fuel place f

/-- The items of a list without brackets. An item has nothing before another and before `ends`. -/
def readItems : Nat → List Token → Feed → Option (List Node × Feed)
  | 0, _, _ => none
  | fuel + 1, ends, f =>
    if !f.isAt [.item] then some ([], f)
    else do
      let (n, f) ← readOptional fuel .indented (.item :: ends) f.rest
      let (ns, f) ← readItems fuel ends f
      return (n :: ns, f)

/-- The value of a key, if there is one. -/
def readValue : Nat → Place → List Token → Feed → Option (Node × Feed)
  | 0, _, _, _ => none
  | fuel + 1, place, ends, f =>
    if f.isAt [.value] then readOptional fuel place ends f.rest else some (.nothing, f)

/-- The entries of a mapping without brackets, and its end. -/
def readEntries : Nat → Feed → Option (List (Node × Node) × Feed)
  | 0, _ => none
  | fuel + 1, f =>
    if f.isAt [.close] then some ([], f.rest)
    else if !f.isAt [.key] then none
    else do
      let (key, f) ← readOptional fuel .ofMapping entryEnds f.rest
      let (n, f) ← readValue fuel .ofMapping entryEnds f
      let (entries, f) ← readEntries fuel f
      return ((key, n) :: entries, f)

/-- The items of a list in brackets, and its end. A key makes a mapping of one entry. -/
def readFlowItems : Nat → (first : Bool) → Feed → Option (List Node × Feed)
  | 0, _, _ => none
  | fuel + 1, first, f => do
    if f.isAt [.closeBracket] then return ([], f.rest)
    if !first && !f.isAt [.comma] then none
    let f := if first then f else f.rest
    if f.isAt [.closeBracket] then return ([], f.rest)
    let (n, f) ←
      if f.isAt [.key] then do
        let (key, f) ← readOptional fuel .flow [.value, .comma, .closeBracket] f.rest
        let (n, f) ← readValue fuel .flow [.comma, .closeBracket] f
        pure (.mapping [(key, n)], f)
      else readNode fuel .flow f
    let (ns, f) ← readFlowItems fuel false f
    return (n :: ns, f)

/-- The entries of a mapping in braces, and its end. A node that is no key has nothing as its
value. -/
def readFlowEntries : Nat → (first : Bool) → Feed → Option (List (Node × Node) × Feed)
  | 0, _, _ => none
  | fuel + 1, first, f => do
    if f.isAt [.closeBrace] then return ([], f.rest)
    if !first && !f.isAt [.comma] then none
    let f := if first then f else f.rest
    if f.isAt [.closeBrace] then return ([], f.rest)
    let (key, n, f) ←
      if f.isAt [.key] then do
        let (key, f) ← readOptional fuel .flow [.value, .comma, .closeBrace] f.rest
        let (n, f) ← readValue fuel .flow [.comma, .closeBrace] f
        pure (key, n, f)
      else do
        let (key, f) ← readNode fuel .flow f
        pure (key, .nothing, f)
    let (entries, f) ← readFlowEntries fuel false f
    return ((key, n) :: entries, f)

end

/-! ## Whole texts -/

/-- The handles that every document knows. -/
def commonHandles : List (String × Tag) :=
  [("!", .ofText "!"), ("!!", .ofText "tag:yaml.org,2002:")]

/-- The lines in front of a document, and the tokens after them: a version that can be read, once,
and handles, each once. -/
def readHandles : (hasVersion : Bool) → List (String × Tag) → List Token →
    Option (List (String × Tag) × List Token)
  | hasVersion, handles, .version major minor :: ts =>
    if hasVersion || major ≠ 1 || (minor ≠ 1 && minor ≠ 2) then none
    else readHandles true handles ts
  | hasVersion, handles, .handle name meaning :: ts =>
    if handles.any (·.1 = name) then none
    else readHandles hasVersion (handles ++ [(name, meaning)]) ts
  | _, handles, ts => some (handles, ts)

/-- The nodes of a document that starts with `ts`, and what follows it. -/
def readRoot (handles : List (String × Tag)) (ts : List Token) : Option (Graph × List Token) :=
  (readNode (4 * ts.length + 4) .indented ⟨ts, handles ++ commonHandles, [], [], []⟩).map
    fun (root, f) => (⟨root, f.anchored⟩, f.tokens)

/-- The document of a text. Another document cannot follow. -/
def Graph.ofTokens? (ts : List Token) : Option Graph := do
  let (handles, after) ← readHandles false [] ts
  let (g, rest) ← match after with
    | [.documentStart] => some (Graph.nothing, [])
    | .documentStart :: .documentEnd :: rest => some (Graph.nothing, rest)
    | .documentStart :: ts => readRoot handles ts
    | _ =>
      if after.length ≠ ts.length then none
      else if ts.isEmpty then some (Graph.nothing, [])
      else readRoot [] ts
  if rest.all (· = .documentEnd) then some g else none

end ObjectAction.Document
