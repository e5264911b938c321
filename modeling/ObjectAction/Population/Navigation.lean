/-
Relating, unrelating and navigating. A relationship between two classes has to be read in exactly
one way; a phrase keeps the readings whose far end it names. An association with a link class can
also be navigated from end to end, across the instances of the link class.
-/
import ObjectAction.Population.Basic

namespace ObjectAction.Population

/-- The readings of one leg from class `source` to class `target`. -/
def readingsOfLeg (source target : String) (leg : Leg) (index : Nat) : List Reading :=
  ([Side.first, .second].map fun side => ⟨index, leg, side⟩).filter fun r =>
    r.source.className = source ∧ r.target.className = target

/-- All readings of the legs with that id from class `source` to class `target`. -/
def readings (p : Population) (source target id : String) : List Reading :=
  p.legs.zipIdx.flatMap fun (leg, index) =>
    if leg.id = id then readingsOfLeg source target leg index else []

/-- The one way to read a relationship from class `source` to class `target`. -/
def reading (p : Population) (source target id : String) (phrase : Option String) :
    Except PopulationError Reading :=
  let found := (p.readings source target id).filter fun r => phrase.isNone ∨ r.target.phrase = phrase
  match found with
  | [r] => .ok r
  | [] => .error (.unknownRelationship source target id phrase)
  | _ => .error (.ambiguousRelationship source target id)

/-- The instances linked to `a` in a reading, oldest link first. -/
def linked (p : Population) (r : Reading) (a : InstanceRef) : List InstanceRef :=
  (p.links.filter (r.leaves a)).map (·.at r.side.other)

/-- The association by way of a link class from class `source` to class `target`. -/
def through? (p : Population) (source target id : String) (phrase : Option String) :
    Option Through :=
  p.throughs.find? fun t =>
    let far :=
      if t.first.className = source ∧ t.second.className = target then some t.second
      else if t.first.className = target ∧ t.second.className = source then some t.first
      else none
    t.id = id ∧ far.any fun e => phrase.isNone ∨ e.phrase = phrase

/-- The references without repetition, each where it stands first. -/
def distinct : List InstanceRef → List InstanceRef
  | [] => []
  | r :: rest => r :: (distinct rest).filter (· ≠ r)

/-- From end to end of an association with a link class. -/
def navigateThrough (p : Population) (t : Through) (a : InstanceRef) (className : String) :
    Except PopulationError (List InstanceRef) := do
  let toLink ← p.reading a.className t.link t.id none
  let fromLink ← p.reading t.link className t.id none
  return distinct ((p.linked toLink a).flatMap (p.linked fromLink))

/-- The instances of a class that one hop across a relationship reaches from `a`. -/
def navigate (p : Population) (a : InstanceRef) (className id : String) (phrase : Option String) :
    Except PopulationError (List InstanceRef) := do
  let _ ← p.tracked a
  let _ ← p.classDef className
  match p.reading a.className className id phrase with
  | .ok r => return p.linked r a
  | .error (.unknownRelationship source target id phrase) =>
    match p.through? a.className className id phrase with
    | some t => p.navigateThrough t a className
    | none => .error (.unknownRelationship source target id phrase)
  | .error e => .error e

/-- Links `a` to `b`. Refused if they are linked already, or if an end with room for one instance
is taken. -/
def relate (p : Population) (a b : InstanceRef) (id : String) (phrase : Option String) :
    Except PopulationError Population := do
  let _ ← p.tracked a
  let _ ← p.tracked b
  let r ← p.reading a.className b.className id phrase
  if p.links.any (r.joins a b)
      ∨ (!r.target.many ∧ p.links.any (r.leaves a))
      ∨ (!r.source.many ∧ p.links.any (r.arrives b)) then
    .error (.alreadyRelated a.text b.text id)
  else return { p with links := p.links ++ [r.link a b] }

/-- Removes the link from `a` to `b`. -/
def unrelate (p : Population) (a b : InstanceRef) (id : String) (phrase : Option String) :
    Except PopulationError Population := do
  let _ ← p.tracked a
  let _ ← p.tracked b
  let r ← p.reading a.className b.className id phrase
  if p.links.any (r.joins a b) then return { p with links := p.links.eraseP (r.joins a b) }
  else .error (.notRelated a.text b.text id)

end ObjectAction.Population
