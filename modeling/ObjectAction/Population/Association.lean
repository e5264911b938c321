/-
Associations and links. A leg is one association between two classes; an association with a link
class is two legs, one from each end to the link class. A reading of a leg says from which of its
two ends it is followed.
-/
import ObjectAction.Value

namespace ObjectAction

inductive Side where
  | first
  | second
  deriving DecidableEq, Repr

def Side.other : Side → Side
  | first => second
  | second => first

/-- One end of an association: the class there, the phrase that names this end seen from the other
one, and whether many instances can be there. -/
structure End where
  className : String
  phrase : Option String
  many : Bool
  deriving DecidableEq, Repr

structure Leg where
  id : String
  first : End
  second : End
  deriving DecidableEq, Repr

def Leg.at (l : Leg) : Side → End
  | .first => l.first
  | .second => l.second

/-- An association between two classes by way of a link class. -/
structure Through where
  id : String
  first : End
  second : End
  link : String
  deriving DecidableEq, Repr

/-- Two instances joined by the leg with that index. -/
structure Link where
  leg : Nat
  first : InstanceRef
  second : InstanceRef
  deriving DecidableEq, Repr

def Link.at (l : Link) : Side → InstanceRef
  | .first => l.first
  | .second => l.second

/-- Whether the instance is at one of the ends. -/
def Link.touches (l : Link) (r : InstanceRef) : Bool := l.first = r ∨ l.second = r

/-- A leg with its index, followed from `side` to the other side. -/
structure Reading where
  index : Nat
  leg : Leg
  side : Side
  deriving DecidableEq, Repr

namespace Reading

def source (r : Reading) : End := r.leg.at r.side

def target (r : Reading) : End := r.leg.at r.side.other

/-- Whether the link joins `a` to `b` in this reading. -/
def joins (r : Reading) (a b : InstanceRef) (l : Link) : Bool :=
  l.leg = r.index ∧ l.at r.side = a ∧ l.at r.side.other = b

/-- Whether the link leaves `a` in this reading. -/
def leaves (r : Reading) (a : InstanceRef) (l : Link) : Bool :=
  l.leg = r.index ∧ l.at r.side = a

/-- Whether the link arrives at `b` in this reading. -/
def arrives (r : Reading) (b : InstanceRef) (l : Link) : Bool :=
  l.leg = r.index ∧ l.at r.side.other = b

/-- The link that joins `a` to `b` in this reading. -/
def link (r : Reading) (a b : InstanceRef) : Link :=
  match r.side with
  | .first => ⟨r.index, a, b⟩
  | .second => ⟨r.index, b, a⟩

end Reading

end ObjectAction
